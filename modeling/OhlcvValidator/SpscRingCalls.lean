import OhlcvValidator.BoundedQueue
import OhlcvValidator.SpscRingCoherent

namespace OhlcvValidator

namespace SpscRing

variable {T : Type} {w : PowTwo}

/-- Write the item into its slot and publish it. -/
def store (r : SpscRing T w) (item : T) : SpscRing T w :=
  { r with buf := Function.update r.buf (w.index r.tail) item, tail := r.tail + 1 }

/-- One call of `try_push` that nothing interrupts. -/
def tryPush (cacheFarCursor : Bool) (r : SpscRing T w) (item : T) : SpscRing T w × Bool :=
  if cacheFarCursor then
    if looksFull w r.tail r.cachedHead then
      let r := { r with cachedHead := r.head }
      if looksFull w r.tail r.cachedHead then (r, false) else (r.store item, true)
    else (r.store item, true)
  else if looksFull w r.tail r.head then (r, false)
  else (r.store item, true)

/-- The item at the head, with its slot freed. -/
def take (r : SpscRing T w) : SpscRing T w × Option T :=
  ({ r with head := r.head + 1 }, some (r.buf (w.index r.head)))

/-- One call of `try_pop` that nothing interrupts; `out` is assigned only on success. -/
def tryPop (cacheFarCursor : Bool) (r : SpscRing T w) : SpscRing T w × Option T :=
  if cacheFarCursor then
    if r.head = r.cachedTail then
      let r := { r with cachedTail := r.tail }
      if r.head = r.cachedTail then (r, none) else r.take
    else r.take
  else if r.head = r.tail then (r, none)
  else r.take

def call (cacheFarCursor : Bool) (r : SpscRing T w) : QueueCall T → SpscRing T w × QueueReply T
  | .push item => ((r.tryPush cacheFarCursor item).1, .pushed (r.tryPush cacheFarCursor item).2)
  | .pop => ((r.tryPop cacheFarCursor).1, .popped (r.tryPop cacheFarCursor).2)

/-- The producer looks at the real head, and keeps it if it caches the far cursor. -/
def refreshHead (cacheFarCursor : Bool) (r : SpscRing T w) : SpscRing T w :=
  { r with cachedHead := if cacheFarCursor then r.head else r.cachedHead }

/-- The consumer looks at the real tail. -/
def refreshTail (cacheFarCursor : Bool) (r : SpscRing T w) : SpscRing T w :=
  { r with cachedTail := if cacheFarCursor then r.tail else r.cachedTail }

/-- Both variants decide by the real head unless a cached one already shows room. -/
theorem tryPush_eq (cacheFarCursor : Bool) (r : SpscRing T w) (item : T) :
    r.tryPush cacheFarCursor item =
      if cacheFarCursor ∧ ¬looksFull w r.tail r.cachedHead then (r.store item, true)
      else if looksFull w r.tail r.head then (r.refreshHead cacheFarCursor, false)
      else ((r.refreshHead cacheFarCursor).store item, true) := by
  unfold tryPush refreshHead
  cases cacheFarCursor with
  | false => simp
  | true => cases hcached : looksFull w r.tail r.cachedHead <;> simp

theorem tryPop_eq (cacheFarCursor : Bool) (r : SpscRing T w) :
    r.tryPop cacheFarCursor =
      if cacheFarCursor ∧ r.head ≠ r.cachedTail then r.take
      else if r.head = r.tail then (r.refreshTail cacheFarCursor, none)
      else (r.refreshTail cacheFarCursor).take := by
  unfold tryPop refreshTail
  cases cacheFarCursor with
  | false => simp
  | true => by_cases hcached : r.head = r.cachedTail <;> simp [hcached]

/-- An empty ring with all cursors at `c`. -/
def empty (c : UInt64) (buf : Fin w.size → T) : SpscRing T w where
  buf := buf
  tail := c
  cachedHead := c
  head := c
  cachedTail := c

/-- The items between the cursors, the oldest first. -/
def contents (r : SpscRing T w) : List T :=
  (List.range (r.tail - r.head).toNat).map fun i => r.buf (w.index (r.head + UInt64.ofNat i))

/-- The ring holds the items of `q` from position `n` on. Cached cursors are old positions
of the far side, the producer's no further back than the ring can hold. -/
structure Queues (cacheFarCursor : Bool) (n : Nat) (r : SpscRing T w) (q : List T) : Prop where
  head_eq : r.head = UInt64.ofNat n
  tail_eq : r.tail = UInt64.ofNat (n + q.length)
  room : q.length ≤ w.size
  items : ∀ i x, q[i]? = some x → r.buf (w.slotOf (n + i)) = x
  cachedHead : cacheFarCursor = true →
    ∃ m ≤ n, r.cachedHead = UInt64.ofNat m ∧ n + q.length ≤ m + w.size
  cachedTail : cacheFarCursor = true →
    ∃ m, n ≤ m ∧ m ≤ n + q.length ∧ r.cachedTail = UInt64.ofNat m

theorem queues_empty (cacheFarCursor : Bool) (c : UInt64) (buf : Fin w.size → T) :
    Queues cacheFarCursor c.toNat (empty c buf) [] where
  head_eq := (UInt64.ofNat_toNat).symm
  tail_eq := (UInt64.ofNat_toNat).symm
  room := Nat.zero_le _
  items := by simp
  cachedHead := fun _ => ⟨c.toNat, le_rfl, (UInt64.ofNat_toNat).symm, Nat.le_add_right _ _⟩
  cachedTail := fun _ => ⟨c.toNat, le_rfl, le_rfl, (UInt64.ofNat_toNat).symm⟩

section Step

variable {cacheFarCursor : Bool} {n : Nat} {r : SpscRing T w} {q : List T}

theorem Queues.contents_eq (h : Queues cacheFarCursor n r q) : r.contents = q := by
  have hfits := w.fits
  have hroom := h.room
  have hlen : (r.tail - r.head).toNat = q.length := by
    rw [h.tail_eq, h.head_eq, toNat_ofNat_sub (by omega) (by omega)]
    omega
  rw [contents, hlen]
  apply List.ext_getElem
  · simp
  · intro i _ hi
    rw [List.getElem_map, List.getElem_range, h.head_eq, ← UInt64.ofNat_add, w.index_ofNat]
    exact h.items i _ (List.getElem?_eq_getElem hi)

/-- A side may look at the far cursor at any time. -/
theorem Queues.refreshHead (h : Queues cacheFarCursor n r q) :
    Queues cacheFarCursor n (r.refreshHead cacheFarCursor) q :=
  { h with cachedHead := fun hc =>
      ⟨n, le_rfl, by simp [SpscRing.refreshHead, hc, h.head_eq], Nat.add_le_add_left h.room n⟩ }

theorem Queues.refreshTail (h : Queues cacheFarCursor n r q) :
    Queues cacheFarCursor n (r.refreshTail cacheFarCursor) q :=
  { h with cachedTail := fun hc => ⟨n + q.length, Nat.le_add_right _ _, le_rfl, by
      simp [SpscRing.refreshTail, hc, h.tail_eq]⟩ }

theorem Queues.head_full_iff (h : Queues cacheFarCursor n r q) :
    looksFull w r.tail r.head = true ↔ q.length = w.size := by
  have hroom := h.room
  rw [h.tail_eq, h.head_eq, looksFull_iff (by omega) (by omega)]
  omega

/-- A cached head that leaves room leaves less room than there is. -/
theorem Queues.cachedHead_room (h : Queues cacheFarCursor n r q) (hc : cacheFarCursor = true)
    (hnot : looksFull w r.tail r.cachedHead = false) :
    ∃ m ≤ n, r.cachedHead = UInt64.ofNat m ∧ n + q.length < m + w.size := by
  obtain ⟨m, hm, heq, hroom⟩ := h.cachedHead hc
  have hfull := looksFull_iff (w := w) (n := n + q.length) (i := m) (by omega) hroom
  rw [← heq, ← h.tail_eq, hnot] at hfull
  exact ⟨m, hm, heq, by simp at hfull; omega⟩

theorem Queues.store (h : Queues cacheFarCursor n r q) (item : T) (hfree : q.length < w.size)
    (hcache : cacheFarCursor = true → looksFull w r.tail r.cachedHead = false) :
    Queues cacheFarCursor n (r.store item) (q ++ [item]) := by
  have hlen : (q ++ [item]).length = q.length + 1 := by simp
  have hslot : w.index r.tail = w.slotOf (n + q.length) := by rw [h.tail_eq, w.index_ofNat]
  refine ⟨h.head_eq, ?_, by omega, ?_, ?_, ?_⟩
  · change r.tail + 1 = UInt64.ofNat (n + (q ++ [item]).length)
    rw [hlen, ← Nat.add_assoc, UInt64.ofNat_add, h.tail_eq]
    rfl
  · intro i x hx
    change Function.update r.buf (w.index r.tail) item (w.slotOf (n + i)) = x
    rw [hslot]
    rcases getElem?_pushed_concat hx with hx | ⟨rfl, rfl⟩
    · have hi := (List.getElem?_eq_some_iff.mp hx).1
      have hne : w.slotOf (n + i) ≠ w.slotOf (n + q.length) := by
        intro he
        have := w.eq_of_slotOf_eq (f := n) (by omega) (by omega) (by omega) (by omega) he
        omega
      rw [Function.update_of_ne hne]
      exact h.items i x hx
    · exact Function.update_self ..
  · intro hc
    obtain ⟨m, hm, heq, hroom⟩ := h.cachedHead_room hc (hcache hc)
    exact ⟨m, hm, heq, by omega⟩
  · intro hc
    obtain ⟨m, hm, hm', heq⟩ := h.cachedTail hc
    exact ⟨m, hm, by omega, heq⟩

theorem Queues.push (h : Queues cacheFarCursor n r q) (item : T) :
    (call cacheFarCursor r (.push item)).2 = (boundedQueue w.size q (.push item)).2 ∧
      Queues cacheFarCursor n (call cacheFarCursor r (.push item)).1
        (boundedQueue w.size q (.push item)).1 := by
  have hroom := h.room
  have hfull := h.head_full_iff
  have hstored : q.length < w.size → boundedQueue w.size q (.push item) =
      (q ++ [item], .pushed true) := fun hfree => if_pos hfree
  simp only [call, tryPush_eq]
  split
  next htrust =>
    have hcached := Bool.eq_false_iff.mpr htrust.2
    obtain ⟨m, hm, _, hless⟩ := h.cachedHead_room htrust.1 hcached
    have hfree : q.length < w.size := by omega
    rw [hstored hfree]
    exact ⟨rfl, h.store item hfree fun _ => hcached⟩
  next =>
    split
    next hlook =>
      have hrejected : boundedQueue w.size q (.push item) = (q, .pushed false) :=
        if_neg (by have := hfull.mp hlook; omega)
      rw [hrejected]
      exact ⟨rfl, h.refreshHead⟩
    next hlook =>
      have hfree : q.length < w.size := Nat.lt_of_le_of_ne hroom fun he => hlook (hfull.mpr he)
      rw [hstored hfree]
      refine ⟨rfl, h.refreshHead.store item hfree fun hc => ?_⟩
      simpa [SpscRing.refreshHead, hc] using hlook

theorem Queues.head_eq_iff (h : Queues cacheFarCursor n r q) {m : Nat} (hm : n ≤ m)
    (hm' : m ≤ n + q.length) : r.head = UInt64.ofNat m ↔ n = m := by
  have hfits := w.fits
  have hroom := h.room
  rw [h.head_eq]
  exact ofNat_eq_ofNat_iff hm (by omega)

theorem Queues.take {item : T} (h : Queues cacheFarCursor n r (item :: q))
    (hcache : cacheFarCursor = true → r.head ≠ r.cachedTail) :
    r.take.2 = some item ∧ Queues cacheFarCursor (n + 1) r.take.1 q := by
  have hlen : (item :: q).length = q.length + 1 := rfl
  have hroom := h.room
  refine ⟨?_, ?_, ?_, by omega, ?_, ?_, ?_⟩
  · change some (r.buf (w.index r.head)) = some item
    rw [h.head_eq, w.index_ofNat]
    exact congrArg some (h.items 0 item rfl)
  · change r.head + 1 = UInt64.ofNat (n + 1)
    rw [h.head_eq, UInt64.ofNat_add]
    rfl
  · change r.tail = _
    rw [h.tail_eq, hlen, Nat.add_right_comm, Nat.add_assoc]
  · intro i x hx
    have := h.items (i + 1) x hx
    rwa [← Nat.add_assoc, Nat.add_right_comm] at this
  · intro hc
    obtain ⟨m, hm, heq, hroom⟩ := h.cachedHead hc
    exact ⟨m, by omega, heq, by omega⟩
  · intro hc
    obtain ⟨m, hm, hm', heq⟩ := h.cachedTail hc
    have hne := hcache hc
    rw [heq, Ne, h.head_eq_iff hm hm'] at hne
    exact ⟨m, by omega, by omega, heq⟩

theorem Queues.pop (h : Queues cacheFarCursor n r q) :
    (call cacheFarCursor r .pop).2 = (boundedQueue w.size q .pop).2 ∧
      ∃ n, Queues cacheFarCursor n (call cacheFarCursor r .pop).1
        (boundedQueue w.size q .pop).1 := by
  have hempty : r.head = r.tail ↔ q.length = 0 := by
    rw [h.tail_eq, h.head_eq_iff (Nat.le_add_right _ _) le_rfl]
    omega
  simp only [call, tryPop_eq]
  cases q with
  | nil =>
    -- with nothing between the cursors, a cached tail can only be the tail
    have hcached : ¬(cacheFarCursor = true ∧ r.head ≠ r.cachedTail) := by
      rintro ⟨hc, hne⟩
      obtain ⟨m, hm, hm', heq⟩ := h.cachedTail hc
      rw [heq, Ne, h.head_eq_iff hm hm'] at hne
      exact hne (le_antisymm hm hm')
    rw [if_neg hcached, if_pos (hempty.mpr rfl)]
    exact ⟨rfl, n, h.refreshTail⟩
  | cons item q =>
    have hsome : r.head ≠ r.tail := fun he => Nat.succ_ne_zero _ (hempty.mp he)
    split
    next htrust =>
      obtain ⟨hitem, hnext⟩ := h.take fun _ => htrust.2
      exact ⟨congrArg QueueReply.popped hitem, n + 1, hnext⟩
    next =>
      obtain ⟨hitem, hnext⟩ := h.refreshTail.take fun hc => by
        simpa [SpscRing.refreshTail, hc] using hsome
      exact ⟨congrArg QueueReply.popped hitem, n + 1, hnext⟩

theorem queues_call {r : SpscRing T w} {q : List T} (h : ∃ n, Queues cacheFarCursor n r q)
    (c : QueueCall T) :
    (call cacheFarCursor r c).2 = (boundedQueue w.size q c).2 ∧
      ∃ n, Queues cacheFarCursor n (call cacheFarCursor r c).1 (boundedQueue w.size q c).1 := by
  obtain ⟨n, h⟩ := h
  cases c with
  | push item =>
    obtain ⟨hreply, hnext⟩ := h.push item
    exact ⟨hreply, n, hnext⟩
  | pop => exact h.pop

/-- The naive variant does not look at the cached cursors. -/
theorem Queues.naive (h : Queues cacheFarCursor n r q) (x y : UInt64) :
    Queues false n { r with cachedHead := x, cachedTail := y } q :=
  { h with
    cachedHead := fun hc => Bool.noConfusion hc
    cachedTail := fun hc => Bool.noConfusion hc }

/-- A call that fails touches at most the caller's cached cursor. -/
theorem contents_of_fails {c : QueueCall T} (hfail : (call cacheFarCursor r c).2.ok = false) :
    (call cacheFarCursor r c).1.contents = r.contents := by
  cases c with
  | push item =>
    simp only [call, tryPush_eq, QueueReply.ok] at hfail ⊢
    split at hfail
    next => cases hfail
    next htrust =>
      split at hfail
      next hfull =>
        rw [if_neg htrust, if_pos hfull]
        rfl
      next => cases hfail
  | pop =>
    simp only [call, tryPop_eq, QueueReply.ok] at hfail ⊢
    split at hfail
    next => cases hfail
    next htrust =>
      split at hfail
      next hempty =>
        rw [if_neg htrust, if_pos hempty]
        rfl
      next => cases hfail

end Step

theorem queues_calls {cacheFarCursor : Bool} {r : SpscRing T w} {q : List T}
    (h : ∃ n, Queues cacheFarCursor n r q) (calls : List (QueueCall T)) :
    (transduce (call cacheFarCursor) r calls).2 = (transduce (boundedQueue w.size) q calls).2 ∧
      ∃ n, Queues cacheFarCursor n (transduce (call cacheFarCursor) r calls).1
        (transduce (boundedQueue w.size) q calls).1 :=
  transduce_simulates (R := fun r q => ∃ n, Queues cacheFarCursor n r q)
    (fun _ _ c h => queues_call h c) calls h

section Interleaving

variable {cacheFarCursor : Bool} {s s' u : Session T w}

theorem view_latest {xs : List UInt64} {x : UInt64} {seen i : Nat} (h : view xs seen i = some x) :
    seen ≤ i ∧ view xs i i = some x := by
  unfold view at h ⊢
  split at h
  next hle => exact ⟨hle, by rwa [if_pos le_rfl]⟩
  next => cases h

theorem view_concat {xs : List UInt64} {seen : Nat} (h : seen ≤ xs.length) (y : UInt64) :
    view (xs ++ [y]) seen ((xs ++ [y]).length - 1) = some y := by
  simp [view, h]

/-- No call is under way, and each side can see the other's latest cursor. -/
structure Rests (s : Session T w) : Prop where
  producer : s.producer = .idle
  consumer : s.consumer = .idle
  heads : view s.heads s.headSeen (s.heads.length - 1) = some s.ring.head
  tails : view s.tails s.tailSeen (s.tails.length - 1) = some s.ring.tail

theorem rests_fresh (buf : Fin w.size → T) :
    Rests ({ ring := { buf := buf } } : Session T w) where
  producer := rfl
  consumer := rfl
  heads := rfl
  tails := rfl

/-- Some steps lead from one session to the other. -/
def Steps (cacheFarCursor : Bool) (s s' : Session T w) : Prop :=
  ∃ actions : List (Action T), actions.foldlM (step cacheFarCursor) s = some s'

theorem Steps.cons {a : Action T} (ha : step cacheFarCursor s a = some u)
    (h : Steps cacheFarCursor u s') : Steps cacheFarCursor s s' := by
  obtain ⟨actions, hrun⟩ := h
  exact ⟨a :: actions, by simpa [List.foldlM_cons, ha] using hrun⟩

theorem Steps.refl (s : Session T w) : Steps cacheFarCursor s s :=
  ⟨[], rfl⟩

/-- Once `try_push` knows that there is room, it writes the slot and publishes it. -/
theorem Rests.finishPush (h : Rests s) (item : T) :
    ∃ s', Steps cacheFarCursor { s with producer := .writing item s.ring.tail } s' ∧ Rests s' ∧
      s'.ring = s.ring.store item := by
  refine ⟨_, Steps.cons (a := .writeSlot) rfl (Steps.cons (a := .publishTail) rfl (Steps.refl _)),
    ⟨rfl, h.consumer, h.heads, ?_⟩, rfl⟩
  have hseen : s.tailSeen ≤ s.tails.length := (view_latest h.tails).1.trans (Nat.sub_le _ _)
  exact view_concat hseen _

theorem Rests.noteHead (h : Rests s) (cacheFarCursor : Bool) :
    Rests (SpscRing.noteHead cacheFarCursor s (s.heads.length - 1) s.ring.head) where
  producer := h.producer
  consumer := h.consumer
  heads := (view_latest h.heads).2
  tails := h.tails

/-- A `try_push` that nothing interrupts is a sequence of the producer's steps. -/
theorem Rests.push (h : Rests s) (item : T) :
    ∃ s', Steps cacheFarCursor s s' ∧ Rests s' ∧
      s'.ring = (s.ring.tryPush cacheFarCursor item).1 := by
  have hread : step cacheFarCursor s (.readTail item) =
      some { s with producer := .viewing item s.ring.tail } := by
    simp [step, stepPush, h.producer]
  rw [tryPush_eq]
  split
  next htrust =>
    obtain ⟨s', hsteps, hrests, hring⟩ := h.finishPush item
    have hview : step cacheFarCursor { s with producer := .viewing item s.ring.tail } .trustHead =
        some { s with producer := .writing item s.ring.tail } := by
      simp [step, stepPush, htrust]
    exact ⟨s', (hsteps.cons hview).cons hread, hrests, hring⟩
  next htrust =>
    let noted := SpscRing.noteHead cacheFarCursor s (s.heads.length - 1) s.ring.head
    have hview : step cacheFarCursor { s with producer := .viewing item s.ring.tail }
        (.viewHead (s.heads.length - 1)) = some (if looksFull w s.ring.tail s.ring.head then
          { noted with producer := .idle } else { noted with producer := .writing item s.ring.tail }) := by
      simp only [step, stepPush]
      rw [if_neg htrust, h.heads]
      simp only [Option.bind_eq_bind, Option.bind_some]
      split <;> rfl
    split
    next hfull =>
      rw [if_pos hfull] at hview
      exact ⟨_, ((Steps.refl _).cons hview).cons hread,
        { h.noteHead cacheFarCursor with producer := rfl }, rfl⟩
    next hfull =>
      rw [if_neg hfull] at hview
      obtain ⟨s', hsteps, hrests, hring⟩ := (h.noteHead cacheFarCursor).finishPush item
      exact ⟨s', (hsteps.cons hview).cons hread, hrests, hring⟩

theorem Rests.finishPop (h : Rests s) :
    ∃ s', Steps cacheFarCursor { s with consumer := .reading s.ring.head } s' ∧ Rests s' ∧
      s'.ring = s.ring.take.1 := by
  have hseen : s.headSeen ≤ s.heads.length := (view_latest h.heads).1.trans (Nat.sub_le _ _)
  exact ⟨_, Steps.cons (a := .readSlot) rfl (Steps.cons (a := .publishHead) rfl (Steps.refl _)),
    ⟨h.producer, rfl, view_concat hseen _, h.tails⟩, rfl⟩

theorem Rests.noteTail (h : Rests s) (cacheFarCursor : Bool) :
    Rests (SpscRing.noteTail cacheFarCursor s (s.tails.length - 1) s.ring.tail) where
  producer := h.producer
  consumer := h.consumer
  heads := h.heads
  tails := (view_latest h.tails).2

/-- A `try_pop` that nothing interrupts is a sequence of the consumer's steps. -/
theorem Rests.pop (h : Rests s) :
    ∃ s', Steps cacheFarCursor s s' ∧ Rests s' ∧ s'.ring = (s.ring.tryPop cacheFarCursor).1 := by
  have hread : step cacheFarCursor s .readHead =
      some { s with consumer := .viewing s.ring.head } := by
    simp [step, stepPop, h.consumer]
  rw [tryPop_eq]
  split
  next htrust =>
    obtain ⟨s', hsteps, hrests, hring⟩ := h.finishPop
    have hview : step cacheFarCursor { s with consumer := .viewing s.ring.head } .trustTail =
        some { s with consumer := .reading s.ring.head } := by
      simp [step, stepPop, htrust]
    exact ⟨s', (hsteps.cons hview).cons hread, hrests, hring⟩
  next htrust =>
    let noted := SpscRing.noteTail cacheFarCursor s (s.tails.length - 1) s.ring.tail
    have hview : step cacheFarCursor { s with consumer := .viewing s.ring.head }
        (.viewTail (s.tails.length - 1)) = some (if s.ring.head = s.ring.tail then
          { noted with consumer := .idle }
          else { noted with consumer := .reading s.ring.head }) := by
      simp only [step, stepPop]
      rw [if_neg htrust, h.tails]
      simp only [Option.bind_eq_bind, Option.bind_some]
      split <;> rfl
    split
    next hempty =>
      rw [if_pos hempty] at hview
      exact ⟨_, ((Steps.refl _).cons hview).cons hread,
        { h.noteTail cacheFarCursor with consumer := rfl }, rfl⟩
    next hempty =>
      rw [if_neg hempty] at hview
      obtain ⟨s', hsteps, hrests, hring⟩ := (h.noteTail cacheFarCursor).finishPop
      exact ⟨s', (hsteps.cons hview).cons hread, hrests, hring⟩

theorem Steps.trans (h : Steps cacheFarCursor s u) (h' : Steps cacheFarCursor u s') :
    Steps cacheFarCursor s s' := by
  obtain ⟨first, hfirst⟩ := h
  obtain ⟨second, hsecond⟩ := h'
  exact ⟨first ++ second, by simpa [List.foldlM_append, hfirst] using hsecond⟩

theorem Rests.calls (h : Rests s) (calls : List (QueueCall T)) :
    ∃ s', Steps cacheFarCursor s s' ∧ Rests s' ∧
      s'.ring = (transduce (call cacheFarCursor) s.ring calls).1 := by
  induction calls generalizing s with
  | nil => exact ⟨s, Steps.refl s, h, rfl⟩
  | cons c calls ih =>
    have hcall : ∃ u, Steps cacheFarCursor s u ∧ Rests u ∧
        u.ring = (call cacheFarCursor s.ring c).1 := by
      cases c with
      | push item => exact h.push item
      | pop => exact h.pop
    obtain ⟨u, hsteps, hrests, hring⟩ := hcall
    obtain ⟨s', hsteps', hrests', hring'⟩ := ih hrests
    rw [hring] at hring'
    exact ⟨s', hsteps.trans hsteps', hrests', hring'⟩

/-- Calls made one at a time on a fresh ring are an interleaving of the two sides' steps. -/
theorem calls_interleave (cacheFarCursor : Bool) (buf : Fin w.size → T)
    (calls : List (QueueCall T)) :
    ∃ actions s, run cacheFarCursor buf actions = some s ∧
      s.ring = (transduce (call cacheFarCursor) (empty 0 buf) calls).1 := by
  obtain ⟨s, ⟨actions, hrun⟩, _, hring⟩ := (rests_fresh buf).calls calls
  exact ⟨actions, s, hrun, hring⟩

end Interleaving

/-- One call at a time, the ring that caches the far cursors, the naive ring and a queue of the
same capacity cannot be told apart, wherever the 64-bit cursors start and whatever the caches
hold after the calls before. A call that fails leaves the contents as they are. -/
theorem ring_is_boundedQueue (c : UInt64) (buf : Fin w.size → T)
    (before calls : List (QueueCall T)) :
    let r := (transduce (call true) (empty c buf) before).1
    let queue := transduce (boundedQueue w.size) r.contents calls
    let cached := transduce (call true) r calls
    (cached.2 = queue.2 ∧ cached.1.contents = queue.1) ∧
      (∀ x y,
        let naive := transduce (call false) { r with cachedHead := x, cachedTail := y } calls
        naive.2 = queue.2 ∧ naive.1.contents = queue.1) ∧
      (r.head = r.tail → r.contents = []) ∧
      ∀ cacheFarCursor (ring : SpscRing T w) a, (call cacheFarCursor ring a).2.ok = false →
        (call cacheFarCursor ring a).1.contents = ring.contents := by
  intro r queue cached
  obtain ⟨_, n, hr⟩ := queues_calls ⟨_, queues_empty true c buf⟩ before
  have hcontents : r.contents = _ := hr.contents_eq
  rw [← hcontents] at hr
  refine ⟨?_, fun x y => ?_, ?_, fun _ _ _ => contents_of_fails⟩
  · obtain ⟨hreplies, _, hend⟩ := queues_calls ⟨n, hr⟩ calls
    exact ⟨hreplies, hend.contents_eq⟩
  · obtain ⟨hreplies, _, hend⟩ := queues_calls ⟨n, hr.naive x y⟩ calls
    exact ⟨hreplies, hend.contents_eq⟩
  · intro he
    rw [contents, he, UInt64.sub_self]
    rfl

end SpscRing

end OhlcvValidator
