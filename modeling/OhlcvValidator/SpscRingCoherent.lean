import OhlcvValidator.SpscRing

namespace OhlcvValidator

namespace SpscRing

variable {T : Type} {w : PowTwo}

/-- The values a counter was published with on its way to `n`. -/
def published (n : Nat) : List UInt64 :=
  (List.range (n + 1)).map UInt64.ofNat

theorem published_succ (n : Nat) :
    published (n + 1) = published n ++ [UInt64.ofNat n + 1] := by
  simp [published, List.range_succ, UInt64.ofNat_add]

theorem view_published {n seen i : Nat} {v : UInt64} (h : view (published n) seen i = some v) :
    seen ≤ i ∧ i ≤ n ∧ v = UInt64.ofNat i := by
  unfold view at h
  split at h
  next hle =>
    obtain ⟨hi, hv⟩ := List.getElem?_eq_some_iff.mp h
    simp only [published, List.length_map, List.length_range] at hi
    refine ⟨hle, by omega, ?_⟩
    rw [← hv]
    simp [published]
  next => simp at h

theorem looksFull_iff {n i : Nat} (hle : i ≤ n) (hroom : n ≤ i + w.size) :
    looksFull w (UInt64.ofNat n) (UInt64.ofNat i) = true ↔ n = i + w.size := by
  have hfits := w.fits
  unfold looksFull
  rw [decide_eq_true_iff, UInt64.le_iff_toNat_le, toNat_ofNat_sub hle (by omega),
    UInt64.toNat_ofNat_of_lt' (show w.size < UInt64.size from hfits)]
  omega

/-- What a producer knows at each point of `try_push`. -/
def ProducerOk (s : Session T w) : Prop :=
  match s.producer with
  | .idle => True
  | .viewing _ t => t = s.ring.tail
  | .writing _ t => t = s.ring.tail ∧ s.pushed.length < s.headSeen + w.size
  | .publishing item t => t = s.ring.tail ∧ s.pushed.length < s.headSeen + w.size ∧
      s.ring.buf (w.index t) = item

/-- What a consumer knows at each point of `try_pop`. -/
def ConsumerOk (s : Session T w) : Prop :=
  match s.consumer with
  | .idle => True
  | .viewing h => h = s.ring.head
  | .reading h => h = s.ring.head ∧ s.popped.length < s.tailSeen
  | .publishing h out => h = s.ring.head ∧ s.popped.length < s.tailSeen ∧
      s.pushed[s.popped.length]?.map Prod.fst = some out

/-- The cursors are the push and pop counts, each side's view lags behind the other's
count by no more than the ring can hold, and outstanding items are in their slots. -/
structure Coherent (cacheFarCursor : Bool) (s : Session T w) : Prop where
  tail_eq : s.ring.tail = UInt64.ofNat s.pushed.length
  head_eq : s.ring.head = UInt64.ofNat s.popped.length
  tails_eq : s.tails = published s.pushed.length
  heads_eq : s.heads = published s.popped.length
  cachedHead_eq : cacheFarCursor = true → s.ring.cachedHead = UInt64.ofNat s.headSeen
  cachedTail_eq : cacheFarCursor = true → s.ring.cachedTail = UInt64.ofNat s.tailSeen
  headSeen_le : s.headSeen ≤ s.popped.length
  popped_le : s.popped.length ≤ s.tailSeen
  tailSeen_le : s.tailSeen ≤ s.pushed.length
  room : s.pushed.length ≤ s.headSeen + w.size
  slots : ∀ (j : Nat) p, s.pushed[j]? = some p → p.2 = w.slotOf j
  contents : ∀ (j : Nat) p, s.popped.length ≤ j → s.pushed[j]? = some p → s.ring.buf p.2 = p.1
  popped_eq : s.popped = (s.pushed.map Prod.fst).take s.popped.length
  producer_ok : ProducerOk s
  consumer_ok : ConsumerOk s

theorem coherent_fresh (cacheFarCursor : Bool) (buf : Fin w.size → T) :
    Coherent cacheFarCursor { ring := { buf := buf } } where
  tail_eq := rfl
  head_eq := rfl
  tails_eq := rfl
  heads_eq := rfl
  cachedHead_eq := fun _ => rfl
  cachedTail_eq := fun _ => rfl
  headSeen_le := le_rfl
  popped_le := le_rfl
  tailSeen_le := le_rfl
  room := Nat.zero_le _
  slots := by simp
  contents := by simp
  popped_eq := rfl
  producer_ok := trivial
  consumer_ok := trivial

section Steps

variable {cacheFarCursor : Bool} {s s' : Session T w}

/-- The slot after the last push is not one of an outstanding item. -/
theorem Coherent.slot_free (h : Coherent cacheFarCursor s)
    (hroom : s.pushed.length < s.headSeen + w.size) {j : Nat} (hj : s.popped.length ≤ j)
    (hj' : j < s.pushed.length) : w.slotOf j ≠ w.slotOf s.pushed.length := by
  have hseen := h.headSeen_le
  intro he
  have := w.eq_of_slotOf_eq (f := s.headSeen) (by omega) (by omega) (by omega) hroom he
  omega

theorem Coherent.readTail (h : Coherent cacheFarCursor s) {item : T}
    (hs : step cacheFarCursor s (.readTail item) = some s') : Coherent cacheFarCursor s' := by
  simp only [step, stepPush] at hs
  split at hs
  next =>
    obtain rfl := Option.some.inj hs
    exact { h with producer_ok := rfl }
  next => simp at hs

theorem Coherent.trustHead (h : Coherent cacheFarCursor s)
    (hs : step cacheFarCursor s .trustHead = some s') : Coherent cacheFarCursor s' := by
  have hle : s.headSeen ≤ s.pushed.length :=
    h.headSeen_le.trans (h.popped_le.trans h.tailSeen_le)
  simp only [step, stepPush] at hs
  split at hs
  next item t hpc =>
    have ht : t = s.ring.tail := by simpa [ProducerOk, hpc] using h.producer_ok
    split at hs
    next hok =>
      obtain rfl := Option.some.inj hs
      rw [ht, h.tail_eq, h.cachedHead_eq hok.1, looksFull_iff hle h.room] at hok
      have hfree : s.pushed.length < s.headSeen + w.size := by
        have := h.room
        omega
      exact { h with producer_ok := ⟨ht, hfree⟩ }
    next => simp at hs
  next => simp at hs

theorem Coherent.noteHead (h : Coherent cacheFarCursor s) {i : Nat} {pc : Producer T}
    (hseen : s.headSeen ≤ i) (hi : i ≤ s.popped.length)
    (hpc : ProducerOk { s with headSeen := i, producer := pc }) :
    Coherent cacheFarCursor
      { SpscRing.noteHead cacheFarCursor s i (UInt64.ofNat i) with producer := pc } where
  tail_eq := h.tail_eq
  head_eq := h.head_eq
  tails_eq := h.tails_eq
  heads_eq := h.heads_eq
  cachedHead_eq := by
    intro hc
    simp [SpscRing.noteHead, hc]
  cachedTail_eq := h.cachedTail_eq
  headSeen_le := hi
  popped_le := h.popped_le
  tailSeen_le := h.tailSeen_le
  room := by
    show s.pushed.length ≤ i + w.size
    have := h.room
    omega
  slots := h.slots
  contents := h.contents
  popped_eq := h.popped_eq
  producer_ok := hpc
  consumer_ok := h.consumer_ok

theorem Coherent.viewHead (h : Coherent cacheFarCursor s) {i : Nat}
    (hs : step cacheFarCursor s (.viewHead i) = some s') : Coherent cacheFarCursor s' := by
  simp only [step, stepPush] at hs
  split at hs
  next item t hpc =>
    have ht : t = s.ring.tail := by simpa [ProducerOk, hpc] using h.producer_ok
    split at hs
    next => simp at hs
    next =>
      obtain ⟨head, hview, hs⟩ := Option.bind_eq_some_iff.mp hs
      rw [h.heads_eq] at hview
      obtain ⟨hseen, hi, rfl⟩ := view_published hview
      have hle : i ≤ s.pushed.length := hi.trans (h.popped_le.trans h.tailSeen_le)
      have hroom : s.pushed.length ≤ i + w.size := h.room.trans (by omega)
      split at hs
      next =>
        obtain rfl := Option.some.inj hs
        exact h.noteHead hseen hi trivial
      next hnot =>
        obtain rfl := Option.some.inj hs
        rw [ht, h.tail_eq, looksFull_iff hle hroom] at hnot
        exact h.noteHead hseen hi ⟨ht, show s.pushed.length < i + w.size by omega⟩
  next => simp at hs

theorem Coherent.writeSlot (h : Coherent cacheFarCursor s)
    (hs : step cacheFarCursor s .writeSlot = some s') : Coherent cacheFarCursor s' := by
  simp only [step, stepPush] at hs
  split at hs
  next item t hpc =>
    have hok : t = s.ring.tail ∧ s.pushed.length < s.headSeen + w.size := by
      simpa [ProducerOk, hpc] using h.producer_ok
    obtain ⟨ht, hfree⟩ := hok
    obtain rfl := Option.some.inj hs
    have hslot : w.index t = w.slotOf s.pushed.length := by rw [ht, h.tail_eq, w.index_ofNat]
    refine { h with contents := ?_, producer_ok := ⟨ht, hfree, Function.update_self ..⟩ }
    intro j p hj hp
    have hjn := (List.getElem?_eq_some_iff.mp hp).1
    have hne : p.2 ≠ w.index t := by
      rw [h.slots j p hp, hslot]
      exact h.slot_free hfree hj hjn
    show Function.update s.ring.buf (w.index t) item p.2 = p.1
    rw [Function.update_of_ne hne]
    exact h.contents j p hj hp
  next => simp at hs

/-- A push leaves the items before it where they are in the history. -/
theorem getElem?_pushed_concat {α : Type} {xs : List α} {x p : α} {j : Nat}
    (h : (xs ++ [x])[j]? = some p) : xs[j]? = some p ∨ j = xs.length ∧ p = x := by
  rcases Nat.lt_or_ge j xs.length with hj | hj
  · exact Or.inl (by rwa [List.getElem?_append_left hj] at h)
  · rw [List.getElem?_append_right hj] at h
    obtain ⟨hj', he⟩ := List.getElem?_eq_some_iff.mp h
    simp only [List.length_singleton] at hj'
    exact Or.inr ⟨by omega, by simpa using he.symm⟩

theorem Coherent.publishTail (h : Coherent cacheFarCursor s)
    (hs : step cacheFarCursor s .publishTail = some s') : Coherent cacheFarCursor s' := by
  simp only [step, stepPush] at hs
  split at hs
  next item t hpc =>
    have hok : t = s.ring.tail ∧ s.pushed.length < s.headSeen + w.size ∧
        s.ring.buf (w.index t) = item := by
      simpa [ProducerOk, hpc] using h.producer_ok
    obtain ⟨ht, hfree, hbuf⟩ := hok
    obtain rfl := Option.some.inj hs
    have ht : t = UInt64.ofNat s.pushed.length := by rw [ht, h.tail_eq]
    have hpop := h.popped_le.trans h.tailSeen_le
    refine { h with
      tail_eq := ?_, tails_eq := ?_, tailSeen_le := ?_, room := ?_, slots := ?_, contents := ?_,
      popped_eq := ?_, producer_ok := trivial, consumer_ok := ?_ }
    · show t + 1 = UInt64.ofNat (s.pushed ++ [(item, w.index t)]).length
      rw [ht, List.length_append, List.length_singleton, UInt64.ofNat_add]
      rfl
    · show s.tails ++ [t + 1] = published (s.pushed ++ [(item, w.index t)]).length
      rw [List.length_append, List.length_singleton, published_succ, h.tails_eq, ht]
    · show s.tailSeen ≤ (s.pushed ++ [(item, w.index t)]).length
      rw [List.length_append, List.length_singleton]
      exact Nat.le_succ_of_le h.tailSeen_le
    · show (s.pushed ++ [(item, w.index t)]).length ≤ s.headSeen + w.size
      rw [List.length_append, List.length_singleton]
      exact hfree
    · intro j p hp
      rcases getElem?_pushed_concat hp with hp | ⟨rfl, rfl⟩
      · exact h.slots j p hp
      · rw [ht, w.index_ofNat]
    · intro j p hj hp
      rcases getElem?_pushed_concat hp with hp | ⟨_, rfl⟩
      · exact h.contents j p hj hp
      · exact hbuf
    · show s.popped = ((s.pushed ++ [(item, w.index t)]).map Prod.fst).take s.popped.length
      rw [List.map_append, List.take_append_of_le_length (by simpa using hpop)]
      exact h.popped_eq
    · have hc := h.consumer_ok
      unfold ConsumerOk at hc ⊢
      -- only a consumer about to publish looks at the push history
      cases hcons : s.consumer with
      | idle => trivial
      | viewing hd =>
        simp only [hcons] at hc ⊢
        exact hc
      | reading hd =>
        simp only [hcons] at hc ⊢
        exact hc
      | publishing hd out =>
        simp only [hcons] at hc ⊢
        have hlt : s.popped.length < s.pushed.length := Nat.lt_of_lt_of_le hc.2.1 h.tailSeen_le
        rw [List.getElem?_append_left hlt]
        exact hc
  next => simp at hs

theorem Coherent.readHead (h : Coherent cacheFarCursor s)
    (hs : step cacheFarCursor s .readHead = some s') : Coherent cacheFarCursor s' := by
  simp only [step, stepPop] at hs
  split at hs
  next =>
    obtain rfl := Option.some.inj hs
    exact { h with consumer_ok := rfl }
  next => simp at hs

/-- A consumer that sees its own position as the tail has nothing to read. -/
theorem Coherent.head_eq_iff (h : Coherent cacheFarCursor s) {i : Nat} (hi : s.popped.length ≤ i)
    (hi' : i ≤ s.pushed.length) : s.ring.head = UInt64.ofNat i ↔ s.popped.length = i := by
  rw [h.head_eq]
  have hroom := h.room
  have hseen := h.headSeen_le
  have hfits := w.fits
  exact ofNat_eq_ofNat_iff hi (by omega)

theorem Coherent.trustTail (h : Coherent cacheFarCursor s)
    (hs : step cacheFarCursor s .trustTail = some s') : Coherent cacheFarCursor s' := by
  simp only [step, stepPop] at hs
  split at hs
  next hd hpc =>
    have hh : hd = s.ring.head := by simpa [ConsumerOk, hpc] using h.consumer_ok
    split at hs
    next hok =>
      obtain rfl := Option.some.inj hs
      obtain ⟨hc, hne⟩ := hok
      rw [hh, h.cachedTail_eq hc, Ne, h.head_eq_iff h.popped_le h.tailSeen_le] at hne
      exact { h with consumer_ok := ⟨hh, Nat.lt_of_le_of_ne h.popped_le hne⟩ }
    next => simp at hs
  next => simp at hs

theorem Coherent.noteTail (h : Coherent cacheFarCursor s) {i : Nat} {pc : Consumer T}
    (hseen : s.tailSeen ≤ i) (hi : i ≤ s.pushed.length)
    (hpc : ConsumerOk { s with tailSeen := i, consumer := pc }) :
    Coherent cacheFarCursor
      { SpscRing.noteTail cacheFarCursor s i (UInt64.ofNat i) with consumer := pc } where
  tail_eq := h.tail_eq
  head_eq := h.head_eq
  tails_eq := h.tails_eq
  heads_eq := h.heads_eq
  cachedHead_eq := h.cachedHead_eq
  cachedTail_eq := by
    intro hc
    simp [SpscRing.noteTail, hc]
  headSeen_le := h.headSeen_le
  popped_le := h.popped_le.trans hseen
  tailSeen_le := hi
  room := h.room
  slots := h.slots
  contents := h.contents
  popped_eq := h.popped_eq
  producer_ok := h.producer_ok
  consumer_ok := hpc

theorem Coherent.viewTail (h : Coherent cacheFarCursor s) {i : Nat}
    (hs : step cacheFarCursor s (.viewTail i) = some s') : Coherent cacheFarCursor s' := by
  simp only [step, stepPop] at hs
  split at hs
  next hd hpc =>
    have hh : hd = s.ring.head := by simpa [ConsumerOk, hpc] using h.consumer_ok
    split at hs
    next => simp at hs
    next =>
      obtain ⟨tail, hview, hs⟩ := Option.bind_eq_some_iff.mp hs
      rw [h.tails_eq] at hview
      obtain ⟨hseen, hi, rfl⟩ := view_published hview
      have hle : s.popped.length ≤ i := h.popped_le.trans hseen
      split at hs
      next =>
        obtain rfl := Option.some.inj hs
        exact h.noteTail hseen hi trivial
      next hne =>
        obtain rfl := Option.some.inj hs
        rw [hh, h.head_eq_iff hle hi] at hne
        exact h.noteTail hseen hi ⟨hh, Nat.lt_of_le_of_ne hle hne⟩
  next => simp at hs

theorem Coherent.readSlot (h : Coherent cacheFarCursor s)
    (hs : step cacheFarCursor s .readSlot = some s') : Coherent cacheFarCursor s' := by
  simp only [step, stepPop] at hs
  split at hs
  next hd hpc =>
    have hok : hd = s.ring.head ∧ s.popped.length < s.tailSeen := by
      simpa [ConsumerOk, hpc] using h.consumer_ok
    obtain ⟨hh, hlt⟩ := hok
    obtain rfl := Option.some.inj hs
    have hlen : s.popped.length < s.pushed.length := Nat.lt_of_lt_of_le hlt h.tailSeen_le
    have hget : s.pushed[s.popped.length]? = some s.pushed[s.popped.length] :=
      List.getElem?_eq_getElem hlen
    refine { h with consumer_ok := ⟨hh, hlt, ?_⟩ }
    show s.pushed[s.popped.length]?.map Prod.fst = some (s.ring.buf (w.index hd))
    rw [hget, Option.map_some, ← h.contents _ _ le_rfl hget, h.slots _ _ hget, hh, h.head_eq,
      w.index_ofNat]
  next => simp at hs

theorem Coherent.publishHead (h : Coherent cacheFarCursor s)
    (hs : step cacheFarCursor s .publishHead = some s') : Coherent cacheFarCursor s' := by
  simp only [step, stepPop] at hs
  split at hs
  next hd out hpc =>
    have hok : hd = s.ring.head ∧ s.popped.length < s.tailSeen ∧
        s.pushed[s.popped.length]?.map Prod.fst = some out := by
      simpa [ConsumerOk, hpc] using h.consumer_ok
    obtain ⟨hh, hlt, hout⟩ := hok
    obtain rfl := Option.some.inj hs
    have hh : hd = UInt64.ofNat s.popped.length := by rw [hh, h.head_eq]
    have hsucc : (s.popped ++ [out]).length = s.popped.length + 1 := by simp
    refine { h with
      head_eq := ?_, heads_eq := ?_, headSeen_le := ?_, popped_le := ?_, contents := ?_,
      popped_eq := ?_, consumer_ok := trivial }
    · show hd + 1 = UInt64.ofNat (s.popped ++ [out]).length
      rw [hh, hsucc, UInt64.ofNat_add]
      rfl
    · show s.heads ++ [hd + 1] = published (s.popped ++ [out]).length
      rw [hsucc, published_succ, h.heads_eq, hh]
    · show s.headSeen ≤ (s.popped ++ [out]).length
      rw [hsucc]
      exact Nat.le_succ_of_le h.headSeen_le
    · show (s.popped ++ [out]).length ≤ s.tailSeen
      rw [hsucc]
      exact hlt
    · intro j p hj hp
      refine h.contents j p ?_ hp
      have hj : (s.popped ++ [out]).length ≤ j := hj
      omega
    · show s.popped ++ [out] = (s.pushed.map Prod.fst).take (s.popped ++ [out]).length
      rw [hsucc, List.take_add_one, ← h.popped_eq, List.getElem?_map, hout]
      rfl
  next => simp at hs

/-- Every step of either side keeps the ring coherent. -/
theorem Coherent.step (h : Coherent cacheFarCursor s) {a : Action T}
    (hs : SpscRing.step cacheFarCursor s a = some s') : Coherent cacheFarCursor s' := by
  cases a with
  | readTail item => exact h.readTail hs
  | trustHead => exact h.trustHead hs
  | viewHead i => exact h.viewHead hs
  | writeSlot => exact h.writeSlot hs
  | publishTail => exact h.publishTail hs
  | readHead => exact h.readHead hs
  | trustTail => exact h.trustTail hs
  | viewTail i => exact h.viewTail hs
  | readSlot => exact h.readSlot hs
  | publishHead => exact h.publishHead hs

end Steps

end SpscRing

end OhlcvValidator
