import OhlcvValidator.SpscRingFifo

namespace OhlcvValidator

/-- A list that is gone through several times, by index. -/
theorem getElem?_flatten_replicate {α : Type} {xs : List α} {n k : Nat} (hk : k < n * xs.length) :
    (List.replicate n xs).flatten[k]? = xs[k % xs.length]? := by
  induction n generalizing k with
  | zero => simp at hk
  | succ n ih =>
    rw [List.replicate_succ, List.flatten_cons]
    rcases Nat.lt_or_ge k xs.length with hlt | hge
    · rw [List.getElem?_append_left hlt, Nat.mod_eq_of_lt hlt]
    · rw [Nat.succ_mul] at hk
      rw [List.getElem?_append_right hge, ih (by omega), Nat.mod_eq_sub_mod hge]

namespace SpscRing

variable {T σ : Type} {w : PowTwo}

/-- The depth as the difference of two cursors that are loaded one after the other. -/
def sizeApprox (tail head : UInt64) : UInt64 :=
  tail - head

/-- The consumer asks for the depth: it knows its own cursor and obtains view `i` of the tail. -/
def depthByConsumer (s : Session T w) (i : Nat) : Option UInt64 :=
  (view s.tails s.tailSeen i).map fun tail => sizeApprox tail s.ring.head

/-- The producer asks for the depth. -/
def depthByProducer (s : Session T w) (i : Nat) : Option UInt64 :=
  (view s.heads s.headSeen i).map fun head => sizeApprox s.ring.tail head

/-- The loops on either side of the ring: `make` builds the item of an index after a reading of
the clock; `consume` is what the consumer does with an item it popped, given a reading of the
clock and of the depth. -/
structure Program (T σ : Type) where
  passes : UInt64
  count : UInt64
  make : UInt64 → UInt64 → Option T
  consume : σ → T → UInt64 → UInt64 → Option σ

/-- How many items the consumer waits for. -/
def Program.total (prog : Program T σ) : UInt64 :=
  prog.count * prog.passes

/-- Both threads at work: where the producer's loops are and the item it is about to push; how
many items the consumer's loop has counted, the one it has popped and not yet worked on, and
what it has computed. `log` is the history of that work. -/
structure Pipeline (T σ : Type) (w : PowTwo) where
  session : Session T w
  pass : UInt64 := 0
  index : UInt64 := 0
  item : Option T := none
  popped : UInt64 := 0
  out : Option T := none
  state : σ
  log : List (T × UInt64 × UInt64) := []

inductive Move (T : Type)
  | nextPass
  | make (clock : UInt64)
  | ring (a : Action T)
  | consume (clock : UInt64) (i : Nat)
  deriving DecidableEq, Repr

/-- A call is begun by its loop; the steps inside it are the ring's own. -/
def begins [DecidableEq T] (prog : Program T σ) (s : Pipeline T σ w) : Action T → Bool
  | .readTail item => s.item = some item
  | .readHead => s.popped < prog.total ∧ s.out = none
  | _ => true

/-- A push that was published ends its iteration; a pop that was published has an item to work
on. A call that failed leaves its loop where it was. -/
def returns (s : Pipeline T σ w) (session : Session T w) : Action T → Pipeline T σ w
  | .publishTail => { s with session := session, item := none, index := s.index + 1 }
  | .publishHead =>
    match s.session.consumer with
    | .publishing _ out => { s with session := session, out := some out }
    | _ => { s with session := session }
  | _ => { s with session := session }

/-- One step of either thread. -/
def advance [DecidableEq T] (cacheFarCursor : Bool) (prog : Program T σ) (s : Pipeline T σ w) :
    Move T → Option (Pipeline T σ w)
  | .nextPass =>
    if s.pass < prog.passes ∧ ¬s.index < prog.count then
      some { s with pass := s.pass + 1, index := 0 }
    else none
  | .make clock =>
    if s.pass < prog.passes ∧ s.index < prog.count ∧ s.item = none then
      (prog.make s.index clock).map fun item => { s with item := some item }
    else none
  | .ring a =>
    if begins prog s a then (step cacheFarCursor s.session a).map fun t => returns s t a
    else none
  | .consume clock i => do
    let out ← s.out
    let depth ← depthByConsumer s.session i
    let state ← prog.consume s.state out clock depth
    return { s with
      state := state
      popped := s.popped + 1
      out := none
      log := s.log ++ [(out, clock, depth)] }

/-- An interleaving of the two threads. -/
def runPipeline [DecidableEq T] (cacheFarCursor : Bool) (prog : Program T σ)
    (buf : Fin w.size → T) (init : σ) (moves : List (Move T)) : Option (Pipeline T σ w) :=
  moves.foldlM (advance cacheFarCursor prog) { session := { ring := { buf := buf } }, state := init }

/-- The producer is through its loops and the consumer has seen as many items as it waits for. -/
def Finished (prog : Program T σ) (s : Pipeline T σ w) : Prop :=
  ¬s.pass < prog.passes ∧ ¬s.popped < prog.total

section Depth

variable {cacheFarCursor : Bool} {s : Session T w}

/-- The consumer's reading is no more than what is in the ring, and does not wrap. -/
theorem Coherent.depthByConsumer_le (h : Coherent cacheFarCursor s) {i : Nat} {depth : UInt64}
    (hd : depthByConsumer s i = some depth) :
    s.popped.length ≤ i ∧ i ≤ s.pushed.length ∧ depth.toNat = i - s.popped.length := by
  obtain ⟨tail, hview, rfl⟩ := Option.map_eq_some_iff.mp hd
  rw [h.tails_eq] at hview
  obtain ⟨hseen, hi, rfl⟩ := view_published hview
  have hle : s.popped.length ≤ i := h.popped_le.trans hseen
  have hroom := h.room
  have hback := h.headSeen_le
  have hfits := w.fits
  refine ⟨hle, hi, ?_⟩
  rw [sizeApprox, h.head_eq]
  exact toNat_ofNat_sub hle (by omega)

/-- The producer's reading is no less than what is in the ring. -/
theorem Coherent.depthByProducer_ge (h : Coherent cacheFarCursor s) {i : Nat} {depth : UInt64}
    (hd : depthByProducer s i = some depth) :
    s.headSeen ≤ i ∧ i ≤ s.popped.length ∧ depth.toNat = s.pushed.length - i := by
  obtain ⟨head, hview, rfl⟩ := Option.map_eq_some_iff.mp hd
  rw [h.heads_eq] at hview
  obtain ⟨hseen, hi, rfl⟩ := view_published hview
  have hle : i ≤ s.pushed.length := hi.trans (h.popped_le.trans h.tailSeen_le)
  have hroom := h.room
  have hfits := w.fits
  refine ⟨hseen, hi, ?_⟩
  rw [sizeApprox, h.tail_eq]
  exact toNat_ofNat_sub hle (by omega)

/-- Whichever side asks for the depth, the answer is at most the capacity: the consumer never
hears of more than the ring holds, the producer never of less. -/
theorem size_approx_bounds {buf : Fin w.size → T} {actions : List (Action T)}
    (hrun : run cacheFarCursor buf actions = some s) (i : Nat) (depth : UInt64) :
    (depthByConsumer s i = some depth → depth.toNat ≤ (outstanding s).length) ∧
    (depthByProducer s i = some depth → (outstanding s).length ≤ depth.toNat) ∧
    (depthByConsumer s i = some depth ∨ depthByProducer s i = some depth →
      depth.toNat ≤ w.size) := by
  have h := coherent_run hrun
  have hroom := h.room
  have hseen := h.headSeen_le
  rw [outstanding, List.length_drop]
  refine ⟨?_, ?_, ?_⟩
  · intro hd
    obtain ⟨_, hi, he⟩ := h.depthByConsumer_le hd
    omega
  · intro hd
    obtain ⟨_, hi, he⟩ := h.depthByProducer_ge hd
    omega
  · rintro (hd | hd)
    · obtain ⟨_, hi, he⟩ := h.depthByConsumer_le hd
      omega
    · obtain ⟨_, hi, he⟩ := h.depthByProducer_ge hd
      omega

/-- One item of two is still in the ring: the consumer may hear of none, the producer of two. -/
theorem size_approx_bounds_twoPushesOnePop :
    ∃ s : Session Nat PowTwo.four, run true (fun _ => 0) twoPushesOnePop = some s ∧
      (outstanding s).length = 1 ∧
      (depthByConsumer s 1 = some 0 ∧ (0 : UInt64).toNat ≤ (outstanding s).length) ∧
      depthByProducer s 0 = some 2 ∧ (outstanding s).length ≤ (2 : UInt64).toNat := by
  have hdepths : (run (w := PowTwo.four) true (fun _ => 0) twoPushesOnePop).map
      (fun s => ((outstanding s).length, depthByConsumer s 1, depthByProducer s 0)) =
        some (1, some 0, some 2) := by decide
  obtain ⟨s, hs, he⟩ := Option.map_eq_some_iff.mp hdepths
  simp only [Prod.mk.injEq] at he
  obtain ⟨hout, hcons, hprod⟩ := he
  exact ⟨s, hs, hout, ⟨hcons, (size_approx_bounds hs 1 0).1 hcons⟩, hprod,
    (size_approx_bounds hs 0 2).2.1 hprod⟩

end Depth

/-- The item of a push that is under way. -/
def Producer.item : Producer T → Option T
  | .idle => none
  | .viewing item _ | .writing item _ | .publishing item _ => some item

def Consumer.busy : Consumer T → Bool
  | .idle => false
  | _ => true

section Inversion

variable {cacheFarCursor : Bool} {s s' : Session T w} {a : Action T}

/-- A step inside a call: nothing is published, and a call goes on with the item it was begun
with. -/
structure Inside (a : Action T) (s s' : Session T w) : Prop where
  pushed_eq : s'.pushed = s.pushed
  popped_eq : s'.popped = s.popped
  item : ∀ item, s'.producer.item = some item →
    s.producer.item = some item ∨ a = .readTail item
  busy : s'.consumer.busy = true → s.consumer.busy = true ∨ a = .readHead

theorem stepPush_cases (hs : stepPush cacheFarCursor s a = some s') :
    s'.popped = s.popped ∧ s'.consumer = s.consumer ∧
      ((∃ item t, a = .publishTail ∧ s.producer = .publishing item t ∧ s'.producer = .idle ∧
          s'.pushed = s.pushed ++ [(item, w.index t)]) ∨
        a ≠ .publishTail ∧ a ≠ .publishHead ∧ Inside a s s') := by
  unfold stepPush at hs
  split at hs
  next item =>
    split at hs
    next =>
      obtain rfl := Option.some.inj hs
      refine ⟨rfl, rfl, Or.inr ⟨by simp, by simp, rfl, rfl, ?_, Or.inl⟩⟩
      intro x hx
      cases Option.some.inj hx
      exact Or.inr rfl
    next => simp at hs
  next =>
    split at hs
    next item t hpc =>
      split at hs
      next =>
        obtain rfl := Option.some.inj hs
        refine ⟨rfl, rfl, Or.inr ⟨by simp, by simp, rfl, rfl, ?_, Or.inl⟩⟩
        intro x hx
        exact Or.inl (hpc ▸ hx)
      next => simp at hs
    next => simp at hs
  next i =>
    split at hs
    next item t hpc =>
      split at hs
      next => simp at hs
      next =>
        obtain ⟨head, _, hs⟩ := Option.bind_eq_some_iff.mp hs
        split at hs
        next =>
          obtain rfl := Option.some.inj hs
          refine ⟨rfl, rfl, Or.inr ⟨by simp, by simp, rfl, rfl, ?_, Or.inl⟩⟩
          intro x hx
          simp [Producer.item] at hx
        next =>
          obtain rfl := Option.some.inj hs
          refine ⟨rfl, rfl, Or.inr ⟨by simp, by simp, rfl, rfl, ?_, Or.inl⟩⟩
          intro x hx
          exact Or.inl (hpc ▸ hx)
    next => simp at hs
  next =>
    split at hs
    next item t hpc =>
      obtain rfl := Option.some.inj hs
      refine ⟨rfl, rfl, Or.inr ⟨by simp, by simp, rfl, rfl, ?_, Or.inl⟩⟩
      intro x hx
      exact Or.inl (hpc ▸ hx)
    next => simp at hs
  next =>
    split at hs
    next item t hpc =>
      obtain rfl := Option.some.inj hs
      exact ⟨rfl, rfl, Or.inl ⟨item, t, rfl, hpc, rfl, rfl⟩⟩
    next => simp at hs
  next => simp at hs

theorem stepPop_cases (hs : stepPop cacheFarCursor s a = some s') :
    s'.pushed = s.pushed ∧ s'.producer = s.producer ∧
      ((∃ hd out, a = .publishHead ∧ s.consumer = .publishing hd out ∧ s'.consumer = .idle ∧
          s'.popped = s.popped ++ [out]) ∨
        a ≠ .publishTail ∧ a ≠ .publishHead ∧ Inside a s s') := by
  unfold stepPop at hs
  split at hs
  next =>
    split at hs
    next =>
      obtain rfl := Option.some.inj hs
      exact ⟨rfl, rfl, Or.inr ⟨by simp, by simp, rfl, rfl, fun _ => Or.inl, fun _ => Or.inr rfl⟩⟩
    next => simp at hs
  next =>
    split at hs
    next hd hpc =>
      split at hs
      next =>
        obtain rfl := Option.some.inj hs
        refine ⟨rfl, rfl, Or.inr ⟨by simp, by simp, rfl, rfl, fun _ => Or.inl, ?_⟩⟩
        exact fun _ => Or.inl (by rw [hpc]; rfl)
      next => simp at hs
    next => simp at hs
  next i =>
    split at hs
    next hd hpc =>
      split at hs
      next => simp at hs
      next =>
        obtain ⟨tail, _, hs⟩ := Option.bind_eq_some_iff.mp hs
        split at hs
        next =>
          obtain rfl := Option.some.inj hs
          refine ⟨rfl, rfl, Or.inr ⟨by simp, by simp, rfl, rfl, fun _ => Or.inl, ?_⟩⟩
          exact fun _ => Or.inl (by rw [hpc]; rfl)
        next =>
          obtain rfl := Option.some.inj hs
          refine ⟨rfl, rfl, Or.inr ⟨by simp, by simp, rfl, rfl, fun _ => Or.inl, ?_⟩⟩
          exact fun _ => Or.inl (by rw [hpc]; rfl)
    next => simp at hs
  next =>
    split at hs
    next hd hpc =>
      obtain rfl := Option.some.inj hs
      refine ⟨rfl, rfl, Or.inr ⟨by simp, by simp, rfl, rfl, fun _ => Or.inl, ?_⟩⟩
      exact fun _ => Or.inl (by rw [hpc]; rfl)
    next => simp at hs
  next =>
    split at hs
    next hd out hpc =>
      obtain rfl := Option.some.inj hs
      exact ⟨rfl, rfl, Or.inl ⟨hd, out, rfl, hpc, rfl, rfl⟩⟩
    next => simp at hs
  next => simp at hs

/-- What a step can do: publish a push, publish a pop, or go on inside a call. -/
theorem step_cases (hs : step cacheFarCursor s a = some s') :
    (∃ item t, a = .publishTail ∧ s.producer = .publishing item t ∧ s'.producer = .idle ∧
      s'.pushed = s.pushed ++ [(item, w.index t)] ∧ s'.popped = s.popped ∧
      s'.consumer = s.consumer) ∨
    (∃ hd out, a = .publishHead ∧ s.consumer = .publishing hd out ∧ s'.consumer = .idle ∧
      s'.popped = s.popped ++ [out] ∧ s'.pushed = s.pushed ∧ s'.producer = s.producer) ∨
    a ≠ .publishTail ∧ a ≠ .publishHead ∧ Inside a s s' := by
  have hside : stepPush cacheFarCursor s a = some s' ∨ stepPop cacheFarCursor s a = some s' := by
    cases a <;> first | exact Or.inl hs | exact Or.inr hs
  rcases hside with hs | hs
  · obtain ⟨hpop, hcons, ⟨item, t, rfl, hpc, hidle, hpush⟩ | h⟩ := stepPush_cases hs
    · exact Or.inl ⟨item, t, rfl, hpc, hidle, hpush, hpop, hcons⟩
    · exact Or.inr (Or.inr h)
  · obtain ⟨hpush, hprod, ⟨hd, out, rfl, hpc, hidle, hpop⟩ | h⟩ := stepPop_cases hs
    · exact Or.inr (Or.inl ⟨hd, out, rfl, hpc, hidle, hpop, hpush, hprod⟩)
    · exact Or.inr (Or.inr h)

end Inversion

/-- What holds between the steps of the two threads. -/
structure Working (cacheFarCursor : Bool) (prog : Program T σ) (init : σ) (s : Pipeline T σ w) :
    Prop where
  coherent : Coherent cacheFarCursor s.session
  pass_le : s.pass.toNat ≤ prog.passes.toNat
  index_le : s.index.toNat ≤ prog.count.toNat
  index_end : s.pass = prog.passes → s.index = 0
  pushed_eq : s.session.pushed.length = s.pass.toNat * prog.count.toNat + s.index.toNat
  made : ∀ (k : Nat) p, s.session.pushed[k]? = some p →
    ∃ clock, prog.make (UInt64.ofNat (k % prog.count.toNat)) clock = some p.1
  item_made : ∀ item, s.item = some item → s.pass < prog.passes ∧ s.index < prog.count ∧
    ∃ clock, prog.make s.index clock = some item
  pushing : ∀ item, s.session.producer.item = some item → s.item = some item
  popped_eq : s.session.popped = s.log.map Prod.fst ++ s.out.toList
  count_eq : s.popped = UInt64.ofNat s.log.length
  popping : s.session.consumer.busy = true → s.out = none ∧ s.popped < prog.total
  computed : s.log.foldlM (fun st x => prog.consume st x.1 x.2.1 x.2.2) init = some s.state
  depth_le : ∀ x ∈ s.log, x.2.2.toNat ≤ w.size

section Invariant

variable {cacheFarCursor : Bool} {prog : Program T σ} {init : σ} {s s' : Pipeline T σ w}

theorem working_start (buf : Fin w.size → T) :
    Working cacheFarCursor prog init { session := { ring := { buf := buf } }, state := init } where
  coherent := coherent_fresh cacheFarCursor buf
  pass_le := Nat.zero_le _
  index_le := Nat.zero_le _
  index_end := fun _ => rfl
  pushed_eq := by simp
  made := by simp
  item_made := by simp
  pushing := by simp [Producer.item]
  popped_eq := rfl
  count_eq := rfl
  popping := by simp [Consumer.busy]
  computed := rfl
  depth_le := by simp

/-- The loop over the indices is at its end: the next pass begins. -/
theorem Working.nextPass (h : Working cacheFarCursor prog init s) (hpass : s.pass < prog.passes)
    (hindex : ¬s.index < prog.count) :
    Working cacheFarCursor prog init { s with pass := s.pass + 1, index := 0 } := by
  have hlt : s.pass.toNat < prog.passes.toNat := UInt64.lt_iff_toNat_lt.mp hpass
  have hend : s.index.toNat = prog.count.toNat := by
    have := h.index_le
    rw [UInt64.lt_iff_toNat_lt] at hindex
    omega
  have hsucc : (s.pass + 1).toNat = s.pass.toNat + 1 := by
    have := prog.passes.toNat_lt
    exact toNat_succ (by omega)
  refine { h with
    pass_le := by rw [hsucc]; exact hlt, index_le := Nat.zero_le _, index_end := fun _ => rfl,
    pushed_eq := ?_, item_made := ?_ }
  · rw [h.pushed_eq, hsucc, hend, Nat.succ_mul]
    rfl
  · intro item hitem
    exact absurd (h.item_made item hitem).2.1 hindex

theorem Working.make (h : Working cacheFarCursor prog init s) {clock : UInt64} {item : T}
    (hpass : s.pass < prog.passes) (hindex : s.index < prog.count) (hnone : s.item = none)
    (hmake : prog.make s.index clock = some item) :
    Working cacheFarCursor prog init { s with item := some item } := by
  refine { h with item_made := ?_, pushing := ?_ }
  · intro x hx
    cases Option.some.inj hx
    exact ⟨hpass, hindex, clock, hmake⟩
  · intro x hx
    have := h.pushing x hx
    simp [hnone] at this

theorem Working.consume (h : Working cacheFarCursor prog init s) {clock depth : UInt64} {i : Nat}
    {out : T} {state : σ} (hout : s.out = some out) (hdepth : depthByConsumer s.session i = some depth)
    (hstate : prog.consume s.state out clock depth = some state) :
    Working cacheFarCursor prog init
      { s with
        state := state, popped := s.popped + 1, out := none,
        log := s.log ++ [(out, clock, depth)] } := by
  refine { h with popped_eq := ?_, count_eq := ?_, popping := ?_, computed := ?_, depth_le := ?_ }
  · rw [h.popped_eq, hout]
    simp
  · rw [h.count_eq, List.length_append, List.length_singleton, UInt64.ofNat_add]
    rfl
  · intro hbusy
    have := (h.popping hbusy).1
    simp [hout] at this
  · rw [List.foldlM_append, h.computed]
    simp [hstate]
  · intro x hx
    rcases List.mem_append.mp hx with hx | hx
    · exact h.depth_le x hx
    · obtain rfl := List.mem_singleton.mp hx
      obtain ⟨_, hi, he⟩ := h.coherent.depthByConsumer_le hdepth
      have hroom := h.coherent.room
      have hseen := h.coherent.headSeen_le
      show depth.toNat ≤ w.size
      omega

/-- A push is published: the items so far are those of the indices that the loops have been
through. -/
theorem Working.publishTail (h : Working cacheFarCursor prog init s) {t : Session T w} {item : T}
    {tail : UInt64} (hcoh : Coherent cacheFarCursor t)
    (hpc : s.session.producer = .publishing item tail) (hidle : t.producer = .idle)
    (hpushed : t.pushed = s.session.pushed ++ [(item, w.index tail)])
    (hpopped : t.popped = s.session.popped) (hcons : t.consumer = s.session.consumer) :
    Working cacheFarCursor prog init
      { s with session := t, item := none, index := s.index + 1 } := by
  obtain ⟨hpass, hindex, clock, hmake⟩ := h.item_made item (h.pushing item (by rw [hpc]; rfl))
  have hlt : s.index.toNat < prog.count.toNat := UInt64.lt_iff_toNat_lt.mp hindex
  have hsucc : (s.index + 1).toNat = s.index.toNat + 1 := by
    have := prog.count.toNat_lt
    exact toNat_succ (by omega)
  refine {
    coherent := hcoh, pass_le := h.pass_le, index_le := by rw [hsucc]; exact hlt, index_end := ?_,
    pushed_eq := ?_, made := ?_, item_made := by simp, pushing := by simp [hidle, Producer.item],
    popped_eq := hpopped.trans h.popped_eq, count_eq := h.count_eq,
    popping := fun hbusy => h.popping (hcons ▸ hbusy), computed := h.computed,
    depth_le := h.depth_le }
  · intro hend
    exact absurd (hend ▸ hpass : prog.passes < prog.passes) (UInt64.lt_irrefl _)
  · show t.pushed.length = s.pass.toNat * prog.count.toNat + (s.index + 1).toNat
    rw [hpushed, List.length_append, List.length_singleton, h.pushed_eq, hsucc, Nat.add_assoc]
  · intro k p hp
    rcases getElem?_pushed_concat (hpushed ▸ hp) with hp | ⟨rfl, rfl⟩
    · exact h.made k p hp
    · rw [h.pushed_eq, Nat.mul_comm, Nat.mul_add_mod, Nat.mod_eq_of_lt hlt]
      simpa using ⟨clock, hmake⟩

theorem Working.publishHead (h : Working cacheFarCursor prog init s) {t : Session T w} {out : T}
    {head : UInt64} (hcoh : Coherent cacheFarCursor t)
    (hpc : s.session.consumer = .publishing head out) (hidle : t.consumer = .idle)
    (hpopped : t.popped = s.session.popped ++ [out]) (hpushed : t.pushed = s.session.pushed)
    (hprod : t.producer = s.session.producer) :
    Working cacheFarCursor prog init { s with session := t, out := some out } := by
  have hnone : s.out = none := (h.popping (by rw [hpc]; rfl)).1
  refine { h with
    coherent := hcoh, pushed_eq := hpushed ▸ h.pushed_eq, made := ?_, pushing := ?_,
    popped_eq := ?_, popping := by simp [hidle, Consumer.busy] }
  · intro k p hp
    exact h.made k p (hpushed ▸ hp)
  · intro item hitem
    exact h.pushing item (hprod ▸ hitem)
  · show t.popped = s.log.map Prod.fst ++ [out]
    rw [hpopped, h.popped_eq, hnone]
    simp

theorem Working.inside [DecidableEq T] (h : Working cacheFarCursor prog init s) {a : Action T}
    {t : Session T w} (hcoh : Coherent cacheFarCursor t) (hbegins : begins prog s a = true)
    (hin : Inside a s.session t) :
    Working cacheFarCursor prog init { s with session := t } := by
  refine { h with
    coherent := hcoh, pushed_eq := ?_, made := ?_, pushing := ?_,
    popped_eq := hin.popped_eq.trans h.popped_eq, popping := ?_ }
  · show t.pushed.length = _
    rw [hin.pushed_eq]
    exact h.pushed_eq
  · intro k p hp
    exact h.made k p (hin.pushed_eq ▸ hp)
  · intro item hitem
    rcases hin.item item hitem with hitem | rfl
    · exact h.pushing item hitem
    · simpa [begins] using hbegins
  · intro hbusy
    rcases hin.busy hbusy with hbusy | rfl
    · exact h.popping hbusy
    · obtain ⟨hlt, hnone⟩ : s.popped < prog.total ∧ s.out = none := by simpa [begins] using hbegins
      exact ⟨hnone, hlt⟩

theorem Working.ring [DecidableEq T] (h : Working cacheFarCursor prog init s) {a : Action T}
    {t : Session T w} (hbegins : begins prog s a = true)
    (hs : step cacheFarCursor s.session a = some t) :
    Working cacheFarCursor prog init (returns s t a) := by
  have hcoh := h.coherent.step hs
  obtain ⟨item, tail, rfl, hpc, hidle, hpushed, hpopped, hcons⟩ |
    ⟨head, out, rfl, hpc, hidle, hpopped, hpushed, hprod⟩ | ⟨hne, hne', hin⟩ := step_cases hs
  · exact h.publishTail hcoh hpc hidle hpushed hpopped hcons
  · simp only [returns, hpc]
    exact h.publishHead hcoh hpc hidle hpopped hpushed hprod
  · have hret : returns s t a = { s with session := t } := by
      cases a <;> first | rfl | exact absurd rfl hne | exact absurd rfl hne'
    rw [hret]
    exact h.inside hcoh hbegins hin

/-- Every step of either thread keeps the pipeline working. -/
theorem Working.advance [DecidableEq T] (h : Working cacheFarCursor prog init s) {m : Move T}
    (hm : SpscRing.advance cacheFarCursor prog s m = some s') :
    Working cacheFarCursor prog init s' := by
  cases m with
  | nextPass =>
    simp only [SpscRing.advance] at hm
    split at hm
    next hok =>
      obtain rfl := Option.some.inj hm
      exact h.nextPass hok.1 hok.2
    next => simp at hm
  | make clock =>
    simp only [SpscRing.advance] at hm
    split at hm
    next hok =>
      obtain ⟨item, hmake, rfl⟩ := Option.map_eq_some_iff.mp hm
      exact h.make hok.1 hok.2.1 hok.2.2 hmake
    next => simp at hm
  | ring a =>
    simp only [SpscRing.advance] at hm
    split at hm
    next hbegins =>
      obtain ⟨t, hs, rfl⟩ := Option.map_eq_some_iff.mp hm
      exact h.ring hbegins hs
    next => simp at hm
  | consume clock i =>
    simp only [SpscRing.advance] at hm
    obtain ⟨out, hout, hm⟩ := Option.bind_eq_some_iff.mp hm
    obtain ⟨depth, hdepth, hm⟩ := Option.bind_eq_some_iff.mp hm
    obtain ⟨state, hstate, hm⟩ := Option.bind_eq_some_iff.mp hm
    obtain rfl := Option.some.inj hm
    exact h.consume hout hdepth hstate

theorem working_run [DecidableEq T] {buf : Fin w.size → T} {moves : List (Move T)}
    (hrun : runPipeline cacheFarCursor prog buf init moves = some s) :
    Working cacheFarCursor prog init s :=
  foldlM_invariant (I := Working cacheFarCursor prog init) (fun _ _ _ h hm => h.advance hm)
    (working_start buf) hrun

/-- How far the threads can be: what is consumed has been popped, what is popped has been
pushed, and no more is pushed than there are iterations. -/
theorem Working.lengths (h : Working cacheFarCursor prog init s) :
    s.log.length + s.out.toList.length = s.session.popped.length ∧
      s.session.popped.length ≤ s.session.pushed.length ∧
      s.session.pushed.length ≤ prog.passes.toNat * prog.count.toNat := by
  refine ⟨by simp [h.popped_eq], h.coherent.popped_le.trans h.coherent.tailSeen_le, ?_⟩
  rw [h.pushed_eq]
  rcases Nat.lt_or_ge s.pass.toNat prog.passes.toNat with hlt | hge
  · have hindex := h.index_le
    calc s.pass.toNat * prog.count.toNat + s.index.toNat
        ≤ (s.pass.toNat + 1) * prog.count.toNat := by rw [Nat.succ_mul]; omega
      _ ≤ prog.passes.toNat * prog.count.toNat := Nat.mul_le_mul_right _ hlt
  · have heq : s.pass = prog.passes := UInt64.toNat_inj.mp (Nat.le_antisymm h.pass_le hge)
    rw [h.index_end heq, heq]
    exact le_rfl

/-- A pipeline that is through has handed over every item, and the ring is empty. -/
theorem Working.finished (h : Working cacheFarCursor prog init s)
    (hfits : prog.passes.toNat * prog.count.toNat < 2 ^ 64) (hend : ¬s.popped < prog.total) :
    s.log.length = prog.passes.toNat * prog.count.toNat ∧ s.out = none ∧
      s.session.popped = s.session.pushed.map Prod.fst ∧ s.session.ring.head = s.session.ring.tail := by
  obtain ⟨hlog, hpop, hpush⟩ := h.lengths
  have htotal : prog.total.toNat = prog.passes.toNat * prog.count.toNat := by
    rw [Program.total, UInt64.toNat_mul, Nat.mul_comm, Nat.mod_eq_of_lt hfits]
  have hpopped : s.popped.toNat = s.log.length := by
    rw [h.count_eq, UInt64.toNat_ofNat_of_lt' (by show _ < 2 ^ 64; omega)]
  rw [UInt64.lt_iff_toNat_lt, hpopped, htotal] at hend
  have hsame : s.session.popped.length = s.session.pushed.length := by omega
  refine ⟨by omega, ?_, ?_, ?_⟩
  · have : s.out.toList.length = 0 := by omega
    simpa using this
  · rw [h.coherent.popped_eq, hsame, ← List.length_map Prod.fst, List.take_length]
  · rw [h.coherent.head_eq, h.coherent.tail_eq, hsame]

/-- What the producer pushes is, item by item, the sequence that its loops go through. -/
theorem Working.pushed_prefix (h : Working cacheFarCursor prog init s) {α : Type} (proj : T → α)
    {items : List α} (hcount : prog.count.toNat = items.length)
    (hproj : ∀ i clock item, i < prog.count → prog.make i clock = some item →
      items[i.toNat]? = some (proj item)) :
    (s.session.pushed.map Prod.fst).map proj <+:
      (List.replicate prog.passes.toNat items).flatten := by
  rw [List.prefix_iff_getElem?]
  intro k hk
  rw [List.length_map, List.length_map] at hk
  have hbound := h.lengths.2.2
  have hpos : 0 < items.length := by
    rw [hcount] at hbound
    exact Nat.pos_of_mul_pos_left (Nat.lt_of_le_of_lt (Nat.zero_le k) (hk.trans_le hbound))
  have hlt : k % items.length < prog.count.toNat := by
    rw [hcount]
    exact Nat.mod_lt k hpos
  have hword : (UInt64.ofNat (k % prog.count.toNat)).toNat = k % items.length := by
    rw [hcount, UInt64.toNat_ofNat_of_lt' (hlt.trans prog.count.toNat_lt)]
  obtain ⟨clock, hmake⟩ := h.made k _ (List.getElem?_eq_getElem hk)
  have hitem := hproj _ _ _ (UInt64.lt_iff_toNat_lt.mpr (hword ▸ hlt)) hmake
  rw [hword] at hitem
  rw [getElem?_flatten_replicate (by rw [← hcount]; omega), hitem, List.getElem_map,
    List.getElem_map]

/-- What the consumer has worked on is the beginning of that sequence. -/
theorem Working.log_eq (h : Working cacheFarCursor prog init s) {α : Type} (proj : T → α)
    {items : List α} (hcount : prog.count.toNat = items.length)
    (hproj : ∀ i clock item, i < prog.count → prog.make i clock = some item →
      items[i.toNat]? = some (proj item)) :
    (s.log.map Prod.fst).map proj =
      (List.replicate prog.passes.toNat items).flatten.take s.log.length := by
  have hpopped : s.session.popped <+: s.session.pushed.map Prod.fst := by
    rw [h.coherent.popped_eq]
    exact List.take_prefix _ _
  have hlog : s.log.map Prod.fst <+: s.session.pushed.map Prod.fst :=
    (h.popped_eq ▸ List.prefix_append _ _ : s.log.map Prod.fst <+: s.session.popped).trans hpopped
  have hall := (hlog.map proj).trans (h.pushed_prefix proj hcount hproj)
  simpa only [List.length_map] using List.prefix_iff_eq_take.mp hall

end Invariant

end SpscRing

end OhlcvValidator
