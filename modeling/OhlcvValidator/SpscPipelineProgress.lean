import OhlcvValidator.Interleaving
import OhlcvValidator.SpscPipeline

namespace OhlcvValidator

namespace SpscRing

variable {T σ : Type} {w : PowTwo}

/-- Steps to the end of the current iteration, with or without its item made. -/
def Producer.stepsLeft (item : Option T) : Producer T → Nat
  | .idle => if item.isNone then 6 else 5
  | .viewing .. => 4
  | .writing .. => 3
  | .publishing .. => 2

/-- Steps to the end of a `try_pop` that succeeds. -/
def Consumer.stepsLeft : Consumer T → Nat
  | .idle => 3
  | .viewing _ => 2
  | .reading _ => 1
  | .publishing .. => 0

/-- What is left to do. An item still to be pushed weighs more than one in the ring, which weighs
more than one that is popped. -/
def leftToDo (prog : Program T σ) (s : Pipeline T σ w) : Nat :=
  20 * (prog.passes.toNat * prog.count.toNat - s.session.pushed.length) +
    (prog.passes.toNat - s.pass.toNat) + s.session.producer.stepsLeft s.item +
    10 * (s.session.pushed.length - s.session.popped.length) + 5 * s.out.toList.length +
    s.session.consumer.stepsLeft

section Progress

variable [DecidableEq T] {cacheFarCursor : Bool} {prog : Program T σ} {init : σ}
  {s : Pipeline T σ w}

omit [DecidableEq T] in
/-- The far cursor as it is now is always one of the views. -/
theorem Coherent.view_latest {u : Session T w} (h : Coherent cacheFarCursor u) :
    view u.tails u.tailSeen u.pushed.length = some (UInt64.ofNat u.pushed.length) ∧
      view u.heads u.headSeen u.popped.length = some (UInt64.ofNat u.popped.length) := by
  rw [h.tails_eq, h.heads_eq]
  simp [view, published, h.tailSeen_le, h.headSeen_le]

theorem advance_ring {a : Action T} {t : Session T w} (hbegins : begins prog s a = true)
    (hs : step cacheFarCursor s.session a = some t) :
    advance cacheFarCursor prog s (.ring a) = some (returns s t a) := by
  simp only [advance, hbegins, hs]
  rfl

/-- There is a step after which less is left to do. -/
def Progresses (cacheFarCursor : Bool) (prog : Program T σ) (s : Pipeline T σ w) : Prop :=
  ∃ m t, advance cacheFarCursor prog s m = some t ∧ leftToDo prog t < leftToDo prog s

/-- A step of the ring within a call that brings one of the threads forward. -/
theorem progresses_of_ring {a : Action T} {t : Session T w} (hbegins : begins prog s a = true)
    (hs : step cacheFarCursor s.session a = some t) (hwithin : returns s t a = { s with session := t })
    (hpushed : t.pushed = s.session.pushed) (hpopped : t.popped = s.session.popped)
    (hless : t.producer.stepsLeft s.item + t.consumer.stepsLeft <
      s.session.producer.stepsLeft s.item + s.session.consumer.stepsLeft) :
    Progresses cacheFarCursor prog s := by
  refine ⟨_, _, advance_ring hbegins hs, ?_⟩
  simp only [leftToDo, hwithin, hpushed, hpopped]
  omega

theorem Working.progress_consume (h : Working cacheFarCursor prog init s) {out : T}
    (hout : s.out = some out)
    (hconsume : ∀ st x clock depth, ∃ st', prog.consume st x clock depth = some st') :
    Progresses cacheFarCursor prog s := by
  have hview := h.coherent.view_latest.1
  let depth := sizeApprox (UInt64.ofNat s.session.pushed.length) s.session.ring.head
  obtain ⟨state, hstate⟩ := hconsume s.state out 0 depth
  have hm : SpscRing.advance cacheFarCursor prog s (.consume 0 s.session.pushed.length) =
      some { s with
        state := state, popped := s.popped + 1, out := none, log := s.log ++ [(out, 0, depth)] } := by
    simp only [SpscRing.advance, hout, depthByConsumer, hview, Option.map_some,
      Option.bind_eq_bind, Option.bind_some]
    rw [hstate]
    rfl
  exact ⟨_, _, hm, by simp [leftToDo, hout]⟩

/-- A consumer that looks at the tail of a ring with something in it goes on to read. -/
theorem Working.progress_viewTail (h : Working cacheFarCursor prog init s) {head : UInt64}
    (hpc : s.session.consumer = .viewing head)
    (hsome : s.session.popped.length < s.session.pushed.length) :
    Progresses cacheFarCursor prog s := by
  obtain rfl : head = s.session.ring.head := by
    simpa [ConsumerOk, hpc] using h.coherent.consumer_ok
  by_cases htrust : cacheFarCursor = true ∧ s.session.ring.head ≠ s.session.ring.cachedTail
  · have hs : step cacheFarCursor s.session .trustTail =
        some { s.session with consumer := .reading s.session.ring.head } := by
      simp only [step, stepPop, hpc, if_pos htrust]
    exact progresses_of_ring rfl hs rfl rfl rfl (by simp [hpc, Consumer.stepsLeft])
  · have hview := h.coherent.view_latest.1
    have hne : s.session.ring.head ≠ UInt64.ofNat s.session.pushed.length := by
      rw [Ne, h.coherent.head_eq_iff hsome.le le_rfl]
      omega
    have hs : step cacheFarCursor s.session (.viewTail s.session.pushed.length) =
        some { noteTail cacheFarCursor s.session s.session.pushed.length
            (UInt64.ofNat s.session.pushed.length) with
          consumer := .reading s.session.ring.head } := by
      simp only [step, stepPop, hpc, if_neg htrust, hview, Option.bind_eq_bind, Option.bind_some,
        if_neg hne]
      rfl
    exact progresses_of_ring rfl hs rfl rfl rfl (by simp [noteTail, hpc, Consumer.stepsLeft])

/-- The consumer gets on while there is something in the ring. -/
theorem Working.progress_pop (h : Working cacheFarCursor prog init s) (hout : s.out = none)
    (hfits : prog.passes.toNat * prog.count.toNat < 2 ^ 64)
    (hsome : s.session.popped.length < s.session.pushed.length) :
    Progresses cacheFarCursor prog s := by
  cases hpc : s.session.consumer with
  | idle =>
    have hmore : s.popped < prog.total := by
      by_contra hend
      have hsame := congrArg List.length (h.finished hfits hend).2.2.1
      rw [List.length_map] at hsame
      omega
    have hs : step cacheFarCursor s.session .readHead =
        some { s.session with consumer := .viewing s.session.ring.head } := by
      simp only [step, stepPop, hpc]
    exact progresses_of_ring (by simp [begins, hmore, hout]) hs rfl rfl rfl
      (by simp [hpc, Consumer.stepsLeft])
  | viewing head => exact h.progress_viewTail hpc hsome
  | reading head =>
    have hs : step cacheFarCursor s.session .readSlot =
        some { s.session with
          consumer := .publishing head (s.session.ring.buf (w.index head)) } := by
      simp only [step, stepPop, hpc]
    exact progresses_of_ring rfl hs rfl rfl rfl (by simp [hpc, Consumer.stepsLeft])
  | publishing head out =>
    have hs : ∃ t, step cacheFarCursor s.session .publishHead = some t := by
      simp only [step, stepPop, hpc]
      exact ⟨_, rfl⟩
    obtain ⟨t, hs⟩ := hs
    refine ⟨_, _, advance_ring rfl hs, ?_⟩
    simp only [step, stepPop, hpc] at hs
    obtain rfl := Option.some.inj hs
    simp only [leftToDo, returns, hpc, hout, Consumer.stepsLeft, List.length_append,
      List.length_singleton, Option.toList_some, Option.toList_none, List.length_nil]
    omega

omit [DecidableEq T] in
theorem toNat_nextPass (hpass : s.pass < prog.passes) : (s.pass + 1).toNat = s.pass.toNat + 1 := by
  have hlt := UInt64.lt_iff_toNat_lt.mp hpass
  have := prog.passes.toNat_lt
  exact toNat_succ (by omega)

/-- The producer between two pushes: it goes to the next pass, makes an item or begins to push. -/
theorem progress_idle (hmake : ∀ i < prog.count, ∀ clock, ∃ item, prog.make i clock = some item)
    (hpass : s.pass < prog.passes) (hpc : s.session.producer = .idle) :
    Progresses cacheFarCursor prog s := by
  by_cases hindex : s.index < prog.count
  · cases hitem : s.item with
    | none =>
      obtain ⟨item, hmade⟩ := hmake s.index hindex 0
      have hm : advance cacheFarCursor prog s (.make 0) = some { s with item := some item } := by
        simp only [advance, hpass, hindex, hitem, and_self, if_true, hmade, Option.map_some]
      refine ⟨_, _, hm, ?_⟩
      simp [leftToDo, hpc, hitem, Producer.stepsLeft]
    | some item =>
      have hs : step cacheFarCursor s.session (.readTail item) =
          some { s.session with producer := .viewing item s.session.ring.tail } := by
        simp only [step, stepPush, hpc]
      exact progresses_of_ring (by simp [begins, hitem]) hs rfl rfl rfl
        (by simp [hpc, hitem, Producer.stepsLeft])
  · have hlt := UInt64.lt_iff_toNat_lt.mp hpass
    have hm : advance cacheFarCursor prog s .nextPass =
        some { s with pass := s.pass + 1, index := 0 } := by
      simp only [advance, hpass, hindex, not_false_eq_true, and_self, if_true]
    refine ⟨_, _, hm, ?_⟩
    simp only [leftToDo, toNat_nextPass hpass]
    omega

/-- A producer that looks at the head of an empty ring goes on to write. -/
theorem Working.progress_viewHead (h : Working cacheFarCursor prog init s) {item : T}
    {tail : UInt64} (hpc : s.session.producer = .viewing item tail)
    (hempty : s.session.popped.length = s.session.pushed.length) :
    Progresses cacheFarCursor prog s := by
  obtain rfl : tail = s.session.ring.tail := by
    simpa [ProducerOk, hpc] using h.coherent.producer_ok
  by_cases htrust : cacheFarCursor = true ∧
      ¬looksFull w s.session.ring.tail s.session.ring.cachedHead = true
  · have hs : step cacheFarCursor s.session .trustHead =
        some { s.session with producer := .writing item s.session.ring.tail } := by
      simp only [step, stepPush, hpc, if_pos htrust]
    exact progresses_of_ring rfl hs rfl rfl rfl (by simp [hpc, Producer.stepsLeft])
  · have hview := h.coherent.view_latest.2
    have hroom : ¬looksFull w s.session.ring.tail
        (UInt64.ofNat s.session.popped.length) = true := by
      have := w.size_pos
      rw [h.coherent.tail_eq, looksFull_iff hempty.le (by omega)]
      omega
    have hs : step cacheFarCursor s.session (.viewHead s.session.popped.length) =
        some { noteHead cacheFarCursor s.session s.session.popped.length
            (UInt64.ofNat s.session.popped.length) with
          producer := .writing item s.session.ring.tail } := by
      simp only [step, stepPush, hpc, if_neg htrust, hview, Option.bind_eq_bind,
        Option.bind_some, if_neg hroom]
      rfl
    exact progresses_of_ring rfl hs rfl rfl rfl (by simp [noteHead, hpc, Producer.stepsLeft])

/-- The producer gets on while the ring is empty and there are iterations left. -/
theorem Working.progress_push (h : Working cacheFarCursor prog init s)
    (hmake : ∀ i < prog.count, ∀ clock, ∃ item, prog.make i clock = some item)
    (hempty : s.session.popped.length = s.session.pushed.length) (hpass : s.pass < prog.passes) :
    Progresses cacheFarCursor prog s := by
  cases hpc : s.session.producer with
  | idle => exact progress_idle hmake hpass hpc
  | viewing item tail => exact h.progress_viewHead hpc hempty
  | writing item tail =>
    have hs : step cacheFarCursor s.session .writeSlot =
        some { s.session with
          ring := { s.session.ring with
            buf := Function.update s.session.ring.buf (w.index tail) item }
          producer := .publishing item tail } := by
      simp only [step, stepPush, hpc]
    exact progresses_of_ring rfl hs rfl rfl rfl (by simp [hpc, Producer.stepsLeft])
  | publishing item tail =>
    have hs : ∃ t, step cacheFarCursor s.session .publishTail = some t := by
      simp only [step, stepPush, hpc]
      exact ⟨_, rfl⟩
    obtain ⟨t, hs⟩ := hs
    have hm : SpscRing.advance cacheFarCursor prog s (.ring .publishTail) = some _ :=
      advance_ring rfl hs
    have hbound := (h.advance hm).lengths.2.2
    refine ⟨_, _, hm, ?_⟩
    simp only [step, stepPush, hpc] at hs
    obtain rfl := Option.some.inj hs
    simp only [returns, List.length_append, List.length_singleton] at hbound
    simp only [leftToDo, returns, hpc, Producer.stepsLeft, Option.isNone_none, if_true,
      List.length_append, List.length_singleton]
    omega

/-- Neither thread is ever stuck behind the other: a working pipeline that is not through has a
step after which less is left to do. -/
theorem Working.progress (h : Working cacheFarCursor prog init s)
    (hfits : prog.passes.toNat * prog.count.toNat < 2 ^ 64)
    (hmake : ∀ i < prog.count, ∀ clock, ∃ item, prog.make i clock = some item)
    (hconsume : ∀ st x clock depth, ∃ st', prog.consume st x clock depth = some st')
    (hmore : ¬Finished prog s) : Progresses cacheFarCursor prog s := by
  cases hout : s.out with
  | some out => exact h.progress_consume hout hconsume
  | none =>
    rcases Nat.lt_or_ge s.session.popped.length s.session.pushed.length with hsome | hempty
    · exact h.progress_pop hout hfits hsome
    have hempty : s.session.popped.length = s.session.pushed.length :=
      Nat.le_antisymm h.lengths.2.1 hempty
    refine h.progress_push hmake hempty ?_
    -- an empty ring behind a producer that is through is the end
    by_contra hpass
    apply hmore
    refine ⟨hpass, ?_⟩
    have heq : s.pass = prog.passes := by
      rw [UInt64.lt_iff_toNat_lt] at hpass
      exact UInt64.toNat_inj.mp (Nat.le_antisymm h.pass_le (by omega))
    have hlog := h.lengths.1
    rw [hout, hempty, h.pushed_eq, h.index_end heq, heq] at hlog
    rw [Program.total, h.count_eq, UInt64.lt_iff_toNat_lt, UInt64.toNat_mul, UInt64.toNat_ofNat']
    simp only [Option.toList_none, List.length_nil, UInt64.toNat_zero, Nat.add_zero] at hlog
    rw [hlog, Nat.mul_comm]
    exact Nat.lt_irrefl _

omit [DecidableEq T] in
theorem Working.leftToDo_le (h : Working cacheFarCursor prog init s) :
    leftToDo prog s ≤ 30 * (prog.passes.toNat * prog.count.toNat) + prog.passes.toNat + 14 := by
  have hpush := h.lengths.2.2
  have hprod : s.session.producer.stepsLeft s.item ≤ 6 := by
    unfold Producer.stepsLeft
    split
    · split <;> omega
    all_goals omega
  have hcons : s.session.consumer.stepsLeft ≤ 3 := by
    unfold Consumer.stepsLeft
    split <;> omega
  have hout : s.out.toList.length ≤ 1 := by cases s.out <;> simp
  unfold leftToDo
  omega

/-- Wherever an interleaving has taken the two threads, they can still finish: no order of steps
leads into a deadlock. -/
theorem exists_finish {buf : Fin w.size → T} {moves : List (Move T)}
    (hfits : prog.passes.toNat * prog.count.toNat < 2 ^ 64)
    (hmake : ∀ i < prog.count, ∀ clock, ∃ item, prog.make i clock = some item)
    (hconsume : ∀ st x clock depth, ∃ st', prog.consume st x clock depth = some st')
    (hrun : runPipeline cacheFarCursor prog buf init moves = some s) :
    ∃ more t, more.length ≤ 30 * (prog.passes.toNat * prog.count.toNat) + prog.passes.toNat + 14 ∧
      runPipeline cacheFarCursor prog buf init (moves ++ more) = some t ∧ Finished prog t := by
  have h := working_run hrun
  obtain ⟨more, t, hlen, hmore, hend⟩ := exists_foldlM_final
    (I := Working cacheFarCursor prog init) (leftToDo prog) (fun _ _ _ h hm => h.advance hm)
    (fun _ h hmore => h.progress hfits hmake hconsume hmore) h
  refine ⟨more, t, hlen.trans h.leftToDo_le, ?_, hend⟩
  rw [runPipeline, List.foldlM_append]
  exact (congrArg (· >>= _) hrun).trans hmore

end Progress

end SpscRing

end OhlcvValidator
