import OhlcvValidator.BenchPasses
import OhlcvValidator.SpscPipelineProgress

namespace OhlcvValidator

open SpscRing (Pipeline Program Move runPipeline Finished)

namespace Replay

def kRingCapacity : PowTwo :=
  ⟨1024, by decide, by decide, by decide⟩

/-- A record on its way through the ring, with the clock when it was enqueued. -/
structure Stamped where
  record : WireRecord
  enqueueTsc : UInt64
  deriving DecidableEq, Repr

/-- What the consumer of the realistic pipeline collects. -/
structure Handoff (F : Type) [PriceArith F] where
  validator : Validator F := {}
  hist : LatencyHistogram 1000000 := {}
  occupancySum : UInt64 := 0
  tscAnomalies : UInt64 := 0
  checksum : UInt64 := 0

section Consumers

variable {F : Type} [PriceArith F] (ofBits : DoubleBits → F) (toNs : UInt64 → UInt64)

/-- The consumer's work on one record: the depth and, unless the clocks of the two cores
disagree, the time in the queue are sampled; then the record is validated. -/
def Handoff.consume (h : Handoff F) (s : Stamped) (now depth : UInt64) :
    Except Fault (Handoff F) := do
  let h := { h with occupancySum := h.occupancySum + depth }
  let h ←
    if now < s.enqueueTsc then pure { h with tscAnomalies := h.tscAnomalies + 1 }
    else do
      let hist ← h.hist.record (toNs (now - s.enqueueTsc))
      pure { h with hist := hist }
  let (validator, r) := h.validator.check (s.record.dispatch ofBits)
  pure { h with validator := validator, checksum := h.checksum + r.flags.toUInt64 }

/-- Both loops of the realistic pipeline over an accepted file. `toNs` turns ticks into rounded
nanoseconds. -/
def handoff (view : ReplayView) (passes : UInt64) : Program Stamped (Handoff F) where
  passes := passes
  count := view.count
  make := fun i tsc => (view.record i.toNat).map fun record => ⟨record, tsc⟩
  consume := fun h s now depth => (h.consume ofBits toNs s now depth).toOption

/-- Both loops of the ring-bound measurement: the consumer adds up the first byte of each item. -/
def ringThroughput {T : Type} (firstByte : T → UInt8) (count passes : UInt64)
    (make : UInt64 → Option T) : Program T UInt64 where
  passes := passes
  count := count
  make := fun i _ => make i
  consume := fun sink item _ _ => some (sink + (firstByte item).toUInt64)

end Consumers

section Handoff

variable {F : Type} [PriceArith F] (ofBits : DoubleBits → F) (toNs : UInt64 → UInt64)

/-- The work on a record succeeds, whatever the clock and the depth are; it takes one sample
of either kind and checks the record. -/
theorem Handoff.consume_ok (h : Handoff F) (s : Stamped) (now depth : UInt64) :
    ∃ h', h.consume ofBits toNs s now depth = .ok h' ∧
      (h'.validator, h'.checksum) = checkRecord ofBits addFlags (h.validator, h.checksum) s.record ∧
      h'.occupancySum = h.occupancySum + depth ∧
      h'.hist.count + h'.tscAnomalies = h.hist.count + h.tscAnomalies + 1 := by
  unfold consume
  dsimp only
  split
  next => exact ⟨_, rfl, rfl, rfl, (UInt64.add_assoc ..).symm⟩
  next =>
    obtain ⟨hist, hrecord, hcount⟩ := h.hist.record_ok (by decide) (toNs (now - s.enqueueTsc))
    simp only [hrecord, ok_bind]
    refine ⟨_, rfl, rfl, rfl, ?_⟩
    show hist.count + h.tscAnomalies = _
    rw [hcount, UInt64.add_assoc, UInt64.add_comm 1, ← UInt64.add_assoc]

/-- The consumer's work on a sequence of records. -/
theorem Handoff.foldlM_consume {log : List (Stamped × UInt64 × UInt64)} {h : Handoff F}
    (hrun : log.foldlM (fun h x => (Handoff.consume ofBits toNs h x.1 x.2.1 x.2.2).toOption) {} =
      some h)
    (hdepth : ∀ x ∈ log, x.2.2.toNat ≤ 1024) (hfits : 1024 * log.length < 2 ^ 64) :
    (h.validator, h.checksum) =
        ((log.map Prod.fst).map Stamped.record).foldl (checkRecord ofBits addFlags) ({}, 0) ∧
      h.hist.count + h.tscAnomalies = UInt64.ofNat log.length ∧
      h.occupancySum.toNat ≤ 1024 * log.length := by
  induction log using List.reverseRecOn generalizing h with
  | nil =>
    obtain rfl := Option.some.inj hrun
    exact ⟨rfl, rfl, le_rfl⟩
  | append_singleton log x ih =>
    rw [List.length_append, List.length_singleton] at hfits ⊢
    rw [List.foldlM_append] at hrun
    obtain ⟨before, hbefore, hrun⟩ := Option.bind_eq_some_iff.mp hrun
    obtain ⟨hchecks, hsamples, hsum⟩ :=
      ih hbefore (fun y hy => hdepth y (List.mem_append_left _ hy)) (by omega)
    obtain ⟨after, hok, hcheck, hocc, hcount⟩ :=
      before.consume_ok ofBits toNs x.1 x.2.1 x.2.2
    simp only [List.foldlM_cons, List.foldlM_nil, hok, Except.toOption, Option.bind_eq_bind,
      Option.bind_some, Option.pure_def] at hrun
    obtain rfl := Option.some.inj hrun
    refine ⟨?_, ?_, ?_⟩
    · simp [hcheck, hchecks]
    · rw [hcount, hsamples, UInt64.ofNat_add]
      rfl
    · have hx := hdepth x (by simp)
      rw [hocc, UInt64.toNat_add, Nat.mod_eq_of_lt (by omega)]
      omega

end Handoff

section Pipeline

variable {F : Type} [PriceArith F] (ofBits : DoubleBits → F) (toNs : UInt64 → UInt64)
  {view : ReplayView} {recs : List WireRecord} {passes : UInt64}

/-- In every interleaving the consumer works on the records of the passes in file order, each
once, with the state and the checksum of one validator that reads them itself; it takes one sample
for each, and the mean occupancy is at most the capacity. When it has counted all records, none is
left in the ring. -/
theorem handoff_checks_in_order (hshows : view.Shows recs)
    (hfits : 1024 * (passes.toNat * recs.length) < 2 ^ 64)
    {buf : Fin kRingCapacity.size → Stamped} {moves : List (Move Stamped)}
    {s : Pipeline Stamped (Handoff F) kRingCapacity}
    (hrun : runPipeline false (handoff ofBits toNs view passes) buf {} moves = some s) :
    s.popped.toNat ≤ passes.toNat * recs.length ∧
    (s.log.map Prod.fst).map Stamped.record =
      (List.replicate passes.toNat recs).flatten.take s.popped.toNat ∧
    (s.state.validator, s.state.checksum) =
      ((s.log.map Prod.fst).map Stamped.record).foldl (checkRecord ofBits addFlags) ({}, 0) ∧
    s.state.checksum = collect ofBits addFlags
      ((List.replicate passes.toNat recs).flatten.take s.popped.toNat) 0 ∧
    s.state.hist.count + s.state.tscAnomalies = s.popped ∧
    s.state.occupancySum.toNat ≤ 1024 * s.popped.toNat ∧
    (s.popped.toNat = passes.toNat * recs.length →
      s.state.checksum = collect ofBits addFlags (List.replicate passes.toNat recs).flatten 0 ∧
        s.session.ring.head = s.session.ring.tail) := by
  have h := SpscRing.working_run hrun
  have hcount : view.count.toNat = recs.length := hshows.2.1
  obtain ⟨hlog, hpop, hpush⟩ := h.lengths
  have hpush : s.session.pushed.length ≤ passes.toNat * recs.length := hcount ▸ hpush
  have hpopped : s.popped.toNat = s.log.length := by
    rw [h.count_eq, UInt64.toNat_ofNat_of_lt' (by show _ < 2 ^ 64; omega)]
  have hrecords := h.log_eq Stamped.record hcount fun i clock item hi hmake => by
    obtain ⟨record, hrecord, rfl⟩ := Option.map_eq_some_iff.mp hmake
    rw [← hshows.2.2 i.toNat (hcount ▸ UInt64.lt_iff_toNat_lt.mp hi)]
    exact hrecord
  rw [← hpopped] at hrecords
  obtain ⟨hchecks, hsamples, hsum⟩ := Handoff.foldlM_consume ofBits toNs h.computed h.depth_le (by omega)
  have hchecksum : s.state.checksum = collect ofBits addFlags
      ((List.replicate passes.toNat recs).flatten.take s.popped.toNat) 0 := by
    rw [hrecords, foldl_checkRecord] at hchecks
    exact congrArg Prod.snd hchecks
  refine ⟨by omega, hrecords, hchecks, hchecksum, by rw [hsamples, h.count_eq],
    by rw [hpopped]; exact hsum, ?_⟩
  intro hend
  refine ⟨?_, ?_⟩
  · rw [hchecksum, hend, List.take_of_length_le (by simp)]
  · have hsame : s.session.popped.length = s.session.pushed.length := by omega
    rw [h.coherent.head_eq, h.coherent.tail_eq, hsame]

/-- The view of a file with a trade and a bar. -/
def tradeAndBar : ReplayView :=
  viewReplay (some (fileOf [fill 0, fill 1]))

theorem tradeAndBar_shows : tradeAndBar.Shows [fill 0, fill 1] := by
  decide +kernel

theorem handoff_make (hshows : view.Shows recs) :
    ∀ i < (handoff (F := F) ofBits toNs view passes).count, ∀ clock,
      ∃ item, (handoff (F := F) ofBits toNs view passes).make i clock = some item := by
  intro i hi clock
  have hlt : i.toNat < recs.length := hshows.2.1 ▸ UInt64.lt_iff_toNat_lt.mp hi
  have hrecord := hshows.2.2 i.toNat hlt
  rw [List.getElem?_eq_getElem hlt] at hrecord
  exact ⟨_, congrArg (Option.map _) hrecord⟩

theorem handoff_consume (h : Handoff F) (s : Stamped) (now depth : UInt64) :
    ∃ h', (handoff ofBits toNs view passes).consume h s now depth = some h' := by
  obtain ⟨h', hok, _⟩ := h.consume_ok ofBits toNs s now depth
  exact ⟨h', congrArg Except.toOption hok⟩

/-- Two passes over a trade and a bar, scheduled to the end. -/
theorem handoff_checks_in_order_twoPasses :
    ∃ moves s, runPipeline (w := kRingCapacity) false
        (handoff (fun x => (x.toNat : ℚ)) id tradeAndBar 2) (fun _ => ⟨fill 0, 0⟩) {} moves = some s ∧
      (s.log.map Prod.fst).map Stamped.record = [fill 0, fill 1, fill 0, fill 1] ∧
      s.state.occupancySum.toNat ≤ 1024 * 4 ∧
      s.state.checksum = collect (fun x => (x.toNat : ℚ)) addFlags
        [fill 0, fill 1, fill 0, fill 1] 0 := by
  have hstart : runPipeline (w := kRingCapacity) false
      (handoff (fun x => (x.toNat : ℚ)) id tradeAndBar 2) (fun _ => ⟨fill 0, 0⟩) {} [] = some _ := rfl
  obtain ⟨moves, s, _, hrun, _, hend⟩ := SpscRing.exists_finish (by decide +kernel)
    (handoff_make _ _ tradeAndBar_shows) (handoff_consume _ _) hstart
  obtain ⟨hle, hlog, _, _, _, hocc, hall⟩ :=
    handoff_checks_in_order _ _ tradeAndBar_shows (by decide) hrun
  have hle : s.popped.toNat ≤ 4 := hle
  have htotal : tradeAndBar.count * 2 = 4 := by decide +kernel
  have hpopped : s.popped.toNat = 4 := by
    simp only [Program.total, handoff, htotal, UInt64.lt_iff_toNat_lt] at hend
    exact Nat.le_antisymm hle (Nat.le_of_not_lt hend)
  rw [hpopped] at hlog hocc
  exact ⟨_, s, hrun, hlog, hocc, (hall hpopped).1⟩

/-- No interleaving leads the pipeline into a deadlock: from wherever it is, both threads can
finish, in a number of steps that is linear in the work. -/
theorem handoff_never_stuck (hshows : view.Shows recs)
    (hfits : passes.toNat * recs.length < 2 ^ 64)
    {buf : Fin kRingCapacity.size → Stamped} {moves : List (Move Stamped)}
    {s : Pipeline Stamped (Handoff F) kRingCapacity}
    (hrun : runPipeline false (handoff ofBits toNs view passes) buf {} moves = some s) :
    ∃ more t, more.length ≤ 30 * (passes.toNat * recs.length) + passes.toNat + 14 ∧
      runPipeline false (handoff ofBits toNs view passes) buf {} (moves ++ more) = some t ∧
      t.pass = passes ∧ t.popped.toNat = passes.toNat * recs.length := by
  have hcount : view.count.toNat = recs.length := hshows.2.1
  have hfits' : passes.toNat * view.count.toNat < 2 ^ 64 := hcount ▸ hfits
  obtain ⟨more, t, hlen, hmore, hpass, hend⟩ := SpscRing.exists_finish hfits'
    (handoff_make ofBits toNs hshows) (handoff_consume ofBits toNs) hrun
  have h := SpscRing.working_run hmore
  refine ⟨more, t, hcount ▸ hlen, hmore, ?_, ?_⟩
  · rw [UInt64.lt_iff_toNat_lt] at hpass
    exact UInt64.toNat_inj.mp (Nat.le_antisymm h.pass_le (Nat.le_of_not_lt hpass))
  · have hlog : t.log.length = passes.toNat * view.count.toNat := (h.finished hfits' hend).1
    rw [h.count_eq, hlog, hcount, UInt64.toNat_ofNat_of_lt' (by show _ < 2 ^ 64; omega)]

/-- From the start, with one pass. -/
theorem handoff_never_stuck_tradeAndBar :
    ∃ more t, more.length ≤ 30 * 2 + 1 + 14 ∧
      runPipeline (w := kRingCapacity) false (handoff (fun x => (x.toNat : ℚ)) id tradeAndBar 1)
        (fun _ => ⟨fill 0, 0⟩) {} more = some t ∧ t.pass = 1 ∧ t.popped.toNat = 2 := by
  have hstart : runPipeline (w := kRingCapacity) false
      (handoff (fun x => (x.toNat : ℚ)) id tradeAndBar 1) (fun _ => ⟨fill 0, 0⟩) {} [] = some _ := rfl
  exact handoff_never_stuck _ _ tradeAndBar_shows (by decide) hstart

end Pipeline

section Throughput

variable {T : Type} [DecidableEq T] {firstByte : T → UInt8} {items : List T} {count passes : UInt64}
  {make : UInt64 → Option T}

omit [DecidableEq T] in
theorem foldlM_ringThroughput (log : List (T × UInt64 × UInt64)) (sink : UInt64) :
    log.foldlM (fun sink x => (ringThroughput firstByte count passes make).consume sink x.1 x.2.1
      x.2.2) sink =
        some ((log.map Prod.fst).foldl (fun sink x => sink + (firstByte x).toUInt64) sink) := by
  induction log generalizing sink with
  | nil => rfl
  | cons x log ih => exact ih _

/-- The ring-bound measurement sinks the same bytes with either cursor algorithm, any capacity
and any interleaving: those of all items, once for each pass. -/
theorem ringThroughput_sink (hcount : count.toNat = items.length)
    (hmake : ∀ i < count, make i = items[i.toNat]?) (hfits : passes.toNat * items.length < 2 ^ 64)
    {cacheFarCursor : Bool} {w : PowTwo} {buf : Fin w.size → T} {moves : List (Move T)}
    {s : Pipeline T UInt64 w}
    (hrun : runPipeline cacheFarCursor (ringThroughput firstByte count passes make) buf 0 moves =
      some s)
    (hend : Finished (ringThroughput firstByte count passes make) s) :
    s.state = (List.replicate passes.toNat items).flatten.foldl
      (fun sink x => sink + (firstByte x).toUInt64) 0 := by
  have h := SpscRing.working_run hrun
  have hlog : s.log.length = passes.toNat * count.toNat :=
    (h.finished (by rw [show _ * _ = _ from rfl]; exact hcount ▸ hfits) hend.2).1
  have hitems := h.log_eq id hcount fun i clock item hi hmade => by
    rw [← hmake i hi]
    exact hmade
  have hstate := h.computed
  rw [foldlM_ringThroughput] at hstate
  rw [← Option.some.inj hstate, ← List.map_id (s.log.map Prod.fst), hitems, hlog, hcount,
    List.take_of_length_le (by simp [ringThroughput])]
  rfl

/-- Three words through a cached ring of two slots. -/
theorem ringThroughput_sink_words :
    ∃ moves s, runPipeline (w := PowTwo.two) true
        (ringThroughput (T := UInt64) UInt64.toUInt8 3 2 some) (fun _ => 0) 0 moves = some s ∧
      s.state = 6 := by
  have hstart : runPipeline (w := PowTwo.two) true
      (ringThroughput (T := UInt64) UInt64.toUInt8 3 2 some) (fun _ => 0) 0 [] = some _ := rfl
  obtain ⟨moves, s, _, hrun, hend⟩ := SpscRing.exists_finish (by decide)
    (fun i _ _ => ⟨i, rfl⟩) (fun _ _ _ _ => ⟨_, rfl⟩) hstart
  have hmake : ∀ i < (3 : UInt64), some i = [0, 1, 2][i.toNat]? := by
    intro i hi
    obtain rfl | rfl | rfl : i = 0 ∨ i = 1 ∨ i = 2 := by
      simp only [UInt64.lt_iff_toNat_lt, ← UInt64.toNat_inj] at hi ⊢
      have h3 : (3 : UInt64).toNat = 3 := rfl
      have h2 : (2 : UInt64).toNat = 2 := rfl
      have h1 : (1 : UInt64).toNat = 1 := rfl
      have h0 : (0 : UInt64).toNat = 0 := rfl
      omega
    all_goals rfl
  exact ⟨_, s, hrun, (ringThroughput_sink (by decide) hmake (by decide) hrun hend).trans (by decide)⟩

end Throughput

end Replay

end OhlcvValidator
