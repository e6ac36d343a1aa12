import OhlcvValidator.LatencyHistogram
import OhlcvValidator.ReplayBench
import OhlcvValidator.ReplayReader
import OhlcvValidator.ValidatorIsolation

namespace OhlcvValidator

section Indexed

variable {ε σ α β : Type}

/-- Entries that are all there form a list. -/
theorem exists_list_of_forall {get : Nat → Option α} {n : Nat} (h : ∀ i < n, ∃ x, get i = some x) :
    ∃ xs : List α, xs.length = n ∧ ∀ i < n, get i = xs[i]? := by
  induction n with
  | zero => exact ⟨[], rfl, by simp⟩
  | succ n ih =>
    obtain ⟨xs, hlen, hxs⟩ := ih fun i hi => h i (by omega)
    obtain ⟨x, hx⟩ := h n (by omega)
    refine ⟨xs ++ [x], by simp [hlen], ?_⟩
    intro i hi
    by_cases hin : i = n
    · subst hin hlen
      simp [hx]
    · rw [hxs i (by omega), List.getElem?_append_left (by omega)]

/-- A loop that reads the entries by index is the fold over them. -/
theorem foldlM_range_entries {xs : List α} {f : σ → Nat → Except ε σ} {g : σ → α → σ}
    (step : ∀ s i x, xs[i]? = some x → f s i = .ok (g s x)) (s : σ) :
    (List.range xs.length).foldlM f s = .ok (xs.foldl g s) := by
  have hupto : ∀ n ≤ xs.length, (List.range n).foldlM f s = .ok ((xs.take n).foldl g s) := by
    intro n hn
    induction n with
    | zero => rfl
    | succ n ih =>
      have hget : xs[n]? = some xs[n] := List.getElem?_eq_getElem hn
      rw [List.range_succ, List.foldlM_append, ih (by omega), List.take_add_one, hget,
        Option.toList_some, List.foldl_append, ok_bind, List.foldlM_cons, step _ n _ hget]
      rfl
  rw [hupto _ le_rfl, List.take_length]

end Indexed

namespace Replay

/-- The violation breakdown that the warm pass collects. -/
structure Breakdown where
  badTrades : UInt64 := 0
  badBars : UInt64 := 0
  seqGaps : UInt64 := 0
  tsRegress : UInt64 := 0
  reconVol : UInt64 := 0
  reconCnt : UInt64 := 0
  reconVwap : UInt64 := 0
  reconOhlc : UInt64 := 0
  qCrossed : UInt64 := 0
  qLocked : UInt64 := 0
  qNonpos : UInt64 := 0
  qZerosize : UInt64 := 0
  bandBreach : UInt64 := 0
  deriving DecidableEq, Repr

/-- The statement `++n` under a condition. -/
def bumpIf (c : Bool) (n : UInt64) : UInt64 :=
  if c then n + 1 else n

/-- The flags of a bar that make it a bad one. -/
def badBar : UInt32 :=
  Violation.barLowAboveHigh.bit ||| Violation.barOpenOutOfRange.bit |||
    Violation.barCloseOutOfRange.bit ||| Violation.barVwapOutOfRange.bit |||
    Violation.barNonPositivePrice.bit ||| Violation.barVolumeInconsistent.bit

def Breakdown.add (b : Breakdown) (rec : WireRecord) (r : Validator.Result) : Breakdown :=
  -- gaps and regressions are counted in all three branches
  let b :=
    { b with
      seqGaps := bumpIf (r.has .sequenceGap) b.seqGaps
      tsRegress := bumpIf (r.has .timestampRegression) b.tsRegress }
  if rec.type = RecordType.Trade.toByte then
    { b with
      badTrades := bumpIf (r.has .tradeNonPositivePrice || r.has .tradeNonPositiveSize) b.badTrades
      bandBreach := bumpIf (r.has .priceBandBreach) b.bandBreach }
  else if rec.type = RecordType.Bar.toByte then
    { b with
      badBars := bumpIf (decide (r.flags &&& badBar ≠ 0)) b.badBars
      reconVol := bumpIf (r.has .barVolumeReconstructMismatch) b.reconVol
      reconCnt := bumpIf (r.has .barTradeCountReconstructMismatch) b.reconCnt
      reconVwap := bumpIf (r.has .barVwapReconstructMismatch) b.reconVwap
      reconOhlc := bumpIf (r.has .barOhlcReconstructMismatch) b.reconOhlc }
  else
    { b with
      qCrossed := bumpIf (r.has .quoteCrossed) b.qCrossed
      qLocked := bumpIf (r.has .quoteLocked) b.qLocked
      qNonpos := bumpIf (r.has .quoteNonPositive) b.qNonpos
      qZerosize := bumpIf (r.has .quoteZeroSize) b.qZerosize
      bandBreach := bumpIf (r.has .priceBandBreach) b.bandBreach }

def addFlags (checksum : UInt64) (_ : WireRecord) (r : Validator.Result) : UInt64 :=
  checksum + r.flags.toUInt64

/-- How the bench ends: with a message and exit code 1, or with its report. -/
inductive Outcome
  | rejected (message : String)
  | report (count passes : UInt64) (breakdown : Breakdown) (hist : LatencyHistogram 65535)
      (checksum : UInt64)

/-- The mapping of a file that can be opened; an empty file has none. -/
def mapFile (file : Option (List UInt8)) : Option (List UInt8) :=
  file.filter (· ≠ [])

section Passes

variable {F : Type} [PriceArith F] (ofBits : DoubleBits → F)

/-- The body of the record loops: check the record and collect its result. -/
def checkRecord {σ : Type} (f : σ → WireRecord → Validator.Result → σ) (p : Validator F × σ)
    (rec : WireRecord) : Validator F × σ :=
  ((p.1.check (rec.dispatch ofBits)).1, f p.2 rec (p.1.check (rec.dispatch ofBits)).2)

/-- The record loop of a pass, with a fresh validator. -/
def overRecords {σ : Type} (view : ReplayView) (f : σ → WireRecord → Validator.Result → σ)
    (s : σ) : Except Fault σ := do
  let p ← (List.range view.count.toNat).foldlM
    (fun p i => (checked (view.record i)).map (checkRecord ofBits f p)) (({} : Validator F), s)
  pure p.2

def warmPass (view : ReplayView) : Except Fault Breakdown :=
  overRecords ofBits view Breakdown.add {}

/-- Timed pass `p`, between two readings of the clock. -/
def timedPass (clock : Nat → UInt64) (view : ReplayView) (s : LatencyHistogram 65535 × UInt64)
    (p : Nat) : Except Fault (LatencyHistogram 65535 × UInt64) := do
  let t0 := clock (2 * p)
  let checksum ← overRecords ofBits view addFlags s.2
  let t1 := clock (2 * p + 1)
  let perRecord ← divide (t1 - t0) view.count
  let hist ← s.1.record perRecord
  pure (hist, checksum)

def replayBench (clock : Nat → UInt64) (path : String) (file : Option (List UInt8))
    (passes : UInt64) : Except Fault Outcome :=
  match mapFile file with
  | none => pure (.rejected ("cannot mmap " ++ path ++ " (run gen_dataset first)\n"))
  | some bytes =>
    let view := viewReplay (some bytes)
    match view.error with
    | some error => pure (.rejected (path ++ ": " ++ error ++ "\n"))
    | none => do
      let breakdown ← warmPass ofBits view
      let s ← (List.range passes.toNat).foldlM (timedPass ofBits clock view) ({}, 0)
      pure (.report view.count passes breakdown s.1 s.2)

end Passes

section Run

variable {F : Type} [PriceArith F] (ofBits : DoubleBits → F)

/-- The fold over the records and the results of their pass. -/
def collect {σ : Type} (f : σ → WireRecord → Validator.Result → σ) (recs : List WireRecord)
    (s : σ) : σ :=
  (recs.zip (benchPass ofBits recs).2).foldl (fun s p => f s p.1 p.2) s

theorem foldl_checkRecord {σ : Type} (f : σ → WireRecord → Validator.Result → σ)
    (recs : List WireRecord) (s : σ) :
    recs.foldl (checkRecord ofBits f) ({}, s) =
      ((benchPass ofBits recs).1, collect ofBits f recs s) := by
  induction recs using List.reverseRecOn with
  | nil => rfl
  | append_singleton recs rec ih =>
    have hlen : recs.length = (benchPass ofBits recs).2.length := by
      rw [benchPass, Validator.length_run, List.length_map]
    have hpass : benchPass ofBits (recs ++ [rec]) =
        (((benchPass ofBits recs).1.check (rec.dispatch ofBits)).1,
          (benchPass ofBits recs).2 ++
            [((benchPass ofBits recs).1.check (rec.dispatch ofBits)).2]) := by
      rw [benchPass, List.map_append, List.map_singleton, Validator.run_concat]
      rfl
    rw [List.foldl_append, ih, hpass, collect, collect, hpass, List.zip_append hlen,
      List.foldl_append]
    rfl

variable {view : ReplayView} {recs : List WireRecord} (hshows : view.Shows recs)
include hshows

theorem overRecords_shows {σ : Type} (f : σ → WireRecord → Validator.Result → σ) (s : σ) :
    overRecords ofBits view f s = .ok (collect ofBits f recs s) := by
  obtain ⟨_, hcount, hrecord⟩ := hshows
  have hread : ∀ (p : Validator F × σ) (i : Nat) (rec : WireRecord), recs[i]? = some rec →
      (checked (view.record i)).map (checkRecord ofBits f p) =
        .ok (checkRecord ofBits f p rec) := by
    intro p i rec hrec
    obtain ⟨hi, _⟩ := List.getElem?_eq_some_iff.mp hrec
    rw [checked_some ((hrecord i hi).trans hrec)]
    rfl
  rw [overRecords, hcount, foldlM_range_entries hread, foldl_checkRecord]
  rfl

/-- A timed pass adds one sample, whatever the clock says, and the flags of every record. -/
theorem timedPass_shows (hne : recs ≠ []) (clock : Nat → UInt64)
    (s : LatencyHistogram 65535 × UInt64) (p : Nat) :
    ∃ hist, timedPass ofBits clock view s p = .ok (hist, collect ofBits addFlags recs s.2) ∧
      hist.count = s.1.count + 1 := by
  have hcount : view.count ≠ 0 := by
    intro h
    have := hshows.2.1
    rw [h, UInt64.toNat_zero] at this
    exact hne (List.length_eq_zero_iff.mp this.symm)
  obtain ⟨hist, hrecord, hnext⟩ := s.1.record_ok (by decide)
    ((clock (2 * p + 1) - clock (2 * p)) / view.count)
  refine ⟨hist, ?_, hnext⟩
  simp only [timedPass, overRecords_shows ofBits hshows, ok_bind, divide_ok hcount, hrecord]
  rfl

theorem timedPasses_shows (hne : recs ≠ []) (clock : Nat → UInt64) (n : Nat) :
    ∃ hist, (List.range n).foldlM (timedPass ofBits clock view) ({}, 0) =
        .ok (hist, (collect ofBits addFlags recs)^[n] 0) ∧
      hist.count = UInt64.ofNat n := by
  induction n with
  | zero => exact ⟨_, rfl, rfl⟩
  | succ n ih =>
    obtain ⟨hist, hrun, hcount⟩ := ih
    obtain ⟨hist', hpass, hcount'⟩ := timedPass_shows ofBits hshows hne clock
      (hist, (collect ofBits addFlags recs)^[n] 0) n
    refine ⟨hist', ?_, ?_⟩
    · rw [List.range_succ, List.foldlM_append, hrun, ok_bind, List.foldlM_cons, hpass,
        Function.iterate_succ_apply']
      rfl
    · rw [hcount', hcount, UInt64.ofNat_add]
      rfl

end Run

section Safety

variable {F : Type} [PriceArith F] (ofBits : DoubleBits → F) (clock : Nat → UInt64) (path : String)
  {bytes : List UInt8} {passes : UInt64}

theorem mapFile_eq_some {file : Option (List UInt8)} :
    mapFile file = some bytes ↔ file = some bytes ∧ bytes ≠ [] := by
  simp [mapFile, Option.filter_eq_some_iff]

/-- The view of an accepted file has all the records that its header counts. -/
theorem exists_shows (herr : (viewReplay (some bytes)).error = none) :
    ∃ recs, (viewReplay (some bytes)).Shows recs := by
  obtain ⟨hgood, hfits⟩ := viewReplay_error_iff.mp herr
  have hview := viewReplay_accepts hgood hfits
  have hrecord : ∀ i < (FileHeader.read bytes).recordCount.toNat,
      ∃ rec, (viewReplay (some bytes)).record i = some rec := by
    intro i hi
    have hin : i * kStride + kStride ≤ (bytes.drop kHeaderSize).length := by
      rw [List.length_drop, ← Nat.succ_mul]
      exact (Nat.mul_le_mul_right _ hi).trans hfits
    rw [hview, ReplayView.record, dif_pos hin]
    exact ⟨_, rfl⟩
  obtain ⟨recs, hlen, hrecs⟩ := exists_list_of_forall hrecord
  refine ⟨recs, herr, ?_, fun i hi => hrecs i (hlen ▸ hi)⟩
  rw [hview, hlen]

theorem length_of_shows {recs : List WireRecord} (h : (viewReplay (some bytes)).Shows recs) :
    recs.length = (FileHeader.read bytes).recordCount.toNat := by
  obtain ⟨hgood, hfits⟩ := viewReplay_error_iff.mp h.1
  rw [← h.2.1, viewReplay_accepts hgood hfits]

theorem ne_nil_of_goodHeader (h : GoodHeader bytes) : bytes ≠ [] := by
  rintro rfl
  exact absurd h.1 (by decide)

theorem replayBench_accepts (hne : bytes ≠ []) (herr : (viewReplay (some bytes)).error = none) :
    replayBench ofBits clock path (some bytes) passes = (do
      let breakdown ← warmPass ofBits (viewReplay (some bytes))
      let s ← (List.range passes.toNat).foldlM
        (timedPass ofBits clock (viewReplay (some bytes))) ({}, 0)
      pure (.report (viewReplay (some bytes)).count passes breakdown s.1 s.2)) := by
  rw [replayBench, mapFile_eq_some.mpr ⟨rfl, hne⟩]
  simp only [herr]

/-- The bench on a file with records, or on any good file without timed passes. -/
theorem replayBench_report (hne : bytes ≠ []) {recs : List WireRecord}
    (hshows : (viewReplay (some bytes)).Shows recs) (hsome : passes = 0 ∨ recs ≠ []) :
    ∃ hist, replayBench ofBits clock path (some bytes) passes =
        .ok (.report (viewReplay (some bytes)).count passes (collect ofBits Breakdown.add recs {})
          hist ((collect ofBits addFlags recs)^[passes.toNat] 0)) ∧
      hist.count = passes := by
  have htimed : ∃ hist, (List.range passes.toNat).foldlM
      (timedPass ofBits clock (viewReplay (some bytes))) ({}, 0) =
        .ok (hist, (collect ofBits addFlags recs)^[passes.toNat] 0) ∧ hist.count = passes := by
    obtain rfl | hrecs := hsome
    · exact ⟨_, rfl, rfl⟩
    · simpa using timedPasses_shows ofBits hshows hrecs clock passes.toNat
  obtain ⟨hist, hrun, hcount⟩ := htimed
  refine ⟨hist, ?_, hcount⟩
  rw [replayBench_accepts ofBits clock path hne hshows.1, warmPass,
    overRecords_shows ofBits hshows, ok_bind, hrun]
  rfl

/-- A file without records fails in the first timed pass. -/
theorem replayBench_empty (hne : bytes ≠ []) (hshows : (viewReplay (some bytes)).Shows [])
    (hpasses : passes ≠ 0) :
    replayBench ofBits clock path (some bytes) passes = .error .divisionByZero := by
  have hcount : (viewReplay (some bytes)).count = 0 := UInt64.toNat_inj.mp hshows.2.1
  have hpos : passes.toNat ≠ 0 := fun h => hpasses (UInt64.toNat_inj.mp h)
  obtain ⟨n, hn⟩ := Nat.exists_eq_succ_of_ne_zero hpos
  rw [replayBench_accepts ofBits clock path hne hshows.1, warmPass,
    overRecords_shows ofBits hshows, ok_bind, hn, List.range_succ_eq_map, List.foldlM_cons]
  simp only [timedPass, overRecords_shows ofBits hshows, ok_bind, hcount]
  rfl

/-- The bench rejects a file or reads all its records inside the mapping in every
pass, and divides by zero only in a timed pass over a file that counts none. -/
theorem replay_safe_iff (file : Option (List UInt8)) (passes : UInt64) :
    ((∃ message, replayBench ofBits clock path file passes = .ok (.rejected message)) ∨
      ∃ bytes recs hist, file = some bytes ∧ (viewReplay (some bytes)).Shows recs ∧
        hist.count = passes ∧ replayBench ofBits clock path file passes =
          .ok (.report (viewReplay (some bytes)).count passes
            (collect ofBits Breakdown.add recs {}) hist
            ((collect ofBits addFlags recs)^[passes.toNat] 0))) ↔
    (passes = 0 ∨ ∀ bytes, file = some bytes → GoodHeader bytes →
      (FileHeader.read bytes).recordCount ≠ 0) := by
  constructor
  · intro hsafe
    by_contra! hbad
    obtain ⟨hpasses, bytes, rfl, hgood, hzero⟩ := hbad
    have herr : (viewReplay (some bytes)).error = none :=
      viewReplay_error_iff.mpr ⟨hgood, by simp [hzero]⟩
    obtain ⟨recs, hshows⟩ := exists_shows herr
    have hnil : recs = [] := by
      rw [← List.length_eq_zero_iff, length_of_shows hshows, hzero]
      rfl
    subst hnil
    have hfault := replayBench_empty ofBits clock path (ne_nil_of_goodHeader hgood) hshows hpasses
    simp [hfault] at hsafe
  · intro hcond
    cases hmap : mapFile file with
    | none => exact Or.inl ⟨_, by rw [replayBench, hmap]; rfl⟩
    | some bytes =>
      obtain ⟨rfl, hne⟩ := mapFile_eq_some.mp hmap
      cases herr : (viewReplay (some bytes)).error with
      | some error => exact Or.inl ⟨_, by simp only [replayBench, hmap, herr]; rfl⟩
      | none =>
        obtain ⟨recs, hshows⟩ := exists_shows herr
        have hsome : passes = 0 ∨ recs ≠ [] := by
          refine hcond.imp_right fun hcount hnil => ?_
          apply hcount bytes rfl (viewReplay_error_iff.mp herr).1
          rw [← UInt64.toNat_inj, ← length_of_shows hshows, hnil]
          rfl
        obtain ⟨hist, hrun, hpasses⟩ := replayBench_report ofBits clock path hne hshows hsome
        exact Or.inr ⟨bytes, recs, hist, rfl, hshows, hpasses, hrun⟩

/-- The file that a capture without records leaves, or one that was killed. -/
theorem headerOnly_divides_by_zero :
    replayBench (fun x => (x.toNat : ℚ)) UInt64.ofNat "data/replay.bin"
      (some (FileHeader.bytes ⟨kMagic, kVersion, 0⟩)) 1 = .error .divisionByZero :=
  replayBench_empty _ _ _ (by decide) (by decide +kernel) (by decide)

end Safety

end Replay

end OhlcvValidator
