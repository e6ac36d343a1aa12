import OhlcvValidator.BenchPasses
import OhlcvValidator.FlagKinds

namespace OhlcvValidator

namespace Replay

open Validator (Result)
open Ingest (Kind Built kindOfRecord built_check)

/-- Some of the flags that make a bar a bad one. -/
def hasBadBar (r : Result) : Bool :=
  r.has .barLowAboveHigh || r.has .barOpenOutOfRange || r.has .barCloseOutOfRange ||
    r.has .barVwapOutOfRange || r.has .barNonPositivePrice || r.has .barVolumeInconsistent

def hasBadTrade (r : Result) : Bool :=
  r.has .tradeNonPositivePrice || r.has .tradeNonPositiveSize

/-- How many of the results have the flags of each row. -/
def Breakdown.ofResults (rs : List Result) : Breakdown where
  badTrades := UInt64.ofNat (rs.countP hasBadTrade)
  badBars := UInt64.ofNat (rs.countP hasBadBar)
  seqGaps := UInt64.ofNat (rs.countP (·.has .sequenceGap))
  tsRegress := UInt64.ofNat (rs.countP (·.has .timestampRegression))
  reconVol := UInt64.ofNat (rs.countP (·.has .barVolumeReconstructMismatch))
  reconCnt := UInt64.ofNat (rs.countP (·.has .barTradeCountReconstructMismatch))
  reconVwap := UInt64.ofNat (rs.countP (·.has .barVwapReconstructMismatch))
  reconOhlc := UInt64.ofNat (rs.countP (·.has .barOhlcReconstructMismatch))
  qCrossed := UInt64.ofNat (rs.countP (·.has .quoteCrossed))
  qLocked := UInt64.ofNat (rs.countP (·.has .quoteLocked))
  qNonpos := UInt64.ofNat (rs.countP (·.has .quoteNonPositive))
  qZerosize := UInt64.ofNat (rs.countP (·.has .quoteZeroSize))
  bandBreach := UInt64.ofNat (rs.countP (·.has .priceBandBreach))

/-- The rows in the order in which they are printed. -/
def Breakdown.rows (b : Breakdown) : List UInt64 :=
  [b.badTrades, b.badBars, b.seqGaps, b.tsRegress, b.reconVol, b.reconCnt, b.reconVwap,
    b.reconOhlc, b.qCrossed, b.qLocked, b.qNonpos, b.qZerosize, b.bandBreach]

/-- What the ladder's script makes of the printed rows. -/
def cppViolations (b : Breakdown) : Nat :=
  (b.rows.map UInt64.toNat).sum

/-- What the rows look for. -/
def rowTests : List (Result → Bool) :=
  [hasBadTrade, hasBadBar, (·.has .sequenceGap), (·.has .timestampRegression),
    (·.has .barVolumeReconstructMismatch), (·.has .barTradeCountReconstructMismatch),
    (·.has .barVwapReconstructMismatch), (·.has .barOhlcReconstructMismatch),
    (·.has .quoteCrossed), (·.has .quoteLocked), (·.has .quoteNonPositive), (·.has .quoteZeroSize),
    (·.has .priceBandBreach)]

theorem Breakdown.rows_ofResults (rs : List Result) :
    (ofResults rs).rows = rowTests.map fun p => UInt64.ofNat (rs.countP p) :=
  rfl

theorem Breakdown.eq_empty_iff (b : Breakdown) : b = {} ↔ ∀ n ∈ b.rows, n = 0 := by
  cases b
  simp [rows]

theorem cppViolations_eq_zero_iff (b : Breakdown) : cppViolations b = 0 ↔ b = {} := by
  rw [cppViolations, List.sum_eq_zero_iff, List.forall_mem_map, b.eq_empty_iff]
  exact forall₂_congr fun n _ => UInt64.toNat_inj (b := 0)

/-- There is a row for every flag. -/
theorem rowTests_clear_iff (r : Result) :
    (∀ p ∈ rowTests, p r = false) ↔ ∀ v, r.has v = false := by
  constructor
  · intro h v
    simp only [rowTests, List.forall_mem_cons, hasBadTrade, hasBadBar, Bool.or_eq_false_iff] at h
    cases v <;> simp only [h]
  · intro h
    simp [rowTests, hasBadTrade, hasBadBar, h]

theorem and_or_eq_zero_iff (a b c : UInt32) : a &&& (b ||| c) = 0 ↔ a &&& b = 0 ∧ a &&& c = 0 := by
  simp only [← UInt32.toNat_inj, UInt32.toNat_and, UInt32.toNat_or, Nat.and_or_distrib_left,
    UInt32.toNat_zero, Nat.or_eq_zero_iff]

theorem decide_badBar (r : Result) : decide (r.flags &&& badBar ≠ 0) = hasBadBar r := by
  simp only [badBar, hasBadBar, Result.has, ne_eq, and_or_eq_zero_iff, ← Bool.decide_or, not_and_or]

section Rows

variable {F : Type} (ofBits : DoubleBits → F)

theorem kindOfRecord_dispatch (rec : WireRecord) :
    kindOfRecord (rec.dispatch ofBits) =
      if rec.type = RecordType.Trade.toByte then .trade
      else if rec.type = RecordType.Bar.toByte then .bar else .quote := by
  unfold WireRecord.dispatch
  split
  next => rfl
  next =>
    split
    next => rfl
    next => rfl

/-- A record is counted in the rows of its flags, since a check sets none of another kind. -/
theorem Breakdown.add_ofResults {rec : WireRecord} {r : Result} (rs : List Result)
    (h : Built (kindOfRecord (rec.dispatch ofBits)) r) :
    (ofResults rs).add rec r = ofResults (rs ++ [r]) := by
  have hnone : ∀ v, v ∉ (kindOfRecord (rec.dispatch ofBits)).checks → r.has v = false :=
    fun v hv => Bool.eq_false_iff.mpr fun hr => hv (h.only v hr)
  rw [kindOfRecord_dispatch] at hnone
  unfold Breakdown.add
  simp only [ofResults, ofNat_countP_concat, decide_badBar]
  split
  next htrade =>
    rw [if_pos htrade] at hnone
    simp (disch := decide) [hasBadTrade, hasBadBar, hnone, bumpIf]
  next htrade =>
    rw [if_neg htrade] at hnone
    split
    next hbar =>
      rw [if_pos hbar] at hnone
      simp (disch := decide) [hasBadTrade, hnone, bumpIf]
    next hbar =>
      rw [if_neg hbar] at hnone
      simp (disch := decide) [hasBadTrade, hasBadBar, hnone, bumpIf]

end Rows

section Report

variable {F : Type} [PriceArith F] (ofBits : DoubleBits → F)

theorem built_run (recs : List (OhlcvValidator.WireRecord F)) {r : Result}
    (hr : r ∈ (Validator.run recs).2) : ∃ k, Built k r := by
  induction recs using List.reverseRecOn with
  | nil => simp [Validator.run] at hr
  | append_singleton recs rec ih =>
    rw [Validator.run_concat, List.mem_append, List.mem_singleton] at hr
    obtain hr | rfl := hr
    · exact ih hr
    · exact ⟨_, built_check _ rec⟩

/-- The warm pass counts every flag of every record, and in no other row. -/
theorem collect_breakdown (recs : List WireRecord) :
    collect ofBits Breakdown.add recs {} = Breakdown.ofResults (benchPass ofBits recs).2 := by
  induction recs using List.reverseRecOn with
  | nil => rfl
  | append_singleton recs rec ih =>
    have hstep := foldl_checkRecord ofBits Breakdown.add (recs ++ [rec]) {}
    rw [List.foldl_append, foldl_checkRecord ofBits Breakdown.add recs {}, List.foldl_cons,
      List.foldl_nil, checkRecord] at hstep
    rw [← (Prod.mk.inj hstep).2, ih, Breakdown.add_ofResults ofBits _ (built_check _ _), benchPass,
      benchPass, List.map_append, List.map_singleton, Validator.run_concat]

theorem collect_addFlags_of_ok {recs : List WireRecord}
    (hok : ∀ r ∈ (benchPass ofBits recs).2, r.flags = 0) (checksum : UInt64) :
    collect ofBits addFlags recs checksum = checksum := by
  have hpairs : ∀ p ∈ recs.zip (benchPass ofBits recs).2, p.2.flags = 0 :=
    fun p hp => hok p.2 (List.of_mem_zip hp).2
  unfold collect
  generalize recs.zip (benchPass ofBits recs).2 = pairs at hpairs
  induction pairs with
  | nil => rfl
  | cons p pairs ih =>
    obtain ⟨hp, hpairs⟩ := List.forall_mem_cons.mp hpairs
    rw [List.foldl_cons, addFlags, hp]
    simpa using ih hpairs

end Report

theorem Breakdown.ofResults_eq_empty_iff {rs : List Result} (hlen : rs.length < 2 ^ 64)
    (hbuilt : ∀ r ∈ rs, ∃ k, Built k r) : ofResults rs = {} ↔ ∀ r ∈ rs, r.flags = 0 := by
  rw [eq_empty_iff, rows_ofResults, List.forall_mem_map]
  simp only [ofNat_countP_eq_zero_iff hlen]
  constructor
  · intro h r hr
    obtain ⟨k, hk⟩ := hbuilt r hr
    have hclear := (rowTests_clear_iff r).mp fun p hp => h p hp r hr
    exact hk.flags_eq_zero_iff.mpr fun v _ => hclear v
  · intro h p hp r hr
    refine (rowTests_clear_iff r).mpr (fun v => ?_) p hp
    simp [Result.has, h r hr]

theorem cppViolations_collect_eq_zero_iff {F : Type} [PriceArith F] (ofBits : DoubleBits → F)
    {recs : List WireRecord} (hlen : recs.length < 2 ^ 64) :
    cppViolations (collect ofBits Breakdown.add recs {}) = 0 ↔
      ∀ r ∈ (benchPass ofBits recs).2, r.ok = true := by
  have hlength : (benchPass ofBits recs).2.length < 2 ^ 64 := by
    rwa [benchPass, Validator.length_run, List.length_map]
  rw [cppViolations_eq_zero_iff, collect_breakdown,
    Breakdown.ofResults_eq_empty_iff hlength fun r hr => built_run _ hr]
  simp [Result.ok]

section Silence

variable {F : Type} [PriceArith F] (ofBits : DoubleBits → F) (clock : Nat → UInt64) (path : String)
  {file : Option (List UInt8)} {passes count p : UInt64} {b : Breakdown}
  {hist : LatencyHistogram 65535} {checksum : UInt64}

/-- A report is on all the records of the file. -/
theorem replayBench_eq_report
    (h : replayBench ofBits clock path file passes = .ok (.report count p b hist checksum)) :
    ∃ bytes recs, file = some bytes ∧ (viewReplay (some bytes)).Shows recs ∧
      count = (viewReplay (some bytes)).count ∧ b = collect ofBits Breakdown.add recs {} ∧
      checksum = (collect ofBits addFlags recs)^[passes.toNat] 0 := by
  cases hmap : mapFile file with
  | none => simp [replayBench, hmap, pure, Except.pure] at h
  | some bytes =>
    obtain ⟨rfl, hne⟩ := mapFile_eq_some.mp hmap
    cases herr : (viewReplay (some bytes)).error with
    | some error => simp [replayBench, hmap, herr, pure, Except.pure] at h
    | none =>
      obtain ⟨recs, hshows⟩ := exists_shows herr
      have hsome : passes = 0 ∨ recs ≠ [] := by
        by_contra! hnot
        obtain ⟨hpasses, rfl⟩ := hnot
        rw [replayBench_empty ofBits clock path hne hshows hpasses] at h
        cases h
      obtain ⟨hist', hreport, -⟩ := replayBench_report ofBits clock path hne hshows hsome
      rw [hreport] at h
      cases h
      exact ⟨bytes, recs, rfl, hshows, rfl, rfl, rfl⟩

/-- The report of the bench is complete: its rows count the records with each flag, and they are
all zero, and the checksum too, exactly if no record of the file has any flag. -/
theorem bench_report_complete
    (h : replayBench ofBits clock path file passes = .ok (.report count p b hist checksum)) :
    ∃ bytes recs, file = some bytes ∧ (viewReplay (some bytes)).Shows recs ∧
      count.toNat = recs.length ∧ b = Breakdown.ofResults (benchPass ofBits recs).2 ∧
      (cppViolations b = 0 ↔ ∀ r ∈ (benchPass ofBits recs).2, r.ok = true) ∧
      (cppViolations b = 0 → checksum = 0) := by
  obtain ⟨bytes, recs, hfile, hshows, rfl, rfl, rfl⟩ := replayBench_eq_report ofBits clock path h
  have hlen : recs.length < 2 ^ 64 := by
    rw [← hshows.2.1]
    exact UInt64.toNat_lt _
  have hclear := cppViolations_collect_eq_zero_iff ofBits hlen
  refine ⟨bytes, recs, hfile, hshows, hshows.2.1, collect_breakdown ofBits recs, hclear, ?_⟩
  intro hzero
  have hok : ∀ r ∈ (benchPass ofBits recs).2, r.flags = 0 := by
    simpa [Result.ok] using hclear.mp hzero
  exact Function.iterate_fixed (collect_addFlags_of_ok ofBits hok 0) _

end Silence

theorem fileOf_ne_nil (recs : List WireRecord) : fileOf recs ≠ [] := by
  refine List.ne_nil_of_length_pos ?_
  rw [fileOf, List.length_append, FileHeader.length_bytes]
  exact Nat.add_pos_left (by decide) _

/-- A trade at a price of 7 that moved nothing, a bar whose high is below its low, and a locked
quote. -/
def flaggedFile : List WireRecord :=
  [TradeBody.wrap ⟨Vector.replicate 8 88, 5, 1, 1, 7, 0, 86, 67⟩,
    BarBody.wrap ⟨Vector.replicate 8 89, 5, 1, 7, 6, 7, 7, 7, 3, 1⟩,
    QuoteBody.wrap ⟨Vector.replicate 8 90, 5, 1, 7, 7, 1, 1, 86, 86, 67⟩]

theorem bench_report_complete_flaggedFile :
    ∃ count b hist checksum recs,
      replayBench (fun x => (x.toNat : ℚ)) UInt64.ofNat "data/replay.bin"
        (some (fileOf flaggedFile)) 1 = .ok (.report count 1 b hist checksum) ∧
      count.toNat = 3 ∧ b = Breakdown.ofResults (benchPass (fun x => (x.toNat : ℚ)) recs).2 ∧
      cppViolations b ≠ 0 := by
  have hshows : (viewReplay (some (fileOf flaggedFile))).Shows flaggedFile :=
    viewReplay_fileOf (by decide)
  have hsome : (1 : UInt64) = 0 ∨ flaggedFile ≠ [] := Or.inr (by simp [flaggedFile])
  obtain ⟨hist, hreport, -⟩ := replayBench_report (fun x => (x.toNat : ℚ)) UInt64.ofNat
    "data/replay.bin" (fileOf_ne_nil _) hshows hsome
  obtain ⟨bytes, recs, hbytes, hshows', hcount, hrows, hzero, -⟩ :=
    bench_report_complete _ _ _ hreport
  obtain rfl := Option.some.inj hbytes
  obtain rfl := hshows.unique hshows'
  refine ⟨_, _, _, _, _, hreport, hcount, hrows, fun hsilent => ?_⟩
  have hclear := hzero.mp hsilent
  revert hclear
  decide +kernel

end Replay

end OhlcvValidator
