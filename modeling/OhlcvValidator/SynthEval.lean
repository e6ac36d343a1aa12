import OhlcvValidator.AucMetric
import OhlcvValidator.LadderEval
import OhlcvValidator.OneSymbolSplit
import OhlcvValidator.SynthSilence
import OhlcvValidator.TradingFeatures

namespace OhlcvValidator

namespace Ml

open IndexArrays (gather assign)
open Replay (DoubleBits BarBody)
open Replay.Py (ReplayData Row WriteError dtBar typeBar)

/-- A detector at its operating point. -/
structure Scored where
  precision : ℚ
  «recall» : ℚ
  f1 : ℚ
  tp : Nat
  fp : Nat
  fn : Nat
  tn : Nat
  flagRate : ℚ
  deriving DecidableEq, Repr

/-- How many rows have this flag and this label. -/
def cell (flagged label : List Bool) (flag truth : Bool) : Nat :=
  (flagged.zip label).count (flag, truth)

def precisionRecallF1 (flagged label : List Bool) : Scored :=
  let tp := cell flagged label true true
  let fp := cell flagged label true false
  let fn := cell flagged label false true
  let tn := cell flagged label false false
  let precision : ℚ := if tp + fp ≠ 0 then tp / (tp + fp : Nat) else 0
  let «recall» : ℚ := if tp + fn ≠ 0 then tp / (tp + fn : Nat) else 0
  let f1 := if precision + «recall» ≠ 0 then 2 * precision * «recall» / (precision + «recall»)
    else 0
  let flagRate : ℚ := if flagged.length ≠ 0 then flagged.count true / flagged.length else 0
  ⟨precision, «recall», f1, tp, fp, fn, tn, flagRate⟩

/-- What the evaluation on synthetic bars can raise. -/
inductive EvalError
  | write (e : WriteError)
  | decode (e : DecodeError)
  | leakage (e : LeakageError (List Nat))
  deriving DecidableEq, Repr

variable {F : Type}

/-- The columns of a feature row. -/
def FeatureRow.columns (row : FeatureRow F) : Fin 7 → F :=
  ![row.logReturn, row.hlRange, row.vwapDev, row.logVolume, row.tradeCount, row.realizedVol,
    row.volumeZ]

/-- A frame by columns; tickers and times are compared as texts and numbers. -/
def frameOf (rows : List (FrameRow F)) : FeatureFrame (List Nat) Nat F 7 where
  symbol := rows.map fun row => row.symbol.toList.map UInt8.toNat
  startNs := rows.map fun row => row.startNs.toNat
  features := rows.map fun row => row.features.columns
  length_startNs := by simp
  length_features := by simp

/-- What the evaluation prints of the two rungs. -/
structure SyntheticEval where
  split : Split
  testLabel : List Bool
  base : Scored
  ae : Scored
  baseAuc : Option ℚ
  aeAuc : Option ℚ

variable [PriceArith F]

/-- The feature frame of generated bars. -/
def frameFromBars (numpy : NumpyFns F) (toBits : F → DoubleBits) (ofBits : DoubleBits → F)
    (sb : SynthBars F) : Except EvalError (FeatureFrame (List Nat) Nat F 7) := do
  let recs ← (sb.records toBits "SYNTH").mapError .write
  let data : ReplayData := ⟨[], recs.items.map dtBar, [], recs.items.length⟩
  let rows ← (extractFeatures numpy ofBits data defaultWindow).mapError .decode
  return frameOf rows

/-- Both rungs on the test rows, against the labels of all rows. -/
def LadderEval.against [LinearOrder F] (np : NumpySort F) (ev : LadderEval F) (label : List Bool) :
    SyntheticEval :=
  let testLabel := gather label ev.split.test
  { split := ev.split
    testLabel
    base := precisionRecallF1 ev.testFlags.1 testLabel
    ae := precisionRecallF1 ev.testFlags.2 testLabel
    baseAuc := auc np (gather ev.baseScores ev.split.test) testLabel
    aeAuc := auc np (gather ev.aeScores ev.split.test) testLabel }

def evaluateSynthetic [LinearOrder F] (numpy : NumpyFns F) (fns : EvalFns F) (np : NumpySort F)
    (autoencoder : List (Fin 7 → F) → List (Fin 7 → F) → List F) (toBits : F → DoubleBits)
    (ofBits : DoubleBits → F) (sb : SynthBars F) (targetRate : F) :
    Except EvalError SyntheticEval := do
  let frame ← frameFromBars numpy toBits ofBits sb
  let ev ← (ladderEval fns autoencoder frame targetRate).mapError .leakage
  return ev.against np sb.isAnomaly

section Scores

variable {flagged label : List Bool}

/-- Flagged or not, every row is counted under its label. -/
theorem cell_add_cell (h : flagged.length = label.length) (truth : Bool) :
    cell flagged label true truth + cell flagged label false truth = label.count truth := by
  induction flagged generalizing label with
  | nil =>
    obtain rfl := List.length_eq_zero_iff.mp h.symm
    rfl
  | cons f flagged ih =>
    cases label with
    | nil => simp at h
    | cons l label =>
      have hrest := ih (by simpa using h)
      simp only [cell, List.zip_cons_cons, List.count_cons] at hrest ⊢
      rw [← hrest]
      cases f <;> cases l <;> cases truth <;> simp <;> omega

/-- The score is the ratio of the counts, also where a division is skipped. -/
theorem f1_precisionRecallF1 (flagged label : List Bool) :
    (precisionRecallF1 flagged label).f1 =
      2 * (precisionRecallF1 flagged label).tp /
        (2 * (precisionRecallF1 flagged label).tp + (precisionRecallF1 flagged label).fp +
          (precisionRecallF1 flagged label).fn) := by
  simp only [precisionRecallF1]
  generalize cell flagged label true true = tp
  generalize cell flagged label true false = fp
  generalize cell flagged label false true = fn
  rcases Nat.eq_zero_or_pos tp with rfl | hpos
  · simp
  · have htp : (0 : ℚ) < tp := by exact_mod_cast hpos
    have hfp : (0 : ℚ) ≤ fp := Nat.cast_nonneg fp
    have hfn : (0 : ℚ) ≤ fn := Nat.cast_nonneg fn
    have hsum : (tp : ℚ) / (tp + fp) + tp / (tp + fn) ≠ 0 := by positivity
    have hflagged : tp + fp ≠ 0 := by omega
    have hlabelled : tp + fn ≠ 0 := by omega
    rw [if_pos hflagged, if_pos hlabelled]
    push_cast
    rw [if_pos hsum]
    field_simp
    ring

theorem counts_precisionRecallF1 (h : flagged.length = label.length) :
    (precisionRecallF1 flagged label).tp + (precisionRecallF1 flagged label).fn =
        label.count true ∧
      (precisionRecallF1 flagged label).fp + (precisionRecallF1 flagged label).tn =
        label.count false :=
  ⟨cell_add_cell h true, cell_add_cell h false⟩

end Scores

section Labels

variable {fn : SynthFns F} {n count : Nat} {cleanFrac : F}
  (chosen : Sample (region fn n cleanFrac) (min count (region fn n cleanFrac).length))

include chosen in
/-- A tail that holds the region has all the anomalies. -/
theorem count_tail {b : Nat} (hb : b ≤ cleanCut fn n cleanFrac) (hbn : b ≤ n) :
    (gather ((List.range n).map fun i => decide (i ∈ chosen.rows)) (List.range' b (n - b))).count
      true = min count (n - cleanCut fn n cleanFrac) := by
  have hinside : ∀ i ∈ List.range' b (n - b), i < n := by
    intro i hi
    have := List.mem_range'_1.mp hi
    omega
  have hgather : gather ((List.range n).map fun i => decide (i ∈ chosen.rows))
      (List.range' b (n - b)) =
      (List.range' b (n - b)).map fun i => decide (i ∈ chosen.rows) := by
    rw [gather, ← List.filterMap_eq_map']
    refine List.filterMap_congr fun i hi => ?_
    simp [hinside i hi]
  have hperm : ((List.range' b (n - b)).filter fun i => i ∈ chosen.rows).Perm chosen.rows := by
    refine (List.perm_ext_iff_of_nodup (List.Nodup.filter _ List.nodup_range') chosen.nodup).mpr fun i => ?_
    simp only [List.mem_filter, decide_eq_true_eq, and_iff_right_iff_imp]
    intro hi
    have hregion := List.mem_range'_1.mp (chosen.mem i hi)
    exact List.mem_range'_1.mpr (by omega)
  rw [hgather, List.count_eq_countP, List.countP_map, List.countP_eq_length_filter]
  have hregion : (region fn n cleanFrac).length = n - cleanCut fn n cleanFrac := List.length_range'
  have hlen := hperm.length_eq.trans (chosen.length_rows.trans (congrArg (min count) hregion))
  rw [← hlen]
  congr 2
  funext i
  simp

end Labels

section Evaluation

variable {numpy : NumpyFns F} {toBits : F → DoubleBits} {ofBits : DoubleBits → F} {n : Nat}
  {rows : List (PriceRow F)} {sb : SynthBars F}

theorem symbol_frameOf_featureRows {sym : Symbol} {window : Int} (bars : List (Row BarBody)) :
    (frameOf (featureRows numpy ofBits sym window bars)).symbol =
      List.replicate bars.length (sym.toList.map UInt8.toNat) := by
  refine List.eq_replicate_iff.mpr ⟨by simp [frameOf, featureRows], ?_⟩
  intro key hkey
  obtain ⟨row, hrow, rfl⟩ := List.mem_map.mp hkey
  rw [symbol_of_mem_featureRows numpy ofBits hrow]

theorem startNs_frameOf_featureRows {sym : Symbol} {window : Int} (bars : List (Row BarBody)) :
    (frameOf (featureRows numpy ofBits sym window bars)).startNs =
      bars.map fun b => b.body.startNs.toNat := by
  have hstart := congrArg (List.map UInt64.toNat)
    (map_startNs_featureRows numpy ofBits sym window bars)
  simpa [frameOf, List.map_map, Function.comp_def] using hstart

omit [PriceArith F] in
/-- The rows that the reader's type gives the first `n` records of the bars. -/
def SynthBars.rowsRead (sb : SynthBars F) (toBits : F → DoubleBits) (ticker : List UInt8)
    (n : Nat) : List (Row BarBody) :=
  (List.range n).map fun i => ⟨typeBar, sb.bodyAt toBits ticker i⟩

variable {ticker : List UInt8}

omit [PriceArith F] in
theorem SynthBars.symbol_rowsRead {b : Row BarBody} (h : b ∈ sb.rowsRead toBits ticker n) :
    b.body.symbol = Replay.Py.s8 ticker := by
  obtain ⟨i, -, rfl⟩ := List.mem_map.mp h
  rfl

omit [PriceArith F] in
theorem SynthBars.Shaped.map_startNs_rowsRead (h : sb.Shaped n rows)
    (hfits : baseNs.toNat + n * barNs.toNat ≤ 2 ^ 64) :
    (sb.rowsRead toBits ticker n).map (fun b => b.body.startNs.toNat) =
      (List.range n).map fun i => baseNs.toNat + i * barNs.toNat := by
  rw [SynthBars.rowsRead, List.map_map]
  exact List.map_congr_left fun i hi => h.toNat_startNs hfits (List.mem_range.mp hi)

theorem pairwise_lt_minutes (n : Nat) :
    ((List.range n).map fun i => baseNs.toNat + i * barNs.toNat).Pairwise (· < ·) := by
  have hbar : barNs.toNat = 60000000000 := rfl
  refine List.pairwise_map.mpr (List.pairwise_lt_range.imp ?_)
  intro i j hij
  rw [hbar]
  omega

omit [PriceArith F] in
theorem SynthBars.Shaped.pairwise_rowsRead (h : sb.Shaped n rows)
    (hfits : baseNs.toNat + n * barNs.toNat ≤ 2 ^ 64) :
    (sb.rowsRead toBits ticker n).Pairwise StartsBy := by
  have hminutes := pairwise_lt_minutes n
  have hstart : (sb.rowsRead toBits ticker n).map (fun b => b.body.startNs.toNat) = _ :=
    h.map_startNs_rowsRead hfits
  rw [← hstart, List.pairwise_map] at hminutes
  exact hminutes.imp fun hlt => UInt64.le_iff_toNat_le.mpr hlt.le

/-- The frame of generated bars is one symbol's, a row for each minute. -/
theorem SynthBars.Shaped.frameFromBars (h : sb.Shaped n rows)
    (hfits : baseNs.toNat + n * barNs.toNat ≤ 2 ^ 64) :
    ∃ frame key, Ml.frameFromBars numpy toBits ofBits sb = .ok frame ∧
      frame.symbol = List.replicate n key ∧
      frame.startNs = (List.range n).map fun i => baseNs.toNat + i * barNs.toNat := by
  have hdata : (((List.range n).map (sb.bodyAt toBits [83, 89, 78, 84, 72])).map
      Replay.Py.dtBarRow).map dtBar = sb.rowsRead toBits [83, 89, 78, 84, 72] n := by
    simp only [SynthBars.rowsRead, List.map_map, Function.comp_def, Replay.Py.dtBar_dtBarRow]
  have hascii : Ascii (Replay.Py.s8 [83, 89, 78, 84, 72]) := by
    unfold Ascii
    decide +kernel
  refine ⟨frameOf (featureRows numpy ofBits (Replay.Py.s8 [83, 89, 78, 84, 72]) defaultWindow
      (sb.rowsRead toBits [83, 89, 78, 84, 72] n)),
    (Replay.Py.s8 [83, 89, 78, 84, 72]).toList.map UInt8.toNat, ?_,
    (symbol_frameOf_featureRows _).trans (by simp [SynthBars.rowsRead]),
    (startNs_frameOf_featureRows _).trans (h.map_startNs_rowsRead hfits)⟩
  rw [Ml.frameFromBars, h.records _ encodeAscii_synth]
  simp only [Except.mapError, bind, Except.bind, hdata]
  rw [extractFeatures_oneSymbol numpy hascii (fun b hb => SynthBars.symbol_rowsRead hb)
    (h.pairwise_rowsRead hfits)]
  rfl

variable [LinearOrder F] {fns : EvalFns F} {np : NumpySort F}
  {autoencoder : List (Fin 7 → F) → List (Fin 7 → F) → List F} {fn : SynthFns F}
  {p : SynthParams F} {d : SynthDraws F} {count : Nat} {cleanFrac : F}

omit [LinearOrder F] in
/-- What the ladder returns where the guard accepts the split. -/
theorem ladderEval_of_distinct (fns : EvalFns F)
    (autoencoder : List (Fin 7 → F) → List (Fin 7 → F) → List F) {frame : FeatureFrame (List Nat) Nat F 7}
    (hdistinct : (frame.symbol.zip frame.startNs).Nodup) (targetRate : F) :
    ∃ ev, ladderEval fns autoencoder frame targetRate = .ok ev ∧ ev.split = frame.split ∧
      ev.baseScores = baseScores fns frame ∧
      ev.aeScores = autoencoder (gather frame.features frame.split.fit) frame.features := by
  rw [ladderEval, frame.assertNoLeakage_split hdistinct]
  exact ⟨_, rfl, rfl, rfl, rfl⟩

omit [LinearOrder F] in
/-- The ladder on a frame with a row for each minute: a clean part, then the test rows. -/
theorem ladderEval_minutes (fns : EvalFns F) {frame : FeatureFrame (List Nat) Nat F 7}
    {key : List Nat} (hn : 0 < n)
    (hsymbol : frame.symbol = List.replicate n key)
    (hstart : frame.startNs = (List.range n).map fun i => baseNs.toNat + i * barNs.toNat)
    (hae : ∀ fit feat, (autoencoder fit feat).length = feat.length) (targetRate : F) :
    ∃ (b : Nat) (ev : LadderEval F), ladderEval fns autoencoder frame targetRate = .ok ev ∧
      (b : Int) = ⌊(n : ℚ) * (4 / 10)⌋ + ⌊(n : ℚ) * (2 / 10)⌋ ∧ b ≤ n ∧
      ev.split.fit ++ ev.split.calibrate = List.range b ∧
      ev.split.test = List.range' b (n - b) ∧
      ev.testFlags.1.length = n - b ∧ ev.testFlags.2.length = n - b := by
  have hlen : frame.startNs.length = n := by simp [hstart]
  have hsorted := pairwise_lt_minutes n
  rw [← hstart] at hsorted
  have hne : frame.startNs ≠ [] := List.ne_nil_of_length_pos (hlen ▸ hn)
  obtain ⟨a, b, -, hb, hab, hbn, hsplit⟩ := timeSplit_single hne (hsorted.imp le_of_lt) key
    (show (0 : ℚ) ≤ 4 / 10 by norm_num) (show (0 : ℚ) ≤ 2 / 10 by norm_num) (by norm_num)
  rw [hlen] at hb hbn hsplit
  rw [← hsymbol] at hsplit
  have htest : frame.split.test = List.range' b (n - b) := congrArg Split.test hsplit
  have hdistinct : (frame.symbol.zip frame.startNs).Nodup := by
    refine List.Nodup.of_map Prod.snd ?_
    rw [List.map_snd_zip frame.length_startNs.le]
    exact hsorted.imp ne_of_lt
  have hinside : ∀ i ∈ frame.split.test, i < frame.features.length := by
    intro i hi
    rw [htest] at hi
    have := List.mem_range'_1.mp hi
    rw [frame.length_features, hsymbol, List.length_replicate]
    omega
  have happend := List.range'_append_1 (s := 0) (m := a) (n := b - a)
  rw [Nat.zero_add, Nat.add_sub_cancel' hab] at happend
  have hfit : frame.split.fit ++ frame.split.calibrate = List.range b := by
    rw [FeatureFrame.split, hsplit, List.range_eq_range', List.range_eq_range', happend]
  obtain ⟨ev, hev, hevSplit, hbase, hauto⟩ :=
    ladderEval_of_distinct fns autoencoder hdistinct targetRate
  refine ⟨b, ev, hev, hb, hbn, by rw [hevSplit, hfit], by rw [hevSplit, htest], ?_, ?_⟩
  · rw [LadderEval.testFlags, List.length_map, hevSplit, hbase,
      IndexArrays.length_gather fun i hi => lt_length_baseScores fns frame hi, htest,
      List.length_range']
  · rw [LadderEval.testFlags, List.length_map, hevSplit, hauto,
      IndexArrays.length_gather fun i hi => (hae _ _).symm ▸ hinside i hi, htest,
      List.length_range']

/-- The evaluation on a generated tail, if the clean bars are at least the rows to fit and to
calibrate: it never leaks and never fits on an anomaly, its test rows have every anomaly, and both
rungs are scored against all of them. -/
theorem synthetic_eval_clean
    (chosen : Sample (region fn n cleanFrac) (min count (region fn n cleanFrac).length))
    (hn : 0 < n) (hfits : baseNs.toNat + n * barNs.toNat ≤ 2 ^ 64)
    (hclean : ⌊(n : ℚ) * (4 / 10)⌋ + ⌊(n : ℚ) * (2 / 10)⌋ ≤ cleanCut fn n cleanFrac)
    (hae : ∀ fit feat, (autoencoder fit feat).length = feat.length)
    (hsb : sb = generateEval fn n count cleanFrac p chosen d) (targetRate : F) :
    ∃ e, evaluateSynthetic numpy fns np autoencoder toBits ofBits sb targetRate = .ok e ∧
      e.split.fit ++ e.split.calibrate ++ e.split.test = List.range n ∧
      (∀ i ∈ e.split.fit ++ e.split.calibrate, sb.isAnomaly[i]? = some false) ∧
      ∀ s ∈ [e.base, e.ae], s.tp + s.fn = min count (n - cleanCut fn n cleanFrac) ∧
        s.tp + s.fn + (s.fp + s.tn) = e.split.test.length ∧
        s.f1 = 2 * s.tp / (2 * s.tp + s.fp + s.fn) := by
  have hlabel : sb.isAnomaly = (List.range n).map fun i => decide (i ∈ chosen.rows) := by
    rw [hsb]
    exact IndexArrays.assign_replicate_false
  have hgenerated : Generated fn p d n sb := hsb ▸ Generated.tail count cleanFrac chosen
  obtain ⟨_, _, hshaped⟩ := hgenerated.shaped
  obtain ⟨frame, key, hframe, hsymbol, hstart⟩ : ∃ frame key,
      Ml.frameFromBars numpy toBits ofBits sb = .ok frame ∧ _ := hshaped.frameFromBars hfits
  obtain ⟨b, ev, hev, hb, hbn, hfit, htest, hbase, hauto⟩ :=
    ladderEval_minutes fns hn hsymbol hstart hae targetRate
  have hcut : b ≤ cleanCut fn n cleanFrac := by omega
  have hlen : (gather sb.isAnomaly ev.split.test).length = n - b := by
    rw [htest, IndexArrays.length_gather, List.length_range']
    intro i hi
    have := List.mem_range'_1.mp hi
    rw [hlabel, List.length_map, List.length_range]
    omega
  have hcount : (gather sb.isAnomaly ev.split.test).count true =
      min count (n - cleanCut fn n cleanFrac) := by
    rw [htest, hlabel]
    exact count_tail chosen hcut hbn
  have hscored : ∀ flags : List Bool, flags.length = n - b →
      ∀ s, s = precisionRecallF1 flags (gather sb.isAnomaly ev.split.test) →
        s.tp + s.fn = min count (n - cleanCut fn n cleanFrac) ∧
        s.tp + s.fn + (s.fp + s.tn) = ev.split.test.length ∧
        s.f1 = 2 * s.tp / (2 * s.tp + s.fp + s.fn) := by
    rintro flags hflags _ rfl
    obtain ⟨hanomalies, hnormal⟩ := counts_precisionRecallF1 (hflags.trans hlen.symm)
    refine ⟨hanomalies.trans hcount, ?_, f1_precisionRecallF1 _ _⟩
    rw [hanomalies, hnormal, List.count_true_add_count_false, hlen, htest, List.length_range']
  refine ⟨ev.against np sb.isAnomaly, ?_, ?_, ?_, ?_⟩
  · rw [evaluateSynthetic, hframe]
    simp only [bind, Except.bind, hev, Except.mapError]
    rfl
  · change ev.split.fit ++ ev.split.calibrate ++ ev.split.test = _
    have happend := List.range'_append_1 (s := 0) (m := b) (n := n - b)
    rw [Nat.zero_add, Nat.add_sub_cancel' hbn] at happend
    rw [hfit, htest, List.range_eq_range', List.range_eq_range', happend]
  · intro i hi
    change i ∈ ev.split.fit ++ ev.split.calibrate at hi
    rw [hfit, List.mem_range] at hi
    have hout : i ∉ chosen.rows := by
      intro hmem
      have := List.mem_range'_1.mp (chosen.mem i hmem)
      omega
    have hin : i < n := by omega
    rw [hlabel]
    simp [hout, hin]
  · simp only [List.forall_mem_cons]
    exact ⟨hscored _ hbase _ rfl, hscored _ hauto _ rfl, by simp⟩

/-- The last of five bars is the anomaly. -/
def lastOfFive : Sample (region calmFns 5 (6 / 10)) (min 1 (region calmFns 5 (6 / 10)).length) where
  rows := [4]
  length_rows := by decide +kernel
  nodup := by decide
  mem := by decide +kernel

def fiveBarTail : SynthBars ℚ :=
  generateEval calmFns 5 1 (6 / 10) calmParams lastOfFive fallingDraws

theorem synthetic_eval_clean_fiveBars :
    ∃ e, evaluateSynthetic rationalFns rationalEvalFns stableSort (fun _ feat => feat.map fun _ => 0)
        (fun x => UInt64.ofNat (x * 2 ^ 20).floor.toNat) (fun w => (w.toNat : ℚ) / 2 ^ 20)
        fiveBarTail (1 / 100) = .ok e ∧ e.base.tp + e.base.fn = 1 := by
  have hsb : fiveBarTail =
      generateEval calmFns 5 1 (6 / 10) calmParams lastOfFive fallingDraws := rfl
  obtain ⟨e, hok, -, -, hscored⟩ := synthetic_eval_clean lastOfFive (by decide) (by decide)
    (by decide +kernel) (fun _ feat => List.length_map _) hsb (1 / 100)
  have hcut : cleanCut calmFns 5 (6 / 10) = 3 := by decide +kernel
  have hbase := (hscored e.base (by simp)).1
  rw [hcut] at hbase
  exact ⟨e, hok, hbase⟩

end Evaluation

end Ml

end OhlcvValidator
