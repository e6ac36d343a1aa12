import OhlcvValidator.TimeSplit
import OhlcvValidator.WireRecords

namespace OhlcvValidator

namespace Ml

open IndexArrays (gather masked assignMasked sortedDistinct)
open PriceArith (lit fabs lt)

/-- Per-bar features of `d` columns, aligned row for row across the arrays. -/
structure FeatureFrame (Y T F : Type) (d : Nat) where
  symbol : List Y
  startNs : List T
  features : List (Fin d → F)
  length_startNs : startNs.length = symbol.length
  length_features : features.length = symbol.length

/-- What the evaluation takes from NumPy; nothing is assumed of it. -/
structure EvalFns (F : Type) where
  median : Multiset F → F
  quantile : Multiset F → F → F
  rowMax : List F → F
  inf : F

/-- The centre and the scale of one symbol's features. -/
structure RobustStats (F : Type) (d : Nat) where
  med : Fin d → F
  scale : Fin d → F

variable {Y T F : Type} [LinearOrder Y] [LinearOrder T] [PriceArith F] {d : Nat}

/-- `np.median(x, axis=0)`. -/
def columnMedian (fn : EvalFns F) (x : List (Fin d → F)) : Fin d → F :=
  fun j => fn.median (x.map fun row => row j)

def madToStd : ℚ := 14826 / 10000

/-- `symbol == sym`. -/
def symbolMask (symbol : List Y) (sym : Y) : List Bool :=
  symbol.map fun s => decide (s = sym)

def robustStats (fn : EvalFns F) (x : List (Fin d → F)) : RobustStats F d :=
  let med := columnMedian fn x
  let mad := columnMedian fn (x.map fun row j => fabs (row j - med j))
  ⟨med, fun j => lit madToStd * mad j⟩

/-- The statistics by symbol, in the order in which they are entered. -/
def fitRobustz (fn : EvalFns F) (feat : List (Fin d → F)) (symbol : List Y) :
    List (Y × RobustStats F d) :=
  (sortedDistinct symbol).map fun sym =>
    (sym, robustStats fn (masked feat (symbolMask symbol sym)))

/-- The largest deviation of a row, over the columns with a scale. -/
def rowScore (fn : EvalFns F) (stats : RobustStats F d) (row : Fin d → F) : F :=
  fn.rowMax (List.ofFn fun j =>
    if lt (lit 0) (stats.scale j) then fabs ((row j - stats.med j) / stats.scale j) else lit 0)

/-- One turn of the scoring loop. -/
def scoreSymbol (fn : EvalFns F) (feat : List (Fin d → F)) (symbol : List Y) (score : List F)
    (entry : Y × RobustStats F d) : List F :=
  let m := symbolMask symbol entry.1
  let x := masked feat m
  assignMasked score m (x.map (rowScore fn entry.2))

def scoreRobustz (fn : EvalFns F) (feat : List (Fin d → F)) (symbol : List Y)
    (stats : List (Y × RobustStats F d)) : List F :=
  stats.foldl (scoreSymbol fn feat symbol) (List.replicate feat.length (lit 0))

def calibrateThreshold (fn : EvalFns F) (scores : List F) (targetRate : F) : F :=
  if scores.length = 0 then fn.inf else fn.quantile scores (lit 1 - targetRate)

/-- The result of an evaluation. -/
structure LadderEval (F : Type) where
  split : Split
  baseScores : List F
  baseThr : F
  aeScores : List F
  aeThr : F

/-- The split with the default shares. -/
def FeatureFrame.split (frame : FeatureFrame Y T F d) : Split :=
  timeSplit frame.symbol frame.startNs (4 / 10) (2 / 10)

/-- The statistics of the clean rows. -/
def cleanStats (fn : EvalFns F) (frame : FeatureFrame Y T F d) : List (Y × RobustStats F d) :=
  let clean := frame.split.fit ++ frame.split.calibrate
  fitRobustz fn (gather frame.features clean) (gather frame.symbol clean)

def baseScores (fn : EvalFns F) (frame : FeatureFrame Y T F d) : List F :=
  scoreRobustz fn frame.features frame.symbol (cleanStats fn frame)

/-- The evaluation; `autoencoder` is trained on its first argument and scores its second. -/
def ladderEval (fn : EvalFns F) (autoencoder : List (Fin d → F) → List (Fin d → F) → List F)
    (frame : FeatureFrame Y T F d) (targetRate : F) : Except (LeakageError Y) (LadderEval F) :=
  (assertNoLeakage frame.split frame.symbol frame.startNs).map fun _ =>
    let split := frame.split
    let baseScores := baseScores fn frame
    let aeScores := autoencoder (gather frame.features split.fit) frame.features
    { split
      baseScores
      baseThr := calibrateThreshold fn (gather baseScores split.calibrate) targetRate
      aeScores
      aeThr := calibrateThreshold fn (gather aeScores split.calibrate) targetRate }

/-- The flags of the test rows, of the baseline and of the autoencoder. -/
def LadderEval.testFlags (ev : LadderEval F) : List Bool × List Bool :=
  ((gather ev.baseScores ev.split.test).map (lt ev.baseThr),
    (gather ev.aeScores ev.split.test).map (lt ev.aeThr))

section Scores

variable (fn : EvalFns F) {feat feat' : List (Fin d → F)} {symbol : List Y}

/-- A turn gives a row its score from the row alone. -/
theorem getElem?_scoreSymbol {score : List F} (hscore : score.length = symbol.length)
    (hfeat : feat.length = symbol.length) (entry : Y × RobustStats F d) (i : Nat) :
    (scoreSymbol fn feat symbol score entry)[i]? =
      if symbol[i]? = some entry.1 then feat[i]?.map (rowScore fn entry.2) else score[i]? := by
  rw [scoreSymbol, IndexArrays.getElem?_assignMasked _ (by simpa [symbolMask] using hscore)
    (by simpa [symbolMask] using hfeat)]
  simp [symbolMask]

theorem length_scoreSymbol (score : List F) (entry : Y × RobustStats F d) :
    (scoreSymbol fn feat symbol score entry).length = score.length :=
  IndexArrays.length_assignMasked ..

theorem length_scoreRobustz (feat : List (Fin d → F)) (symbol : List Y)
    (stats : List (Y × RobustStats F d)) :
    (scoreRobustz fn feat symbol stats).length = feat.length := by
  induction stats using List.reverseRecOn with
  | nil => exact List.length_replicate
  | append_singleton stats entry ih =>
    rw [scoreRobustz, List.foldl_concat, length_scoreSymbol]
    exact ih

/-- Rows with equal features get equal scores, whatever the other rows are. -/
theorem getElem?_scoreRobustz_congr (hfeat : feat.length = symbol.length)
    (hfeat' : feat'.length = symbol.length) {i : Nat} (h : feat'[i]? = feat[i]?)
    (stats : List (Y × RobustStats F d)) :
    (scoreRobustz fn feat' symbol stats)[i]? = (scoreRobustz fn feat symbol stats)[i]? := by
  induction stats using List.reverseRecOn with
  | nil =>
    simp only [scoreRobustz, List.foldl_nil]
    rw [hfeat, hfeat']
  | append_singleton stats entry ih =>
    have hlen := (length_scoreRobustz fn feat symbol stats).trans hfeat
    have hlen' := (length_scoreRobustz fn feat' symbol stats).trans hfeat'
    rw [scoreRobustz, scoreRobustz, List.foldl_concat, List.foldl_concat]
    change (scoreSymbol fn feat' symbol (scoreRobustz fn feat' symbol stats) entry)[i]? =
      (scoreSymbol fn feat symbol (scoreRobustz fn feat symbol stats) entry)[i]?
    rw [getElem?_scoreSymbol fn hlen' hfeat', getElem?_scoreSymbol fn hlen hfeat, h, ih]

end Scores

section Frames

variable (fn : EvalFns F) {frame frame' : FeatureFrame Y T F d}

omit [PriceArith F] in
theorem FeatureFrame.split_congr (hsymbol : frame'.symbol = frame.symbol)
    (hstart : frame'.startNs = frame.startNs) : frame'.split = frame.split := by
  rw [FeatureFrame.split, FeatureFrame.split, hsymbol, hstart]

omit [PriceArith F] in
theorem FeatureFrame.split_partitions (frame : FeatureFrame Y T F d) :
    frame.split.Partitions frame.symbol frame.startNs (4 / 10) (2 / 10) :=
  timeSplit_partitions frame.length_startNs.symm (by norm_num) (by norm_num) (by norm_num)

omit [PriceArith F] in
/-- The guard accepts the frame's own split. -/
theorem FeatureFrame.assertNoLeakage_split (frame : FeatureFrame Y T F d)
    (hdistinct : (frame.symbol.zip frame.startNs).Nodup) :
    assertNoLeakage frame.split frame.symbol frame.startNs = .ok () :=
  frame.split_partitions.assertNoLeakage_eq_ok frame.length_startNs.symm hdistinct

theorem lt_length_baseScores (frame : FeatureFrame Y T F d) {i : Nat}
    (hi : i ∈ frame.split.test) : i < (baseScores fn frame).length := by
  rw [baseScores, length_scoreRobustz, frame.length_features]
  exact List.mem_range.mp (frame.split_partitions.rows.mem_iff.mp (by simp [hi]))

theorem cleanStats_congr (hsymbol : frame'.symbol = frame.symbol)
    (hstart : frame'.startNs = frame.startNs)
    (hclean : ∀ i ∈ frame.split.fit ++ frame.split.calibrate,
      frame'.features[i]? = frame.features[i]?) :
    cleanStats fn frame' = cleanStats fn frame := by
  simp only [cleanStats]
  rw [FeatureFrame.split_congr hsymbol hstart, hsymbol, IndexArrays.gather_congr hclean]

theorem getElem?_baseScores_congr (hsymbol : frame'.symbol = frame.symbol)
    (hstats : cleanStats fn frame' = cleanStats fn frame) {i : Nat}
    (hi : frame'.features[i]? = frame.features[i]?) :
    (baseScores fn frame')[i]? = (baseScores fn frame)[i]? := by
  rw [baseScores, baseScores, hstats, hsymbol]
  exact getElem?_scoreRobustz_congr fn frame.length_features
    (frame'.length_features.trans (congrArg List.length hsymbol)) hi _

end Frames

/-- Frames that differ in test rows only have the same statistics, threshold and clean scores, and
the test rows in which they do not differ have the same score and flag. -/
theorem baseline_ignores_test_rows (fn : EvalFns F)
    (autoencoder : List (Fin d → F) → List (Fin d → F) → List F) (targetRate : F)
    {frame frame' : FeatureFrame Y T F d} (hsymbol : frame'.symbol = frame.symbol)
    (hstart : frame'.startNs = frame.startNs)
    (hdistinct : (frame.symbol.zip frame.startNs).Nodup)
    (hclean : ∀ i ∈ frame.split.fit ++ frame.split.calibrate,
      frame'.features[i]? = frame.features[i]?) :
    ∃ ev ev', ladderEval fn autoencoder frame targetRate = .ok ev ∧
      ladderEval fn autoencoder frame' targetRate = .ok ev' ∧
      ev.split = frame.split ∧ ev'.split = frame.split ∧
      cleanStats fn frame' = cleanStats fn frame ∧ ev'.baseThr = ev.baseThr ∧
      (∀ i ∈ frame.split.fit ++ frame.split.calibrate, ev'.baseScores[i]? = ev.baseScores[i]?) ∧
      ∀ k i : Nat, frame.split.test[k]? = some i → frame'.features[i]? = frame.features[i]? →
        ev'.baseScores[i]? = ev.baseScores[i]? ∧
          ev'.testFlags.1[k]? = ev.testFlags.1[k]? := by
  have hsplit := FeatureFrame.split_congr hsymbol hstart
  have hstats := cleanStats_congr fn hsymbol hstart hclean
  have hguard := frame.assertNoLeakage_split hdistinct
  have hguard' := frame'.assertNoLeakage_split (by rwa [hsymbol, hstart])
  have hscore := fun i => @getElem?_baseScores_congr Y T F _ _ _ d fn frame frame' hsymbol hstats i
  have hcalibrate : gather (baseScores fn frame') frame.split.calibrate =
      gather (baseScores fn frame) frame.split.calibrate :=
    IndexArrays.gather_congr fun i hi => hscore i (hclean i (by simp [hi]))
  refine ⟨_, _, congrArg (Except.map _) hguard, congrArg (Except.map _) hguard', rfl, hsplit, hstats,
    ?_, fun i hi => hscore i (hclean i hi), ?_⟩
  · simp only [hsplit, hcalibrate]
  · intro k i hk hi
    refine ⟨hscore i hi, ?_⟩
    have hread : (gather (baseScores fn frame) frame.split.test)[k]? = (baseScores fn frame)[i]? := by
      rw [IndexArrays.getElem?_gather fun i hi => lt_length_baseScores fn frame hi, hk,
        Option.bind_some]
    have hread' : (gather (baseScores fn frame') frame.split.test)[k]? =
        (baseScores fn frame')[i]? := by
      rw [IndexArrays.getElem?_gather fun i hi => lt_length_baseScores fn frame' (hsplit ▸ hi), hk,
        Option.bind_some]
    simp only [LadderEval.testFlags, hsplit, hcalibrate, List.getElem?_map, hread, hread',
      hscore i hi]

/-- Rational stand-ins for NumPy's functions. -/
def rationalEvalFns : EvalFns ℚ where
  median := Multiset.sum
  quantile scores _ := scores.sum
  rowMax := List.foldl max 0
  inf := 1000

/-- Five bars of one symbol, of which the last two are test rows. -/
def fiveBars (last : ℚ) : FeatureFrame Nat Nat ℚ 1 where
  symbol := [7, 7, 7, 7, 7]
  startNs := [0, 60, 120, 180, 240]
  features := [fun _ => 1, fun _ => 2, fun _ => 4, fun _ => 8, fun _ => last]
  length_startNs := rfl
  length_features := rfl

theorem baseline_ignores_last_bar :
    ∃ ev ev', ladderEval rationalEvalFns (fun _ _ => []) (fiveBars 9) (1 / 100) = .ok ev ∧
      ladderEval rationalEvalFns (fun _ _ => []) (fiveBars 99) (1 / 100) = .ok ev' ∧
      ev.split = (fiveBars 9).split ∧ ev'.split = (fiveBars 9).split ∧
      cleanStats rationalEvalFns (fiveBars 99) = cleanStats rationalEvalFns (fiveBars 9) ∧
      ev'.baseThr = ev.baseThr ∧
      (∀ i ∈ (fiveBars 9).split.fit ++ (fiveBars 9).split.calibrate,
        ev'.baseScores[i]? = ev.baseScores[i]?) ∧
      ∀ k i : Nat, (fiveBars 9).split.test[k]? = some i →
        (fiveBars 99).features[i]? = (fiveBars 9).features[i]? →
        ev'.baseScores[i]? = ev.baseScores[i]? ∧
          ev'.testFlags.1[k]? = ev.testFlags.1[k]? :=
  baseline_ignores_test_rows rationalEvalFns (fun _ _ => []) (1 / 100) rfl rfl (by decide)
    (by decide +kernel)

end Ml

end OhlcvValidator
