import OhlcvValidator.BarStream
import OhlcvValidator.BenchBreakdown
import OhlcvValidator.IndexArrays
import OhlcvValidator.PriceLaws
import OhlcvValidator.ReplayWriter

namespace OhlcvValidator

namespace Ml

open PriceArith (lit fabs lt le)
open IndexArrays (assign assignMasked clampIndex)

/-- What the generators take from Python and NumPy; nothing is assumed of it. `toNat` is `int` of a
number that is not negative. -/
structure SynthFns (F : Type) where
  exp : F → F
  round : F → F
  maximum : F → F → F
  toUInt64 : F → UInt64
  toNat : F → Nat

/-- The random draws, an array for each call of the generator. -/
structure SynthDraws (F : Type) where
  move : Nat → F
  anomalyVol : Nat → F
  anomalyMove : Nat → F
  up : Nat → Bool
  noise : Nat → F

structure SynthParams (F : Type) where
  p0 : F
  retScale : F
  lvBase : F
  lvCoef : F

structure SynthBars (F : Type) where
  startNs : List UInt64
  openPrice : List F
  high : List F
  low : List F
  close : List F
  vwap : List F
  volume : List UInt64
  tradeCount : List UInt64
  isAnomaly : List Bool
  deriving DecidableEq, Repr

/-- The prices of one bar. -/
structure PriceRow (F : Type) where
  openPrice : F
  high : F
  low : F
  close : F
  vwap : F
  deriving DecidableEq, Repr

variable {F : Type} [PriceArith F]

/-- `max(a, b)`. -/
def pyMax (a b : F) : F := if lt a b then b else a

/-- `min(a, b)`. -/
def pyMin (a b : F) : F := if lt b a then b else a

/-- The body of the price loop. -/
def priceRow (fn : SynthFns F) (retScale px move ret : F) : PriceRow F :=
  let o := px
  let c := px * fn.exp ret
  let w := pyMax move (lit (2 / 10)) * retScale * px
  { openPrice := o
    high := pyMax o c + lit (1 / 2) * w
    low := pyMin o c - lit (1 / 2) * w
    close := c
    vwap := lit (1 / 2) * (o + c) }

/-- The price loop, over the moves and returns of the bars: the last close, and the rows. -/
def priceLoop (fn : SynthFns F) (retScale p0 : F) (moves : List (F × F)) : F × List (PriceRow F) :=
  moves.foldl (fun s m =>
    let row := priceRow fn retScale s.1 m.1 m.2
    (row.close, s.2 ++ [row])) (p0, [])

def baseNs : UInt64 := 1704206000000000000

def barNs : UInt64 := 60000000000

section Columns

variable (isAnomaly : List Bool) (d : SynthDraws F)

/-- `np.abs(rng.standard_normal(n_bars))`. -/
def magColumn : List F := (List.range isAnomaly.length).map fun i => fabs (d.move i)

/-- The sizes of the moves that drive the volume; an anomaly has one of its own. -/
def volColumn : List F :=
  assignMasked (magColumn isAnomaly d) isAnomaly
    ((List.range (isAnomaly.count true)).map fun j =>
      lit (8 / 10) + lit (2 / 10) * fabs (d.anomalyVol j))

/-- The sizes of the price moves; that of an anomaly is small. -/
def moveColumn : List F :=
  assignMasked (magColumn isAnomaly d) isAnomaly
    ((List.range (isAnomaly.count true)).map fun j => lit (8 / 100) * fabs (d.anomalyMove j))

/-- The returns. -/
def retColumn (retScale : F) : List F :=
  let sign := (List.range isAnomaly.length).map fun i => if d.up i then lit 1 else lit (-1)
  List.zipWith (fun s m => s * m * retScale) sign (moveColumn isAnomaly d)

/-- The volumes before their cast to 64-bit integers. -/
def volumeColumn (fn : SynthFns F) (p : SynthParams F) : List F :=
  let logVolume := List.zipWith (fun v i => p.lvBase + p.lvCoef * v + lit (5 / 100) * d.noise i)
    (volColumn isAnomaly d) (List.range isAnomaly.length)
  logVolume.map fun l => fn.maximum (fn.round (fn.exp l)) (lit 1)

/-- The part that the two generators share: bars with the given anomalies. -/
def synthBars (fn : SynthFns F) (p : SynthParams F) : SynthBars F :=
  let n := isAnomaly.length
  let rows := (priceLoop fn p.retScale p.p0
    ((moveColumn isAnomaly d).zip (retColumn isAnomaly d p.retScale))).2
  let volume := (volumeColumn isAnomaly d fn p).map fn.toUInt64
  { startNs := (List.range n).map fun i => baseNs + UInt64.ofNat i * barNs
    openPrice := rows.map PriceRow.openPrice
    high := rows.map PriceRow.high
    low := rows.map PriceRow.low
    close := rows.map PriceRow.close
    vwap := rows.map PriceRow.vwap
    volume
    tradeCount := volume.map fun v => max (v / 200) 1
    isAnomaly }

end Columns

/-- One burst of anomalies. -/
def generate (fn : SynthFns F) (nBars : Nat) (anomalyStart anomalyLen : Int) (p : SynthParams F)
    (d : SynthDraws F) : SynthBars F :=
  let lo := clampIndex nBars anomalyStart
  let hi := clampIndex nBars (anomalyStart + anomalyLen)
  synthBars ((List.range nBars).map fun i => decide (lo ≤ i ∧ i < hi)) d fn p

section Tail

variable (fn : SynthFns F) (nBars : Nat) (cleanFrac : F)

/-- The number of bars before the first that may be an anomaly: `int(n_bars * clean_frac)`. -/
def cleanCut : Nat := fn.toNat (lit nBars * cleanFrac)

/-- The bars that may be anomalies. -/
def region : List Nat :=
  List.range' (cleanCut fn nBars cleanFrac) (nBars - cleanCut fn nBars cleanFrac)

end Tail

/-- A sample of `k` entries without replacement. -/
structure Sample (region : List Nat) (k : Nat) where
  rows : List Nat
  length_rows : rows.length = k
  nodup : rows.Nodup
  mem : ∀ i ∈ rows, i ∈ region

/-- Anomalies in the tail only. -/
def generateEval (fn : SynthFns F) (nBars anomalyCount : Nat) (cleanFrac : F) (p : SynthParams F)
    (chosen : Sample (region fn nBars cleanFrac)
      (min anomalyCount (region fn nBars cleanFrac).length)) (d : SynthDraws F) : SynthBars F :=
  synthBars (assign (List.replicate nBars false) chosen.rows
    (List.replicate chosen.rows.length true)) d fn p

section Enclosed

variable [LinearOrder F] [PriceLaws F]

theorem pyMax_eq (a b : F) : pyMax a b = max a b := by
  simp only [pyMax, PriceLaws.lt_iff]
  split
  next h => exact (max_eq_right h.le).symm
  next h => exact (max_eq_left (not_lt.mp h)).symm

theorem pyMin_eq (a b : F) : pyMin a b = min a b := by
  simp only [pyMin, PriceLaws.lt_iff]
  split
  next h => exact (min_eq_right h.le).symm
  next h => exact (min_eq_left (not_lt.mp h)).symm

omit [PriceArith F] [PriceLaws F] in
/-- The range of a bar has all its prices. -/
def PriceRow.Encloses (row : PriceRow F) : Prop :=
  ∀ p ∈ [row.openPrice, row.close, row.vwap], row.low ≤ p ∧ p ≤ row.high

variable (fn : SynthFns F) {retScale px p0 : F}

theorem encloses_priceRow (hscale : lit 0 ≤ retScale) (hpx : lit 0 ≤ px) (move ret : F) :
    (priceRow fn retScale px move ret).Encloses := by
  have hmove : lit 0 ≤ pyMax move (lit (2 / 10)) := by
    rw [pyMax_eq]
    exact (PriceLaws.lit_mono (by norm_num)).trans (le_max_right _ _)
  have hhalf : lit 0 ≤ lit (1 / 2) * (pyMax move (lit (2 / 10)) * retScale * px) :=
    PriceLaws.mul_nonneg _ _ (PriceLaws.lit_mono (by norm_num))
      (PriceLaws.mul_nonneg _ _ (PriceLaws.mul_nonneg _ _ hmove hscale) hpx)
  have hlow : ∀ p, pyMin px (px * fn.exp ret) ≤ p →
      (priceRow fn retScale px move ret).low ≤ p :=
    fun p hp => (PriceLaws.sub_le _ _ hhalf).trans hp
  have hhigh : ∀ p, p ≤ pyMax px (px * fn.exp ret) →
      p ≤ (priceRow fn retScale px move ret).high :=
    fun p hp => hp.trans (PriceLaws.le_add _ _ hhalf)
  rw [pyMin_eq] at hlow
  rw [pyMax_eq] at hhigh
  obtain ⟨hbelow, habove⟩ := PriceLaws.midpoint px (px * fn.exp ret)
  simp only [PriceRow.Encloses, List.forall_mem_cons]
  exact ⟨⟨hlow _ (min_le_left _ _), hhigh _ (le_max_left _ _)⟩,
    ⟨hlow _ (min_le_right _ _), hhigh _ (le_max_right _ _)⟩,
    ⟨hlow _ hbelow, hhigh _ habove⟩, by simp⟩

omit [LinearOrder F] [PriceLaws F] in
theorem priceLoop_concat (moves : List (F × F)) (m : F × F) :
    priceLoop fn retScale p0 (moves ++ [m]) =
      ((priceRow fn retScale (priceLoop fn retScale p0 moves).1 m.1 m.2).close,
        (priceLoop fn retScale p0 moves).2 ++
          [priceRow fn retScale (priceLoop fn retScale p0 moves).1 m.1 m.2]) := by
  simp [priceLoop]

omit [LinearOrder F] [PriceLaws F] in
theorem length_priceLoop (moves : List (F × F)) :
    (priceLoop fn retScale p0 moves).2.length = moves.length := by
  induction moves using List.reverseRecOn with
  | nil => rfl
  | append_singleton moves m ih => simp [priceLoop_concat, ih]

/-- As long as no low falls to zero the price stays positive, and every bar encloses its prices. -/
theorem encloses_priceLoop (hscale : lit 0 ≤ retScale) (hp0 : lit 0 < p0) {moves : List (F × F)}
    (hlow : ∀ row ∈ (priceLoop fn retScale p0 moves).2, lit 0 < row.low) :
    lit 0 < (priceLoop fn retScale p0 moves).1 ∧
      ∀ row ∈ (priceLoop fn retScale p0 moves).2, row.Encloses := by
  induction moves using List.reverseRecOn with
  | nil => exact ⟨hp0, by simp [priceLoop]⟩
  | append_singleton moves m ih =>
    rw [priceLoop_concat] at hlow ⊢
    simp only [List.forall_mem_append, List.forall_mem_singleton] at hlow ⊢
    obtain ⟨hpx, hrows⟩ := ih hlow.1
    have hrow := encloses_priceRow fn hscale hpx.le m.1 m.2
    refine ⟨?_, hrows, hrow⟩
    simp only [PriceRow.Encloses, List.forall_mem_cons] at hrow
    exact hlow.2.trans_le hrow.2.1.1

end Enclosed

end Ml

end OhlcvValidator
