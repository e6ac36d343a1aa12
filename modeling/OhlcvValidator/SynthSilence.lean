import OhlcvValidator.BarFile
import OhlcvValidator.SynthBars

namespace OhlcvValidator

open PriceArith (lit lt le)
open Replay (DoubleBits BarBody)

section Flags

variable {F : Type} [PriceArith F] [LinearOrder F] [PriceLaws F]

omit [LinearOrder F] [PriceLaws F] in
theorem Validator.ok_flagIf (r : Result) (c : Bool) (v : Violation) :
    (r.flagIf c v).ok = (r.ok && !c) := by
  rw [Bool.eq_iff_iff]
  simp [Result.ok, Result.flags_flagIf_eq_zero_iff]

theorem PriceLaws.le_zero_eq_false_iff (x : F) : le x (lit 0) = false ↔ lit 0 < x := by
  rw [← Bool.not_eq_true, PriceLaws.le_iff, not_le]

theorem Validator.low_pos_of_ok {b : WireBar F} (h : (barFlags b).ok = true) : lit 0 < b.low := by
  simp only [barFlags, ok_flagIf, Bool.and_eq_true, Bool.not_eq_true', Bool.or_eq_false_iff,
    PriceLaws.le_zero_eq_false_iff] at h
  exact h.1.2.1.2

/-- A bar that encloses its prices passes the stateless checks exactly if its low is positive and
it has trades where it has volume. -/
theorem Validator.barFlags_ok_iff {b : WireBar F}
    (hrange : ∀ p ∈ [b.openPrice, b.close, b.vwap], b.low ≤ p ∧ p ≤ b.high) :
    (barFlags b).ok = true ↔ lit 0 < b.low ∧ (b.tradeCount = 0 ↔ b.volume = 0) := by
  simp only [List.forall_mem_cons] at hrange
  obtain ⟨⟨hlo, hoh⟩, ⟨hlc, hch⟩, ⟨hlw, hwh⟩, -⟩ := hrange
  have hnot : ∀ {x y : F}, x ≤ y → lt y x = false := by
    intro x y h
    rw [← Bool.not_eq_true, PriceLaws.lt_iff]
    exact not_lt.mpr h
  simp only [barFlags, ok_flagIf, hnot (hlo.trans hoh), hnot hlo, hnot hoh, hnot hlc, hnot hch,
    hnot hlw, hnot hwh, Bool.and_eq_true, Bool.not_eq_true', Bool.or_eq_false_iff,
    PriceLaws.le_zero_eq_false_iff, Bool.or_self, and_true]
  constructor
  · rintro ⟨⟨_, ⟨_, hlow⟩, _⟩, hempty⟩
    exact ⟨hlow, by simpa using hempty⟩
  · rintro ⟨hlow, hempty⟩
    exact ⟨⟨rfl, ⟨⟨hlow.trans_le hlo, hlow.trans_le (hlo.trans hoh)⟩, hlow⟩, hlow.trans_le hlc⟩,
      by simpa using hempty⟩

end Flags

namespace Ml

open Replay (cppViolations replayBench benchPass)
open Replay.Py (makeBars writeReplay encodeAscii WriteError StructArray)

variable {F : Type} [PriceArith F]

/-- The bars as records of one symbol. -/
def SynthBars.records (toBits : F → DoubleBits) (symbol : String) (sb : SynthBars F) :
    Except WriteError StructArray :=
  makeBars symbol sb.startNs (sb.openPrice.map toBits) (sb.high.map toBits) (sb.low.map toBits)
    (sb.close.map toBits) (sb.vwap.map toBits) sb.volume sb.tradeCount 1

def SynthBars.prices (sb : SynthBars F) : List F :=
  sb.openPrice ++ sb.high ++ sb.low ++ sb.close ++ sb.vwap

/-- The bars of one of the two generators, made from some draws. -/
inductive Generated (fn : SynthFns F) (p : SynthParams F) (d : SynthDraws F) (n : Nat) :
    SynthBars F → Prop
  | burst (start len : Int) : Generated fn p d n (generate fn n start len p d)
  | tail (count : Nat) (cleanFrac : F)
    (chosen : Sample (region fn n cleanFrac) (min count (region fn n cleanFrac).length)) :
    Generated fn p d n (generateEval fn n count cleanFrac p chosen d)

/-- The columns of the bars come from rows of prices and a column of volumes. -/
structure SynthBars.Shaped (n : Nat) (rows : List (PriceRow F)) (sb : SynthBars F) : Prop where
  length_rows : rows.length = n
  startNs : sb.startNs = (List.range n).map fun i => baseNs + UInt64.ofNat i * barNs
  openPrice : sb.openPrice = rows.map PriceRow.openPrice
  high : sb.high = rows.map PriceRow.high
  low : sb.low = rows.map PriceRow.low
  close : sb.close = rows.map PriceRow.close
  vwap : sb.vwap = rows.map PriceRow.vwap
  length_volume : sb.volume.length = n
  tradeCount : sb.tradeCount = sb.volume.map fun v => max (v / 200) 1

variable {fn : SynthFns F} {p : SynthParams F} {d : SynthDraws F} {n : Nat} {sb : SynthBars F}

theorem shaped_synthBars {isAnomaly : List Bool} (hn : isAnomaly.length = n) :
    (synthBars isAnomaly d fn p).Shaped n (priceLoop fn p.retScale p.p0
      ((moveColumn isAnomaly d).zip (retColumn isAnomaly d p.retScale))).2 := by
  subst hn
  refine ⟨?_, rfl, rfl, rfl, rfl, rfl, rfl, ?_, rfl⟩
  · simp [length_priceLoop, moveColumn, retColumn, magColumn, IndexArrays.length_assignMasked]
  · simp [synthBars, volumeColumn, volColumn, magColumn, IndexArrays.length_assignMasked]

/-- Both generators run the price loop. -/
theorem Generated.shaped (h : Generated fn p d n sb) :
    ∃ isAnomaly, sb = synthBars isAnomaly d fn p ∧ sb.Shaped n (priceLoop fn p.retScale p.p0
      ((moveColumn isAnomaly d).zip (retColumn isAnomaly d p.retScale))).2 := by
  cases h with
  | burst start len => exact ⟨_, rfl, shaped_synthBars (by simp)⟩
  | tail count cleanFrac chosen => exact ⟨_, rfl, shaped_synthBars (by simp [IndexArrays.length_assign])⟩

section Bars

variable {rows : List (PriceRow F)} (ticker : List UInt8)

/-- Bar `i` of the file, as the validator reads it. -/
def SynthBars.barAt (sb : SynthBars F) (ticker : List UInt8) (i : Nat) : WireBar F where
  symbol := Replay.Py.s8 ticker
  startNs := sb.startNs.getD i 0
  seq := UInt64.ofNat (1 + i)
  openPrice := sb.openPrice.getD i (lit 0)
  high := sb.high.getD i (lit 0)
  low := sb.low.getD i (lit 0)
  close := sb.close.getD i (lit 0)
  vwap := sb.vwap.getD i (lit 0)
  volume := sb.volume.getD i 0
  tradeCount := sb.tradeCount.getD i 0

theorem getD_map_bits {toBits : F → DoubleBits} {ofBits : DoubleBits → F} {xs : List F}
    (hbits : ∀ x ∈ xs, ofBits (toBits x) = x) {i : Nat} (hi : i < xs.length) :
    ofBits ((xs.map toBits).getD i 0) = xs.getD i (lit 0) := by
  rw [List.getD_eq_getElem _ _ (by simpa using hi), List.getD_eq_getElem _ _ hi, List.getElem_map,
    hbits _ (List.getElem_mem hi)]

/-- Row `i` of the records. -/
def SynthBars.bodyAt (sb : SynthBars F) (toBits : F → DoubleBits) (ticker : List UInt8) (i : Nat) :
    BarBody where
  symbol := Replay.Py.s8 ticker
  startNs := sb.startNs.getD i 0
  seq := UInt64.ofNat (1 + i)
  openPrice := (sb.openPrice.map toBits).getD i 0
  high := (sb.high.map toBits).getD i 0
  low := (sb.low.map toBits).getD i 0
  close := (sb.close.map toBits).getD i 0
  vwap := (sb.vwap.map toBits).getD i 0
  volume := sb.volume.getD i 0
  tradeCount := sb.tradeCount.getD i 0

variable {toBits : F → DoubleBits} {ofBits : DoubleBits → F} {symbol : String}

omit [PriceArith F] in
theorem SynthBars.Shaped.records (h : sb.Shaped n rows)
    (hticker : encodeAscii symbol = .ok ticker) :
    sb.records toBits symbol = .ok ⟨Replay.Py.recordStride,
      ((List.range n).map (sb.bodyAt toBits ticker)).map Replay.Py.dtBarRow⟩ := by
  have hlen : sb.startNs.length = n := by simp [h.startNs]
  have hrows : Replay.Py.barRows symbol sb.startNs (sb.openPrice.map toBits) (sb.high.map toBits)
      (sb.low.map toBits) (sb.close.map toBits) (sb.vwap.map toBits) sb.volume sb.tradeCount 1 =
      .ok ((List.range sb.startNs.length).map (sb.bodyAt toBits ticker)) := by
    refine Replay.Py.barRows_eq_ok hticker ?_ 1
    simp [h.openPrice, h.high, h.low, h.close, h.vwap, h.tradeCount, h.length_rows, hlen,
      h.length_volume]
  rw [SynthBars.records, makeBars, hrows, hlen]
  rfl

/-- The validator reads the bars, if the prices survive their encoding. -/
theorem SynthBars.Shaped.toModel_bodyAt (h : sb.Shaped n rows)
    (hbits : ∀ x ∈ sb.prices, ofBits (toBits x) = x) {i : Nat} (hi : i < n) :
    (sb.bodyAt toBits ticker i).toModel ofBits = sb.barAt ticker i := by
  have hcolumn : ∀ {xs : List F} (f : PriceRow F → F), xs = rows.map f → (∀ x ∈ xs, x ∈ sb.prices) →
      ofBits ((xs.map toBits).getD i 0) = xs.getD i (lit 0) := by
    intro xs f hxs hsub
    refine getD_map_bits (fun x hx => hbits x (hsub x hx)) ?_
    rwa [hxs, List.length_map, h.length_rows]
  unfold BarBody.toModel bodyAt barAt
  rw [hcolumn _ h.openPrice (by simp +contextual [prices]),
    hcolumn _ h.high (by simp +contextual [prices]), hcolumn _ h.low (by simp +contextual [prices]),
    hcolumn _ h.close (by simp +contextual [prices]),
    hcolumn _ h.vwap (by simp +contextual [prices])]

omit [PriceArith F] in
theorem SynthBars.Shaped.toNat_startNs (h : sb.Shaped n rows)
    (hfits : baseNs.toNat + n * barNs.toNat ≤ 2 ^ 64) {i : Nat} (hi : i < n) :
    (sb.startNs.getD i 0).toNat = baseNs.toNat + i * barNs.toNat := by
  have hbase : baseNs.toNat = 1704206000000000000 := rfl
  have hbar : barNs.toNat = 60000000000 := rfl
  have hget : sb.startNs.getD i 0 = baseNs + UInt64.ofNat i * barNs := by
    simp [h.startNs, List.getD_eq_getElem?_getD, hi]
  rw [hbase, hbar] at hfits
  rw [hget, UInt64.toNat_add, UInt64.toNat_mul,
    UInt64.toNat_ofNat_of_lt' (show i < 2 ^ 64 by omega), hbase, hbar]
  omega

/-- One bar a minute, numbered without a gap. -/
theorem SynthBars.Shaped.continues (h : sb.Shaped n rows)
    (hfits : baseNs.toNat + n * barNs.toNat ≤ 2 ^ 64) {i : Nat} (hi : i + 1 < n) :
    Validator.Continues (sb.barAt ticker i) (sb.barAt ticker (i + 1)) := by
  have hbar : barNs.toNat = 60000000000 := rfl
  have hsmall : n < 2 ^ 63 := by
    rw [hbar] at hfits
    omega
  constructor
  · change sb.startNs.getD i 0 ≤ sb.startNs.getD (i + 1) 0
    rw [UInt64.le_iff_toNat_le, h.toNat_startNs hfits (by omega), h.toNat_startNs hfits hi,
      hbar]
    omega
  · change (UInt64.ofNat (1 + (i + 1))).toNat ≤ (UInt64.ofNat (1 + i)).toNat + 1
    rw [UInt64.toNat_ofNat_of_lt' (show 1 + (i + 1) < 2 ^ 64 by omega),
      UInt64.toNat_ofNat_of_lt' (show 1 + i < 2 ^ 64 by omega)]
    omega

variable [LinearOrder F] [PriceLaws F]

theorem tradeCount_ne_zero (v : UInt64) : max (v / 200) 1 ≠ 0 := by
  change (if v / 200 ≤ 1 then 1 else v / 200) ≠ 0
  split
  next => decide
  next hmany =>
    intro hzero
    exact hmany (hzero ▸ by decide)

section Checks

variable {retScale p0 : F} {moves : List (F × F)}
  (h : sb.Shaped n (priceLoop fn retScale p0 moves).2) (hscale : lit 0 ≤ retScale) (hp0 : lit 0 < p0)
include h hscale hp0

theorem SynthBars.Shaped.barFlags_ok_iff_volume (hlow : ∀ x ∈ sb.low, lit 0 < x) {i : Nat}
    (hi : i < n) :
    (Validator.barFlags (sb.barAt ticker i)).ok = true ↔ sb.volume.getD i 0 ≠ 0 := by
  have hrows : ∀ row ∈ (priceLoop fn retScale p0 moves).2, lit 0 < row.low := by
    rw [h.low, List.forall_mem_map] at hlow
    exact hlow
  have hin : i < (priceLoop fn retScale p0 moves).2.length := h.length_rows ▸ hi
  have hvolume : i < sb.volume.length := h.length_volume ▸ hi
  have hget : ∀ f : PriceRow F → F, ((priceLoop fn retScale p0 moves).2.map f).getD i (lit 0) =
      f (priceLoop fn retScale p0 moves).2[i] := by
    intro f
    simp [List.getD_eq_getElem?_getD, hin]
  have hrange : ∀ p ∈ [(sb.barAt ticker i).openPrice, (sb.barAt ticker i).close,
      (sb.barAt ticker i).vwap], (sb.barAt ticker i).low ≤ p ∧ p ≤ (sb.barAt ticker i).high := by
    simp only [SynthBars.barAt, h.openPrice, h.close, h.vwap, h.low, h.high, hget]
    exact (encloses_priceLoop fn hscale hp0 hrows).2 _ (List.getElem_mem hin)
  have hpos : lit 0 < (sb.barAt ticker i).low := by
    simp only [SynthBars.barAt, h.low, hget]
    exact hrows _ (List.getElem_mem hin)
  have htrades : (sb.barAt ticker i).tradeCount ≠ 0 := by
    simp [SynthBars.barAt, h.tradeCount, List.getD_eq_getElem?_getD, hvolume, tradeCount_ne_zero]
  rw [Validator.barFlags_ok_iff hrange]
  simp only [hpos, htrades, true_and, false_iff]
  rfl

/-- The stateless checks of the generated bars come down to their lows and volumes. -/
theorem SynthBars.Shaped.barFlags_ok_iff :
    (∀ i < n, (Validator.barFlags (sb.barAt ticker i)).ok = true) ↔
      (∀ x ∈ sb.low, lit 0 < x) ∧ ∀ v ∈ sb.volume, v ≠ 0 := by
  constructor
  · intro hok
    have hlow : ∀ x ∈ sb.low, lit 0 < x := by
      intro x hx
      obtain ⟨i, hi, rfl⟩ := List.mem_iff_getElem.mp hx
      have hlt : i < n := by
        rwa [h.low, List.length_map, h.length_rows] at hi
      have hpos := Validator.low_pos_of_ok (hok i hlt)
      rwa [SynthBars.barAt, List.getD_eq_getElem _ _ hi] at hpos
    refine ⟨hlow, ?_⟩
    intro v hv
    obtain ⟨i, hi, rfl⟩ := List.mem_iff_getElem.mp hv
    have hlt : i < n := h.length_volume ▸ hi
    have hne := (h.barFlags_ok_iff_volume ticker hscale hp0 hlow hlt).mp (hok i hlt)
    rwa [List.getD_eq_getElem _ _ hi] at hne
  · rintro ⟨hlow, hvolume⟩ i hi
    have hin : i < sb.volume.length := h.length_volume ▸ hi
    rw [h.barFlags_ok_iff_volume ticker hscale hp0 hlow hi, List.getD_eq_getElem _ _ hin]
    exact hvolume _ (List.getElem_mem hin)

/-- The bars as a file through the bench. -/
theorem SynthBars.Shaped.bench (hn : 0 < n) (hfits : baseNs.toNat + n * barNs.toNat ≤ 2 ^ 64)
    (hbits : ∀ x ∈ sb.prices, ofBits (toBits x) = x) (hticker : encodeAscii symbol = .ok ticker)
    (clock : Nat → UInt64) (path : String) (passes : UInt64) :
    ∃ arr bytes b hist checksum, sb.records toBits symbol = .ok arr ∧
      writeReplay arr = .ok bytes ∧
      replayBench ofBits clock path (some bytes) passes =
        .ok (.report (UInt64.ofNat n) passes b hist checksum) ∧
      (cppViolations b = 0 ↔ (∀ x ∈ sb.low, lit 0 < x) ∧ ∀ v ∈ sb.volume, v ≠ 0) := by
  have hbar : barNs.toNat = 60000000000 := rfl
  have hsmall : n < 2 ^ 63 := by
    rw [hbar] at hfits
    omega
  have hbars : ((List.range n).map (sb.bodyAt toBits ticker)).map (BarBody.toModel ofBits) =
      (List.range n).map (sb.barAt ticker) := by
    rw [List.map_map]
    exact List.map_congr_left fun i hi => h.toModel_bodyAt ticker hbits (List.mem_range.mp hi)
  have hlen : ((List.range n).map (sb.bodyAt toBits ticker)).length = n := by simp
  obtain ⟨bytes, b, hist, checksum, hwrite, hreport, hsilent⟩ := Replay.Py.bench_bars ofBits
    (List.ne_nil_of_length_pos (hlen.symm ▸ hn)) (hlen.symm ▸ by omega) clock path passes
  rw [hlen] at hreport
  refine ⟨_, bytes, b, hist, checksum, h.records ticker hticker, hwrite, hreport, ?_⟩
  rw [hsilent, hbars, Validator.run_bars_ok_iff, ← h.barFlags_ok_iff ticker hscale hp0]
  · simp
  · refine (Finset.card_le_card (t := {Replay.Py.s8 ticker}) ?_).trans (by simp)
    intro symbol hsymbol
    simp only [List.map_map, List.mem_toFinset, List.mem_map] at hsymbol
    obtain ⟨i, -, rfl⟩ := hsymbol
    exact Finset.mem_singleton_self _
  · intro b hb
    obtain ⟨i, hi, rfl⟩ := List.mem_map.mp hb
    have hlt := List.mem_range.mp hi
    change (UInt64.ofNat (1 + i)).toNat < 2 ^ 64 - 1
    rw [UInt64.toNat_ofNat_of_lt' (show 1 + i < 2 ^ 64 by omega)]
    omega
  · intro symbol
    by_cases hsymbol : Replay.Py.s8 ticker = symbol
    · rw [List.filter_eq_self.mpr (by simp [SynthBars.barAt, hsymbol]), List.isChain_map,
        List.isChain_range]
      exact fun i hi => h.continues ticker hfits (by omega)
    · rw [List.filter_eq_nil_iff.mpr (by simp [SynthBars.barAt, hsymbol])]
      exact .nil

end Checks

end Bars

section Silence

variable [LinearOrder F] [PriceLaws F] {toBits : F → DoubleBits} {ofBits : DoubleBits → F}
  {symbol : String} {ticker : List UInt8}

/-- A file of generated bars is rule-clean exactly if every low is positive and no volume is zero,
however the arithmetic rounds and whatever the exponential is. -/
theorem synthetic_silent_iff (h : Generated fn p d n sb) (hp0 : lit 0 < p.p0)
    (hscale : lit 0 ≤ p.retScale) (hn : 0 < n) (hfits : baseNs.toNat + n * barNs.toNat ≤ 2 ^ 64)
    (hbits : ∀ x ∈ sb.prices, ofBits (toBits x) = x) (hticker : encodeAscii symbol = .ok ticker)
    (clock : Nat → UInt64) (path : String) (passes : UInt64) :
    ∃ arr bytes b hist checksum, sb.records toBits symbol = .ok arr ∧
      writeReplay arr = .ok bytes ∧
      replayBench ofBits clock path (some bytes) passes =
        .ok (.report (UInt64.ofNat n) passes b hist checksum) ∧
      (cppViolations b = 0 ↔ (∀ x ∈ sb.low, lit 0 < x) ∧ ∀ v ∈ sb.volume, v ≠ 0) := by
  obtain ⟨isAnomaly, -, hshaped⟩ := h.shaped
  exact hshaped.bench ticker hscale hp0 hn hfits hbits hticker clock path passes

theorem encodeAscii_synth : encodeAscii "SYNTH" = .ok [83, 89, 78, 84, 72] := by
  decide

/-- Prices in sixteenths. -/
abbrev Sixteenths : Type := (Rounding.fixedPoint 3).Num

def sixteenthFns : SynthFns Sixteenths where
  exp x := lit 1 + x
  round x := x
  maximum := max
  toUInt64 _ := 500
  toNat x := x.1.floor.toNat

def sixteenthParams : SynthParams Sixteenths := ⟨lit 100, lit (1 / 8), lit 0, lit 0⟩

def sixteenthDraws : SynthDraws Sixteenths :=
  ⟨fun _ => lit 1, fun _ => lit 1, fun _ => lit 1, fun _ => false, fun _ => lit 0⟩

def toSixteenths (x : Sixteenths) : DoubleBits := UInt64.ofNat (x.1 * 16).floor.toNat

def ofSixteenths (w : DoubleBits) : Sixteenths := lit (w.toNat / 16)

/-- Two bars, the first down by an eighth, the second an anomaly. -/
def sixteenthBars : SynthBars Sixteenths :=
  generate sixteenthFns 2 1 1 sixteenthParams sixteenthDraws

theorem synthetic_silent_iff_sixteenths :
    ∃ arr bytes b hist checksum, sixteenthBars.records toSixteenths "SYNTH" = .ok arr ∧
      writeReplay arr = .ok bytes ∧
      replayBench ofSixteenths UInt64.ofNat "synth.bin" (some bytes) 1 =
        .ok (.report (UInt64.ofNat 2) 1 b hist checksum) ∧ cppViolations b = 0 := by
  have hgenerated : Generated sixteenthFns sixteenthParams sixteenthDraws 2 sixteenthBars :=
    .burst 1 1
  have hbits : ∀ x ∈ sixteenthBars.prices, ofSixteenths (toSixteenths x) = x := by decide +kernel
  obtain ⟨arr, bytes, b, hist, checksum, hrecords, hwrite, hreport, hsilent⟩ :=
    synthetic_silent_iff hgenerated (by decide +kernel) (by decide +kernel) (by decide) (by decide)
      hbits encodeAscii_synth UInt64.ofNat "synth.bin" 1
  have hvolume : ∀ v ∈ sixteenthBars.volume, v ≠ 0 := by
    intro v hv
    obtain ⟨_, -, rfl⟩ := List.mem_map.mp hv
    simp [sixteenthFns]
  exact ⟨arr, bytes, b, hist, checksum, hrecords, hwrite, hreport,
    hsilent.mpr ⟨by decide +kernel, hvolume⟩⟩

end Silence

section Exact

variable {fn : SynthFns ℚ} {rs p0 px move ret : ℚ}

theorem low_priceRow (fn : SynthFns ℚ) (rs px move ret : ℚ) :
    (priceRow fn rs px move ret).low =
      min px (px * fn.exp ret) - 1 / 2 * (max move (2 / 10) * rs * px) := by
  simp only [priceRow, pyMin_eq, pyMax_eq]
  rfl

/-- Below two thirds, half the range stays short of both prices. -/
theorem low_priceRow_pos (hexp : ∀ x, 1 + x ≤ fn.exp x) (hpx : 0 < px)
    (hsmall : max move (2 / 10) * rs < 2 / 3) (hret : -(max move (2 / 10) * rs) ≤ ret) :
    0 < (priceRow fn rs px move ret).low ∧ 0 < (priceRow fn rs px move ret).close := by
  generalize hw : max move (2 / 10) * rs = w at hsmall hret
  have hclose : px * (1 - w) ≤ px * fn.exp ret :=
    mul_le_mul_of_nonneg_left (by linarith [hexp ret]) hpx.le
  refine ⟨?_, ?_⟩
  · rw [low_priceRow, hw, sub_pos, lt_min_iff]
    constructor <;> nlinarith
  · change 0 < px * fn.exp ret
    nlinarith

theorem low_priceLoop_pos (hexp : ∀ x, 1 + x ≤ fn.exp x) (hp0 : 0 < p0) {moves : List (ℚ × ℚ)}
    (hmoves : ∀ m ∈ moves, max m.1 (2 / 10) * rs < 2 / 3 ∧ -(max m.1 (2 / 10) * rs) ≤ m.2) :
    0 < (priceLoop fn rs p0 moves).1 ∧ ∀ row ∈ (priceLoop fn rs p0 moves).2, 0 < row.low := by
  induction moves using List.reverseRecOn with
  | nil => exact ⟨hp0, by simp [priceLoop]⟩
  | append_singleton moves m ih =>
    simp only [List.forall_mem_append, List.forall_mem_singleton] at hmoves
    obtain ⟨hpx, hrows⟩ := ih hmoves.1
    obtain ⟨hlow, hclose⟩ := low_priceRow_pos hexp hpx hmoves.2.1 hmoves.2.2
    rw [priceLoop_concat]
    simp only [List.forall_mem_append, List.forall_mem_singleton]
    exact ⟨hclose, hrows, hlow⟩

theorem mem_moves {isAnomaly : List Bool} {d : SynthDraws ℚ} {m : ℚ × ℚ}
    (h : m ∈ (moveColumn isAnomaly d).zip (retColumn isAnomaly d rs)) :
    m.1 ∈ moveColumn isAnomaly d ∧ (m.2 = m.1 * rs ∨ m.2 = -(m.1 * rs)) := by
  obtain ⟨i, hi⟩ := List.mem_iff_getElem?.mp h
  obtain ⟨hmove, hret⟩ := List.getElem?_zip_eq_some.mp hi
  refine ⟨List.mem_of_getElem? hmove, ?_⟩
  rw [retColumn, List.getElem?_zipWith, hmove] at hret
  cases hsign : ((List.range isAnomaly.length).map fun i =>
      (if d.up i then lit 1 else lit (-1) : ℚ))[i]? with
  | none => simp [hsign] at hret
  | some s =>
    obtain ⟨j, -, rfl⟩ := List.mem_map.mp (List.mem_of_getElem? hsign)
    rw [hsign] at hret
    rw [← Option.some.inj hret]
    cases d.up j with
    | true => exact Or.inl (congrArg (· * rs) (one_mul m.1))
    | false =>
      right
      change -1 * m.1 * rs = _
      ring

/-- The draws move no price by two thirds. -/
structure SynthDraws.Calm (d : SynthDraws ℚ) (rs : ℚ) : Prop where
  move : ∀ i, |d.move i| * rs < 2 / 3
  anomalyMove : ∀ j, 8 / 100 * |d.anomalyMove j| * rs < 2 / 3

theorem SynthDraws.Calm.moves {d : SynthDraws ℚ} (h : d.Calm rs) (hrs : 0 ≤ rs)
    (hfloor : 2 / 10 * rs < 2 / 3) {isAnomaly : List Bool} {m : ℚ × ℚ}
    (hm : m ∈ (moveColumn isAnomaly d).zip (retColumn isAnomaly d rs)) :
    max m.1 (2 / 10) * rs < 2 / 3 ∧ -(max m.1 (2 / 10) * rs) ≤ m.2 := by
  obtain ⟨hmem, hret⟩ := mem_moves hm
  have hmove : 0 ≤ m.1 ∧ m.1 * rs < 2 / 3 := by
    rcases IndexArrays.mem_assignMasked hmem with hmem | hmem
    · obtain ⟨i, -, hi⟩ := List.mem_map.mp hmem
      rw [← hi]
      exact ⟨abs_nonneg _, h.move i⟩
    · obtain ⟨j, -, hj⟩ := List.mem_map.mp hmem
      rw [← hj]
      exact ⟨mul_nonneg (show (0 : ℚ) ≤ 8 / 100 by norm_num) (abs_nonneg _), h.anomalyMove j⟩
  have hle : m.1 * rs ≤ max m.1 (2 / 10) * rs := mul_le_mul_of_nonneg_right (le_max_left _ _) hrs
  have hpos : 0 ≤ m.1 * rs := mul_nonneg hmove.1 hrs
  refine ⟨?_, ?_⟩
  · rw [max_mul_of_nonneg _ _ hrs]
    exact max_lt hmove.2 hfloor
  · rcases hret with hret | hret <;> rw [hret] <;> linarith

/-- In exact arithmetic, with an exponential above its tangent, draws that move no price by two
thirds make a rule-clean file, as long as the volumes fit in 64 bits. Of the cast it is asked that
it takes no number from 1 up to there to zero. -/
theorem calm_draws_silent {p : SynthParams ℚ} {d : SynthDraws ℚ} {n : Nat} {sb : SynthBars ℚ}
    (h : Generated fn p d n sb) (hexp : ∀ x, 1 + x ≤ fn.exp x)
    (hmaximum : ∀ x, 1 ≤ fn.maximum x 1)
    (hcast : ∀ x, 1 ≤ x → x < 2 ^ 64 → fn.toUInt64 x ≠ 0) (hp0 : 0 < p.p0)
    (hscale : 0 ≤ p.retScale) (hfloor : 2 / 10 * p.retScale < 2 / 3) (hcalm : d.Calm p.retScale)
    (hvolume : ∀ x ∈ volumeColumn sb.isAnomaly d fn p, x < 2 ^ 64) (hn : 0 < n)
    (hfits : baseNs.toNat + n * barNs.toNat ≤ 2 ^ 64) {toBits : ℚ → DoubleBits}
    {ofBits : DoubleBits → ℚ} (hbits : ∀ x ∈ sb.prices, ofBits (toBits x) = x) {symbol : String}
    {ticker : List UInt8} (hticker : encodeAscii symbol = .ok ticker) (clock : Nat → UInt64)
    (path : String) (passes : UInt64) :
    ∃ arr bytes b hist checksum, sb.records toBits symbol = .ok arr ∧
      writeReplay arr = .ok bytes ∧
      replayBench ofBits clock path (some bytes) passes =
        .ok (.report (UInt64.ofNat n) passes b hist checksum) ∧ cppViolations b = 0 := by
  obtain ⟨isAnomaly, hsb, hshaped⟩ := h.shaped
  obtain ⟨arr, bytes, b, hist, checksum, hrecords, hwrite, hreport, hsilent⟩ :=
    hshaped.bench ticker hscale hp0 hn hfits hbits hticker clock path passes
  refine ⟨arr, bytes, b, hist, checksum, hrecords, hwrite, hreport, hsilent.mpr ⟨?_, ?_⟩⟩
  · rw [hshaped.low, List.forall_mem_map]
    exact (low_priceLoop_pos hexp hp0 fun m hm => hcalm.moves hscale hfloor hm).2
  · subst hsb
    intro v hv
    obtain ⟨x, hx, rfl⟩ := List.mem_map.mp hv
    obtain ⟨l, -, rfl⟩ := List.mem_map.mp hx
    exact hcast _ (hmaximum _) (hvolume _ hx)

def calmFns : SynthFns ℚ where
  exp x := max (1 + x) (1 / 4)
  round x := x
  maximum := max
  toUInt64 x := UInt64.ofNat ⌊x⌋₊
  toNat x := ⌊x⌋₊

theorem calmFns_cast {x : ℚ} (h1 : 1 ≤ x) (h64 : x < 2 ^ 64) : calmFns.toUInt64 x ≠ 0 := by
  have hpos : 1 ≤ ⌊x⌋₊ := Nat.le_floor (by exact_mod_cast h1)
  have hlt : ⌊x⌋₊ < 2 ^ 64 := (Nat.floor_lt (by linarith)).mpr (by exact_mod_cast h64)
  intro hzero
  have hnat := congrArg UInt64.toNat hzero
  rw [show calmFns.toUInt64 x = UInt64.ofNat ⌊x⌋₊ from rfl, UInt64.toNat_ofNat_of_lt' hlt] at hnat
  simp only [UInt64.toNat_zero] at hnat
  omega

def calmParams : SynthParams ℚ := ⟨100, 1 / 8, 0, 0⟩

/-- Prices that fall, but for the second bar. -/
def fallingDraws : SynthDraws ℚ := ⟨fun _ => 1, fun _ => 1, fun _ => 1, fun i => i = 1, fun _ => 0⟩

/-- Three bars without an anomaly. -/
def calmBars : SynthBars ℚ := generate calmFns 3 0 0 calmParams fallingDraws

theorem calm_draws_silent_threeBars :
    ∃ arr bytes b hist checksum,
      calmBars.records (fun x => UInt64.ofNat (x * 2 ^ 20).floor.toNat) "SYNTH" = .ok arr ∧
      writeReplay arr = .ok bytes ∧
      replayBench (fun w => (w.toNat : ℚ) / 2 ^ 20) UInt64.ofNat "synth.bin" (some bytes) 1 =
        .ok (.report (UInt64.ofNat 3) 1 b hist checksum) ∧ cppViolations b = 0 := by
  have hgenerated : Generated calmFns calmParams fallingDraws 3 calmBars := .burst 0 0
  have hcalm : fallingDraws.Calm calmParams.retScale :=
    ⟨fun _ => by simp only [fallingDraws, calmParams]; norm_num,
      fun _ => by simp only [fallingDraws, calmParams]; norm_num⟩
  exact calm_draws_silent hgenerated (fun x => le_max_left _ _) (fun x => le_max_right _ _)
    (fun x => calmFns_cast) (by decide +kernel) (by decide +kernel) (by decide +kernel) hcalm
    (by decide +kernel) (by decide) (by decide) (by decide +kernel) encodeAscii_synth UInt64.ofNat
    "synth.bin" 1

end Exact

end Ml

end OhlcvValidator
