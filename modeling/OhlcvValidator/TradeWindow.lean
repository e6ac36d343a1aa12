import OhlcvValidator.ValidatorIsolation

namespace OhlcvValidator

namespace Validator

/-- The first, highest, lowest and last of a list of prices. -/
structure Ohlc (prices : List ℚ) (first high low last : ℚ) : Prop where
  head_eq : prices.head? = some first
  max_eq : prices.max? = some high
  min_eq : prices.min? = some low
  last_eq : prices.getLast? = some last

theorem Ohlc.singleton (price : ℚ) : Ohlc [price] price price price price :=
  ⟨rfl, rfl, rfl, rfl⟩

theorem Ohlc.concat {prices : List ℚ} {first high low last : ℚ}
    (h : Ohlc prices first high low last) (price : ℚ) :
    Ohlc (prices ++ [price]) first (max high price) (min low price) price := by
  obtain ⟨hhead, hmax, hmin, _⟩ := h
  cases prices with
  | nil => simp at hhead
  | cons p ps =>
    rw [List.max?_cons'] at hmax
    rw [List.min?_cons'] at hmin
    refine ⟨hhead, ?_, ?_, List.getLast?_concat ..⟩
    · rw [List.cons_append, List.max?_cons', List.foldl_append, Option.some.inj hmax]
      rfl
    · rw [List.cons_append, List.min?_cons', List.foldl_append, Option.some.inj hmin]
      rfl

theorem Ohlc.mem_bounds {prices : List ℚ} {first high low last : ℚ}
    (h : Ohlc prices first high low last) :
    (∀ p ∈ prices, low ≤ p ∧ p ≤ high) ∧ first ∈ prices ∧ low ∈ prices ∧ high ∈ prices ∧
      last ∈ prices := by
  obtain ⟨hmax, hmaxle⟩ := List.max?_eq_some_iff.mp h.max_eq
  obtain ⟨hmin, hminle⟩ := List.min?_eq_some_iff.mp h.min_eq
  exact ⟨fun p hp => ⟨hminle p hp, hmaxle p hp⟩, List.mem_of_head? h.head_eq, hmin, hmax,
    List.mem_of_getLast? h.last_eq⟩

def isBarOf (symbol : Symbol) : WireRecord ℚ → Bool
  | .bar b => b.symbol = symbol
  | _ => false

def validTradeOf (symbol : Symbol) : WireRecord ℚ → Option (WireTrade ℚ)
  | .trade t => if t.symbol = symbol ∧ 0 < t.price ∧ t.size ≠ 0 then some t else none
  | _ => none

/-- The symbol's trades with a positive price and a size since its last bar. -/
def window (symbol : Symbol) (recs : List (WireRecord ℚ)) : List (WireTrade ℚ) :=
  (recs.rtakeWhile fun rec => !isBarOf symbol rec).filterMap (validTradeOf symbol)

def totalSize (trades : List (WireTrade ℚ)) : Nat :=
  (trades.map fun t => t.size.toNat).sum

def turnover (trades : List (WireTrade ℚ)) : ℚ :=
  (trades.map fun t => t.price * (t.size.toNat : ℚ)).sum

/-- The mean price of the trades, weighted by their sizes. -/
def meanPrice (trades : List (WireTrade ℚ)) : ℚ :=
  turnover trades / totalSize trades

/-- Trades within a price range have their turnover in the range. -/
theorem turnover_mem {trades : List (WireTrade ℚ)} {low high : ℚ}
    (h : ∀ t ∈ trades, low ≤ t.price ∧ t.price ≤ high) :
    low * totalSize trades ≤ turnover trades ∧ turnover trades ≤ high * totalSize trades := by
  induction trades with
  | nil => simp [totalSize, turnover]
  | cons t trades ih =>
    obtain ⟨hlow, hhigh⟩ := h t (by simp)
    obtain ⟨ihlow, ihhigh⟩ := ih fun u hu => h u (by simp [hu])
    have hsize : (0 : ℚ) ≤ t.size.toNat := Nat.cast_nonneg _
    have hlowt := mul_le_mul_of_nonneg_right hlow hsize
    have hhight := mul_le_mul_of_nonneg_right hhigh hsize
    simp only [totalSize, turnover, List.map_cons, List.sum_cons, Nat.cast_add] at ihlow ihhigh ⊢
    constructor <;> nlinarith

theorem meanPrice_mem {trades : List (WireTrade ℚ)} {low high : ℚ}
    (h : ∀ t ∈ trades, low ≤ t.price ∧ t.price ≤ high) (hpos : 0 < totalSize trades) :
    low ≤ meanPrice trades ∧ meanPrice trades ≤ high := by
  have hcast : (0 : ℚ) < totalSize trades := Nat.cast_pos.mpr hpos
  obtain ⟨hlow, hhigh⟩ := turnover_mem h
  exact ⟨(le_div_iff₀ hcast).mpr hlow, (div_le_iff₀ hcast).mpr hhigh⟩

theorem window_concat (symbol : Symbol) (recs : List (WireRecord ℚ)) (rec : WireRecord ℚ) :
    window symbol (recs ++ [rec]) =
      if isBarOf symbol rec then [] else window symbol recs ++ (validTradeOf symbol rec).toList := by
  unfold window
  rw [List.rtakeWhile_concat]
  cases hbar : isBarOf symbol rec with
  | true => simp
  | false =>
    cases htrade : validTradeOf symbol rec with
    | none => simp [htrade]
    | some t => simp [htrade]

theorem window_filter (symbol : Symbol) (recs : List (WireRecord ℚ)) :
    window symbol (recs.filter fun rec => rec.symbol = symbol) = window symbol recs := by
  induction recs using List.reverseRecOn with
  | nil => rfl
  | append_singleton recs rec ih =>
    by_cases hs : rec.symbol = symbol
    · have hfilter : (recs ++ [rec]).filter (fun r => r.symbol = symbol) =
          recs.filter (fun r => r.symbol = symbol) ++ [rec] := by simp [hs]
      rw [hfilter, window_concat, window_concat, ih]
    · have hfilter : (recs ++ [rec]).filter (fun r => r.symbol = symbol) =
          recs.filter (fun r => r.symbol = symbol) := by simp [hs]
      have hbar : isBarOf symbol rec = false := by
        cases rec <;> simp_all [isBarOf, WireRecord.symbol]
      have htrade : validTradeOf symbol rec = none := by
        cases rec <;> simp_all [validTradeOf, WireRecord.symbol]
      rw [hfilter, ih, window_concat, hbar, htrade]
      simp

theorem size_ne_zero_of_mem_window {symbol : Symbol} {recs : List (WireRecord ℚ)}
    {t : WireTrade ℚ} (h : t ∈ window symbol recs) : t.size ≠ 0 := by
  obtain ⟨rec, _, hrec⟩ := List.mem_filterMap.mp h
  unfold validTradeOf at hrec
  split at hrec
  next =>
    split at hrec
    next hvalid =>
      cases Option.some.inj hrec
      exact hvalid.2.2
    next => simp at hrec
  next => simp at hrec

/-- There are at most as many trades as units traded. -/
theorem length_window_le (symbol : Symbol) (recs : List (WireRecord ℚ)) :
    (window symbol recs).length ≤ totalSize (window symbol recs) := by
  have hone : ∀ n ∈ (window symbol recs).map (fun t => t.size.toNat), 1 ≤ n := by
    intro n hn
    obtain ⟨t, ht, rfl⟩ := List.mem_map.mp hn
    have hpos : t.size.toNat ≠ 0 := fun h =>
      size_ne_zero_of_mem_window ht (UInt64.toNat_inj.mp h)
    omega
  have := List.length_le_sum_of_one_le _ hone
  rwa [List.length_map] at this

/-- The slot's accumulator holds the aggregates of the trades, the integers modulo 2⁶⁴. -/
structure Accumulates (s : Slot ℚ) (trades : List (WireTrade ℚ)) : Prop where
  hasTrades_eq : s.hasTrades = !trades.isEmpty
  accCount_eq : s.accCount = UInt64.ofNat trades.length
  accVolume_eq : s.accVolume = UInt64.ofNat (totalSize trades)
  accPv_eq : s.accPv = turnover trades
  ohlc : trades ≠ [] →
    Ohlc (trades.map WireTrade.price) s.accOpen s.accHigh s.accLow s.accClose

theorem accumulates_fresh (k : UInt64) : Accumulates { key := k } [] :=
  ⟨rfl, rfl, rfl, rfl, fun h => absurd rfl h⟩

section Step

variable {s : Slot ℚ} {trades : List (WireTrade ℚ)}

theorem Accumulates.checkSequencing (h : Accumulates s trades) (stream : Stream)
    (ts seq : UInt64) (r : Result) :
    Accumulates (checkSequencing s stream ts seq r).1 trades :=
  { h with }

theorem Accumulates.checkPriceBand (h : Accumulates s trades) (price : ℚ) (r : Result) :
    Accumulates (checkPriceBand s price r).1 trades := by
  unfold Validator.checkPriceBand
  split
  next => exact { h with }
  next =>
    split
    next =>
      dsimp only
      split <;> exact { h with }
    next => exact { h with }

theorem Accumulates.accumulate (h : Accumulates s trades) (t : WireTrade ℚ) :
    Accumulates (accumulate s t.price t.size) (trades ++ [t]) := by
  have hcount : s.accCount + 1 = UInt64.ofNat (trades ++ [t]).length := by
    rw [h.accCount_eq, List.length_append, UInt64.ofNat_add]
    rfl
  have hvolume : s.accVolume + t.size = UInt64.ofNat (totalSize (trades ++ [t])) := by
    simp [h.accVolume_eq, totalSize, UInt64.ofNat_add]
  have hpv : s.accPv + t.price * PriceArith.ofUInt64 t.size = turnover (trades ++ [t]) := by
    simp [h.accPv_eq, turnover, PriceArith.ofUInt64]
  unfold Validator.accumulate
  cases trades with
  | nil =>
    rw [if_pos (by simp [h.hasTrades_eq])]
    exact ⟨rfl, hcount, hvolume, hpv, fun _ => Ohlc.singleton t.price⟩
  | cons first rest =>
    rw [if_neg (by simp [h.hasTrades_eq])]
    refine ⟨by simp [h.hasTrades_eq], hcount, hvolume, hpv, fun _ => ?_⟩
    have hhigh : (if PriceArith.lt s.accHigh t.price then t.price else s.accHigh) =
        max s.accHigh t.price := by
      simp only [PriceArith.lt, decide_eq_true_eq]
      grind
    have hlow : (if PriceArith.lt t.price s.accLow then t.price else s.accLow) =
        min s.accLow t.price := by
      simp only [PriceArith.lt, decide_eq_true_eq]
      grind
    have hnext := (h.ohlc (by simp)).concat t.price
    rw [← hhigh, ← hlow] at hnext
    rw [List.map_append]
    exact hnext

theorem Accumulates.reconcile (h : Accumulates s trades) (b : WireBar ℚ) (r : Result) :
    Accumulates (reconcile s b r).1 [] := by
  unfold Validator.reconcile
  cases trades with
  | nil =>
    rw [if_pos (by simp [h.hasTrades_eq])]
    exact h
  | cons first rest =>
    rw [if_neg (by simp [h.hasTrades_eq])]
    exact ⟨rfl, rfl, rfl, rfl, fun hne => absurd rfl hne⟩

/-- One record of the symbol moves the accumulator as it moves the window. -/
theorem Accumulates.stateful (h : Accumulates s trades) (rec : WireRecord ℚ) (r : Result) :
    Accumulates (stateful rec s r).1
      (if isBarOf rec.symbol rec then [] else trades ++ (validTradeOf rec.symbol rec).toList) := by
  cases rec with
  | bar b =>
    have hreset := (h.checkSequencing .bar b.startNs b.seq r).reconcile b
      (Validator.checkSequencing s .bar b.startNs b.seq r).2
    simpa [isBarOf, WireRecord.symbol, Validator.stateful, barState] using hreset
  | quote q =>
    have hseq := h.checkSequencing .quote q.tsNs q.seq r
    have hsame : (quoteState q s r).1 = (Validator.checkSequencing s .quote q.tsNs q.seq r).1 := by
      unfold quoteState
      dsimp only
      split <;> rfl
    simpa [isBarOf, validTradeOf, Validator.stateful, hsame] using hseq
  | trade t =>
    have hseq := h.checkSequencing .trade t.tsNs t.seq r
    show Accumulates (tradeState t s r).1 (trades ++ (validTradeOf t.symbol (.trade t)).toList)
    have hvalid : (validPrice t && validSize t) = true ↔ 0 < t.price ∧ t.size ≠ 0 := by
      simp [validPrice, validSize, PriceArith.lt, PriceArith.lit]
    unfold tradeState validTradeOf
    dsimp only
    by_cases hv : 0 < t.price ∧ t.size ≠ 0
    · rw [if_pos (hvalid.mpr hv), if_pos ⟨rfl, hv⟩]
      exact (hseq.accumulate t).checkPriceBand t.price _
    · rw [if_neg (fun hb => hv (hvalid.mp hb)), if_neg (fun hb => hv hb.2)]
      simpa using hseq

end Step

/-- The accumulator after all records of one symbol. -/
theorem accumulates_solo {symbol : Symbol} (k : UInt64) {own : List (WireRecord ℚ)}
    (hall : ∀ rec ∈ own, rec.symbol = symbol) :
    Accumulates (solo k own).1 (window symbol own) := by
  induction own using List.reverseRecOn with
  | nil => exact accumulates_fresh k
  | append_singleton own rec ih =>
    have hown := ih fun rec hrec => hall rec (by simp [hrec])
    have hstep := hown.stateful rec (statelessFlags rec)
    rw [hall rec (by simp)] at hstep
    rw [solo_concat, window_concat]
    exact hstep

/-- Whatever else is in the stream, a symbol's slot accumulates its window. -/
theorem accumulates_run {symbol : Symbol} {recs : List (WireRecord ℚ)}
    (h : symbolKey symbol ∈ firstDistinct kCapacity (keysOf recs) ∨
      symbolKey symbol ∉ keysOf recs) :
    Accumulates ((Roster.run recs).1.slots (symbolKey symbol)) (window symbol recs) := by
  have hsolo := accumulates_solo (symbolKey symbol) (symbol_of_mem_filter symbol recs)
  rw [window_filter] at hsolo
  rwa [(slots_run h).1]

end Validator

end OhlcvValidator
