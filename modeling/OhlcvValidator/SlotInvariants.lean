import OhlcvValidator.PriceBand

namespace OhlcvValidator

namespace Validator

/-- What a slot knows of the price of a symbol whose valid trades had these prices. -/
structure BandSound (s : Slot ℚ) (prices : List ℚ) : Prop where
  breachRun_lt : s.breachRun < kBandReanchorRun
  refPrice_pos : s.refInit = true → 0 < s.refPrice
  refPrice_mem : s.refInit = true → ∃ lo hi, prices.min? = some lo ∧ prices.max? = some hi ∧
    lo ≤ s.refPrice ∧ s.refPrice ≤ hi

/-- What a slot has accumulated since the last bar of its symbol. -/
structure WindowSound (s : Slot ℚ) : Prop where
  accCount_pos : s.hasTrades = true → 1 ≤ s.accCount
  accCount_le : s.hasTrades = true → s.accCount ≤ s.accVolume
  accOpen_mem : s.hasTrades = true → s.accLow ≤ s.accOpen ∧ s.accOpen ≤ s.accHigh
  accClose_mem : s.hasTrades = true → s.accLow ≤ s.accClose ∧ s.accClose ≤ s.accHigh
  accPv_mem : s.hasTrades = true →
    s.accLow * PriceArith.ofUInt64 s.accVolume ≤ s.accPv ∧
      s.accPv ≤ s.accHigh * PriceArith.ofUInt64 s.accVolume
  vwap_mem : s.hasTrades = true → 0 < (PriceArith.ofUInt64 s.accVolume : ℚ) ∧
    s.accLow ≤ s.accPv / PriceArith.ofUInt64 s.accVolume ∧
      s.accPv / PriceArith.ofUInt64 s.accVolume ≤ s.accHigh
  idle : s.hasTrades = false → s.accCount = 0 ∧ s.accVolume = 0 ∧ s.accPv = 0

section Band

/-- The reference of a symbol is spanned by the prices of its valid trades. -/
theorem spanned_bandAfter (own : List (WireRecord ℚ)) :
    BandRule.Spanned (own.filterMap validTradePrice) (bandAfter own) := by
  induction own using List.reverseRecOn with
  | nil => exact BandRule.spanned_fresh
  | append_singleton own rec ih =>
    rw [bandAfter_concat, List.filterMap_append]
    cases hprice : validTradePrice rec with
    | none =>
      rw [(bandStep_of_none hprice _).1]
      simpa [hprice] using ih
    | some p =>
      rw [(bandStep_of_price hprice _).1]
      simpa [hprice] using ih.step p

theorem pos_of_mem_tradePrices {symbol : Symbol} {recs : List (WireRecord ℚ)} {p : ℚ}
    (h : p ∈ tradePrices symbol recs) : 0 < p := by
  obtain ⟨rec, _, hrec⟩ := List.mem_filterMap.mp h
  exact pos_of_validTradePrice hrec

theorem bandSound_of_bandAfter {s : Slot ℚ} {symbol : Symbol} {recs : List (WireRecord ℚ)}
    (hband : s.band = bandAfter (recs.filter fun q => q.symbol = symbol)) :
    BandSound s (tradePrices symbol recs) := by
  have hsound := sound_bandAfter (recs.filter fun q => q.symbol = symbol)
  have hspan := spanned_bandAfter (recs.filter fun q => q.symbol = symbol)
  rw [← hband] at hsound hspan
  have href : s.refInit = true → s.band.ref = some s.refPrice := by
    intro hinit
    simp [Slot.band, hinit]
  refine ⟨UInt32.lt_iff_toNat_lt.mpr hsound.waits, ?_, ?_⟩
  · intro hinit
    obtain ⟨⟨lo, hlo, hle⟩, _⟩ := hspan s.refPrice (href hinit)
    exact (pos_of_mem_tradePrices hlo).trans_le hle
  · intro hinit
    obtain ⟨⟨lo, hlo, hlor⟩, hi, hhi, hrhi⟩ := hspan s.refPrice (href hinit)
    have hne := List.ne_nil_of_mem hlo
    refine ⟨_, _, List.min?_eq_some_min hne, List.max?_eq_some_max hne, ?_, ?_⟩
    · exact (List.min_le_of_mem hlo).trans hlor
    · exact hrhi.trans (List.le_max_of_mem hhi)

end Band

section Window

variable {s : Slot ℚ} {symbol : Symbol} {recs : List (WireRecord ℚ)}

theorem window_ne_nil (h : Accumulates s (window symbol recs)) (htrades : s.hasTrades = true) :
    window symbol recs ≠ [] := by
  intro hnil
  simp [h.hasTrades_eq, hnil] at htrades

/-- A window of less than 2⁶⁴ units is accumulated without overflow. -/
theorem windowSound_of_accumulates (h : Accumulates s (window symbol recs))
    (hsize : totalSize (window symbol recs) < 2 ^ 64) : WindowSound s := by
  have hlen := length_window_le symbol recs
  have hcount : s.accCount.toNat = (window symbol recs).length := by
    rw [h.accCount_eq, UInt64.toNat_ofNat_of_lt' (hlen.trans_lt hsize)]
  have hvolume : s.accVolume.toNat = totalSize (window symbol recs) := by
    rw [h.accVolume_eq, UInt64.toNat_ofNat_of_lt' hsize]
  have hcast : (PriceArith.ofUInt64 s.accVolume : ℚ) = totalSize (window symbol recs) := by
    rw [← hvolume]
    rfl
  have hbounds : s.hasTrades = true →
      ∀ t ∈ window symbol recs, s.accLow ≤ t.price ∧ t.price ≤ s.accHigh := by
    intro htrades t ht
    exact (h.ohlc (window_ne_nil h htrades)).mem_bounds.1 t.price (List.mem_map_of_mem ht)
  constructor
  case accCount_pos =>
    intro htrades
    rw [UInt64.le_iff_toNat_le, hcount]
    exact List.length_pos_iff.mpr (window_ne_nil h htrades)
  case accCount_le =>
    intro _
    rwa [UInt64.le_iff_toNat_le, hcount, hvolume]
  case accOpen_mem =>
    intro htrades
    obtain ⟨hmem, hopen, _⟩ := (h.ohlc (window_ne_nil h htrades)).mem_bounds
    exact hmem _ hopen
  case accClose_mem =>
    intro htrades
    obtain ⟨hmem, _, _, _, hclose⟩ := (h.ohlc (window_ne_nil h htrades)).mem_bounds
    exact hmem _ hclose
  case accPv_mem =>
    intro htrades
    rw [hcast, h.accPv_eq]
    exact turnover_mem (hbounds htrades)
  case vwap_mem =>
    intro htrades
    have hpos := (List.length_pos_iff.mpr (window_ne_nil h htrades)).trans_le hlen
    rw [hcast, h.accPv_eq]
    exact ⟨Nat.cast_pos.mpr hpos, meanPrice_mem (hbounds htrades) hpos⟩
  case idle =>
    intro hidle
    have hnil : window symbol recs = [] := by simpa [hidle] using h.hasTrades_eq
    rw [h.accCount_eq, h.accVolume_eq, h.accPv_eq, hnil]
    exact ⟨rfl, rfl, rfl⟩

end Window

/-- A slot in use belongs to a symbol of the stream and is what that symbol's records left. -/
theorem exists_symbol_of_seen {recs : List (WireRecord ℚ)} {i : Fin kCapacity}
    (h : ((run recs).1.table i).seen = true) :
    ∃ symbol, symbolKey symbol = ((run recs).1.table i).key ∧
      symbolKey symbol ∈ firstDistinct kCapacity (keysOf recs) ∧
      (Roster.run recs).1.slots (symbolKey symbol) = (run recs).1.table i := by
  have hholds := (holds_run recs).1
  have hkey := (hholds.mem_keys _).mpr ⟨i, held_eq_some.mpr ⟨h, rfl⟩⟩
  rw [keys_run] at hkey
  have hmem : ((run recs).1.table i).key ∈ keysOf recs :=
    List.mem_eraseDups.mp (List.mem_of_mem_take hkey)
  obtain ⟨rec, _, hrec⟩ := List.mem_map.mp hmem
  refine ⟨rec.symbol, hrec, ?_, ?_⟩
  · rwa [hrec]
  · rw [hrec]
    exact hholds.slots_eq i h

/-- A slot that was never claimed has no price and no trades. -/
theorem sound_unclaimed (prices : List ℚ) :
    BandSound ({} : Slot ℚ) prices ∧ WindowSound ({} : Slot ℚ) := by
  constructor <;> constructor <;> simp [kBandReanchorRun, PriceArith.lit]

/-- Every slot of every reachable table is sound for the symbol that its key encodes. -/
theorem slots_sound {recs : List (WireRecord ℚ)}
    (hsize : ∀ symbol, totalSize (window symbol recs) < 2 ^ 64) (i : Fin kCapacity) :
    ∃ symbol, symbolKey symbol = ((run recs).1.table i).key ∧
      BandSound ((run recs).1.table i) (tradePrices symbol recs) ∧
      WindowSound ((run recs).1.table i) := by
  cases hseen : ((run recs).1.table i).seen with
  | true =>
    obtain ⟨symbol, hkey, hmem, hslot⟩ := exists_symbol_of_seen hseen
    refine ⟨symbol, hkey, ?_⟩
    have hacc := accumulates_run (Or.inl hmem)
    have hband := solo_band (symbolKey symbol) (recs.filter fun q => q.symbol = symbol)
    rw [← (slots_run (Or.inl hmem)).1] at hband
    rw [hslot] at hacc hband
    exact ⟨bandSound_of_bandAfter hband, windowSound_of_accumulates hacc (hsize symbol)⟩
  | false =>
    rw [(holds_run recs).1.unseen i hseen]
    exact ⟨Vector.replicate kSymbolLen 0, by decide +kernel, sound_unclaimed _⟩

/-- Two trades, of which the second is outside the band of the first. -/
theorem slots_sound_twoTrades :
    let x : Symbol := Vector.replicate kSymbolLen 88
    let recs : List (WireRecord ℚ) := [.trade ⟨x, 1, 1, 10, 2⟩, .trade ⟨x, 2, 2, 12, 1⟩]
    let s := (run recs).1.table (homeSlot (symbolKey x))
    s.refInit = true ∧ s.breachRun = 1 ∧ s.hasTrades = true ∧
      ∃ symbol, symbolKey symbol = s.key ∧ BandSound s (tradePrices symbol recs) ∧
        WindowSound s := by
  intro x recs s
  have hsize : ∀ symbol, totalSize (window symbol recs) < 2 ^ 64 := by
    intro symbol
    by_cases hx : symbol = x
    · subst hx
      decide +kernel
    · have hnone : recs.filter (fun rec => rec.symbol = symbol) = [] := by
        simp [recs, WireRecord.symbol, Ne.symm hx]
      rw [← window_filter, hnone]
      simp [window, totalSize]
  exact ⟨by decide +kernel, by decide +kernel, by decide +kernel, slots_sound hsize _⟩

end Validator

end OhlcvValidator
