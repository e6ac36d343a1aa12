import OhlcvValidator.GenRun
import OhlcvValidator.OrderedUpdate

namespace OhlcvValidator

namespace GenDataset

open Validator (lastStamp lastSeqOf Skips approxEqual Reconstructs)

section Sequencing

variable {d : Draws} {symCount : Nat} {pre : List Emitted} {e : Emitted}

/-- The last timestamp of a stream is one of its records'. -/
theorem lastStamp_cases (stream : Validator.Stream) (own : List (WireRecord ℚ)) :
    (lastStamp stream own = 0 ∧ ∀ r ∈ own, r.stream ≠ stream) ∨
      ∃ r ∈ own, lastStamp stream own = r.stamp := by
  unfold lastStamp
  cases hlast : (own.filter fun r => r.stream = stream).getLast? with
  | none =>
    left
    refine ⟨rfl, ?_⟩
    intro r hr hs
    have hnil := List.getLast?_eq_none_iff.mp hlast
    exact List.filter_eq_nil_iff.mp hnil r hr (by simpa using hs)
  | some r =>
    right
    exact ⟨r, (List.mem_filter.mp (List.mem_of_getLast? hlast)).1, rfl⟩

/-- Until the clock wraps, time runs backwards exactly where it was set back behind the
symbol's last trade. -/
theorem Explained.regresses_iff (h : Explained d symCount pre e)
    (hclock : clock (e.window % symCount) ((ownOf (e.window % symCount) pre).length + 1) < 2 ^ 64) :
    (lastStamp e.record.stream (ownOf (e.window % symCount) pre) ≠ 0 ∧
        e.record.stamp < lastStamp e.record.stream (ownOf (e.window % symCount) pre)) ↔
      e.first = true ∧ e.defect = .tsRegress ∧ symCount ≤ e.window := by
  have hstamp := h.stamp_eq
  have hstamps := h.stamps
  have hopening := h.opening
  generalize ownOf (e.window % symCount) pre = own at *
  rw [clock_succ] at hclock hstamp
  have hbase : 1700000000000000000 ≤ clock (e.window % symCount) own.length := by
    unfold clock
    omega
  by_cases hback : e.first = true ∧ e.defect = .tsRegress
  · have hset : setBack e = 5000000 := by simp [setBack, hback]
    obtain ⟨hstream, hfresh, hlast⟩ := hopening hback.1
    rw [hstream]
    rcases Nat.lt_or_ge e.window symCount with hlt | hge
    · rw [hfresh hlt]
      simp [lastStamp, hlt]
    · rw [hlast hge, hstamp, hset, UInt64.lt_iff_toNat_lt, ← UInt64.toNat_inj.ne,
        UInt64.toNat_ofNat_of_lt' (show _ < 2 ^ 64 by omega),
        UInt64.toNat_ofNat_of_lt' (show _ < 2 ^ 64 by omega)]
      refine iff_of_true ⟨?_, by omega⟩ ⟨hback.1, hback.2, hge⟩
      change clock (e.window % symCount) own.length - 3000000 ≠ 0
      omega
  · have hset : setBack e = 0 := by simp [setBack, hback]
    refine iff_of_false ?_ fun hall => hback ⟨hall.1, hall.2.1⟩
    rintro ⟨hne, hlt⟩
    rcases lastStamp_cases e.record.stream own with ⟨hzero, -⟩ | ⟨r, hr, hlast⟩
    · exact hne hzero
    · obtain ⟨m, -, hm, hrm⟩ := hstamps r hr
      rw [hlast, hrm, hstamp, hset, UInt64.ofNat_lt_iff_lt (show _ < 2 ^ 64 by omega)
        (show _ < 2 ^ 64 by omega)] at hlt
      omega

theorem dropped_pos_iff (e : Emitted) : 0 < dropped e ↔ e.first = true ∧ e.defect = .seqGap := by
  unfold dropped
  split
  next h => exact iff_of_true (by decide) h
  next h => exact iff_of_false (by decide) h

/-- Messages are missed exactly where they were dropped, three of them. -/
theorem Explained.skips_iff (h : Explained d symCount pre e)
    (hclock : clock (e.window % symCount) ((ownOf (e.window % symCount) pre).length + 1) < 2 ^ 64) :
    (Skips (ownOf (e.window % symCount) pre) e.record ↔
      e.first = true ∧ e.defect = .seqGap ∧ symCount ≤ e.window) ∧
    (Skips (ownOf (e.window % symCount) pre) e.record →
      e.record.seq - lastSeqOf (ownOf (e.window % symCount) pre) - 1 = 3) := by
  obtain ⟨q, hq, hlast, hseq⟩ := h.seq_eq
  have hseen := h.seen
  have hopening := h.opening
  have hdrop := dropped_le e
  generalize ownOf (e.window % symCount) pre = own at *
  have hsmall : q + 4 < 2 ^ 64 := by
    unfold clock at hclock
    omega
  have hskips : Skips own e.record ↔ own ≠ [] ∧ 0 < dropped e := by
    unfold Skips
    refine and_congr_right fun hne => ?_
    have hsucc : UInt64.ofNat q + 1 = UInt64.ofNat (q + 1) := by
      rw [UInt64.ofNat_add]
      rfl
    rw [hlast hne, hsucc, hseq, UInt64.ofNat_lt_iff_lt (show _ < 2 ^ 64 by omega)
      (show _ < 2 ^ 64 by omega)]
    omega
  refine ⟨?_, ?_⟩
  · rw [hskips, dropped_pos_iff]
    constructor
    · rintro ⟨hne, hfirst, hdefect⟩
      refine ⟨hfirst, hdefect, ?_⟩
      by_contra hlt
      exact hne ((hopening hfirst).2.1 (by omega))
    · rintro ⟨hfirst, hdefect, hge⟩
      obtain ⟨r, hr, -⟩ := hseen hge .trade
      exact ⟨List.ne_nil_of_mem hr, hfirst, hdefect⟩
  · intro hs
    obtain ⟨hne, hpos⟩ := hskips.mp hs
    have hthree : dropped e = 3 := by simp [dropped, (dropped_pos_iff e).mp hpos]
    rw [hlast hne, hseq, hthree, show q + 1 + 3 = q + 4 by omega, UInt64.ofNat_add,
      UInt64.add_comm, UInt64.add_sub_cancel]
    rfl

end Sequencing

section Reconciliation

theorem approxEqual_iff (a b : ℚ) :
    approxEqual a b = true ↔ |a - b| ≤ 1 / 1000000 * max (max |a| |b|) 1 := by
  simp [approxEqual, PriceArith.le, PriceArith.fabs, PriceArith.fmax, PriceArith.lit,
    Validator.kPriceRelTol]

theorem approxEqual_self (a : ℚ) : approxEqual a a = true := by
  rw [approxEqual_iff, sub_self, abs_zero]
  positivity

/-- Prices below 2·10⁶ that are 5 apart are told apart. -/
theorem approxEqual_apart {a b : ℚ} (ha : 0 ≤ a) (hb : b < 2000000) (hab : a + 5 ≤ b) :
    approxEqual a b = false := by
  rw [← Bool.not_eq_true, approxEqual_iff, not_le, abs_of_nonneg ha,
    abs_of_nonneg (show (0 : ℚ) ≤ b by linarith), max_eq_right (show a ≤ b by linarith),
    max_eq_left (show (1 : ℚ) ≤ b by linarith), abs_sub_comm, abs_of_nonneg (by linarith)]
  linarith

/-- A price from 1 on is told apart from itself and a thousandth. -/
theorem approxEqual_scaled {a : ℚ} (ha : 1 ≤ a) : approxEqual a (a * (1001 / 1000)) = false := by
  rw [← Bool.not_eq_true, approxEqual_iff, not_le, abs_of_nonneg (by linarith),
    abs_of_nonneg (show (0 : ℚ) ≤ a * (1001 / 1000) by linarith),
    max_eq_right (show a ≤ a * (1001 / 1000) by linarith),
    max_eq_left (show (1 : ℚ) ≤ a * (1001 / 1000) by linarith), abs_sub_comm,
    abs_of_nonneg (show (0 : ℚ) ≤ a * (1001 / 1000) - a by linarith)]
  linarith

variable {recs : List Emitted} {trades : List (WireTrade ℚ)} {plain : WireBar ℚ}
  {s : Validator.Slot ℚ} {r : Validator.Result}

theorem Tradable.price_lt (h : Tradable recs trades) (hpx : ∀ e ∈ recs, e.px < 1000000)
    {p : ℚ} (hp : p ∈ trades.map WireTrade.price) : 1 ≤ p ∧ p < 1600000 := by
  obtain ⟨t, ht, rfl⟩ := List.mem_map.mp hp
  obtain ⟨e, he, hle⟩ := h.price_le t ht
  have hlt := hpx e he
  exact ⟨h.price_ge t ht, by linarith⟩

/-- The validator's aggregate of the trades is the bar's own. -/
theorem Summarizes.aggregate (h : Summarizes plain trades) (hne : trades ≠ [])
    (hacc : Validator.Accumulates s trades) :
    s.accOpen = plain.openPrice ∧ s.accHigh = plain.high ∧ s.accLow = plain.low ∧
      s.accClose = plain.close := by
  have hohlc := hacc.ohlc hne
  exact ⟨Option.some.inj (hohlc.head_eq.symm.trans h.ohlc.head_eq),
    Option.some.inj (hohlc.max_eq.symm.trans h.ohlc.max_eq),
    Option.some.inj (hohlc.min_eq.symm.trans h.ohlc.min_eq),
    Option.some.inj (hohlc.last_eq.symm.trans h.ohlc.last_eq)⟩

/-- The reconciliation of a generated bar finds its defect and nothing else. -/
theorem Summarizes.reconcile_iff (h : Summarizes plain trades) (ht : Tradable recs trades)
    (hlength : trades.length ≤ 12) (hpx : ∀ e ∈ recs, e.px < 1000000)
    (hlen : trades.length ≤ Validator.totalSize trades)
    (hacc : Validator.Accumulates s trades) (hr : ∀ v, Reconstructs v → r.has v = false)
    (defect : Defect) :
    ((Validator.reconcile s (injectBar defect plain) r).2.has .barVolumeReconstructMismatch = true ↔
      defect = .reconVolume) ∧
    ((Validator.reconcile s (injectBar defect plain) r).2.has .barTradeCountReconstructMismatch =
      true ↔ defect = .reconCount) ∧
    ((Validator.reconcile s (injectBar defect plain) r).2.has .barVwapReconstructMismatch = true ↔
      defect = .reconVwap) ∧
    ((Validator.reconcile s (injectBar defect plain) r).2.has .barOhlcReconstructMismatch = true ↔
      defect = .reconOhlc ∨ defect = .band) := by
  have hne : trades ≠ [] := by
    rintro rfl
    simpa using h.ohlc.head_eq
  have hpos := List.length_pos_iff.mpr hne
  have htotal := ht.totalSize_le
  obtain ⟨hmem, -, hlow, hhigh, -⟩ := h.ohlc.mem_bounds
  obtain ⟨hlowOne, hlowLt⟩ := ht.price_lt hpx hlow
  obtain ⟨hhighOne, hhighLt⟩ := ht.price_lt hpx hhigh
  have hmean := Validator.meanPrice_mem (fun t ht => hmem t.price (List.mem_map_of_mem ht))
    (show 0 < Validator.totalSize trades by omega)
  obtain ⟨hopen, hhighEq, hlowEq, hclose⟩ := h.aggregate hne hacc
  have hvolume : plain.volume.toNat = Validator.totalSize trades := by
    rw [h.volume_eq, UInt64.toNat_ofNat_of_lt' (show _ < 2 ^ 64 by omega)]
  have hcount : plain.tradeCount.toNat = trades.length := by
    rw [h.tradeCount_eq, UInt64.toNat_ofNat_of_lt' (show _ < 2 ^ 64 by omega)]
  have hmore : (plain.volume + 100).toNat = Validator.totalSize trades + 100 := by
    rw [UInt64.toNat_add, hvolume]
    exact Nat.mod_eq_of_lt (show _ < 2 ^ 64 by change _ + 100 < _; omega)
  have hextra : (plain.tradeCount + 1).toNat = trades.length + 1 := by
    rw [UInt64.toNat_add, hcount]
    exact Nat.mod_eq_of_lt (show _ < 2 ^ 64 by change _ + 1 < _; omega)
  obtain ⟨hv, hc, hw, ho⟩ := Validator.reconcile_flags (b := injectBar defect plain) hacc hne
    (by omega) (by omega) (by omega) hr
  rw [hv, hc, hw, ho, hopen, hhighEq, hlowEq, hclose]
  have hscaled := approxEqual_scaled (hlowOne.trans hmean.1)
  have hraised : approxEqual plain.high (plain.high + 5) = false :=
    approxEqual_apart (by linarith) (by linarith) (le_refl _)
  have hinverted : approxEqual plain.low (plain.high + 5) = false :=
    approxEqual_apart (by linarith) (by linarith) (by linarith [(hmem _ hhigh).1])
  cases defect <;>
    simp [injectBar, hvolume, hcount, hmore, hextra, h.vwap_eq, approxEqual_self, hscaled, hraised,
      hinverted]

end Reconciliation

/-- What the validator is meant to say of a generated record. The windows take the
symbols in turn, so a symbol's first window is among the first `symCount`. -/
structure Agrees (symCount : Nat) (e : Emitted) (r : Validator.Result) : Prop where
  symbol : e.record.symbol = symbolOf (e.window % symCount)
  clean : e.defect = .clean ∨ e.defect = .priceSpike →
    ∀ v, v ≠ .priceBandBreach → r.has v = false
  volume : r.has .barVolumeReconstructMismatch = true ↔
    e.record.stream = .bar ∧ e.defect = .reconVolume
  tradeCount : r.has .barTradeCountReconstructMismatch = true ↔
    e.record.stream = .bar ∧ e.defect = .reconCount
  vwap : r.has .barVwapReconstructMismatch = true ↔
    e.record.stream = .bar ∧ e.defect = .reconVwap
  ohlc : r.has .barOhlcReconstructMismatch = true ↔
    e.record.stream = .bar ∧ (e.defect = .reconOhlc ∨ e.defect = .band)
  sequenceGap : r.has .sequenceGap = true ↔
    e.first = true ∧ e.defect = .seqGap ∧ symCount ≤ e.window
  gap : r.has .sequenceGap = true → r.gap = 3
  timestampRegression : r.has .timestampRegression = true ↔
    e.first = true ∧ e.defect = .tsRegress ∧ symCount ≤ e.window

section Verdict

variable {d : Draws} {symCount : Nat} {recs pre post : List Emitted} {e : Emitted}

theorem ownOf_eq {σ : Nat} (h : e.record.symbol = symbolOf σ) (pre : List Emitted) :
    (pre.map Emitted.record).filter (fun q => q.symbol = e.record.symbol) = ownOf σ pre := by
  rw [h]
  rfl

/-- The generated stream has few enough symbols for the validator. -/
theorem AllExplained.few (h : AllExplained d symCount recs) (hpos : 1 ≤ symCount)
    (hfew : symCount ≤ 4096) :
    ((recs.map Emitted.record).map WireRecord.symbol).toFinset.card ≤ 4096 := by
  have hsub : ((recs.map Emitted.record).map WireRecord.symbol).toFinset ⊆
      (Finset.range symCount).image symbolOf := by
    intro x hx
    simp only [List.map_map, List.mem_toFinset, List.mem_map, Function.comp_apply] at hx
    obtain ⟨e, he, rfl⟩ := hx
    obtain ⟨pre, post, rfl⟩ := List.append_of_mem he
    rw [(h pre e post rfl).symbol_eq]
    exact Finset.mem_image_of_mem _ (Finset.mem_range.mpr (Nat.mod_lt _ (by omega)))
  calc _ ≤ ((Finset.range symCount).image symbolOf).card := Finset.card_le_card hsub
    _ ≤ (Finset.range symCount).card := Finset.card_image_le
    _ ≤ 4096 := by rwa [Finset.card_range]

/-- The reconstruction flags of a record: none but a bar's own defect. -/
theorem Explained.reconstructs_iff (h : Explained d symCount pre e)
    (hpx : ∀ e' ∈ pre, e'.px < 1000000) {r : Validator.Result}
    (hother : ∀ v, Reconstructs v → e.record.stream ≠ .bar → r.has v = false)
    (hbar : ∀ b, e.record = .bar b → ∃ s r₀,
      Validator.Accumulates s (Validator.window b.symbol (pre.map Emitted.record)) ∧
      (∀ v, Reconstructs v → r₀.has v = false) ∧ r = (Validator.reconcile s b r₀).2) :
    (r.has .barVolumeReconstructMismatch = true ↔
      e.record.stream = .bar ∧ e.defect = .reconVolume) ∧
    (r.has .barTradeCountReconstructMismatch = true ↔
      e.record.stream = .bar ∧ e.defect = .reconCount) ∧
    (r.has .barVwapReconstructMismatch = true ↔
      e.record.stream = .bar ∧ e.defect = .reconVwap) ∧
    (r.has .barOhlcReconstructMismatch = true ↔
      e.record.stream = .bar ∧ (e.defect = .reconOhlc ∨ e.defect = .band)) := by
  by_cases hstream : e.record.stream = .bar
  · obtain ⟨b, hb⟩ : ∃ b, e.record = .bar b := by
      cases hrec : e.record with
      | trade t => rw [hrec] at hstream; cases hstream
      | quote q => rw [hrec] at hstream; cases hstream
      | bar b => exact ⟨b, rfl⟩
    obtain ⟨s, r₀, hacc, hr₀, rfl⟩ := hbar b hb
    obtain ⟨plain, rfl, hsummary, hlength, htradable⟩ := h.bar b hb
    have hsymbol : (injectBar e.defect plain).symbol = symbolOf (e.window % symCount) := by
      rw [← h.symbol_eq, hb]
      rfl
    rw [hsymbol, ← Validator.window_filter] at hacc
    have hlen := Validator.length_window_le (symbolOf (e.window % symCount))
      (ownOf (e.window % symCount) pre)
    simpa only [hstream, true_and] using
      hsummary.reconcile_iff htradable hlength hpx hlen hacc hr₀ e.defect
  · have hnone : ∀ v, Reconstructs v → ∀ P : Prop,
        r.has v = true ↔ e.record.stream = .bar ∧ P := by
      intro v hv P
      rw [hother v hv hstream]
      exact iff_of_false (by simp) fun hall => hstream hall.1
    exact ⟨hnone _ (.inl rfl) _, hnone _ (.inr (.inl rfl)) _, hnone _ (.inr (.inr (.inl rfl))) _,
      hnone _ (.inr (.inr (.inr rfl))) _⟩

/-- The validator's result for a record that the ones before it explain. -/
theorem AllExplained.agrees (h : AllExplained d symCount (pre ++ e :: post)) (hpos : 1 ≤ symCount)
    (hfew : symCount ≤ 4096) (hpx : ∀ e' ∈ pre, e'.px < 1000000)
    (hclock : clock (e.window % symCount) ((ownOf (e.window % symCount) pre).length + 1) < 2 ^ 64) :
    ∃ r, (Validator.run ((pre ++ e :: post).map Emitted.record)).2[pre.length]? = some r ∧
      Agrees symCount e r := by
  have hx := h pre e post rfl
  have hcard := h.few hpos hfew
  rw [List.map_append, List.map_cons] at hcard
  obtain ⟨r, hr, hts, hgap, hvalue, hrest⟩ := Validator.sequencing_exact hcard
  rw [ownOf_eq hx.symbol_eq] at hts hgap hvalue
  rw [hx.regresses_iff hclock] at hts
  obtain ⟨hskips, hthree⟩ := hx.skips_iff hclock
  rw [List.length_map, ← List.map_cons, ← List.map_append] at hr
  have hrecon := hx.reconstructs_iff hpx (r := r)
    (by
      intro v hv hstream
      have hplain : v ≠ .priceBandBreach ∧ v ≠ .timestampRegression ∧ v ≠ .sequenceGap := by
        rcases hv with rfl | rfl | rfl | rfl <;> simp
      rw [hrest v hplain.1 (fun _ => hstream) hplain.2.1 hplain.2.2]
      exact Validator.has_statelessFlags_reconstructs _ hv)
    (by
      intro b hb
      rw [hb] at hcard
      obtain ⟨s, r₀, hacc, hr₀, hcheck⟩ := Validator.check_bar_of_few hcard
      have hresult := Validator.results_run_getElem? (pre.map Emitted.record) e.record
        (post.map Emitted.record)
      rw [List.length_map, ← List.map_cons, ← List.map_append, hr, hb, hcheck] at hresult
      exact ⟨s, r₀, hacc, hr₀, Option.some.inj hresult⟩)
  obtain ⟨hvolume, hcount, hvwap, hohlc⟩ := hrecon
  refine ⟨r, hr, hx.symbol_eq, ?_, hvolume, hcount, hvwap, hohlc, hgap.trans hskips, ?_, hts⟩
  · intro hclean v hband
    by_cases hv : Reconstructs v
    · rcases hv with rfl | rfl | rfl | rfl
      · exact Bool.eq_false_iff.mpr fun ht => by simp [(hvolume.mp ht).2] at hclean
      · exact Bool.eq_false_iff.mpr fun ht => by simp [(hcount.mp ht).2] at hclean
      · exact Bool.eq_false_iff.mpr fun ht => by simp [(hvwap.mp ht).2] at hclean
      · exact Bool.eq_false_iff.mpr fun ht => by
          rcases (hohlc.mp ht).2 with hd | hd <;> simp [hd] at hclean
    · by_cases hvts : v = .timestampRegression
      · subst hvts
        exact Bool.eq_false_iff.mpr fun ht => by simp [(hts.mp ht).2.1] at hclean
      · by_cases hvgap : v = .sequenceGap
        · subst hvgap
          exact Bool.eq_false_iff.mpr fun ht => by
            simp [(hskips.mp (hgap.mp ht)).2.1] at hclean
        · rw [hrest v hband (fun hrec => absurd hrec hv) hvts hvgap]
          exact hx.clean hclean v
  · intro hhas
    have hs := hgap.mp hhas
    rw [hvalue, if_pos hs]
    exact hthree hs

end Verdict

/-- Until a symbol's clock passes 2⁶⁴, the validator finds in the generated stream the
defects that the generator put there, and nothing else but price band breaches. -/
theorem generator_validator_agree (d : Draws) (n : Nat) {symCount : Nat} (hpos : 1 ≤ symCount)
    (hfew : symCount ≤ 4096) :
    ∃ recs, generate d n symCount = some recs ∧ recs.length = n ∧
      ((∀ e ∈ recs, e.px < 1000000) →
        (∀ σ < symCount, clock σ (ownOf σ recs).length < 2 ^ 64) →
        ∀ (i : Nat) e, recs[i]? = some e →
          ∃ r, (Validator.run (recs.map Emitted.record)).2[i]? = some r ∧
            Agrees symCount e r) := by
  obtain ⟨recs, hgen, hlength, hall⟩ := generate_explained d n hpos hfew
  refine ⟨recs, hgen, hlength, ?_⟩
  intro hpx hclock i e he
  have hi := (List.getElem?_eq_some_iff.mp he).1
  have hsplit := split_of_getElem? he
  have hlen : (recs.take i).length = i := List.length_take_of_le (by omega)
  generalize recs.take i = pre at hsplit hlen
  generalize recs.drop (i + 1) = post at hsplit
  subst hsplit hlen
  have hsymbol := (hall pre e post rfl).symbol_eq
  have hown : (ownOf (e.window % symCount) pre).length + 1 ≤
      (ownOf (e.window % symCount) (pre ++ e :: post)).length := by
    simp only [ownOf, List.map_append, List.map_cons, List.filter_append, List.length_append,
      List.filter_cons, hsymbol, decide_true, if_true, List.length_cons]
    omega
  have hlast := hclock _ (Nat.mod_lt e.window (show 0 < symCount by omega))
  refine hall.agrees hpos hfew (fun e' he' => hpx e' (List.mem_append_left _ he')) ?_
  refine lt_of_le_of_lt ?_ hlast
  unfold clock
  omega

/-- Draws that leave the prices where they start. -/
def calmDraws (pick : Nat → Nat) (pick_le : ∀ j, pick j ≤ 99) : Draws where
  pick := pick
  count _ := 8
  jitter _ _ := 0
  size _ _ := 1
  bidSize _ _ := 1
  askSize _ _ := 1
  pick_le := pick_le
  count_mem _ := by decide
  jitter_mem _ _ := by norm_num
  size_mem _ _ := by decide
  bidSize_mem _ _ := by decide
  askSize_mem _ _ := by decide

theorem calm_px_lt {pick : Nat → Nat} {pick_le : ∀ j, pick j ≤ 99} {symCount : Nat}
    {recs : List Emitted} (h : AllExplained (calmDraws pick pick_le) symCount recs) :
    ∀ e ∈ recs, e.px < 1000000 := by
  intro e he
  obtain ⟨pre, post, rfl⟩ := List.append_of_mem he
  have hle := (h pre e post rfl).px_running.le_start fun _ _ => le_refl 0
  linarith

/-- Nothing wrong but a timestamp regression in the second window. -/
def regressSecond : Draws :=
  calmDraws (fun j => if j = 1 then 2 else 99) (by intro j; split <;> omega)

/-- The second window of the only symbol begins with a trade set back in time. -/
theorem generator_validator_agree_secondWindow :
    ∃ recs r, generate regressSecond 14 1 = some recs ∧
      (Validator.run (recs.map Emitted.record)).2[11]? = some r ∧
      r.has .timestampRegression = true := by
  obtain ⟨recs, hgen, hlength, hagree⟩ := generator_validator_agree regressSecond 14
    (show 1 ≤ 1 by decide) (show 1 ≤ 4096 by decide)
  obtain ⟨recs', hgen', -, hall⟩ := generate_explained regressSecond 14
    (show 1 ≤ 1 by decide) (show 1 ≤ 4096 by decide)
  obtain rfl : recs' = recs := Option.some.inj (hgen'.symm.trans hgen)
  have htag : (generate regressSecond 14 1).bind (fun recs => (recs[11]?).map
      fun e => (e.first, e.defect, e.window)) = some (true, .tsRegress, 1) := by
    decide +kernel
  rw [hgen, Option.bind_some, Option.map_eq_some_iff] at htag
  obtain ⟨e, he, htag⟩ := htag
  obtain ⟨hfirst, htag⟩ := Prod.mk.inj htag
  obtain ⟨hdefect, hwindow⟩ := Prod.mk.inj htag
  have hclock : ∀ σ < 1, clock σ (ownOf σ recs').length < 2 ^ 64 := by
    intro σ hσ
    have hle : (ownOf σ recs').length ≤ 14 := by
      rw [← hlength, ← List.length_map Emitted.record]
      exact List.length_filter_le _ _
    unfold clock
    omega
  obtain ⟨r, hr, hagrees⟩ := hagree (calm_px_lt hall) hclock 11 e he
  exact ⟨recs', r, hgen, hr, hagrees.timestampRegression.mpr ⟨hfirst, hdefect, by omega⟩⟩

/-- A single symbol's clock passes 2⁶⁴ with its record number 16746744073710: a record of a
clean window like all others, and the validator flags it. -/
theorem generator_clock_wraps :
    ∃ recs e r, generate (calmDraws (fun _ => 99) fun _ => le_refl 99) 16746744073710 1 =
        some recs ∧
      (∀ e ∈ recs, e.px < 1000000) ∧ recs[16746744073709]? = some e ∧ e.defect = .clean ∧
      (Validator.run (recs.map Emitted.record)).2[16746744073709]? = some r ∧
      r.has .timestampRegression = true := by
  obtain ⟨recs, hgen, hlength, hall⟩ := generate_explained
    (calmDraws (fun _ => 99) fun _ => le_refl 99) 16746744073710 (show 1 ≤ 1 by decide)
    (show 1 ≤ 4096 by decide)
  have hpx := calm_px_lt hall
  obtain ⟨i, hi⟩ : ∃ i, i = 16746744073709 := ⟨_, rfl⟩
  rw [← hi]
  obtain ⟨e, he⟩ : ∃ e, recs[i]? = some e :=
    ⟨_, List.getElem?_eq_getElem (show i < recs.length by omega)⟩
  have hsplit := split_of_getElem? he
  have hpre : (recs.take i).length = i := List.length_take_of_le (by omega)
  have hx := hall _ e _ hsplit
  have hcard := hall.few (by decide) (by decide)
  have hmem : ∀ e' ∈ recs, e'.record.symbol = symbolOf 0 := by
    intro e' he'
    obtain ⟨before, after, hbefore⟩ := List.append_of_mem he'
    have hsymbol := (hall before e' after hbefore).symbol_eq
    rwa [Nat.mod_one] at hsymbol
  -- The only symbol's earlier records are all earlier records.
  have hown : (ownOf 0 (recs.take i)).length = i := by
    have hself : ownOf 0 (recs.take i) = (recs.take i).map Emitted.record := by
      refine List.filter_eq_self.mpr ?_
      intro r hr
      obtain ⟨e', he', rfl⟩ := List.mem_map.mp hr
      simpa using hmem e' (List.mem_of_mem_take he')
    rw [hself, List.length_map, hpre]
  have hstamp := hx.stamp_eq
  have hstamps := hx.stamps
  have hseen := hx.seen
  have hshort := hx.short
  have hsymbol := hx.symbol_eq
  have hdefect : e.defect = .clean := hx.defect_eq
  rw [Nat.mod_one] at hstamp hstamps hseen hshort hsymbol
  have hset : setBack e = 0 := by simp [setBack, hdefect]
  rw [hown] at hshort
  obtain ⟨r₀, hr₀, hstream⟩ := hseen (by omega) e.record.stream
  rw [hsplit, List.map_append, List.map_cons] at hcard
  obtain ⟨r, hr, hts, -⟩ := Validator.sequencing_exact hcard
  rw [ownOf_eq hsymbol] at hts
  rw [List.length_map, hpre, ← List.map_cons, ← List.map_append, ← hsplit] at hr
  refine ⟨recs, e, r, hgen, hpx, he, hdefect, hr, hts.mpr ?_⟩
  rcases lastStamp_cases e.record.stream (ownOf 0 (recs.take i)) with ⟨-, hnone⟩ | ⟨q, hq, hlast⟩
  · exact absurd hstream (hnone r₀ hr₀)
  · obtain ⟨m, hlow, hm, hqm⟩ := hstamps q hq
    rw [hown] at hm hstamp
    have hbig : m < 2 ^ 64 := by
      unfold clock at hm
      omega
    have hsmall : e.record.stamp = 448384 := by
      rw [hstamp, hset, hi]
      decide
    rw [hlast, hqm, hsmall]
    constructor
    · intro hzero
      have hnat := congrArg UInt64.toNat hzero
      rw [UInt64.toNat_ofNat_of_lt' hbig] at hnat
      change m = 0 at hnat
      omega
    · rw [UInt64.lt_iff_toNat_lt, UInt64.toNat_ofNat_of_lt' hbig]
      change 448384 < m
      omega

end GenDataset

end OhlcvValidator
