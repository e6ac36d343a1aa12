import OhlcvValidator.BandFilter
import OhlcvValidator.SequencingCursor

namespace OhlcvValidator

namespace Validator

/-- The validator's filter: a band of 5%, a reference that moves by a fifth, and a run of three. -/
def bandRule : BandRule ℚ where
  frac := kPriceBandFrac
  alpha := kRefEwmaAlpha
  patience := kBandReanchorRun.toNat
  frac_pos := by norm_num [kPriceBandFrac]
  frac_lt_one := by norm_num [kPriceBandFrac]
  alpha_pos := by norm_num [kRefEwmaAlpha]
  alpha_le_one := by norm_num [kRefEwmaAlpha]
  patience_pos := by decide

/-- What a slot knows of its symbol's price. -/
def Slot.band (s : Slot ℚ) : Band ℚ where
  ref := if s.refInit then some s.refPrice else none
  breaches := s.breachRun.toNat

/-- What a record does to the band of its symbol, and whether it breaches it. A quote is
compared and moves nothing. -/
def bandStep (b : Band ℚ) : WireRecord ℚ → Band ℚ × Bool
  | .trade t => if validPrice t && validSize t then bandRule.step b t.price else (b, false)
  | .bar _ => (b, false)
  | .quote q => (b, decide (0 < q.bidPrice ∧ 0 < q.askPrice ∧
      ∃ r ∈ b.ref, bandRule.Outlier r ((q.bidPrice + q.askPrice) * (1 / 2))))

variable {s : Slot ℚ} {r : Result}

/-- The code's check is a step of the filter as long as its 32-bit counter stands below three. -/
theorem checkPriceBand_band (h : bandRule.Sound s.band) (p : ℚ) (r : Result) :
    (checkPriceBand s p r).1.band = (bandRule.step s.band p).1 ∧
      (checkPriceBand s p r).2.has .priceBandBreach =
        (r.has .priceBandBreach || (bandRule.step s.band p).2) := by
  unfold checkPriceBand
  split
  next hinit =>
    have hinit : s.refInit = false := by simpa using hinit
    have href : s.band.ref = none := by simp [Slot.band, hinit]
    rw [BandRule.step_first href]
    simp [Slot.band]
  next hinit =>
    have hinit : s.refInit = true := by simpa using hinit
    have href : s.band.ref = some s.refPrice := by simp [Slot.band, hinit]
    have hwaits : s.breachRun.toNat < 3 := h.waits
    have hrun : (s.breachRun + 1).toNat = s.breachRun.toNat + 1 := by
      rw [UInt32.toNat_add, UInt32.toNat_one]
      omega
    split
    next hout =>
      have hout : bandRule.Outlier s.refPrice p := of_decide_eq_true hout
      rw [BandRule.step_outlier href hout]
      have hfull : kBandReanchorRun ≤ s.breachRun + 1 ↔
          bandRule.patience ≤ s.band.breaches + 1 := by
        rw [UInt32.le_iff_toNat_le, hrun]
        rfl
      dsimp only
      by_cases hlong : kBandReanchorRun ≤ s.breachRun + 1
      · rw [if_pos hlong, if_pos (hfull.mp hlong)]
        simp [Slot.band, hinit]
      · rw [if_neg hlong, if_neg (mt hfull.mpr hlong)]
        simp [Slot.band, hinit, hrun]
    next hin =>
      have hin : ¬bandRule.Outlier s.refPrice p := fun hout => hin (decide_eq_true hout)
      rw [BandRule.step_inBand href hin]
      simp [Slot.band, hinit, BandRule.follow, bandRule, PriceArith.lit]

theorem accumulate_band (s : Slot ℚ) (price : ℚ) (size : UInt64) :
    (accumulate s price size).band = s.band := by
  unfold accumulate
  dsimp only
  split <;> rfl

theorem reconcile_band (s : Slot ℚ) (b : WireBar ℚ) (r : Result) :
    (reconcile s b r).1.band = s.band := by
  unfold reconcile
  split <;> rfl

theorem has_checkSequencing_band (s : Slot ℚ) (stream : Stream) (ts seq : UInt64) (r : Result) :
    (checkSequencing s stream ts seq r).2.has .priceBandBreach = r.has .priceBandBreach :=
  has_checkSequencing s stream ts seq r (by decide) (by decide)

theorem stateful_band (h : bandRule.Sound s.band) (rec : WireRecord ℚ) (r : Result) :
    (stateful rec s r).1.band = (bandStep s.band rec).1 ∧
      (stateful rec s r).2.has .priceBandBreach =
        (r.has .priceBandBreach || (bandStep s.band rec).2) := by
  cases rec with
  | trade t =>
    unfold stateful tradeState bandStep
    dsimp only
    split
    next =>
      have hacc := accumulate_band (checkSequencing s .trade t.tsNs t.seq r).1 t.price t.size
      have hseq : (checkSequencing s .trade t.tsNs t.seq r).1.band = s.band := rfl
      rw [hseq] at hacc
      have hband := checkPriceBand_band (hacc ▸ h) t.price
        (checkSequencing s .trade t.tsNs t.seq r).2
      rwa [hacc, has_checkSequencing_band] at hband
    next => exact ⟨rfl, by rw [has_checkSequencing_band, Bool.or_false]⟩
  | bar b =>
    refine ⟨reconcile_band _ b _, ?_⟩
    have hkeeps := (reconcile_keeps (checkSequencing s .bar b.startNs b.seq r).1 b
      (checkSequencing s .bar b.startNs b.seq r).2).2.2.2 .priceBandBreach (by simp [Reconstructs])
    exact hkeeps.trans (by rw [has_checkSequencing_band]; simp [bandStep])
  | quote q =>
    unfold stateful quoteState bandStep
    dsimp only
    have hseq := has_checkSequencing_band s .quote q.tsNs q.seq r
    have href : (checkSequencing s .quote q.tsNs q.seq r).1.refInit = s.refInit ∧
      (checkSequencing s .quote q.tsNs q.seq r).1.refPrice = s.refPrice := ⟨rfl, rfl⟩
    rw [href.1, href.2]
    split
    next hboth =>
      simp only [Bool.and_eq_true, PriceArith.lt, PriceArith.lit, decide_eq_true_eq] at hboth
      obtain ⟨⟨hinit, hbid⟩, hask⟩ := hboth
      refine ⟨rfl, ?_⟩
      simp [hseq, Slot.band, hinit, hbid, hask, BandRule.Outlier, bandRule, PriceArith.lt,
        PriceArith.lit, PriceArith.fabs]
    next hnot =>
      refine ⟨rfl, ?_⟩
      have hno : ¬(0 < q.bidPrice ∧ 0 < q.askPrice ∧
          ∃ r ∈ s.band.ref, bandRule.Outlier r ((q.bidPrice + q.askPrice) * (1 / 2))) := by
        rintro ⟨hbid, hask, x, hx, _⟩
        have hinit : s.refInit = true := by
          by_contra hinit
          simp [Slot.band, hinit] at hx
        exact hnot (by simp [hinit, hbid, hask, PriceArith.lt, PriceArith.lit])
      rw [hseq, decide_eq_false hno, Bool.or_false]

theorem has_statelessFlags_band (rec : WireRecord ℚ) :
    (statelessFlags rec).has .priceBandBreach = false := by
  cases rec with
  | trade t => simp [statelessFlags, tradeFlags]
  | bar b => simp [statelessFlags, barFlags]
  | quote q =>
    unfold statelessFlags quoteFlags
    dsimp only
    split <;> simp

/-- Only valid trades move the band. -/
theorem sound_bandStep {b : Band ℚ} (h : bandRule.Sound b) (rec : WireRecord ℚ) :
    bandRule.Sound (bandStep b rec).1 := by
  cases rec with
  | trade t =>
    rw [bandStep]
    split
    next => exact h.step t.price
    next => exact h
  | bar b => exact h
  | quote q => exact h

/-- The band that a symbol's own records have left. -/
def bandAfter (own : List (WireRecord ℚ)) : Band ℚ :=
  (transduce bandStep {} own).1

theorem bandAfter_concat (own : List (WireRecord ℚ)) (rec : WireRecord ℚ) :
    bandAfter (own ++ [rec]) = (bandStep (bandAfter own) rec).1 := by
  rw [bandAfter, transduce_append]
  rfl

theorem sound_bandAfter (own : List (WireRecord ℚ)) : bandRule.Sound (bandAfter own) := by
  induction own using List.reverseRecOn with
  | nil => exact BandRule.sound_fresh
  | append_singleton own rec ih =>
    rw [bandAfter_concat]
    exact sound_bandStep ih rec

theorem solo_band (k : UInt64) (own : List (WireRecord ℚ)) :
    (solo k own).1.band = bandAfter own := by
  induction own using List.reverseRecOn with
  | nil => rfl
  | append_singleton own rec ih =>
    have hsound := sound_bandAfter own
    rw [← ih] at hsound
    rw [solo_concat, bandAfter_concat, ← ih]
    exact (stateful_band hsound rec _).1

/-- A record breaches the band of its symbol, unless the symbol has no slot. -/
theorem has_check_band (pre : List (WireRecord ℚ)) (rec : WireRecord ℚ) :
    ((run pre).1.check rec).2.has .priceBandBreach =
      (decide ((Roster.run pre).1.Accepts (symbolKey rec.symbol)) &&
        (bandStep (bandAfter (pre.filter fun q => q.symbol = rec.symbol)) rec).2) := by
  have hband := solo_band (symbolKey rec.symbol) (pre.filter fun q => q.symbol = rec.symbol)
  have hsound := sound_bandAfter (pre.filter fun q => q.symbol = rec.symbol)
  rw [← hband] at hsound ⊢
  rw [check_run]
  split
  next hacc =>
    rw [(stateful_band hsound rec _).2, has_statelessFlags_band]
    simp [hacc]
  next hrej =>
    rw [has_statelessFlags_band]
    simp [hrej]

/-- The price of a trade that feeds the band. -/
def validTradePrice : WireRecord ℚ → Option ℚ
  | .trade t => if validPrice t && validSize t then some t.price else none
  | _ => none

/-- The prices of a symbol's valid trades, in order. -/
def tradePrices (symbol : Symbol) (recs : List (WireRecord ℚ)) : List ℚ :=
  (recs.filter fun q => q.symbol = symbol).filterMap validTradePrice

/-- How many trades of a symbol breach its band. -/
def flaggedTrades (symbol : Symbol) (recs : List (WireRecord ℚ)) (rs : List Result) : Nat :=
  (recs.zip rs).countP fun p =>
    p.1.symbol = symbol ∧ p.1.stream = .trade ∧ p.2.has .priceBandBreach

theorem pos_of_validTradePrice {rec : WireRecord ℚ} {p : ℚ} (h : validTradePrice rec = some p) :
    0 < p := by
  cases rec with
  | trade t =>
    simp only [validTradePrice, Bool.and_eq_true, Option.ite_none_right_eq_some,
      Option.some.injEq] at h
    obtain ⟨⟨hprice, _⟩, rfl⟩ := h
    simpa [validPrice, PriceArith.lt, PriceArith.lit] using hprice
  | bar b => cases h
  | quote q => cases h

theorem bandStep_of_price {rec : WireRecord ℚ} {p : ℚ} (h : validTradePrice rec = some p)
    (b : Band ℚ) : bandStep b rec = bandRule.step b p ∧ rec.stream = .trade := by
  cases rec with
  | trade t =>
    simp only [validTradePrice, Option.ite_none_right_eq_some, Option.some.injEq] at h
    obtain ⟨hvalid, rfl⟩ := h
    exact ⟨if_pos hvalid, rfl⟩
  | bar b => cases h
  | quote q => cases h

/-- What is no valid trade leaves the band alone, and only a quote can breach it. -/
theorem bandStep_of_none {rec : WireRecord ℚ} (h : validTradePrice rec = none) (b : Band ℚ) :
    (bandStep b rec).1 = b ∧ (rec.stream = .trade → (bandStep b rec).2 = false) := by
  cases rec with
  | trade t =>
    have hinvalid : ¬(validPrice t && validSize t) = true := by
      intro hvalid
      simp [validTradePrice, hvalid] at h
    simp [bandStep, hinvalid]
  | bar b => exact ⟨rfl, fun _ => rfl⟩
  | quote q => exact ⟨rfl, fun hs => Stream.noConfusion hs⟩

/-- No more trades of a symbol are flagged than the filter finds outliers among its valid
prices. -/
theorem flaggedTrades_le (symbol : Symbol) (pre post : List (WireRecord ℚ)) :
    flaggedTrades symbol post (transduce check (run pre).1 post).2 ≤
      (transduce bandRule.step (bandAfter (pre.filter fun q => q.symbol = symbol))
        (tradePrices symbol post)).2.count true := by
  induction post generalizing pre with
  | nil => exact le_rfl
  | cons rec post ih =>
    have hnext := ih (pre ++ [rec])
    have hcheck := has_check_band pre rec
    rw [run_concat] at hnext
    simp only [flaggedTrades, transduce, List.zip_cons_cons, List.countP_cons] at hnext ⊢
    by_cases hs : rec.symbol = symbol
    · subst hs
      simp only [List.filter_append, List.filter_cons, decide_true, if_true, List.filter_nil,
        bandAfter_concat] at hnext
      simp only [tradePrices, List.filter_cons, decide_true, if_true]
      generalize bandAfter (pre.filter fun q => q.symbol = rec.symbol) = b at hnext hcheck ⊢
      cases hprice : validTradePrice rec with
      | none =>
        obtain ⟨hkeeps, hpass⟩ := bandStep_of_none hprice b
        rw [hkeeps] at hnext
        rw [List.filterMap_cons_none hprice, if_neg]
        · exact hnext
        · simp only [true_and, decide_eq_true_eq, not_and]
          intro htrade
          rw [hcheck, hpass htrade]
          simp
      | some p =>
        obtain ⟨hstep, _⟩ := bandStep_of_price hprice b
        rw [hstep] at hnext hcheck
        rw [List.filterMap_cons_some hprice, transduce, List.count_cons]
        refine Nat.add_le_add hnext ?_
        split
        next hflag =>
          simp only [true_and, decide_eq_true_eq, hcheck, Bool.and_eq_true] at hflag
          simp [hflag.2.2]
        next => exact Nat.zero_le _
    · simp only [List.filter_append, List.filter_cons, hs, decide_false, Bool.false_eq_true,
        if_false, List.filter_nil, List.append_nil] at hnext
      simpa [tradePrices, hs] using hnext

theorem slotState_band {pre : List (WireRecord ℚ)} {symbol : Symbol} {s : Slot ℚ}
    (h : (run pre).1.slotState symbol = some s) :
    s.band = bandAfter (pre.filter fun q => q.symbol = symbol) := by
  rw [slotState_run] at h
  split at h
  next => rw [← Option.some.inj h, solo_band]
  next => cases h

theorem checkPriceBand_refInit (s : Slot ℚ) (p : ℚ) (r : Result) :
    (checkPriceBand s p r).1.refInit = true := by
  unfold checkPriceBand
  split
  next => rfl
  next hinit =>
    have hinit : s.refInit = true := by simpa using hinit
    split
    next =>
      dsimp only
      split <;> exact hinit
    next => exact hinit

/-- Without a valid trade the reference price stays as it is. -/
theorem stateful_refPrice (rec : WireRecord ℚ) (s : Slot ℚ) (r : Result)
    (h : (stateful rec s r).1.refInit = false) :
    s.refInit = false ∧ (stateful rec s r).1.refPrice = s.refPrice := by
  cases rec with
  | trade t =>
    unfold stateful tradeState at h ⊢
    dsimp only at h ⊢
    split at h
    next => simp [checkPriceBand_refInit] at h
    next hinvalid =>
      rw [if_neg hinvalid]
      exact ⟨h, rfl⟩
  | bar b =>
    unfold stateful barState reconcile at h ⊢
    dsimp only at h ⊢
    split at h
    next hempty =>
      rw [if_pos hempty]
      exact ⟨h, rfl⟩
    next hfull =>
      rw [if_neg hfull]
      exact ⟨h, rfl⟩
  | quote q =>
    unfold stateful quoteState at h ⊢
    dsimp only at h ⊢
    split at h
    next hboth =>
      rw [if_pos hboth]
      exact ⟨h, rfl⟩
    next hnot =>
      rw [if_neg hnot]
      exact ⟨h, rfl⟩

theorem solo_refPrice (k : UInt64) (own : List (WireRecord ℚ))
    (h : (solo k own).1.refInit = false) : (solo k own).1.refPrice = 0 := by
  induction own using List.reverseRecOn with
  | nil => rfl
  | append_singleton own rec ih =>
    rw [solo_concat] at h ⊢
    obtain ⟨hinit, hsame⟩ := stateful_refPrice rec _ _ h
    exact hsame.trans (ih hinit)

theorem slotState_refPrice {pre : List (WireRecord ℚ)} {symbol : Symbol} {s : Slot ℚ}
    (h : (run pre).1.slotState symbol = some s) : s.refPrice = s.band.ref.getD 0 := by
  rw [slotState_run] at h
  split at h
  next =>
    have hzero := solo_refPrice (symbolKey symbol) (pre.filter fun q => q.symbol = symbol)
    rw [Option.some.inj h] at hzero
    unfold Slot.band
    cases hinit : s.refInit with
    | true => rfl
    | false => exact hzero hinit
  next => cases h

/-- A positive reference price is a reference. -/
theorem slotState_ref {pre : List (WireRecord ℚ)} {symbol : Symbol} {s : Slot ℚ}
    (h : (run pre).1.slotState symbol = some s) (hpos : 0 < s.refPrice) :
    s.band.ref = some s.refPrice := by
  have hprice := slotState_refPrice h
  cases href : s.band.ref with
  | none =>
    rw [hprice, href] at hpos
    exact absurd hpos (lt_irrefl _)
  | some r =>
    rw [hprice, href]
    rfl

/-- Whatever the band of a symbol is, only boundedly many trades of a range that fits into the
band are flagged, by a bound that the slot and the range determine; and none is as soon as the
reference lies in the range. -/
theorem sustained_move_recovers (s : Slot ℚ) {lo hi : ℚ} (hlo : 0 < lo) (hle : lo ≤ hi)
    (hhi : hi < 105 / 100 * lo) :
    ∃ bound : Nat, ∀ (pre : List (WireRecord ℚ)) (symbol : Symbol),
      (run pre).1.slotState symbol = some s →
      ∀ post : List (WireRecord ℚ), (∀ p ∈ tradePrices symbol post, lo ≤ p ∧ p ≤ hi) →
        flaggedTrades symbol post (transduce check (run pre).1 post).2 ≤ bound ∧
        ∀ mid rest s', post = mid ++ rest →
          (transduce check (run pre).1 mid).1.slotState symbol = some s' →
          lo ≤ s'.refPrice → s'.refPrice ≤ hi →
          flaggedTrades symbol rest
            (transduce check (transduce check (run pre).1 mid).1 rest).2 = 0 := by
  have hband : hi < (1 + bandRule.frac) * lo := by
    have hone : 1 + bandRule.frac = 105 / 100 := by norm_num [bandRule, kPriceBandFrac]
    rwa [hone]
  have hbound : ∃ n : Nat, bandRule.Sound s.band → ∀ ps : List ℚ,
      (∀ p ∈ ps, lo ≤ p ∧ p ≤ hi) → (transduce bandRule.step s.band ps).2.count true ≤ n := by
    by_cases hs : bandRule.Sound s.band
    · obtain ⟨n, hn⟩ := BandRule.recovers hlo hle hband hs
      exact ⟨n, fun _ => hn⟩
    · exact ⟨0, fun h => absurd h hs⟩
  obtain ⟨n, hn⟩ := hbound
  refine ⟨n, ?_⟩
  intro pre symbol hslot post hpost
  have hslotBand := slotState_band hslot
  refine ⟨?_, ?_⟩
  · have hle := flaggedTrades_le symbol pre post
    rw [← hslotBand] at hle
    exact hle.trans (hn (hslotBand ▸ sound_bandAfter _) _ hpost)
  · rintro mid rest s' rfl hslot' hlo' hhi'
    have hrun : (run (pre ++ mid)).1 = (transduce check (run pre).1 mid).1 := by rw [run_append]
    rw [← hrun] at hslot' ⊢
    have hrest : ∀ p ∈ tradePrices symbol rest, lo ≤ p ∧ p ≤ hi := by
      intro p hp
      exact hpost p (by simp [tradePrices] at hp ⊢; tauto)
    have hle := flaggedTrades_le symbol (pre ++ mid) rest
    have href := slotState_ref hslot' (hlo.trans_le hlo')
    rw [slotState_band hslot'] at href
    have hpass := BandRule.Near.passes hlo hband hrest href
      (BandRule.near_of_mem hlo hband hlo' hhi')
    rw [BandRule.count_of_passes hpass] at hle
    exact Nat.le_zero.mp hle

/-- One trade at 100, then ten at 120: the third of them moves the reference. -/
def gapOpen : List (WireRecord ℚ) :=
  .trade ⟨Vector.replicate 8 88, 1, 1, 100, 1⟩ ::
    List.replicate 10 (.trade ⟨Vector.replicate 8 88, 2, 2, 120, 1⟩)

theorem sustained_move_recovers_gapOpen :
    flaggedTrades (Vector.replicate 8 88) (gapOpen.drop 1)
        (transduce check (run (gapOpen.take 1)).1 (gapOpen.drop 1)).2 = 3 ∧
      ∃ bound : Nat, flaggedTrades (Vector.replicate 8 88) (gapOpen.drop 1)
        (transduce check (run (gapOpen.take 1)).1 (gapOpen.drop 1)).2 ≤ bound := by
  obtain ⟨s, hs⟩ : ∃ s, (run (gapOpen.take 1)).1.slotState (Vector.replicate 8 88) = some s :=
    Option.isSome_iff_exists.mp (by decide +kernel)
  obtain ⟨bound, hbound⟩ := sustained_move_recovers s (show (0 : ℚ) < 120 by norm_num)
    (le_refl (120 : ℚ)) (by norm_num)
  exact ⟨by decide +kernel, bound, (hbound _ _ hs (gapOpen.drop 1) (by decide +kernel)).1⟩

/-- A trade never breaches the band if prices drift by at most a hundredth from trade to
trade, whatever lies between the trades: the reference lags by at most the band. -/
theorem drift_never_flagged (symbol : Symbol) {recs : List (WireRecord ℚ)}
    (hdrift : (tradePrices symbol recs).IsChain fun p q => |q - p| ≤ 1 / 100 * p) :
    flaggedTrades symbol recs (run recs).2 = 0 := by
  have hpos : ∀ p ∈ tradePrices symbol recs, 0 < p := by
    intro p hp
    obtain ⟨rec, _, hrec⟩ := List.mem_filterMap.mp hp
    exact pos_of_validTradePrice hrec
  have hstep : bandRule.alpha * bandRule.frac = 1 / 100 := by
    norm_num [bandRule, kPriceBandFrac, kRefEwmaAlpha]
  rw [← hstep] at hdrift
  have hle : _ ≤ (transduce bandRule.step {} (tradePrices symbol recs)).2.count true :=
    flaggedTrades_le symbol [] recs
  have hrun : (run recs).2 = (transduce check (run []).1 recs).2 := by
    rw [← List.nil_append recs, run_append]
    rfl
  rw [hrun]
  rw [BandRule.count_of_passes (BandRule.passes_of_drift hpos hdrift)] at hle
  exact Nat.le_zero.mp hle

/-- A hundredth up, an invalid trade and a far quote in between, and a hundredth down. -/
def smallSteps : List (WireRecord ℚ) :=
  [.trade ⟨Vector.replicate 8 88, 1, 1, 100, 1⟩, .trade ⟨Vector.replicate 8 88, 2, 2, 101, 1⟩,
    .trade ⟨Vector.replicate 8 88, 3, 3, 500, 0⟩,
    .quote ⟨Vector.replicate 8 88, 4, 4, 300, 301, 1, 1⟩,
    .trade ⟨Vector.replicate 8 88, 5, 5, 9999 / 100, 1⟩]

theorem drift_never_flagged_smallSteps :
    tradePrices (Vector.replicate 8 88) smallSteps = [100, 101, 9999 / 100] ∧
      flaggedTrades (Vector.replicate 8 88) smallSteps (run smallSteps).2 = 0 :=
  ⟨by decide +kernel, drift_never_flagged _ (by decide +kernel)⟩

end Validator

end OhlcvValidator
