import OhlcvValidator.MarkedStream
import OhlcvValidator.PriceBand

namespace OhlcvValidator

namespace Validator

open Marked (whole kept keptOf plain)

section Band

variable {b c : Band ℚ} {r : ℚ}

/-- Verdicts are a matter of the reference only. -/
theorem bandStep_verdict (h : b.ref = c.ref) (rec : WireRecord ℚ) :
    (bandStep b rec).2 = (bandStep c rec).2 := by
  cases rec with
  | trade t =>
    rw [bandStep, bandStep]
    split
    next => exact BandRule.step_verdict h t.price
    next => rfl
  | bar x => rfl
  | quote q => simp only [bandStep, h]

/-- A trade that breaches the band counts, and the third in a row becomes the reference. -/
theorem bandStep_flagged {rec : WireRecord ℚ} {p : ℚ} (hb : b.ref = some r)
    (hprice : validTradePrice rec = some p) (hflag : (bandStep b rec).2 = true) :
    (bandStep b rec).1 = if 3 ≤ b.breaches + 1 then { ref := some p }
      else { b with breaches := b.breaches + 1 } := by
  rw [(bandStep_of_price hprice b).1] at hflag ⊢
  rw [BandRule.step_outlier hb (BandRule.outlier_of_step hb hflag)]
  change (if 3 ≤ b.breaches + 1 then _ else _ : Band ℚ × Bool).1 = _
  split <;> rfl

/-- Each marked record breaches the band when its turn comes. -/
def MarkedBreach (b : Band ℚ) (mid : List (Bool × WireRecord ℚ)) : Prop :=
  ∀ pre w post, mid = pre ++ w :: post → w.1 = true →
    (bandStep (transduce bandStep b (whole pre)).1 w.2).2 = true

theorem MarkedBreach.tail {w : Bool × WireRecord ℚ} {mid : List (Bool × WireRecord ℚ)}
    (h : MarkedBreach b (w :: mid)) : MarkedBreach (bandStep b w.2).1 mid :=
  fun pre u post hsplit hu => h (w :: pre) u post (congrArg (w :: ·) hsplit) hu

theorem MarkedBreach.left {pre post : List (Bool × WireRecord ℚ)}
    (h : MarkedBreach b (pre ++ post)) : MarkedBreach b pre :=
  fun us w vs hsplit hw => h us w (vs ++ post) (by rw [hsplit]; simp) hw

/-- Up to two marked outliers among records that do not move the band: the other verdicts are
those without them, and only the count of outliers tells the two bands apart. -/
theorem marked_outliers {mid : List (Bool × WireRecord ℚ)} {n : Nat}
    (hmarks : ∀ w ∈ mid, w.1 = true ↔ validTradePrice w.2 ≠ none)
    (hflag : MarkedBreach ⟨some r, n⟩ mid) (hroom : n + mid.countP (·.1) < 3) :
    keptOf mid (transduce bandStep ⟨some r, n⟩ (whole mid)).2 =
        (transduce bandStep ⟨some r, 0⟩ (kept mid)).2 ∧
      (transduce bandStep ⟨some r, n⟩ (whole mid)).1 = ⟨some r, n + mid.countP (·.1)⟩ ∧
      (transduce bandStep ⟨some r, 0⟩ (kept mid)).1 = ⟨some r, 0⟩ := by
  induction mid generalizing n with
  | nil => exact ⟨rfl, rfl, rfl⟩
  | cons w mid ih =>
    obtain ⟨hw, hrest⟩ := List.forall_mem_cons.mp hmarks
    have htail := hflag.tail
    obtain ⟨mark, rec⟩ := w
    cases mark with
    | true =>
      obtain ⟨p, hprice⟩ := Option.ne_none_iff_exists'.mp (hw.mp rfl)
      have hstep := bandStep_flagged (b := ⟨some r, n⟩) rfl hprice
        (hflag [] (true, rec) mid rfl rfl)
      simp only [List.countP_cons, if_true] at hroom
      rw [if_neg (by change ¬3 ≤ n + 1; omega)] at hstep
      rw [hstep] at htail
      obtain ⟨hverdicts, hband, hkept⟩ := ih hrest htail (by change n + 1 + _ < 3; omega)
      simp only [whole, kept, keptOf, List.map_cons, transduce, hstep] at hverdicts hband hkept ⊢
      refine ⟨hverdicts, hband.trans ?_, hkept⟩
      simp only [List.countP_cons, if_true, Nat.add_assoc, Nat.add_comm 1]
    | false =>
      have hnone : validTradePrice rec = none := by
        by_contra hsome
        exact Bool.noConfusion (hw.mpr hsome)
      have hstep := fun m => (bandStep_of_none hnone ⟨some r, m⟩).1
      have hverdict := bandStep_verdict (b := ⟨some r, n⟩) (c := ⟨some r, 0⟩) rfl rec
      rw [hstep] at htail
      obtain ⟨hverdicts, hband, hkept⟩ := ih hrest htail (by simpa using hroom)
      simp only [whole, kept, keptOf, List.map_cons, transduce, hstep, List.filter_cons,
        Bool.not_false, if_true, List.zip_cons_cons] at hverdicts hband hkept ⊢
      refine ⟨congrArg₂ List.cons hverdict hverdicts, hband.trans ?_, hkept⟩
      simp

/-- The third marked outlier in a row is the new reference. -/
theorem third_outlier {pre : List (Bool × WireRecord ℚ)} {z : WireRecord ℚ} {p : ℚ}
    (hprice : validTradePrice z = some p)
    (hmarks : ∀ w ∈ pre, w.1 = true ↔ validTradePrice w.2 ≠ none)
    (hflag : MarkedBreach ⟨some r, 0⟩ (pre ++ [(true, z)])) (hcount : pre.countP (·.1) = 2) :
    (transduce bandStep ⟨some r, 0⟩ (whole pre ++ [z])).1 = { ref := some p } := by
  obtain ⟨_, hband, _⟩ := marked_outliers hmarks hflag.left (by omega)
  have hbreach := hflag pre (true, z) [] rfl rfl
  rw [hband, hcount] at hbreach
  rw [transduce_append, hband, hcount]
  exact bandStep_flagged rfl hprice hbreach

end Band

section Own

variable {symbol : Symbol} {own : List (WireRecord ℚ)}

/-- In a stream of one symbol every record is checked against the band. -/
theorem has_check_own {rec : WireRecord ℚ} (hall : ∀ q ∈ own, q.symbol = symbol)
    (hrec : rec.symbol = symbol) :
    ((run own).1.check rec).2.has .priceBandBreach = (bandStep (bandAfter own) rec).2 := by
  subst hrec
  have hfilter : own.filter (fun q => q.symbol = rec.symbol) = own :=
    List.filter_eq_self.mpr (by simpa using hall)
  rw [has_check_band, hfilter, decide_eq_true (accepts_own hall), Bool.true_and]

theorem breaches_own (hall : ∀ q ∈ own, q.symbol = symbol) :
    (run own).2.map (fun r => r.has .priceBandBreach) = (transduce bandStep {} own).2 := by
  induction own using List.reverseRecOn with
  | nil => rfl
  | append_singleton own rec ih =>
    have hrec : rec.symbol = symbol := hall rec (by simp)
    have hown : ∀ q ∈ own, q.symbol = symbol := fun q hq => hall q (by simp [hq])
    rw [run_concat, List.map_append, ih hown, transduce_append]
    simp only [List.map_cons, List.map_nil, transduce]
    rw [has_check_own hown hrec]
    rfl

theorem slotState_own (hall : ∀ q ∈ own, q.symbol = symbol) :
    ∃ s, (run own).1.slotState symbol = some s ∧ s.refPrice = (bandAfter own).ref.getD 0 ∧
      s.breachRun.toNat = (bandAfter own).breaches := by
  have hfilter : own.filter (fun q => q.symbol = symbol) = own :=
    List.filter_eq_self.mpr (by simpa using hall)
  have hslot := slotState_run own symbol
  rw [if_pos (accepts_own hall)] at hslot
  have hband := slotState_band hslot
  rw [hfilter] at hslot hband
  refine ⟨_, hslot, ?_, congrArg Band.breaches hband⟩
  rw [← hband]
  exact slotState_refPrice hslot

/-- What the band shows of one symbol's records without the marked ones, the validator shows. -/
theorem same_of_band {ws : List (Bool × WireRecord ℚ)}
    (hall : ∀ rec ∈ whole ws, rec.symbol = symbol)
    (hsame : keptOf ws (transduce bandStep {} (whole ws)).2 = (transduce bandStep {} (kept ws)).2)
    (hband : (transduce bandStep {} (whole ws)).1 = (transduce bandStep {} (kept ws)).1) :
    keptOf ws ((run (whole ws)).2.map fun r => r.has .priceBandBreach) =
        (run (kept ws)).2.map (fun r => r.has .priceBandBreach) ∧
      ∃ s s', (run (whole ws)).1.slotState symbol = some s ∧
        (run (kept ws)).1.slotState symbol = some s' ∧
        s.refPrice = s'.refPrice ∧ s.breachRun = s'.breachRun := by
  have hkept : ∀ rec ∈ kept ws, rec.symbol = symbol :=
    fun rec hrec => hall rec (Marked.kept_subset ws hrec)
  refine ⟨by rw [breaches_own hall, breaches_own hkept, hsame], ?_⟩
  obtain ⟨s, hs, hprice, hrun⟩ := slotState_own hall
  obtain ⟨s', hs', hprice', hrun'⟩ := slotState_own hkept
  refine ⟨s, s', hs, hs', ?_, ?_⟩
  · rw [hprice, hprice', bandAfter, hband, bandAfter]
  · exact UInt32.toNat_inj.mp (by rw [hrun, hrun', bandAfter, hband, bandAfter])

end Own

theorem bandAfter_append (own own' : List (WireRecord ℚ)) :
    bandAfter (own ++ own') = (transduce bandStep (bandAfter own) own').1 := by
  rw [bandAfter, transduce_append]
  rfl

/-- A valid trade that is not flagged leaves a reference and no outliers behind it. -/
theorem bandAfter_unflagged {own : List (WireRecord ℚ)} {rec : WireRecord ℚ} {p : ℚ}
    (hprice : validTradePrice rec = some p) (hin : (bandStep (bandAfter own) rec).2 = false) :
    ∃ r, bandAfter (own ++ [rec]) = ⟨some r, 0⟩ := by
  rw [(bandStep_of_price hprice _).1] at hin
  rw [bandAfter_concat, (bandStep_of_price hprice _).1]
  obtain ⟨hzero, href⟩ := (sound_bandAfter own).breaches_of_inBand hin
  obtain ⟨r, href⟩ := Option.ne_none_iff_exists'.mp href
  refine ⟨r, ?_⟩
  rw [← href, ← hzero]

/-- Between two valid trades of a symbol that are not flagged, up to two more valid trades that
are flagged change no other verdict, nor what the band is in the end. The third in a row is the
new reference. -/
theorem outliers_isolated {symbol : Symbol} {before after : List (WireRecord ℚ)}
    {a b : WireTrade ℚ} {mid : List (Bool × WireRecord ℚ)}
    (hone : ∀ rec ∈ before ++ .trade a :: whole mid ++ .trade b :: after, rec.symbol = symbol)
    (hvalid : validTradePrice (.trade a) ≠ none ∧ validTradePrice (.trade b) ≠ none)
    (hmarks : ∀ w ∈ mid, w.1 = true ↔ validTradePrice w.2 ≠ none)
    (ha : ((run before).1.check (.trade a)).2.has .priceBandBreach = false)
    (hb : ((run (before ++ .trade a :: kept mid)).1.check (.trade b)).2.has .priceBandBreach =
      false)
    (hflag : ∀ pre w post, mid = pre ++ w :: post → w.1 = true →
      ((run (before ++ .trade a :: whole pre)).1.check w.2).2.has .priceBandBreach = true) :
    let ws := plain before ++ (false, .trade a) :: mid ++ (false, .trade b) :: plain after
    (mid.countP (·.1) ≤ 2 →
      keptOf ws ((run (whole ws)).2.map fun r => r.has .priceBandBreach) =
        (run (kept ws)).2.map (fun r => r.has .priceBandBreach) ∧
      ∃ s s', (run (whole ws)).1.slotState symbol = some s ∧
        (run (kept ws)).1.slotState symbol = some s' ∧
        s.refPrice = s'.refPrice ∧ s.breachRun = s'.breachRun) ∧
    ∀ pre z post, mid = pre ++ (true, .trade z) :: post → pre.countP (·.1) = 2 →
      ∃ s, (run (before ++ .trade a :: whole pre ++ [.trade z])).1.slotState symbol = some s ∧
        s.refPrice = z.price := by
  intro ws
  have hws : ws = plain (before ++ [.trade a]) ++ (mid ++ plain (.trade b :: after)) := by
    simp [ws, plain]
  have hjoin : ∀ us, before ++ .trade a :: us = before ++ [.trade a] ++ us := by simp
  simp only [List.forall_mem_append, List.forall_mem_cons] at hone
  obtain ⟨⟨hbefore, hsa, hmid⟩, hsb, hafter⟩ := hone
  have hpast : ∀ {us : List (WireRecord ℚ)}, us ⊆ whole mid →
      ∀ rec ∈ before ++ .trade a :: us, rec.symbol = symbol := by
    intro us hsub
    rw [List.forall_mem_append, List.forall_mem_cons]
    exact ⟨hbefore, hsa, fun rec hrec => hmid rec (hsub hrec)⟩
  obtain ⟨p, hp⟩ := Option.ne_none_iff_exists'.mp hvalid.1
  obtain ⟨q, hq⟩ := Option.ne_none_iff_exists'.mp hvalid.2
  rw [has_check_own hbefore hsa] at ha
  obtain ⟨r, hstart⟩ := bandAfter_unflagged hp ha
  have hbreach : MarkedBreach ⟨some r, 0⟩ mid := by
    intro pre w post hsplit hw
    have hflagged := hflag pre w post hsplit hw
    have hw' : w.2.symbol = symbol := hmid w.2 (by simp [hsplit, whole])
    rwa [has_check_own (hpast (by simp [hsplit])) hw', hjoin, bandAfter_append, hstart] at hflagged
  refine ⟨fun hfew => ?_, fun pre z post hsplit hcount => ?_⟩
  · obtain ⟨hverdicts, hwhole, hkept⟩ := marked_outliers hmarks hbreach (by omega)
    rw [has_check_own (hpast (Marked.kept_subset mid)) hsb, hjoin, bandAfter_append, hstart, hkept,
      (bandStep_of_price hq _).1] at hb
    -- the second trade is in the band and forgets the outliers
    have hforget : transduce bandStep (transduce bandStep ⟨some r, 0⟩ (whole mid)).1
        (.trade b :: after) =
        transduce bandStep (transduce bandStep ⟨some r, 0⟩ (kept mid)).1 (.trade b :: after) := by
      rw [hwhole, hkept]
      simp only [transduce, (bandStep_of_price hq _).1]
      rw [BandRule.step_eq_of_inBand rfl rfl hb]
    rw [← hstart] at hverdicts hforget
    obtain ⟨hsame, hbands⟩ := Marked.transduce_between hverdicts hforget
    rw [← hws] at hsame hbands
    have hwholeAll : ∀ rec ∈ whole ws, rec.symbol = symbol := by
      simp only [hws, Marked.whole_append, Marked.whole_plain, List.forall_mem_append,
        List.forall_mem_cons]
      exact ⟨⟨hbefore, hsa, by simp⟩, hmid, hsb, hafter⟩
    exact same_of_band hwholeAll hsame hbands
  · have hsub : whole pre ++ [.trade z] ⊆ whole mid := by simp [hsplit, whole]
    obtain ⟨s, hs, hprice, _⟩ := slotState_own (hpast hsub)
    have hz : validTradePrice (.trade z) ≠ none :=
      (hmarks (true, .trade z) (by simp [hsplit])).mp rfl
    have hz : validTradePrice (.trade z) = some z.price := by
      simpa [validTradePrice] using hz
    rw [hsplit, List.append_cons] at hbreach
    rw [hjoin, bandAfter_append, hstart, third_outlier hz (fun w hw => hmarks w (by simp [hsplit, hw]))
      hbreach.left hcount] at hprice
    exact ⟨s, by simpa using hs, hprice⟩

/-- A quote and then three trades at 200, after a trade at 100. -/
def fatFingers : List (Bool × WireRecord ℚ) :=
  [(false, .quote ⟨Vector.replicate 8 88, 2, 2, 100, 101, 1, 1⟩),
    (true, .trade ⟨Vector.replicate 8 88, 3, 3, 200, 1⟩),
    (true, .trade ⟨Vector.replicate 8 88, 4, 4, 200, 1⟩),
    (true, .trade ⟨Vector.replicate 8 88, 5, 5, 200, 1⟩)]

theorem outliers_isolated_fatFingers :
    ∃ s, (run (.trade ⟨Vector.replicate 8 88, 1, 1, 100, 1⟩ :: whole fatFingers)).1.slotState
        (Vector.replicate 8 88) = some s ∧ s.refPrice = 200 := by
  have hflag : ∀ pre w post, fatFingers = pre ++ w :: post → w.1 = true →
      ((run (.trade ⟨Vector.replicate 8 88, 1, 1, 100, 1⟩ :: whole pre)).1.check w.2).2.has
        .priceBandBreach = true := by
    intro pre w post hsplit hw
    rcases pre with _ | ⟨_, _ | ⟨_, _ | ⟨_, _ | ⟨_, pre⟩⟩⟩⟩
    all_goals
      simp only [fatFingers, List.nil_append, List.cons_append, List.cons.injEq] at hsplit
    · rw [← hsplit.1] at hw
      cases hw
    · obtain ⟨rfl, rfl, _⟩ := hsplit
      decide +kernel
    · obtain ⟨rfl, rfl, rfl, _⟩ := hsplit
      decide +kernel
    · obtain ⟨rfl, rfl, rfl, rfl, _⟩ := hsplit
      decide +kernel
    · simp at hsplit
  have hone : ∀ rec ∈ [] ++ .trade ⟨Vector.replicate 8 88, 1, 1, 100, 1⟩ :: whole fatFingers ++
      [.trade ⟨Vector.replicate 8 88, 6, 6, 101, 1⟩], rec.symbol = Vector.replicate 8 88 := by
    simp [fatFingers, whole, WireRecord.symbol]
  exact (outliers_isolated hone (by decide +kernel) (by decide +kernel) (by decide +kernel)
    (by decide +kernel) hflag).2 (fatFingers.take 3) ⟨Vector.replicate 8 88, 5, 5, 200, 1⟩ []
    (by decide +kernel) (by decide +kernel)

end Validator

end OhlcvValidator
