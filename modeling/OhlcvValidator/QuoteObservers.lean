import OhlcvValidator.MarkedStream
import OhlcvValidator.SequencingCursor

namespace OhlcvValidator

namespace Validator

open Marked (whole kept keptOf)
open PriceArith (lit fabs lt)

section Values

variable {F : Type} [PriceArith F]

/-- What a record does to its slot after the sequencing check. -/
def valueState (rec : WireRecord F) (s : Slot F) (r : Result) : Slot F × Result :=
  match rec with
  | .trade t =>
    if validPrice t && validSize t then checkPriceBand (accumulate s t.price t.size) t.price r
    else (s, r)
  | .bar b => reconcile s b r
  | .quote q =>
    if s.refInit && lt (lit 0) q.bidPrice && lt (lit 0) q.askPrice then
      (s, r.flagIf (lt (lit kPriceBandFrac * s.refPrice)
        (fabs ((q.bidPrice + q.askPrice) * lit (1 / 2) - s.refPrice))) .priceBandBreach)
    else (s, r)

theorem stateful_eq (rec : WireRecord F) (s : Slot F) (r : Result) :
    stateful rec s r = valueState rec (checkSequencing s rec.stream rec.stamp rec.seq r).1
      (checkSequencing s rec.stream rec.stamp rec.seq r).2 := by
  cases rec <;> rfl

/-- A slot without its cursors. -/
def Slot.values (s : Slot F) : Slot F :=
  { s with lastTs := fun _ => 0, lastSeq := 0, seen := false }

theorem values_checkSequencing (s : Slot F) (stream : Stream) (ts seq : UInt64) (r : Result) :
    (checkSequencing s stream ts seq r).1.values = s.values := rfl

theorem checkPriceBand_values (s : Slot F) (price : F) (r : Result) :
    checkPriceBand s.values price r =
      ((checkPriceBand s price r).1.values, (checkPriceBand s price r).2) := by
  unfold checkPriceBand Slot.values
  dsimp only
  split
  next => rfl
  next =>
    split
    next => split <;> rfl
    next => rfl

theorem accumulate_values (s : Slot F) (price : F) (size : UInt64) :
    accumulate s.values price size = (accumulate s price size).values := by
  unfold accumulate Slot.values
  dsimp only
  split <;> rfl

theorem reconcile_values (s : Slot F) (b : WireBar F) (r : Result) :
    reconcile s.values b r = ((reconcile s b r).1.values, (reconcile s b r).2) := by
  unfold reconcile Slot.values
  dsimp only
  split <;> rfl

/-- The cursors are neither read nor written. -/
theorem valueState_values (rec : WireRecord F) (s : Slot F) (r : Result) :
    valueState rec s.values r = ((valueState rec s r).1.values, (valueState rec s r).2) := by
  cases rec with
  | trade t =>
    unfold valueState
    dsimp only
    split
    next => rw [accumulate_values, checkPriceBand_values]
    next => rfl
  | bar b => exact reconcile_values s b r
  | quote q =>
    by_cases h : (s.refInit && lt (lit 0) q.bidPrice && lt (lit 0) q.askPrice) = true
    · rw [valueState, valueState, if_pos h]
      exact if_pos h
    · rw [valueState, valueState, if_neg h]
      exact if_neg h

/-- The flags that were there before stay, and decide nothing. -/
theorem checkPriceBand_result (s : Slot F) (price : F) (r : Result) :
    (checkPriceBand s price r).1 = (checkPriceBand s price {}).1 ∧
      ∀ v, (checkPriceBand s price r).2.has v =
        (r.has v || (checkPriceBand s price {}).2.has v) := by
  unfold checkPriceBand
  split
  next => simp
  next =>
    split
    next =>
      dsimp only
      split <;> simp
    next => simp

theorem reconcile_result (s : Slot F) (b : WireBar F) (r : Result) :
    (reconcile s b r).1 = (reconcile s b {}).1 ∧
      ∀ v, (reconcile s b r).2.has v = (r.has v || (reconcile s b {}).2.has v) := by
  unfold reconcile
  split
  next => simp
  next =>
    dsimp only
    split <;> simp [Bool.or_assoc]

theorem valueState_result (rec : WireRecord F) (s : Slot F) (r : Result) :
    (valueState rec s r).1 = (valueState rec s {}).1 ∧
      ∀ v, (valueState rec s r).2.has v = (r.has v || (valueState rec s {}).2.has v) := by
  cases rec with
  | trade t =>
    unfold valueState
    dsimp only
    split
    next => exact checkPriceBand_result ..
    next => simp
  | bar b => exact reconcile_result ..
  | quote q =>
    unfold valueState
    dsimp only
    split <;> simp

end Values

section SameValues

variable {F : Type} [PriceArith F] {s s' : Slot F}

/-- Slots that differ in the last sequence number and the last quote only. -/
structure SameValues (s s' : Slot F) : Prop where
  values : s.values = s'.values
  stamps : ∀ stream, stream ≠ .quote → s.lastTs stream = s'.lastTs stream

theorem values_stateful (rec : WireRecord F) (s : Slot F) (r : Result) :
    (stateful rec s r).1.values = (valueState rec s.values {}).1 := by
  rw [stateful_eq, ← values_checkSequencing s rec.stream rec.stamp rec.seq r, valueState_values,
    (valueState_result rec _ (checkSequencing s rec.stream rec.stamp rec.seq r).2).1]

theorem has_stateful_values (rec : WireRecord F) (s : Slot F) (r : Result) (v : Violation) :
    (stateful rec s r).2.has v = ((checkSequencing s rec.stream rec.stamp rec.seq r).2.has v ||
      (valueState rec s.values {}).2.has v) := by
  rw [stateful_eq, (valueState_result ..).2,
    ← values_checkSequencing s rec.stream rec.stamp rec.seq r, valueState_values]

theorem SameValues.stateful (h : SameValues s s') (rec : WireRecord F) (r r' : Result) :
    SameValues (stateful rec s r).1 (stateful rec s' r').1 where
  values := by rw [values_stateful, values_stateful, h.values]
  stamps := by
    intro stream hs
    rw [(stateful_keeps rec s r).2.1, (stateful_keeps rec s' r').2.1]
    by_cases heq : stream = rec.stream
    · rw [heq, Function.update_self, Function.update_self]
    · rw [Function.update_of_ne heq, Function.update_of_ne heq, h.stamps stream hs]

/-- A quote leaves the values and the other stamps alone. -/
theorem SameValues.quote (h : SameValues s s') {rec : WireRecord F} (hq : rec.stream = .quote)
    (r : Result) : SameValues (Validator.stateful rec s r).1 s' where
  values := by
    rw [values_stateful, ← h.values]
    cases rec with
    | trade t => cases hq
    | bar b => cases hq
    | quote q =>
      unfold valueState
      dsimp only
      split <;> rfl
  stamps := by
    intro stream hs
    rw [(stateful_keeps rec s r).2.1, hq, Function.update_of_ne hs, h.stamps stream hs]

/-- The flags that a record gets from such slots. -/
theorem SameValues.has_stateful (h : SameValues s s') (rec : WireRecord F) (r : Result)
    {v : Violation} (hgap : v ≠ .sequenceGap)
    (hts : rec.stream = .quote → v ≠ .timestampRegression) :
    (Validator.stateful rec s r).2.has v = (Validator.stateful rec s' r).2.has v := by
  have hseq : (checkSequencing s rec.stream rec.stamp rec.seq r).2.has v =
      (checkSequencing s' rec.stream rec.stamp rec.seq r).2.has v := by
    by_cases hv : v = .timestampRegression
    · subst hv
      rw [has_checkSequencing_ts, has_checkSequencing_ts,
        h.stamps rec.stream fun hq => hts hq rfl]
    · rw [has_checkSequencing _ _ _ _ _ hv hgap, has_checkSequencing _ _ _ _ _ hv hgap]
  rw [has_stateful_values, has_stateful_values, hseq, h.values]

theorem sameValues_solo (k : UInt64) {own : List (Bool × WireRecord F)}
    (hmarks : ∀ w ∈ own, w.1 = true → w.2.stream = .quote) :
    SameValues (solo k (whole own)).1 (solo k (kept own)).1 := by
  induction own using List.reverseRecOn with
  | nil => exact ⟨rfl, fun _ _ => rfl⟩
  | append_singleton own w ih =>
    obtain ⟨hown, hw⟩ := List.forall_mem_append.mp hmarks
    obtain ⟨mark, rec⟩ := w
    have hsame := ih hown
    rw [Marked.whole_append, Marked.kept_append]
    cases mark with
    | true =>
      have hq : rec.stream = .quote := hw (true, rec) (by simp) rfl
      simp only [whole, kept, List.map_cons, List.map_nil, List.filter_cons, Bool.not_true,
        Bool.false_eq_true, if_false, List.filter_nil, List.append_nil] at hsame ⊢
      rw [solo_concat]
      exact hsame.quote hq _
    | false =>
      simp only [whole, kept, List.map_cons, List.map_nil, List.filter_cons, Bool.not_false,
        if_true, List.filter_nil] at hsame ⊢
      rw [solo_concat, solo_concat]
      exact hsame.stateful rec _ _

end SameValues

variable {F : Type} [PriceArith F]

/-- With few enough symbols, a record is checked against what its symbol's own records left. -/
theorem check_solo_of_few {pre : List (WireRecord F)} {rec : WireRecord F}
    (h : ((pre ++ [rec]).map WireRecord.symbol).toFinset.card ≤ 4096) :
    ((run pre).1.check rec).2 = (stateful rec (solo (symbolKey rec.symbol)
      (pre.filter fun q => q.symbol = rec.symbol)).1 (statelessFlags rec)).2 := by
  obtain ⟨hroom, hcheck⟩ := check_of_few h
  rw [hcheck, (slots_run hroom).1]

/-- The flags that a record gets after all records, and after those that remain. -/
theorem has_check_kept {ws : List (Bool × WireRecord F)} {rec : WireRecord F}
    (hmarks : ∀ w ∈ ws, w.1 = true → w.2.stream = .quote)
    (hfew : ((whole ws ++ [rec]).map WireRecord.symbol).toFinset.card ≤ 4096) {v : Violation}
    (hgap : v ≠ .sequenceGap) (hts : rec.stream = .quote → v ≠ .timestampRegression) :
    ((run (whole ws)).1.check rec).2.has v = ((run (kept ws)).1.check rec).2.has v := by
  have hfewKept : ((kept ws ++ [rec]).map WireRecord.symbol).toFinset.card ≤ 4096 :=
    few_of_subset (List.append_subset.mpr ⟨fun _ hq => List.mem_append_left _
      (Marked.kept_subset ws hq), List.subset_append_right _ _⟩) hfew
  rw [check_solo_of_few hfew, check_solo_of_few hfewKept, Marked.whole_filter, Marked.kept_filter]
  refine (sameValues_solo _ fun w hw => ?_).has_stateful rec _ hgap hts
  exact hmarks w (List.mem_of_mem_filter hw)

/-- The results of what remains without some of the quotes are the same, but for sequence gaps
and for the timestamps of quotes. -/
theorem quotes_observe {ws : List (Bool × WireRecord F)}
    (hmarks : ∀ w ∈ ws, w.1 = true → w.2.stream = .quote)
    (hfew : ((whole ws).map WireRecord.symbol).toFinset.card ≤ 4096) :
    List.Forall₂ (fun p q => p.1 = q.1 ∧ ∀ v, v ≠ .sequenceGap →
        (p.1.stream = .quote → v ≠ .timestampRegression) → p.2.has v = q.2.has v)
      (keptOf ws ((whole ws).zip (run (whole ws)).2)) ((kept ws).zip (run (kept ws)).2) := by
  induction ws using List.reverseRecOn with
  | nil => exact List.Forall₂.nil
  | append_singleton ws w ih =>
    obtain ⟨hws, hw⟩ := List.forall_mem_append.mp hmarks
    obtain ⟨mark, rec⟩ := w
    have hwhole : whole (ws ++ [(mark, rec)]) = whole ws ++ [rec] := by simp [whole]
    rw [hwhole] at hfew ⊢
    have hpre := ih hws (few_of_subset (List.subset_append_left _ _) hfew)
    have hlen : ((whole ws).zip (run (whole ws)).2).length = ws.length := by
      simp [length_run]
    rw [run_concat, List.zip_append (by simp [length_run]), Marked.keptOf_append hlen]
    cases mark with
    | true =>
      have hkept : kept (ws ++ [(true, rec)]) = kept ws := by simp [kept]
      rw [hkept]
      simpa [keptOf] using hpre
    | false =>
      have hkept : kept (ws ++ [(false, rec)]) = kept ws ++ [rec] := by simp [kept]
      rw [hkept, run_concat, List.zip_append (by simp [length_run])]
      exact List.rel_append hpre (List.Forall₂.cons
        ⟨rfl, fun v hgap hts => has_check_kept hws hfew hgap hts⟩ List.Forall₂.nil)

/-- Two quotes beside a trade and a bar, the second older than the first. -/
def quotedTrade : List (Bool × WireRecord ℚ) :=
  [(true, .quote ⟨Vector.replicate 8 88, 9, 1, 50, 51, 1, 1⟩),
    (false, .trade ⟨Vector.replicate 8 88, 2, 2, 100, 1⟩),
    (true, .quote ⟨Vector.replicate 8 88, 3, 3, 50, 51, 1, 1⟩),
    (false, .bar ⟨Vector.replicate 8 88, 1, 4, 100, 100, 100, 100, 100, 1, 1⟩)]

theorem quotes_observe_quotedTrade :
    ((run (whole quotedTrade)).2.map fun r => r.has .timestampRegression) =
        [false, false, true, false] ∧
      List.Forall₂ (fun p q => p.1 = q.1 ∧ ∀ v, v ≠ .sequenceGap →
          (p.1.stream = .quote → v ≠ .timestampRegression) → p.2.has v = q.2.has v)
        (keptOf quotedTrade ((whole quotedTrade).zip (run (whole quotedTrade)).2))
        ((kept quotedTrade).zip (run (kept quotedTrade)).2) :=
  ⟨by decide +kernel, quotes_observe (by decide +kernel) (by decide +kernel)⟩

end Validator

end OhlcvValidator
