import OhlcvValidator.MaskIndex
import OhlcvValidator.SequencingCursor

namespace OhlcvValidator

namespace Validator

section Previous

variable {F : Type} {own : List (WireRecord F)} {rec : WireRecord F}

/-- How many sequence numbers a record skips after the last of the records before it. -/
def skippedBefore (own : List (WireRecord F)) (rec : WireRecord F) : Nat :=
  (own.getLast?.map fun prev => rec.seq.toNat - (prev.seq.toNat + 1)).getD 0

theorem skips_iff_previous (hseq : ∀ q ∈ own, q.seq.toNat < 2 ^ 64 - 1) :
    Skips own rec ↔ ∃ prev, own.getLast? = some prev ∧ prev.seq.toNat + 1 < rec.seq.toNat := by
  rcases List.eq_nil_or_concat own with rfl | ⟨own, prev, rfl⟩
  · simp [Skips]
  · have hprev := hseq prev (by simp)
    have hsucc : (prev.seq + 1).toNat = prev.seq.toNat + 1 := toNat_succ hprev
    simp [Skips, lastSeqOf, UInt64.lt_iff_toNat_lt, hsucc]

theorem regresses_iff_previous {stream : Stream} {ts : UInt64} :
    (lastStamp stream own ≠ 0 ∧ ts < lastStamp stream own) ↔
      ∃ prev, (own.filter fun q => q.stream = stream).getLast? = some prev ∧ ts < prev.stamp := by
  unfold lastStamp
  cases (own.filter fun q => q.stream = stream).getLast? with
  | none => simp
  | some prev =>
    -- a last timestamp of 0 has nothing below it, so the sentinel hides no regression
    have hpos : ts < prev.stamp → prev.stamp ≠ 0 := by
      intro hlt hz
      rw [hz, UInt64.lt_iff_toNat_lt, UInt64.toNat_zero] at hlt
      omega
    simp only [Option.map_some, Option.getD_some, Option.some.injEq, exists_eq_left']
    exact ⟨And.right, fun hlt => ⟨hpos hlt, hlt⟩⟩

theorem toNat_gap (hseq : ∀ q ∈ own, q.seq.toNat < 2 ^ 64 - 1) :
    (if Skips own rec then rec.seq - lastSeqOf own - 1 else 0).toNat = skippedBefore own rec := by
  rcases List.eq_nil_or_concat own with rfl | ⟨own, prev, rfl⟩
  · simp [Skips, skippedBefore]
  · have hprev := hseq prev (by simp)
    have hlast : lastSeqOf (own.concat prev) = prev.seq := by simp [lastSeqOf]
    have hskip : skippedBefore (own.concat prev) rec = rec.seq.toNat - (prev.seq.toNat + 1) := by
      simp [skippedBefore]
    rw [hskip]
    split
    next h =>
      obtain ⟨_, hget, hlt⟩ := (skips_iff_previous hseq).mp h
      obtain rfl : prev = _ := by simpa using hget
      have hdist : (rec.seq - prev.seq).toNat = rec.seq.toNat - prev.seq.toNat :=
        UInt64.toNat_sub_of_le _ _ (UInt64.le_iff_toNat_le.mpr (by omega))
      have hone : (1 : UInt64) ≤ rec.seq - prev.seq := by
        rw [UInt64.le_iff_toNat_le, hdist, UInt64.toNat_one]
        omega
      rw [hlast, UInt64.toNat_sub_of_le _ _ hone, hdist, UInt64.toNat_one]
      omega
    next h =>
      have : ¬prev.seq.toNat + 1 < rec.seq.toNat := fun hlt =>
        h ((skips_iff_previous hseq).mpr ⟨prev, by simp, hlt⟩)
      rw [UInt64.toNat_zero]
      omega

end Previous

variable {F : Type} [PriceArith F]

/-- With increasing sequence numbers, each number from the first to the last is a record's or
in the gap right before one. -/
theorem sum_gaps_solo (k : UInt64) {own : List (WireRecord F)}
    (hseq : ∀ q ∈ own, q.seq.toNat < 2 ^ 64 - 1)
    (hinc : own.Pairwise fun x y => x.seq < y.seq) {first last : WireRecord F}
    (hfirst : own.head? = some first) (hlast : own.getLast? = some last) :
    ((solo k own).2.map fun r => r.gap.toNat).sum + own.length + first.seq.toNat =
      last.seq.toNat + 1 := by
  induction own using List.reverseRecOn generalizing last with
  | nil => simp at hlast
  | append_singleton own rec ih =>
    obtain rfl : rec = last := by simpa using hlast
    have hown : ∀ q ∈ own, q.seq.toNat < 2 ^ 64 - 1 := fun q hq => hseq q (by simp [hq])
    have hgap := congrArg UInt64.toNat ((cursor_solo k own).gap_stateful rec)
    rw [toNat_gap hown] at hgap
    rw [solo_concat, List.map_append, List.sum_append, List.map_singleton, List.sum_singleton, hgap,
      List.length_append, List.length_singleton]
    rcases List.eq_nil_or_concat own with rfl | ⟨init, prev, rfl⟩
    · obtain rfl : rec = first := by simpa using hfirst
      simp [solo, skippedBefore]
      omega
    · obtain ⟨hinc', _, hlt⟩ := List.pairwise_append.mp hinc
      have hlt := UInt64.lt_iff_toNat_lt.mp (hlt prev (by simp) rec (by simp))
      have ih := ih hown hinc' (by simpa using hfirst)
        (show (init.concat prev).getLast? = some prev by simp)
      have hskip : skippedBefore (init.concat prev) rec = rec.seq.toNat - (prev.seq.toNat + 1) := by
        simp [skippedBefore]
      omega

/-- Sequencing over every interleaving of record types and symbols: a record is compared with
the last one of its symbol, its timestamp with the last one of its symbol and type, and the gaps
of a symbol whose numbers increase account for all numbers that it skipped. -/
theorem mixed_sequencing_exact {recs : List (WireRecord F)}
    (hfew : (recs.map WireRecord.symbol).toFinset.card ≤ 4096)
    (hseq : ∀ rec ∈ recs, rec.seq.toNat < 2 ^ 64 - 1) :
    (∀ pre rec post, recs = pre ++ rec :: post →
      ∃ r, (run recs).2[pre.length]? = some r ∧
        (r.has .sequenceGap = true ↔
          ∃ prev, (pre.filter fun q => q.symbol = rec.symbol).getLast? = some prev ∧
            prev.seq.toNat + 1 < rec.seq.toNat) ∧
        r.gap.toNat = skippedBefore (pre.filter fun q => q.symbol = rec.symbol) rec ∧
        (r.has .timestampRegression = true ↔
          ∃ prev, (pre.filter fun q => q.symbol = rec.symbol ∧ q.stream = rec.stream).getLast? =
              some prev ∧
            rec.stamp < prev.stamp)) ∧
    ∀ symbol first last,
      (recs.filter fun q => q.symbol = symbol).Pairwise (fun x y => x.seq < y.seq) →
      (recs.filter fun q => q.symbol = symbol).head? = some first →
      (recs.filter fun q => q.symbol = symbol).getLast? = some last →
      ((resultsFor symbol recs (run recs).2).map fun r => r.gap.toNat).sum +
          (recs.filter fun q => q.symbol = symbol).length =
        last.seq.toNat - first.seq.toNat + 1 := by
  refine ⟨?_, ?_⟩
  · rintro pre rec post rfl
    have hown : ∀ q ∈ pre.filter (fun q => q.symbol = rec.symbol), q.seq.toNat < 2 ^ 64 - 1 :=
      fun q hq => hseq q (by simp [(List.mem_filter.mp hq).1])
    obtain ⟨r, hr, hts, hskip, hgap, _⟩ := sequencing_exact hfew
    refine ⟨r, hr, hskip.trans (skips_iff_previous hown), ?_, ?_⟩
    · rw [hgap, toNat_gap hown]
    · simp only [hts, regresses_iff_previous, List.filter_filter, Bool.decide_and, Bool.and_comm]
  · intro symbol first last hinc hfirst hlast
    have hown : ∀ q ∈ recs.filter (fun q => q.symbol = symbol), q.seq.toNat < 2 ^ 64 - 1 :=
      fun q hq => hseq q (List.mem_filter.mp hq).1
    have hmem := mem_firstDistinct_or_not_mem (few_keys hfew) (symbolKey symbol)
    have hsum := sum_gaps_solo (symbolKey symbol) hown hinc hfirst hlast
    have hpos : 0 < (recs.filter fun q => q.symbol = symbol).length :=
      List.length_pos_of_mem (List.mem_of_getLast? hlast)
    rw [(slots_run hmem).2]
    omega

/-- Two skips of one symbol across record types, around another symbol's quote; the second
trade is older than the first, the bar between them is not compared with it. -/
def skipsAcrossTypes : List (WireRecord ℚ) :=
  [.trade ⟨Vector.replicate 8 88, 5, 1, 10, 2⟩, .quote ⟨Vector.replicate 8 89, 9, 7, 5, 6, 1, 1⟩,
    .bar ⟨Vector.replicate 8 88, 3, 4, 10, 10, 10, 10, 10, 2, 1⟩,
    .trade ⟨Vector.replicate 8 88, 4, 6, 10, 1⟩]

theorem mixed_sequencing_exact_skipsAcrossTypes :
    (∃ r, (run skipsAcrossTypes).2[3]? = some r ∧ r.has .sequenceGap = true ∧
      r.gap.toNat = 1 ∧ r.has .timestampRegression = true) ∧
    ((resultsFor (Vector.replicate 8 88) skipsAcrossTypes (run skipsAcrossTypes).2).map
      fun r => r.gap.toNat).sum + 3 = 6 - 1 + 1 := by
  obtain ⟨hflags, hsum⟩ := mixed_sequencing_exact
    (show (skipsAcrossTypes.map WireRecord.symbol).toFinset.card ≤ 4096 by decide) (by decide)
  refine ⟨?_, ?_⟩
  · obtain ⟨r, hr, hskip, hgap, hts⟩ := hflags (skipsAcrossTypes.take 3)
      (.trade ⟨Vector.replicate 8 88, 4, 6, 10, 1⟩) [] rfl
    exact ⟨r, hr, hskip.mpr ⟨_, rfl, by decide⟩, hgap, hts.mpr ⟨_, rfl, by decide⟩⟩
  · exact hsum (Vector.replicate 8 88) _ _ (by decide) rfl rfl

end Validator

end OhlcvValidator
