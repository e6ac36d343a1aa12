import OhlcvValidator.TimeSplit
import OhlcvValidator.TradingFeatures

namespace OhlcvValidator

namespace IndexArrays

variable {S : Type} [LinearOrder S]

theorem sortedDistinct_replicate {n : Nat} (hn : 0 < n) (x : S) :
    sortedDistinct (List.replicate n x) = [x] := by
  have hperm : (sortedDistinct (List.replicate n x)).Perm [x] := by
    refine (List.perm_ext_iff_of_nodup (nodup_sortedDistinct _) (List.nodup_singleton x)).mpr ?_
    intro y
    rw [mem_sortedDistinct, List.mem_replicate, List.mem_singleton]
    exact and_iff_right hn.ne'
  exact List.perm_singleton.mp hperm

/-- Sorting what is in order changes nothing. -/
theorem stableArgsort_of_sorted {xs : List S} (h : xs.Pairwise (· ≤ ·)) :
    stableArgsort xs = List.range xs.length := by
  have hvalue : xs.zipIdx.Pairwise fun p q => p.1 ≤ q.1 := by
    rwa [← List.pairwise_map, List.zipIdx_map_fst]
  have hindex : xs.zipIdx.Pairwise fun p q => p.2 < q.2 := by
    rw [← List.pairwise_map, List.zipIdx_map_snd]
    exact List.pairwise_lt_range'
  have hsorted : (xs.zipIdx.map toLex).Pairwise (· ≤ ·) := by
    rw [List.pairwise_map]
    refine (hvalue.and hindex).imp ?_
    intro p q hpq
    exact Prod.Lex.le_iff.mpr (hpq.1.lt_or_eq.imp_right fun heq => ⟨heq, hpq.2.le⟩)
  rw [stableArgsort, hsorted.insertionSort_eq, List.map_map]
  exact (List.zipIdx_map_snd 0 xs).trans List.range_eq_range'.symm

end IndexArrays

namespace Ml

open Replay (DoubleBits)
open Replay.Py (ReplayData)

variable {Y T : Type} [LinearOrder Y] [LinearOrder T]

theorem rowsOf_replicate (n : Nat) (sym : Y) :
    rowsOf (List.replicate n sym) sym = List.range n := by
  rw [rowsOf, List.length_replicate, List.filter_eq_self]
  intro i hi
  simp [List.mem_range.mp hi]

theorem timeOrdered_range {startNs : List T} (h : startNs.Pairwise (· ≤ ·)) :
    timeOrdered startNs (List.range startNs.length) = List.range startNs.length := by
  rw [timeOrdered, IndexArrays.gather_range, IndexArrays.stableArgsort_of_sorted h]
  simpa using IndexArrays.gather_range (List.range startNs.length)

/-- One symbol's rows in time order are cut where they stand. -/
theorem timeSplit_single {startNs : List T} (hne : startNs ≠ []) (h : startNs.Pairwise (· ≤ ·))
    (sym : Y) {fitFrac calibFrac : ℚ} (hfit : 0 ≤ fitFrac) (hcal : 0 ≤ calibFrac)
    (hsum : fitFrac + calibFrac ≤ 1) :
    ∃ a b : Nat, (a : Int) = ⌊startNs.length * fitFrac⌋ ∧
      (b : Int) = ⌊startNs.length * fitFrac⌋ + ⌊startNs.length * calibFrac⌋ ∧
      a ≤ b ∧ b ≤ startNs.length ∧
      timeSplit (List.replicate startNs.length sym) startNs fitFrac calibFrac =
        ⟨List.range a, List.range' a (b - a), List.range' b (startNs.length - b)⟩ := by
  obtain ⟨happend, hf, hc⟩ := timeBlocks_spec hfit hcal hsum (List.range startNs.length)
  have hsplit : timeSplit (List.replicate startNs.length sym) startNs fitFrac calibFrac =
      timeBlocks fitFrac calibFrac (List.range startNs.length) := by
    simp [timeSplit, IndexArrays.sortedDistinct_replicate (List.length_pos_iff.mpr hne),
      symbolBlocks, rowsOf_replicate, timeOrdered_range h]
  rw [List.length_range] at hf hc
  rw [hsplit]
  generalize timeBlocks fitFrac calibFrac (List.range startNs.length) = blocks at *
  obtain ⟨fit, calibrate, test⟩ := blocks
  have hlen := congrArg List.length happend
  simp only [List.length_append, List.length_range] at hlen hf hc happend
  have hrange : List.range startNs.length = List.range fit.length ++
      List.range' fit.length calibrate.length ++
      List.range' (fit.length + calibrate.length) test.length := by
    have hmid := List.range'_append_1 (s := 0) (m := fit.length) (n := calibrate.length)
    have hall := List.range'_append_1 (s := 0) (m := fit.length + calibrate.length)
      (n := test.length)
    rw [Nat.zero_add] at hmid hall
    rw [List.range_eq_range', List.range_eq_range', hmid, hall, hlen]
  rw [hrange] at happend
  obtain ⟨hclean, htest⟩ := List.append_inj happend (by simp)
  obtain ⟨hfirst, hsecond⟩ := List.append_inj hclean (by simp)
  refine ⟨fit.length, fit.length + calibrate.length, hf, by rw [← hf, ← hc]; exact Nat.cast_add _ _,
    by omega, by omega, ?_⟩
  rw [Nat.add_sub_cancel_left, ← hlen, Nat.add_sub_cancel_left, ← hfirst, ← hsecond, ← htest]

section Frame

variable {F : Type} [PriceArith F] (numpy : NumpyFns F) {ofBits : DoubleBits → F}

/-- Bars of one symbol in time order give their rows in that order. -/
theorem extractFeatures_oneSymbol {data : ReplayData} {sym : Symbol} (hascii : Ascii sym)
    (hsym : ∀ b ∈ data.bars, b.body.symbol = sym) (hsorted : data.bars.Pairwise StartsBy)
    (window : Int) :
    extractFeatures numpy ofBits data window = .ok (featureRows numpy ofBits sym window data.bars) := by
  obtain ⟨frame, hframe⟩ := (extractFeatures_isOk_iff numpy ofBits data window).mpr
    fun b hb => hsym b hb ▸ hascii
  have hbars : ∀ other, barsOf data.bars other = if other = sym then data.bars else [] := by
    intro other
    split
    next heq => exact List.filter_eq_self.mpr fun b hb => by simp [hsym b hb, heq]
    next hne => exact List.filter_eq_nil_iff.mpr fun b hb => by simpa [hsym b hb] using Ne.symm hne
  have hall : ∀ row ∈ frame, row.symbol = sym := by
    intro row hrow
    by_contra hne
    have hmem : row ∈ frame.filter fun r => r.symbol = row.symbol :=
      List.mem_filter.mpr ⟨hrow, by simp⟩
    rw [extractFeatures_symbol numpy ofBits hframe, hbars, if_neg hne] at hmem
    cases hmem
  have hown := extractFeatures_symbol numpy ofBits hframe sym
  rw [List.filter_eq_self.mpr fun row hrow => by simpa using hall row hrow, hbars, if_pos rfl,
    timeSorted, hsorted.insertionSort_eq] at hown
  rw [hframe, hown]

end Frame

end Ml

end OhlcvValidator
