import OhlcvValidator.IndexArrays
import OhlcvValidator.RankSum

namespace OhlcvValidator

namespace Ml

open IndexArrays (masked assign stableArgsort)
open RankSum (above tied rankSum)

variable {S : Type} [LinearOrder S]

/-- NumPy as far as the metric uses it: `argsort` returns a sorting permutation of its own choice,
`empty` an array of any content. -/
structure NumpySort (S : Type) [LinearOrder S] where
  argsort : List S → List Nat
  empty : Nat → List ℚ
  perm : ∀ xs, (argsort xs).Perm (List.range xs.length)
  sorted : ∀ xs, (argsort xs).Pairwise fun i j =>
    ∀ x y, xs[i]? = some x → xs[j]? = some y → x ≤ y
  length_empty : ∀ n, (empty n).length = n

/-- ROC AUC by ranks; `none` stands for NaN. -/
def auc (np : NumpySort S) (score : List S) (label : List Bool) : Option ℚ :=
  let pos := masked score label
  let neg := masked score (label.map not)
  if pos.length = 0 ∨ neg.length = 0 then none
  else
    let allv := pos ++ neg
    let order := np.argsort allv
    let ranks := assign (np.empty allv.length) order
      ((List.range' 1 allv.length).map fun k : Nat => (k : ℚ))
    some (((ranks.take pos.length).sum - pos.length * (pos.length + 1) / 2) /
      (pos.length * neg.length))

/-- The Mann-Whitney statistic: the share of pairs that are ranked right, ties counted half. -/
def mannWhitney (pos neg : List S) : ℚ :=
  (above pos neg + tied pos neg / 2) / (pos.length * neg.length)

section Split

variable {n p : Nat}

theorem filter_range_lt (hp : p ≤ n) : (List.range n).filter (· < p) = List.range p := by
  obtain ⟨m, rfl⟩ := Nat.exists_eq_add_of_le hp
  rw [List.range_add, List.filter_append, List.filter_eq_self.mpr, List.filter_eq_nil_iff.mpr,
    List.append_nil]
  · simp
  · simp

theorem filter_range_ge (hp : p ≤ n) :
    ((List.range n).filter fun i => !decide (i < p)) = (List.range (n - p)).map (p + ·) := by
  obtain ⟨m, rfl⟩ := Nat.exists_eq_add_of_le hp
  rw [List.range_add, List.filter_append, List.filter_eq_nil_iff.mpr, List.filter_eq_self.mpr,
    List.nil_append, Nat.add_sub_cancel_left]
  · simp
  · simp

theorem map_getD_range {α : Type} {xs : List α} (hp : p ≤ xs.length) (a : α) :
    (List.range p).map (fun i => xs.getD i a) = xs.take p := by
  apply List.ext_getElem?
  intro i
  rw [List.getElem?_map, List.getElem?_take]
  by_cases hi : i < p
  · rw [if_pos hi, List.getElem?_range hi, Option.map_some, List.getD_eq_getElem?_getD,
      List.getElem?_eq_getElem (by omega)]
    rfl
  · rw [if_neg hi, List.getElem?_eq_none (by simpa using hi)]
    rfl

/-- The first entries of an array are those with a small index. -/
theorem sum_take_eq {ranks : List ℚ} {order : List Nat} (hperm : order.Perm (List.range n))
    (hlen : ranks.length = n) (hp : p ≤ n) :
    (ranks.take p).sum = ((order.filter (· < p)).map fun i => ranks.getD i 0).sum := by
  rw [((hperm.filter _).map _).sum_eq, filter_range_lt hp, map_getD_range (hlen ▸ hp)]

end Split

section Order

variable {pos neg : List S} {order : List Nat}

/-- The places of the anomalies in an order that breaks no tie in their favour. -/
theorem two_mul_rankSum_order (hpos : pos ≠ [])
    (hperm : order.Perm (List.range (pos ++ neg).length))
    (hsorted : order.Pairwise fun i j => ∀ x y, (pos ++ neg)[i]? = some x →
      (pos ++ neg)[j]? = some y → x ≤ y ∧ (pos.length ≤ i → j < pos.length → x ≠ y)) :
    2 * rankSum (fun i => decide (i < pos.length)) 1 order =
      pos.length * (pos.length + 1) + 2 * above pos neg := by
  obtain ⟨a, -⟩ := List.exists_mem_of_ne_nil pos hpos
  have hle : pos.length ≤ (pos ++ neg).length := by simp
  have hentry : ∀ i ∈ order, (pos ++ neg)[i]? = some ((pos ++ neg).getD i a) := by
    intro i hi
    have hlt := List.mem_range.mp (hperm.mem_iff.mp hi)
    rw [List.getD_eq_getElem?_getD, List.getElem?_eq_getElem hlt]
    rfl
  have hpairs : order.Pairwise fun i j =>
      (pos ++ neg).getD i a ≤ (pos ++ neg).getD j a ∧ (decide (i < pos.length) = false →
        decide (j < pos.length) = true → (pos ++ neg).getD i a < (pos ++ neg).getD j a) := by
    refine hsorted.imp_of_mem fun hi hj h => ?_
    obtain ⟨hxy, hne⟩ := h _ _ (hentry _ hi) (hentry _ hj)
    refine ⟨hxy, fun hni hnj => lt_of_le_of_ne hxy (hne ?_ ?_)⟩
    · simpa using hni
    · simpa using hnj
  have hfirst : ((order.filter fun i => decide (i < pos.length)).map
      fun i => (pos ++ neg).getD i a).Perm pos := by
    have hmap := (hperm.filter fun i => decide (i < pos.length)).map
      fun i => (pos ++ neg).getD i a
    rwa [filter_range_lt hle, map_getD_range hle, List.take_left] at hmap
  have hsecond : ((order.filter fun i => !decide (i < pos.length)).map
      fun i => (pos ++ neg).getD i a).Perm neg := by
    have hmap := (hperm.filter fun i => !decide (i < pos.length)).map
      fun i => (pos ++ neg).getD i a
    have hshift : (fun i => (pos ++ neg).getD i a) ∘ (pos.length + ·) = fun i => neg.getD i a := by
      funext i
      simp [List.getD_eq_getElem?_getD, List.getElem?_append_right]
    rwa [filter_range_ge hle, List.map_map, hshift, List.length_append, Nat.add_sub_cancel_left,
      map_getD_range le_rfl, List.take_length] at hmap
  have hcount : order.countP (fun i => decide (i < pos.length)) = pos.length := by
    rw [hperm.countP_eq, List.countP_eq_length_filter, filter_range_lt hle, List.length_range]
  have hranks := RankSum.two_mul_rankSum hpairs
  rwa [hcount, RankSum.above_perm hfirst hsecond] at hranks

end Order

section Auc

variable {score : List S} {label : List Bool}

/-- What the code computes of the scores of both classes. -/
theorem auc_eq_above (np : NumpySort S) {pos neg : List S} (hpos : masked score label = pos)
    (hneg : masked score (label.map not) = neg) (hpos0 : pos ≠ []) (hneg0 : neg ≠ [])
    (hstrict : (np.argsort (pos ++ neg)).Pairwise fun i j => ∀ x y, (pos ++ neg)[i]? = some x →
      (pos ++ neg)[j]? = some y → pos.length ≤ i → j < pos.length → x ≠ y) :
    auc np score label = some ((above pos neg : ℚ) / (pos.length * neg.length)) := by
  have hperm := np.perm (pos ++ neg)
  have hsorted := (np.sorted (pos ++ neg)).and hstrict
  have hranks := two_mul_rankSum_order hpos0 hperm (hsorted.imp fun h x y hx hy =>
    ⟨h.1 x y hx hy, h.2 x y hx hy⟩)
  have hlen : (np.argsort (pos ++ neg)).length = (pos ++ neg).length := by
    rw [hperm.length_eq, List.length_range]
  unfold auc
  simp only [hpos, hneg]
  rw [if_neg (by simp [hpos0, hneg0])]
  generalize np.argsort (pos ++ neg) = order at hperm hranks hlen
  have hlt : ∀ i ∈ order, i < (pos ++ neg).length :=
    fun i hi => List.mem_range.mp (hperm.mem_iff.mp hi)
  have hread : order.map (fun i => (assign (np.empty (pos ++ neg).length) order
      ((List.range' 1 (pos ++ neg).length).map fun k : Nat => (k : ℚ))).getD i 0) =
      (List.range' 1 order.length).map fun k : Nat => (k : ℚ) := by
    rw [hlen, IndexArrays.map_getD_eq_gather]
    · exact IndexArrays.gather_assign (hperm.nodup_iff.mpr List.nodup_range)
        (by simpa [np.length_empty] using hlt) (by simp [hlen])
    · simpa [IndexArrays.length_assign, np.length_empty] using hlt
  have hsum := RankSum.sum_filter_eq_rankSum (fun i => decide (i < pos.length)) hread
  rw [sum_take_eq hperm (by rw [IndexArrays.length_assign, np.length_empty]) (by simp), hsum]
  have hcast : (2 : ℚ) * rankSum (fun i => decide (i < pos.length)) 1 order =
      pos.length * (pos.length + 1) + 2 * above pos neg := by
    exact_mod_cast hranks
  congr 2
  linarith

theorem above_div_eq_mannWhitney_iff {pos neg : List S} (hpos0 : pos ≠ []) (hneg0 : neg ≠ []) :
    (above pos neg : ℚ) / (pos.length * neg.length) = mannWhitney pos neg ↔ tied pos neg = 0 := by
  have hp : (pos.length : ℚ) ≠ 0 := by simpa using hpos0
  have hn : (neg.length : ℚ) ≠ 0 := by simpa using hneg0
  rw [mannWhitney, div_left_inj' (mul_ne_zero hp hn), left_eq_add, div_eq_zero_iff]
  simp

end Auc

section Stable

/-- NumPy with a stable sort. -/
def stableSort : NumpySort S where
  argsort := stableArgsort
  empty n := List.replicate n 0
  perm := IndexArrays.stableArgsort_perm
  sorted xs := (IndexArrays.stableArgsort_pairwise xs).imp fun h x y hx hy => by
    rcases h x y hx hy with hlt | ⟨rfl, -⟩
    · exact hlt.le
    · exact le_rfl
  length_empty _ := List.length_replicate

/-- A stable sort has the anomalies first among equal scores, so a tie counts for the normal row. -/
theorem auc_stableSort {score : List S} {label : List Bool} (hpos : masked score label ≠ [])
    (hneg : masked score (label.map not) ≠ []) :
    auc stableSort score label =
      some ((RankSum.above (masked score label) (masked score (label.map not)) : ℚ) /
        ((masked score label).length * (masked score (label.map not)).length)) := by
  refine auc_eq_above stableSort rfl rfl hpos hneg ?_
  refine (IndexArrays.stableArgsort_pairwise _).imp fun h x y hx hy hi hj heq => ?_
  rcases h x y hx hy with hlt | ⟨-, hle⟩
  · exact absurd heq hlt.ne
  · omega

end Stable

/-- The rank formula is the Mann-Whitney statistic for every sorting permutation just if no anomaly
is scored like a normal row. -/
theorem auc_eq_mannWhitney_iff {score : List S} {label : List Bool}
    (hlen : score.length = label.length) (hpos : true ∈ label) (hneg : false ∈ label) :
    (∀ np : NumpySort S, auc np score label =
        some (mannWhitney (masked score label) (masked score (label.map not)))) ↔
      ∀ x ∈ masked score label, x ∉ masked score (label.map not) := by
  have hpos0 : masked score label ≠ [] := IndexArrays.masked_ne_nil hlen hpos
  have hneg0 : masked score (label.map not) ≠ [] :=
    IndexArrays.masked_ne_nil (by simpa using hlen) (by simpa using hneg)
  rw [← RankSum.tied_eq_zero_iff, ← above_div_eq_mannWhitney_iff hpos0 hneg0]
  constructor
  · intro hall
    exact Option.some.inj ((auc_stableSort hpos0 hneg0).symm.trans (hall stableSort))
  · intro heq np
    rw [← heq]
    rw [above_div_eq_mannWhitney_iff hpos0 hneg0, RankSum.tied_eq_zero_iff] at heq
    refine auc_eq_above np rfl rfl hpos0 hneg0 (List.pairwise_of_forall fun i j => ?_)
    intro x y hx hy hi hj hxy
    rw [List.getElem?_append_right hi] at hx
    rw [List.getElem?_append_left hj] at hy
    exact heq y (List.mem_of_getElem? hy) (hxy ▸ List.mem_of_getElem? hx)

/-- An anomaly scored between two normal rows. -/
theorem auc_eq_mannWhitney_between :
    auc stableSort [1, 2, 3] [false, true, false] =
      some (mannWhitney (masked [1, 2, 3] [false, true, false])
        (masked [1, 2, 3] ([false, true, false].map not))) :=
  (@auc_eq_mannWhitney_iff Nat _ [1, 2, 3] [false, true, false] rfl (by decide) (by decide)).mpr
    (by decide) stableSort

/-- An anomaly and a normal row with one score: the anomaly gets the lower rank. -/
theorem auc_of_tie : auc stableSort [(1 : Nat), 1] [true, false] = some 0 ∧
    mannWhitney (masked [(1 : Nat), 1] [true, false])
      (masked [(1 : Nat), 1] ([true, false].map not)) = 1 / 2 := by
  constructor
  · refine (auc_stableSort (by decide) (by decide)).trans ?_
    decide +kernel
  · decide +kernel

end Ml

end OhlcvValidator
