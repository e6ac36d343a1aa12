import Mathlib

namespace OhlcvValidator

namespace RankSum

section Pairs

variable {S : Type} [LinearOrder S]

/-- How many pairs have their first value above their second. -/
def above (as bs : List S) : Nat :=
  (as ×ˢ bs).countP fun p => p.2 < p.1

/-- How many pairs have equal values. -/
def tied (as bs : List S) : Nat :=
  (as ×ˢ bs).countP fun p => p.1 = p.2

@[simp] theorem above_nil_right (as : List S) : above as [] = 0 := by
  simp [above]

theorem above_cons_left (a : S) (as bs : List S) :
    above (a :: as) bs = bs.countP (· < a) + above as bs := by
  simp [above, List.product_cons, List.countP_append, List.countP_map, Function.comp_def]

theorem above_cons_right (b : S) (as bs : List S) :
    above as (b :: bs) = as.countP (b < ·) + above as bs := by
  induction as with
  | nil => rfl
  | cons a as ih =>
    rw [above_cons_left, above_cons_left, ih, List.countP_cons, List.countP_cons]
    omega

theorem above_perm {as as' bs bs' : List S} (ha : as.Perm as') (hb : bs.Perm bs') :
    above as bs = above as' bs' :=
  (ha.product hb).countP_eq _

theorem tied_eq_zero_iff {as bs : List S} : tied as bs = 0 ↔ ∀ a ∈ as, a ∉ bs := by
  rw [tied, List.countP_eq_zero]
  constructor
  · intro h a ha hb
    simpa using h (a, a) (List.mem_product.mpr ⟨ha, hb⟩)
  · rintro h ⟨a, b⟩ hab
    obtain ⟨ha, hb⟩ := List.mem_product.mp hab
    simp only [decide_eq_true_eq]
    rintro rfl
    exact h a ha hb

end Pairs

section Ranks

variable {ι S : Type} [LinearOrder S] (chosen : ι → Bool)

/-- The sum of the places of the chosen entries, counted from `k` on. -/
def rankSum (k : Nat) : List ι → Nat
  | [] => 0
  | x :: xs => (if chosen x then k else 0) + rankSum (k + 1) xs

theorem rankSum_succ (k : Nat) (xs : List ι) :
    rankSum chosen (k + 1) xs = rankSum chosen k xs + xs.countP chosen := by
  induction xs generalizing k with
  | nil => rfl
  | cons x xs ih =>
    rw [rankSum, rankSum, ih, List.countP_cons]
    split <;> omega

/-- The places are what the values sum up to that are given out in order. -/
theorem sum_filter_eq_rankSum {f : ι → ℚ} {xs : List ι} {k : Nat}
    (h : xs.map f = (List.range' k xs.length).map fun i : Nat => (i : ℚ)) :
    ((xs.filter chosen).map f).sum = rankSum chosen k xs := by
  induction xs generalizing k with
  | nil => rfl
  | cons x xs ih =>
    rw [List.length_cons, List.range'_succ, List.map_cons, List.map_cons, List.cons.injEq] at h
    rw [List.filter_cons, rankSum]
    split
    next => simp [h.1, ih h.2]
    next => simp [ih h.2]

variable {chosen} {s : ι → S}

/-- In an order that puts a chosen entry behind another one only where its value is larger, the
chosen entries' places exceed the least possible by the number of pairs in which the chosen one is
larger. -/
theorem two_mul_rankSum {xs : List ι}
    (h : xs.Pairwise fun x y => s x ≤ s y ∧ (chosen x = false → chosen y = true → s x < s y)) :
    2 * rankSum chosen 1 xs =
      xs.countP chosen * (xs.countP chosen + 1) +
        2 * above ((xs.filter chosen).map s) ((xs.filter fun x => !chosen x).map s) := by
  induction xs with
  | nil => simp [rankSum]
  | cons x xs ih =>
    obtain ⟨hfirst, hrest⟩ := List.pairwise_cons.mp h
    have ih := ih hrest
    rw [rankSum, rankSum_succ, List.countP_cons]
    cases hx : chosen x with
    | true =>
      -- no other entry behind `x` is smaller
      have hnone : (((xs.filter fun x => !chosen x).map s).countP (· < s x)) = 0 := by
        rw [List.countP_eq_zero]
        intro y hy
        obtain ⟨z, hz, rfl⟩ := List.mem_map.mp hy
        have hle := (hfirst z (List.mem_of_mem_filter hz)).1
        simpa using hle
      simp only [List.filter_cons, hx, Bool.not_true, Bool.false_eq_true, if_false, if_true,
        List.map_cons, above_cons_left, hnone]
      linarith
    | false =>
      -- every chosen entry behind `x` is larger
      have hall : ((xs.filter chosen).map s).countP (s x < ·) = xs.countP chosen := by
        rw [List.countP_eq_length_filter, List.filter_eq_self.mpr, List.length_map,
          List.countP_eq_length_filter]
        intro y hy
        obtain ⟨z, hz, rfl⟩ := List.mem_map.mp hy
        obtain ⟨hmem, hchosen⟩ := List.mem_filter.mp hz
        simpa using (hfirst z hmem).2 hx hchosen
      simp only [List.filter_cons, hx, Bool.not_false, Bool.false_eq_true, if_false, if_true,
        List.map_cons, above_cons_right, hall]
      linarith

end Ranks

end RankSum

end OhlcvValidator
