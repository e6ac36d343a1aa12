import Mathlib

namespace OhlcvValidator

/-! An increasing list of numbers, taken apart by residue: what each residue skips. -/

section

variable {m n k : Nat} {ks : List Nat}

/-- The last number with the same residue. -/
def lastSame (m : Nat) (ks : List Nat) (k : Nat) : Option Nat :=
  (ks.filter fun j => j % m = k % m).getLast?

/-- How many numbers of its residue a next number skips. -/
def skipped (m : Nat) (ks : List Nat) (k : Nat) : Nat :=
  match lastSame m ks k with
  | none => 0
  | some j => (k - j) / m - 1

/-- A number that is missing between two others of its residue. -/
def Missing (m : Nat) (ks : List Nat) (u : Nat) : Prop :=
  u ∉ ks ∧ (∃ j ∈ ks, j % m = u % m ∧ j < u) ∧ ∃ k ∈ ks, k % m = u % m ∧ u < k

instance (m : Nat) (ks : List Nat) (u : Nat) : Decidable (Missing m ks u) :=
  inferInstanceAs (Decidable (_ ∧ (∃ j ∈ ks, _ ∧ _) ∧ ∃ k ∈ ks, _ ∧ _))

theorem lastSame_none (h : lastSame m ks k = none) : ∀ j ∈ ks, j % m ≠ k % m := by
  intro j hj he
  rw [lastSame, List.getLast?_eq_none_iff, List.filter_eq_nil_iff] at h
  simpa [he] using h j hj

theorem lastSame_some {j : Nat} (hs : ks.Pairwise (· < ·)) (h : lastSame m ks k = some j) :
    (j ∈ ks ∧ j % m = k % m) ∧ ∀ i ∈ ks, i % m = k % m → i ≤ j := by
  obtain ⟨init, hinit⟩ := List.getLast?_eq_some_iff.mp h
  have hmem : ∀ i, i ∈ init ++ [j] ↔ i ∈ ks ∧ i % m = k % m := by
    intro i
    rw [← hinit]
    simp
  have hpair : (init ++ [j]).Pairwise (· < ·) := by
    rw [← hinit]
    exact hs.filter _
  refine ⟨(hmem j).mp (by simp), ?_⟩
  intro i hi hr
  rcases List.mem_append.mp ((hmem i).mpr ⟨hi, hr⟩) with hin | hin
  · exact ((List.pairwise_append.mp hpair).2.2 i hin j (by simp)).le
  · exact (List.mem_singleton.mp hin).le

/-- Numbers of one residue are a multiple of the modulus apart. -/
theorem exists_eq_add_mul {j u : Nat} (hr : j % m = u % m) (hlt : j < u) :
    ∃ q, 0 < q ∧ u = j + m * q := by
  obtain ⟨q, hq⟩ := (Nat.modEq_iff_dvd' hlt.le).mp hr
  refine ⟨q, ?_, by omega⟩
  rcases Nat.eq_zero_or_pos q with rfl | hpos
  · omega
  · exact hpos

/-- The numbers between two of one residue. -/
theorem card_between {j : Nat} (hm : 0 < m) (hr : j % m = k % m) (hlt : j < k) (hn : k ≤ n) :
    ((Finset.range n).filter fun u => u % m = k % m ∧ j < u ∧ u < k).card = (k - j) / m - 1 := by
  obtain ⟨q, hq, rfl⟩ := exists_eq_add_mul hr hlt
  have himage : (Finset.range n).filter (fun u => u % m = (j + m * q) % m ∧ j < u ∧
      u < j + m * q) = (Finset.range (q - 1)).image fun t => j + m * (t + 1) := by
    ext u
    simp only [Finset.mem_filter, Finset.mem_range, Finset.mem_image]
    constructor
    · rintro ⟨_, hres, hju, huk⟩
      obtain ⟨t, ht, rfl⟩ := exists_eq_add_mul (hr.trans hres.symm) hju
      have htq : t < q := Nat.lt_of_mul_lt_mul_left (by omega : m * t < m * q)
      exact ⟨t - 1, by omega, by rw [Nat.sub_add_cancel ht]⟩
    · rintro ⟨t, ht, rfl⟩
      have hlt' : m * (t + 1) < m * q := Nat.mul_lt_mul_of_pos_left (by omega) hm
      have hpos : 0 < m * (t + 1) := Nat.mul_pos hm (by omega)
      exact ⟨by omega, by simp [Nat.add_mul_mod_self_left], by omega, by omega⟩
  have hinj : Function.Injective fun t => j + m * (t + 1) := by
    intro s t h
    have := Nat.eq_of_mul_eq_mul_left hm (Nat.add_left_cancel h)
    omega
  rw [himage, Finset.card_image_of_injective _ hinj, Finset.card_range, Nat.add_sub_cancel_left,
    Nat.mul_div_cancel_left _ hm]

/-- A next number can only close a stretch of its own residue. -/
theorem missing_concat {u : Nat} (hk : ∀ j ∈ ks, j < k) : Missing m (ks ++ [k]) u ↔
    Missing m ks u ∨ u ∉ ks ∧ u < k ∧ u % m = k % m ∧ ∃ j ∈ ks, j % m = u % m ∧ j < u := by
  constructor
  · rintro ⟨hnot, ⟨j, hj, hjr, hju⟩, i, hi, hir, hui⟩
    simp only [List.mem_append, List.mem_singleton, not_or] at hnot hj hi
    rcases hi with hi | rfl
    · have hik := hk i hi
      rcases hj with hj | rfl
      · exact Or.inl ⟨hnot.1, ⟨j, hj, hjr, hju⟩, i, hi, hir, hui⟩
      · omega
    · rcases hj with hj | rfl
      · exact Or.inr ⟨hnot.1, hui, hir.symm, j, hj, hjr, hju⟩
      · omega
  · rintro (⟨hnot, ⟨j, hj, hjr, hju⟩, i, hi, hir, hui⟩ | ⟨hnot, huk, hur, j, hj, hjr, hju⟩)
    · have hik := hk i hi
      exact ⟨by simp [hnot]; omega, ⟨j, by simp [hj], hjr, hju⟩, i, by simp [hi], hir, hui⟩
    · exact ⟨by simp [hnot]; omega, ⟨j, by simp [hj], hjr, hju⟩, k, by simp, hur.symm, huk⟩

/-- What a next number skips is what becomes missing with it. -/
theorem card_missing_concat (hm : 0 < m) (hs : ks.Pairwise (· < ·)) (hk : ∀ j ∈ ks, j < k)
    (hn : k < n) :
    ((Finset.range n).filter (Missing m (ks ++ [k]))).card =
      ((Finset.range n).filter (Missing m ks)).card + skipped m ks k := by
  cases hlast : lastSame m ks k with
  | none =>
    have hnone := lastSame_none hlast
    have hsame : (Finset.range n).filter (Missing m (ks ++ [k])) =
        (Finset.range n).filter (Missing m ks) := by
      refine Finset.filter_congr fun u _ => ?_
      rw [missing_concat hk, or_iff_left]
      rintro ⟨_, _, hur, j, hj, hjr, _⟩
      exact hnone j hj (hjr.trans hur)
    rw [hsame, skipped, hlast, Nat.add_zero]
  | some j =>
    obtain ⟨⟨hjmem, hjres⟩, hjmax⟩ := lastSame_some hs hlast
    have hunion : (Finset.range n).filter (Missing m (ks ++ [k])) =
        (Finset.range n).filter (Missing m ks) ∪
          (Finset.range n).filter fun u => u % m = k % m ∧ j < u ∧ u < k := by
      rw [← Finset.filter_or]
      refine Finset.filter_congr fun u _ => ?_
      rw [missing_concat hk]
      constructor
      · rintro (hmiss | ⟨hnot, huk, hur, i, hi, hir, hiu⟩)
        · exact Or.inl hmiss
        · rcases Nat.lt_trichotomy u j with hlt | rfl | hgt
          · exact Or.inl ⟨hnot, ⟨i, hi, hir, hiu⟩, j, hjmem, hjres.trans hur.symm, hlt⟩
          · exact absurd hjmem hnot
          · exact Or.inr ⟨hur, hgt, huk⟩
      · rintro (hmiss | ⟨hur, hju, huk⟩)
        · exact Or.inl hmiss
        · refine Or.inr ⟨fun hin => ?_, huk, hur, j, hjmem, hjres.trans hur.symm, hju⟩
          have := hjmax u hin hur
          omega
    have hdisj : Disjoint ((Finset.range n).filter (Missing m ks))
        ((Finset.range n).filter fun u => u % m = k % m ∧ j < u ∧ u < k) := by
      rw [Finset.disjoint_filter]
      rintro u _ ⟨_, _, i, hi, hires, hui⟩ ⟨hures, hju, _⟩
      have := hjmax i hi (hires.trans hures)
      omega
    rw [hunion, Finset.card_union_of_disjoint hdisj, card_between hm hjres (hk j hjmem) hn.le,
      skipped, hlast]

/-- A number skips some exactly if the one before it of its residue is missing,
with an earlier one there. -/
theorem skipped_pos_iff (hm : 0 < m) (hs : ks.Pairwise (· < ·)) (hk : ∀ j ∈ ks, j < k) :
    0 < skipped m ks k ↔ ∃ u, u < k ∧ u % m = k % m ∧ u ∉ ks ∧
      (∀ j ∈ ks, j % m = k % m → j < u) ∧ ∃ j ∈ ks, j % m = k % m := by
  cases hlast : lastSame m ks k with
  | none =>
    rw [skipped, hlast]
    refine iff_of_false (Nat.lt_irrefl 0) ?_
    rintro ⟨_, _, _, _, _, j, hj, hjr⟩
    exact lastSame_none hlast j hj hjr
  | some j =>
    obtain ⟨⟨hjmem, hjres⟩, hjmax⟩ := lastSame_some hs hlast
    obtain ⟨q, hq, hkq⟩ := exists_eq_add_mul hjres (hk j hjmem)
    have hskip : skipped m ks k = q - 1 := by
      rw [skipped, hlast]
      dsimp only
      rw [hkq, Nat.add_sub_cancel_left, Nat.mul_div_cancel_left _ hm]
    rw [hskip]
    constructor
    · intro hpos
      have hstep : m * q = m * (q - 1) + m := by
        rw [← Nat.mul_succ, Nat.succ_eq_add_one, Nat.sub_add_cancel hq]
      have hgt : j < j + m * (q - 1) := Nat.lt_add_of_pos_right (Nat.mul_pos hm hpos)
      have hres : (j + m * (q - 1)) % m = k % m := by
        rw [Nat.add_mul_mod_self_left, hjres]
      refine ⟨j + m * (q - 1), by omega, hres, ?_, ?_, j, hjmem, hjres⟩
      · intro hin
        have := hjmax _ hin hres
        omega
      · intro i hi hir
        exact (hjmax i hi hir).trans_lt hgt
    · rintro ⟨u, huk, hur, _, hlater, _⟩
      obtain ⟨t, ht, rfl⟩ := exists_eq_add_mul (hjres.trans hur.symm) (hlater j hjmem hjres)
      have htq : t < q := Nat.lt_of_mul_lt_mul_left (by omega : m * t < m * q)
      omega

/-- The same for a number inside an increasing list, in terms of the whole list. -/
theorem skipped_pos_iff_mid {pre post : List Nat} (hm : 0 < m)
    (hs : (pre ++ k :: post).Pairwise (· < ·)) :
    0 < skipped m pre k ↔ ∃ u < k, u % m = k % m ∧ u ∉ pre ++ k :: post ∧
      (∀ j ∈ pre ++ k :: post, j % m = k % m → j < k → j < u) ∧
      ∃ j ∈ pre ++ k :: post, j % m = k % m ∧ j < u := by
  obtain ⟨hpre, hrest, hcross⟩ := List.pairwise_append.mp hs
  have hbelow : ∀ j ∈ pre, j < k := fun j hj => hcross j hj k List.mem_cons_self
  -- below `k`, the whole list has what comes before `k`
  have hmem : ∀ j, j < k → (j ∈ pre ++ k :: post ↔ j ∈ pre) := by
    intro j hj
    refine ⟨fun hin => ?_, fun hin => List.mem_append_left _ hin⟩
    rcases List.mem_append.mp hin with hin | hin
    · exact hin
    · rcases List.mem_cons.mp hin with heq | hin
      · omega
      · have := (List.pairwise_cons.mp hrest).1 j hin
        omega
  rw [skipped_pos_iff hm hpre hbelow]
  constructor
  · rintro ⟨u, huk, hures, hnot, hlater, j, hj, hjres⟩
    exact ⟨u, huk, hures, fun hin => hnot ((hmem u huk).mp hin),
      fun j hj hjres hjk => hlater j ((hmem j hjk).mp hj) hjres,
      j, List.mem_append_left _ hj, hjres, hlater j hj hjres⟩
  · rintro ⟨u, huk, hures, hnot, hlater, j, hj, hjres, hju⟩
    exact ⟨u, huk, hures, fun hin => hnot (List.mem_append_left _ hin),
      fun j hj hjres => hlater j (List.mem_append_left _ hj) hjres (hbelow j hj),
      j, (hmem j (by omega)).mp hj, hjres⟩

end

end OhlcvValidator
