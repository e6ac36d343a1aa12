import Mathlib

namespace OhlcvValidator

variable {E K : Type} {r : K → K → Prop} {key : E → K}

/-- Entries whose keys come in strict order. -/
def Ordered (r : K → K → Prop) (key : E → K) (xs : List E) : Prop :=
  xs.Pairwise fun x y => r (key x) (key y)

/-- Put an entry behind the leading entries that come before it. -/
def insertEntry (r : K → K → Prop) [DecidableRel r] (key : E → K) (x : E) (xs : List E) : List E :=
  xs.takeWhile (fun y => r (key y) (key x)) ++ x :: xs.dropWhile (fun y => r (key y) (key x))

theorem insertIdx_takeWhile (p : E → Bool) (xs : List E) (x : E) :
    xs.insertIdx (xs.takeWhile p).length x = xs.takeWhile p ++ x :: xs.dropWhile p := by
  induction xs with
  | nil => rfl
  | cons y ys ih =>
    cases hy : p y with
    | false => simp [hy]
    | true => simp [hy, ih]

theorem mem_insertEntry [DecidableRel r] {x e : E} {xs : List E} :
    e ∈ insertEntry r key x xs ↔ e = x ∨ e ∈ xs := by
  have happ : e ∈ xs ↔ e ∈ xs.takeWhile (fun y => r (key y) (key x)) ∨
      e ∈ xs.dropWhile (fun y => r (key y) (key x)) := by
    rw [← List.mem_append, List.takeWhile_append_dropWhile]
  rw [happ, insertEntry, List.mem_append, List.mem_cons]
  tauto

theorem insertEntry_length [DecidableRel r] {x : E} {xs : List E} :
    (insertEntry r key x xs).length = xs.length + 1 := by
  have hlen := congrArg List.length
    (List.takeWhile_append_dropWhile (p := fun y => decide (r (key y) (key x))) (l := xs))
  rw [List.length_append] at hlen
  rw [insertEntry, List.length_append, List.length_cons]
  omega

/-- Keeping the best `m` commutes with inserting: what lies beyond the best `m`
never decides which entries are among them. -/
theorem take_insertEntry_append [DecidableRel r] {m : Nat} {x : E} {xs ys : List E}
    (hlen : ys = [] ∨ m ≤ xs.length) :
    (insertEntry r key x (xs ++ ys)).take m =
      (insertEntry r key x xs).take m := by
  rcases hlen with rfl | hlen
  · rw [List.append_nil]
  by_cases hall : ∀ y ∈ xs, r (key y) (key x)
  · have htake : xs.takeWhile (fun y => decide (r (key y) (key x))) = xs :=
      List.takeWhile_eq_self_iff.mpr (by simpa using hall)
    have hdrop : xs.dropWhile (fun y => decide (r (key y) (key x))) = [] :=
      List.dropWhile_eq_nil_iff.mpr (by simpa using hall)
    have htake' : (xs ++ ys).takeWhile (fun y => decide (r (key y) (key x))) =
        xs ++ ys.takeWhile (fun y => decide (r (key y) (key x))) :=
      List.takeWhile_append_of_pos (by simpa using hall)
    rw [insertEntry, insertEntry, htake, hdrop, htake',
      List.append_assoc, List.take_append_of_le_length hlen, List.take_append_of_le_length hlen]
  · have hsplit : insertEntry r key x (xs ++ ys) =
        insertEntry r key x xs ++ ys := by
      push Not at hall
      obtain ⟨z, hz, hzx⟩ := hall
      have hne : xs.dropWhile (fun y => decide (r (key y) (key x))) ≠ [] := by
        intro hnil
        exact hzx (by simpa using List.dropWhile_eq_nil_iff.mp hnil z hz)
      have htake : (xs ++ ys).takeWhile (fun y => decide (r (key y) (key x))) =
          xs.takeWhile (fun y => decide (r (key y) (key x))) := by
        rw [List.takeWhile_append, if_neg]
        intro hlen'
        apply hne
        have happ := congrArg List.length
          (List.takeWhile_append_dropWhile (p := fun y => decide (r (key y) (key x))) (l := xs))
        rw [List.length_append] at happ
        exact List.length_eq_zero_iff.mp (by omega)
      have hdrop : (xs ++ ys).dropWhile (fun y => decide (r (key y) (key x))) =
          xs.dropWhile (fun y => decide (r (key y) (key x))) ++ ys := by
        rw [List.dropWhile_append, if_neg (by simpa using hne)]
      rw [insertEntry, insertEntry, htake, hdrop]
      simp
    rw [hsplit, List.take_append_of_le_length]
    rw [insertEntry_length]
    omega

variable [IsStrictTotalOrder K r]

theorem Ordered.nodup_keys {xs : List E} (h : Ordered r key xs) :
    (xs.map key).Nodup := by
  refine List.pairwise_map.mpr (h.imp ?_)
  intro x y hr he
  rw [he] at hr
  exact irrefl_of r _ hr

theorem Ordered.nodup {xs : List E} (h : Ordered r key xs) : xs.Nodup :=
  List.Nodup.of_map key h.nodup_keys

/-- Ordered lists with the same entries are the same list. -/
theorem Ordered.ext {xs ys : List E} (hx : Ordered r key xs) (hy : Ordered r key ys)
    (h : ∀ e, e ∈ xs ↔ e ∈ ys) : xs = ys := by
  have hperm : xs.Perm ys := (List.perm_ext_iff_of_nodup hx.nodup hy.nodup).mpr h
  apply List.Perm.eq_of_pairwise _ hx hy hperm
  intro a b _ _ hab hba
  exact absurd (trans_of r hab hba) (irrefl_of r _)

section Insert

variable [DecidableRel r] {x : E} {xs : List E}

/-- Behind the insertion point nothing comes before the new entry. -/
theorem Ordered.not_before_of_mem_dropWhile (h : Ordered r key xs) {y : E}
    (hy : y ∈ xs.dropWhile fun y => r (key y) (key x)) : ¬r (key y) (key x) := by
  induction xs with
  | nil => simp at hy
  | cons z zs ih =>
    obtain ⟨hz, hzs⟩ := List.pairwise_cons.mp h
    by_cases hzx : r (key z) (key x)
    · exact ih hzs (by simpa [hzx] using hy)
    · have hy : y = z ∨ y ∈ zs := by simpa [hzx] using hy
      rcases hy with rfl | hy
      · exact hzx
      · exact fun hyx => hzx (trans_of r (hz y hy) hyx)

theorem Ordered.insertEntry (h : Ordered r key xs) (hnew : ∀ y ∈ xs, key y ≠ key x) :
    Ordered r key (insertEntry r key x xs) := by
  have hbefore : ∀ y ∈ xs.takeWhile (fun y => r (key y) (key x)), r (key y) (key x) := by
    intro y hy
    simpa using List.mem_takeWhile_imp hy
  have hafter : ∀ y ∈ xs.dropWhile (fun y => r (key y) (key x)), r (key x) (key y) := by
    intro y hy
    have hnot := h.not_before_of_mem_dropWhile hy
    have hne := hnew y ((List.dropWhile_sublist _).mem hy)
    exact ((trichotomous_of r (key y) (key x)).resolve_left hnot).resolve_left hne
  refine List.pairwise_append.mpr ⟨h.sublist (List.takeWhile_sublist _),
    List.pairwise_cons.mpr ⟨hafter, h.sublist (List.dropWhile_sublist _)⟩, ?_⟩
  intro y hy z hz
  rcases List.mem_cons.mp hz with rfl | hz
  · exact hbefore y hy
  · exact trans_of r (hbefore y hy) (hafter z hz)

end Insert

end OhlcvValidator
