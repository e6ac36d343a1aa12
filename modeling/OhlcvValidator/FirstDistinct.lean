import Mathlib

namespace OhlcvValidator

variable {α β : Type} [DecidableEq α] [DecidableEq β]

/-- The first `n` distinct entries of a list, in order of appearance. -/
def firstDistinct (n : Nat) (xs : List α) : List α :=
  xs.eraseDups.take n

theorem eraseDups_concat (xs : List α) (x : α) :
    (xs ++ [x]).eraseDups = if x ∈ xs then xs.eraseDups else xs.eraseDups ++ [x] := by
  rw [List.eraseDups_append, List.cons_removeAll, List.removeAll]
  by_cases hx : x ∈ xs
  · simp [hx]
  · simp [hx, List.eraseDups_cons]

theorem eraseDups_append_left (xs ys : List α) : xs.eraseDups <+: (xs ++ ys).eraseDups := by
  rw [List.eraseDups_append]
  exact List.prefix_append _ _

theorem length_eraseDups (xs : List α) : xs.eraseDups.length = xs.toFinset.card := by
  induction xs using List.reverseRecOn with
  | nil => rfl
  | append_singleton xs x ih =>
    rw [eraseDups_concat, List.toFinset_append, Finset.union_comm, List.toFinset_cons,
      List.toFinset_nil, insert_empty_eq, Finset.singleton_union]
    split
    next hx => rw [Finset.insert_eq_of_mem (List.mem_toFinset.mpr hx), ih]
    next hx =>
      rw [Finset.card_insert_of_notMem (fun h => hx (List.mem_toFinset.mp h)), ← ih]
      simp

theorem mem_firstDistinct_of_room {n : Nat} {xs : List α} {x : α}
    (hlen : (firstDistinct n xs).length < n) (hx : x ∈ xs) : x ∈ firstDistinct n xs := by
  unfold firstDistinct at hlen ⊢
  rw [List.length_take] at hlen
  rw [List.take_of_length_le (by omega)]
  exact List.mem_eraseDups.mpr hx

theorem mem_firstDistinct_of_few {n : Nat} {xs : List α} {x : α}
    (hlen : xs.eraseDups.length ≤ n) (hx : x ∈ xs) : x ∈ firstDistinct n xs := by
  rw [firstDistinct, List.take_of_length_le hlen]
  exact List.mem_eraseDups.mpr hx

theorem mem_firstDistinct_or_not_mem {n : Nat} {xs : List α} (hlen : xs.eraseDups.length ≤ n)
    (x : α) : x ∈ firstDistinct n xs ∨ x ∉ xs := by
  by_cases hx : x ∈ xs
  · exact Or.inl (mem_firstDistinct_of_few hlen hx)
  · exact Or.inr hx

/-- A new entry counts while there is room. -/
theorem firstDistinct_concat (n : Nat) (xs : List α) (x : α) :
    firstDistinct n (xs ++ [x]) =
      if x ∈ firstDistinct n xs ∨ (firstDistinct n xs).length < n then
        if x ∈ firstDistinct n xs then firstDistinct n xs else firstDistinct n xs ++ [x]
      else firstDistinct n xs := by
  by_cases hx : x ∈ xs
  · have hsame : firstDistinct n (xs ++ [x]) = firstDistinct n xs := by
      rw [firstDistinct, eraseDups_concat, if_pos hx, firstDistinct]
    rw [hsame]
    by_cases hin : x ∈ firstDistinct n xs
    · rw [if_pos (Or.inl hin), if_pos hin]
    · have hlen : ¬(firstDistinct n xs).length < n := fun hlt =>
        hin (mem_firstDistinct_of_room hlt hx)
      rw [if_neg (by tauto)]
  · unfold firstDistinct
    rw [eraseDups_concat]
    have hin : x ∉ xs.eraseDups.take n := fun h =>
      hx (List.mem_eraseDups.mp (List.mem_of_mem_take h))
    rw [if_neg hx, if_neg hin]
    by_cases hlen : (xs.eraseDups.take n).length < n
    · rw [if_pos (Or.inr hlen)]
      rw [List.length_take] at hlen
      rw [List.take_of_length_le (by simp; omega), List.take_of_length_le (by omega)]
    · rw [if_neg (by tauto)]
      rw [List.length_take] at hlen
      rw [List.take_append_of_le_length (by omega)]

theorem mem_firstDistinct_of_concat {n : Nat} {xs : List α} {x y : α} (hne : x ≠ y)
    (h : x ∈ firstDistinct n (xs ++ [y])) : x ∈ firstDistinct n xs := by
  rw [firstDistinct_concat] at h
  split at h
  next =>
    split at h
    next => exact h
    next => simpa [hne] using h
  next => exact h

theorem room_of_mem_firstDistinct {n : Nat} {xs : List α} {x : α}
    (h : x ∈ firstDistinct n (xs ++ [x])) :
    x ∈ firstDistinct n xs ∨ (firstDistinct n xs).length < n := by
  rw [firstDistinct_concat] at h
  split at h
  next hroom => exact hroom
  next => exact Or.inl h

theorem firstDistinct_append_left (n : Nat) (xs ys : List α) :
    firstDistinct n xs <+: firstDistinct n (xs ++ ys) :=
  (eraseDups_append_left xs ys).take n

/-- An entry that never counts finds the first `n` complete before its first appearance. -/
theorem full_of_not_mem_firstDistinct {n : Nat} {xs ys : List α} {x : α}
    (h : x ∉ firstDistinct n (xs ++ x :: ys)) :
    ¬(x ∈ firstDistinct n xs ∨ (firstDistinct n xs).length < n) := by
  intro hacc
  have hpre : firstDistinct n (xs ++ [x]) <+: firstDistinct n (xs ++ x :: ys) := by
    have := firstDistinct_append_left n (xs ++ [x]) ys
    rwa [List.append_assoc] at this
  apply h
  apply hpre.mem
  rw [firstDistinct_concat, if_pos hacc]
  split
  next hin => exact hin
  next => simp

theorem eraseDups_map {f : α → β} (hf : Function.Injective f) (xs : List α) :
    (xs.map f).eraseDups = xs.eraseDups.map f := by
  induction xs using List.reverseRecOn with
  | nil => rfl
  | append_singleton xs x ih =>
    have hmem : f x ∈ xs.map f ↔ x ∈ xs := List.mem_map_of_injective hf
    rw [List.map_append, List.map_singleton, eraseDups_concat, eraseDups_concat, ih]
    by_cases hx : x ∈ xs
    · rw [if_pos hx, if_pos (hmem.mpr hx)]
    · rw [if_neg hx, if_neg (fun h => hx (hmem.mp h)), List.map_append, List.map_singleton]

theorem firstDistinct_map {f : α → β} (hf : Function.Injective f) (n : Nat) (xs : List α) :
    firstDistinct n (xs.map f) = (firstDistinct n xs).map f := by
  rw [firstDistinct, eraseDups_map hf, ← List.map_take]
  rfl

theorem mem_firstDistinct_iff_of_few {n : Nat} {xs : List α} {x : α}
    (h : xs.toFinset.card ≤ n) : x ∈ firstDistinct n xs ↔ x ∈ xs := by
  rw [firstDistinct, List.take_of_length_le ((length_eraseDups xs).trans_le h), List.mem_eraseDups]

theorem length_firstDistinct (n : Nat) (xs : List α) :
    (firstDistinct n xs).length = min n xs.toFinset.card := by
  rw [firstDistinct, List.length_take, length_eraseDups]

/-- In two orders of the same entries, the same ones count or find room exactly if the same ones
count. -/
theorem firstDistinct_room_congr {n : Nat} {xs ys : List α} (h : ∀ x, x ∈ xs ↔ x ∈ ys) :
    (∀ x, (x ∈ firstDistinct n xs ∨ (firstDistinct n xs).length < n) ↔
        (x ∈ firstDistinct n ys ∨ (firstDistinct n ys).length < n)) ↔
      ∀ x, x ∈ firstDistinct n xs ↔ x ∈ firstDistinct n ys := by
  have hlen : (firstDistinct n xs).length = (firstDistinct n ys).length := by
    have hset : xs.toFinset = ys.toFinset := by
      ext x
      simp [h]
    rw [length_firstDistinct, length_firstDistinct, hset]
  rw [hlen]
  by_cases hroom : (firstDistinct n ys).length < n
  · refine iff_of_true (by simp [hroom]) fun x => ?_
    have hin : ∀ {zs : List α}, (firstDistinct n zs).length < n →
        (x ∈ firstDistinct n zs ↔ x ∈ zs) := fun hz =>
      ⟨fun hx => List.mem_eraseDups.mp (List.mem_of_mem_take hx), mem_firstDistinct_of_room hz⟩
    rw [hin (hlen ▸ hroom), hin hroom, h]
  · simp [hroom]

end OhlcvValidator
