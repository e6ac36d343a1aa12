import Mathlib

namespace OhlcvValidator

variable {α : Type} {m : Nat}

/-- A store into a fixed array; an index outside it has no result. -/
def store (a : Vector α m) (i : Nat) (x : α) : Option (Vector α m) :=
  if h : i < m then some (a.set i x h) else none

theorem store_some {a : Vector α m} {i : Nat} (h : i < m) (x : α) :
    store a i x = some (a.set i x h) := by
  unfold store
  rw [dif_pos h]

theorem load_some {a : Vector α m} {i : Nat} (h : i < m) : a[i]? = some a[i] := by
  simp [h]

/-- Move `count` entries starting at `j` one place down, lowest first. -/
def shiftDown (a : Vector α m) (j : Nat) : Nat → Option (Vector α m)
  | 0 => some a
  | count + 1 => do
    let x ← a[j]?
    let a ← store a (j - 1) x
    shiftDown a (j + 1) count

/-- Move `count` entries one place up, the highest target `j` first. -/
def shiftUp (a : Vector α m) (j : Nat) : Nat → Option (Vector α m)
  | 0 => some a
  | count + 1 => do
    let x ← a[j - 1]?
    let a ← store a j x
    shiftUp a (j - 1) count

theorem shiftDown_spec (a : Vector α m) (j count : Nat) (hj : 0 < j) (hb : j + count ≤ m) :
    ∃ b, shiftDown a j count = some b ∧
      ∀ t : Nat, b[t]? = if j - 1 ≤ t ∧ t < j - 1 + count then a[t + 1]? else a[t]? := by
  induction count generalizing a j with
  | zero => exact ⟨a, rfl, fun t => by rw [if_neg (by omega)]⟩
  | succ count ih =>
    have hload : a[j]? = some a[j] := load_some (by omega)
    have hstore := store_some (a := a) (i := j - 1) (by omega) a[j]
    obtain ⟨b, hb', hspec⟩ := ih (a.set (j - 1) a[j]) (j + 1) (by omega) (by omega)
    refine ⟨b, by simp [shiftDown, hload, hstore, hb'], ?_⟩
    intro t
    rw [hspec, Vector.getElem?_set, Vector.getElem?_set]
    by_cases ht : j - 1 = t
    · rw [if_neg (show ¬(j + 1 - 1 ≤ t ∧ t < j + 1 - 1 + count) by omega), if_pos ht,
        if_pos (show j - 1 ≤ t ∧ t < j - 1 + (count + 1) by omega), ← hload]
      congr 1
      omega
    · rw [if_neg ht]
      by_cases hr : j + 1 - 1 ≤ t ∧ t < j + 1 - 1 + count
      · rw [if_pos hr, if_neg (show j - 1 ≠ t + 1 by omega), if_pos (by omega)]
      · rw [if_neg hr, if_neg (by omega)]

theorem shiftUp_spec (a : Vector α m) (j count : Nat) (hc : count ≤ j) (hb : count = 0 ∨ j < m) :
    ∃ b, shiftUp a j count = some b ∧
      ∀ t : Nat, b[t]? = if j - count < t ∧ t ≤ j then a[t - 1]? else a[t]? := by
  induction count generalizing a j with
  | zero => exact ⟨a, rfl, fun t => by rw [if_neg (by omega)]⟩
  | succ count ih =>
    have hload : a[j - 1]? = some a[j - 1] := load_some (by omega)
    have hstore := store_some (a := a) (i := j) (by omega) a[j - 1]
    obtain ⟨b, hb', hspec⟩ := ih (a.set j a[j - 1]) (j - 1) (by omega) (by omega)
    refine ⟨b, by simp [shiftUp, hload, hstore, hb'], ?_⟩
    intro t
    rw [hspec, Vector.getElem?_set, Vector.getElem?_set]
    by_cases ht : j = t
    · rw [if_neg (by omega), if_pos ht, if_pos (by omega), ← hload]
      congr 1
      omega
    · rw [if_neg ht]
      by_cases hr : j - 1 - count < t ∧ t ≤ j - 1
      · rw [if_pos hr, if_neg (show j ≠ t - 1 by omega), if_pos (by omega)]
      · rw [if_neg hr, if_neg (by omega)]

/-- The first `n` entries, as the list that the array stands for. -/
def entries (a : Vector α m) (n : Nat) : List α :=
  a.toList.take n

theorem entries_getElem? (a : Vector α m) (n t : Nat) :
    (entries a n)[t]? = if t < n then a[t]? else none := by
  rw [entries, List.getElem?_take, Vector.getElem?_toList]

theorem entries_length {a : Vector α m} {n : Nat} (h : n ≤ m) : (entries a n).length = n := by
  simp [entries, h]

theorem entries_drop_self (a : Vector α m) (n : Nat) : (entries a n).drop n = [] :=
  List.drop_of_length_le (by simp [entries])

theorem entries_drop_cons {a : Vector α m} {i count : Nat} (h : i < m) :
    (entries a (i + (count + 1))).drop i = a[i] :: (entries a (i + 1 + count)).drop (i + 1) := by
  have hload : (entries a (i + (count + 1)))[i]? = some a[i] := by
    rw [entries_getElem?, if_pos (by omega), load_some h]
  obtain ⟨hi, he⟩ := List.getElem?_eq_some_iff.mp hload
  rw [List.drop_eq_getElem_cons hi, he, show i + (count + 1) = i + 1 + count by omega]

/-- Removing entry `i` by shifting the tail down. -/
theorem entries_shiftDown {a : Vector α m} {n i : Nat} (hi : i < n) (hn : n ≤ m) :
    ∃ b, shiftDown a (i + 1) (n - (i + 1)) = some b ∧
      entries b (n - 1) = (entries a n).eraseIdx i := by
  obtain ⟨b, hb, hspec⟩ := shiftDown_spec a (i + 1) (n - (i + 1)) (by omega) (by omega)
  refine ⟨b, hb, List.ext_getElem? fun t => ?_⟩
  rw [entries_getElem?, hspec, List.getElem?_eraseIdx, entries_getElem?, entries_getElem?]
  by_cases hti : t < i
  · rw [if_pos (show t < n - 1 by omega), if_neg (by omega), if_pos hti, if_pos (by omega)]
  · rw [if_neg hti]
    by_cases htn : t < n - 1
    · rw [if_pos htn, if_pos (by omega), if_pos (by omega)]
    · rw [if_neg htn, if_neg (by omega)]

/-- Inserting at `pos` by shifting the tail up; `j` is the slot freed at the end. -/
theorem entries_insert {a : Vector α m} {j pos : Nat} (hp : pos ≤ j) (hj : j < m) (x : α) :
    ∃ b c, shiftUp a j (j - pos) = some b ∧ store b pos x = some c ∧
      entries c (j + 1) = (entries a j).insertIdx pos x := by
  obtain ⟨b, hb, hspec⟩ := shiftUp_spec a j (j - pos) (by omega) (by omega)
  refine ⟨b, b.set pos x, hb, store_some (by omega) x, List.ext_getElem? fun t => ?_⟩
  rw [entries_getElem?, Vector.getElem?_set, hspec, List.getElem?_insertIdx, entries_getElem?,
    entries_getElem?, entries_length (by omega)]
  rcases Nat.lt_trichotomy t pos with hlt | rfl | hgt
  · rw [if_pos (show t < j + 1 by omega), if_neg (show pos ≠ t by omega), if_neg (by omega),
      if_pos hlt, if_pos (by omega)]
  · rw [if_pos (show t < j + 1 by omega), if_pos rfl, if_neg (lt_irrefl t), if_pos rfl, if_pos hp]
  · rw [if_neg (show pos ≠ t by omega), if_neg (show ¬t < pos by omega),
      if_neg (show t ≠ pos by omega)]
    by_cases htj : t < j + 1
    · rw [if_pos htj, if_pos (by omega), if_pos (by omega)]
    · rw [if_neg htj, if_neg (by omega)]

theorem take_insertIdx_succ {xs : List α} {x : α} {pos k : Nat} (hp : pos ≤ k)
    (hk : k ≤ xs.length) : (xs.insertIdx pos x).take (k + 1) = (xs.take k).insertIdx pos x := by
  apply List.ext_getElem?
  intro t
  rw [List.getElem?_take, List.getElem?_insertIdx, List.getElem?_insertIdx, List.getElem?_take,
    List.getElem?_take, List.length_take]
  grind

/-- Overwriting one entry in place. -/
theorem entries_set {a : Vector α m} {n i : Nat} (hi : i < m) (x : α) :
    entries (a.set i x hi) n = (entries a n).set i x := by
  rw [entries, entries, Vector.toList_set, List.take_set]

/-- Appending behind the last entry. -/
theorem entries_push {a : Vector α m} {n : Nat} (hn : n < m) (x : α) :
    entries (a.set n x hn) (n + 1) = entries a n ++ [x] := by
  apply List.ext_getElem?
  intro t
  rw [entries_getElem?, Vector.getElem?_set, List.getElem?_append, entries_length hn.le,
    entries_getElem?]
  rcases Nat.lt_trichotomy t n with hlt | rfl | hgt
  · rw [if_pos (by omega), if_neg (by omega), if_pos hlt, if_pos hlt]
  · simp
  · rw [if_neg (by omega), if_neg (by omega), List.getElem?_eq_none (by simp; omega)]

end OhlcvValidator
