import Mathlib

namespace OhlcvValidator

/-! Functions of a series that look back only. -/

section Causal

variable {α β γ : Type}

/-- The first results depend on the first inputs only. -/
def Causal (f : List α → List β) : Prop :=
  ∀ xs k, f (xs.take k) = (f xs).take k

/-- A series made entry by entry from indices is causal if each entry reads no
input after its own. -/
theorem causal_range_map {g : List α → Nat → β}
    (h : ∀ xs i, i < xs.length → g (xs.take (i + 1)) i = g xs i) :
    Causal fun xs => (List.range xs.length).map (g xs) := by
  intro xs k
  apply List.ext_getElem
  · simp
  · intro i hi hi'
    simp only [List.length_map, List.length_range, List.length_take] at hi
    simp only [List.getElem_map, List.getElem_range, List.getElem_take]
    have htake : (xs.take k).take (i + 1) = xs.take (i + 1) := by
      rw [List.take_take, Nat.min_eq_left (by omega)]
    rw [← h xs i (by omega), ← h (xs.take k) i (by simpa using hi), htake]

theorem Causal.getElem? {f : List α → List β} (h : Causal f) (xs : List α) (i : Nat) :
    (f (xs.take (i + 1)))[i]? = (f xs)[i]? := by
  rw [h, List.getElem?_take, if_pos (Nat.lt_succ_self i)]

/-- Inputs with the same beginning have results with the same beginning. -/
theorem Causal.congr {f : List α → List β} (h : Causal f) {xs ys : List α} {k : Nat}
    (hk : xs.take k = ys.take k) : (f xs).take k = (f ys).take k := by
  rw [← h, ← h, hk]

theorem Causal.comp {f : List β → List γ} {g : List α → List β} (hf : Causal f)
    (hg : Causal g) : Causal fun xs => f (g xs) := by
  intro xs k
  change f (g (xs.take k)) = (f (g xs)).take k
  rw [hg, hf]

theorem causal_map (f : α → β) : Causal (List.map f) :=
  fun _ _ => List.map_take

theorem causal_takeWhile (p : α → Bool) : Causal (List.takeWhile p) := by
  intro xs k
  induction xs generalizing k with
  | nil => simp
  | cons x xs ih =>
    cases k with
    | zero => simp
    | succ k =>
      rw [List.take_succ_cons, List.takeWhile_cons, List.takeWhile_cons]
      cases p x with
      | false => rfl
      | true =>
        rw [if_pos rfl, if_pos rfl, List.take_succ_cons, ih]

/-- The longest beginning that has a property ends where an entry lacks it. -/
theorem takeWhile_eq_take {p : α → Bool} {xs : List α} {k : Nat}
    (hall : ∀ x ∈ xs.take k, p x = true) (hstop : ∀ x, xs[k]? = some x → p x = false) :
    xs.takeWhile p = xs.take k := by
  induction xs generalizing k with
  | nil => simp
  | cons x xs ih =>
    cases k with
    | zero => simp [hstop x rfl]
    | succ k =>
      rw [List.take_succ_cons] at hall ⊢
      have hrest : xs.takeWhile p = xs.take k :=
        ih (fun y hy => hall y (List.mem_cons_of_mem x hy)) (fun y hy => hstop y (by simpa using hy))
      rw [List.takeWhile_cons_of_pos (hall x (by simp)), hrest]

end Causal

section StableSort

variable {α : Type} (r : α → α → Prop) [DecidableRel r]

theorem orderedInsert_of_forall {a : α} {l : List α} (h : ∀ c ∈ l, r a c) :
    l.orderedInsert r a = a :: l := by
  cases l with
  | nil => rfl
  | cons b l => simp [h b (by simp)]

variable [IsTrans α r]

theorem filter_orderedInsert (p : α → Bool) (a : α) {l : List α} (hl : l.Pairwise r) :
    (l.orderedInsert r a).filter p =
      if p a then (l.filter p).orderedInsert r a else l.filter p := by
  induction l with
  | nil => cases h : p a <;> simp [h]
  | cons b l ih =>
    obtain ⟨hb, hl⟩ := List.pairwise_cons.mp hl
    by_cases hab : r a b
    · have hfirst : (b :: l).orderedInsert r a = a :: b :: l := by simp [hab]
      have hbelow : ∀ c ∈ (b :: l).filter p, r a c := by
        intro c hc
        rcases List.mem_cons.mp (List.mem_filter.mp hc).1 with rfl | hc
        · exact hab
        · exact IsTrans.trans a b c hab (hb c hc)
      rw [hfirst, orderedInsert_of_forall r hbelow]
      cases h : p a <;> simp [h]
    · have hlater : (b :: l).orderedInsert r a = b :: l.orderedInsert r a := by simp [hab]
      rw [hlater]
      cases hp : p b with
      | false => simp [hp, ih hl]
      | true =>
        simp only [List.filter_cons_of_pos hp, ih hl]
        cases h : p a <;> simp [hab]

/-- Selecting before or after a stable sort makes no difference. -/
theorem filter_insertionSort [Std.Total r] (p : α → Bool) (l : List α) :
    (l.insertionSort r).filter p = (l.filter p).insertionSort r := by
  induction l with
  | nil => rfl
  | cons a l ih =>
    rw [List.insertionSort_cons, filter_orderedInsert r p a (List.pairwise_insertionSort r l), ih]
    cases h : p a <;> simp [h]

/-- What a later entry has an earlier one has too, so those that have it come first. -/
theorem filter_eq_take {p : α → Bool} {l : List α}
    (h : l.Pairwise fun a b => p b = true → p a = true) :
    l.filter p = l.take (l.filter p).length := by
  induction l with
  | nil => rfl
  | cons a l ih =>
    obtain ⟨ha, hl⟩ := List.pairwise_cons.mp h
    cases hp : p a with
    | true =>
      rw [List.filter_cons_of_pos hp, List.length_cons, List.take_succ_cons, ← ih hl]
    | false =>
      have hnil : (a :: l).filter p = [] := by
        rw [List.filter_cons_of_neg (by simp [hp]), List.filter_eq_nil_iff]
        intro b hb hpb
        rw [ha b hb hpb] at hp
        cases hp
      rw [hnil]
      rfl

theorem lt_length_filter {p : α → Bool} {l : List α}
    (h : l.Pairwise fun a b => p b = true → p a = true) {i : Nat} {a : α} (hi : l[i]? = some a)
    (ha : p a = true) : i < (l.filter p).length := by
  induction l generalizing i with
  | nil => simp at hi
  | cons b l ih =>
    obtain ⟨hb, hl⟩ := List.pairwise_cons.mp h
    cases i with
    | zero =>
      obtain rfl := Option.some.inj hi
      simp [List.filter_cons_of_pos ha]
    | succ i =>
      rw [List.getElem?_cons_succ] at hi
      have hp : p b = true := hb a (List.mem_of_getElem? hi) ha
      have hlt := ih hl hi
      rw [List.filter_cons_of_pos hp, List.length_cons]
      omega

end StableSort

end OhlcvValidator
