import Mathlib

namespace OhlcvValidator

variable {ρ : Type}

/-- The entries of a partial sequence with index in `[f, g)`, in index order. -/
def entriesBetween (p : Nat → Option ρ) (f g : Nat) : List (Nat × ρ) :=
  (List.range' f (g - f)).filterMap fun s => (p s).map fun r => (s, r)

theorem mem_entriesBetween {p : Nat → Option ρ} {f g s : Nat} {r : ρ} :
    (s, r) ∈ entriesBetween p f g ↔ f ≤ s ∧ s < g ∧ p s = some r := by
  simp only [entriesBetween, List.mem_filterMap, List.mem_range'_1, Option.map_eq_some_iff,
    Prod.mk.injEq]
  constructor
  · rintro ⟨t, ht, r', hr, rfl, rfl⟩
    exact ⟨ht.1, by omega, hr⟩
  · rintro ⟨hf, hg, hr⟩
    exact ⟨s, by omega, r, hr, rfl, rfl⟩

theorem entriesBetween_self (p : Nat → Option ρ) (f : Nat) : entriesBetween p f f = [] := by
  simp [entriesBetween]

theorem entriesBetween_append (p : Nat → Option ρ) {f g h : Nat} (hfg : f ≤ g) (hgh : g ≤ h) :
    entriesBetween p f g ++ entriesBetween p g h = entriesBetween p f h := by
  have hsplit : List.range' f (h - f) = List.range' f (g - f) ++ List.range' g (h - g) := by
    have happ := @List.range'_append f (g - f) (h - g) 1
    rwa [show f + 1 * (g - f) = g by omega, show g - f + (h - g) = h - f by omega,
      eq_comm] at happ
  rw [entriesBetween, entriesBetween, entriesBetween, hsplit, List.filterMap_append]

theorem entriesBetween_congr {p q : Nat → Option ρ} {f g : Nat}
    (h : ∀ s, f ≤ s → s < g → p s = q s) : entriesBetween p f g = entriesBetween q f g := by
  apply List.filterMap_congr
  intro s hs
  have hs := List.mem_range'_1.mp hs
  rw [h s hs.1 (by omega)]

theorem entriesBetween_succ (p : Nat → Option ρ) {f g : Nat} (h : f < g) :
    entriesBetween p f g =
      ((p f).map fun r => (f, r)).toList ++ entriesBetween p (f + 1) g := by
  obtain ⟨n, hn⟩ : ∃ n, g - f = n + 1 := ⟨g - f - 1, by omega⟩
  have hn' : g - (f + 1) = n := by omega
  simp only [entriesBetween, hn, hn', List.range'_succ, List.filterMap_cons]
  cases p f <;> rfl

theorem entriesBetween_one (p : Nat → Option ρ) (f : Nat) :
    entriesBetween p f (f + 1) = ((p f).map fun r => (f, r)).toList := by
  rw [entriesBetween_succ p (by omega), entriesBetween_self, List.append_nil]

theorem entriesBetween_length_le (p : Nat → Option ρ) (f g : Nat) :
    (entriesBetween p f g).length ≤ g - f := by
  simpa [entriesBetween] using
    List.length_filterMap_le (fun s => (p s).map fun r => (s, r)) (List.range' f (g - f))

theorem entriesBetween_sorted (p : Nat → Option ρ) (f g : Nat) :
    (entriesBetween p f g).Pairwise fun x y => x.1 < y.1 := by
  apply List.Pairwise.filterMap (S := fun x y : Nat × ρ => x.1 < y.1) _ _ List.pairwise_lt_range'
  intro s t hst x hx y hy
  obtain ⟨_, _, rfl⟩ := Option.map_eq_some_iff.mp hx
  obtain ⟨_, _, rfl⟩ := Option.map_eq_some_iff.mp hy
  exact hst

theorem entriesBetween_of_none {p : Nat → Option ρ} {f g : Nat}
    (h : ∀ s, f ≤ s → s < g → p s = none) : entriesBetween p f g = [] := by
  rw [List.eq_nil_iff_forall_not_mem]
  rintro ⟨s, r⟩ hm
  obtain ⟨hf, hg, hr⟩ := mem_entriesBetween.mp hm
  simp [h s hf hg] at hr

/-- A contiguous run of entries has every index of its range. -/
theorem entriesBetween_keys {p : Nat → Option ρ} {f g : Nat}
    (h : ∀ s, f ≤ s → s < g → p s ≠ none) :
    (entriesBetween p f g).map Prod.fst = List.range' f (g - f) := by
  have hkey : ∀ s ∈ List.range' f (g - f),
      ((p s).map fun r => (s, r)).map Prod.fst = some s := by
    intro s hs
    have hs := List.mem_range'_1.mp hs
    obtain ⟨r, hr⟩ := Option.ne_none_iff_exists'.mp (h s hs.1 (by omega))
    simp [hr]
  rw [entriesBetween, List.map_filterMap, List.filterMap_congr hkey, List.filterMap_some]

/-- Filling a hole adds one entry. -/
theorem entriesBetween_update_length {p : Nat → Option ρ} {f g s : Nat} {r : ρ}
    (hs : p s = none) (hf : f ≤ s) (hg : s < g) :
    (entriesBetween (Function.update p s (some r)) f g).length =
      (entriesBetween p f g).length + 1 := by
  have hlow : entriesBetween (Function.update p s (some r)) f s = entriesBetween p f s :=
    entriesBetween_congr fun t _ ht => Function.update_of_ne (by omega) _ _
  have hhigh : entriesBetween (Function.update p s (some r)) (s + 1) g =
      entriesBetween p (s + 1) g :=
    entriesBetween_congr fun t ht _ => Function.update_of_ne (by omega) _ _
  rw [← entriesBetween_append _ hf hg.le, ← entriesBetween_append p hf hg.le,
    entriesBetween_succ _ hg, entriesBetween_succ p hg, hlow, hhigh]
  simp [hs]
  omega

/-- The first index at or after `q` without an entry. -/
noncomputable def firstHole (p : Nat → Option ρ) (q : Nat) : Nat :=
  sInf {s | q ≤ s ∧ p s = none}

/-- The first index from which on there are no entries, at or after `q`. -/
noncomputable def pendingEnd (p : Nat → Option ρ) (q : Nat) : Nat :=
  sInf {g | q ≤ g ∧ ∀ s, g ≤ s → p s = none}

/-- A partial sequence with entries below a bound only. -/
def FiniteBelow (p : Nat → Option ρ) (bound : Nat) : Prop :=
  ∀ s, bound ≤ s → p s = none

theorem FiniteBelow.hole {p : Nat → Option ρ} {bound : Nat} (hb : FiniteBelow p bound) (q : Nat) :
    {s | q ≤ s ∧ p s = none}.Nonempty :=
  ⟨max q bound, le_max_left _ _, hb _ (le_max_right _ _)⟩

theorem le_firstHole {p : Nat → Option ρ} {bound : Nat} (hb : FiniteBelow p bound) (q : Nat) :
    q ≤ firstHole p q :=
  (Nat.sInf_mem (hb.hole q)).1

theorem firstHole_none {p : Nat → Option ρ} {bound : Nat} (hb : FiniteBelow p bound) (q : Nat) :
    p (firstHole p q) = none :=
  (Nat.sInf_mem (hb.hole q)).2

theorem firstHole_le {p : Nat → Option ρ} {q s : Nat} (hq : q ≤ s) (hs : p s = none) :
    firstHole p q ≤ s :=
  Nat.sInf_le ⟨hq, hs⟩

theorem ne_none_of_lt_firstHole {p : Nat → Option ρ} {q s : Nat} (hq : q ≤ s)
    (hs : s < firstHole p q) : p s ≠ none := by
  intro hn
  have := firstHole_le hq hn
  omega

theorem firstHole_congr {p p' : Nat → Option ρ} {q : Nat} (h : ∀ s, q ≤ s → p s = p' s) :
    firstHole p q = firstHole p' q := by
  have hset : {s | q ≤ s ∧ p s = none} = {s | q ≤ s ∧ p' s = none} := by
    ext s
    exact and_congr_right fun hs => by rw [h s hs]
  rw [firstHole, firstHole, hset]

theorem firstHole_le_bound {p : Nat → Option ρ} {bound q : Nat} (hb : FiniteBelow p bound)
    (hq : q ≤ bound) : firstHole p q ≤ bound :=
  firstHole_le hq (hb bound le_rfl)

theorem FiniteBelow.end {p : Nat → Option ρ} {bound : Nat} (hb : FiniteBelow p bound) (q : Nat) :
    {g | q ≤ g ∧ ∀ s, g ≤ s → p s = none}.Nonempty :=
  ⟨max q bound, le_max_left _ _, fun s hs => hb s ((le_max_right _ _).trans hs)⟩

theorem le_pendingEnd {p : Nat → Option ρ} {bound : Nat} (hb : FiniteBelow p bound) (q : Nat) :
    q ≤ pendingEnd p q :=
  (Nat.sInf_mem (hb.end q)).1

theorem pendingEnd_finiteBelow {p : Nat → Option ρ} {bound : Nat} (hb : FiniteBelow p bound)
    (q : Nat) : FiniteBelow p (pendingEnd p q) :=
  (Nat.sInf_mem (hb.end q)).2

theorem pendingEnd_le {p : Nat → Option ρ} {q g : Nat} (hq : q ≤ g) (hg : FiniteBelow p g) :
    pendingEnd p q ≤ g :=
  Nat.sInf_le ⟨hq, hg⟩

theorem lt_pendingEnd {p : Nat → Option ρ} {bound q s : Nat} (hb : FiniteBelow p bound)
    (hs : p s ≠ none) : s < pendingEnd p q := by
  by_contra h
  exact hs (pendingEnd_finiteBelow hb q s (not_lt.mp h))

end OhlcvValidator
