import Mathlib

namespace OhlcvValidator

namespace LinearProbing

variable {K : Type} {n : Nat}

/-- The slot `d` places further on, around the end of the table. -/
def ahead (i : Fin n) (d : Nat) : Fin n :=
  ⟨(i + d) % n, Nat.mod_lt _ i.pos⟩

theorem ahead_zero (i : Fin n) : ahead i 0 = i :=
  Fin.ext (Nat.mod_eq_of_lt i.isLt)

theorem ahead_ahead (i : Fin n) (d e : Nat) : ahead (ahead i d) e = ahead i (d + e) := by
  apply Fin.ext
  show ((i + d) % n + e) % n = (i + (d + e)) % n
  rw [Nat.mod_add_mod, Nat.add_assoc]

theorem exists_ahead (i j : Fin n) : ∃ d, d < n ∧ ahead i d = j := by
  refine ⟨(j + n - i) % n, Nat.mod_lt _ i.pos, Fin.ext ?_⟩
  have hi := i.isLt
  show (i + (j + n - i) % n) % n = j
  rw [Nat.add_mod_mod, show (i : Nat) + (j + n - i) = j + n by omega, Nat.add_mod_right,
    Nat.mod_eq_of_lt j.isLt]

/-- A slot held by another key, which the search steps over. -/
def Passes (occ : Fin n → Option K) (k : K) (i : Fin n) : Prop :=
  ∃ k', occ i = some k' ∧ k' ≠ k

theorem not_passes {occ : Fin n → Option K} {k : K} {i : Fin n} :
    ¬Passes occ k i ↔ occ i = none ∨ occ i = some k := by
  unfold Passes
  cases occ i with
  | none => simp
  | some k' => simp

/-- A key written over itself or into an empty slot displaces no other. -/
theorem exists_update_iff {occ : Fin n → Option K} {k : K} {j : Fin n}
    (hj : occ j = some k ∨ occ j = none) (q : K) :
    (∃ i, Function.update occ j (some k) i = some q) ↔ (∃ i, occ i = some q) ∨ q = k := by
  constructor
  · rintro ⟨i, hi⟩
    by_cases hij : i = j
    · subst hij
      rw [Function.update_self] at hi
      exact Or.inr (Option.some.inj hi).symm
    · rw [Function.update_of_ne hij] at hi
      exact Or.inl ⟨i, hi⟩
  · intro hq
    rcases hq with ⟨i, hi⟩ | rfl
    · by_cases hij : i = j
      · subst hij
        refine ⟨i, ?_⟩
        rcases hj with hj | hj
        · rw [Function.update_self, ← hj, hi]
        · rw [hj] at hi
          simp at hi
      · exact ⟨i, by rw [Function.update_of_ne hij, hi]⟩
    · exact ⟨j, Function.update_self ..⟩

section Probe

variable [DecidableEq K]

/-- The search over `count` slots from `i` on: the key's slot or the first empty one. -/
def probe (occ : Fin n → Option K) (k : K) : Nat → Fin n → Option (Fin n)
  | 0, _ => none
  | count + 1, i =>
    match occ i with
    | none => some i
    | some k' => if k' = k then some i else probe occ k count (ahead i 1)

variable {occ : Fin n → Option K} {k : K}

theorem probe_succ_passes {count : Nat} {i : Fin n} (h : Passes occ k i) :
    probe occ k (count + 1) i = probe occ k count (ahead i 1) := by
  obtain ⟨k', hk', hne⟩ := h
  simp [probe, hk', hne]

theorem probe_succ_stops {count : Nat} {i : Fin n} (h : ¬Passes occ k i) :
    probe occ k (count + 1) i = some i := by
  rcases not_passes.mp h with hnone | hk
  · simp [probe, hnone]
  · simp [probe, hk]

theorem probe_eq_none {count : Nat} {i : Fin n} :
    probe occ k count i = none ↔ ∀ d, d < count → Passes occ k (ahead i d) := by
  induction count generalizing i with
  | zero => simp [probe]
  | succ count ih =>
    by_cases hi : Passes occ k i
    · rw [probe_succ_passes hi, ih]
      constructor
      · intro h d hd
        cases d with
        | zero => rwa [ahead_zero]
        | succ d =>
          have := h d (by omega)
          rwa [ahead_ahead, Nat.add_comm] at this
      · intro h d hd
        rw [ahead_ahead, Nat.add_comm]
        exact h (d + 1) (by omega)
    · rw [probe_succ_stops hi]
      refine ⟨by simp, ?_⟩
      intro h
      exact absurd (ahead_zero i ▸ h 0 (by omega)) hi

theorem probe_eq_some {count : Nat} {i j : Fin n} :
    probe occ k count i = some j ↔ ∃ d, d < count ∧ ahead i d = j ∧ ¬Passes occ k j ∧
      ∀ e, e < d → Passes occ k (ahead i e) := by
  induction count generalizing i with
  | zero => simp [probe]
  | succ count ih =>
    by_cases hi : Passes occ k i
    · rw [probe_succ_passes hi, ih]
      constructor
      · intro h
        obtain ⟨d, hd, hj, hstop, hpass⟩ := h
        refine ⟨d + 1, by omega, by rw [← hj, ahead_ahead, Nat.add_comm], hstop, ?_⟩
        intro e he
        cases e with
        | zero => rwa [ahead_zero]
        | succ e =>
          have := hpass e (by omega)
          rwa [ahead_ahead, Nat.add_comm] at this
      · intro h
        obtain ⟨d, hd, hj, hstop, hpass⟩ := h
        cases d with
        | zero =>
          rw [ahead_zero] at hj
          exact absurd hi (hj ▸ hstop)
        | succ d =>
          refine ⟨d, by omega, by rw [← hj, ahead_ahead, Nat.add_comm], hstop, ?_⟩
          intro e he
          rw [ahead_ahead, Nat.add_comm]
          exact hpass (e + 1) (by omega)
    · rw [probe_succ_stops hi]
      constructor
      · intro h
        obtain rfl := Option.some.inj h
        exact ⟨0, by omega, ahead_zero i, hi, fun e he => absurd he (Nat.not_lt_zero e)⟩
      · intro h
        obtain ⟨d, _, hj, _, hpass⟩ := h
        cases d with
        | zero => rw [← hj, ahead_zero]
        | succ d => exact absurd (ahead_zero i ▸ hpass 0 (by omega)) hi

variable {home : K → Fin n}

/-- Every key is found in the slot that holds it. -/
def Findable (occ : Fin n → Option K) (home : K → Fin n) : Prop :=
  ∀ i k, occ i = some k → probe occ k n (home k) = some i

theorem findable_empty : Findable (fun _ => none) home :=
  fun _ _ h => absurd h (by simp)

theorem Findable.unique (h : Findable occ home) {i j : Fin n} (hi : occ i = some k)
    (hj : occ j = some k) : i = j :=
  Option.some.inj ((h i k hi).symm.trans (h j k hj))

/-- The search for a key that is not stored ends at an empty slot. -/
theorem probe_absent (habs : ∀ i, occ i ≠ some k) {i j : Fin n} {count : Nat}
    (h : probe occ k count i = some j) : occ j = none := by
  obtain ⟨_, _, _, hstop, _⟩ := probe_eq_some.mp h
  exact (not_passes.mp hstop).resolve_right (habs j)

theorem probe_ne_none {i j : Fin n} (hj : occ j = none) : probe occ k n i ≠ none := by
  intro h
  obtain ⟨d, hd, rfl⟩ := exists_ahead i j
  exact not_passes.mpr (Or.inl hj) (probe_eq_none.mp h d hd)

theorem probe_full (habs : ∀ i, occ i ≠ some k) (hfull : ∀ i, occ i ≠ none) (i : Fin n) :
    probe occ k n i = none := by
  apply probe_eq_none.mpr
  intro d _
  by_contra hstop
  rcases not_passes.mp hstop with hnone | hk
  · exact hfull _ hnone
  · exact habs _ hk

/-- Storing a key in the empty slot that its search ends at keeps all keys findable. -/
theorem Findable.insert (h : Findable occ home) {j : Fin n}
    (hprobe : probe occ k n (home k) = some j) (hj : occ j = none) :
    Findable (Function.update occ j (some k)) home := by
  intro i k' hi
  have hkeep : ∀ {k'' i'}, Passes occ k'' i' → Passes (Function.update occ j (some k)) k'' i' := by
    intro k'' i' hp
    obtain ⟨q, hq, hne⟩ := hp
    have hij : i' ≠ j := by
      intro he
      rw [he, hj] at hq
      simp at hq
    exact ⟨q, by rw [Function.update_of_ne hij, hq], hne⟩
  by_cases hij : i = j
  · subst hij
    rw [Function.update_self] at hi
    obtain rfl := Option.some.inj hi
    obtain ⟨d, hd, hhome, _, hpass⟩ := probe_eq_some.mp hprobe
    refine probe_eq_some.mpr ⟨d, hd, hhome, ?_, fun e he => hkeep (hpass e he)⟩
    exact not_passes.mpr (Or.inr (Function.update_self ..))
  · rw [Function.update_of_ne hij] at hi
    obtain ⟨d, hd, hhome, _, hpass⟩ := probe_eq_some.mp (h i k' hi)
    refine probe_eq_some.mpr ⟨d, hd, hhome, ?_, fun e he => hkeep (hpass e he)⟩
    exact not_passes.mpr (Or.inr (by rw [Function.update_of_ne hij, hi]))

/-- There is an empty slot exactly if fewer keys than slots are stored. -/
theorem Findable.exists_empty_iff (h : Findable occ home) {keys : List K} (hnodup : keys.Nodup)
    (hkeys : ∀ k, k ∈ keys ↔ ∃ i, occ i = some k) : (∃ i, occ i = none) ↔ keys.length < n := by
  rw [← List.toFinset_card_of_nodup hnodup]
  constructor
  · intro hempty
    obtain ⟨e, he⟩ := hempty
    have hstored : ∀ k, k ∈ keys.toFinset → ∃ i, occ i = some k := fun k hk =>
      (hkeys k).mp (List.mem_toFinset.mp hk)
    have : Nonempty (Fin n) := ⟨e⟩
    choose! slot hslot using hstored
    have hmaps : ∀ k ∈ keys.toFinset, slot k ∈ Finset.univ.erase e := by
      intro k hk
      refine Finset.mem_erase.mpr ⟨?_, Finset.mem_univ _⟩
      intro hke
      have := hslot k hk
      rw [hke, he] at this
      simp at this
    have hinj : Set.InjOn slot keys.toFinset := by
      intro k hk q hq heq
      have hk := hslot k hk
      rw [heq, hslot q hq] at hk
      exact (Option.some.inj hk).symm
    have hcard := Finset.card_le_card_of_injOn slot hmaps hinj
    rw [Finset.card_erase_of_mem (Finset.mem_univ e), Finset.card_univ, Fintype.card_fin] at hcard
    have := e.pos
    omega
  · intro hlt
    by_contra hfull
    push Not at hfull
    have hall : ∀ i, ∃ k, occ i = some k := fun i => Option.ne_none_iff_exists'.mp (hfull i)
    choose held hheld using hall
    have hmaps : ∀ i ∈ (Finset.univ : Finset (Fin n)), held i ∈ keys.toFinset := by
      intro i _
      exact List.mem_toFinset.mpr ((hkeys _).mpr ⟨i, hheld i⟩)
    have hinj : Set.InjOn held (Finset.univ : Finset (Fin n)) := by
      intro i _ j _ heq
      exact h.unique (hheld i) (heq ▸ hheld j)
    have hcard := Finset.card_le_card_of_injOn held hmaps hinj
    rw [Finset.card_univ, Fintype.card_fin] at hcard
    omega

end Probe

end LinearProbing

end OhlcvValidator
