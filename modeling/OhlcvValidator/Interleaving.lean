import Mathlib

namespace OhlcvValidator

/-- A system in which every state that is not final has a step after which less is left to do
can be brought to a final state from wherever it is, in as many steps as are left. -/
theorem exists_foldlM_final {σ α : Type} {f : σ → α → Option σ} {I final : σ → Prop} (size : σ → Nat)
    (keeps : ∀ s x t, I s → f s x = some t → I t)
    (progress : ∀ s, I s → ¬final s → ∃ x t, f s x = some t ∧ size t < size s) {s : σ} (hs : I s) :
    ∃ (xs : List α) (t : σ), xs.length ≤ size s ∧ xs.foldlM f s = some t ∧ final t := by
  induction hn : size s using Nat.strong_induction_on generalizing s with
  | _ n ih =>
    by_cases hfinal : final s
    · exact ⟨[], s, Nat.zero_le _, rfl, hfinal⟩
    · obtain ⟨x, t, hstep, hless⟩ := progress s hs hfinal
      obtain ⟨xs, u, hlen, hrun, hu⟩ := ih (size t) (hn ▸ hless) (keeps s x t hs hstep) rfl
      refine ⟨x :: xs, u, ?_, by rw [List.foldlM_cons, hstep]; exact hrun, hu⟩
      rw [List.length_cons]
      omega

/-- One more process is counted once it is where the others are. -/
theorem card_filter_update {f : Nat → Bool} {n t : Nat} (ht : t < n) (hf : f t = false) :
    ((Finset.range n).filter fun u => Function.update f t true u).card =
      ((Finset.range n).filter fun u => f u).card + 1 := by
  rw [← Finset.card_insert_of_notMem (a := t) (by simp [hf])]
  congr 1
  ext u
  by_cases hu : u = t
  · subst hu
    simp [ht]
  · simp [hu]

theorem forall_of_card_filter {f : Nat → Bool} {n : Nat}
    (h : ((Finset.range n).filter fun u => f u).card = n) : ∀ t < n, f t = true := by
  have hall := (Finset.card_filter_eq_iff (s := Finset.range n) (p := fun u => f u)).mp (by simpa using h)
  intro t ht
  exact hall t (Finset.mem_range.mpr ht)

end OhlcvValidator
