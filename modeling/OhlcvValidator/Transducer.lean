import Mathlib

namespace OhlcvValidator

section Transduce

variable {σ τ α β : Type} {f : σ → α → σ × β} {g : τ → α → τ × β}

/-- Inputs through a machine that answers each one, with the answers in order. -/
def transduce (f : σ → α → σ × β) (s : σ) : List α → σ × List β
  | [] => (s, [])
  | x :: xs => ((transduce f (f s x).1 xs).1, (f s x).2 :: (transduce f (f s x).1 xs).2)

/-- Machines in related states that answer alike and stay related answer all inputs alike. -/
theorem transduce_simulates {R : σ → τ → Prop}
    (step : ∀ s t x, R s t → (f s x).2 = (g t x).2 ∧ R (f s x).1 (g t x).1) (xs : List α)
    {s : σ} {t : τ} (h : R s t) :
    (transduce f s xs).2 = (transduce g t xs).2 ∧ R (transduce f s xs).1 (transduce g t xs).1 := by
  induction xs generalizing s t with
  | nil => exact ⟨rfl, h⟩
  | cons x xs ih =>
    obtain ⟨hreply, hnext⟩ := step s t x h
    obtain ⟨hreplies, hend⟩ := ih hnext
    exact ⟨congrArg₂ List.cons hreply hreplies, hend⟩

theorem transduce_append (f : σ → α → σ × β) (s : σ) (xs ys : List α) :
    transduce f s (xs ++ ys) = ((transduce f (transduce f s xs).1 ys).1,
      (transduce f s xs).2 ++ (transduce f (transduce f s xs).1 ys).2) := by
  induction xs generalizing s with
  | nil => rfl
  | cons x xs ih => simp [transduce, ih]

theorem length_transduce (f : σ → α → σ × β) (s : σ) (xs : List α) :
    (transduce f s xs).2.length = xs.length := by
  induction xs generalizing s with
  | nil => rfl
  | cons x xs ih => simp [transduce, ih]

end Transduce

end OhlcvValidator
