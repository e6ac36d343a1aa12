import Mathlib.Data.List.Basic
import Mathlib.Data.List.Induction

namespace OhlcvValidator

/-! Runs of a step that may throw, with the state that a throw leaves behind. -/

namespace ThrowingRuns

variable {σ α : Type}

/-- `P` holds of the state that is returned, and `Q` of the one that a throw leaves behind. -/
def Ends (P Q : σ → Prop) : Except σ σ → Prop
  | .ok s => P s
  | .error s => Q s

/-- A run keeps what each step keeps, and ends in what a step throws with. -/
theorem Ends.foldlM {P Q : List α → σ → Prop} {f : σ → α → Except σ σ} {s : σ} (start : P [] s)
    (step : ∀ pre x s, P pre s → Ends (P (pre ++ [x])) (Q (pre ++ [x])) (f s x))
    (rest : ∀ pre x s, Q pre s → Q (pre ++ [x]) s) (xs : List α) :
    Ends (P xs) (Q xs) (xs.foldlM f s) := by
  induction xs using List.reverseRecOn with
  | nil => exact start
  | append_singleton xs x ih =>
    rw [List.foldlM_append]
    cases hrun : xs.foldlM f s with
    | ok t =>
      rw [hrun] at ih
      show Ends _ _ ([x].foldlM f t)
      rw [List.foldlM_cons]
      have hstep := step xs x t ih
      cases hx : f t x with
      | ok u =>
        rw [hx] at hstep
        exact hstep
      | error u =>
        rw [hx] at hstep
        exact hstep
    | error t =>
      rw [hrun] at ih
      exact rest xs x t ih

end ThrowingRuns

end OhlcvValidator
