import Mathlib

namespace OhlcvValidator

/-- A `while` loop with an explicit budget of body executions. The result is
`none` when the budget runs out with the condition still true, or when a body
execution itself has no result. -/
def whileLoop {σ : Type} (cond : σ → Bool) (body : σ → Option σ) : Nat → σ → Option σ
  | 0, s => if cond s then none else some s
  | fuel + 1, s => if cond s then (body s).bind (whileLoop cond body fuel) else some s

variable {σ : Type} {cond : σ → Bool} {body : σ → Option σ}

theorem whileLoop_exit {fuel : Nat} {s : σ} (h : cond s = false) :
    whileLoop cond body fuel s = some s := by
  cases fuel <;> simp [whileLoop, h]

theorem whileLoop_succ {fuel : Nat} {s t : σ} (h : cond s = true) (hb : body s = some t) :
    whileLoop cond body (fuel + 1) s = whileLoop cond body fuel t := by
  simp [whileLoop, h, hb]

/-- Total correctness: an invariant kept by the body, with a measure that the
body decreases and the budget covers, holds at the exit the loop reaches. -/
theorem whileLoop_total {Inv : σ → Prop} {size : σ → Nat}
    (step : ∀ s, Inv s → cond s = true → ∃ t, body s = some t ∧ Inv t ∧ size t < size s)
    {fuel : Nat} {s : σ} (hs : Inv s) (hf : size s ≤ fuel) :
    ∃ t, whileLoop cond body fuel s = some t ∧ Inv t ∧ cond t = false := by
  induction fuel generalizing s with
  | zero =>
    cases hc : cond s with
    | false => exact ⟨s, whileLoop_exit hc, hs, hc⟩
    | true =>
      obtain ⟨t, _, _, hlt⟩ := step s hs hc
      omega
  | succ fuel ih =>
    cases hc : cond s with
    | false => exact ⟨s, whileLoop_exit hc, hs, hc⟩
    | true =>
      obtain ⟨t, hb, ht, hlt⟩ := step s hs hc
      obtain ⟨u, hu, hinv, hexit⟩ := ih ht (by omega)
      exact ⟨u, (whileLoop_succ hc hb).trans hu, hinv, hexit⟩

/-- Partial correctness: what the body keeps holds at every exit that the loop reaches. -/
theorem whileLoop_invariant {I : σ → Prop}
    (step : ∀ s t, I s → cond s = true → body s = some t → I t) {fuel : Nat} {s t : σ}
    (hs : I s) (h : whileLoop cond body fuel s = some t) : I t ∧ cond t = false := by
  induction fuel generalizing s with
  | zero =>
    unfold whileLoop at h
    split at h
    next => simp at h
    next hc =>
      cases Option.some.inj h
      exact ⟨hs, by simpa using hc⟩
  | succ fuel ih =>
    unfold whileLoop at h
    split at h
    next hc =>
      obtain ⟨u, hu, h⟩ := Option.bind_eq_some_iff.mp h
      exact ih (step s u hs hc hu) h
    next hc =>
      cases Option.some.inj h
      exact ⟨hs, by simpa using hc⟩

/-- The state after so many turns of the loop, each begun with the condition true. -/
inductive Turns (cond : σ → Bool) (body : σ → Option σ) : Nat → σ → σ → Prop
  | start (s : σ) : Turns cond body 0 s s
  | next {n : Nat} {s t u : σ} (before : Turns cond body n s t) (hcond : cond t = true)
      (hbody : body t = some u) : Turns cond body (n + 1) s u

theorem Turns.invariant {Inv : σ → Prop}
    (step : ∀ s t, Inv s → cond s = true → body s = some t → Inv t) {n : Nat} {s t : σ}
    (h : Turns cond body n s t) (hs : Inv s) : Inv t := by
  induction h with
  | start => exact hs
  | next _ hcond hbody ih => exact step _ _ (ih hs) hcond hbody

theorem Turns.cons {n : Nat} {s t u : σ} (hcond : cond s = true) (hbody : body s = some t)
    (h : Turns cond body n t u) : Turns cond body (n + 1) s u := by
  induction h with
  | start => exact .next (.start s) hcond hbody
  | next _ hc hb ih => exact .next (ih hbody) hc hb

theorem Turns.whileLoop_eq {n : Nat} {s t : σ} (h : Turns cond body n s t) (fuel : Nat) :
    whileLoop cond body (fuel + n) s = whileLoop cond body fuel t := by
  induction h generalizing fuel with
  | start => rfl
  | @next n _ _ _ _ hcond hbody ih =>
    rw [show fuel + (n + 1) = fuel + 1 + n by omega, ih, whileLoop_succ hcond hbody]

/-- A loop ends within its budget exactly if it takes no more turns than that. -/
theorem whileLoop_eq_some_iff {fuel : Nat} {s t : σ} :
    whileLoop cond body fuel s = some t ↔ ∃ n ≤ fuel, Turns cond body n s t ∧ cond t = false := by
  constructor
  · intro h
    induction fuel generalizing s with
    | zero =>
      unfold whileLoop at h
      split at h
      next => simp at h
      next hc =>
        cases Option.some.inj h
        exact ⟨0, le_rfl, .start _, by simpa using hc⟩
    | succ fuel ih =>
      unfold whileLoop at h
      split at h
      next hc =>
        obtain ⟨u, hu, h⟩ := Option.bind_eq_some_iff.mp h
        obtain ⟨n, hn, hturns, hexit⟩ := ih h
        exact ⟨n + 1, by omega, hturns.cons hc hu, hexit⟩
      next hc =>
        cases Option.some.inj h
        exact ⟨0, by omega, .start _, by simpa using hc⟩
  · rintro ⟨n, hn, hturns, hexit⟩
    obtain ⟨rest, rfl⟩ := Nat.exists_eq_add_of_le' hn
    rw [hturns.whileLoop_eq, whileLoop_exit hexit]

/-- A change of state that the condition does not see and the body carries along is carried
along by the whole loop. -/
theorem whileLoop_map {τ : Type} {cond' : τ → Bool} {body' : τ → Option τ} {f : σ → τ}
    (hcond : ∀ s, cond' (f s) = cond s) (hbody : ∀ s, body' (f s) = (body s).map f) (fuel : Nat)
    (s : σ) : whileLoop cond' body' fuel (f s) = (whileLoop cond body fuel s).map f := by
  induction fuel generalizing s with
  | zero =>
    simp only [whileLoop, hcond]
    split <;> rfl
  | succ fuel ih =>
    simp only [whileLoop, hcond, hbody]
    split
    next => cases body s with
      | none => rfl
      | some t => exact ih t
    next => rfl

theorem foldlM_map {α : Type} {g : σ → α → Option σ} {f : σ → σ}
    (step : ∀ s x, g (f s) x = (g s x).map f) (xs : List α) (s : σ) :
    xs.foldlM g (f s) = (xs.foldlM g s).map f := by
  induction xs generalizing s with
  | nil => rfl
  | cons x xs ih =>
    rw [List.foldlM_cons, List.foldlM_cons, step]
    cases g s x with
    | none => rfl
    | some t => exact ih t

/-- What every step that has a result keeps holds at the end of every run that has one. -/
theorem foldlM_invariant {α : Type} {f : σ → α → Option σ} {I : σ → Prop}
    (step : ∀ s x t, I s → f s x = some t → I t) {xs : List α} {s t : σ} (hs : I s)
    (hrun : xs.foldlM f s = some t) : I t := by
  induction xs generalizing s with
  | nil =>
    obtain rfl := Option.some.inj hrun
    exact hs
  | cons x xs ih =>
    rw [List.foldlM_cons] at hrun
    obtain ⟨u, hu, hrun⟩ := Option.bind_eq_some_iff.mp hrun
    exact ih (step s x u hs hu) hrun

/-- Simulation along a run: the concrete fold succeeds and stays related to the
abstract fold over the same inputs. -/
theorem foldlM_simulates {α τ : Type} {f : σ → α → Option σ} {g : τ → α → τ}
    {R : σ → τ → Prop} {xs : List α}
    (step : ∀ s t x, x ∈ xs → R s t → ∃ s', f s x = some s' ∧ R s' (g t x))
    {s : σ} {t : τ} (h : R s t) : ∃ s', xs.foldlM f s = some s' ∧ R s' (xs.foldl g t) := by
  induction xs generalizing s t with
  | nil => exact ⟨s, rfl, h⟩
  | cons x xs ih =>
    obtain ⟨u, hx, hu⟩ := step s t x (by simp) h
    obtain ⟨v, hv, hr⟩ := ih (fun s t y hy => step s t y (by simp [hy])) hu
    exact ⟨v, by simpa [List.foldlM_cons, hx] using hv, hr⟩

end OhlcvValidator
