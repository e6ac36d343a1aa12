import OhlcvValidator.EpisodeAccounting

namespace OhlcvValidator

namespace Ml

section Equity

theorem length_accumulate (op : ℚ → ℚ → ℚ) (xs : List ℚ) :
    (accumulate op xs).length = xs.length := by
  cases xs with
  | nil => rfl
  | cons x xs => rw [accumulate, List.length_scanl, List.length_cons]

theorem getElem?_accumulate_max {xs : List ℚ} {j : Nat} (h : j < xs.length) :
    (accumulate max xs)[j]? = (xs.take (j + 1)).max? := by
  cases xs with
  | nil => simp at h
  | cons x xs =>
    rw [accumulate, List.getElem?_scanl, if_pos (Nat.le_of_lt_succ h), List.take_succ_cons,
      List.max?_cons']

theorem getElem?_accumulate_add {xs : List ℚ} {j : Nat} (h : j < xs.length) :
    (accumulate (· + ·) xs)[j]? = some (xs.take (j + 1)).sum := by
  cases xs with
  | nil => simp at h
  | cons x xs =>
    rw [accumulate, List.getElem?_scanl, if_pos (Nat.le_of_lt_succ h), List.take_succ_cons,
      List.sum_eq_foldl, List.foldl_cons, zero_add]

/-- The falls from an entry to itself or a later one. -/
def falls (equity : List ℚ) : Set ℚ :=
  {d : ℚ | ∃ (i j : Nat) (x y : ℚ), i ≤ j ∧ equity[i]? = some x ∧ equity[j]? = some y ∧ d = x - y}

variable {fn : NumpyFns ℚ} {equity : List ℚ}

/-- The peak up to an entry is an entry up to it, and at least every one. -/
theorem exists_peak {j : Nat} {y : ℚ} (h : equity[j]? = some y) :
    ∃ peak, (accumulate max equity)[j]? = some peak ∧ (∃ i ≤ j, equity[i]? = some peak) ∧
      ∀ i ≤ j, ∀ x, equity[i]? = some x → x ≤ peak := by
  have hlt := (List.getElem?_eq_some_iff.mp h).1
  have hne : equity.take (j + 1) ≠ [] := List.ne_nil_of_length_pos (by simp; omega)
  have hpeak := List.max?_eq_some_max hne
  obtain ⟨hmem, hle⟩ := List.max?_eq_some_iff.mp hpeak
  refine ⟨_, (getElem?_accumulate_max hlt).trans hpeak, ?_, ?_⟩
  · obtain ⟨i, hi⟩ := List.mem_iff_getElem?.mp hmem
    rw [List.getElem?_take] at hi
    split at hi
    next hij => exact ⟨i, by omega, hi⟩
    next => cases hi
  · intro i hi x hx
    refine hle x (List.mem_iff_getElem?.mpr ⟨i, ?_⟩)
    rwa [List.getElem?_take, if_pos (by omega)]

/-- The code takes the largest of the differences to the running peak. -/
theorem max?_drawdowns (hmax : fn.maximum = max) (hne : equity ≠ []) :
    (List.zipWith (fun peak e => peak - e) (accumulate max equity) equity).max? =
      some (maxDrawdown fn equity) := by
  unfold maxDrawdown
  rw [hmax]
  cases hfalls : List.zipWith (fun peak e => peak - e) (accumulate max equity) equity with
  | nil =>
    have hlen := congrArg List.length hfalls
    rw [List.length_zipWith, length_accumulate, Nat.min_self] at hlen
    exact absurd (List.length_eq_zero_iff.mp hlen) hne
  | cons x xs => exact List.max?_cons'

theorem maxDrawdown_isGreatest (hmax : fn.maximum = max) (hne : equity ≠ []) :
    IsGreatest (falls equity) (maxDrawdown fn equity) := by
  obtain ⟨hmem, hle⟩ := List.max?_eq_some_iff.mp (max?_drawdowns hmax hne)
  constructor
  · obtain ⟨j, hj⟩ := List.mem_iff_getElem?.mp hmem
    obtain ⟨peak, y, hpeak, hy, heq⟩ := List.getElem?_zipWith_eq_some.mp hj
    obtain ⟨peak', hpeak', ⟨i, hij, hi⟩, _⟩ := exists_peak hy
    obtain rfl := Option.some.inj (hpeak.symm.trans hpeak')
    exact ⟨i, j, peak, y, hij, hi, hy, heq.symm⟩
  · rintro d ⟨i, j, x, y, hij, hx, hy, rfl⟩
    obtain ⟨peak, hpeak, _, hbound⟩ := exists_peak hy
    have hfall : peak - y ∈ List.zipWith (fun peak e => peak - e) (accumulate max equity) equity :=
      List.mem_iff_getElem?.mpr
        ⟨j, List.getElem?_zipWith_eq_some.mpr ⟨peak, y, hpeak, hy, rfl⟩⟩
    calc x - y ≤ peak - y := sub_le_sub_right (hbound i hij x hx) y
      _ ≤ maxDrawdown fn equity := hle _ hfall

end Equity

/-- What the first steps have earned. -/
def equityAfter (pnls : List ℚ) (j : Nat) : ℚ :=
  (pnls.take j).sum

/-- What the code returns: the largest fall among the equities after at least one step. -/
theorem maxDrawdown_spec {fn : NumpyFns ℚ} (hmax : fn.maximum = max) {pnls : List ℚ}
    (hne : pnls ≠ []) :
    IsGreatest {d | ∃ i j, 1 ≤ i ∧ i ≤ j ∧ j ≤ pnls.length ∧
        d = equityAfter pnls i - equityAfter pnls j}
      (maxDrawdown fn (accumulate (· + ·) pnls)) := by
  have hlen := length_accumulate (· + ·) pnls
  have hne' : accumulate (· + ·) pnls ≠ [] := by
    intro hnil
    rw [hnil] at hlen
    exact hne (List.length_eq_zero_iff.mp hlen.symm)
  have hfalls : falls (accumulate (· + ·) pnls) = {d | ∃ i j, 1 ≤ i ∧ i ≤ j ∧ j ≤ pnls.length ∧
      d = equityAfter pnls i - equityAfter pnls j} := by
    ext d
    constructor
    · rintro ⟨i, j, x, y, hij, hx, hy, rfl⟩
      have hj := (List.getElem?_eq_some_iff.mp hy).1
      rw [hlen] at hj
      rw [getElem?_accumulate_add (by omega)] at hx hy
      exact ⟨i + 1, j + 1, by omega, by omega, hj, by
        rw [equityAfter, equityAfter, Option.some.inj hx, Option.some.inj hy]⟩
    · rintro ⟨i, j, hi, hij, hj, rfl⟩
      obtain ⟨i, rfl⟩ := Nat.exists_eq_add_of_le' hi
      obtain ⟨j, rfl⟩ := Nat.exists_eq_add_of_le' (hi.trans hij)
      exact ⟨i, j, _, _, by omega, getElem?_accumulate_add (by omega),
        getElem?_accumulate_add hj, rfl⟩
  rw [← hfalls]
  exact maxDrawdown_isGreatest hmax hne'

/-- The largest fall after the first step is the largest of all just if it is no smaller than a
loss from the start. -/
theorem isGreatest_from_start_iff {equity : Nat → ℚ} (hstart : equity 0 = 0) {n : Nat} {d : ℚ}
    (h : IsGreatest {d | ∃ i j, 1 ≤ i ∧ i ≤ j ∧ j ≤ n ∧ d = equity i - equity j} d) :
    IsGreatest {d | ∃ i j, i ≤ j ∧ j ≤ n ∧ d = equity i - equity j} d ↔
      ∀ k ≤ n, ∃ i j, 1 ≤ i ∧ i ≤ j ∧ j ≤ n ∧ -equity k ≤ equity i - equity j := by
  obtain ⟨⟨i, j, hi, hij, hj, hd⟩, hbound⟩ := h
  constructor
  · intro hall k hk
    refine ⟨i, j, hi, hij, hj, ?_⟩
    have hloss := hall.2 ⟨0, k, Nat.zero_le k, hk, rfl⟩
    rwa [hstart, zero_sub, hd] at hloss
  · intro hmatched
    refine ⟨⟨i, j, hij, hj, hd⟩, ?_⟩
    rintro _ ⟨a, b, hab, hb, rfl⟩
    cases a with
    | zero =>
      obtain ⟨a', b', ha', hab', hb', hle⟩ := hmatched b hb
      rw [hstart, zero_sub]
      exact hle.trans (hbound ⟨a', b', ha', hab', hb', rfl⟩)
    | succ a => exact hbound ⟨a + 1, b, by omega, hab, hb, rfl⟩

variable {O : Type}

/-- The drawdown returned is the largest fall of the equity, the start included, just if no loss
from the start is larger than every fall after the first step. -/
theorem drawdown_from_start_iff {fn : NumpyFns ℚ} (hmax : fn.maximum = max)
    {env : BarTradingEnv ℚ O} (hn : 0 < env.nSteps) {policy : List O → Int}
    (hpolicy : ∀ seen, policy seen ∈ validActions) :
    ∃ actions stats, runEpisodeSeeing fn env policy = some ⟨actions, .ok stats⟩ ∧
      actions.length = env.nSteps ∧
      (IsGreatest {d | ∃ i j, i ≤ j ∧ j ≤ env.nSteps ∧
          d = equityAfter (stepPnls env.txnCost actions env.forwardReturns) i -
            equityAfter (stepPnls env.txnCost actions env.forwardReturns) j} stats.maxDrawdown ↔
        ∀ k ≤ env.nSteps, ∃ i j, 1 ≤ i ∧ i ≤ j ∧ j ≤ env.nSteps ∧
          -equityAfter (stepPnls env.txnCost actions env.forwardReturns) k ≤
            equityAfter (stepPnls env.txnCost actions env.forwardReturns) i -
              equityAfter (stepPnls env.txnCost actions env.forwardReturns) j) := by
  obtain ⟨p, hrun, hbooks, hend⟩ := runEpisodeSeeing_books fn env hpolicy hn
  have hsteps : p.1.actions.length = env.nSteps := hbooks.length_actions.trans hend
  refine ⟨p.1.actions, p.1.stats fn, hrun, hsteps, ?_⟩
  have hlen : p.1.pnls.length = env.nSteps := by
    rw [hbooks.pnls, length_stepPnls hsteps.le, hsteps]
  have hne : p.1.pnls ≠ [] := List.ne_nil_of_length_pos (hlen ▸ hn)
  have hspec := maxDrawdown_spec hmax hne
  rw [hlen] at hspec
  rw [← hbooks.pnls]
  exact isGreatest_from_start_iff rfl hspec

/-- Up, down and up again: the first step earns, and the fall is from its peak. -/
theorem drawdown_from_start_peak :
    ∃ stats, runEpisodeSeeing rationalFns
        (⟨[0, 1, 2], [1, -2, 1], 0, 0, 0, 0, 0, 0, 0, rfl⟩ : BarTradingEnv ℚ Nat) (fun _ => 1) =
          some ⟨[1, 1, 1], .ok stats⟩ ∧
      IsGreatest {d | ∃ i j, i ≤ j ∧ j ≤ 3 ∧
        d = equityAfter (stepPnls 0 [1, 1, 1] [1, -2, 1]) i -
          equityAfter (stepPnls 0 [1, 1, 1] [1, -2, 1]) j} stats.maxDrawdown := by
  obtain ⟨actions, stats, hrun, hlen, hiff⟩ := @drawdown_from_start_iff Nat rationalFns rfl
    ⟨[0, 1, 2], [1, -2, 1], 0, 0, 0, 0, 0, 0, 0, rfl⟩ (by decide) (fun _ => 1)
    (fun _ => by decide)
  obtain rfl : actions = [1, 1, 1] := by
    have hactions := congrArg (Option.map EpisodeRun.actions) hrun
    exact (Option.some.inj hactions).symm
  refine ⟨stats, hrun, hiff.mpr ?_⟩
  intro k hk
  refine ⟨1, 2, le_rfl, by decide, by decide, ?_⟩
  change k ≤ 3 at hk
  interval_cases k <;> decide +kernel

/-- A single losing step: the peak is taken after it, so that it is no drawdown. -/
theorem drawdown_misses_first_loss :
    ∃ env : BarTradingEnv ℚ Nat, ∃ stats, BarTradingEnv.make [0] [-1] 0 0 = .ok env ∧
      runEpisodeSeeing rationalFns env (fun _ => 1) = some ⟨[1], .ok stats⟩ ∧
      stats.maxDrawdown = 0 ∧
      equityAfter (stepPnls 0 [1] [-1]) 0 - equityAfter (stepPnls 0 [1] [-1]) 1 = 1 := by
  refine ⟨_, _, rfl, rfl, ?_, ?_⟩
  · decide +kernel
  · decide +kernel

end Ml

end OhlcvValidator
