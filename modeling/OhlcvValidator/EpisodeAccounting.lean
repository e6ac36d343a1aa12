import OhlcvValidator.TradingEnv

namespace OhlcvValidator

section Lists

variable {α β γ : Type}

theorem zipWith_concat {f : α → β → γ} {as : List α} {bs : List β} {b : β}
    (h : bs[as.length]? = some b) (a : α) :
    List.zipWith f (as ++ [a]) bs = List.zipWith f as bs ++ [f a b] := by
  induction as generalizing bs with
  | nil =>
    cases bs with
    | nil => simp at h
    | cons x bs =>
      obtain rfl : x = b := by simpa using h
      simp
  | cons x as ih =>
    cases bs with
    | nil => simp at h
    | cons y bs => simp [ih (by simpa using h)]

end Lists

namespace Ml

open PriceArith (lit)

section Memory

variable {F O : Type} [PriceArith F]

/-- A turn of the loop with a policy that remembers the observations it has seen. -/
def Episode.bodySeeing (policy : List O → Int) (p : Episode F O × List O) :
    Option (Episode F O × List O) :=
  (p.1.body fun obs => policy (p.2 ++ [obs])).map fun s => (s, p.2 ++ [p.1.obs])

/-- One episode of a policy with memory. -/
def runEpisodeSeeing (fn : NumpyFns F) (env : BarTradingEnv F O) (policy : List O → Int) :
    Option (EpisodeRun F) :=
  match env.reset with
  | .error e => some ⟨[], .error e⟩
  | .ok (env, obs, _) =>
    (whileLoop (fun p => p.1.continues) (Episode.bodySeeing policy) env.nSteps
      (⟨env, obs, lit 0, 0, 0, false, [], [], none⟩, [])).map fun p =>
        match p.1.raised with
        | some e => ⟨p.1.actions, .error e⟩
        | none => ⟨p.1.actions, .ok (p.1.stats fn)⟩

/-- A policy that looks at the last observation only needs no memory. -/
theorem runEpisodeSeeing_memoryless (fn : NumpyFns F) (env : BarTradingEnv F O)
    (policy : O → Int) :
    runEpisodeSeeing fn env (fun seen => (seen.getLast?.map policy).getD 0) =
      runEpisode fn env policy := by
  have hbody : ∀ p : Episode F O × List O, p.1.body policy =
      (Episode.bodySeeing (fun seen => (seen.getLast?.map policy).getD 0) p).map Prod.fst := by
    intro p
    simp [Episode.bodySeeing, Function.comp_def]
  unfold runEpisodeSeeing runEpisode
  cases env.reset with
  | error e => rfl
  | ok r =>
    obtain ⟨start, obs, info⟩ := r
    dsimp only
    have hcond : ∀ p : Episode F O × List O, Episode.continues p.1 = p.1.continues := fun _ => rfl
    have hloop := whileLoop_map hcond hbody start.nSteps
      (⟨start, obs, lit 0, 0, 0, false, [], [], none⟩, [])
    rw [hloop, Option.map_map]
    rfl

end Memory

/-- What each action changes of the position before it. -/
def changes (before : Int) (actions : List Int) : List Int :=
  List.zipWith (fun held a => a - held) (before :: actions) actions

/-- What each position earns over its bar. -/
def gross (actions : List Int) (returns : List ℚ) : List ℚ :=
  List.zipWith (fun (a : Int) (r : ℚ) => a * r) actions returns

/-- What each step earns when a unit of change costs `c`. -/
def stepPnls (c : ℚ) (actions : List Int) (returns : List ℚ) : List ℚ :=
  List.zipWith (fun (g : ℚ) (d : Int) => g - c * |(d : ℚ)|) (gross actions returns) (changes 0 actions)

/-- The units of position that the actions trade, starting flat. -/
def tradedUnits (actions : List Int) : ℚ :=
  ((changes 0 actions).map fun d : Int => |(d : ℚ)|).sum

/-- How many of the actions change the position, starting flat. -/
def tradeCount (actions : List Int) : Nat :=
  (changes 0 actions).countP (· ≠ 0)

theorem length_changes (before : Int) (actions : List Int) :
    (changes before actions).length = actions.length := by
  simp [changes]

theorem changes_concat (before : Int) (actions : List Int) (a : Int) :
    changes before (actions ++ [a]) =
      changes before actions ++ [a - actions.getLastD before] := by
  induction actions generalizing before with
  | nil => rfl
  | cons x actions ih =>
    have hstep : ∀ xs, changes before (x :: xs) = (x - before) :: changes x xs := fun _ => rfl
    rw [List.cons_append, hstep, hstep, ih, List.cons_append]
    cases actions <;> rfl

theorem tradeCount_concat (actions : List Int) (a : Int) :
    tradeCount (actions ++ [a]) =
      if a ≠ actions.getLastD 0 then tradeCount actions + 1 else tradeCount actions := by
  rw [tradeCount, changes_concat, List.countP_append, ← tradeCount]
  generalize actions.getLastD 0 = held
  by_cases hsame : a = held
  · simp [hsame]
  · simp [hsame, sub_ne_zero.mpr hsame]

section Books

variable {actions : List Int} {returns : List ℚ} {r : ℚ}

theorem gross_concat (h : returns[actions.length]? = some r) (a : Int) :
    gross (actions ++ [a]) returns = gross actions returns ++ [a * r] := by
  unfold gross
  exact zipWith_concat h a

theorem length_gross (h : actions.length ≤ returns.length) :
    (gross actions returns).length = actions.length := by
  simp [gross, h]

theorem length_stepPnls {c : ℚ} (h : actions.length ≤ returns.length) :
    (stepPnls c actions returns).length = actions.length := by
  rw [stepPnls, List.length_zipWith, length_gross h, length_changes, Nat.min_self]

theorem stepPnls_concat (c : ℚ) (h : returns[actions.length]? = some r) (a : Int) :
    stepPnls c (actions ++ [a]) returns =
      stepPnls c actions returns ++ [a * r - c * |(a : ℚ) - actions.getLastD 0|] := by
  have hlt := (List.getElem?_eq_some_iff.mp h).1
  unfold stepPnls
  rw [gross_concat h, changes_concat, List.zipWith_append]
  · simp
  · rw [length_gross hlt.le, length_changes]

/-- What one more action adds to the sum of the rewards. -/
theorem penalized_concat (risk : ℚ) (pnls : List ℚ) (pnl : ℚ)
    (h : returns[actions.length]? = some r) (a : Int) :
    (pnls ++ [pnl]).sum - risk * ((gross (actions ++ [a]) returns).map (· ^ 2)).sum =
      pnls.sum - risk * ((gross actions returns).map (· ^ 2)).sum +
        (pnl - risk * (a * r) ^ 2) := by
  rw [gross_concat h, List.map_append, List.sum_append, List.sum_append, List.map_singleton,
    List.sum_singleton, List.sum_singleton]
  ring

theorem sum_zipWith_sub {gs : List ℚ} {ds : List Int} (h : gs.length = ds.length) (c : ℚ) :
    (List.zipWith (fun (g : ℚ) (d : Int) => g - c * |(d : ℚ)|) gs ds).sum =
      gs.sum - c * (ds.map fun d : Int => |(d : ℚ)|).sum := by
  induction gs generalizing ds with
  | nil =>
    obtain rfl := List.length_eq_zero_iff.mp h.symm
    simp
  | cons g gs ih =>
    cases ds with
    | nil => simp at h
    | cons d ds =>
      rw [List.zipWith_cons_cons, List.sum_cons, ih (by simpa using h), List.sum_cons,
        List.map_cons, List.sum_cons]
      ring

/-- What is earned after costs is what the positions earn less the cost of the units traded. -/
theorem sum_stepPnls (c : ℚ) (h : actions.length ≤ returns.length) :
    (stepPnls c actions returns).sum = (gross actions returns).sum - c * tradedUnits actions :=
  sum_zipWith_sub (by rw [length_gross h, length_changes]) c

end Books

variable {O : Type}

/-- The books of an episode under way: the loop and the environment agree on what the policy's
answers to the observations so far have earned, cost and traded. -/
structure Episode.Books (policy : List O → Int) (env : BarTradingEnv ℚ O)
    (p : Episode ℚ O × List O) : Prop where
  observations : p.1.env.observations = env.observations
  forwardReturns : p.1.env.forwardReturns = env.forwardReturns
  txnCost : p.1.env.txnCost = env.txnCost
  riskAversion : p.1.env.riskAversion = env.riskAversion
  seen : p.2 = env.observations.take p.1.env.t
  answers : p.1.actions =
    (List.range p.1.env.t).map fun t => policy (env.observations.take (t + 1))
  position : p.1.env.position = p.1.actions.getLastD 0
  prev : p.1.prev = p.1.actions.getLastD 0
  pnls : p.1.pnls = stepPnls env.txnCost p.1.actions env.forwardReturns
  cumReward : p.1.cumReward = p.1.pnls.sum -
    env.riskAversion * ((gross p.1.actions env.forwardReturns).map (· ^ 2)).sum
  trades : p.1.trades = tradeCount p.1.actions
  envPnl : p.1.env.cumPnl = p.1.pnls.sum
  envReward : p.1.env.cumReward = p.1.cumReward
  within : p.1.env.t ≤ env.nSteps
  running : p.1.done = false → env.observations[p.1.env.t]? = some p.1.obs
  ended : p.1.done = true → p.1.env.t = env.nSteps
  unraised : p.1.raised = none

section Run

variable {policy : List O → Int} {env : BarTradingEnv ℚ O} {p : Episode ℚ O × List O}

theorem Episode.Books.length_actions (h : Episode.Books policy env p) :
    p.1.actions.length = p.1.env.t := by
  rw [h.answers, List.length_map, List.length_range]

theorem Episode.Books.nSteps (h : Episode.Books policy env p) : p.1.env.nSteps = env.nSteps :=
  congrArg List.length h.forwardReturns

theorem Episode.Books.running_lt (h : Episode.Books policy env p) (hdone : p.1.done = false) :
    p.1.env.t < env.nSteps := by
  obtain ⟨hlt, -⟩ := List.getElem?_eq_some_iff.mp (h.running hdone)
  rwa [env.aligned] at hlt

/-- A step with one of the three actions over a bar that is left. -/
theorem BarTradingEnv.step_valid {env : BarTradingEnv ℚ O} {a : Int} (ha : a ∈ validActions)
    {r : ℚ} (hr : env.forwardReturns[env.t]? = some r) :
    ∃ out, env.step a = .ok out ∧
      out.info.pnl = a * r - env.txnCost * |(a : ℚ) - env.position| ∧
      out.reward = out.info.pnl - env.riskAversion * (a * r) ^ 2 ∧
      out.env = { env with
        position := a
        lastPnl := out.info.pnl
        cumPnl := env.cumPnl + out.info.pnl
        cumReward := env.cumReward + out.reward
        t := env.t + 1 } := by
  obtain ⟨hlt, hget⟩ := List.getElem?_eq_some_iff.mp hr
  unfold step
  rw [if_neg (not_not.mpr ha), dif_pos (show env.t < env.nSteps from hlt)]
  refine ⟨_, rfl, ?_, ?_, rfl⟩
  · subst hget
    rfl
  · subst hget
    simp only [BarTradingEnv.info, PriceArith.lit, List.get_eq_getElem]
    ring

/-- What the environment answers to the next action of the policy. -/
theorem Episode.Books.stepped (h : Episode.Books policy env p) (hdone : p.1.done = false) {a : Int}
    (ha : a ∈ validActions) :
    ∃ r out, env.forwardReturns[p.1.actions.length]? = some r ∧ p.1.env.step a = .ok out ∧
      out.info.pnl = a * r - env.txnCost * |(a : ℚ) - p.1.actions.getLastD 0| ∧
      out.reward = out.info.pnl - env.riskAversion * (a * r) ^ 2 ∧
      out.env = { p.1.env with
        position := a
        lastPnl := out.info.pnl
        cumPnl := p.1.env.cumPnl + out.info.pnl
        cumReward := p.1.env.cumReward + out.reward
        t := p.1.env.t + 1 } ∧
      env.observations[min (p.1.env.t + 1) (env.nSteps - 1)]? = some out.obs ∧
      (out.terminated || out.truncated) = decide (env.nSteps ≤ p.1.env.t + 1) := by
  obtain ⟨r, hr⟩ : ∃ r, env.forwardReturns[p.1.env.t]? = some r :=
    ⟨_, List.getElem?_eq_getElem (h.running_lt hdone)⟩
  obtain ⟨out, hstep, hpnl, hreward, henv⟩ :=
    BarTradingEnv.step_valid ha (h.forwardReturns ▸ hr)
  obtain ⟨-, -, -, -, -, hnext, hterminated, htruncated⟩ := BarTradingEnv.step_ok hstep
  rw [h.nSteps] at hnext hterminated
  rw [h.observations] at hnext
  rw [h.txnCost, h.position] at hpnl
  rw [h.riskAversion] at hreward
  rw [← h.length_actions] at hr
  exact ⟨r, out, hr, hstep, hpnl, hreward, henv, hnext, by simp [hterminated, htruncated]⟩

/-- One turn keeps the books. -/
theorem Episode.Books.body (hpolicy : ∀ seen, policy seen ∈ validActions)
    (h : Episode.Books policy env p) (hcontinues : p.1.continues = true) :
    ∃ q, Episode.bodySeeing policy p = some q ∧ Episode.Books policy env q ∧
      env.nSteps - q.1.env.t < env.nSteps - p.1.env.t := by
  have hdone : p.1.done = false := by simpa [Episode.continues, h.unraised] using hcontinues
  have hlt := h.running_lt hdone
  have hseen : p.2 ++ [p.1.obs] = env.observations.take (p.1.env.t + 1) := by
    rw [h.seen, List.take_add_one, h.running hdone]
    rfl
  obtain ⟨r, out, hr, hstep, hpnl, hreward, henv, hnext, hends⟩ :=
    h.stepped hdone (hpolicy (env.observations.take (p.1.env.t + 1)))
  unfold Episode.bodySeeing Episode.body
  simp only [hseen, hstep, Option.map_some]
  generalize ha : policy (env.observations.take (p.1.env.t + 1)) = a at hpnl hreward henv hstep ⊢
  refine ⟨_, rfl, ?_, ?_⟩
  · constructor
    case observations => rw [henv]; exact h.observations
    case forwardReturns => rw [henv]; exact h.forwardReturns
    case txnCost => rw [henv]; exact h.txnCost
    case riskAversion => rw [henv]; exact h.riskAversion
    case seen => rw [henv]
    case answers =>
      show p.1.actions ++ [a] = _
      rw [henv, List.range_succ, List.map_append, ← h.answers, List.map_singleton, ha]
    case position =>
      show out.env.position = (p.1.actions ++ [a]).getLastD 0
      rw [henv, List.getLastD_concat]
    case prev =>
      show a = (p.1.actions ++ [a]).getLastD 0
      rw [List.getLastD_concat]
    case pnls =>
      show p.1.pnls ++ [out.info.pnl] = stepPnls _ (p.1.actions ++ [a]) _
      rw [stepPnls_concat _ hr, h.pnls, hpnl]
    case cumReward =>
      show p.1.cumReward + out.reward = (p.1.pnls ++ [out.info.pnl]).sum -
        env.riskAversion * ((gross (p.1.actions ++ [a]) env.forwardReturns).map (· ^ 2)).sum
      rw [penalized_concat _ _ _ hr, ← h.cumReward, hreward]
    case trades =>
      show (if a ≠ p.1.prev then p.1.trades + 1 else p.1.trades) = tradeCount (p.1.actions ++ [a])
      rw [tradeCount_concat, ← h.trades, h.prev]
    case envPnl =>
      show out.env.cumPnl = (p.1.pnls ++ [out.info.pnl]).sum
      rw [henv, List.sum_append, List.sum_singleton, ← h.envPnl]
    case envReward =>
      show out.env.cumReward = p.1.cumReward + out.reward
      rw [henv, ← h.envReward]
    case within =>
      rw [henv]
      exact hlt
    case running =>
      intro hnotDone
      rw [hends, decide_eq_false_iff_not] at hnotDone
      rw [Nat.min_eq_left (by omega)] at hnext
      rw [henv]
      exact hnext
    case ended =>
      intro hdone
      rw [hends, decide_eq_true_eq] at hdone
      rw [henv]
      show p.1.env.t + 1 = env.nSteps
      omega
    case unraised => rfl
  · rw [henv]
    show env.nSteps - (p.1.env.t + 1) < env.nSteps - p.1.env.t
    omega

/-- Every episode of a policy that keeps to the three actions ends after the last step, with its
books in order. -/
theorem runEpisodeSeeing_books (fn : NumpyFns ℚ) (env : BarTradingEnv ℚ O)
    (hpolicy : ∀ seen, policy seen ∈ validActions) (hn : 0 < env.nSteps) :
    ∃ p : Episode ℚ O × List O,
      runEpisodeSeeing fn env policy = some ⟨p.1.actions, .ok (p.1.stats fn)⟩ ∧
      Episode.Books policy env p ∧ p.1.env.t = env.nSteps := by
  have hlen : 0 < env.observations.length := by
    rw [env.aligned]
    exact hn
  have hfirst : env.observations[0]? = some env.observations[0] := List.getElem?_eq_getElem hlen
  unfold runEpisodeSeeing BarTradingEnv.reset
  simp only [hfirst]
  have hstart : Episode.Books policy env
      (⟨{ env with t := 0, position := 0, cumReward := lit 0, cumPnl := lit 0, lastPnl := lit 0 },
        env.observations[0], lit 0, 0, 0, false, [], [], none⟩, []) := by
    constructor <;> simp [stepPnls, gross, tradeCount, changes, PriceArith.lit]
  obtain ⟨p, hloop, hbooks, hexit⟩ :=
    whileLoop_total (fun _ hp hc => hp.body hpolicy hc) hstart (Nat.sub_le _ _)
  have hdone : p.1.done = true := by simpa [Episode.continues, hbooks.unraised] using hexit
  refine ⟨p, (congrArg (Option.map _) hloop).trans ?_, hbooks, hbooks.ended hdone⟩
  rw [Option.map_some, hbooks.unraised]

end Run

/-- The policy's episode in an environment of these arrays, cost and risk aversion takes these
actions and returns these figures. -/
def Earns (fn : NumpyFns ℚ) (obs : List O) (returns : List ℚ) (policy : List O → Int) (k c : ℚ)
    (actions : List Int) (stats : EpisodeStats ℚ) : Prop :=
  ∃ env, BarTradingEnv.make obs returns c k = .ok env ∧
    runEpisodeSeeing fn env policy = some ⟨actions, .ok stats⟩

theorem Earns.unique {fn : NumpyFns ℚ} {obs : List O} {returns : List ℚ}
    {policy : List O → Int} {k c : ℚ} {actions actions' : List Int} {stats stats' : EpisodeStats ℚ}
    (h : Earns fn obs returns policy k c actions stats)
    (h' : Earns fn obs returns policy k c actions' stats') :
    actions = actions' ∧ stats = stats' := by
  obtain ⟨env, hmake, hrun⟩ := h
  obtain ⟨env', hmake', hrun'⟩ := h'
  obtain rfl := Except.ok.inj (hmake.symm.trans hmake')
  have heq := Option.some.inj (hrun.symm.trans hrun')
  simpa using heq

theorem exists_earns (fn : NumpyFns ℚ) (hsum : fn.sum = List.sum) {obs : List O}
    {returns : List ℚ} (hlen : obs.length = returns.length) (hne : returns ≠ [])
    {policy : List O → Int} (hpolicy : ∀ seen, policy seen ∈ validActions) (k c : ℚ) :
    let actions := (List.range returns.length).map fun t => policy (obs.take (t + 1))
    ∃ stats, Earns fn obs returns policy k c actions stats ∧
      stats.cumPnl = (gross actions returns).sum - c * tradedUnits actions ∧
      stats.cumReward = stats.cumPnl - k * ((gross actions returns).map (· ^ 2)).sum ∧
      stats.trades = tradeCount actions := by
  intro actions
  have hmake : BarTradingEnv.make obs returns c k =
      .ok ⟨obs, returns, c, k, 0, 0, lit 0, lit 0, lit 0, hlen⟩ := dif_pos hlen
  obtain ⟨p, hrun, hbooks, hend⟩ := runEpisodeSeeing_books fn
    ⟨obs, returns, c, k, 0, 0, lit 0, lit 0, lit 0, hlen⟩ hpolicy (List.length_pos_iff.mpr hne)
  have hactions : p.1.actions = actions := by
    rw [hbooks.answers, hend]
    rfl
  have hall : actions.length ≤ returns.length := by simp [actions]
  have hpnl : (p.1.stats fn).cumPnl = (gross actions returns).sum - c * tradedUnits actions := by
    rw [← sum_stepPnls c hall, ← hactions, ← hbooks.pnls]
    exact congrFun hsum _
  refine ⟨p.1.stats fn, ⟨_, hmake, hactions ▸ hrun⟩, hpnl, ?_, ?_⟩
  · have hsame : (p.1.stats fn).cumPnl = p.1.pnls.sum := congrFun hsum _
    rw [hsame, ← hactions]
    exact hbooks.cumReward
  · rw [← hactions]
    exact hbooks.trades

/-- Episode accounting and the cost sweep. The episode takes one action for each return, the
policy's answer to the observations so far; its profit is what the positions earn less the cost of
the units traded, the reward lacks the risk penalty, and only trades that change the position count.
A higher cost changes no action and takes its difference for each unit. -/
theorem episode_accounting (fn : NumpyFns ℚ) (hsum : fn.sum = List.sum) {obs : List O}
    {returns : List ℚ} (hlen : obs.length = returns.length) (hne : returns ≠ [])
    {policy : List O → Int} (hpolicy : ∀ seen, policy seen ∈ validActions) (k : ℚ) :
    ∃ actions : List Int, actions.length = returns.length ∧
      (∀ t < returns.length, actions[t]? = some (policy (obs.take (t + 1)))) ∧
      (∀ c, ∃ stats, Earns fn obs returns policy k c actions stats ∧
        stats.cumPnl = (gross actions returns).sum - c * tradedUnits actions ∧
        stats.cumReward = stats.cumPnl - k * ((gross actions returns).map (· ^ 2)).sum ∧
        stats.trades = tradeCount actions) ∧
      ∀ c₁ c₂ actions₁ actions₂ stats₁ stats₂, c₁ ≤ c₂ →
        Earns fn obs returns policy k c₁ actions₁ stats₁ →
        Earns fn obs returns policy k c₂ actions₂ stats₂ →
        actions₁ = actions₂ ∧
          stats₂.cumPnl = stats₁.cumPnl - (c₂ - c₁) * tradedUnits actions₁ := by
  refine ⟨(List.range returns.length).map fun t => policy (obs.take (t + 1)), by simp, ?_, ?_, ?_⟩
  · intro t ht
    simp [ht]
  · exact exists_earns fn hsum hlen hne hpolicy k
  · intro c₁ c₂ actions₁ actions₂ stats₁ stats₂ _ h₁ h₂
    obtain ⟨s₁, hearns₁, hpnl₁, -⟩ := exists_earns fn hsum hlen hne hpolicy k c₁
    obtain ⟨s₂, hearns₂, hpnl₂, -⟩ := exists_earns fn hsum hlen hne hpolicy k c₂
    obtain ⟨rfl, rfl⟩ := h₁.unique hearns₁
    obtain ⟨rfl, rfl⟩ := h₂.unique hearns₂
    refine ⟨rfl, ?_⟩
    rw [hpnl₁, hpnl₂]
    ring

/-- A policy that is long first and short for the rest. -/
theorem episode_accounting_reversal :
    ∃ actions stats, Earns rationalFns ['a', 'b'] [1 / 10, -1 / 5]
        (fun seen => if seen.length = 1 then 1 else -1) 2 (1 / 100) actions stats ∧
      stats.cumPnl =
        (gross actions [1 / 10, -1 / 5]).sum - 1 / 100 * tradedUnits actions := by
  have hpolicy : ∀ seen : List Char,
      (if seen.length = 1 then 1 else -1) ∈ validActions := by
    intro seen
    split <;> decide
  obtain ⟨actions, -, -, hcosts, -⟩ := episode_accounting rationalFns rfl
    (show ['a', 'b'].length = [1 / 10, -1 / 5].length from rfl) (by simp) hpolicy 2
  obtain ⟨stats, hearns, hpnl, -⟩ := hcosts (1 / 100)
  exact ⟨actions, stats, hearns, hpnl⟩

end Ml

end OhlcvValidator
