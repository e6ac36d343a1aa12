import OhlcvValidator.BoundedLoop
import OhlcvValidator.TradingFeatures

namespace OhlcvValidator

namespace Ml

open Replay (DoubleBits BarBody)
open Replay.Py (ReplayData Row)
open PriceArith (lit lt)

/-- What the environment raises, with the values its texts show. -/
inductive EnvError
  | decode (e : DecodeError)
  | noBars
  | tooFewBars (symbol : Symbol)
  | misaligned (observations forwardReturns : Nat)
  | badAction (action : Int)
  | finished
  | noObservation
  deriving DecidableEq, Repr

/-- The decoded ticker, without the zeros it is filled with. -/
def ticker (symbol : Symbol) : List Char :=
  (symbol.toList.reverse.dropWhile fun c => c = 0).reverse.map fun c => Char.ofNat c.toNat

/-- A character of an ASCII text as `repr` shows it; 92 is the backslash. -/
def reprChar (quote c : Char) : List Char :=
  let backslash := Char.ofNat 92
  if c = backslash || c = quote then [backslash, c]
  else if c.toNat = 9 then [backslash, 't']
  else if c.toNat = 10 then [backslash, 'n']
  else if c.toNat = 13 then [backslash, 'r']
  else if c.toNat < 32 || c.toNat = 127 then
    let digits := Nat.toDigits 16 c.toNat
    [backslash, 'x'] ++ List.replicate (2 - digits.length) '0' ++ digits
  else [c]

/-- The quoted text: in double quotes (34) if it has a single one (39) and no double one. -/
def asciiRepr (text : List Char) : String :=
  let single := Char.ofNat 39
  let double := Char.ofNat 34
  let quote := if text.contains single && !text.contains double then double else single
  String.ofList ([quote] ++ text.flatMap (reprChar quote) ++ [quote])

def EnvError.message : EnvError → String
  | .decode e => e.message
  | .noBars => "no bars in replay data"
  | .tooFewBars symbol =>
    "symbol " ++ asciiRepr (ticker symbol) ++ " has < 2 bars; can't form a forward return"
  | .misaligned observations forwardReturns =>
    "observations (" ++ toString observations ++ ") and forward_returns (" ++
      toString forwardReturns ++ ") must align row-for-row"
  | .badAction action => "action " ++ toString action ++ " not in (-1, 0, 1)"
  | .finished => "step() called on a finished episode; call reset()"
  | .noObservation => "index 0 is out of bounds for axis 0 with size 0"

/-- Short, flat, long. -/
def validActions : List Int := [-1, 0, 1]

/-- The environment; there is an observation for every forward return. An observation is only
handed on, so its type stays open. -/
structure BarTradingEnv (F O : Type) where
  observations : List O
  forwardReturns : List F
  txnCost : F
  riskAversion : F
  t : Nat
  position : Int
  cumReward : F
  cumPnl : F
  lastPnl : F
  aligned : observations.length = forwardReturns.length

structure Info (F : Type) where
  t : Nat
  position : Int
  cumReward : F
  cumPnl : F
  pnl : F
  deriving DecidableEq, Repr

/-- What `step` returns, with the environment it leaves. -/
structure Transition (F O : Type) where
  env : BarTradingEnv F O
  obs : O
  reward : F
  terminated : Bool
  truncated : Bool
  info : Info F

variable {F O : Type} [PriceArith F]

namespace BarTradingEnv

def defaultTxnCost : F := lit (1 / 10000)

def defaultRiskAversion : F := lit 0

def make (observations : List O) (forwardReturns : List F) (txnCost riskAversion : F) :
    Except EnvError (BarTradingEnv F O) :=
  if h : observations.length = forwardReturns.length then
    .ok
      { observations, forwardReturns, txnCost, riskAversion
        t := 0
        position := 0
        cumReward := lit 0
        cumPnl := lit 0
        lastPnl := lit 0
        aligned := h }
  else .error (.misaligned observations.length forwardReturns.length)

def nSteps (env : BarTradingEnv F O) : Nat := env.forwardReturns.length

def info (env : BarTradingEnv F O) : Info F :=
  ⟨env.t, env.position, env.cumReward, env.cumPnl, env.lastPnl⟩

/-- Back to the first bar; the first observation, and the environment so left. -/
def reset (env : BarTradingEnv F O) : Except EnvError (BarTradingEnv F O × O × Info F) :=
  let env :=
    { env with t := 0, position := 0, cumReward := lit 0, cumPnl := lit 0, lastPnl := lit 0 }
  match env.observations[0]? with
  | some obs => .ok (env, obs, env.info)
  | none => .error .noObservation

/-- Hold the position over the bar; the next observation, the last one again at
the end. -/
def step (env : BarTradingEnv F O) (action : Int) : Except EnvError (Transition F O) :=
  if action ∉ validActions then .error (.badAction action)
  else if h : env.t < env.nSteps then
    let gross := lit action * env.forwardReturns.get ⟨env.t, h⟩
    let pnl := gross - env.txnCost * lit |action - env.position|
    let reward := pnl - env.riskAversion * gross * gross
    let next : BarTradingEnv F O :=
      { env with
        position := action
        lastPnl := pnl
        cumPnl := env.cumPnl + pnl
        cumReward := env.cumReward + reward
        t := env.t + 1 }
    have hrow : min next.t (next.nSteps - 1) < next.observations.length := by
      have haligned := env.aligned
      simp only [nSteps, next] at h ⊢
      omega
    .ok
      { env := next
        obs := next.observations.get ⟨min next.t (next.nSteps - 1), hrow⟩
        reward
        terminated := next.nSteps ≤ next.t
        truncated := false
        info := next.info }
  else .error .finished

end BarTradingEnv

variable (fn : NumpyFns F) (ofBits : DoubleBits → F)

/-- The first of the most frequent tickers in order. -/
def mostFrequent (syms : List Symbol) : Symbol :=
  ((unique syms).argmax fun sym => syms.count sym).getD (Vector.replicate kSymbolLen 0)

/-- `close[1:] / close[:-1] - 1`. -/
def simpleReturns (close : List F) : List F :=
  List.zipWith (fun next cur => next / cur - lit 1) close.tail close.dropLast

/-- An environment for one symbol, by default the one with the most bars. -/
def fromReplay (data : ReplayData) (symbol : Option Symbol) (txnCost riskAversion : F) :
    Except EnvError (BarTradingEnv F (FeatureRow F)) :=
  if data.bars.isEmpty then .error .noBars
  else
    match symbols data.bars with
    | .error e => .error (.decode e)
    | .ok syms =>
      let symbol := symbol.getD (mostFrequent syms)
      let sub := barsOf data.bars symbol
      if sub.length < 2 then .error (.tooFewBars symbol)
      else
        let sub := timeSorted sub
        let one : ReplayData := ⟨[], sub, [], sub.length⟩
        match extractFeatures fn ofBits one defaultWindow with
        | .error e => .error (.decode e)
        | .ok frame =>
          let close := sub.map fun b => ofBits b.body.close
          let obs := (frame.map FrameRow.features).dropLast
          BarTradingEnv.make obs (simpleReturns close) txnCost riskAversion

/-- The variables of the episode loop. `actions` collects those the environment
took, `raised` is what ended the loop otherwise. -/
structure Episode (F O : Type) where
  env : BarTradingEnv F O
  obs : O
  cumReward : F
  trades : Nat
  prev : Int
  done : Bool
  pnls : List F
  actions : List Int
  raised : Option EnvError

def Episode.continues (s : Episode F O) : Bool := !s.done && s.raised.isNone

def Episode.body (policy : O → Int) (s : Episode F O) : Option (Episode F O) :=
  let action := policy s.obs
  match s.env.step action with
  | .error e => some { s with raised := some e }
  | .ok out =>
    some
      { env := out.env
        obs := out.obs
        cumReward := s.cumReward + out.reward
        trades := if action ≠ s.prev then s.trades + 1 else s.trades
        prev := action
        done := out.terminated || out.truncated
        pnls := s.pnls ++ [out.info.pnl]
        actions := s.actions ++ [action]
        raised := none }

structure EpisodeStats (F : Type) where
  cumReward : F
  cumPnl : F
  trades : Nat
  sharpe : F
  maxDrawdown : F
  deriving DecidableEq, Repr

/-- `ufunc.accumulate`. -/
def accumulate (op : F → F → F) : List F → List F
  | [] => []
  | x :: xs => xs.scanl op x

def maxDrawdown (equity : List F) : F :=
  match List.zipWith (fun peak e => peak - e) (accumulate fn.maximum equity) equity with
  | [] => lit 0
  | x :: xs => xs.foldl fn.maximum x

def Episode.stats (s : Episode F O) : EpisodeStats F :=
  let p := s.pnls
  { cumReward := s.cumReward
    cumPnl := fn.sum p
    trades := s.trades
    sharpe := if 1 < p.length && lt (lit 0) (std fn p) then mean fn p / std fn p else lit 0
    maxDrawdown := maxDrawdown fn (accumulate (· + ·) p) }

/-- What an episode did: the actions it took and what it returned or raised. -/
structure EpisodeRun (F : Type) where
  actions : List Int
  outcome : Except EnvError (EpisodeStats F)

/-- One episode; `none` only if the loop outran one body execution per step. -/
def runEpisode (env : BarTradingEnv F O) (policy : O → Int) : Option (EpisodeRun F) :=
  match env.reset with
  | .error e => some ⟨[], .error e⟩
  | .ok (env, obs, _) =>
    (whileLoop Episode.continues (Episode.body policy) env.nSteps
      ⟨env, obs, lit 0, 0, 0, false, [], [], none⟩).map fun s =>
        match s.raised with
        | some e => ⟨s.actions, .error e⟩
        | none => ⟨s.actions, .ok (s.stats fn)⟩

/-! The episode. -/

namespace BarTradingEnv

theorem step_ok {env : BarTradingEnv F O} {action : Int} {out : Transition F O}
    (h : env.step action = .ok out) :
    action ∈ validActions ∧ env.t < env.nSteps ∧ out.env.observations = env.observations ∧
      out.env.forwardReturns = env.forwardReturns ∧ out.env.t = env.t + 1 ∧
      env.observations[min (env.t + 1) (env.nSteps - 1)]? = some out.obs ∧
      out.terminated = decide (env.nSteps ≤ env.t + 1) ∧ out.truncated = false := by
  unfold step at h
  split at h
  next => cases h
  next hvalid =>
    split at h
    next hlt =>
      obtain rfl := Except.ok.inj h
      exact ⟨by simpa using hvalid, hlt, rfl, rfl, rfl, by simp [nSteps], rfl, rfl⟩
    next => cases h

theorem step_error {env : BarTradingEnv F O} {action : Int} {e : EnvError}
    (h : env.step action = .error e) : action ∉ validActions ∨ env.nSteps ≤ env.t := by
  unfold step at h
  split at h
  next hvalid => exact .inl hvalid
  next =>
    split at h
    next => cases h
    next hlt => exact .inr (by omega)

end BarTradingEnv

/-- The loop has asked the policy about the observations up to the clock, and
stops at the last one or at an action that the environment refuses. -/
structure Episode.Follows (policy : O → Int) (env : BarTradingEnv F O)
    (s : Episode F O) : Prop where
  observations : s.env.observations = env.observations
  forwardReturns : s.env.forwardReturns = env.forwardReturns
  actions : s.actions = (env.observations.map policy).take s.env.t
  valid : ∀ a ∈ s.actions, a ∈ validActions
  running : s.done = false → env.observations[s.env.t]? = some s.obs
  ended : s.done = true → s.env.t = env.nSteps
  refused : s.raised.isSome → s.done = false ∧ policy s.obs ∉ validActions

variable {policy : O → Int} {env : BarTradingEnv F O} {s : Episode F O}

/-- The steps an episode still has. -/
def Episode.left (s : Episode F O) : Nat :=
  if s.raised.isSome then 0 else s.env.nSteps - s.env.t

omit [PriceArith F] in
theorem Episode.Follows.nSteps (h : s.Follows policy env) : s.env.nSteps = env.nSteps :=
  congrArg List.length h.forwardReturns

omit [PriceArith F] in
theorem Episode.Follows.running_lt (h : s.Follows policy env) (hdone : s.done = false) :
    s.env.t < env.nSteps := by
  obtain ⟨hlt, -⟩ := List.getElem?_eq_some_iff.mp (h.running hdone)
  rwa [env.aligned] at hlt

theorem Episode.Follows.body (h : s.Follows policy env) (hcontinues : s.continues = true) :
    ∃ u, s.body policy = some u ∧ u.Follows policy env ∧ u.left < s.left := by
  obtain ⟨hdone, hraised⟩ : s.done = false ∧ s.raised = none := by
    simpa [Episode.continues] using hcontinues
  have hlt := h.running_lt hdone
  have hleft : s.left = env.nSteps - s.env.t := by simp [Episode.left, hraised, h.nSteps]
  have hobs := h.running hdone
  unfold Episode.body
  cases hstep : s.env.step (policy s.obs) with
  | error e =>
    have hrefused : policy s.obs ∉ validActions := by
      rcases BarTradingEnv.step_error hstep with hnot | hend
      · exact hnot
      · rw [h.nSteps] at hend
        omega
    simp only [hstep]
    refine ⟨_, rfl, ?_, ?_⟩
    · exact ⟨h.observations, h.forwardReturns, h.actions, h.valid, h.running, h.ended,
        fun _ => ⟨hdone, hrefused⟩⟩
    · rw [hleft]
      simp only [Episode.left, Option.isSome_some, if_true]
      omega
  | ok out =>
    obtain ⟨hvalid, -, hobservations, hreturns, ht, hnext, hterminated, htruncated⟩ :=
      BarTradingEnv.step_ok hstep
    have hn := h.nSteps
    rw [hn] at hnext hterminated
    simp only [hstep]
    refine ⟨_, rfl, ⟨?_, ?_, ?_, ?_, ?_, ?_, ?_⟩, ?_⟩
    · exact hobservations.trans h.observations
    · exact hreturns.trans h.forwardReturns
    · have hentry : (env.observations.map policy)[s.env.t]? = some (policy s.obs) := by
        rw [List.getElem?_map, hobs]
        rfl
      change s.actions ++ [policy s.obs] = (env.observations.map policy).take out.env.t
      rw [ht, List.take_add_one, hentry, h.actions]
      rfl
    · intro a ha
      rcases List.mem_append.mp ha with ha | ha
      · exact h.valid a ha
      · rwa [List.mem_singleton.mp ha]
    · intro hnotDone
      simp only [hterminated, htruncated, Bool.or_false, decide_eq_false_iff_not] at hnotDone
      rw [h.observations, Nat.min_eq_left (by omega)] at hnext
      rwa [ht]
    · intro hdone
      simp only [hterminated, htruncated, Bool.or_false, decide_eq_true_eq] at hdone
      change out.env.t = env.nSteps
      omega
    · simp
    · have hsteps : out.env.nSteps = env.nSteps := (congrArg List.length hreturns).trans hn
      rw [hleft]
      simp only [Episode.left, Option.isSome_none, Bool.false_eq_true, if_false, hsteps, ht]
      omega

omit [PriceArith F] in
/-- At the end of the loop the actions are the policy's answers up to the first
that is refused. -/
theorem Episode.Follows.exit (h : s.Follows policy env) (hexit : s.continues = false) :
    s.actions = (env.observations.map policy).takeWhile (· ∈ validActions) := by
  rw [h.actions, eq_comm]
  apply takeWhile_eq_take
  · intro a ha
    rw [← h.actions] at ha
    simpa using h.valid a ha
  · intro a ha
    cases hdone : s.done with
    | true =>
      have hlt := (List.getElem?_eq_some_iff.mp ha).1
      rw [List.length_map, env.aligned, h.ended hdone] at hlt
      exact absurd hlt (lt_irrefl _)
    | false =>
      have hraised : s.raised.isSome := by
        simpa [Episode.continues, hdone, Option.isSome_iff_ne_none] using hexit
      rw [List.getElem?_map, h.running hdone] at ha
      obtain rfl := Option.some.inj ha
      simpa using (h.refused hraised).2

/-- Every episode ends, having taken the policy's answers to the observations up
to the first that is refused. -/
theorem runEpisode_actions (env : BarTradingEnv F O) (policy : O → Int) :
    ∃ run, runEpisode fn env policy = some run ∧
      run.actions = (env.observations.map policy).takeWhile (· ∈ validActions) := by
  unfold runEpisode BarTradingEnv.reset
  cases hfirst : env.observations[0]? with
  | none =>
    have hnil : env.observations = [] := by simpa using hfirst
    exact ⟨_, by simp [hnil]; rfl, by simp [hnil]⟩
  | some obs =>
    simp only [hfirst]
    have hstart : Episode.Follows policy env
        ⟨{ env with t := 0, position := 0, cumReward := lit 0, cumPnl := lit 0, lastPnl := lit 0 },
          obs, lit 0, 0, 0, false, [], [], none⟩ :=
      ⟨rfl, rfl, rfl, by simp, fun _ => hfirst, by simp, by simp⟩
    obtain ⟨s, hloop, hfollows, hexit⟩ :=
      whileLoop_total (fun _ hs hc => hs.body hc) hstart (Nat.sub_le _ _)
    rw [← hfollows.exit hexit]
    cases hraised : s.raised with
    | none => exact ⟨_, by rw [hloop, Option.map_some, hraised], rfl⟩
    | some e => exact ⟨_, by rw [hloop, Option.map_some, hraised], rfl⟩

end Ml

end OhlcvValidator
