import OhlcvValidator.TradingEnv

namespace OhlcvValidator

namespace Ml

open Replay (DoubleBits BarBody)
open Replay.Py (ReplayData Row)
open PriceArith (lit)

variable {F : Type} [PriceArith F] (fn : NumpyFns F) (ofBits : DoubleBits → F)

theorem map_features_featureRows (sym : Symbol) (window : Int) (sub : List (Row BarBody)) :
    (featureRows fn ofBits sym window sub).map FrameRow.features =
      featuresForSymbol fn ofBits (sub.map Row.body) window := by
  apply List.ext_getElem
  · simp [featureRows]
  · intro i hi hi'
    simp [featureRows]

/-- On bars of a single symbol the frame is that symbol's feature matrix. -/
theorem extractFeatures_single {data : ReplayData} {window : Int} {frame : List (FrameRow F)}
    {sym : Symbol} (hsym : ∀ b ∈ data.bars, b.body.symbol = sym)
    (h : extractFeatures fn ofBits data window = .ok frame) :
    frame.map FrameRow.features =
      featuresForSymbol fn ofBits ((timeSorted data.bars).map Row.body) window := by
  have hown : barsOf data.bars sym = data.bars :=
    List.filter_eq_self.mpr fun b hb => by simpa using hsym b hb
  have hrow : ∀ row ∈ frame, row.symbol = sym := by
    intro row hrow
    have hmem : row ∈ frame.filter fun r => r.symbol = row.symbol := by simp [hrow]
    rw [extractFeatures_symbol fn ofBits h] at hmem
    by_contra hne
    have hnil : barsOf data.bars row.symbol = [] :=
      List.filter_eq_nil_iff.mpr fun b hb => by simpa [hsym b hb] using Ne.symm hne
    rw [hnil] at hmem
    cases hmem
  have hall : frame.filter (fun r => r.symbol = sym) = frame :=
    List.filter_eq_self.mpr fun r hr => by simpa using hrow r hr
  rw [← hall, extractFeatures_symbol fn ofBits h, hown, map_features_featureRows]

theorem fromReplay_ok {data : ReplayData} {sym : Symbol} {txnCost riskAversion : F}
    {env : BarTradingEnv F (FeatureRow F)}
    (h : fromReplay fn ofBits data (some sym) txnCost riskAversion = .ok env) :
    env.observations = (featuresForSymbol fn ofBits
        ((timeSorted (barsOf data.bars sym)).map Row.body) defaultWindow).dropLast ∧
      env.forwardReturns =
        simpleReturns ((timeSorted (barsOf data.bars sym)).map fun b => ofBits b.body.close) := by
  unfold fromReplay at h
  split at h
  next => cases h
  next =>
    split at h
    next => cases h
    next syms hsyms =>
      simp only [Option.getD_some] at h
      split at h
      next => cases h
      next =>
        split at h
        next => cases h
        next frame hframe =>
          have hsym : ∀ b ∈ timeSorted (barsOf data.bars sym), b.body.symbol = sym := by
            intro b hb
            simpa using (List.mem_filter.mp (mem_timeSorted.mp hb)).2
          have hfeatures := extractFeatures_single fn ofBits hsym hframe
          simp only [timeSorted_timeSorted] at hfeatures
          unfold BarTradingEnv.make at h
          split at h
          next =>
            obtain rfl := Except.ok.inj h
            exact ⟨congrArg List.dropLast hfeatures, rfl⟩
          next => cases h

theorem length_simpleReturns (close : List F) :
    (simpleReturns close).length = close.length - 1 := by
  simp [simpleReturns]

/-- The environment exists for every symbol with two bars; its rows always align. -/
theorem fromReplay_isOk_iff (data : ReplayData) (sym : Symbol) (txnCost riskAversion : F) :
    (∃ env, fromReplay fn ofBits data (some sym) txnCost riskAversion = .ok env) ↔
      (∀ b ∈ data.bars, Ascii b.body.symbol) ∧ 2 ≤ (barsOf data.bars sym).length := by
  constructor
  · rintro ⟨env, h⟩
    unfold fromReplay at h
    split at h
    next => cases h
    next =>
      split at h
      next => cases h
      next syms hsyms =>
        simp only [Option.getD_some] at h
        split at h
        next => cases h
        next htwo => exact ⟨(symbols_eq_ok_iff.mp hsyms).1, by omega⟩
  · rintro ⟨hascii, htwo⟩
    have hne : data.bars.isEmpty = false := by
      cases hbars : data.bars with
      | nil => simp [hbars, barsOf] at htwo
      | cons b bars => rfl
    have hsub : ∀ b ∈ timeSorted (barsOf data.bars sym), Ascii b.body.symbol ∧ b.body.symbol = sym := by
      intro b hb
      obtain ⟨hmem, heq⟩ := List.mem_filter.mp (mem_timeSorted.mp hb)
      exact ⟨hascii b hmem, by simpa using heq⟩
    obtain ⟨frame, hframe⟩ := (extractFeatures_isOk_iff fn ofBits
      ⟨[], timeSorted (barsOf data.bars sym), [], (timeSorted (barsOf data.bars sym)).length⟩
      defaultWindow).mpr fun b hb => (hsub b hb).1
    have hfeatures := congrArg List.length
      (extractFeatures_single fn ofBits (fun b hb => (hsub b hb).2) hframe)
    simp only [List.length_map, length_featuresForSymbol, length_timeSorted] at hfeatures
    have hlt : ¬ (barsOf data.bars sym).length < 2 := by omega
    unfold fromReplay
    simp only [hne, symbols_eq_ok_iff.mpr ⟨hascii, rfl⟩, Option.getD_some, hlt, hframe,
      Bool.false_eq_true, if_false]
    unfold BarTradingEnv.make
    rw [dif_pos (by simp [hfeatures, length_simpleReturns])]
    exact ⟨_, rfl⟩

theorem simpleReturns_getElem? {close : List F} {t : Nat} {cur next : F}
    (hcur : close[t]? = some cur) (hnext : close[t + 1]? = some next) :
    (simpleReturns close)[t]? = some (next / cur - lit 1) := by
  have hlt := (List.getElem?_eq_some_iff.mp hnext).1
  have hdrop : close.dropLast[t]? = some cur := by
    rw [List.dropLast_eq_take, List.getElem?_take, if_pos (by omega), hcur]
  rw [simpleReturns, List.getElem?_zipWith, List.getElem?_tail, hnext, hdrop]

section TwoRuns

variable {bars₁ bars₂ : List (Row BarBody)} {T : UInt64}

/-- The sorted bars of two sources with the same past begin alike. -/
theorem timeSorted_take_eq (hpast : past T bars₁ = past T bars₂) {k : Nat}
    (hk : k ≤ (past T bars₁).length) :
    (timeSorted bars₁).take k = (timeSorted bars₂).take k := by
  have htake : (timeSorted bars₁).take (past T bars₁).length =
      (timeSorted bars₂).take (past T bars₁).length := by
    rw [← past_timeSorted_eq_take, past_timeSorted, hpast, ← past_timeSorted,
      past_timeSorted_eq_take]
  have hprefix := congrArg (List.take k) htake
  rwa [List.take_take, List.take_take, Nat.min_eq_left hk] at hprefix

/-- The observations up to a bar of the common past that has a successor. -/
theorem observations_take_eq (hpast : past T bars₁ = past T bars₂) {k : Nat}
    (hk : k ≤ (past T bars₁).length) (h₁ : k < bars₁.length) (h₂ : k < bars₂.length) :
    (featuresForSymbol fn ofBits ((timeSorted bars₁).map Row.body) defaultWindow).dropLast.take k =
      (featuresForSymbol fn ofBits
        ((timeSorted bars₂).map Row.body) defaultWindow).dropLast.take k := by
  have hfeatures := ((causal_featuresForSymbol fn ofBits defaultWindow).comp
    (causal_map Row.body)).congr (timeSorted_take_eq hpast hk)
  rw [List.dropLast_eq_take, List.dropLast_eq_take, List.take_take, List.take_take,
    Nat.min_eq_left, Nat.min_eq_left]
  · exact hfeatures
  · simp only [length_featuresForSymbol, List.length_map, length_timeSorted]
    omega
  · simp only [length_featuresForSymbol, List.length_map, length_timeSorted]
    omega

end TwoRuns

/-- Nothing of a later bar reaches the features or the actions at a time, for any
replay data with the same bars of the symbol up to then; the forward return is that of
the symbol's next bar in time. -/
theorem no_lookahead {d₁ d₂ : ReplayData} {sym : Symbol} {T : UInt64}
    (hpast : past T (barsOf d₁.bars sym) = past T (barsOf d₂.bars sym)) (window : Int)
    (txnCost riskAversion : F) (policy : FeatureRow F → Int) :
    (∀ f₁ f₂, extractFeatures fn ofBits d₁ window = .ok f₁ →
      extractFeatures fn ofBits d₂ window = .ok f₂ →
      (f₁.filter fun row => row.symbol = sym ∧ row.startNs ≤ T) =
        f₂.filter fun row => row.symbol = sym ∧ row.startNs ≤ T) ∧
    (∀ e₁ e₂, fromReplay fn ofBits d₁ (some sym) txnCost riskAversion = .ok e₁ →
      fromReplay fn ofBits d₂ (some sym) txnCost riskAversion = .ok e₂ →
      ∃ r₁ r₂, runEpisode fn e₁ policy = some r₁ ∧ runEpisode fn e₂ policy = some r₂ ∧
        ∀ t b, (timeSorted (barsOf d₁.bars sym))[t]? = some b → b.body.startNs ≤ T →
          t + 1 < (barsOf d₁.bars sym).length → t + 1 < (barsOf d₂.bars sym).length →
          r₁.actions[t]? = r₂.actions[t]?) ∧
    ∀ d e, fromReplay fn ofBits d (some sym) txnCost riskAversion = .ok e →
      e.forwardReturns.length = (barsOf d.bars sym).length - 1 ∧
      ∀ t cur next, (timeSorted (barsOf d.bars sym))[t]? = some cur →
        (timeSorted (barsOf d.bars sym))[t + 1]? = some next →
        e.forwardReturns[t]? = some (ofBits next.body.close / ofBits cur.body.close - lit 1) := by
  refine ⟨?_, ?_, ?_⟩
  · intro f₁ f₂ hf₁ hf₂
    have hrows : ∀ {d : ReplayData} {f : List (FrameRow F)},
        extractFeatures fn ofBits d window = .ok f →
        (f.filter fun row => row.symbol = sym ∧ row.startNs ≤ T) =
          featureRows fn ofBits sym window (timeSorted (past T (barsOf d.bars sym))) := by
      intro d f hf
      rw [← featureRows_past, ← extractFeatures_symbol fn ofBits hf, List.filter_filter]
      simp only [Bool.decide_and, Bool.and_comm]
    rw [hrows hf₁, hrows hf₂, hpast]
  · intro e₁ e₂ he₁ he₂
    obtain ⟨r₁, hr₁, ha₁⟩ := runEpisode_actions fn e₁ policy
    obtain ⟨r₂, hr₂, ha₂⟩ := runEpisode_actions fn e₂ policy
    refine ⟨r₁, r₂, hr₁, hr₂, ?_⟩
    intro t b hb hT h₁ h₂
    have hobservations : e₁.observations.take (t + 1) = e₂.observations.take (t + 1) := by
      rw [(fromReplay_ok fn ofBits he₁).1, (fromReplay_ok fn ofBits he₂).1]
      exact observations_take_eq fn ofBits hpast (lt_length_past hb hT) h₁ h₂
    have hactions := ((causal_takeWhile (fun a : Int => decide (a ∈ validActions))).comp
      (causal_map policy)).congr hobservations
    rw [← ha₁, ← ha₂] at hactions
    have hentry := congrArg (fun l : List Int => l[t]?) hactions
    simpa only [List.getElem?_take, Nat.lt_succ_self, if_true] using hentry
  · intro d e he
    rw [(fromReplay_ok fn ofBits he).2]
    refine ⟨by simp [length_simpleReturns], ?_⟩
    intro t cur next hcur hnext
    apply simpleReturns_getElem?
    · rw [List.getElem?_map, hcur]
      rfl
    · rw [List.getElem?_map, hnext]
      rfl

def minuteBar (sym : Symbol) (minute close : UInt64) : Row BarBody where
  type := Replay.Py.typeBar
  body :=
    { symbol := sym
      startNs := minute * 60000000000
      seq := 0
      openPrice := close
      high := close
      low := close
      close := close
      vwap := close
      volume := 1
      tradeCount := 1 }

def sampleTicker : Symbol := #v[65, 0, 0, 0, 0, 0, 0, 0]

/-- Up at the second bar, then down; the bars are out of order in the file. -/
def risenThenFallen : ReplayData :=
  ⟨[], [minuteBar sampleTicker 1 100, minuteBar sampleTicker 3 50, minuteBar sampleTicker 2 110], [], 3⟩

/-- The same up to the second bar, then up, with another symbol's bar between. -/
def risenTwice : ReplayData :=
  ⟨[], [minuteBar sampleTicker 1 100, minuteBar (Vector.replicate kSymbolLen 66) 1 7,
    minuteBar sampleTicker 2 110, minuteBar sampleTicker 3 200, minuteBar sampleTicker 4 300], [], 5⟩

/-- Both take the same action at the second bar, whatever follows it. -/
theorem no_lookahead_risen :
    ∃ e₁ e₂ r₁ r₂,
      fromReplay rationalFns (fun w => (w.toNat : ℚ)) risenThenFallen (some sampleTicker)
        BarTradingEnv.defaultTxnCost BarTradingEnv.defaultRiskAversion = .ok e₁ ∧
      fromReplay rationalFns (fun w => (w.toNat : ℚ)) risenTwice (some sampleTicker)
        BarTradingEnv.defaultTxnCost BarTradingEnv.defaultRiskAversion = .ok e₂ ∧
      runEpisode rationalFns e₁ (fun obs => if 0 < obs.logReturn then 1 else 0) = some r₁ ∧
      runEpisode rationalFns e₂ (fun obs => if 0 < obs.logReturn then 1 else 0) = some r₂ ∧
      r₁.actions[1]? = r₂.actions[1]? := by
  obtain ⟨e₁, he₁⟩ := (fromReplay_isOk_iff rationalFns (fun w => (w.toNat : ℚ)) risenThenFallen
    sampleTicker BarTradingEnv.defaultTxnCost BarTradingEnv.defaultRiskAversion).mpr
    ⟨by unfold Ascii; decide +kernel, by decide +kernel⟩
  obtain ⟨e₂, he₂⟩ := (fromReplay_isOk_iff rationalFns (fun w => (w.toNat : ℚ)) risenTwice
    sampleTicker BarTradingEnv.defaultTxnCost BarTradingEnv.defaultRiskAversion).mpr
    ⟨by unfold Ascii; decide +kernel, by decide +kernel⟩
  have hpast : past 120000000000 (barsOf risenThenFallen.bars sampleTicker) =
      past 120000000000 (barsOf risenTwice.bars sampleTicker) := by decide +kernel
  obtain ⟨r₁, r₂, hr₁, hr₂, hactions⟩ :=
    (no_lookahead rationalFns (fun w => (w.toNat : ℚ)) hpast defaultWindow
      BarTradingEnv.defaultTxnCost BarTradingEnv.defaultRiskAversion
      (fun obs => if 0 < obs.logReturn then 1 else 0)).2.1 e₁ e₂ he₁ he₂
  exact ⟨e₁, e₂, r₁, r₂, he₁, he₂, hr₁, hr₂, hactions 1 (minuteBar sampleTicker 2 110)
    (by decide +kernel) (by decide +kernel) (by decide +kernel) (by decide +kernel)⟩

end Ml

end OhlcvValidator
