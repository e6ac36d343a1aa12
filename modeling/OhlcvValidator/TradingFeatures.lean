import OhlcvValidator.CausalList
import OhlcvValidator.ReplayReader

namespace OhlcvValidator

namespace Ml

open Replay (DoubleBits BarBody)
open Replay.Py (ReplayData Row)
open PriceArith (lit ofUInt64 fabs lt)

/-- What NumPy computes elementwise or over a segment; nothing is assumed of it. -/
structure NumpyFns (F : Type) where
  log : F → F
  log1p : F → F
  sqrt : F → F
  maximum : F → F → F
  median : List F → F
  sum : List F → F

/-- Rational stand-ins for NumPy's functions. -/
def rationalFns : NumpyFns ℚ where
  log x := x - 1
  log1p x := x
  sqrt x := x
  maximum := max
  median xs := xs.headD 0
  sum := List.sum

/-- The byte that the ASCII decoder stops at, with its place in the ticker. -/
structure DecodeError where
  byte : UInt8
  position : Nat
  deriving DecidableEq, Repr

def DecodeError.message (e : DecodeError) : String :=
  let digits := Nat.toDigits 16 e.byte.toNat
  "'ascii' codec can't decode byte 0x" ++
    String.ofList (List.replicate (2 - digits.length) '0' ++ digits) ++ " in position " ++
    toString e.position ++ ": ordinal not in range(128)"

def Ascii (symbol : Symbol) : Prop := ∀ c ∈ symbol.toList, c < 128

/-- The decoded ticker loses its trailing zeros only, so it is kept as its bytes. -/
def decodeAscii (symbol : Symbol) : Except DecodeError Symbol :=
  match symbol.toList.findIdx? fun c => 128 ≤ c with
  | some i => .error ⟨symbol.toList.getD i 0, i⟩
  | none => .ok symbol

def symbols (bars : List (Row BarBody)) : Except DecodeError (List Symbol) :=
  bars.mapM fun b => decodeAscii b.body.symbol

/-- The distinct tickers in order. -/
def unique (syms : List Symbol) : List Symbol :=
  syms.dedup.insertionSort fun a b => a.toList ≤ b.toList

/-- The order that `argsort` by the start time keeps. -/
def StartsBy (a b : Row BarBody) : Prop := a.body.startNs ≤ b.body.startNs

instance : DecidableRel StartsBy := fun a b =>
  inferInstanceAs (Decidable (a.body.startNs ≤ b.body.startNs))

/-- The stable sort by start time. -/
def timeSorted (bars : List (Row BarBody)) : List (Row BarBody) :=
  bars.insertionSort StartsBy

def defaultWindow : Int := 60

def sessionGapNs : Int := 5 * 60 * 1000000000

structure FeatureRow (F : Type) where
  logReturn : F
  hlRange : F
  vwapDev : F
  logVolume : F
  tradeCount : F
  realizedVol : F
  volumeZ : F
  deriving DecidableEq, Repr

/-- One row of a feature frame. -/
structure FrameRow (F : Type) where
  symbol : Symbol
  startNs : UInt64
  features : FeatureRow F
  deriving DecidableEq, Repr

variable {F : Type} [PriceArith F] (fn : NumpyFns F) (ofBits : DoubleBits → F)

def mean (xs : List F) : F :=
  fn.sum xs / lit xs.length

def std (xs : List F) : F :=
  fn.sqrt (fn.sum (xs.map fun x => (x - mean fn xs) * (x - mean fn xs)) / lit xs.length)

/-- The trailing segment `x[lo : i + 1]`. -/
def segment (x : List F) (window : Int) (i : Nat) : List F :=
  let lo := (max 0 ((i : Int) - window + 1)).toNat
  (x.take (i + 1)).drop lo

def rollingStd (x : List F) (window : Int) : List F :=
  (List.range x.length).map fun i =>
    if i = 0 then lit 0
    else
      let seg := segment x window i
      if 1 < seg.length then std fn seg else lit 0

def rollingRobustZ (x : List F) (window : Int) : List F :=
  (List.range x.length).map fun i =>
    let seg := segment x window i
    let med := fn.median seg
    let mad := fn.median (seg.map fun y => fabs (y - med))
    let scale := lit (14826 / 10000) * mad
    if lt (lit 0) scale then (x.getD i (lit 0) - med) / scale else lit 0

/-- Whether the bar comes too long after its predecessor; the difference of the
start times is taken as signed words. -/
def sessionBreak (prev cur : BarBody) : Bool :=
  decide (sessionGapNs < (cur.startNs - prev.startNs).toInt64.toInt)

/-- The return from the previous bar, 0 without one, across a session break, or
where a price is not positive. -/
def logReturns (bars : List BarBody) : List F :=
  (List.range bars.length).map fun i =>
    match i with
    | 0 => lit 0
    | j + 1 =>
      match bars[j]?, bars[j + 1]? with
      | some prev, some cur =>
        let prevClose := ofBits prev.close
        let curClose := ofBits cur.close
        if sessionBreak prev cur then lit 0
        else if lt (lit 0) prevClose && lt (lit 0) curClose then fn.log (curClose / prevClose)
        else lit 0
      | _, _ => lit 0

def hlRange (b : BarBody) : F :=
  let close := ofBits b.close
  if lt (lit 0) close then (ofBits b.high - ofBits b.low) / close else lit 0

def vwapDev (b : BarBody) : F :=
  let vwap := ofBits b.vwap
  if lt (lit 0) vwap then (ofBits b.close - vwap) / vwap else lit 0

def logVolume (b : BarBody) : F :=
  fn.log1p (fn.maximum (ofUInt64 b.volume) (lit 0))

/-- The feature matrix of one symbol's bars, in time order. -/
def featuresForSymbol (bars : List BarBody) (window : Int) : List (FeatureRow F) :=
  let logReturn := logReturns fn ofBits bars
  let volume := bars.map (logVolume fn)
  let realizedVol := rollingStd fn logReturn window
  let volumeZ := rollingRobustZ fn volume window
  (List.range bars.length).map fun i =>
    { logReturn := logReturn.getD i (lit 0)
      hlRange := (bars.map (hlRange ofBits)).getD i (lit 0)
      vwapDev := (bars.map (vwapDev ofBits)).getD i (lit 0)
      logVolume := volume.getD i (lit 0)
      tradeCount := (bars.map fun b => ofUInt64 b.tradeCount).getD i (lit 0)
      realizedVol := realizedVol.getD i (lit 0)
      volumeZ := volumeZ.getD i (lit 0) }

/-- The rows of one symbol's bars in time order. -/
def featureRows (sym : Symbol) (window : Int) (sub : List (Row BarBody)) : List (FrameRow F) :=
  List.zipWith (fun (b : Row BarBody) f => ⟨sym, b.body.startNs, f⟩) sub
    (featuresForSymbol fn ofBits (sub.map Row.body) window)

/-- The bars at which `syms == sym`. -/
def barsOf (bars : List (Row BarBody)) (sym : Symbol) : List (Row BarBody) :=
  bars.filter fun b => b.body.symbol = sym

/-- The feature frame: the symbols' rows one after the other. -/
def extractFeatures (data : ReplayData) (window : Int) :
    Except DecodeError (List (FrameRow F)) :=
  if data.bars.isEmpty then .ok []
  else (symbols data.bars).map fun syms =>
    (unique syms).flatMap fun sym =>
      featureRows fn ofBits sym window (timeSorted (barsOf data.bars sym))

/-! Decoding and grouping. -/

theorem decodeAscii_eq_ok_iff {symbol decoded : Symbol} :
    decodeAscii symbol = .ok decoded ↔ Ascii symbol ∧ decoded = symbol := by
  unfold decodeAscii Ascii
  split
  next i hi =>
    obtain ⟨hlt, hc, -⟩ := List.findIdx?_eq_some_iff_getElem.mp hi
    simp only [reduceCtorEq, false_iff, not_and]
    intro hall
    have := hall _ (List.getElem_mem hlt)
    simp only [decide_eq_true_eq] at hc
    exact absurd this (UInt8.not_lt.mpr hc)
  next hi =>
    have hall : ∀ c ∈ symbol.toList, c < 128 := by
      intro c hc
      simpa using List.findIdx?_eq_none_iff.mp hi c hc
    simp only [Except.ok.injEq]
    exact ⟨fun h => ⟨hall, h.symm⟩, fun h => h.2.symm⟩

theorem symbols_eq_ok_iff {bars : List (Row BarBody)} {syms : List Symbol} :
    symbols bars = .ok syms ↔
      (∀ b ∈ bars, Ascii b.body.symbol) ∧ syms = bars.map fun b => b.body.symbol := by
  induction bars generalizing syms with
  | nil => simp [symbols, pure, Except.pure, eq_comm]
  | cons b bars ih =>
    have hcons : symbols (b :: bars) =
        (decodeAscii b.body.symbol).bind fun s => (symbols bars).bind fun ss => .ok (s :: ss) := by
      simp [symbols, List.mapM_cons, bind, pure, Except.pure]
    rw [hcons]
    cases hb : decodeAscii b.body.symbol with
    | error e =>
      have hnot : ¬ Ascii b.body.symbol := by
        intro ha
        rw [decodeAscii_eq_ok_iff.mpr ⟨ha, rfl⟩] at hb
        cases hb
      simp [Except.bind, hnot]
    | ok s =>
      obtain ⟨ha, rfl⟩ := decodeAscii_eq_ok_iff.mp hb
      cases hs : symbols bars with
      | error e =>
        have hnot : ¬ ∀ b ∈ bars, Ascii b.body.symbol := by
          intro hall
          rw [ih.mpr ⟨hall, rfl⟩] at hs
          cases hs
        simp only [Except.bind, reduceCtorEq, List.forall_mem_cons, false_iff]
        exact fun h => hnot h.1.2
      | ok ss =>
        obtain ⟨hall, rfl⟩ := ih.mp hs
        have hcons : ∀ c ∈ b :: bars, Ascii c.body.symbol := List.forall_mem_cons.mpr ⟨ha, hall⟩
        simp only [Except.bind, Except.ok.injEq, List.map_cons]
        exact ⟨fun h => ⟨hcons, h.symm⟩, fun h => h.2.symm⟩

theorem nodup_unique (syms : List Symbol) : (unique syms).Nodup :=
  (List.perm_insertionSort _ _).nodup_iff.mpr (List.nodup_dedup syms)

theorem mem_unique {syms : List Symbol} {sym : Symbol} : sym ∈ unique syms ↔ sym ∈ syms := by
  rw [unique, (List.perm_insertionSort _ _).mem_iff, List.mem_dedup]

instance : Std.Total StartsBy := ⟨fun a b => UInt64.le_total a.body.startNs b.body.startNs⟩

instance : IsTrans (Row BarBody) StartsBy := ⟨fun _ _ _ => UInt64.le_trans⟩

theorem pairwise_timeSorted (bars : List (Row BarBody)) : (timeSorted bars).Pairwise StartsBy :=
  List.pairwise_insertionSort StartsBy bars

theorem timeSorted_timeSorted (bars : List (Row BarBody)) :
    timeSorted (timeSorted bars) = timeSorted bars :=
  (pairwise_timeSorted bars).insertionSort_eq

theorem mem_timeSorted {bars : List (Row BarBody)} {b : Row BarBody} :
    b ∈ timeSorted bars ↔ b ∈ bars :=
  (List.perm_insertionSort StartsBy bars).mem_iff

@[simp]
theorem length_timeSorted (bars : List (Row BarBody)) : (timeSorted bars).length = bars.length :=
  (List.perm_insertionSort StartsBy bars).length_eq

/-! Every feature looks back only. -/

omit [PriceArith F] in
theorem segment_take (x : List F) (window : Int) (i : Nat) :
    segment (x.take (i + 1)) window i = segment x window i := by
  simp [segment, List.take_take]

theorem causal_rollingStd (window : Int) : Causal fun x => rollingStd fn x window := by
  apply causal_range_map
  intro x i _
  simp only [segment_take]

theorem causal_rollingRobustZ (window : Int) : Causal fun x => rollingRobustZ fn x window := by
  apply causal_range_map
  intro x i _
  have hlast : (x.take (i + 1)).getD i (lit 0) = x.getD i (lit 0) := by
    simp [List.getD_eq_getElem?_getD]
  simp only [segment_take, hlast]

theorem causal_logReturns : Causal (logReturns fn ofBits) := by
  apply causal_range_map
  intro bars i _
  cases i with
  | zero => rfl
  | succ j =>
    have hprev : (bars.take (j + 1 + 1))[j]? = bars[j]? := by
      rw [List.getElem?_take, if_pos (by omega)]
    have hcur : (bars.take (j + 1 + 1))[j + 1]? = bars[j + 1]? := by
      rw [List.getElem?_take, if_pos (by omega)]
    simp only [hprev, hcur]

theorem causal_featuresForSymbol (window : Int) :
    Causal fun bars => featuresForSymbol fn ofBits bars window := by
  have hentry : ∀ {f : List BarBody → List F}, Causal f → ∀ bars i,
      (f (bars.take (i + 1))).getD i (lit 0) = (f bars).getD i (lit 0) := by
    intro f hf bars i
    rw [List.getD_eq_getElem?_getD, List.getD_eq_getElem?_getD, hf.getElem?]
  have hreturns := causal_logReturns fn ofBits
  have hvolume : Causal (List.map (logVolume fn)) := causal_map _
  apply causal_range_map
  intro bars i _
  simp only [hentry hreturns, hentry hvolume, hentry (causal_map (hlRange ofBits)),
    hentry (causal_map (vwapDev ofBits)),
    hentry (causal_map fun b : BarBody => (ofUInt64 b.tradeCount : F)),
    hentry ((causal_rollingStd fn window).comp hreturns),
    hentry ((causal_rollingRobustZ fn window).comp hvolume)]

@[simp]
theorem length_featuresForSymbol (bars : List BarBody) (window : Int) :
    (featuresForSymbol fn ofBits bars window).length = bars.length := by
  simp [featuresForSymbol]

theorem causal_featureRows (sym : Symbol) (window : Int) :
    Causal (featureRows fn ofBits sym window) := by
  intro sub k
  have hfeatures := (causal_featuresForSymbol fn ofBits window).comp (causal_map Row.body) sub k
  simp only [featureRows] at hfeatures ⊢
  rw [hfeatures, List.take_zipWith]

theorem map_startNs_featureRows (sym : Symbol) (window : Int) (sub : List (Row BarBody)) :
    (featureRows fn ofBits sym window sub).map FrameRow.startNs =
      sub.map fun b => b.body.startNs := by
  apply List.ext_getElem
  · simp [featureRows]
  · intro i hi hi'
    simp [featureRows]

theorem symbol_of_mem_featureRows {sym : Symbol} {window : Int} {sub : List (Row BarBody)}
    {row : FrameRow F} (h : row ∈ featureRows fn ofBits sym window sub) : row.symbol = sym := by
  obtain ⟨i, hi, rfl⟩ := List.getElem_of_mem h
  simp [featureRows]

/-! What is known at a time. -/

/-- The bars that have started by `T`. -/
def past (T : UInt64) (bars : List (Row BarBody)) : List (Row BarBody) :=
  bars.filter fun b => b.body.startNs ≤ T

theorem past_timeSorted (T : UInt64) (bars : List (Row BarBody)) :
    past T (timeSorted bars) = timeSorted (past T bars) :=
  filter_insertionSort StartsBy _ bars

theorem pairwise_started (T : UInt64) (bars : List (Row BarBody)) :
    (timeSorted bars).Pairwise fun a b =>
      decide (b.body.startNs ≤ T) = true → decide (a.body.startNs ≤ T) = true := by
  refine (pairwise_timeSorted bars).imp ?_
  intro a b hab hb
  simp only [decide_eq_true_eq] at hb ⊢
  exact UInt64.le_trans hab hb

/-- The sorted bars begin with those that have started. -/
theorem past_timeSorted_eq_take (T : UInt64) (bars : List (Row BarBody)) :
    past T (timeSorted bars) = (timeSorted bars).take (past T bars).length := by
  have hlength : (past T (timeSorted bars)).length = (past T bars).length := by
    rw [past_timeSorted, length_timeSorted]
  rw [← hlength]
  exact filter_eq_take (pairwise_started T bars)

theorem lt_length_past {T : UInt64} {bars : List (Row BarBody)} {t : Nat} {b : Row BarBody}
    (hb : (timeSorted bars)[t]? = some b) (hT : b.body.startNs ≤ T) :
    t < (past T bars).length := by
  rw [← length_timeSorted (past T bars), ← past_timeSorted]
  exact lt_length_filter (pairwise_started T bars) hb (by simpa using hT)

/-- The rows at or before `T` are those made from the bars at or before `T`. -/
theorem featureRows_past (sym : Symbol) (window : Int) (T : UInt64) (bars : List (Row BarBody)) :
    (featureRows fn ofBits sym window (timeSorted bars)).filter (fun row => row.startNs ≤ T) =
      featureRows fn ofBits sym window (timeSorted (past T bars)) := by
  have hstarts := map_startNs_featureRows fn ofBits sym window (timeSorted bars)
  have hsorted : (featureRows fn ofBits sym window (timeSorted bars)).Pairwise
      fun a b => a.startNs ≤ b.startNs := by
    have hpair : ((timeSorted bars).map fun b => b.body.startNs).Pairwise (· ≤ ·) :=
      List.pairwise_map.mpr (pairwise_timeSorted bars)
    rw [← hstarts] at hpair
    exact List.pairwise_map.mp hpair
  have hcount : ((featureRows fn ofBits sym window (timeSorted bars)).filter
      fun row => row.startNs ≤ T).length = (past T bars).length := by
    have hfilter := congrArg (fun l => (l.filter fun t => t ≤ T).length) hstarts
    simp only [List.filter_map, List.length_map] at hfilter
    rw [← length_timeSorted (past T bars), ← past_timeSorted]
    exact hfilter
  rw [filter_eq_take (hsorted.imp ?_), hcount, ← causal_featureRows, ← past_timeSorted_eq_take,
    past_timeSorted]
  intro a b hab hb
  simp only [decide_eq_true_eq] at hb ⊢
  exact UInt64.le_trans hab hb

/-- Of groups laid one after the other, the entries of one key are its group. -/
theorem filter_flatMap_group {κ β : Type} [DecidableEq κ] {f : κ → List β} {key : β → κ}
    (hkey : ∀ k, ∀ b ∈ f k, key b = k) {ks : List κ} (hks : ks.Nodup) (k : κ) :
    (ks.flatMap f).filter (fun b => key b = k) = if k ∈ ks then f k else [] := by
  induction ks with
  | nil => rfl
  | cons j ks ih =>
    obtain ⟨hj, hks⟩ := List.nodup_cons.mp hks
    rw [List.flatMap_cons, List.filter_append, ih hks]
    by_cases hjk : j = k
    · subst hjk
      have hall : (f j).filter (fun b => key b = j) = f j :=
        List.filter_eq_self.mpr fun b hb => by simp [hkey j b hb]
      simp [hall, hj]
    · have hnone : (f j).filter (fun b => key b = k) = [] :=
        List.filter_eq_nil_iff.mpr fun b hb => by simp [hkey j b hb, hjk]
      simp [hnone, Ne.symm hjk]

/-- One symbol's part of the frame comes from its own bars. -/
theorem extractFeatures_symbol {data : ReplayData} {window : Int} {frame : List (FrameRow F)}
    (h : extractFeatures fn ofBits data window = .ok frame) (sym : Symbol) :
    frame.filter (fun row => row.symbol = sym) =
      featureRows fn ofBits sym window (timeSorted (barsOf data.bars sym)) := by
  have habsent : (∀ b ∈ data.bars, b.body.symbol ≠ sym) → barsOf data.bars sym = [] :=
    fun hne => List.filter_eq_nil_iff.mpr fun b hb => by simpa using hne b hb
  have hnone : featureRows fn ofBits sym window (timeSorted []) = ([] : List (FrameRow F)) := rfl
  unfold extractFeatures at h
  split at h
  next hempty =>
    obtain rfl := Except.ok.inj h
    rw [List.isEmpty_iff.mp hempty] at habsent ⊢
    rw [habsent (by simp), hnone]
    rfl
  next =>
    cases hsyms : symbols data.bars with
    | error e =>
      rw [hsyms] at h
      cases h
    | ok syms =>
      rw [hsyms] at h
      obtain rfl := Except.ok.inj h
      obtain ⟨-, rfl⟩ := symbols_eq_ok_iff.mp hsyms
      rw [filter_flatMap_group (fun k b hb => symbol_of_mem_featureRows fn ofBits hb)
        (nodup_unique _)]
      split
      next => rfl
      next hmem =>
        rw [habsent ?_, hnone]
        intro b hb heq
        exact hmem (mem_unique.mpr (List.mem_map.mpr ⟨b, hb, heq⟩))

theorem extractFeatures_isOk_iff (data : ReplayData) (window : Int) :
    (∃ frame, extractFeatures fn ofBits data window = .ok frame) ↔
      ∀ b ∈ data.bars, Ascii b.body.symbol := by
  unfold extractFeatures
  split
  next hempty => simp [List.isEmpty_iff.mp hempty]
  next =>
    cases hsyms : symbols data.bars with
    | error e =>
      simp only [Except.map, reduceCtorEq, exists_false, false_iff]
      intro hall
      rw [symbols_eq_ok_iff.mpr ⟨hall, rfl⟩] at hsyms
      cases hsyms
    | ok syms => simpa [Except.map] using (symbols_eq_ok_iff.mp hsyms).1

end Ml

end OhlcvValidator
