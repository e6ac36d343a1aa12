import OhlcvValidator.BoundedLoop
import OhlcvValidator.LiveCapture

namespace OhlcvValidator

/-! The generator of the benchmark's replay data, with exact rational prices. -/

namespace GenDataset

/-- The one thing that may be wrong with a window. -/
inductive Defect
  | clean
  | corruptTrade
  | seqGap
  | tsRegress
  | reconVolume
  | reconCount
  | reconVwap
  | reconOhlc
  | band
  | quoteCrossed
  | quoteLocked
  | priceSpike
  deriving DecidableEq, Repr

def Defect.ofRoll : Nat → Defect
  | 0 => .corruptTrade
  | 1 => .seqGap
  | 2 => .tsRegress
  | 3 => .reconVolume
  | 4 => .reconCount
  | 5 => .reconVwap
  | 6 => .reconOhlc
  | 7 => .band
  | 8 => .quoteCrossed
  | 9 => .quoteLocked
  | 10 => .priceSpike
  | _ => .clean

/-- What the random distributions return: by window, and within it by trade or
quote. -/
structure Draws where
  pick : Nat → Nat
  count : Nat → Nat
  jitter : Nat → Nat → ℚ
  size : Nat → Nat → UInt64
  bidSize : Nat → Nat → UInt64
  askSize : Nat → Nat → UInt64
  pick_le : ∀ j, pick j ≤ 99
  count_mem : ∀ j, 8 ≤ count j ∧ count j ≤ 12
  jitter_mem : ∀ j k, -1 / 2 ≤ jitter j k ∧ jitter j k < 1 / 2
  size_mem : ∀ j k, 1 ≤ (size j k).toNat ∧ (size j k).toNat ≤ 100
  bidSize_mem : ∀ j k, 1 ≤ (bidSize j k).toNat ∧ (bidSize j k).toNat ≤ 100
  askSize_mem : ∀ j k, 1 ≤ (askSize j k).toNat ∧ (askSize j k).toNat ≤ 100

/-- AAPL, MSFT, NVDA, AMZN, GOOGL, META, TSLA and AMD. -/
def kRealSymbols : List (List UInt8) :=
  [[65, 65, 80, 76], [77, 83, 70, 84], [78, 86, 68, 65], [65, 77, 90, 78], [71, 79, 79, 71, 76],
    [77, 69, 84, 65], [84, 83, 76, 65], [65, 77, 68]]

/-- The conversion `%05u`. -/
def decimal5 (i : Nat) : List UInt8 :=
  let digits := (Nat.digits 10 i).reverse
  (List.replicate (5 - digits.length) 0 ++ digits).map fun d => UInt8.ofNat (48 + d)

/-- A real ticker, or an S and the number. -/
def symbolName (i : Nat) : List UInt8 :=
  match kRealSymbols[i]? with
  | some name => name
  | none => 83 :: decimal5 (i % 2 ^ 32)

def makeSymbols (count : Nat) : List (List UInt8) :=
  (List.range count).map symbolName

/-- A generated record, with the window it belongs to, whether it is the window's
first trade, and the running price it was made at. -/
structure Emitted where
  window : Nat
  defect : Defect
  first : Bool
  px : ℚ
  record : WireRecord ℚ
  deriving DecidableEq, Repr

/-- The aggregate of a window's valid trades. -/
structure Acc where
  vol : UInt64 := 0
  cnt : UInt64 := 0
  pv : ℚ := 0
  openPrice : ℚ := 0
  high : ℚ := 0
  low : ℚ := 0
  close : ℚ := 0
  has : Bool := false
  deriving DecidableEq, Repr

/-- The per-symbol series, the records so far, and the symbol, number and defect of
the current window with its aggregate. -/
structure State where
  s : Nat
  window : Nat
  defect : Defect
  seq : Nat → UInt64
  ts : Nat → UInt64
  px : Nat → ℚ
  records : List Emitted
  acc : Acc

def init (symCount : Nat) : State where
  s := symCount - 1
  window := 0
  defect := .clean
  seq _ := 1
  ts i := 1700000000000000000 + UInt64.ofNat i * 1000000
  px i := 100 + ((i % 50 : Nat) : ℚ) * 10
  records := []
  acc := {}

namespace State

def symbol (symCount : Nat) (st : State) : Symbol :=
  Ingest.setSymbol ((makeSymbols symCount).getD st.s [])

/-- One more millisecond and one more message for the window's symbol. -/
def tick (st : State) : State :=
  { st with
    ts := Function.update st.ts st.s (st.ts st.s + 1000000)
    seq := Function.update st.seq st.s (st.seq st.s + 1) }

@[simp] theorem tick_s (st : State) : st.tick.s = st.s := rfl

@[simp] theorem tick_window (st : State) : st.tick.window = st.window := rfl

@[simp] theorem tick_defect (st : State) : st.tick.defect = st.defect := rfl

@[simp] theorem tick_px (st : State) : st.tick.px = st.px := rfl

@[simp] theorem tick_records (st : State) : st.tick.records = st.records := rfl

@[simp] theorem tick_ts_self (st : State) : st.tick.ts st.s = st.ts st.s + 1000000 := by
  simp [tick]

@[simp] theorem tick_seq_self (st : State) : st.tick.seq st.s = st.seq st.s + 1 := by
  simp [tick]

def push (st : State) (first : Bool) (rec : WireRecord ℚ) : State :=
  { st with records := st.records ++ [⟨st.window, st.defect, first, st.px st.s, rec⟩] }

end State

/-- The defects that land on the first trade; the last result is whether the trade
counts. -/
def injectTrade (st : State) (t : WireTrade ℚ) : State × WireTrade ℚ × Bool :=
  match st.defect with
  | .corruptTrade => (st, { t with price := -1 }, false)
  | .seqGap =>
    let st := { st with seq := Function.update st.seq st.s (st.seq st.s + 3) }
    (st, { t with seq := st.seq st.s }, true)
  | .tsRegress => (st, { t with tsNs := t.tsNs - 5000000 }, true)
  | .priceSpike => (st, { t with price := st.px st.s * (16 / 10) }, true)
  | _ => (st, t, true)

def Acc.add (acc : Acc) (price : ℚ) (size : UInt64) : Acc :=
  let acc :=
    if !acc.has then { acc with openPrice := price, high := price, low := price, has := true }
    else
      { acc with
        high := if acc.high < price then price else acc.high
        low := if price < acc.low then price else acc.low }
  { acc with
    close := price
    cnt := acc.cnt + 1
    vol := acc.vol + size
    pv := acc.pv + price * size.toNat }

def emitTrade (d : Draws) (symCount : Nat) (st : State) (k : Nat) : State :=
  let st := st.tick
  let moved := st.px st.s + d.jitter st.window k
  let st := { st with px := Function.update st.px st.s (if moved < 1 then 1 else moved) }
  let t : WireTrade ℚ :=
    ⟨st.symbol symCount, st.ts st.s, st.seq st.s, st.px st.s, d.size st.window k⟩
  let (st, t, valid) := if k = 0 then injectTrade st t else (st, t, true)
  let st := if valid then { st with acc := st.acc.add t.price t.size } else st
  st.push (k = 0) (.trade t)

def injectQuote (st : State) (qk : Nat) (q : WireQuote ℚ) : WireQuote ℚ :=
  if qk = 0 ∧ st.defect = .quoteCrossed then
    { q with bidPrice := st.px st.s + 5 / 100, askPrice := st.px st.s - 5 / 100 }
  else if qk = 0 ∧ st.defect = .quoteLocked then
    { q with bidPrice := st.px st.s, askPrice := st.px st.s }
  else q

def emitQuote (d : Draws) (symCount : Nat) (st : State) (qk : Nat) : State :=
  let st := st.tick
  let q : WireQuote ℚ :=
    ⟨st.symbol symCount, st.ts st.s, st.seq st.s, st.px st.s - 5 / 100, st.px st.s + 5 / 100,
      1 + d.bidSize st.window qk % 20, 1 + d.askSize st.window qk % 20⟩
  st.push false (.quote (injectQuote st qk q))

/-- The defects of the emitted bar. -/
def injectBar (defect : Defect) (b : WireBar ℚ) : WireBar ℚ :=
  match defect with
  | .reconVolume => { b with volume := b.volume + 100 }
  | .reconCount => { b with tradeCount := b.tradeCount + 1 }
  | .reconVwap => { b with vwap := b.vwap * (1001 / 1000) }
  | .reconOhlc => { b with high := b.high + 5 }
  | .band => { b with low := b.high + 5 }
  | _ => b

def emitBar (symCount : Nat) (st : State) : State :=
  let st := st.tick
  let acc := st.acc
  let b : WireBar ℚ :=
    { symbol := st.symbol symCount
      startNs := st.ts st.s
      seq := st.seq st.s
      openPrice := acc.openPrice
      high := acc.high
      low := acc.low
      close := acc.close
      vwap := if acc.vol ≠ 0 then acc.pv / acc.vol.toNat else acc.openPrice
      volume := acc.vol
      tradeCount := acc.cnt }
  st.push false (.bar (injectBar st.defect b))

/-- A loop body under the condition that there is room for a record. -/
def whenRoom (n : Nat) (f : State → Nat → State) (st : State) (k : Nat) : State :=
  if st.records.length < n then f st k else st

/-- The next symbol's turn. -/
def beginWindow (d : Draws) (symCount : Nat) (st : State) : State :=
  { st with
    s := (st.s + 1) % symCount
    defect := Defect.ofRoll (d.pick st.window)
    acc := {} }

/-- One round of the main loop. Its two `for` loops stop for good once there is no
room, so they are folds over all of their indices. -/
def genWindow (d : Draws) (symCount n : Nat) (st : State) : State :=
  let st := beginWindow d symCount st
  let st := (List.range (d.count st.window)).foldl (whenRoom n (emitTrade d symCount)) st
  let st := (List.range 2).foldl (whenRoom n (emitQuote d symCount)) st
  if n ≤ st.records.length then st
  else { emitBar symCount st with window := st.window + 1 }

/-- The generated records; every round adds one, so `n` rounds are enough. -/
def generate (d : Draws) (n symCount : Nat) : Option (List Emitted) :=
  let symCount := if symCount < 1 then 1 else symCount
  (whileLoop (fun st => decide (st.records.length < n))
    (fun st => some (genWindow d symCount n st)) n (init symCount)).map State.records

/-! The tickers are told apart. -/

theorem setSymbol_injective {a b : List UInt8} (ha : ∀ x ∈ a, x ≠ 0) (hb : ∀ x ∈ b, x ≠ 0)
    (hla : a.length ≤ kSymbolLen) (hlb : b.length ≤ kSymbolLen)
    (h : Ingest.setSymbol a = Ingest.setSymbol b) : a = b := by
  have hplain : ∀ {c : List UInt8}, (∀ x ∈ c, x ≠ 0) → c.length ≤ kSymbolLen →
      (c.takeWhile (· ≠ 0)).take kSymbolLen = c := by
    intro c hc hlc
    rw [List.takeWhile_eq_self_iff.mpr (by simpa using hc), List.take_of_length_le hlc]
  have hentry : ∀ k, a.getD k 0 = b.getD k 0 := by
    intro k
    by_cases hk : k < kSymbolLen
    · have hat := congrArg (fun v : Symbol => v.get ⟨k, hk⟩) h
      unfold Ingest.setSymbol at hat
      rw [hplain ha hla, hplain hb hlb] at hat
      simpa using hat
    · rw [List.getD_eq_default _ _ (by omega), List.getD_eq_default _ _ (by omega)]
  have hlength : ∀ {c e : List UInt8}, (∀ x ∈ e, x ≠ 0) → (∀ k, c.getD k 0 = e.getD k 0) →
      e.length ≤ c.length := by
    intro c e he hce
    by_contra hlt
    have hlast := hce c.length
    rw [List.getD_eq_default _ _ le_rfl, List.getD_eq_getElem _ _ (by omega)] at hlast
    exact he _ (List.getElem_mem _) hlast.symm
  apply List.ext_getElem
  · exact le_antisymm (hlength ha fun k => (hentry k).symm) (hlength hb hentry)
  · intro k hka hkb
    have hat := hentry k
    rwa [List.getD_eq_getElem _ _ hka, List.getD_eq_getElem _ _ hkb] at hat

theorem ofDigits_decimal5 (i : Nat) :
    Nat.ofDigits 10 ((decimal5 i).reverse.map fun b => b.toNat - 48) = i := by
  have hdigit : ∀ d ∈ Nat.digits 10 i ++ List.replicate (5 - (Nat.digits 10 i).length) 0,
      (UInt8.ofNat (48 + d)).toNat - 48 = d := by
    intro d hd
    have hlt : d < 10 := by
      rcases List.mem_append.mp hd with hd | hd
      · exact Nat.digits_lt_base (by decide) hd
      · rw [List.eq_of_mem_replicate hd]
        decide
    rw [UInt8.toNat_ofNat_of_lt' (show _ < 2 ^ 8 by omega)]
    omega
  have hreverse : (decimal5 i).reverse.map (fun b => b.toNat - 48) =
      Nat.digits 10 i ++ List.replicate (5 - (Nat.digits 10 i).length) 0 := by
    simp only [decimal5, ← List.map_reverse, List.reverse_append, List.reverse_replicate,
      List.reverse_reverse, List.length_reverse, List.map_map]
    exact List.map_congr_left hdigit |>.trans (List.map_id _)
  rw [hreverse, Nat.ofDigits_append_replicate_zero, Nat.ofDigits_digits]

theorem decimal5_ne_zero {i : Nat} {b : UInt8} (h : b ∈ decimal5 i) : b ≠ 0 := by
  simp only [decimal5, List.mem_map, List.mem_append, List.mem_replicate, List.mem_reverse] at h
  obtain ⟨d, hd, rfl⟩ := h
  have hlt : d < 10 := by
    rcases hd with hd | hd
    · omega
    · exact Nat.digits_lt_base (by decide) hd
  intro hzero
  have := congrArg UInt8.toNat hzero
  rw [UInt8.toNat_ofNat_of_lt' (show _ < 2 ^ 8 by omega)] at this
  simp at this

theorem length_decimal5 {i : Nat} (h : i < 100000) : (decimal5 i).length = 5 := by
  have hdigits : (Nat.digits 10 i).length ≤ 5 :=
    (Nat.digits_length_le_iff (by decide) i).mpr h
  simp only [decimal5, List.length_map, List.length_append, List.length_replicate,
    List.length_reverse]
  omega

/-- The ticker of the symbol with a number. -/
def symbolOf (i : Nat) : Symbol := Ingest.setSymbol (symbolName i)

theorem symbolName_short {i : Nat} (h : i < 4096) :
    (∀ x ∈ symbolName i, x ≠ 0) ∧ (symbolName i).length ≤ kSymbolLen := by
  unfold symbolName
  split
  next name hname =>
    have hreal : ∀ name ∈ kRealSymbols, (∀ x ∈ name, x ≠ 0) ∧ name.length ≤ kSymbolLen := by
      decide +kernel
    exact hreal name (List.mem_of_getElem? hname)
  next =>
    rw [Nat.mod_eq_of_lt (by omega)]
    refine ⟨?_, ?_⟩
    · intro x hx
      rcases List.mem_cons.mp hx with rfl | hx
      · decide
      · exact decimal5_ne_zero hx
    · rw [List.length_cons, length_decimal5 (by omega)]
      decide

theorem symbolName_injective {i j : Nat} (hi : i < 4096) (hj : j < 4096)
    (h : symbolName i = symbolName j) : i = j := by
  have hreal : ∀ {k : Nat}, k < 4096 → 8 ≤ k → symbolName k = 83 :: decimal5 k := by
    intro k hk h8
    unfold symbolName
    rw [List.getElem?_eq_none (by simpa [kRealSymbols] using h8), Nat.mod_eq_of_lt (by omega)]
  have hhead : ∀ k < 8, (symbolName k).head? ≠ some 83 := by decide
  have hfew : ∀ k < 8, ∀ l < 8, symbolName k = symbolName l → k = l := by decide
  rcases Nat.lt_or_ge i 8 with hi8 | hi8 <;> rcases Nat.lt_or_ge j 8 with hj8 | hj8
  · exact hfew i hi8 j hj8 h
  · exact absurd (by rw [h, hreal hj hj8]; rfl) (hhead i hi8)
  · exact absurd (by rw [← h, hreal hi hi8]; rfl) (hhead j hj8)
  · rw [hreal hi hi8, hreal hj hj8] at h
    rw [← ofDigits_decimal5 i, (List.cons.inj h).2, ofDigits_decimal5]

theorem symbolOf_injective {i j : Nat} (hi : i < 4096) (hj : j < 4096)
    (h : symbolOf i = symbolOf j) : i = j :=
  symbolName_injective hi hj (setSymbol_injective (symbolName_short hi).1 (symbolName_short hj).1
    (symbolName_short hi).2 (symbolName_short hj).2 h)

theorem State.symbol_eq {symCount : Nat} {st : State} (h : st.s < symCount) :
    st.symbol symCount = symbolOf st.s := by
  simp [State.symbol, makeSymbols, symbolOf, List.getD_eq_getElem?_getD, h]

end GenDataset

end OhlcvValidator
