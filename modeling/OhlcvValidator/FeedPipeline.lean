import OhlcvValidator.ArbiterBalance
import OhlcvValidator.ArbiterSafety
import OhlcvValidator.LiveCapture
import OhlcvValidator.ResidueGaps
import OhlcvValidator.SequencingCursor

namespace OhlcvValidator

open Replay (DoubleBits TradeBody RecordType)

instance : Inhabited Replay.WireRecord := ⟨Replay.fill 0⟩

namespace FeedPublisher

inductive Ticker
  | AAPL
  | MSFT
  | NVDA
  | TSLA
  deriving DecidableEq, Repr

def kSyms : Nat := 4

/-- The ticker's letters. -/
def Ticker.name : Ticker → List UInt8
  | .AAPL => [65, 65, 80, 76]
  | .MSFT => [77, 83, 70, 84]
  | .NVDA => [78, 86, 68, 65]
  | .TSLA => [84, 83, 76, 65]

/-- The ticker's place in the publisher's arrays. -/
def Ticker.index : Ticker → Nat
  | .AAPL => 0
  | .MSFT => 1
  | .NVDA => 2
  | .TSLA => 3

def tickerOf (seq : Nat) : Ticker :=
  match seq % kSyms with
  | 0 => .AAPL
  | 1 => .MSFT
  | 2 => .NVDA
  | _ => .TSLA

def kBaseNs : UInt64 := 1704206000000000000

section Publish

open PriceArith (lit)

variable {D : Type} [PriceArith D]

def startPrice : Ticker → D
  | .AAPL => lit 190
  | .MSFT => lit 420
  | .NVDA => lit 1200
  | .TSLA => lit 250

/-- The publisher's per-symbol prices and trade sequences. -/
structure State (D : Type) [PriceArith D] where
  px : Ticker → D := startPrice
  symSeq : Ticker → UInt64 := fun _ => 0

/-- The walk of one packet's symbol, by a draw from the unit interval. -/
def State.advance (st : State D) (seq : Nat) (draw : D) : State D :=
  let si := tickerOf seq
  { px := Function.update st.px si (st.px si * (lit 1 + (draw - lit (1 / 2)) / lit 50000))
    symSeq := Function.update st.symSeq si (st.symSeq si + 1) }

/-- The state when the first packets have been made. -/
def stateAfter (draws : Nat → D) : Nat → State D
  | 0 => {}
  | seq + 1 => (stateAfter draws seq).advance seq (draws seq)

variable (toBits : D → DoubleBits) (draws : Nat → D)

/-- The trade in the packet with a global sequence. -/
def trade (seq : Nat) : TradeBody where
  symbol := Ingest.setSymbol (tickerOf seq).name
  tsNs := kBaseNs + UInt64.ofNat seq * 1000
  seq := (stateAfter draws (seq + 1)).symSeq (tickerOf seq)
  tradeId := UInt64.ofNat seq
  price := toBits ((stateAfter draws (seq + 1)).px (tickerOf seq))
  size := 100
  exchange := 86
  tape := 65

/-- The packet with a global sequence, as sent on one of the lines. -/
def packet (line : Line) (seq : Nat) : FeedPacket Replay.WireRecord where
  seq := UInt64.ofNat seq
  line := line.toByte
  record := (trade toBits draws seq).wrap

theorem index_tickerOf (seq : Nat) : (tickerOf seq).index = seq % 4 := by
  have hlt := Nat.mod_lt seq (show 0 < 4 by decide)
  unfold tickerOf
  split
  next h => exact h.symm
  next h => exact h.symm
  next h => exact h.symm
  next h₀ h₁ h₂ =>
    have h₀ : seq % 4 ≠ 0 := h₀
    have h₁ : seq % 4 ≠ 1 := h₁
    have h₂ : seq % 4 ≠ 2 := h₂
    change 3 = _
    omega

theorem Ticker.index_injective : Function.Injective Ticker.index := by
  intro s t h
  cases s <;> cases t <;> first | rfl | cases h

theorem tickerOf_eq_iff {j k : Nat} : tickerOf j = tickerOf k ↔ j % 4 = k % 4 := by
  rw [← Ticker.index_injective.eq_iff, index_tickerOf, index_tickerOf]

/-- A symbol's counter is the number of its packets so far. -/
theorem symSeq_stateAfter (seq : Nat) (t : Ticker) :
    (stateAfter draws seq).symSeq t = UInt64.ofNat ((seq + 3 - t.index) / 4) := by
  induction seq with
  | zero => cases t <;> rfl
  | succ seq ih =>
    have hidx := index_tickerOf seq
    have hbound : t.index ≤ 3 := by cases t <;> decide
    simp only [stateAfter, State.advance]
    by_cases ht : t = tickerOf seq
    · rw [← ht] at hidx ⊢
      have hnext : (seq + 1 + 3 - t.index) / 4 = (seq + 3 - t.index) / 4 + 1 := by omega
      rw [Function.update_self, ih, hnext, UInt64.ofNat_add]
      rfl
    · have hne : t.index ≠ seq % 4 := fun he =>
        ht (Ticker.index_injective (he.trans hidx.symm))
      have hsame : (seq + 1 + 3 - t.index) / 4 = (seq + 3 - t.index) / 4 := by omega
      rw [Function.update_of_ne ht, ih, hsame]

theorem trade_seq (seq : Nat) : (trade toBits draws seq).seq = UInt64.ofNat (seq / 4 + 1) := by
  have hidx := index_tickerOf seq
  change (stateAfter draws (seq + 1)).symSeq (tickerOf seq) = _
  rw [symSeq_stateAfter, hidx]
  congr 1
  omega

theorem setSymbol_name_injective :
    Function.Injective fun t : Ticker => Ingest.setSymbol t.name := by
  intro s t h
  cases s <;> cases t <;> first | rfl | exact absurd h (by decide)

end Publish

end FeedPublisher

namespace FeedHandler

variable {F : Type} [PriceArith F] (ofBits : DoubleBits → F)

/-- The state that the sink updates, with the results that it saw. -/
structure Handler (F : Type) [PriceArith F] where
  validator : Validator F := {}
  violations : UInt64 := 0
  results : List Validator.Result := []

def Handler.tally (h : Handler F) (checked : Validator F × Validator.Result) : Handler F where
  validator := checked.1
  violations := if checked.2.flags ≠ 0 then h.violations + 1 else h.violations
  results := h.results ++ [checked.2]

/-- The sink: a record of no known type is dropped. -/
def Handler.sink (h : Handler F) (r : Replay.WireRecord) : Handler F :=
  if r.type = RecordType.Trade.toByte then
    h.tally (h.validator.check (.trade (r.trade.toModel ofBits)))
  else if r.type = RecordType.Bar.toByte then
    h.tally (h.validator.check (.bar (r.bar.toModel ofBits)))
  else if r.type = RecordType.Quote.toByte then
    h.tally (h.validator.check (.quote (r.quote.toModel ofBits)))
  else h

def kWindow : PowTwo := ⟨4096, by decide, by decide, by decide⟩

/-- The handler on the packets as they arrive: offered one by one, then flushed.
The sink only listens, so it is run on what was handed to it. -/
def run (pkts : List (FeedPacket Replay.WireRecord)) :
    Option (FeedSession Replay.WireRecord kWindow × Handler F) :=
  (FeedArbitrator.run kWindow (pkts.map .offer ++ [.flush])).map fun st =>
    (st, st.2.foldl (fun h e => h.sink ofBits e.2) {})

end FeedHandler

end OhlcvValidator
