import OhlcvValidator.WireRecords

namespace OhlcvValidator

/-- The violations, in the order of their flag bits. -/
inductive Violation
  | barLowAboveHigh
  | barOpenOutOfRange
  | barCloseOutOfRange
  | barVwapOutOfRange
  | barNonPositivePrice
  | barVolumeInconsistent
  | tradeNonPositivePrice
  | tradeNonPositiveSize
  | timestampRegression
  | sequenceGap
  | barVolumeReconstructMismatch
  | barTradeCountReconstructMismatch
  | barVwapReconstructMismatch
  | barOhlcReconstructMismatch
  | quoteCrossed
  | quoteLocked
  | quoteNonPositive
  | quoteZeroSize
  | priceBandBreach
  deriving DecidableEq, Repr

def Violation.shift : Violation → Nat
  | .barLowAboveHigh => 0
  | .barOpenOutOfRange => 1
  | .barCloseOutOfRange => 2
  | .barVwapOutOfRange => 3
  | .barNonPositivePrice => 4
  | .barVolumeInconsistent => 5
  | .tradeNonPositivePrice => 6
  | .tradeNonPositiveSize => 7
  | .timestampRegression => 8
  | .sequenceGap => 9
  | .barVolumeReconstructMismatch => 10
  | .barTradeCountReconstructMismatch => 11
  | .barVwapReconstructMismatch => 12
  | .barOhlcReconstructMismatch => 13
  | .quoteCrossed => 14
  | .quoteLocked => 15
  | .quoteNonPositive => 16
  | .quoteZeroSize => 17
  | .priceBandBreach => 18

def Violation.bit (v : Violation) : UInt32 :=
  1 <<< UInt32.ofNat v.shift

namespace Validator

structure Result where
  flags : UInt32 := 0
  gap : UInt64 := 0
  deriving DecidableEq, Repr

namespace Result

def ok (r : Result) : Bool := decide (r.flags = 0)

def has (r : Result) (v : Violation) : Bool := decide (r.flags &&& v.bit ≠ 0)

/-- The statement `flags |= v` under a condition. -/
def flagIf (r : Result) (c : Bool) (v : Violation) : Result :=
  if c then { r with flags := r.flags ||| v.bit } else r

end Result

def kPriceRelTol : ℚ := 1 / 1000000
def kPriceBandFrac : ℚ := 5 / 100
def kRefEwmaAlpha : ℚ := 2 / 10
def kBandReanchorRun : UInt32 := 3
def kBits : Nat := 12
def kCapacity : Nat := 2 ^ kBits
def kMask : Nat := kCapacity - 1

inductive Stream
  | trade
  | bar
  | quote
  deriving DecidableEq, Repr

open PriceArith (lit ofUInt64 fabs fmax lt le eq)

/-- The state of one symbol. The first five fields are the table's bookkeeping and the
sequencing cursors, then come the price band and the trade accumulator. -/
structure Slot (F : Type) [PriceArith F] where
  key : UInt64 := 0
  lastTs : Stream → UInt64 := fun _ => 0
  lastSeq : UInt64 := 0
  seen : Bool := false
  refPrice : F := lit 0
  refInit : Bool := false
  breachRun : UInt32 := 0
  hasTrades : Bool := false
  accCount : UInt64 := 0
  accVolume : UInt64 := 0
  accPv : F := lit 0
  accOpen : F := lit 0
  accHigh : F := lit 0
  accLow : F := lit 0
  accClose : F := lit 0

variable {F : Type} [PriceArith F]

def approxEqual (a b : F) : Bool :=
  le (fabs (a - b)) (lit kPriceRelTol * fmax (fmax (fabs a) (fabs b)) (lit 1))

def checkSequencing (s : Slot F) (stream : Stream) (ts seq : UInt64) (out : Result) :
    Slot F × Result :=
  let out := out.flagIf (s.lastTs stream ≠ 0 ∧ ts < s.lastTs stream) .timestampRegression
  let out :=
    if s.seen ∧ s.lastSeq + 1 < seq then
      { out.flagIf true .sequenceGap with gap := seq - s.lastSeq - 1 }
    else out
  ({ s with lastTs := Function.update s.lastTs stream ts, seen := true, lastSeq := seq }, out)

def checkPriceBand (s : Slot F) (price : F) (out : Result) : Slot F × Result :=
  if !s.refInit then ({ s with refPrice := price, refInit := true }, out)
  else if lt (lit kPriceBandFrac * s.refPrice) (fabs (price - s.refPrice)) then
    let run := s.breachRun + 1
    let out := out.flagIf true .priceBandBreach
    if kBandReanchorRun ≤ run then ({ s with refPrice := price, breachRun := 0 }, out)
    else ({ s with breachRun := run }, out)
  else
    ({ s with
      breachRun := 0
      refPrice := lit kRefEwmaAlpha * price + (lit 1 - lit kRefEwmaAlpha) * s.refPrice }, out)

def accumulate (s : Slot F) (price : F) (size : UInt64) : Slot F :=
  let s :=
    if !s.hasTrades then
      { s with
        accOpen := price, accHigh := price, accLow := price, accClose := price
        hasTrades := true }
    else
      { s with
        accHigh := if lt s.accHigh price then price else s.accHigh
        accLow := if lt price s.accLow then price else s.accLow
        accClose := price }
  { s with
    accCount := s.accCount + 1
    accVolume := s.accVolume + size
    accPv := s.accPv + price * ofUInt64 size }

def reconcile (s : Slot F) (b : WireBar F) (out : Result) : Slot F × Result :=
  if !s.hasTrades then (s, out)
  else
    let out := out.flagIf (s.accVolume ≠ b.volume) .barVolumeReconstructMismatch
    let out := out.flagIf (s.accCount ≠ b.tradeCount) .barTradeCountReconstructMismatch
    let out :=
      if s.accVolume ≠ 0 then
        out.flagIf (!approxEqual (s.accPv / ofUInt64 s.accVolume) b.vwap)
          .barVwapReconstructMismatch
      else out
    let out := out.flagIf
      (!approxEqual s.accOpen b.openPrice || !approxEqual s.accHigh b.high ||
        !approxEqual s.accLow b.low || !approxEqual s.accClose b.close)
      .barOhlcReconstructMismatch
    ({ s with hasTrades := false, accCount := 0, accVolume := 0, accPv := lit 0 }, out)

end Validator

open Validator (Slot kCapacity kMask kBits)

/-- The table of per-symbol states. -/
structure Validator (F : Type) [PriceArith F] where
  table : Fin kCapacity → Slot F := fun _ => {}

namespace Validator

open PriceArith (lit ofUInt64 fabs fmax lt le eq)

variable {F : Type} [PriceArith F]

/-- Fibonacci hashing: the top bits of a multiple of the key. -/
def homeSlot (key : UInt64) : Fin kCapacity :=
  ⟨((key * 0x9E3779B97F4A7C15) >>> 52).toNat, by
    rw [UInt64.toNat_shiftRight]
    have := (key * 0x9E3779B97F4A7C15).toNat_lt
    show _ >>> 52 < 4096
    rw [Nat.shiftRight_eq_div_pow]
    omega⟩

def nextSlot (idx : Fin kCapacity) : Fin kCapacity :=
  ⟨(idx.val + 1) &&& kMask, Nat.lt_of_le_of_lt Nat.and_le_right (by decide)⟩

/-- The linear probe over `probes` slots from `idx` on; `none` is the full table. -/
def probe (table : Fin kCapacity → Slot F) (key : UInt64) :
    Nat → Fin kCapacity → Option (Fin kCapacity × (Fin kCapacity → Slot F))
  | 0, _ => none
  | probes + 1, idx =>
    let s := table idx
    if s.key = key ∧ s.seen then some (idx, table)
    else if !s.seen then some (idx, Function.update table idx { s with key := key })
    else probe table key probes (nextSlot idx)

def slotFor (v : Validator F) (symbol : Symbol) :
    Option (Fin kCapacity × (Fin kCapacity → Slot F)) :=
  probe v.table (symbolKey symbol) kCapacity (homeSlot (symbolKey symbol))

/-- The stateful half of a check: what it does to the symbol's slot, unless the table is
full and only the stateless result `r` stands. -/
def withSlot (v : Validator F) (symbol : Symbol) (r : Result)
    (f : Slot F → Result → Slot F × Result) : Validator F × Result :=
  match v.slotFor symbol with
  | none => (v, r)
  | some (idx, table) =>
    let (s, r) := f (table idx) r
    ({ v with table := Function.update table idx s }, r)

def validPrice (t : WireTrade F) : Bool := lt (lit 0) t.price
def validSize (t : WireTrade F) : Bool := decide (t.size ≠ 0)

/-- The checks of a trade that need no state. -/
def tradeFlags (t : WireTrade F) : Result :=
  let r : Result := {}
  let r := r.flagIf (!validPrice t) .tradeNonPositivePrice
  r.flagIf (!validSize t) .tradeNonPositiveSize

def tradeState (t : WireTrade F) (s : Slot F) (r : Result) : Slot F × Result :=
  let (s, r) := checkSequencing s .trade t.tsNs t.seq r
  if validPrice t && validSize t then checkPriceBand (accumulate s t.price t.size) t.price r
  else (s, r)

def checkTrade (v : Validator F) (t : WireTrade F) : Validator F × Result :=
  v.withSlot t.symbol (tradeFlags t) (tradeState t)

/-- The checks of a bar that need no state. -/
def barFlags (b : WireBar F) : Result :=
  let r : Result := {}
  let r := r.flagIf (lt b.high b.low) .barLowAboveHigh
  let r := r.flagIf (lt b.openPrice b.low || lt b.high b.openPrice) .barOpenOutOfRange
  let r := r.flagIf (lt b.close b.low || lt b.high b.close) .barCloseOutOfRange
  let r := r.flagIf (lt b.vwap b.low || lt b.high b.vwap) .barVwapOutOfRange
  let r := r.flagIf
    (le b.openPrice (lit 0) || le b.high (lit 0) || le b.low (lit 0) || le b.close (lit 0))
    .barNonPositivePrice
  r.flagIf (decide (b.tradeCount = 0) != decide (b.volume = 0)) .barVolumeInconsistent

def barState (b : WireBar F) (s : Slot F) (r : Result) : Slot F × Result :=
  let (s, r) := checkSequencing s .bar b.startNs b.seq r
  reconcile s b r

def checkBar (v : Validator F) (b : WireBar F) : Validator F × Result :=
  v.withSlot b.symbol (barFlags b) (barState b)

/-- The checks of a quote that need no state. -/
def quoteFlags (q : WireQuote F) : Result :=
  let r : Result := {}
  let r := r.flagIf (le q.bidPrice (lit 0) || le q.askPrice (lit 0)) .quoteNonPositive
  let r := r.flagIf (q.bidSize = 0 ∨ q.askSize = 0) .quoteZeroSize
  if lt q.askPrice q.bidPrice then r.flagIf true .quoteCrossed
  else r.flagIf (eq q.bidPrice q.askPrice) .quoteLocked

def quoteState (q : WireQuote F) (s : Slot F) (r : Result) : Slot F × Result :=
  let (s, r) := checkSequencing s .quote q.tsNs q.seq r
  if s.refInit && lt (lit 0) q.bidPrice && lt (lit 0) q.askPrice then
    let mid := (q.bidPrice + q.askPrice) * lit (1 / 2)
    (s, r.flagIf (lt (lit kPriceBandFrac * s.refPrice) (fabs (mid - s.refPrice))) .priceBandBreach)
  else (s, r)

def checkQuote (v : Validator F) (q : WireQuote F) : Validator F × Result :=
  v.withSlot q.symbol (quoteFlags q) (quoteState q)

def check (v : Validator F) : WireRecord F → Validator F × Result
  | .trade t => v.checkTrade t
  | .bar b => v.checkBar b
  | .quote q => v.checkQuote q

/-- A stream of records through a fresh validator, with the results in order. -/
def run (recs : List (WireRecord F)) : Validator F × List Result :=
  recs.foldl (fun p rec => ((p.1.check rec).1, p.2 ++ [(p.1.check rec).2])) ({}, [])

end Validator

end OhlcvValidator
