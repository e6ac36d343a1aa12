import OhlcvValidator.BenchPasses
import OhlcvValidator.JsonLines
import OhlcvValidator.LiveCapture
import OhlcvValidator.Timestamp
import OhlcvValidator.ValidatorFlags

namespace OhlcvValidator

namespace Ingest

open Replay (DoubleBits bumpIf)
open JsonLines (Json Fields decimal appendLines)

structure LiveLabel where
  bit : Violation
  text : String
  deriving DecidableEq, Repr

/-- The checks that are worth showing on a sampled feed. -/
def kLiveLabels : List LiveLabel :=
  [⟨.tradeNonPositivePrice, "trade non-positive price"⟩,
    ⟨.tradeNonPositiveSize, "trade non-positive size"⟩,
    ⟨.priceBandBreach, "price-band outlier"⟩,
    ⟨.barLowAboveHigh, "bar low > high"⟩,
    ⟨.barOpenOutOfRange, "bar open out of [low,high]"⟩,
    ⟨.barCloseOutOfRange, "bar close out of [low,high]"⟩,
    ⟨.barVwapOutOfRange, "bar vwap out of [low,high]"⟩,
    ⟨.barNonPositivePrice, "bar non-positive price"⟩,
    ⟨.barVolumeInconsistent, "bar volume/trade-count inconsistent"⟩,
    ⟨.quoteCrossed, "quote crossed (bid > ask)"⟩,
    ⟨.quoteLocked, "quote locked (bid == ask)"⟩,
    ⟨.quoteNonPositive, "quote non-positive price"⟩,
    ⟨.quoteZeroSize, "quote zero bid/ask size"⟩]

def kSurfacedMask : UInt32 :=
  kLiveLabels.foldl (fun m l => m ||| l.bit.bit) 0

/-- The label is surfaced and set in the flags. -/
def LiveLabel.raised (flags : UInt32) (l : LiveLabel) : Bool :=
  decide (flags &&& kSurfacedMask &&& l.bit.bit ≠ 0)

/-- The names of the surfaced violations, joined by commas. -/
def describe (flags : UInt32) : List UInt8 :=
  kLiveLabels.foldl (fun out l =>
    if l.raised flags then (if out = [] then out else out ++ ascii ", ") ++ ascii l.text else out) []

inductive Kind
  | trade
  | quote
  | bar
  deriving DecidableEq, Repr

def Kind.text : Kind → String
  | .trade => "trade"
  | .quote => "quote"
  | .bar => "bar"

/-- A record that the loop has validated, with the number it was given. -/
structure Validated where
  kind : Kind
  symbol : List UInt8
  tsNs : UInt64
  seq : UInt64
  flags : UInt32
  deriving DecidableEq, Repr

/-- The object of one line of the violations log. The timestamp is a string. -/
def violationObject (e : Validated) : Fields :=
  let checks := (kLiveLabels.filter (LiveLabel.raised e.flags)).map fun l => ascii l.text
  [(ascii "kind", .string (ascii e.kind.text)),
    (ascii "symbol", .string e.symbol),
    (ascii "ts", .string (decimal e.tsNs.toNat)),
    (ascii "seq", .number e.seq),
    (ascii "checks", .strings checks)]

/-- One line of the violations log, unless the library throws. -/
def violationJson (json : Json) (e : Validated) : Option (List UInt8) :=
  json.dump (violationObject e)

/-- The counters of the session and what it has written: the flag lines and the log, with what the
log file had in it when it was opened to append, if it is open. -/
structure Report where
  counts : List UInt64 := List.replicate kLiveLabels.length 0
  nTrades : UInt64 := 0
  nQuotes : UInt64 := 0
  nBars : UInt64 := 0
  nFlagged : UInt64 := 0
  flagLines : List (List UInt8) := []
  vlog : Option (List UInt8) := none
  deriving DecidableEq, Repr

def Report.count (r : Report) : Kind → Report
  | .trade => { r with nTrades := r.nTrades + 1 }
  | .quote => { r with nQuotes := r.nQuotes + 1 }
  | .bar => { r with nBars := r.nBars + 1 }

/-- Tally the surfaced violations and, if there is one, write the flag line and, if it is open, the
log. A throw leaves the tallies and the flag line behind. -/
def Report.record (json : Json) (r : Report) (e : Validated) : Except Report Report :=
  let r :=
    { r with
      counts := List.zipWith (fun (l : LiveLabel) n => bumpIf (l.raised e.flags) n) kLiveLabels
        r.counts }
  if e.flags &&& kSurfacedMask ≠ 0 then
    let r :=
      { r with
        nFlagged := r.nFlagged + 1
        flagLines := r.flagLines ++ [ascii "  !! " ++ e.symbol ++ ascii ": " ++ describe e.flags] }
    match r.vlog with
    | none => .ok r
    | some log =>
      match violationJson json e with
      | none => .error r
      | some line => .ok { r with vlog := some (appendLines log [line]) }
  else .ok r

/-- The session with its report, and the records it has validated so far. -/
structure Monitor (F : Type) [PriceArith F] where
  session : Session F := {}
  report : Report := {}
  heard : List Validated := []

namespace Monitor

variable {F : Type} [PriceArith F] (ofBits : DoubleBits → F) (json : Json)

/-- The body of the three loops over a frame. A record whose line throws is validated and not
captured, and the session is over. -/
def hear (m : Monitor F) (kind : Kind) (symbol : List UInt8) (tsNs : UInt64)
    (checked : UInt64 → WireRecord F) (wrapped : UInt64 → Replay.WireRecord) :
    Except (Monitor F) (Monitor F) :=
  if symbol.isEmpty then .ok m
  else
    let seq := m.session.nextSeq symbol + 1
    let r := (m.session.validator.check (checked seq)).2
    let e : Validated := ⟨kind, symbol, tsNs, seq, r.flags⟩
    let session := m.session.process symbol checked wrapped
    match (m.report.count kind).record json e with
    | .ok report => .ok { session := session, report := report, heard := m.heard ++ [e] }
    | .error report =>
      .error
        { session := { session with capture := m.session.capture }
          report := report
          heard := m.heard ++ [e] }

def onTrade (m : Monitor F) (t : Trade) : Except (Monitor F) (Monitor F) :=
  m.hear json .trade t.symbol t.tsNs (fun seq => .trade ((t.toWire seq).toModel ofBits))
    fun seq => (t.toWire seq).wrap

def onQuote (m : Monitor F) (q : Quote) : Except (Monitor F) (Monitor F) :=
  m.hear json .quote q.symbol q.tsNs (fun seq => .quote ((q.toWire seq).toModel ofBits))
    fun seq => (q.toWire seq).wrap

def onBar (m : Monitor F) (b : Bar) : Except (Monitor F) (Monitor F) :=
  m.hear json .bar b.symbol b.startNs (fun seq => .bar ((b.toWire seq).toModel ofBits))
    fun seq => (b.toWire seq).wrap

def onFrame (m : Monitor F) (parsed : ParseResult) : Except (Monitor F) (Monitor F) := do
  let m ← parsed.trades.foldlM (onTrade ofBits json) m
  let m ← parsed.quotes.foldlM (onQuote ofBits json) m
  parsed.bars.foldlM (onBar ofBits json) m

/-- The frames of a session whose log, if any, had this text. -/
def run (log : Option (List UInt8)) (frames : List ParseResult) :
    Except (Monitor F) (Monitor F) :=
  frames.foldlM (onFrame ofBits json) { report := { vlog := log } }

end Monitor

end Ingest

end OhlcvValidator
