import OhlcvValidator.CaptureWriter
import OhlcvValidator.ReplayBench
import OhlcvValidator.ValidatorIsolation

namespace OhlcvValidator

namespace Ingest

open Replay (DoubleBits TradeBody BarBody QuoteBody CaptureWriter)

/-! The parser's types; a `std::string` is its bytes. -/

structure Trade where
  symbol : List UInt8
  tsNs : UInt64 := 0
  tradeId : UInt64 := 0
  price : DoubleBits := 0
  size : UInt64 := 0
  exchange : List UInt8 := []
  tape : List UInt8 := []
  deriving DecidableEq, Repr

structure Bar where
  symbol : List UInt8
  startNs : UInt64 := 0
  openPrice : DoubleBits := 0
  high : DoubleBits := 0
  low : DoubleBits := 0
  close : DoubleBits := 0
  volume : UInt64 := 0
  tradeCount : UInt64 := 0
  vwap : DoubleBits := 0
  deriving DecidableEq, Repr

structure Quote where
  symbol : List UInt8
  tsNs : UInt64 := 0
  bidPrice : DoubleBits := 0
  askPrice : DoubleBits := 0
  bidSize : UInt64 := 0
  askSize : UInt64 := 0
  bidExchange : List UInt8 := []
  askExchange : List UInt8 := []
  tape : List UInt8 := []
  deriving DecidableEq, Repr

/-- The records of one parsed frame. -/
structure ParseResult where
  trades : List Trade := []
  quotes : List Quote := []
  bars : List Bar := []
  deriving DecidableEq, Repr

/-- `strncpy` from the string's `c_str()` into a zeroed field: up to the first NUL,
at most eight bytes. -/
def setSymbol (sym : List UInt8) : Symbol :=
  Vector.ofFn fun i => ((sym.takeWhile (· ≠ 0)).take kSymbolLen).getD i 0

def Trade.toWire (t : Trade) (seq : UInt64) : TradeBody where
  symbol := setSymbol t.symbol
  tsNs := t.tsNs
  seq := seq
  tradeId := t.tradeId
  price := t.price
  size := t.size
  exchange := t.exchange.headD 0
  tape := t.tape.headD 0

def Bar.toWire (b : Bar) (seq : UInt64) : BarBody where
  symbol := setSymbol b.symbol
  startNs := b.startNs
  seq := seq
  openPrice := b.openPrice
  high := b.high
  low := b.low
  close := b.close
  vwap := b.vwap
  volume := b.volume
  tradeCount := b.tradeCount

def Quote.toWire (q : Quote) (seq : UInt64) : QuoteBody where
  symbol := setSymbol q.symbol
  tsNs := q.tsNs
  seq := seq
  bidPrice := q.bidPrice
  askPrice := q.askPrice
  bidSize := q.bidSize
  askSize := q.askSize
  bidExchange := q.bidExchange.headD 0
  askExchange := q.askExchange.headD 0
  tape := q.tape.headD 0

/-- The live session: its validator, the per-symbol counters, the capture, and
the results that the validator has returned so far. -/
structure Session (F : Type) [PriceArith F] where
  validator : Validator F := {}
  nextSeq : List UInt8 → UInt64 := fun _ => 0
  capture : CaptureWriter := CaptureWriter.create true
  results : List Validator.Result := []

namespace Session

variable {F : Type} [PriceArith F] (ofBits : DoubleBits → F)

/-- What the loop does with one parsed record: count it, validate it, capture it.
A record without a symbol is skipped. -/
def process (s : Session F) (symbol : List UInt8) (checked : UInt64 → WireRecord F)
    (wrapped : UInt64 → Replay.WireRecord) : Session F :=
  if symbol.isEmpty then s
  else
    let seq := s.nextSeq symbol + 1
    let (validator, r) := s.validator.check (checked seq)
    { validator := validator
      nextSeq := Function.update s.nextSeq symbol seq
      capture := s.capture.write (wrapped seq)
      results := s.results ++ [r] }

def onTrade (s : Session F) (t : Trade) : Session F :=
  s.process t.symbol (fun seq => .trade ((t.toWire seq).toModel ofBits))
    fun seq => (t.toWire seq).wrap

def onQuote (s : Session F) (q : Quote) : Session F :=
  s.process q.symbol (fun seq => .quote ((q.toWire seq).toModel ofBits))
    fun seq => (q.toWire seq).wrap

def onBar (s : Session F) (b : Bar) : Session F :=
  s.process b.symbol (fun seq => .bar ((b.toWire seq).toModel ofBits))
    fun seq => (b.toWire seq).wrap

def onFrame (s : Session F) (parsed : ParseResult) : Session F :=
  let s := parsed.trades.foldl (onTrade ofBits) s
  let s := parsed.quotes.foldl (onQuote ofBits) s
  parsed.bars.foldl (onBar ofBits) s

def run (frames : List ParseResult) : Session F :=
  frames.foldl (onFrame ofBits) {}

/-- The capture holds records whose replay is the session so far. -/
def Captured (s : Session F) : Prop :=
  ∃ recs, s.capture.Recording recs ∧
    Replay.benchPass ofBits recs = (s.validator, s.results)

variable {ofBits} {s : Session F}

theorem Captured.process (h : s.Captured ofBits) {symbol : List UInt8}
    {checked : UInt64 → WireRecord F} {wrapped : UInt64 → Replay.WireRecord}
    (hwrap : ∀ seq, (wrapped seq).dispatch ofBits = checked seq) :
    (s.process symbol checked wrapped).Captured ofBits := by
  unfold Session.process
  split
  next => exact h
  next =>
    obtain ⟨recs, hrec, hpass⟩ := h
    refine ⟨recs ++ [wrapped (s.nextSeq symbol + 1)], hrec.write _, ?_⟩
    simp only [Replay.benchPass, Validator.run] at hpass ⊢
    rw [List.map_append, List.foldl_append, hpass]
    simp only [List.map_cons, List.map_nil, List.foldl_cons, List.foldl_nil, hwrap]

theorem Captured.foldl {α : Type} {f : Session F → α → Session F}
    (step : ∀ s x, Captured ofBits s → Captured ofBits (f s x)) (xs : List α)
    (h : s.Captured ofBits) : (xs.foldl f s).Captured ofBits :=
  List.foldlRecOn xs f h fun s hs x _ => step s x hs

theorem Captured.onFrame (h : s.Captured ofBits) (parsed : ParseResult) :
    (s.onFrame ofBits parsed).Captured ofBits := by
  unfold Session.onFrame
  apply Captured.foldl fun s b hs => hs.process fun seq => (b.toWire seq).dispatch_wrap ofBits
  apply Captured.foldl fun s q hs => hs.process fun seq => (q.toWire seq).dispatch_wrap ofBits
  apply Captured.foldl fun s t hs => hs.process fun seq => (t.toWire seq).dispatch_wrap ofBits
  exact h

theorem captured_run (ofBits : DoubleBits → F) (frames : List ParseResult) :
    (run ofBits frames).Captured ofBits :=
  Captured.foldl (fun _ parsed hs => hs.onFrame parsed) frames
    ⟨[], CaptureWriter.recording_create, rfl⟩

end Session

/-- A captured session replays as it was validated: the finalized file is
accepted, and the bench's pass over its records returns the live results. -/
theorem live_capture_replays {F : Type} [PriceArith F] (ofBits : DoubleBits → F)
    (frames : List ParseResult)
    (hsize : Replay.kHeaderSize + Replay.kStride *
      (Session.run ofBits frames).results.length < 2 ^ 64) :
    ∃ recs, (Replay.viewReplay
        (some (Session.run ofBits frames).capture.finalize.out.file)).Shows recs ∧
      (Replay.benchPass ofBits recs).2 = (Session.run ofBits frames).results := by
  obtain ⟨recs, hrec, hpass⟩ := Session.captured_run ofBits frames
  have hresults : (Replay.benchPass ofBits recs).2 = (Session.run ofBits frames).results := by
    rw [hpass]
  have hlen : (Session.run ofBits frames).results.length = recs.length := by
    rw [← hresults, Replay.benchPass, Validator.length_run, List.length_map]
  rw [hlen] at hsize
  have hn := Replay.length_lt_of_size_lt hsize
  refine ⟨recs, ?_, hresults⟩
  rw [hrec.finalize.1]
  exact Replay.viewReplay_fileOf hn

/-- A trade, a quote without a symbol and a bar, in two frames. -/
def twoFrames : List ParseResult :=
  [{ trades := [{ symbol := [65], price := 10, size := 3 }], quotes := [{ symbol := [] }] },
    { bars := [{ symbol := [65, 66, 67, 68, 69, 70, 71, 72, 73], volume := 3 }] }]

theorem live_capture_replays_twoFrames :
    ∃ recs, (Replay.viewReplay (some
        (Session.run (fun x => (x.toNat : ℚ)) twoFrames).capture.finalize.out.file)).Shows recs ∧
      (Replay.benchPass (fun x => (x.toNat : ℚ)) recs).2 =
        (Session.run (fun x => (x.toNat : ℚ)) twoFrames).results :=
  live_capture_replays _ twoFrames (by decide +kernel)

end Ingest

end OhlcvValidator
