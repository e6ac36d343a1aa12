import OhlcvValidator.ReplayFormat
import OhlcvValidator.Validator

namespace OhlcvValidator

namespace Replay

variable {F : Type} (ofBits : DoubleBits → F)

/-- What the validator reads of a `WireTrade`. -/
def TradeBody.toModel (t : TradeBody) : WireTrade F where
  symbol := t.symbol
  tsNs := t.tsNs
  seq := t.seq
  price := ofBits t.price
  size := t.size

def BarBody.toModel (b : BarBody) : WireBar F where
  symbol := b.symbol
  startNs := b.startNs
  seq := b.seq
  openPrice := ofBits b.openPrice
  high := ofBits b.high
  low := ofBits b.low
  close := ofBits b.close
  vwap := ofBits b.vwap
  volume := b.volume
  tradeCount := b.tradeCount

/-- What the validator reads of a `WireQuote`. -/
def QuoteBody.toModel (q : QuoteBody) : WireQuote F where
  symbol := q.symbol
  tsNs := q.tsNs
  seq := q.seq
  bidPrice := ofBits q.bidPrice
  askPrice := ofBits q.askPrice
  bidSize := q.bidSize
  askSize := q.askSize

/-- The benches' dispatch on the type byte: whatever is neither a trade nor a bar
goes to the quote check. -/
def WireRecord.dispatch (r : WireRecord) : OhlcvValidator.WireRecord F :=
  if r.type = RecordType.Trade.toByte then .trade (r.trade.toModel ofBits)
  else if r.type = RecordType.Bar.toByte then .bar (r.bar.toModel ofBits)
  else .quote (r.quote.toModel ofBits)

/-- One pass of the bench: the records through a fresh validator. -/
def benchPass [PriceArith F] (recs : List WireRecord) : Validator F × List Validator.Result :=
  Validator.run (recs.map (WireRecord.dispatch ofBits))

section Wrap

/-- A zeroed record with its type byte and the members of its union's structure assigned. -/
def wrapBytes (type : RecordType) (members : List (Nat × List UInt8)) : List UInt8 :=
  putFields (List.replicate kStride 0)
    ((CType.offsetOf wireRecord 0, byteBytes type.toByte) :: members)

def TradeBody.members (t : TradeBody) : List (Nat × List UInt8) :=
  [(WireRecord.memberOffset wireTrade 0, t.symbol.toList),
    (WireRecord.memberOffset wireTrade 1, u64Bytes t.tsNs),
    (WireRecord.memberOffset wireTrade 2, u64Bytes t.seq),
    (WireRecord.memberOffset wireTrade 3, u64Bytes t.tradeId),
    (WireRecord.memberOffset wireTrade 4, u64Bytes t.price),
    (WireRecord.memberOffset wireTrade 5, u64Bytes t.size),
    (WireRecord.memberOffset wireTrade 6, byteBytes t.exchange),
    (WireRecord.memberOffset wireTrade 7, byteBytes t.tape)]

def BarBody.members (b : BarBody) : List (Nat × List UInt8) :=
  [(WireRecord.memberOffset wireBar 0, b.symbol.toList),
    (WireRecord.memberOffset wireBar 1, u64Bytes b.startNs),
    (WireRecord.memberOffset wireBar 2, u64Bytes b.seq),
    (WireRecord.memberOffset wireBar 3, u64Bytes b.openPrice),
    (WireRecord.memberOffset wireBar 4, u64Bytes b.high),
    (WireRecord.memberOffset wireBar 5, u64Bytes b.low),
    (WireRecord.memberOffset wireBar 6, u64Bytes b.close),
    (WireRecord.memberOffset wireBar 7, u64Bytes b.vwap),
    (WireRecord.memberOffset wireBar 8, u64Bytes b.volume),
    (WireRecord.memberOffset wireBar 9, u64Bytes b.tradeCount)]

def QuoteBody.members (q : QuoteBody) : List (Nat × List UInt8) :=
  [(WireRecord.memberOffset wireQuote 0, q.symbol.toList),
    (WireRecord.memberOffset wireQuote 1, u64Bytes q.tsNs),
    (WireRecord.memberOffset wireQuote 2, u64Bytes q.seq),
    (WireRecord.memberOffset wireQuote 3, u64Bytes q.bidPrice),
    (WireRecord.memberOffset wireQuote 4, u64Bytes q.askPrice),
    (WireRecord.memberOffset wireQuote 5, u64Bytes q.bidSize),
    (WireRecord.memberOffset wireQuote 6, u64Bytes q.askSize),
    (WireRecord.memberOffset wireQuote 7, byteBytes q.bidExchange),
    (WireRecord.memberOffset wireQuote 8, byteBytes q.askExchange),
    (WireRecord.memberOffset wireQuote 9, byteBytes q.tape)]

/-- The members lie in the record's body, clear of each other. -/
structure Placed (members : List (Nat × List UInt8)) : Prop where
  after_type : ∀ f ∈ members, 1 ≤ f.1
  inside : ∀ f ∈ members, f.1 + f.2.length ≤ kStride
  apart : members.Pairwise Apart

section Fields

variable {members : List (Nat × List UInt8)} (h : Placed members) (type : RecordType)
include h

theorem Placed.fields_inside :
    ∀ f ∈ (CType.offsetOf wireRecord 0, byteBytes type.toByte) :: members,
      f.1 + f.2.length ≤ (List.replicate kStride (0 : UInt8)).length := by
  rw [List.length_replicate, List.forall_mem_cons]
  exact ⟨by simp only [byteBytes, List.length_singleton]; decide, h.inside⟩

theorem Placed.length_wrapBytes : (wrapBytes type members).length = kStride := by
  rw [wrapBytes, length_putFields (h.fields_inside type), List.length_replicate]

theorem Placed.slice_wrapBytes :
    ∀ f ∈ (CType.offsetOf wireRecord 0, byteBytes type.toByte) :: members,
      slice (wrapBytes type members) f.1 f.2.length = f.2 := by
  intro f hf
  refine slice_putFields (h.fields_inside type) ?_ hf
  refine List.pairwise_cons.mpr ⟨fun g hg => Or.inl ?_, h.apart⟩
  exact h.after_type g hg

end Fields

/-- Placement is a matter of offsets and lengths only. -/
theorem Placed.of_shape (shape : List (Nat × Nat)) {members : List (Nat × List UInt8)}
    (hshape : members.map (fun f => (f.1, f.2.length)) = shape)
    (hin : ∀ f ∈ shape, 1 ≤ f.1 ∧ f.1 + f.2 ≤ kStride)
    (hapart : shape.Pairwise fun f g => f.1 + f.2 ≤ g.1) : Placed members := by
  subst hshape
  rw [List.forall_mem_map] at hin
  exact ⟨fun f hf => (hin f hf).1, fun f hf => (hin f hf).2,
    (List.pairwise_map.mp hapart).imp Or.inl⟩

theorem TradeBody.placed (t : TradeBody) : Placed t.members := by
  apply Placed.of_shape [(8, 8), (16, 8), (24, 8), (32, 8), (40, 8), (48, 8), (56, 1),
    (57, 1)] _ (by decide) (by decide)
  simp only [members, List.map, length_symbol, length_u64Bytes, byteBytes, List.length_singleton]
  rfl

theorem BarBody.placed (b : BarBody) : Placed b.members := by
  apply Placed.of_shape [(8, 8), (16, 8), (24, 8), (32, 8), (40, 8), (48, 8), (56, 8),
    (64, 8), (72, 8), (80, 8)] _ (by decide) (by decide)
  simp only [members, List.map, length_symbol, length_u64Bytes]
  rfl

theorem QuoteBody.placed (q : QuoteBody) : Placed q.members := by
  apply Placed.of_shape [(8, 8), (16, 8), (24, 8), (32, 8), (40, 8), (48, 8), (56, 8),
    (64, 1), (65, 1), (66, 1)] _ (by decide) (by decide)
  simp only [members, List.map, length_symbol, length_u64Bytes, byteBytes, List.length_singleton]
  rfl

def TradeBody.wrap (t : TradeBody) : WireRecord :=
  ⟨wrapBytes .Trade t.members, t.placed.length_wrapBytes .Trade⟩

def BarBody.wrap (b : BarBody) : WireRecord :=
  ⟨wrapBytes .Bar b.members, b.placed.length_wrapBytes .Bar⟩

def QuoteBody.wrap (q : QuoteBody) : WireRecord :=
  ⟨wrapBytes .Quote q.members, q.placed.length_wrapBytes .Quote⟩

/-- A wrapped trade reads back as a trade with the same members. -/
theorem TradeBody.read_wrap (t : TradeBody) :
    t.wrap.type = RecordType.Trade.toByte ∧ t.wrap.trade = t := by
  have hfield := t.placed.slice_wrapBytes .Trade
  simp only [members, List.forall_mem_cons, length_symbol, length_u64Bytes, byteBytes,
    List.length_singleton] at hfield
  obtain ⟨htype, hsymbol, hts, hseq, hid, hprice, hsize, hexchange, htape, _⟩ := hfield
  refine ⟨byteAt_eq htype, ?_⟩
  simp only [WireRecord.trade, wrap, members, byteBytes, symbolAt_eq hsymbol, u64At_eq hts,
    u64At_eq hseq, u64At_eq hid, u64At_eq hprice, u64At_eq hsize, byteAt_eq hexchange,
    byteAt_eq htape]

theorem BarBody.read_wrap (b : BarBody) :
    b.wrap.type = RecordType.Bar.toByte ∧ b.wrap.bar = b := by
  have hfield := b.placed.slice_wrapBytes .Bar
  simp only [members, List.forall_mem_cons, length_symbol, length_u64Bytes, byteBytes,
    List.length_singleton] at hfield
  obtain ⟨htype, hsymbol, hstart, hseq, hopen, hhigh, hlow, hclose, hvwap, hvolume, hcount, _⟩ :=
    hfield
  refine ⟨byteAt_eq htype, ?_⟩
  simp only [WireRecord.bar, wrap, members, symbolAt_eq hsymbol, u64At_eq hstart, u64At_eq hseq,
    u64At_eq hopen, u64At_eq hhigh, u64At_eq hlow, u64At_eq hclose, u64At_eq hvwap,
    u64At_eq hvolume, u64At_eq hcount]

theorem QuoteBody.read_wrap (q : QuoteBody) :
    q.wrap.type = RecordType.Quote.toByte ∧ q.wrap.quote = q := by
  have hfield := q.placed.slice_wrapBytes .Quote
  simp only [members, List.forall_mem_cons, length_symbol, length_u64Bytes, byteBytes,
    List.length_singleton] at hfield
  obtain ⟨htype, hsymbol, hts, hseq, hbid, hask, hbids, hasks, hbidx, haskx, htape, _⟩ := hfield
  refine ⟨byteAt_eq htype, ?_⟩
  simp only [WireRecord.quote, wrap, members, byteBytes, symbolAt_eq hsymbol, u64At_eq hts,
    u64At_eq hseq, u64At_eq hbid, u64At_eq hask, u64At_eq hbids, u64At_eq hasks,
    byteAt_eq hbidx, byteAt_eq haskx, byteAt_eq htape]

/-! What the bench checks of a wrapped structure is the structure itself. -/

theorem TradeBody.dispatch_wrap (t : TradeBody) :
    t.wrap.dispatch ofBits = .trade (t.toModel ofBits) := by
  rw [WireRecord.dispatch, if_pos t.read_wrap.1, t.read_wrap.2]

theorem BarBody.dispatch_wrap (b : BarBody) :
    b.wrap.dispatch ofBits = .bar (b.toModel ofBits) := by
  have hne : ¬b.wrap.type = RecordType.Trade.toByte := by
    rw [b.read_wrap.1]
    decide
  rw [WireRecord.dispatch, if_neg hne, if_pos b.read_wrap.1, b.read_wrap.2]

theorem QuoteBody.dispatch_wrap (q : QuoteBody) :
    q.wrap.dispatch ofBits = .quote (q.toModel ofBits) := by
  have htrade : ¬q.wrap.type = RecordType.Trade.toByte := by
    rw [q.read_wrap.1]
    decide
  have hbar : ¬q.wrap.type = RecordType.Bar.toByte := by
    rw [q.read_wrap.1]
    decide
  rw [WireRecord.dispatch, if_neg htrade, if_neg hbar, q.read_wrap.2]

end Wrap

end Replay

end OhlcvValidator
