import OhlcvValidator.ByteLayout
import OhlcvValidator.WireRecords

namespace OhlcvValidator

namespace Replay

/-- The bits of a `double`, which files and structures only ever copy. -/
abbrev DoubleBits := UInt64

section Members

variable (bs : List UInt8) (off : Nat)

-- Reading a member of a little-endian host's memory, at its offset.

def byteAt : UInt8 :=
  (slice bs off 1).headD 0

def u32At : UInt32 :=
  UInt32.ofNat (leNat (slice bs off 4))

def u64At : UInt64 :=
  UInt64.ofNat (leNat (slice bs off 8))

def symbolAt : Symbol :=
  Vector.ofFn fun i => (slice bs off kSymbolLen).getD i 0

def byteBytes (x : UInt8) : List UInt8 := [x]

def u32Bytes (x : UInt32) : List UInt8 := leBytes 4 x.toNat

def u64Bytes (x : UInt64) : List UInt8 := leBytes 8 x.toNat

variable {bs off}

@[simp] theorem length_u64Bytes (x : UInt64) : (u64Bytes x).length = 8 := length_leBytes 8 _

theorem length_symbol (x : Symbol) : x.toList.length = 8 := Vector.length_toList

theorem byteAt_eq {x : UInt8} (h : slice bs off 1 = byteBytes x) : byteAt bs off = x := by
  simp [byteAt, h, byteBytes]

theorem u32At_eq {x : UInt32} (h : slice bs off 4 = u32Bytes x) : u32At bs off = x := by
  have hlt : x.toNat < 256 ^ 4 := x.toNat_lt
  rw [u32At, h, u32Bytes, leNat_leBytes hlt, UInt32.ofNat_toNat]

theorem u64At_eq {x : UInt64} (h : slice bs off 8 = u64Bytes x) : u64At bs off = x := by
  have hlt : x.toNat < 256 ^ 8 := x.toNat_lt
  rw [u64At, h, u64Bytes, leNat_leBytes hlt, UInt64.ofNat_toNat]

theorem symbolAt_eq {x : Symbol} (h : slice bs off 8 = x.toList) : symbolAt bs off = x := by
  apply Vector.ext
  intro i hi
  simp only [symbolAt, Vector.getElem_ofFn]
  change (slice bs off 8).getD i 0 = _
  rw [h, List.getD_eq_getElem _ _ (by simpa using hi), Vector.getElem_toList]

end Members

def kMagic : UInt32 := 0x564C484F

def kVersion : UInt32 := 2

structure FileHeader where
  magic : UInt32
  version : UInt32
  recordCount : UInt64
  deriving DecidableEq, Repr

inductive RecordType
  | Trade
  | Bar
  | Quote
  deriving DecidableEq, Repr

def RecordType.toByte : RecordType → UInt8
  | .Trade => 0
  | .Bar => 1
  | .Quote => 2

/-! The structures as declared; the offsets of their members follow from the declarations. -/

def cChar : CType := ⟨1, 1⟩

def cChars (n : Nat) : CType := ⟨n, 1⟩

def cU32 : CType := ⟨4, 4⟩

def cU64 : CType := ⟨8, 8⟩

def cDouble : CType := ⟨8, 8⟩

def fileHeader : List CType :=
  [cU32, cU32, cU64]

def wireTrade : List CType :=
  [cChars kSymbolLen, cU64, cU64, cU64, cDouble, cU64, cChar, cChar, cChars 14]

def wireBar : List CType :=
  [cChars kSymbolLen, cU64, cU64, cDouble, cDouble, cDouble, cDouble, cDouble, cU64, cU64]

def wireQuote : List CType :=
  [cChars kSymbolLen, cU64, cU64, cDouble, cDouble, cU64, cU64, cChar, cChar, cChar, cChars 5]

def wireRecord : List CType :=
  [cChar, cChars 7, .union [.struct wireTrade, .struct wireBar, .struct wireQuote]]

/-- The bytes of the header on disk. -/
def kHeaderSize : Nat := (CType.struct fileHeader).size

/-- The bytes of a record on disk. -/
def kStride : Nat := (CType.struct wireRecord).size

example : kHeaderSize = 16 ∧ kStride = 88 ∧ (CType.struct wireTrade).size = 64 ∧
    (CType.struct wireBar).size = 80 ∧ (CType.struct wireQuote).size = 64 := by decide

def FileHeader.bytes (h : FileHeader) : List UInt8 :=
  u32Bytes h.magic ++ u32Bytes h.version ++ u64Bytes h.recordCount

def FileHeader.read (bs : List UInt8) : FileHeader where
  magic := u32At bs (CType.offsetOf fileHeader 0)
  version := u32At bs (CType.offsetOf fileHeader 1)
  recordCount := u64At bs (CType.offsetOf fileHeader 2)

@[simp] theorem FileHeader.length_bytes (h : FileHeader) : h.bytes.length = kHeaderSize := by
  simp [FileHeader.bytes, u32Bytes, u64Bytes]
  decide

theorem FileHeader.read_bytes (h : FileHeader) (rest : List UInt8) :
    FileHeader.read (h.bytes ++ rest) = h := by
  have hmagic : slice (h.bytes ++ rest) 0 4 = u32Bytes h.magic := by
    simp [FileHeader.bytes, slice, u32Bytes]
  have hversion : slice (h.bytes ++ rest) 4 4 = u32Bytes h.version := by
    simp [FileHeader.bytes, slice, u32Bytes]
  have hcount : slice (h.bytes ++ rest) 8 8 = u64Bytes h.recordCount := by
    simp [FileHeader.bytes, slice, u32Bytes, u64Bytes, List.drop_append, List.take_append]
  have h1 : CType.offsetOf fileHeader 0 = 0 ∧ CType.offsetOf fileHeader 1 = 4 ∧
    CType.offsetOf fileHeader 2 = 8 := by decide
  simp only [FileHeader.read, h1, u32At_eq hmagic, u32At_eq hversion, u64At_eq hcount]

/-- A record as it lies in memory and on disk: its bytes, which its type byte says how to read. -/
structure WireRecord where
  bytes : List UInt8
  length_bytes : bytes.length = kStride
  deriving DecidableEq, Repr

/-- A record whose bytes are all the same. -/
def fill (b : UInt8) : WireRecord :=
  ⟨List.replicate kStride b, List.length_replicate⟩

/-- A `WireTrade`, without its padding. -/
structure TradeBody where
  symbol : Symbol
  tsNs : UInt64
  seq : UInt64
  tradeId : UInt64
  price : DoubleBits
  size : UInt64
  exchange : UInt8
  tape : UInt8
  deriving DecidableEq, Repr

structure BarBody where
  symbol : Symbol
  startNs : UInt64
  seq : UInt64
  openPrice : DoubleBits
  high : DoubleBits
  low : DoubleBits
  close : DoubleBits
  vwap : DoubleBits
  volume : UInt64
  tradeCount : UInt64
  deriving DecidableEq, Repr

/-- A `WireQuote`, without its padding. -/
structure QuoteBody where
  symbol : Symbol
  tsNs : UInt64
  seq : UInt64
  bidPrice : DoubleBits
  askPrice : DoubleBits
  bidSize : UInt64
  askSize : UInt64
  bidExchange : UInt8
  askExchange : UInt8
  tape : UInt8
  deriving DecidableEq, Repr

namespace WireRecord

variable (r : WireRecord)

def type : UInt8 :=
  byteAt r.bytes (CType.offsetOf wireRecord 0)

/-- The offset in a record of a member of its union's structure. -/
def memberOffset (members : List CType) (i : Nat) : Nat :=
  CType.offsetOf wireRecord 2 + CType.offsetOf members i

/-- The union read as a trade. -/
def trade : TradeBody where
  symbol := symbolAt r.bytes (memberOffset wireTrade 0)
  tsNs := u64At r.bytes (memberOffset wireTrade 1)
  seq := u64At r.bytes (memberOffset wireTrade 2)
  tradeId := u64At r.bytes (memberOffset wireTrade 3)
  price := u64At r.bytes (memberOffset wireTrade 4)
  size := u64At r.bytes (memberOffset wireTrade 5)
  exchange := byteAt r.bytes (memberOffset wireTrade 6)
  tape := byteAt r.bytes (memberOffset wireTrade 7)

/-- The union read as a bar. -/
def bar : BarBody where
  symbol := symbolAt r.bytes (memberOffset wireBar 0)
  startNs := u64At r.bytes (memberOffset wireBar 1)
  seq := u64At r.bytes (memberOffset wireBar 2)
  openPrice := u64At r.bytes (memberOffset wireBar 3)
  high := u64At r.bytes (memberOffset wireBar 4)
  low := u64At r.bytes (memberOffset wireBar 5)
  close := u64At r.bytes (memberOffset wireBar 6)
  vwap := u64At r.bytes (memberOffset wireBar 7)
  volume := u64At r.bytes (memberOffset wireBar 8)
  tradeCount := u64At r.bytes (memberOffset wireBar 9)

/-- The union read as a quote. -/
def quote : QuoteBody where
  symbol := symbolAt r.bytes (memberOffset wireQuote 0)
  tsNs := u64At r.bytes (memberOffset wireQuote 1)
  seq := u64At r.bytes (memberOffset wireQuote 2)
  bidPrice := u64At r.bytes (memberOffset wireQuote 3)
  askPrice := u64At r.bytes (memberOffset wireQuote 4)
  bidSize := u64At r.bytes (memberOffset wireQuote 5)
  askSize := u64At r.bytes (memberOffset wireQuote 6)
  bidExchange := byteAt r.bytes (memberOffset wireQuote 7)
  askExchange := byteAt r.bytes (memberOffset wireQuote 8)
  tape := byteAt r.bytes (memberOffset wireQuote 9)

end WireRecord

/-- A view of a mapped file: the bytes that `records` points at, and how many
records of them the header promises. -/
structure ReplayView where
  records : List UInt8 := []
  count : UInt64 := 0
  error : Option String := none
  deriving DecidableEq, Repr

/-- Dereference a record; there is none past the end of the mapping. -/
def ReplayView.record (v : ReplayView) (i : Nat) : Option WireRecord :=
  if h : i * kStride + kStride ≤ v.records.length then
    some ⟨slice v.records (i * kStride) kStride, length_slice h⟩
  else none

/-- Check a mapped file before any record is read; a null mapping has no bytes. -/
def viewReplay (base : Option (List UInt8)) : ReplayView :=
  match base with
  | none => { error := some "truncated header (file smaller than 16 bytes)" }
  | some bs =>
    if bs.length < kHeaderSize then
      { error := some "truncated header (file smaller than 16 bytes)" }
    else
      let hdr := FileHeader.read bs
      if hdr.magic ≠ kMagic then { error := some "bad magic: not a replay file" }
      else if hdr.version ≠ kVersion then
        { error := some "unsupported format version (reader supports v2)" }
      -- divided, not multiplied: a hostile count must not wrap past the check
      else if (bs.length - kHeaderSize) / kStride < hdr.recordCount.toNat then
        { error := some "record_count exceeds file size (truncated or corrupt)" }
      else { records := bs.drop kHeaderSize, count := hdr.recordCount }

/-- The view is usable and shows exactly these records. -/
def ReplayView.Shows (v : ReplayView) (recs : List WireRecord) : Prop :=
  v.error = none ∧ v.count.toNat = recs.length ∧ ∀ i < recs.length, v.record i = recs[i]?

instance (v : ReplayView) (recs : List WireRecord) : Decidable (v.Shows recs) :=
  inferInstanceAs (Decidable (_ ∧ _ ∧ _))

/-- The file that holds these records and says so. -/
def fileOf (recs : List WireRecord) : List UInt8 :=
  FileHeader.bytes ⟨kMagic, kVersion, UInt64.ofNat recs.length⟩ ++
    (recs.map WireRecord.bytes).flatten

section

variable {recs : List WireRecord}

theorem length_body (recs : List WireRecord) :
    (recs.map WireRecord.bytes).flatten.length = kStride * recs.length := by
  rw [length_flatten_rows, List.length_map]
  intro bs hbs
  obtain ⟨r, _, rfl⟩ := List.mem_map.mp hbs
  exact r.length_bytes

theorem slice_body {i : Nat} (hi : i < recs.length) :
    slice (recs.map WireRecord.bytes).flatten (i * kStride) kStride = recs[i].bytes := by
  rw [slice_flatten _ (by simpa using hi), List.getElem_map]
  intro bs hbs
  obtain ⟨r, _, rfl⟩ := List.mem_map.mp hbs
  exact r.length_bytes

/-- What `viewReplay` makes of a file with a good header. -/
theorem viewReplay_header (count : UInt64) (body : List UInt8) :
    viewReplay (some (FileHeader.bytes ⟨kMagic, kVersion, count⟩ ++ body)) =
      if body.length / kStride < count.toNat then
        { error := some "record_count exceeds file size (truncated or corrupt)" }
      else { records := body, count := count } := by
  have hlen := FileHeader.length_bytes ⟨kMagic, kVersion, count⟩
  have hdrop : (FileHeader.bytes ⟨kMagic, kVersion, count⟩ ++ body).drop kHeaderSize = body := by
    rw [← hlen, List.drop_left]
  simp only [viewReplay, FileHeader.read_bytes, List.length_append, hlen, hdrop, ne_eq,
    not_true_eq_false, if_false, Nat.add_sub_cancel_left, Nat.not_lt.mpr (Nat.le_add_right _ _)]

theorem record_body {v : ReplayView} (hv : v.records = (recs.map WireRecord.bytes).flatten)
    {i : Nat} (hi : i < recs.length) : v.record i = recs[i]? := by
  have hin : i * kStride + kStride ≤ v.records.length := by
    rw [hv, length_body, ← Nat.succ_mul, Nat.mul_comm]
    exact Nat.mul_le_mul_left _ hi
  have hslice : slice v.records (i * kStride) kStride = recs[i].bytes := by rw [hv, slice_body hi]
  rw [ReplayView.record, dif_pos hin, List.getElem?_eq_getElem hi]
  simp only [hslice]

/-- A file whose size is a word has no more records than a word counts. -/
theorem length_lt_of_size_lt {n : Nat} (h : kHeaderSize + kStride * n < 2 ^ 64) : n < 2 ^ 64 := by
  have hstride : kStride = 88 := by decide
  rw [hstride] at h
  omega

theorem viewReplay_fileOf (hn : recs.length < 2 ^ 64) :
    (viewReplay (some (fileOf recs))).Shows recs := by
  have hnat : (UInt64.ofNat recs.length).toNat = recs.length :=
    UInt64.toNat_ofNat_of_lt' (by simpa using hn)
  have hstride : 0 < kStride := by decide
  rw [fileOf, viewReplay_header, length_body, hnat, Nat.mul_div_cancel_left _ hstride,
    if_neg (Nat.lt_irrefl _)]
  exact ⟨rfl, hnat, fun i hi => record_body rfl hi⟩

end

end Replay

end OhlcvValidator
