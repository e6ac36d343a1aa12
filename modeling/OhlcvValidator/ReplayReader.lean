import OhlcvValidator.ReplayFormat

namespace OhlcvValidator

namespace Replay

/-! The Python reader. Integers are unbounded there; `HEADER_SIZE`, the stride,
the magic number and the field offsets are its own transcriptions. -/

namespace Py

def headerSize : Nat := 16

def recordStride : Nat := 88

def magic : UInt32 := 0x564C484F

def version : UInt32 := 2

def typeTrade : UInt8 := 0

def typeBar : UInt8 := 1

def typeQuote : UInt8 := 2

/-- A `ValueError` of the reader, with the values its text shows. -/
inductive ReadError
  | truncatedHeader (length : Nat)
  | badMagic (found : UInt32)
  | badVersion (found : UInt32)
  | badBody (length count : Nat)
  deriving DecidableEq, Repr

/-- Upper-case hexadecimal, filled with zeros up to eight digits. -/
def hex8 (n : Nat) : String :=
  let digits := (Nat.toDigits 16 n).map Char.toUpper
  String.ofList (List.replicate (8 - digits.length) '0' ++ digits)

def ReadError.message (path : String) : ReadError → String
  | .truncatedHeader length => path ++ ": truncated header (" ++ toString length ++ " bytes)"
  | .badMagic found =>
    path ++ ": bad magic 0x" ++ hex8 found.toNat ++ " (want 0x" ++ hex8 magic.toNat ++ ")"
  | .badVersion found =>
    path ++ ": version " ++ toString found.toNat ++ " (reader supports " ++
      toString version.toNat ++ ")"
  | .badBody length count =>
    path ++ ": body is " ++ toString length ++ " bytes, expected " ++
      toString (count * recordStride) ++ " (" ++ toString count ++ " records x " ++
      toString recordStride ++
      "); stride mismatch -- C++ wire layout and Python dtypes disagree"

/-- An element of a structured array: the leading type byte and the other fields. -/
structure Row (β : Type) where
  type : UInt8
  body : β
  deriving DecidableEq, Repr

def dtTrade (row : List UInt8) : Row TradeBody where
  type := byteAt row 0
  body :=
    { symbol := symbolAt row 8
      tsNs := u64At row 16
      seq := u64At row 24
      tradeId := u64At row 32
      price := u64At row 40
      size := u64At row 48
      exchange := byteAt row 56
      tape := byteAt row 57 }

def dtBar (row : List UInt8) : Row BarBody where
  type := byteAt row 0
  body :=
    { symbol := symbolAt row 8
      startNs := u64At row 16
      seq := u64At row 24
      openPrice := u64At row 32
      high := u64At row 40
      low := u64At row 48
      close := u64At row 56
      vwap := u64At row 64
      volume := u64At row 72
      tradeCount := u64At row 80 }

def dtQuote (row : List UInt8) : Row QuoteBody where
  type := byteAt row 0
  body :=
    { symbol := symbolAt row 8
      tsNs := u64At row 16
      seq := u64At row 24
      bidPrice := u64At row 32
      askPrice := u64At row 40
      bidSize := u64At row 48
      askSize := u64At row 56
      bidExchange := byteAt row 64
      askExchange := byteAt row 65
      tape := byteAt row 66 }

structure ReplayData where
  trades : List (Row TradeBody)
  bars : List (Row BarBody)
  quotes : List (Row QuoteBody)
  recordCount : Nat
  deriving DecidableEq, Repr

/-- The checks of the reader: the header's count and the body's rows. -/
def readRows (file : List UInt8) : Except ReadError (Nat × List (List UInt8)) :=
  let header := file.take headerSize
  if header.length < headerSize then .error (.truncatedHeader header.length)
  else
    let count := (u64At header 8).toNat
    let body := file.drop headerSize
    if u32At header 0 ≠ magic then .error (.badMagic (u32At header 0))
    else if u32At header 4 ≠ version then .error (.badVersion (u32At header 4))
    else if body.length ≠ count * recordStride then .error (.badBody body.length count)
    else .ok (count, rows recordStride body)

/-- The elements at which the mask holds. -/
def masked {β : Type} (xs : List β) (types : List UInt8) (type : UInt8) : List β :=
  (xs.zip types).filterMap fun x => if x.2 = type then some x.1 else none

def readReplay (file : List UInt8) : Except ReadError ReplayData :=
  (readRows file).map fun (count, body) =>
    let types := body.map fun row => byteAt row 0
    { trades := masked (body.map dtTrade) types typeTrade
      bars := masked (body.map dtBar) types typeBar
      quotes := masked (body.map dtQuote) types typeQuote
      recordCount := count }

theorem masked_map {β γ : Type} (rs : List γ) (f : γ → β) (g : γ → UInt8) (type : UInt8) :
    masked (rs.map f) (rs.map g) type = (rs.filter fun r => g r = type).map f := by
  induction rs with
  | nil => rfl
  | cons r rs ih =>
    simp only [masked, List.map_cons, List.zip_cons_cons] at ih ⊢
    by_cases h : g r = type
    · simp [h, ih]
    · simp [h, ih]

end Py

namespace WireRecord

variable (r : WireRecord)

/-! The transcribed offsets are those of the structures. -/

theorem dtTrade_eq : Py.dtTrade r.bytes = ⟨r.type, r.trade⟩ := rfl

theorem dtBar_eq : Py.dtBar r.bytes = ⟨r.type, r.bar⟩ := rfl

theorem dtQuote_eq : Py.dtQuote r.bytes = ⟨r.type, r.quote⟩ := rfl

end WireRecord

namespace Py

/-- The reader's checks in the terms of the on-disk structures. -/
theorem readRows_eq (file : List UInt8) : readRows file =
    if file.length < kHeaderSize then .error (.truncatedHeader file.length)
    else
      let hdr := FileHeader.read file
      if hdr.magic ≠ kMagic then .error (.badMagic hdr.magic)
      else if hdr.version ≠ kVersion then .error (.badVersion hdr.version)
      else if file.length - kHeaderSize ≠ hdr.recordCount.toNat * kStride then
        .error (.badBody (file.length - kHeaderSize) hdr.recordCount.toNat)
      else .ok (hdr.recordCount.toNat, rows kStride (file.drop kHeaderSize)) := by
  by_cases hlen : file.length < kHeaderSize
  · have htake : file.take headerSize = file := List.take_of_length_le hlen.le
    have hshort : file.length < headerSize := hlen
    rw [readRows, htake, if_pos hshort, if_pos hlen]
  · have hlen' : (file.take headerSize).length = headerSize := by
      rw [List.length_take]
      exact Nat.min_eq_left (Nat.not_lt.mp hlen)
    have hslice : ∀ off len, off + len ≤ 16 →
        slice (file.take headerSize) off len = slice file off len := by
      intro off len hle
      rw [slice, slice, List.drop_take, List.take_take, Nat.min_eq_left]
      change len ≤ 16 - off
      omega
    have hmagic : u32At (file.take headerSize) 0 = (FileHeader.read file).magic := by
      rw [u32At, hslice 0 4 (by decide)]
      rfl
    have hversion : u32At (file.take headerSize) 4 = (FileHeader.read file).version := by
      rw [u32At, hslice 4 4 (by decide)]
      rfl
    have hcount : u64At (file.take headerSize) 8 = (FileHeader.read file).recordCount := by
      rw [u64At, hslice 8 8 (by decide)]
      rfl
    rw [readRows, if_neg (by rw [hlen']; exact Nat.lt_irrefl _), if_neg hlen]
    simp only [hmagic, hversion, hcount, List.length_drop]
    rfl

end Py

/-- The file starts with a header of the format, whatever it counts. -/
def GoodHeader (file : List UInt8) : Prop :=
  kHeaderSize ≤ file.length ∧ (FileHeader.read file).magic = kMagic ∧
    (FileHeader.read file).version = kVersion

/-- After a good header there are more bytes than the records it counts take. -/
def OverLong (file : List UInt8) : Prop :=
  GoodHeader file ∧
    (FileHeader.read file).recordCount.toNat * kStride < file.length - kHeaderSize

instance (file : List UInt8) : Decidable (GoodHeader file) :=
  inferInstanceAs (Decidable (_ ∧ _ ∧ _))

instance (file : List UInt8) : Decidable (OverLong file) :=
  inferInstanceAs (Decidable (_ ∧ _))

section Agreement

variable {file : List UInt8}

theorem viewReplay_accepts (hgood : GoodHeader file)
    (hfits : (FileHeader.read file).recordCount.toNat * kStride ≤ file.length - kHeaderSize) :
    viewReplay (some file) =
      { records := file.drop kHeaderSize, count := (FileHeader.read file).recordCount } := by
  obtain ⟨hlen, hmagic, hversion⟩ := hgood
  have hdiv : ¬(file.length - kHeaderSize) / kStride < (FileHeader.read file).recordCount.toNat :=
    Nat.not_lt.mpr ((Nat.le_div_iff_mul_le (by decide)).mpr hfits)
  simp [viewReplay, Nat.not_lt.mpr hlen, hmagic, hversion, hdiv]

theorem viewReplay_error_iff : (viewReplay (some file)).error = none ↔ GoodHeader file ∧
    (FileHeader.read file).recordCount.toNat * kStride ≤ file.length - kHeaderSize := by
  refine ⟨?_, fun h => by rw [viewReplay_accepts h.1 h.2]⟩
  intro h
  simp only [viewReplay] at h
  split at h
  next => simp at h
  next hlen =>
    split at h
    next => simp at h
    next hmagic =>
      split at h
      next => simp at h
      next hversion =>
        split at h
        next => simp at h
        next hdiv =>
          exact ⟨⟨Nat.not_lt.mp hlen, not_not.mp hmagic, not_not.mp hversion⟩,
            (Nat.le_div_iff_mul_le (by decide)).mp (Nat.not_lt.mp hdiv)⟩

theorem Py.readRows_ok_iff {x : Nat × List (List UInt8)} : Py.readRows file = .ok x ↔
    (GoodHeader file ∧
      file.length - kHeaderSize = (FileHeader.read file).recordCount.toNat * kStride) ∧
    x = ((FileHeader.read file).recordCount.toNat, rows kStride (file.drop kHeaderSize)) := by
  rw [Py.readRows_eq]
  constructor
  · intro h
    dsimp only at h
    split at h
    next => simp at h
    next hlen =>
      split at h
      next => simp at h
      next hmagic =>
        split at h
        next => simp at h
        next hversion =>
          split at h
          next => simp at h
          next hbody =>
            exact ⟨⟨⟨Nat.not_lt.mp hlen, not_not.mp hmagic, not_not.mp hversion⟩,
              not_not.mp hbody⟩, (Except.ok.inj h).symm⟩
  · rintro ⟨⟨⟨hlen, hmagic, hversion⟩, hbody⟩, rfl⟩
    simp [Nat.not_lt.mpr hlen, hmagic, hversion, hbody]

/-- The rows of a file that both readers accept are the records of the view. -/
theorem shows_rows (hgood : GoodHeader file)
    (hbody : file.length - kHeaderSize = (FileHeader.read file).recordCount.toNat * kStride) :
    ∃ recs, (viewReplay (some file)).Shows recs ∧
      recs.map WireRecord.bytes = rows kStride (file.drop kHeaderSize) := by
  have hview := viewReplay_accepts hgood hbody.ge
  have hcount : (file.drop kHeaderSize).length / kStride =
      (FileHeader.read file).recordCount.toNat := by
    rw [List.length_drop, hbody, Nat.mul_div_cancel _ (by decide)]
  have hrow : ∀ row ∈ rows kStride (file.drop kHeaderSize), row.length = kStride := by
    intro row hm
    obtain ⟨i, hi, rfl⟩ := List.mem_map.mp hm
    rw [List.mem_range, hcount] at hi
    apply length_slice
    rw [List.length_drop, hbody, ← Nat.succ_mul]
    exact Nat.mul_le_mul_right _ hi
  let recs := (rows kStride (file.drop kHeaderSize)).attach.map fun row =>
    WireRecord.mk row.1 (hrow row.1 row.2)
  have hbytes : recs.map WireRecord.bytes = rows kStride (file.drop kHeaderSize) := by
    simp [recs, Function.comp_def]
  have hlen : recs.length = (FileHeader.read file).recordCount.toNat := by
    rw [← hcount]
    simp [recs, rows]
  refine ⟨recs, ⟨by rw [hview], by rw [hview, hlen], ?_⟩, hbytes⟩
  intro i hi
  have hin : i * kStride + kStride ≤ (file.drop kHeaderSize).length := by
    rw [List.length_drop, hbody, ← Nat.succ_mul]
    exact Nat.mul_le_mul_right _ (hlen ▸ hi)
  rw [hview, ReplayView.record, dif_pos hin, List.getElem?_eq_getElem hi]
  simp [recs, rows]

/-- The arrays that the Python reader returns are these records: each array has those of its type,
in file order and field for field, and every record is in one of them. -/
structure Py.ReplayData.Exposes (data : Py.ReplayData) (recs : List WireRecord) : Prop where
  trades : data.trades =
    (recs.filter fun r => r.type = RecordType.Trade.toByte).map fun r => ⟨r.type, r.trade⟩
  bars : data.bars =
    (recs.filter fun r => r.type = RecordType.Bar.toByte).map fun r => ⟨r.type, r.bar⟩
  quotes : data.quotes =
    (recs.filter fun r => r.type = RecordType.Quote.toByte).map fun r => ⟨r.type, r.quote⟩
  complete : data.trades.length + data.bars.length + data.quotes.length = recs.length

/-- After a good header and as many bytes as the records it counts take, one of the records has a
type byte that stands for no type. -/
def UnknownType (file : List UInt8) : Prop :=
  GoodHeader file ∧
    file.length - kHeaderSize = (FileHeader.read file).recordCount.toNat * kStride ∧
    ∃ row ∈ rows kStride (file.drop kHeaderSize), ∀ type : RecordType, byteAt row 0 ≠ type.toByte

/-- The arrays are made from the rows of the file. -/
theorem Py.readReplay_eq_ok {data : Py.ReplayData} (h : Py.readReplay file = .ok data) :
    Py.readRows file = .ok (data.recordCount, rows kStride (file.drop kHeaderSize)) ∧
      data.trades = ((rows kStride (file.drop kHeaderSize)).filter
        fun row => byteAt row 0 = typeTrade).map dtTrade ∧
      data.bars = ((rows kStride (file.drop kHeaderSize)).filter
        fun row => byteAt row 0 = typeBar).map dtBar ∧
      data.quotes = ((rows kStride (file.drop kHeaderSize)).filter
        fun row => byteAt row 0 = typeQuote).map dtQuote := by
  rw [readReplay] at h
  cases hrows : readRows file with
  | error e =>
    rw [hrows] at h
    cases h
  | ok x =>
    rw [hrows] at h
    obtain rfl := Except.ok.inj h
    obtain ⟨-, rfl⟩ := readRows_ok_iff.mp hrows
    exact ⟨rfl, masked_map .., masked_map .., masked_map ..⟩

/-- The records of the three types are all records exactly if there is no other type. -/
theorem length_types_iff (recs : List WireRecord) :
    (recs.filter fun r => r.type = RecordType.Trade.toByte).length +
        (recs.filter fun r => r.type = RecordType.Bar.toByte).length +
        (recs.filter fun r => r.type = RecordType.Quote.toByte).length = recs.length ↔
      ∀ r ∈ recs, ∃ type : RecordType, r.type = type.toByte := by
  have hknown : ∀ r : WireRecord, (∃ type : RecordType, r.type = type.toByte) ↔
      r.type = RecordType.Trade.toByte ∨ r.type = RecordType.Bar.toByte ∨
        r.type = RecordType.Quote.toByte := by
    intro r
    constructor
    · rintro ⟨type, htype⟩
      cases type <;> simp [htype]
    · rintro (h | h | h) <;> exact ⟨_, h⟩
  have hsum : (recs.filter fun r => r.type = RecordType.Trade.toByte).length +
      (recs.filter fun r => r.type = RecordType.Bar.toByte).length +
      (recs.filter fun r => r.type = RecordType.Quote.toByte).length =
      recs.countP fun r => r.type = RecordType.Trade.toByte ∨ r.type = RecordType.Bar.toByte ∨
        r.type = RecordType.Quote.toByte := by
    induction recs with
    | nil => rfl
    | cons r recs ih =>
      rw [List.countP_cons, ← ih]
      simp only [List.filter_cons, RecordType.toByte]
      by_cases h0 : r.type = 0
      · simp [h0]
        omega
      by_cases h1 : r.type = 1
      · simp [h1]
        omega
      by_cases h2 : r.type = 2
      · simp [h2]
        omega
      · simp [h0, h1, h2]
  rw [hsum, List.countP_eq_length]
  simp only [decide_eq_true_eq, hknown]

/-- What the Python reader returns of a file that both accept. -/
theorem exposes_iff {data : Py.ReplayData} (hread : Py.readReplay file = .ok data)
    {recs : List WireRecord} (hbytes : recs.map WireRecord.bytes = rows kStride (file.drop kHeaderSize)) :
    data.Exposes recs ↔ ∀ r ∈ recs, ∃ type : RecordType, r.type = type.toByte := by
  obtain ⟨-, htrades, hbars, hquotes⟩ := Py.readReplay_eq_ok hread
  rw [← hbytes, List.filter_map, List.map_map] at htrades hbars hquotes
  simp only [Function.comp_def, WireRecord.dtTrade_eq] at htrades
  simp only [Function.comp_def, WireRecord.dtBar_eq] at hbars
  simp only [Function.comp_def, WireRecord.dtQuote_eq] at hquotes
  rw [← length_types_iff]
  constructor
  · intro h
    have := h.complete
    rwa [h.trades, h.bars, h.quotes, List.length_map, List.length_map, List.length_map] at this
  · intro h
    refine ⟨htrades, hbars, hquotes, ?_⟩
    rw [htrades, hbars, hquotes, List.length_map, List.length_map, List.length_map]
    exact h

theorem ReplayView.Shows.unique {v : ReplayView} {recs recs' : List WireRecord}
    (h : v.Shows recs) (h' : v.Shows recs') : recs = recs' := by
  have hlen : recs.length = recs'.length := h.2.1.symm.trans h'.2.1
  refine List.ext_getElem? fun i => ?_
  rcases Nat.lt_or_ge i recs.length with hi | hi
  · rw [← h.2.2 i hi, ← h'.2.2 i (hlen ▸ hi)]
  · rw [List.getElem?_eq_none hi, List.getElem?_eq_none (hlen ▸ hi)]

/-- Python accepts the files whose size is exactly that of the records. -/
theorem Py.readReplay_accepts_iff : (∃ data, Py.readReplay file = .ok data) ↔ GoodHeader file ∧
    file.length - kHeaderSize = (FileHeader.read file).recordCount.toNat * kStride := by
  have hdata : (∃ data, Py.readReplay file = .ok data) ↔ ∃ x, Py.readRows file = .ok x := by
    unfold Py.readReplay
    cases Py.readRows file <;> simp [Except.map]
  rw [hdata]
  simp only [Py.readRows_ok_iff, exists_and_left, exists_eq, and_true]

theorem accept_alike_iff :
    ((viewReplay (some file)).error = none ↔ ∃ data, Py.readReplay file = .ok data) ↔
      ¬OverLong file := by
  rw [viewReplay_error_iff, Py.readReplay_accepts_iff, OverLong]
  constructor
  · rintro h ⟨hgood, hlt⟩
    have := (h.mp ⟨hgood, hlt.le⟩).2
    omega
  · intro h
    refine ⟨fun ⟨hgood, hle⟩ => ⟨hgood, ?_⟩, fun ⟨hgood, hbody⟩ => ⟨hgood, hbody.ge⟩⟩
    by_contra hne
    exact h ⟨hgood, by omega⟩

/-- The readers agree on a file exactly if no bytes follow the records that its header counts and
no record of a file that both accept has an unknown type: both refuse it, or both accept it and show
the same records, all of them inside the file. -/
theorem readers_agree_iff (file : List UInt8) :
    (((viewReplay (some file)).error = none ↔ ∃ data, Py.readReplay file = .ok data) ∧
      ∀ data, (viewReplay (some file)).error = none → Py.readReplay file = .ok data →
        data.recordCount = (viewReplay (some file)).count.toNat ∧
        ∃ recs, (viewReplay (some file)).Shows recs ∧ data.Exposes recs) ↔
    ¬OverLong file ∧ ¬UnknownType file := by
  rw [accept_alike_iff]
  refine and_congr_right fun _ => ⟨?_, ?_⟩
  · rintro h ⟨hgood, hbody, row, hrow, hunknown⟩
    obtain ⟨data, hread⟩ := Py.readReplay_accepts_iff.mpr ⟨hgood, hbody⟩
    obtain ⟨recs, hshows, hbytes⟩ := shows_rows hgood hbody
    obtain ⟨-, recs', hshows', hexposes⟩ := h data hshows.1 hread
    obtain rfl := hshows.unique hshows'
    rw [← hbytes] at hrow
    obtain ⟨r, hr, rfl⟩ := List.mem_map.mp hrow
    obtain ⟨type, htype⟩ := (exposes_iff hread hbytes).mp hexposes r hr
    exact hunknown type htype
  · intro hknown data _ hread
    obtain ⟨hgood, hbody⟩ := Py.readReplay_accepts_iff.mp ⟨data, hread⟩
    obtain ⟨recs, hshows, hbytes⟩ := shows_rows hgood hbody
    have hcount := (Py.readRows_ok_iff.mp (Py.readReplay_eq_ok hread).1).2
    have htypes : ∀ r ∈ recs, ∃ type : RecordType, r.type = type.toByte := by
      intro r hr
      by_contra hnone
      push Not at hnone
      refine hknown ⟨hgood, hbody, r.bytes, ?_, hnone⟩
      rw [← hbytes]
      exact List.mem_map_of_mem hr
    refine ⟨?_, recs, hshows, (exposes_iff hread hbytes).mpr htypes⟩
    rw [viewReplay_accepts hgood hbody.ge]
    exact congrArg Prod.fst hcount

/-- A file that was never finalized, with one record after a header that counts none; and a file of
one record whose type byte is 7, of which the Python reader returns nothing but the count. -/
theorem readers_disagree_unfinalized :
    ((viewReplay (some (FileHeader.bytes ⟨kMagic, kVersion, 0⟩ ++ List.replicate 88 0))).error =
        none ∧
      Py.readReplay (FileHeader.bytes ⟨kMagic, kVersion, 0⟩ ++ List.replicate 88 0) =
        .error (.badBody 88 0)) ∧
    (viewReplay (some (fileOf [fill 7]))).Shows [fill 7] ∧
      Py.readReplay (fileOf [fill 7]) = .ok ⟨[], [], [], 1⟩ := by
  decide +kernel

end Agreement

end Replay

end OhlcvValidator
