import OhlcvValidator.CaptureWriter
import OhlcvValidator.ReplayReader

namespace OhlcvValidator

namespace Replay

namespace Py

/-- What stops `make_bars` or `write_replay`: a ticker that is not ASCII, a column
that does not broadcast, a foreign item size, or a count that no header holds. -/
inductive WriteError
  | unicodeEncode
  | shape (length rows : Nat)
  | itemsize (found : Nat)
  | pack (count : Nat)
  deriving DecidableEq, Repr

/-- A structured array: its items as bytes. -/
structure StructArray where
  itemsize : Nat
  items : List (List UInt8)
  deriving DecidableEq, Repr

def encodeAscii (s : String) : Except WriteError (List UInt8) :=
  if s.toList.all fun c => c.toNat < 128 then .ok (s.toList.map fun c => UInt8.ofNat c.toNat)
  else .error .unicodeEncode

/-- The bytes of an `S8` field: at most eight, filled with NUL. -/
def s8 (bs : List UInt8) : Symbol :=
  Vector.ofFn fun i => (bs.take kSymbolLen).getD i 0

/-- Assigning a column to a field: one value per row, or one for all rows. -/
def column {β : Type} (n : Nat) (xs : List β) : Except WriteError (List β) :=
  if xs.length = n then .ok xs
  else
    match xs with
    | [x] => .ok (List.replicate n x)
    | _ => .error (.shape xs.length n)

/-- The fields of the rows that `make_bars` fills in. -/
def barRows (symbol : String) (startNs : List UInt64)
    (openPrice high low close vwap : List DoubleBits) (volume tradeCount : List UInt64)
    (seqStart : Nat) : Except WriteError (List BarBody) := do
  let n := startNs.length
  let ticker ← encodeAscii symbol
  let openPrice ← column n openPrice
  let high ← column n high
  let low ← column n low
  let close ← column n close
  let vwap ← column n vwap
  let volume ← column n volume
  let tradeCount ← column n tradeCount
  return (List.range n).map fun i =>
    { symbol := s8 ticker
      startNs := startNs.getD i 0
      seq := UInt64.ofNat (seqStart + i)
      openPrice := openPrice.getD i 0
      high := high.getD i 0
      low := low.getD i 0
      close := close.getD i 0
      vwap := vwap.getD i 0
      volume := volume.getD i 0
      tradeCount := tradeCount.getD i 0 }

/-- The fields of a row of type `DT_BAR` at their offsets. -/
def dtBarFields (b : BarBody) : List (Nat × List UInt8) :=
  [(0, byteBytes typeBar), (8, b.symbol.toList), (16, u64Bytes b.startNs), (24, u64Bytes b.seq),
    (32, u64Bytes b.openPrice), (40, u64Bytes b.high), (48, u64Bytes b.low),
    (56, u64Bytes b.close), (64, u64Bytes b.vwap), (72, u64Bytes b.volume),
    (80, u64Bytes b.tradeCount)]

/-- A zeroed row of type `DT_BAR` with its fields assigned. -/
def dtBarRow (b : BarBody) : List UInt8 :=
  putFields (List.replicate recordStride 0) (dtBarFields b)

def makeBars (symbol : String) (startNs : List UInt64)
    (openPrice high low close vwap : List DoubleBits) (volume tradeCount : List UInt64)
    (seqStart : Nat) : Except WriteError StructArray :=
  (barRows symbol startNs openPrice high low close vwap volume tradeCount seqStart).map
    fun bars => ⟨recordStride, bars.map dtBarRow⟩

/-- The header packed as `<IIQ`. -/
def packHeader (count : Nat) : Except WriteError (List UInt8) :=
  if count < 2 ^ 64 then
    .ok (leBytes 4 magic.toNat ++ leBytes 4 version.toNat ++ leBytes 8 count)
  else .error (.pack count)

def writeReplay (records : StructArray) : Except WriteError (List UInt8) :=
  if records.itemsize ≠ recordStride then .error (.itemsize records.itemsize)
  else (packHeader records.items.length).map (· ++ records.items.flatten)

section BarRow

variable (b : BarBody)

theorem dtBarFields_in : ∀ f ∈ dtBarFields b,
    f.1 + f.2.length ≤ (List.replicate recordStride (0 : UInt8)).length := by
  simp [dtBarFields, recordStride, byteBytes]
  decide

theorem dtBarFields_apart : (dtBarFields b).Pairwise Apart := by
  simp [dtBarFields, Apart, byteBytes]
  decide

theorem length_dtBarRow : (dtBarRow b).length = kStride := by
  rw [dtBarRow, length_putFields (dtBarFields_in b), List.length_replicate]
  rfl

/-- A row reads back as the fields that were assigned. -/
theorem dtBar_dtBarRow : dtBar (dtBarRow b) = ⟨typeBar, b⟩ := by
  have hfield : ∀ f ∈ dtBarFields b, slice (dtBarRow b) f.1 f.2.length = f.2 :=
    fun f hf => slice_putFields (dtBarFields_in b) (dtBarFields_apart b) hf
  simp only [dtBarFields, List.forall_mem_cons, length_u64Bytes, byteBytes, List.length_singleton,
    length_symbol] at hfield
  obtain ⟨htype, hsymbol, hstart, hseq, hopen, hhigh, hlow, hclose, hvwap, hvolume, hcount, _⟩ :=
    hfield
  simp only [dtBar, byteAt_eq htype, symbolAt_eq hsymbol, u64At_eq hstart, u64At_eq hseq,
    u64At_eq hopen, u64At_eq hhigh, u64At_eq hlow, u64At_eq hclose, u64At_eq hvwap,
    u64At_eq hvolume, u64At_eq hcount]

/-- The row as a record of the C++ reader. -/
def barRecord : WireRecord :=
  ⟨dtBarRow b, length_dtBarRow b⟩

theorem barRecord_bar : (barRecord b).type = RecordType.Bar.toByte ∧ (barRecord b).bar = b := by
  have hrow : dtBar (barRecord b).bytes = ⟨typeBar, b⟩ := dtBar_dtBarRow b
  rw [WireRecord.dtBar_eq] at hrow
  obtain ⟨htype, hbody⟩ := Row.mk.inj hrow
  exact ⟨htype, hbody⟩

end BarRow

theorem writeReplay_bars {bars : List BarBody} (hn : bars.length < 2 ^ 64) :
    writeReplay ⟨recordStride, bars.map dtBarRow⟩ = .ok (fileOf (bars.map barRecord)) := by
  have hbody : (bars.map barRecord).map WireRecord.bytes = bars.map dtBarRow := by
    simp [barRecord, Function.comp_def]
  have hnat : (UInt64.ofNat bars.length).toNat = bars.length :=
    UInt64.toNat_ofNat_of_lt' (by simpa using hn)
  simp only [writeReplay, packHeader, fileOf, hbody, FileHeader.bytes, u64Bytes, List.length_map,
    hnat, hn, if_true, ne_eq, not_true_eq_false, if_false]
  rfl

theorem readReplay_fileOf {recs : List WireRecord} (hn : recs.length < 2 ^ 64) :
    readReplay (fileOf recs) = .ok
      { trades := (recs.filter fun r => r.type = RecordType.Trade.toByte).map
          fun r => ⟨r.type, r.trade⟩
        bars := (recs.filter fun r => r.type = RecordType.Bar.toByte).map fun r => ⟨r.type, r.bar⟩
        quotes := (recs.filter fun r => r.type = RecordType.Quote.toByte).map
          fun r => ⟨r.type, r.quote⟩
        recordCount := recs.length } := by
  have hnat : (UInt64.ofNat recs.length).toNat = recs.length :=
    UInt64.toNat_ofNat_of_lt' (by simpa using hn)
  have hhdr : FileHeader.read (fileOf recs) = ⟨kMagic, kVersion, UInt64.ofNat recs.length⟩ :=
    FileHeader.read_bytes _ _
  have hlen : (fileOf recs).length = kHeaderSize + kStride * recs.length := by
    rw [fileOf, List.length_append, FileHeader.length_bytes, length_body]
  have hdrop : (fileOf recs).drop kHeaderSize = (recs.map WireRecord.bytes).flatten := by
    rw [fileOf, ← FileHeader.length_bytes ⟨kMagic, kVersion, UInt64.ofNat recs.length⟩,
      List.drop_left]
  have hrows : rows kStride (recs.map WireRecord.bytes).flatten = recs.map WireRecord.bytes := by
    apply rows_flatten (by decide)
    intro bs hbs
    obtain ⟨r, _, rfl⟩ := List.mem_map.mp hbs
    exact r.length_bytes
  have hread : readRows (fileOf recs) = .ok (recs.length, recs.map WireRecord.bytes) := by
    rw [readRows_ok_iff, hhdr, hnat, hlen, hdrop, hrows]
    refine ⟨⟨⟨by omega, by rw [hhdr], by rw [hhdr]⟩, ?_⟩, rfl⟩
    rw [Nat.add_sub_cancel_left, Nat.mul_comm]
  rw [readReplay, hread]
  simp only [Except.map, List.map_map]
  congr 1
  have hmask : ∀ {β : Type} (f : List UInt8 → β) (type : UInt8),
      masked (recs.map (f ∘ WireRecord.bytes)) (recs.map ((byteAt · 0) ∘ WireRecord.bytes)) type =
        (recs.filter fun r => r.type = type).map (f ∘ WireRecord.bytes) :=
    fun f type => masked_map recs _ _ type
  rw [hmask, hmask, hmask]
  rfl

end Py

theorem capture_file (recs : List WireRecord) (k : Nat) :
    (CaptureWriter.run (recs.map .write ++ List.replicate (k + 1) .finalize)).out.file =
      fileOf recs := by
  obtain ⟨hfile, hsealed⟩ := (CaptureWriter.recording_run recs).finalize
  rw [CaptureWriter.run, List.foldl_append, List.replicate_succ, List.foldl_cons]
  change (List.foldl CaptureWriter.call (CaptureWriter.run (recs.map .write)).finalize _).out.file = _
  rw [hsealed.run_finalize fun c hc => (List.mem_replicate.mp hc).2, hfile]

/-- Files round-trip across the languages: what the capture writer leaves is
what both readers see, field by field, and what Python's writer makes of bars is
what the C++ reader sees. -/
theorem replay_round_trip :
    (∀ (recs : List WireRecord) (k : Nat), kHeaderSize + kStride * recs.length < 2 ^ 64 →
      let file :=
        (CaptureWriter.run (recs.map .write ++ List.replicate (k + 1) .finalize)).out.file
      (viewReplay (some file)).Shows recs ∧
      Py.readReplay file = .ok
        { trades := (recs.filter fun r => r.type = RecordType.Trade.toByte).map
            fun r => ⟨r.type, r.trade⟩
          bars := (recs.filter fun r => r.type = RecordType.Bar.toByte).map
            fun r => ⟨r.type, r.bar⟩
          quotes := (recs.filter fun r => r.type = RecordType.Quote.toByte).map
            fun r => ⟨r.type, r.quote⟩
          recordCount := recs.length }) ∧
    ∀ symbol startNs openPrice high low close vwap volume tradeCount seqStart arr,
      Py.makeBars symbol startNs openPrice high low close vwap volume tradeCount seqStart =
        .ok arr →
      arr.items.length < 2 ^ 64 →
      ∃ bars bytes recs,
        Py.barRows symbol startNs openPrice high low close vwap volume tradeCount seqStart =
          .ok bars ∧
        arr.items.map Py.dtBar = bars.map (⟨Py.typeBar, ·⟩) ∧
        Py.writeReplay arr = .ok bytes ∧ (viewReplay (some bytes)).Shows recs ∧
        (∀ r ∈ recs, r.type = RecordType.Bar.toByte) ∧ recs.map WireRecord.bar = bars := by
  refine ⟨?_, ?_⟩
  · intro recs k hsize
    have hn := length_lt_of_size_lt hsize
    simp only [capture_file]
    exact ⟨viewReplay_fileOf hn, Py.readReplay_fileOf hn⟩
  · intro symbol startNs openPrice high low close vwap volume tradeCount seqStart arr hmake hn
    rw [Py.makeBars] at hmake
    generalize Py.barRows symbol startNs openPrice high low close vwap volume tradeCount
      seqStart = result at hmake ⊢
    cases result with
    | error e => cases hmake
    | ok bars =>
      cases hmake
      rw [List.length_map] at hn
      refine ⟨bars, _, bars.map Py.barRecord, rfl, ?_, Py.writeReplay_bars hn,
        viewReplay_fileOf (by rwa [List.length_map]), ?_, ?_⟩
      · rw [List.map_map]
        exact List.map_congr_left fun b _ => Py.dtBar_dtBarRow b
      · intro r hr
        obtain ⟨b, _, rfl⟩ := List.mem_map.mp hr
        exact (Py.barRecord_bar b).1
      · rw [List.map_map]
        exact (List.map_congr_left fun b _ => (Py.barRecord_bar b).2).trans (List.map_id bars)

theorem replay_round_trip_threeTypes :
    (viewReplay (some (CaptureWriter.run ([fill 2, fill 0,
      fill 1].map .write ++ List.replicate (1 + 1) .finalize)).out.file)).Shows
        [fill 2, fill 0, fill 1] ∧
    ∃ bars, Py.barRows "AAPL" [60, 120] [1] [2, 2] [1, 1] [2] [1] [5, 6] [1] 7 = .ok bars :=
  ⟨(replay_round_trip.1 _ 1 (by decide)).1,
    let ⟨bars, _, _, h, _⟩ :=
      replay_round_trip.2 "AAPL" [60, 120] [1] [2, 2] [1, 1] [2] [1] [5, 6] [1] 7 _ rfl (by decide)
    ⟨bars, h⟩⟩

end Replay

end OhlcvValidator
