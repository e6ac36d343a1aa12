import OhlcvValidator.BarStream
import OhlcvValidator.BenchBreakdown
import OhlcvValidator.ReplayWriter

namespace OhlcvValidator

namespace Replay

namespace Py

variable {symbol : String} {ticker : List UInt8} {startNs : List UInt64}
  {openPrice high low close vwap : List DoubleBits} {volume tradeCount : List UInt64}

/-- Columns of one length are assigned row by row. -/
theorem barRows_eq_ok (hticker : encodeAscii symbol = .ok ticker)
    (hlen : ∀ column ∈ [openPrice, high, low, close, vwap, volume, tradeCount],
      column.length = startNs.length) (seqStart : Nat) :
    barRows symbol startNs openPrice high low close vwap volume tradeCount seqStart =
      .ok ((List.range startNs.length).map fun i =>
        { symbol := s8 ticker
          startNs := startNs.getD i 0
          seq := UInt64.ofNat (seqStart + i)
          openPrice := openPrice.getD i 0
          high := high.getD i 0
          low := low.getD i 0
          close := close.getD i 0
          vwap := vwap.getD i 0
          volume := volume.getD i 0
          tradeCount := tradeCount.getD i 0 }) := by
  simp only [List.forall_mem_cons] at hlen
  obtain ⟨h₁, h₂, h₃, h₄, h₅, h₆, h₇, -⟩ := hlen
  simp only [barRows, hticker, column, h₁, h₂, h₃, h₄, h₅, h₆, h₇, if_true]
  rfl

variable {F : Type} (ofBits : DoubleBits → F)

theorem dispatch_barRecord (b : BarBody) :
    (barRecord b).dispatch ofBits = .bar (b.toModel ofBits) := by
  have hne : ¬(barRecord b).type = RecordType.Trade.toByte := by
    rw [(barRecord_bar b).1]
    decide
  rw [WireRecord.dispatch, if_neg hne, if_pos (barRecord_bar b).1, (barRecord_bar b).2]

variable [PriceArith F]

/-- The bench on a file of bars is silent exactly if the validator is, on the bars. -/
theorem bench_bars {bars : List BarBody} (hne : bars ≠ []) (hlen : bars.length < 2 ^ 64)
    (clock : Nat → UInt64) (path : String) (passes : UInt64) :
    ∃ bytes b hist checksum, writeReplay ⟨recordStride, bars.map dtBarRow⟩ = .ok bytes ∧
      replayBench ofBits clock path (some bytes) passes =
        .ok (.report (UInt64.ofNat bars.length) passes b hist checksum) ∧
      (cppViolations b = 0 ↔
        ∀ r ∈ (Validator.run ((bars.map (BarBody.toModel ofBits)).map .bar)).2, r.ok = true) := by
  have hshows : (viewReplay (some (fileOf (bars.map barRecord)))).Shows (bars.map barRecord) :=
    viewReplay_fileOf (by rwa [List.length_map])
  have hcount : (viewReplay (some (fileOf (bars.map barRecord)))).count =
      UInt64.ofNat bars.length := by
    refine UInt64.toNat_inj.mp (hshows.2.1.trans ?_)
    rw [List.length_map, UInt64.toNat_ofNat_of_lt' hlen]
  have hrecs : (bars.map barRecord).map (WireRecord.dispatch ofBits) =
      (bars.map (BarBody.toModel ofBits)).map .bar := by
    simp only [List.map_map, Function.comp_def, dispatch_barRecord]
  have hsome : passes = 0 ∨ bars.map barRecord ≠ [] := Or.inr (by simpa using hne)
  obtain ⟨hist, hreport, -⟩ := replayBench_report ofBits clock path (fileOf_ne_nil _) hshows hsome
  rw [hcount] at hreport
  refine ⟨_, _, _, _, writeReplay_bars hlen, hreport, ?_⟩
  rw [cppViolations_collect_eq_zero_iff ofBits (by rwa [List.length_map]), benchPass,
    hrecs]

end Py

end Replay

end OhlcvValidator
