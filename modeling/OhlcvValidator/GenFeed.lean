import OhlcvValidator.GenDataset
import OhlcvValidator.SequencingCursor

namespace OhlcvValidator

namespace GenDataset

open Validator (lastStamp lastSeqOf)

/-- A symbol's time after so many records, not yet as a machine word. -/
def clock (σ len : Nat) : Nat := 1700000000000000000 + (σ + len) * 1000000

/-- The records of one symbol. -/
def ownOf (σ : Nat) (recs : List Emitted) : List (WireRecord ℚ) :=
  (recs.map Emitted.record).filter fun r => r.symbol = symbolOf σ

theorem ownOf_concat_self {σ : Nat} {e : Emitted} (h : e.record.symbol = symbolOf σ)
    (recs : List Emitted) : ownOf σ (recs ++ [e]) = ownOf σ recs ++ [e.record] := by
  simp [ownOf, h]

theorem ownOf_concat_other {σ τ : Nat} {e : Emitted} (h : e.record.symbol = symbolOf σ)
    (hne : symbolOf σ ≠ symbolOf τ) (recs : List Emitted) :
    ownOf τ (recs ++ [e]) = ownOf τ recs := by
  simp [ownOf, h, hne]

/-! One symbol's series. -/

/-- A running price: at least 1, and never above the highest start if it only falls. -/
structure Running (d : Draws) (px : ℚ) : Prop where
  one_le : 1 ≤ px
  le_start : (∀ j k, d.jitter j k ≤ 0) → px ≤ 590

/-- The symbol's cursors against its records; the words may have wrapped. -/
structure Feed (d : Draws) (σ : Nat) (own : List (WireRecord ℚ)) (seq ts : UInt64) (px : ℚ) : Prop where
  ts_eq : ts = UInt64.ofNat (clock σ own.length)
  stamps : ∀ r ∈ own, ∃ m, 1690000000000000000 ≤ m ∧ m ≤ clock σ own.length ∧
    r.stamp = UInt64.ofNat m
  seq_eq : ∃ q, q ≤ 1 + 4 * own.length ∧ seq = UInt64.ofNat q
  lastSeq : own ≠ [] → lastSeqOf own = seq
  px_running : Running d px

/-- How far the first trade's timestamp is set back. -/
def setBack (e : Emitted) : Nat := if e.first ∧ e.defect = .tsRegress then 5000000 else 0

/-- How many messages are dropped before the first trade. -/
def dropped (e : Emitted) : Nat := if e.first ∧ e.defect = .seqGap then 3 else 0

/-- What every emission does, whatever the record: one more of the window's symbol,
its cursors moved along. -/
structure Emits (st st' : State) (e : Emitted) : Prop where
  s_eq : st'.s = st.s
  window_eq : st'.window = st.window
  defect_eq : st'.defect = st.defect
  records_eq : st'.records = st.records ++ [e]
  ts_eq : st'.ts = Function.update st.ts st.s (st.ts st.s + 1000000)
  seq_eq : st'.seq = Function.update st.seq st.s e.record.seq
  px_eq : st'.px = Function.update st.px st.s e.px
  tag_window : e.window = st.window
  tag_defect : e.defect = st.defect
  symbol_eq : e.record.symbol = symbolOf st.s
  stamp_eq : e.record.stamp = st.ts st.s + 1000000 - UInt64.ofNat (setBack e)
  record_seq : e.record.seq = st.seq st.s + 1 + UInt64.ofNat (dropped e)

theorem setBack_le (e : Emitted) : setBack e ≤ 5000000 := by
  unfold setBack
  split <;> omega

theorem dropped_le (e : Emitted) : dropped e ≤ 3 := by
  unfold dropped
  split <;> omega

theorem ofNat_clock_succ (σ len : Nat) :
    UInt64.ofNat (clock σ len) + 1000000 = UInt64.ofNat (clock σ (len + 1)) := by
  have hclock : clock σ (len + 1) = clock σ len + 1000000 := by
    unfold clock
    omega
  rw [hclock, UInt64.ofNat_add]
  rfl

section Emission

variable {d : Draws} {σ : Nat} {own : List (WireRecord ℚ)} {st st' : State} {e : Emitted} {ts seq : UInt64}
  {px : ℚ}

theorem Feed.stamp (h : Feed d σ own seq ts px) (e : Emitted) :
    ts + 1000000 - UInt64.ofNat (setBack e) =
      UInt64.ofNat (clock σ (own.length + 1) - setBack e) := by
  have hle : setBack e ≤ clock σ (own.length + 1) := by
    have := setBack_le e
    unfold clock
    omega
  rw [h.ts_eq, ofNat_clock_succ, UInt64.ofNat_sub hle]

/-- One more record keeps the series. -/
theorem Feed.emit (h : Feed d σ own seq ts px) {px' : ℚ} (hpx : Running d px')
    (hstamp : e.record.stamp = ts + 1000000 - UInt64.ofNat (setBack e))
    (hseq : e.record.seq = seq + 1 + UInt64.ofNat (dropped e)) :
    Feed d σ (own ++ [e.record]) e.record.seq (ts + 1000000) px' := by
  have hlength : (own ++ [e.record]).length = own.length + 1 := by simp
  refine ⟨?_, ?_, ?_, ?_, hpx⟩
  · rw [h.ts_eq, ofNat_clock_succ, hlength]
  · intro r hr
    have hset := setBack_le e
    rw [hlength]
    rcases List.mem_append.mp hr with hr | hr
    · obtain ⟨m, hlow, hm, hr⟩ := h.stamps r hr
      refine ⟨m, hlow, hm.trans ?_, hr⟩
      unfold clock
      omega
    · obtain rfl := List.mem_singleton.mp hr
      refine ⟨_, ?_, ?_, hstamp.trans (h.stamp e)⟩
      · unfold clock
        omega
      · omega
  · obtain ⟨q, hq, hseq'⟩ := h.seq_eq
    have hdrop := dropped_le e
    refine ⟨q + 1 + dropped e, by rw [hlength]; omega, ?_⟩
    rw [hseq, hseq', UInt64.ofNat_add, UInt64.ofNat_add]
    rfl
  · intro _
    simp [lastSeqOf]

end Emission

/-! What is known of every record from those before it. -/

/-- The bar of a window's trades, before its defect. -/
structure Summarizes (b : WireBar ℚ) (trades : List (WireTrade ℚ)) : Prop where
  ohlc : Validator.Ohlc (trades.map WireTrade.price) b.openPrice b.high b.low b.close
  volume_eq : b.volume = UInt64.ofNat (Validator.totalSize trades)
  tradeCount_eq : b.tradeCount = UInt64.ofNat trades.length
  vwap_eq : b.vwap = Validator.meanPrice trades

/-- The trades that a window can have, given the records so far. -/
structure Tradable (recs : List Emitted) (trades : List (WireTrade ℚ)) : Prop where
  totalSize_le : Validator.totalSize trades ≤ 100 * trades.length
  price_ge : ∀ t ∈ trades, 1 ≤ t.price
  price_le : ∀ t ∈ trades, ∃ e ∈ recs, t.price ≤ e.px * (16 / 10)

theorem Tradable.mono {recs more : List Emitted} {trades : List (WireTrade ℚ)}
    (h : Tradable recs trades) : Tradable (recs ++ more) trades := by
  refine ⟨h.totalSize_le, h.price_ge, ?_⟩
  intro t ht
  obtain ⟨e, he, hle⟩ := h.price_le t ht
  exact ⟨e, List.mem_append_left _ he, hle⟩

/-- One more trade, at the price of a record or at most the spike above it. -/
theorem Tradable.concat {recs : List Emitted} {trades : List (WireTrade ℚ)} {t : WireTrade ℚ}
    {e : Emitted} (h : Tradable recs trades) (he : e ∈ recs) (hsize : t.size.toNat ≤ 100)
    (hprice : 1 ≤ t.price ∧ t.price ≤ e.px * (16 / 10)) : Tradable recs (trades ++ [t]) := by
  have htotal := h.totalSize_le
  refine ⟨?_, ?_, ?_⟩
  · simp only [Validator.totalSize, List.map_append, List.sum_append, List.map_singleton,
      List.sum_singleton, List.length_append, List.length_singleton] at htotal ⊢
    omega
  · intro u hu
    rcases List.mem_append.mp hu with hu | hu
    · exact h.price_ge u hu
    · rw [List.mem_singleton.mp hu]
      exact hprice.1
  · intro u hu
    rcases List.mem_append.mp hu with hu | hu
    · exact h.price_le u hu
    · rw [List.mem_singleton.mp hu]
      exact ⟨e, he, hprice.2⟩

/-- A record against the earlier records of its symbol. -/
structure Explained (d : Draws) (symCount : Nat) (pre : List Emitted) (e : Emitted) : Prop where
  defect_eq : e.defect = Defect.ofRoll (d.pick e.window)
  px_running : Running d e.px
  symbol_eq : e.record.symbol = symbolOf (e.window % symCount)
  stamp_eq : e.record.stamp = UInt64.ofNat
    (clock (e.window % symCount) ((ownOf (e.window % symCount) pre).length + 1) - setBack e)
  stamps : ∀ r ∈ ownOf (e.window % symCount) pre, ∃ m, 1690000000000000000 ≤ m ∧
    m ≤ clock (e.window % symCount) (ownOf (e.window % symCount) pre).length ∧
    r.stamp = UInt64.ofNat m
  seq_eq : ∃ q, q ≤ 1 + 4 * (ownOf (e.window % symCount) pre).length ∧
    (ownOf (e.window % symCount) pre ≠ [] →
      lastSeqOf (ownOf (e.window % symCount) pre) = UInt64.ofNat q) ∧
    e.record.seq = UInt64.ofNat (q + 1 + dropped e)
  seen : symCount ≤ e.window → ∀ stream,
    ∃ r ∈ ownOf (e.window % symCount) pre, r.stream = stream
  short : e.window < symCount → (ownOf (e.window % symCount) pre).length < 15
  opening : e.first = true → e.record.stream = .trade ∧
    (e.window < symCount → ownOf (e.window % symCount) pre = []) ∧
    (symCount ≤ e.window → lastStamp .trade (ownOf (e.window % symCount) pre) = UInt64.ofNat
      (clock (e.window % symCount) (ownOf (e.window % symCount) pre).length - 3000000))
  clean : e.defect = .clean ∨ e.defect = .priceSpike →
    ∀ v, (Validator.statelessFlags e.record).has v = false
  bar : ∀ b, e.record = .bar b → ∃ plain,
    b = injectBar e.defect plain ∧
    Summarizes plain
      (Validator.window (symbolOf (e.window % symCount)) (ownOf (e.window % symCount) pre)) ∧
    (Validator.window (symbolOf (e.window % symCount))
      (ownOf (e.window % symCount) pre)).length ≤ 12 ∧
    Tradable pre
      (Validator.window (symbolOf (e.window % symCount)) (ownOf (e.window % symCount) pre))

def AllExplained (d : Draws) (symCount : Nat) (recs : List Emitted) : Prop :=
  ∀ pre e post, recs = pre ++ e :: post → Explained d symCount pre e

theorem AllExplained.concat {d : Draws} {symCount : Nat} {recs : List Emitted} {e : Emitted}
    (h : AllExplained d symCount recs) (he : Explained d symCount recs e) :
    AllExplained d symCount (recs ++ [e]) := by
  intro pre e' post hsplit
  rcases List.eq_nil_or_concat post with rfl | ⟨post, last, rfl⟩
  · obtain ⟨rfl, hlast⟩ := List.append_inj' hsplit rfl
    obtain rfl := (List.cons.inj hlast).1
    exact he
  · have hassoc : pre ++ e' :: post.concat last = (pre ++ e' :: post) ++ [last] := by simp
    rw [hassoc] at hsplit
    exact h pre e' post (List.append_inj' hsplit rfl).1

/-! What the three kinds of emission add. -/

section Kinds

variable {symCount : Nat} {st : State}

/-- The running price after a trade's jitter. -/
def movedPx (d : Draws) (st : State) (k : Nat) : ℚ :=
  if st.px st.s + d.jitter st.window k < 1 then 1 else st.px st.s + d.jitter st.window k

theorem running_movedPx {d : Draws} {st : State} (h : Running d (st.px st.s)) (k : Nat) :
    Running d (movedPx d st k) := by
  unfold movedPx
  split
  next => exact ⟨le_refl 1, fun _ => by norm_num⟩
  next hge =>
    refine ⟨not_lt.mp hge, ?_⟩
    intro hcalm
    have hstart := h.le_start hcalm
    have hjitter := hcalm st.window k
    linarith

/-- The price that a trade carries. -/
def tradePrice (d : Draws) (st : State) (k : Nat) : ℚ :=
  if k = 0 ∧ st.defect = .corruptTrade then -1
  else if k = 0 ∧ st.defect = .priceSpike then movedPx d st k * (16 / 10)
  else movedPx d st k

/-- The trade that is emitted, defects included. -/
def tradeOf (d : Draws) (st : State) (k : Nat) : WireTrade ℚ where
  symbol := symbolOf st.s
  tsNs := st.ts st.s + 1000000 -
    UInt64.ofNat (if k = 0 ∧ st.defect = .tsRegress then 5000000 else 0)
  seq := st.seq st.s + 1 + UInt64.ofNat (if k = 0 ∧ st.defect = .seqGap then 3 else 0)
  price := tradePrice d st k
  size := d.size st.window k

theorem symbol_of_s {st' : State} (h : st.s < symCount) (hs : st'.s = st.s) :
    st'.symbol symCount = symbolOf st.s := by
  rw [State.symbol_eq (by rw [hs]; exact h), hs]

theorem emitTrade_emits (d : Draws) (h : st.s < symCount) (k : Nat) :
    Emits st (emitTrade d symCount st k)
        ⟨st.window, st.defect, decide (k = 0), movedPx d st k, .trade (tradeOf d st k)⟩ ∧
      (emitTrade d symCount st k).acc = if k = 0 ∧ st.defect = .corruptTrade then st.acc
        else st.acc.add (tradePrice d st k) (d.size st.window k) := by
  have hsymbol := fun (st' : State) (hs : st'.s = st.s) => symbol_of_s h hs
  have hform : emitTrade d symCount st k =
      let moved := { st.tick with px := Function.update st.px st.s (movedPx d st k) }
      let t : WireTrade ℚ := ⟨moved.symbol symCount, moved.ts st.s, moved.seq st.s, moved.px st.s,
        d.size st.window k⟩
      let injected := if k = 0 then injectTrade moved t else (moved, t, true)
      let st' := injected.1
      let t' := injected.2.1
      let counted := if injected.2.2 then { st' with acc := st'.acc.add t'.price t'.size } else st'
      counted.push (k = 0) (.trade t') := rfl
  rw [hform]
  by_cases hk : k = 0
  · subst hk
    cases hdefect : st.defect <;> refine ⟨⟨?_, ?_, ?_, ?_, ?_, ?_, ?_, ?_, ?_, ?_, ?_, ?_⟩, ?_⟩ <;>
      simp [injectTrade, State.tick, State.push, hdefect, hsymbol, setBack, dropped, tradePrice,
        tradeOf, WireRecord.symbol, WireRecord.stamp, WireRecord.seq]
  · refine ⟨⟨?_, ?_, ?_, ?_, ?_, ?_, ?_, ?_, ?_, ?_, ?_, ?_⟩, ?_⟩ <;>
      simp [State.tick, State.push, hk, hsymbol, setBack, dropped, tradePrice, tradeOf,
        WireRecord.symbol, WireRecord.stamp, WireRecord.seq]

/-- The quote that is emitted, defects included. -/
def quoteOf (d : Draws) (st : State) (qk : Nat) : WireQuote ℚ :=
  injectQuote st qk
    ⟨symbolOf st.s, st.ts st.s + 1000000, st.seq st.s + 1, st.px st.s - 5 / 100,
      st.px st.s + 5 / 100, 1 + d.bidSize st.window qk % 20, 1 + d.askSize st.window qk % 20⟩

theorem injectQuote_keeps (st : State) (qk : Nat) (q : WireQuote ℚ) :
    (injectQuote st qk q).symbol = q.symbol ∧ (injectQuote st qk q).tsNs = q.tsNs ∧
      (injectQuote st qk q).seq = q.seq := by
  unfold injectQuote
  split
  next => exact ⟨rfl, rfl, rfl⟩
  next => split <;> exact ⟨rfl, rfl, rfl⟩

theorem emitQuote_emits (d : Draws) (h : st.s < symCount) (qk : Nat) :
    Emits st (emitQuote d symCount st qk)
        ⟨st.window, st.defect, false, st.px st.s, .quote (quoteOf d st qk)⟩ ∧
      (emitQuote d symCount st qk).acc = st.acc := by
  have hsymbol : st.tick.symbol symCount = symbolOf st.s := symbol_of_s h rfl
  have htick : ∀ q, injectQuote st.tick qk q = injectQuote st qk q := fun _ => rfl
  obtain ⟨hs, hts, hseq⟩ := injectQuote_keeps st qk
    ⟨symbolOf st.s, st.ts st.s + 1000000, st.seq st.s + 1, st.px st.s - 5 / 100,
      st.px st.s + 5 / 100, 1 + d.bidSize st.window qk % 20, 1 + d.askSize st.window qk % 20⟩
  refine ⟨⟨rfl, rfl, rfl, ?_, rfl, ?_, ?_, rfl, rfl, hs, ?_, ?_⟩, rfl⟩
  · simp [emitQuote, State.push, hsymbol, htick, quoteOf]
  · simp [emitQuote, State.push, State.tick, WireRecord.seq, quoteOf, hseq]
  · simp [emitQuote, State.push]
  · simpa [WireRecord.stamp, setBack, quoteOf] using hts
  · simpa [WireRecord.seq, dropped, quoteOf] using hseq

/-- The bar of the window's aggregate, before its defect. -/
def plainBar (st : State) : WireBar ℚ where
  symbol := symbolOf st.s
  startNs := st.ts st.s + 1000000
  seq := st.seq st.s + 1
  openPrice := st.acc.openPrice
  high := st.acc.high
  low := st.acc.low
  close := st.acc.close
  vwap := if st.acc.vol ≠ 0 then st.acc.pv / st.acc.vol.toNat else st.acc.openPrice
  volume := st.acc.vol
  tradeCount := st.acc.cnt

theorem injectBar_keeps (defect : Defect) (b : WireBar ℚ) :
    (injectBar defect b).symbol = b.symbol ∧ (injectBar defect b).startNs = b.startNs ∧
      (injectBar defect b).seq = b.seq := by
  cases defect <;> exact ⟨rfl, rfl, rfl⟩

theorem emitBar_emits (h : st.s < symCount) :
    Emits st (emitBar symCount st)
      ⟨st.window, st.defect, false, st.px st.s, .bar (injectBar st.defect (plainBar st))⟩ := by
  have hform : emitBar symCount st = st.tick.push false (.bar (injectBar st.defect
      { plainBar st with
        symbol := st.tick.symbol symCount
        startNs := st.tick.ts st.s
        seq := st.tick.seq st.s })) := rfl
  rw [State.symbol_eq (show st.tick.s < symCount from h), State.tick_ts_self,
    State.tick_seq_self] at hform
  obtain ⟨hs, hts, hseq⟩ := injectBar_keeps st.defect (plainBar st)
  rw [hform]
  refine ⟨rfl, rfl, rfl, rfl, rfl, ?_, ?_, rfl, rfl, hs, ?_, ?_⟩
  · exact congrArg (Function.update st.seq st.s) hseq.symm
  · simp [State.push]
  · change (injectBar st.defect (plainBar st)).startNs = _
    rw [hts]
    simp [plainBar, setBack]
  · change (injectBar st.defect (plainBar st)).seq = _
    rw [hseq]
    simp [plainBar, dropped]

end Kinds

/-! The generator's own aggregate. -/

/-- The aggregate of a window's trades, the integers modulo 2⁶⁴. -/
structure Aggregates (acc : Acc) (trades : List (WireTrade ℚ)) : Prop where
  has_eq : acc.has = !trades.isEmpty
  cnt_eq : acc.cnt = UInt64.ofNat trades.length
  vol_eq : acc.vol = UInt64.ofNat (Validator.totalSize trades)
  pv_eq : acc.pv = Validator.turnover trades
  ohlc : trades ≠ [] →
    Validator.Ohlc (trades.map WireTrade.price) acc.openPrice acc.high acc.low acc.close

theorem Aggregates.add {acc : Acc} {trades : List (WireTrade ℚ)} (h : Aggregates acc trades)
    (t : WireTrade ℚ) : Aggregates (acc.add t.price t.size) (trades ++ [t]) := by
  have hcnt : acc.cnt + 1 = UInt64.ofNat (trades ++ [t]).length := by
    rw [h.cnt_eq, List.length_append, UInt64.ofNat_add]
    rfl
  have hvol : acc.vol + t.size = UInt64.ofNat (Validator.totalSize (trades ++ [t])) := by
    simp [h.vol_eq, Validator.totalSize, UInt64.ofNat_add]
  have hpv : acc.pv + t.price * t.size.toNat = Validator.turnover (trades ++ [t]) := by
    simp [h.pv_eq, Validator.turnover]
  unfold Acc.add
  cases trades with
  | nil =>
    rw [if_pos (by simp [h.has_eq])]
    exact ⟨rfl, hcnt, hvol, hpv, fun _ => Validator.Ohlc.singleton t.price⟩
  | cons first rest =>
    rw [if_neg (by simp [h.has_eq])]
    refine ⟨by simp [h.has_eq], hcnt, hvol, hpv, fun _ => ?_⟩
    have hhigh : (if acc.high < t.price then t.price else acc.high) = max acc.high t.price := by
      grind
    have hlow : (if t.price < acc.low then t.price else acc.low) = min acc.low t.price := by
      grind
    have hnext := (h.ohlc (by simp)).concat t.price
    rw [List.map_append]
    simp only [hhigh, hlow]
    exact hnext

/-! The state between and within windows. -/

/-- A symbol whose windows are complete. -/
structure Rest (d : Draws) (σ : Nat) (started : Prop) (st : State) : Prop where
  feed : Feed d σ (ownOf σ st.records) (st.seq σ) (st.ts σ) (st.px σ)
  window_eq : Validator.window (symbolOf σ) (ownOf σ st.records) = []
  lastTrade : started → lastStamp .trade (ownOf σ st.records) =
    UInt64.ofNat (clock σ (ownOf σ st.records).length - 3000000)
  seen : started → ∀ stream, ∃ r ∈ ownOf σ st.records, r.stream = stream
  fresh : ¬started → ownOf σ st.records = []

/-- The state while a symbol has its turn, as far as any emission keeps it. -/
structure Steady (d : Draws) (symCount : Nat) (st : State) : Prop where
  turn : st.window % symCount = st.s
  lt : st.s < symCount
  defect_eq : st.defect = Defect.ofRoll (d.pick st.window)
  feed : Feed d st.s (ownOf st.s st.records) (st.seq st.s) (st.ts st.s) (st.px st.s)
  seen : symCount ≤ st.window → ∀ stream, ∃ r ∈ ownOf st.s st.records, r.stream = stream
  rest : ∀ τ < symCount, τ ≠ st.s → Rest d τ (τ < st.window) st
  explained : AllExplained d symCount st.records

/-- The current window after `k` trades and `since` other records. -/
structure InWindow (d : Draws) (symCount : Nat) (st : State) (k since : Nat)
    (trades : List (WireTrade ℚ)) : Prop extends Steady d symCount st where
  window_eq : Validator.window (symbolOf st.s) (ownOf st.s st.records) = trades
  acc : Aggregates st.acc trades
  count : trades.length + (if st.defect = .corruptTrade ∧ 0 < k then 1 else 0) = k
  tradable : Tradable st.records trades
  lastTrade : 2 ≤ k → lastStamp .trade (ownOf st.s st.records) =
    UInt64.ofNat (clock st.s (ownOf st.s st.records).length - since * 1000000)
  opening : k = 0 → symCount ≤ st.window → lastStamp .trade (ownOf st.s st.records) =
    UInt64.ofNat (clock st.s (ownOf st.s st.records).length - 3000000)
  tradeSeen : 0 < k → ∃ r ∈ ownOf st.s st.records, r.stream = .trade
  quoteSeen : 0 < since → ∃ r ∈ ownOf st.s st.records, r.stream = .quote
  fresh : st.window < symCount → (ownOf st.s st.records).length = k + since

theorem lastStamp_concat (stream : Validator.Stream) (own : List (WireRecord ℚ))
    (r : WireRecord ℚ) : lastStamp stream (own ++ [r]) =
      if r.stream = stream then r.stamp else lastStamp stream own := by
  unfold lastStamp
  by_cases h : r.stream = stream
  · simp [h]
  · simp [h]

section Step

variable {d : Draws} {symCount k since : Nat} {st st' : State} {e : Emitted} {trades : List (WireTrade ℚ)}

theorem Emits.own_eq (h : Emits st st' e) :
    ownOf st'.s st'.records = ownOf st.s st.records ++ [e.record] := by
  rw [h.s_eq, h.records_eq, ownOf_concat_self h.symbol_eq]

theorem Emits.length_own_eq (h : Emits st st' e) :
    (ownOf st'.s st'.records).length = (ownOf st.s st.records).length + 1 := by
  rw [h.own_eq, List.length_append, List.length_singleton]

/-- An emission leaves the other symbols alone. -/
theorem Rest.emit {τ : Nat} {started : Prop} (hr : Rest d τ started st) (h : Emits st st' e)
    (hs : st.s < 4096) (hτ : τ < 4096) (hne : τ ≠ st.s) : Rest d τ started st' := by
  have hown : ownOf τ st'.records = ownOf τ st.records := by
    rw [h.records_eq]
    exact ownOf_concat_other h.symbol_eq
      (fun heq => hne (symbolOf_injective hτ hs heq.symm)) st.records
  have hseq : st'.seq τ = st.seq τ := by rw [h.seq_eq, Function.update_of_ne hne]
  have hts : st'.ts τ = st.ts τ := by rw [h.ts_eq, Function.update_of_ne hne]
  have hpx : st'.px τ = st.px τ := by rw [h.px_eq, Function.update_of_ne hne]
  obtain ⟨hfeed, hwindow, hlast, hseen, hfresh⟩ := hr
  rw [← hown] at hwindow hlast hseen hfresh
  refine ⟨?_, hwindow, hlast, hseen, hfresh⟩
  rw [hown, hseq, hts, hpx]
  exact hfeed

/-- One more record of the symbol whose turn it is. -/
theorem Steady.emit (h : Steady d symCount st) (hfew : symCount ≤ 4096) (he : Emits st st' e)
    (hx : Explained d symCount st.records e) : Steady d symCount st' := by
  have hlt := h.lt
  have hfeed := h.feed.emit hx.px_running he.stamp_eq he.record_seq
  refine ⟨?_, ?_, ?_, ?_, ?_, ?_, ?_⟩
  · rw [he.window_eq, he.s_eq]
    exact h.turn
  · rw [he.s_eq]
    exact hlt
  · rw [he.defect_eq, he.window_eq]
    exact h.defect_eq
  · rw [he.own_eq, he.s_eq, he.seq_eq, he.ts_eq, he.px_eq, Function.update_self,
      Function.update_self, Function.update_self]
    exact hfeed
  · intro hw stream
    rw [he.window_eq] at hw
    obtain ⟨r, hr, hs⟩ := h.seen hw stream
    exact ⟨r, by rw [he.own_eq]; exact List.mem_append_left _ hr, hs⟩
  · intro τ hτ hne
    rw [he.s_eq] at hne
    rw [he.window_eq]
    exact (h.rest τ hτ hne).emit he (by omega) (by omega) hne
  · rw [he.records_eq]
    exact h.explained.concat hx

/-- What the window's state says of the record that it emits next. -/
theorem InWindow.explain (h : InWindow d symCount st k since trades) (he : Emits st st' e)
    (hpx : Running d e.px) (hshort : k + since < 15)
    (hfirst : e.first = true → e.record.stream = .trade ∧ k = 0 ∧ since = 0)
    (hclean : e.defect = .clean ∨ e.defect = .priceSpike →
      ∀ v, (Validator.statelessFlags e.record).has v = false)
    (hbar : ∀ b, e.record = .bar b → ∃ plain, b = injectBar e.defect plain ∧
      Summarizes plain trades ∧ trades.length ≤ 12 ∧ Tradable st.records trades) :
    Explained d symCount st.records e := by
  have hturn : e.window % symCount = st.s := by rw [he.tag_window, h.turn]
  refine ⟨?_, hpx, ?_, ?_, ?_, ?_, ?_, ?_, ?_, hclean, ?_⟩
  · rw [he.tag_defect, he.tag_window]
    exact h.defect_eq
  · rw [hturn]
    exact he.symbol_eq
  · rw [hturn, he.stamp_eq, h.feed.stamp]
  · rw [hturn]
    exact h.feed.stamps
  · obtain ⟨q, hq, hseq⟩ := h.feed.seq_eq
    rw [hturn]
    refine ⟨q, hq, fun hne => (h.feed.lastSeq hne).trans hseq, ?_⟩
    rw [he.record_seq, hseq, UInt64.ofNat_add, UInt64.ofNat_add]
    rfl
  · rw [hturn, he.tag_window]
    exact h.seen
  · rw [hturn, he.tag_window]
    intro hlt
    rw [h.fresh hlt]
    exact hshort
  · intro hf
    obtain ⟨hstream, rfl, rfl⟩ := hfirst hf
    rw [hturn, he.tag_window]
    refine ⟨hstream, ?_, h.opening rfl⟩
    intro hlt
    exact List.length_eq_zero_iff.mp (h.fresh hlt)
  · rw [hturn, h.window_eq]
    exact hbar

end Step

end GenDataset

end OhlcvValidator
