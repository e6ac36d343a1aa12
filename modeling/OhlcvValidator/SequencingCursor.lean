import OhlcvValidator.BarReconstruction

namespace OhlcvValidator

namespace WireRecord

variable {F : Type}

def stream : WireRecord F → Validator.Stream
  | .trade _ => .trade
  | .bar _ => .bar
  | .quote _ => .quote

/-- The timestamp that sequencing looks at: a bar's is its start. -/
def stamp : WireRecord F → UInt64
  | .trade t => t.tsNs
  | .bar b => b.startNs
  | .quote q => q.tsNs

def seq : WireRecord F → UInt64
  | .trade t => t.seq
  | .bar b => b.seq
  | .quote q => q.seq

end WireRecord

namespace Validator

section Effects

variable {F : Type} [PriceArith F] {v : Violation}

theorem has_checkSequencing_ts (s : Slot F) (stream : Stream) (ts seq : UInt64) (r : Result) :
    (checkSequencing s stream ts seq r).2.has .timestampRegression =
      (r.has .timestampRegression || decide (s.lastTs stream ≠ 0 ∧ ts < s.lastTs stream)) := by
  unfold checkSequencing
  dsimp only
  split <;> simp

theorem has_checkSequencing_gap (s : Slot F) (stream : Stream) (ts seq : UInt64) (r : Result) :
    (checkSequencing s stream ts seq r).2.has .sequenceGap =
      (r.has .sequenceGap || decide (s.seen = true ∧ s.lastSeq + 1 < seq)) := by
  unfold checkSequencing
  dsimp only
  split
  next h => simp [h]
  next h =>
    rw [decide_eq_false h]
    simp

theorem gap_checkSequencing (s : Slot F) (stream : Stream) (ts seq : UInt64) (r : Result) :
    (checkSequencing s stream ts seq r).2.gap =
      if s.seen = true ∧ s.lastSeq + 1 < seq then seq - s.lastSeq - 1 else r.gap := by
  unfold checkSequencing
  dsimp only
  split <;> simp

theorem checkPriceBand_keeps (s : Slot F) (price : F) (r : Result) :
    (checkPriceBand s price r).1.lastSeq = s.lastSeq ∧
      (checkPriceBand s price r).1.lastTs = s.lastTs ∧
      (checkPriceBand s price r).2.gap = r.gap ∧
      ∀ v, v ≠ .priceBandBreach → (checkPriceBand s price r).2.has v = r.has v := by
  have hflag : ∀ v, v ≠ .priceBandBreach → (r.flagIf true .priceBandBreach).has v = r.has v := by
    intro v hv
    simp [hv.symm]
  unfold checkPriceBand
  split
  next => exact ⟨rfl, rfl, rfl, fun _ _ => rfl⟩
  next =>
    split
    next =>
      dsimp only
      split <;> exact ⟨rfl, rfl, r.gap_flagIf _ _, hflag⟩
    next => exact ⟨rfl, rfl, rfl, fun _ _ => rfl⟩

theorem reconcile_keeps (s : Slot F) (b : WireBar F) (r : Result) :
    (reconcile s b r).1.lastSeq = s.lastSeq ∧ (reconcile s b r).1.lastTs = s.lastTs ∧
      (reconcile s b r).2.gap = r.gap ∧
      ∀ v, ¬Reconstructs v → (reconcile s b r).2.has v = r.has v := by
  unfold reconcile
  split
  next => exact ⟨rfl, rfl, rfl, fun _ _ => rfl⟩
  next =>
    refine ⟨rfl, rfl, ?_, ?_⟩
    · dsimp only
      split <;> simp
    · intro v hv
      simp only [Reconstructs, not_or] at hv
      dsimp only
      split <;> simp [Ne.symm hv.1, Ne.symm hv.2.1, Ne.symm hv.2.2.1, Ne.symm hv.2.2.2]

theorem accumulate_keeps (s : Slot F) (price : F) (size : UInt64) :
    (accumulate s price size).lastSeq = s.lastSeq ∧
      (accumulate s price size).lastTs = s.lastTs := by
  unfold accumulate
  dsimp only
  split <;> exact ⟨rfl, rfl⟩

/-- What a record does to its symbol's cursors, and which flags it can get
after the sequencing check. -/
theorem stateful_keeps (rec : WireRecord F) (s : Slot F) (r : Result) :
    (stateful rec s r).1.lastSeq = rec.seq ∧
      (stateful rec s r).1.lastTs = Function.update s.lastTs rec.stream rec.stamp ∧
      (stateful rec s r).2.gap = (checkSequencing s rec.stream rec.stamp rec.seq r).2.gap ∧
      ∀ v, v ≠ .priceBandBreach → (Reconstructs v → rec.stream ≠ .bar) →
        (stateful rec s r).2.has v = (checkSequencing s rec.stream rec.stamp rec.seq r).2.has v := by
  cases rec with
  | trade t =>
    unfold stateful tradeState
    dsimp only
    split
    next =>
      have hacc := accumulate_keeps (checkSequencing s .trade t.tsNs t.seq r).1 t.price t.size
      have hband := checkPriceBand_keeps (accumulate (checkSequencing s .trade t.tsNs t.seq r).1
        t.price t.size) t.price (checkSequencing s .trade t.tsNs t.seq r).2
      exact ⟨hband.1.trans hacc.1, hband.2.1.trans hacc.2, hband.2.2.1,
        fun v hv _ => hband.2.2.2 v hv⟩
    next => exact ⟨rfl, rfl, rfl, fun _ _ _ => rfl⟩
  | bar b =>
    have h := reconcile_keeps (checkSequencing s .bar b.startNs b.seq r).1 b
      (checkSequencing s .bar b.startNs b.seq r).2
    exact ⟨h.1, h.2.1, h.2.2.1, fun v _ hv => h.2.2.2 v fun hrec => hv hrec rfl⟩
  | quote q =>
    unfold stateful quoteState
    dsimp only
    split
    next => exact ⟨rfl, rfl, Result.gap_flagIf .., fun v hv _ => by simp [WireRecord.stream,
      WireRecord.stamp, WireRecord.seq, hv.symm]⟩
    next => exact ⟨rfl, rfl, rfl, fun _ _ _ => rfl⟩

theorem has_statelessFlags_reconstructs (rec : WireRecord F) (hv : Reconstructs v) :
    (statelessFlags rec).has v = false := by
  cases rec with
  | trade t => rcases hv with rfl | rfl | rfl | rfl <;> simp [statelessFlags, tradeFlags]
  | bar b => rcases hv with rfl | rfl | rfl | rfl <;> simp [statelessFlags, barFlags]
  | quote q =>
    unfold statelessFlags quoteFlags
    dsimp only
    rcases hv with rfl | rfl | rfl | rfl <;> split <;> simp

theorem has_statelessFlags_sequencing (rec : WireRecord F) :
    (statelessFlags rec).has .timestampRegression = false ∧
      (statelessFlags rec).has .sequenceGap = false := by
  cases rec with
  | trade t => simp [statelessFlags, tradeFlags]
  | bar b => simp [statelessFlags, barFlags]
  | quote q =>
    unfold statelessFlags quoteFlags
    dsimp only
    split <;> simp

end Effects

section Cursor

variable {F : Type}

/-- The timestamp of the last record of a stream, 0 if there is none. -/
def lastStamp (stream : Stream) (own : List (WireRecord F)) : UInt64 :=
  ((own.filter fun rec => rec.stream = stream).getLast?.map WireRecord.stamp).getD 0

/-- The sequence number of the last record, 0 if there is none. -/
def lastSeqOf (own : List (WireRecord F)) : UInt64 :=
  (own.getLast?.map WireRecord.seq).getD 0

/-- Sequence numbers were skipped right before a record. -/
def Skips (own : List (WireRecord F)) (rec : WireRecord F) : Prop :=
  own ≠ [] ∧ lastSeqOf own + 1 < rec.seq

instance (own : List (WireRecord F)) (rec : WireRecord F) : Decidable (Skips own rec) :=
  decidable_of_iff (own.isEmpty = false ∧ lastSeqOf own + 1 < rec.seq) (by simp [Skips])

variable [PriceArith F] {s : Slot F} {own : List (WireRecord F)}

/-- The slot's cursors stand at the last records of its symbol. -/
structure Cursor (s : Slot F) (own : List (WireRecord F)) : Prop where
  seen : s.seen = !own.isEmpty
  lastSeq : s.lastSeq = lastSeqOf own
  lastTs : ∀ stream, s.lastTs stream = lastStamp stream own

theorem Cursor.stateful (h : Cursor s own) (rec : WireRecord F) (r : Result) :
    Cursor (stateful rec s r).1 (own ++ [rec]) := by
  obtain ⟨hseq, hts, _⟩ := stateful_keeps rec s r
  refine ⟨?_, ?_, ?_⟩
  · rw [(stateful_fst rec s r).2]
    simp
  · rw [hseq]
    simp [lastSeqOf]
  · intro stream
    rw [hts]
    by_cases hs : rec.stream = stream
    · subst hs
      simp [lastStamp]
    · rw [Function.update_of_ne (Ne.symm hs), h.lastTs]
      simp [lastStamp, hs]

theorem cursor_solo (k : UInt64) (own : List (WireRecord F)) : Cursor (solo k own).1 own := by
  induction own using List.reverseRecOn with
  | nil => exact ⟨rfl, rfl, fun _ => rfl⟩
  | append_singleton own rec ih =>
    rw [solo_concat]
    exact ih.stateful rec _

theorem Cursor.skips_iff (h : Cursor s own) (rec : WireRecord F) :
    (s.seen = true ∧ s.lastSeq + 1 < rec.seq) ↔ Skips own rec := by
  rw [h.seen, h.lastSeq, Skips]
  simp

theorem Cursor.gap_stateful (h : Cursor s own) (rec : WireRecord F) :
    (Validator.stateful rec s (statelessFlags rec)).2.gap =
      if Skips own rec then rec.seq - lastSeqOf own - 1 else 0 := by
  rw [(stateful_keeps rec s (statelessFlags rec)).2.2.1, gap_checkSequencing,
    gap_statelessFlags, ← h.lastSeq]
  exact if_congr (h.skips_iff rec) rfl rfl

/-- In every stream of at most 4096 symbols, a record is sequenced against the
earlier records of its symbol, and the flags that neither reconcile a bar nor watch
prices are those of the record itself. -/
theorem sequencing_exact {pre post : List (WireRecord F)} {rec : WireRecord F}
    (hfew : ((pre ++ rec :: post).map WireRecord.symbol).toFinset.card ≤ 4096) :
    ∃ r, (run (pre ++ rec :: post)).2[pre.length]? = some r ∧
      (r.has .timestampRegression = true ↔
        lastStamp rec.stream (pre.filter fun q => q.symbol = rec.symbol) ≠ 0 ∧
          rec.stamp < lastStamp rec.stream (pre.filter fun q => q.symbol = rec.symbol)) ∧
      (r.has .sequenceGap = true ↔ Skips (pre.filter fun q => q.symbol = rec.symbol) rec) ∧
      r.gap = (if Skips (pre.filter fun q => q.symbol = rec.symbol) rec then
        rec.seq - lastSeqOf (pre.filter fun q => q.symbol = rec.symbol) - 1 else 0) ∧
      ∀ v, v ≠ .priceBandBreach → (Reconstructs v → rec.stream ≠ .bar) →
        v ≠ .timestampRegression → v ≠ .sequenceGap →
        r.has v = (statelessFlags rec).has v := by
  obtain ⟨hroom, hcheck⟩ := check_of_few hfew
  have hcursor := cursor_solo (symbolKey rec.symbol) (pre.filter fun q => q.symbol = rec.symbol)
  rw [← (slots_run hroom).1] at hcursor
  refine ⟨_, results_run_getElem? pre rec post, ?_⟩
  rw [hcheck]
  generalize (Roster.run pre).1.slots (symbolKey rec.symbol) = s at hcursor
  generalize pre.filter (fun q => q.symbol = rec.symbol) = own at hcursor
  obtain ⟨_, _, _, hhas⟩ := stateful_keeps rec s (statelessFlags rec)
  obtain ⟨hts₀, hgap₀⟩ := has_statelessFlags_sequencing rec
  refine ⟨?_, ?_, hcursor.gap_stateful rec, ?_⟩
  · rw [hhas _ (by simp) (by simp [Reconstructs]), has_checkSequencing_ts, hts₀, hcursor.lastTs]
    simp
  · rw [hhas _ (by simp) (by simp [Reconstructs]), has_checkSequencing_gap, hgap₀]
    simp only [hcursor.skips_iff rec, Bool.false_or, decide_eq_true_eq]
  · intro v hband hrec hts hskip
    rw [hhas v hband hrec, has_checkSequencing _ _ _ _ _ hts hskip]

end Cursor

end Validator

end OhlcvValidator
