import OhlcvValidator.TradeWindow

namespace OhlcvValidator

namespace Validator

section Results

variable {F : Type}

theorem length_eraseDups_keysOf (recs : List (WireRecord F)) :
    (keysOf recs).eraseDups.length = (recs.map WireRecord.symbol).toFinset.card := by
  have hkeys : keysOf recs = (recs.map WireRecord.symbol).map symbolKey := by
    simp [keysOf]
  rw [hkeys, eraseDups_map symbolKey_injective, List.length_map, length_eraseDups]

theorem few_keys {recs : List (WireRecord F)}
    (h : (recs.map WireRecord.symbol).toFinset.card ≤ 4096) :
    (keysOf recs).eraseDups.length ≤ kCapacity := by
  rw [length_eraseDups_keysOf]
  exact h

theorem few_of_subset {recs recs' : List (WireRecord F)} (h : recs ⊆ recs')
    (hfew : (recs'.map WireRecord.symbol).toFinset.card ≤ 4096) :
    (recs.map WireRecord.symbol).toFinset.card ≤ 4096 := by
  refine (Finset.card_le_card fun symbol hs => ?_).trans hfew
  rw [List.mem_toFinset] at hs ⊢
  exact List.map_subset _ h hs

variable [PriceArith F]

theorem results_run_append (pre post : List (WireRecord F)) :
    (run pre).2 <+: (run (pre ++ post)).2 := by
  induction post using List.reverseRecOn with
  | nil => rw [List.append_nil]
  | append_singleton post rec ih =>
    rw [← List.append_assoc, run_concat]
    exact ih.trans (List.prefix_append _ _)

/-- What a stream gets for one of its records. -/
theorem results_run_getElem? (pre : List (WireRecord F)) (rec : WireRecord F)
    (post : List (WireRecord F)) :
    (run (pre ++ rec :: post)).2[pre.length]? = some ((run pre).1.check rec).2 := by
  obtain ⟨rest, hrest⟩ := results_run_append (pre ++ [rec]) post
  have hsplit : pre ++ rec :: post = pre ++ [rec] ++ post := by simp
  rw [hsplit, ← hrest, run_concat, List.append_assoc, ← length_run pre]
  simp

/-- With few enough symbols, a record is checked against its symbol's own state. -/
theorem check_of_few {pre post : List (WireRecord F)} {rec : WireRecord F}
    (h : ((pre ++ rec :: post).map WireRecord.symbol).toFinset.card ≤ 4096) :
    (symbolKey rec.symbol ∈ firstDistinct kCapacity (keysOf pre) ∨
      symbolKey rec.symbol ∉ keysOf pre) ∧
    ((run pre).1.check rec).2 =
      (stateful rec ((Roster.run pre).1.slots (symbolKey rec.symbol)) (statelessFlags rec)).2 := by
  have hfew := few_keys h
  have hsplit : keysOf (pre ++ rec :: post) =
      keysOf pre ++ [symbolKey rec.symbol] ++ keysOf post := by simp [keysOf]
  rw [hsplit] at hfew
  have hfewWith := (eraseDups_append_left _ (keysOf post)).length_le.trans hfew
  have hfewPre := (eraseDups_append_left _ [symbolKey rec.symbol]).length_le.trans hfewWith
  have hacc : (Roster.run pre).1.Accepts (symbolKey rec.symbol) :=
    (accepts_run_iff pre _).mpr
      (room_of_mem_firstDistinct (mem_firstDistinct_of_few hfewWith (by simp)))
  refine ⟨mem_firstDistinct_or_not_mem hfewPre _, ?_⟩
  rw [((holds_run pre).1.check rec).2, Roster.check, if_pos hacc]

end Results

/-- The four flags that compare a bar with its trades. -/
def Reconstructs (v : Violation) : Prop :=
  v = .barVolumeReconstructMismatch ∨ v = .barTradeCountReconstructMismatch ∨
    v = .barVwapReconstructMismatch ∨ v = .barOhlcReconstructMismatch

/-- Nothing before the reconciliation sets a reconstruction flag. -/
theorem has_before_reconcile {v : Violation} (hv : Reconstructs v) (b : WireBar ℚ) (s : Slot ℚ) :
    (checkSequencing s .bar b.startNs b.seq (barFlags b)).2.has v = false := by
  rcases hv with rfl | rfl | rfl | rfl <;>
    rw [has_checkSequencing _ _ _ _ _ (by simp) (by simp)] <;> simp [barFlags]

section Reconcile

variable {s : Slot ℚ} {trades : List (WireTrade ℚ)} {b : WireBar ℚ} {r : Result}

theorem reconcile_empty (h : Accumulates s []) : (reconcile s b r).2 = r := by
  unfold reconcile
  rw [if_pos (by simp [h.hasTrades_eq])]

/-- The reconciliation flags are set exactly where the bar and the trades disagree. -/
theorem reconcile_flags (h : Accumulates s trades) (hne : trades ≠ [])
    (hlen : trades.length < 2 ^ 64) (hsize : totalSize trades < 2 ^ 64)
    (hpos : totalSize trades ≠ 0) (hr : ∀ v, Reconstructs v → r.has v = false) :
    ((reconcile s b r).2.has .barVolumeReconstructMismatch = true ↔
      totalSize trades ≠ b.volume.toNat) ∧
    ((reconcile s b r).2.has .barTradeCountReconstructMismatch = true ↔
      trades.length ≠ b.tradeCount.toNat) ∧
    ((reconcile s b r).2.has .barVwapReconstructMismatch = true ↔
      approxEqual (meanPrice trades) b.vwap = false) ∧
    ((reconcile s b r).2.has .barOhlcReconstructMismatch = true ↔
      approxEqual s.accOpen b.openPrice = false ∨ approxEqual s.accHigh b.high = false ∨
        approxEqual s.accLow b.low = false ∨ approxEqual s.accClose b.close = false) := by
  have hvolume : s.accVolume.toNat = totalSize trades := by
    rw [h.accVolume_eq, UInt64.toNat_ofNat_of_lt' hsize]
  have hcount : s.accCount.toNat = trades.length := by
    rw [h.accCount_eq, UInt64.toNat_ofNat_of_lt' hlen]
  have hnonzero : s.accVolume ≠ 0 := by
    intro hzero
    rw [hzero] at hvolume
    exact hpos hvolume.symm
  have hmean : s.accPv / PriceArith.ofUInt64 s.accVolume = meanPrice trades := by
    rw [h.accPv_eq, meanPrice, ← hvolume]
    rfl
  have hhas : s.hasTrades = true := by simpa [h.hasTrades_eq] using hne
  unfold reconcile
  rw [if_neg (by simp [hhas])]
  dsimp only
  rw [if_pos hnonzero, hmean, ← hvolume, ← hcount]
  refine ⟨?_, ?_, ?_, ?_⟩
  · simp [hr _ (Or.inl rfl), ← UInt64.toNat_inj]
  · simp [hr _ (Or.inr (Or.inl rfl)), ← UInt64.toNat_inj]
  · simp [hr _ (Or.inr (Or.inr (Or.inl rfl)))]
  · simp [hr _ (Or.inr (Or.inr (Or.inr rfl))), or_assoc]

end Reconcile

/-- The check of a bar reconciles it with what its symbol has accumulated. -/
theorem check_bar_of_few {pre post : List (WireRecord ℚ)} {b : WireBar ℚ}
    (h : ((pre ++ .bar b :: post).map WireRecord.symbol).toFinset.card ≤ 4096) :
    ∃ s r, Accumulates s (window b.symbol pre) ∧ (∀ v, Reconstructs v → r.has v = false) ∧
      ((run pre).1.check (.bar b)).2 = (reconcile s b r).2 := by
  obtain ⟨hkey, hcheck⟩ := check_of_few h
  have hacc : Accumulates ((Roster.run pre).1.slots (symbolKey b.symbol)) (window b.symbol pre) :=
    accumulates_run hkey
  exact ⟨_, _, hacc.checkSequencing .bar b.startNs b.seq (barFlags b),
    fun v hv => has_before_reconcile hv b _, hcheck⟩

/-- In every stream of at most 4096 symbols, a bar is compared with exactly the valid trades of
its symbol since the symbol's last bar. -/
theorem bar_reconstruction_exact (pre post : List (WireRecord ℚ)) (b : WireBar ℚ)
    (hsymbols : ((pre ++ .bar b :: post).map WireRecord.symbol).toFinset.card ≤ 4096)
    (hsize : totalSize (window b.symbol pre) < 2 ^ 64) :
    ∃ r, (run (pre ++ .bar b :: post)).2[pre.length]? = some r ∧
      (window b.symbol pre = [] →
        r.has .barVolumeReconstructMismatch = false ∧
        r.has .barTradeCountReconstructMismatch = false ∧
        r.has .barVwapReconstructMismatch = false ∧
        r.has .barOhlcReconstructMismatch = false) ∧
      (window b.symbol pre ≠ [] →
        (r.has .barVolumeReconstructMismatch = true ↔
          totalSize (window b.symbol pre) ≠ b.volume.toNat) ∧
        (r.has .barTradeCountReconstructMismatch = true ↔
          (window b.symbol pre).length ≠ b.tradeCount.toNat) ∧
        (r.has .barVwapReconstructMismatch = true ↔
          approxEqual (meanPrice (window b.symbol pre)) b.vwap = false) ∧
        ∃ first high low last,
          Ohlc ((window b.symbol pre).map WireTrade.price) first high low last ∧
          (r.has .barOhlcReconstructMismatch = true ↔
            approxEqual first b.openPrice = false ∨ approxEqual high b.high = false ∨
              approxEqual low b.low = false ∨ approxEqual last b.close = false)) := by
  obtain ⟨s, r, hseq, hclean, hbar⟩ := check_bar_of_few hsymbols
  refine ⟨_, results_run_getElem? pre (.bar b) post, ?_⟩
  have hlength := length_window_le b.symbol pre
  rw [hbar]
  refine ⟨?_, ?_⟩
  · intro hnil
    rw [hnil] at hseq
    rw [reconcile_empty hseq]
    exact ⟨hclean _ (Or.inl rfl), hclean _ (Or.inr (Or.inl rfl)),
      hclean _ (Or.inr (Or.inr (Or.inl rfl))), hclean _ (Or.inr (Or.inr (Or.inr rfl)))⟩
  · intro hne
    have hpos := List.length_pos_iff.mpr hne
    obtain ⟨hvolume, hcount, hvwap, hohlc⟩ :=
      reconcile_flags (b := b) hseq hne (by omega) hsize (by omega) hclean
    exact ⟨hvolume, hcount, hvwap, _, _, _, _, hseq.ohlc hne, hohlc⟩

/-- Two valid trades around a worthless one and another symbol's quote; the bar that follows
counts the trades right and misses a unit of volume. -/
theorem bar_reconstruction_exact_missedUnit :
    let x : Symbol := Vector.replicate 8 88
    let y : Symbol := Vector.replicate 8 89
    let pre : List (WireRecord ℚ) :=
      [.trade ⟨x, 1, 1, 10, 2⟩, .quote ⟨y, 2, 1, 5, 6, 1, 1⟩, .trade ⟨x, 3, 2, 0, 7⟩,
        .trade ⟨x, 4, 3, 12, 1⟩]
    let b : WireBar ℚ := ⟨x, 5, 4, 10, 12, 10, 12, 11, 2, 2⟩
    ∃ r, (run (pre ++ [.bar b])).2[4]? = some r ∧
      r.has .barVolumeReconstructMismatch = true ∧
      r.has .barTradeCountReconstructMismatch = false := by
  intro x y pre b
  have hwindow : window x pre = [⟨x, 1, 1, 10, 2⟩, ⟨x, 4, 3, 12, 1⟩] := by decide +kernel
  obtain ⟨r, hr, _, hflags⟩ := bar_reconstruction_exact pre [] b (by decide +kernel)
    (by decide +kernel)
  obtain ⟨hvolume, hcount, _⟩ := hflags (by rw [show b.symbol = x from rfl, hwindow]; simp)
  refine ⟨r, hr, hvolume.mpr (by decide +kernel), ?_⟩
  rw [← Bool.not_eq_true, hcount]
  decide +kernel

end Validator

end OhlcvValidator
