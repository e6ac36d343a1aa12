import OhlcvValidator.LiveReport

namespace OhlcvValidator

theorem ofNat_countP_concat {α : Type} (p : α → Bool) (xs : List α) (x : α) :
    UInt64.ofNat ((xs ++ [x]).countP p) = Replay.bumpIf (p x) (UInt64.ofNat (xs.countP p)) := by
  rw [List.countP_append, List.countP_singleton]
  cases p x with
  | false => rfl
  | true => exact UInt64.ofNat_add _ 1

theorem ofNat_countP_eq_zero_iff {α : Type} {p : α → Bool} {xs : List α} (h : xs.length < 2 ^ 64) :
    UInt64.ofNat (xs.countP p) = 0 ↔ ∀ x ∈ xs, p x = false := by
  have hfits : xs.countP p < 2 ^ 64 := List.countP_le_length.trans_lt h
  rw [← UInt64.toNat_inj, UInt64.toNat_ofNat_of_lt' hfits, UInt64.toNat_zero, List.countP_eq_zero]
  simp

theorem Violation.shift_lt (v : Violation) : v.shift < 19 := by
  cases v <;> decide

namespace Ingest

open Validator (Result)

variable {F : Type} [PriceArith F]

/-- The flags that a check of this kind can set. -/
def Kind.checks : Kind → List Violation
  | .trade => [.tradeNonPositivePrice, .tradeNonPositiveSize, .timestampRegression, .sequenceGap,
      .priceBandBreach]
  | .quote => [.quoteNonPositive, .quoteZeroSize, .quoteCrossed, .quoteLocked, .timestampRegression,
      .sequenceGap, .priceBandBreach]
  | .bar => [.barLowAboveHigh, .barOpenOutOfRange, .barCloseOutOfRange, .barVwapOutOfRange,
      .barNonPositivePrice, .barVolumeInconsistent, .timestampRegression, .sequenceGap,
      .barVolumeReconstructMismatch, .barTradeCountReconstructMismatch, .barVwapReconstructMismatch,
      .barOhlcReconstructMismatch]

def kindOfRecord : WireRecord F → Kind
  | .trade _ => .trade
  | .bar _ => .bar
  | .quote _ => .quote

/-- The result has only flags of the kind. -/
def Only (k : Kind) (r : Result) : Prop :=
  ∀ v, r.has v = true → v ∈ k.checks

/-- What a check of a kind can do to its result. -/
inductive Built (k : Kind) : Result → Prop
  | empty : Built k {}
  | flag (r : Result) (c : Bool) (v : Violation) :
    Built k r → v ∈ k.checks → Built k (r.flagIf c v)
  | gap (r : Result) (gap : UInt64) : Built k r → Built k { r with gap := gap }

variable {k : Kind} {r : Result}

theorem Built.flagIf (h : Built k r) {c : Bool} {v : Violation} (hv : v ∈ k.checks := by decide) :
    Built k (r.flagIf c v) :=
  h.flag r c v hv

theorem Built.checkSequencing (h : Built k r) (s : Validator.Slot F) (stream : Validator.Stream)
    (ts seq : UInt64) : Built k (Validator.checkSequencing s stream ts seq r).2 := by
  have hts : Violation.timestampRegression ∈ k.checks := by cases k <;> decide
  have hgap : Violation.sequenceGap ∈ k.checks := by cases k <;> decide
  unfold Validator.checkSequencing
  dsimp only
  split
  next => exact ((h.flagIf hts).flagIf hgap).gap _ _
  next => exact h.flagIf hts

theorem Built.checkPriceBand (h : Built .trade r) (s : Validator.Slot F) (price : F) :
    Built .trade (Validator.checkPriceBand s price r).2 := by
  unfold Validator.checkPriceBand
  split
  next => exact h
  next =>
    split
    next =>
      dsimp only
      split <;> exact h.flag r true .priceBandBreach (by decide)
    next => exact h

theorem Built.reconcile (h : Built .bar r) (s : Validator.Slot F) (b : WireBar F) :
    Built .bar (Validator.reconcile s b r).2 := by
  unfold Validator.reconcile
  split
  next => exact h
  next =>
    dsimp only
    split
    next => exact h.flagIf.flagIf.flagIf.flagIf
    next => exact h.flagIf.flagIf.flagIf

theorem built_withSlot (h : Built k r) (v : Validator F) (symbol : Symbol)
    {f : Validator.Slot F → Result → Validator.Slot F × Result}
    (hf : ∀ s, Built k (f s r).2) : Built k (v.withSlot symbol r f).2 := by
  unfold Validator.withSlot
  split
  next => exact h
  next => exact hf _

/-- A check does to its result what its own kind can do. -/
theorem built_check (v : Validator F) (rec : WireRecord F) :
    Built (kindOfRecord rec) (v.check rec).2 := by
  cases rec with
  | trade t =>
    have hflags : Built .trade (Validator.tradeFlags t) := Built.empty.flagIf.flagIf
    refine built_withSlot hflags v t.symbol fun s => ?_
    unfold Validator.tradeState
    dsimp only
    split
    next => exact (hflags.checkSequencing _ _ _ _).checkPriceBand _ _
    next => exact hflags.checkSequencing _ _ _ _
  | bar b =>
    have hflags : Built .bar (Validator.barFlags b) :=
      Built.empty.flagIf.flagIf.flagIf.flagIf.flagIf.flagIf
    exact built_withSlot hflags v b.symbol fun s => (hflags.checkSequencing _ _ _ _).reconcile _ _
  | quote q =>
    have hflags : Built .quote (Validator.quoteFlags q) := by
      unfold Validator.quoteFlags
      dsimp only
      split <;> exact Built.empty.flagIf.flagIf.flagIf
    refine built_withSlot hflags v q.symbol fun s => ?_
    unfold Validator.quoteState
    dsimp only
    split
    next => exact (hflags.checkSequencing _ _ _ _).flagIf
    next => exact hflags.checkSequencing _ _ _ _

theorem Built.only (h : Built k r) : Only k r := by
  induction h with
  | empty =>
    intro v hv
    simp at hv
  | flag r c v _ hv ih =>
    intro u hu
    rw [Result.has_flagIf, Bool.or_eq_true, Bool.and_eq_true, decide_eq_true_eq] at hu
    obtain hu | ⟨-, rfl⟩ := hu
    · exact ih u hu
    · exact hv
  | gap r gap _ ih => exact ih

/-- There are no flags but the named ones. -/
theorem Built.flags_lt (h : Built k r) : r.flags.toNat < 2 ^ 19 := by
  induction h with
  | empty => decide
  | flag r c v _ _ ih =>
    unfold Result.flagIf
    split
    next =>
      rw [UInt32.toNat_or, v.toNat_bit]
      exact Nat.or_lt_two_pow ih (Nat.pow_lt_pow_right (by decide) v.shift_lt)
    next => exact ih
  | gap r gap _ ih => exact ih

theorem exists_shift {i : Nat} (h : i < 19) : ∃ v : Violation, v.shift = i := by
  have hall : ∀ i < 19, ∃ v ∈ Kind.trade.checks ++ Kind.quote.checks ++ Kind.bar.checks,
      v.shift = i := by decide
  obtain ⟨v, _, hv⟩ := hall i h
  exact ⟨v, hv⟩

theorem Built.flags_eq_zero_iff (h : Built k r) :
    r.flags = 0 ↔ ∀ v ∈ k.checks, r.has v = false := by
  constructor
  · intro hzero v _
    simp [Result.has, hzero]
  · intro hnone
    refine UInt32.toNat_inj.mp (Nat.eq_of_testBit_eq fun i => ?_)
    rw [UInt32.toNat_zero, Nat.zero_testBit]
    by_cases hi : i < 19
    · obtain ⟨v, rfl⟩ := exists_shift hi
      rw [← Result.has_eq_testBit, ← Bool.not_eq_true]
      intro hv
      rw [hnone v (h.only v hv)] at hv
      cases hv
    · exact Nat.testBit_lt_two_pow (h.flags_lt.trans_le (Nat.pow_le_pow_right (by decide) (by omega)))

end Ingest

end OhlcvValidator
