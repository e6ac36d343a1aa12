import OhlcvValidator.Validator

namespace OhlcvValidator

theorem Violation.toNat_bit (v : Violation) : v.bit.toNat = 2 ^ v.shift := by
  cases v <;> rfl

theorem Violation.shift_injective : Function.Injective Violation.shift := by
  intro v u h
  cases v <;> cases u <;> first | rfl | cases h

namespace Validator

namespace Result

theorem has_eq_testBit (r : Result) (v : Violation) :
    r.has v = r.flags.toNat.testBit v.shift := by
  have hand : (r.flags &&& v.bit).toNat = (r.flags.toNat.testBit v.shift).toNat * 2 ^ v.shift := by
    rw [UInt32.toNat_and, v.toNat_bit, Nat.and_two_pow]
  unfold has
  cases hbit : r.flags.toNat.testBit v.shift with
  | false =>
    rw [hbit] at hand
    have hzero : r.flags &&& v.bit = 0 := UInt32.toNat_inj.mp (by simpa using hand)
    simp [hzero]
  | true =>
    rw [hbit] at hand
    have hne : r.flags &&& v.bit ≠ 0 := by
      intro hzero
      rw [hzero] at hand
      have hpos := Nat.two_pow_pos v.shift
      simp at hand
      omega
    simp [hne]

/-- Setting one flag leaves the others as they are. -/
@[simp] theorem has_flagIf (r : Result) (c : Bool) (v u : Violation) :
    (r.flagIf c v).has u = (r.has u || c && decide (v = u)) := by
  unfold flagIf
  cases c with
  | false => simp
  | true =>
    rw [if_pos rfl, has_eq_testBit, has_eq_testBit]
    show (r.flags ||| v.bit).toNat.testBit u.shift = _
    rw [UInt32.toNat_or, v.toNat_bit, Nat.testBit_or, Nat.testBit_two_pow]
    simp [Violation.shift_injective.eq_iff]

@[simp] theorem has_empty (v : Violation) : ({} : Result).has v = false := by
  simp [has_eq_testBit]

@[simp] theorem has_gap (r : Result) (gap : UInt64) (v : Violation) :
    ({ r with gap := gap } : Result).has v = r.has v := rfl

@[simp] theorem gap_flagIf (r : Result) (c : Bool) (v : Violation) :
    (r.flagIf c v).gap = r.gap := by
  unfold flagIf
  split <;> rfl

end Result

variable {F : Type} [PriceArith F]

/-- The sequencing check sets no flags but its own two. -/
theorem has_checkSequencing (s : Slot F) (stream : Stream) (ts seq : UInt64) (r : Result)
    {v : Violation} (hts : v ≠ .timestampRegression) (hgap : v ≠ .sequenceGap) :
    (checkSequencing s stream ts seq r).2.has v = r.has v := by
  unfold checkSequencing
  dsimp only
  split
  next => simp [hts.symm, hgap.symm]
  next => simp [hts.symm]

end Validator

end OhlcvValidator
