import Mathlib

namespace OhlcvValidator

/-! Decimal digits as characters, and the fractions that lists of digits stand for. -/

/-- The last decimal digit of a number. -/
def digitChar (n : Nat) : UInt8 :=
  UInt8.ofNat (48 + n % 10)

def isDigit (c : UInt8) : Bool :=
  '0'.toUInt8 ≤ c && c ≤ '9'.toUInt8

theorem isDigit_iff {c : UInt8} : isDigit c = true ↔ 48 ≤ c.toNat ∧ c.toNat ≤ 57 := by
  simp only [isDigit, Bool.and_eq_true, decide_eq_true_eq, UInt8.le_iff_toNat_le]
  rfl

@[simp] theorem toNat_digitChar (n : Nat) : (digitChar n).toNat = 48 + n % 10 := by
  rw [digitChar, UInt8.toNat_ofNat']
  omega

@[simp] theorem isDigit_digitChar (n : Nat) : isDigit (digitChar n) = true := by
  rw [isDigit_iff, toNat_digitChar]
  omega

/-- Every digit character is the one of its value. -/
theorem digitChar_sub {c : UInt8} (h : isDigit c = true) : digitChar (c.toNat - 48) = c := by
  rw [isDigit_iff] at h
  refine UInt8.toNat_inj.mp ?_
  rw [toNat_digitChar]
  omega

/-- A text of digits is one of a list of digits. -/
theorem exists_digits {s : List UInt8} (h : ∀ c ∈ s, isDigit c = true) :
    ∃ ds : List (Fin 10), s = ds.map fun d => digitChar d.val := by
  induction s with
  | nil => exact ⟨[], rfl⟩
  | cons c s ih =>
    obtain ⟨hc, hs⟩ := List.forall_mem_cons.mp h
    obtain ⟨ds, rfl⟩ := ih hs
    have hlt : c.toNat - 48 < 10 := by
      have := isDigit_iff.mp hc
      omega
    exact ⟨⟨c.toNat - 48, hlt⟩ :: ds, by simp [digitChar_sub hc]⟩

/-- What a list of digits after the point is worth. -/
def fractionValue : List (Fin 10) → ℚ
  | [] => 0
  | d :: ds => (d.val + fractionValue ds) / 10

/-- The first `n` digits, with zeros where there are fewer. -/
def firstDigits : Nat → List (Fin 10) → Nat
  | 0, _ => 0
  | _ + 1, [] => 0
  | n + 1, d :: ds => d.val * 10 ^ n + firstDigits n ds

theorem fractionValue_bounds (ds : List (Fin 10)) :
    0 ≤ fractionValue ds ∧ fractionValue ds < 1 := by
  induction ds with
  | nil => simp [fractionValue]
  | cons d ds ih =>
    have hd : (d.val : ℚ) ≤ 9 := by exact_mod_cast Nat.le_of_lt_succ d.isLt
    have hd0 : (0 : ℚ) ≤ d.val := by positivity
    rw [fractionValue]
    constructor <;> linarith

/-- Scaling up and rounding down keeps the first digits. -/
theorem floor_fractionValue (n : Nat) (ds : List (Fin 10)) :
    ⌊fractionValue ds * 10 ^ n⌋ = firstDigits n ds := by
  induction n generalizing ds with
  | zero =>
    obtain ⟨h0, h1⟩ := fractionValue_bounds ds
    rw [pow_zero, mul_one, Int.floor_eq_iff]
    simpa [firstDigits] using ⟨h0, h1⟩
  | succ n ih =>
    cases ds with
    | nil => simp [fractionValue, firstDigits]
    | cons d ds =>
      have hscale : fractionValue (d :: ds) * 10 ^ (n + 1) =
          ((d.val * 10 ^ n : ℕ) : ℚ) + fractionValue ds * 10 ^ n := by
        rw [fractionValue, pow_succ]
        push_cast
        ring
      rw [hscale, Int.floor_natCast_add, ih, firstDigits]
      push_cast
      rfl

theorem firstDigits_lt (n : Nat) (ds : List (Fin 10)) : firstDigits n ds < 10 ^ n := by
  induction n generalizing ds with
  | zero => simp [firstDigits]
  | succ n ih =>
    cases ds with
    | nil => simp [firstDigits]
    | cons d ds =>
      have hd : d.val * 10 ^ n ≤ 9 * 10 ^ n :=
        Nat.mul_le_mul_right _ (Nat.le_of_lt_succ d.isLt)
      have := ih ds
      rw [firstDigits, pow_succ]
      omega

end OhlcvValidator
