import Mathlib

namespace OhlcvValidator

/-! Arithmetic in which every result is rounded to a number of a format. -/

/-- A monotone rounding to a binary format without overflow: the numbers of the format stay as
they are, twice a number is one, and so are 0 and a half. -/
structure Rounding where
  rnd : ℚ → ℚ
  mono : Monotone rnd
  idem : ∀ x, rnd (rnd x) = rnd x
  zero : rnd 0 = 0
  half : rnd (1 / 2) = 1 / 2
  double : ∀ x, rnd x = x → rnd (2 * x) = 2 * x

namespace Rounding

/-- A number of the format. -/
def Num (R : Rounding) : Type := { x : ℚ // R.rnd x = x }

variable {R : Rounding}

/-- The number that a value is rounded to. -/
def round (R : Rounding) (x : ℚ) : R.Num :=
  ⟨R.rnd x, R.idem x⟩

instance : LinearOrder R.Num := inferInstanceAs (LinearOrder { x : ℚ // R.rnd x = x })

instance : Add R.Num := ⟨fun a b => R.round (a.1 + b.1)⟩

instance : Sub R.Num := ⟨fun a b => R.round (a.1 - b.1)⟩

instance : Mul R.Num := ⟨fun a b => R.round (a.1 * b.1)⟩

instance : Div R.Num := ⟨fun a b => R.round (a.1 / b.1)⟩

variable {a b : R.Num} {x : ℚ}

theorem round_val (a : R.Num) : R.round a.1 = a :=
  Subtype.ext a.2

theorem round_mono : Monotone R.round := fun _ _ h => R.mono h

theorem le_round (h : a.1 ≤ x) : a ≤ R.round x :=
  (round_val a).symm.le.trans (round_mono h)

theorem round_le (h : x ≤ a.1) : R.round x ≤ a :=
  (round_mono h).trans (round_val a).le

theorem val_nonneg (h : R.round 0 ≤ a) : 0 ≤ a.1 := by
  have hle : R.rnd 0 ≤ a.1 := h
  rwa [R.zero] at hle

theorem le_add_of_nonneg (hb : R.round 0 ≤ b) : a ≤ a + b :=
  le_round (le_add_of_nonneg_right (val_nonneg hb))

theorem sub_le_of_nonneg (hb : R.round 0 ≤ b) : a - b ≤ a :=
  round_le (sub_le_self _ (val_nonneg hb))

theorem nonneg_mul (ha : R.round 0 ≤ a) (hb : R.round 0 ≤ b) : R.round 0 ≤ a * b :=
  round_mono (mul_nonneg (val_nonneg ha) (val_nonneg hb))

/-- Half of a rounded sum lies between the summands. -/
theorem midpoint (a b : R.Num) :
    min a b ≤ R.round (1 / 2) * (a + b) ∧ R.round (1 / 2) * (a + b) ≤ max a b := by
  have hhalf : (R.round (1 / 2)).1 = 1 / 2 := R.half
  have hmin : (min a b).1 ≤ a.1 ∧ (min a b).1 ≤ b.1 := ⟨min_le_left a b, min_le_right a b⟩
  have hmax : a.1 ≤ (max a b).1 ∧ b.1 ≤ (max a b).1 := ⟨le_max_left a b, le_max_right a b⟩
  have hlow : 2 * (min a b).1 ≤ (a + b).1 := by
    rw [← R.double _ (min a b).2]
    exact R.mono (by linarith)
  have hhigh : (a + b).1 ≤ 2 * (max a b).1 := by
    rw [← R.double _ (max a b).2]
    exact R.mono (by linarith)
  refine ⟨le_round ?_, round_le ?_⟩
  · rw [hhalf]
    linarith
  · rw [hhalf]
    linarith

/-- Down to the next multiple of a power of a half. -/
def fixedPoint (k : Nat) : Rounding where
  rnd x := ⌊x * 2 ^ (k + 1)⌋ / 2 ^ (k + 1)
  mono x y h := by
    dsimp only
    gcongr
  idem x := by
    have hpos : (2 : ℚ) ^ (k + 1) ≠ 0 := by positivity
    rw [div_mul_cancel₀ _ hpos, Int.floor_intCast]
  zero := by simp
  half := by
    have hpos : (2 : ℚ) ^ k ≠ 0 := by positivity
    have hint : (1 / 2 : ℚ) * 2 ^ (k + 1) = ((2 ^ k : Int) : ℚ) := by
      push_cast
      ring
    rw [hint, Int.floor_intCast, pow_succ]
    push_cast
    field_simp
  double x h := by
    have hpos : (2 : ℚ) ^ (k + 1) ≠ 0 := by positivity
    have hint : 2 * x * 2 ^ (k + 1) = ((2 * ⌊x * 2 ^ (k + 1)⌋ : Int) : ℚ) := by
      nth_rewrite 1 [← h]
      push_cast
      field_simp
    rw [hint, Int.floor_intCast, ← hint]
    field_simp

end Rounding

end OhlcvValidator
