import OhlcvValidator.Rounding
import OhlcvValidator.WireRecords

namespace OhlcvValidator

open PriceArith (lit lt le)

/-- Prices are ordered, and sums, differences and products keep to the order. -/
class PriceLaws (F : Type) [PriceArith F] [LinearOrder F] : Prop where
  lt_iff : ∀ a b : F, lt a b = true ↔ a < b
  le_iff : ∀ a b : F, le a b = true ↔ a ≤ b
  lit_mono : Monotone (lit : ℚ → F)
  le_add : ∀ a b : F, lit 0 ≤ b → a ≤ a + b
  sub_le : ∀ a b : F, lit 0 ≤ b → a - b ≤ a
  mul_nonneg : ∀ a b : F, lit 0 ≤ a → lit 0 ≤ b → lit 0 ≤ a * b
  midpoint : ∀ a b : F, min a b ≤ lit (1 / 2) * (a + b) ∧ lit (1 / 2) * (a + b) ≤ max a b

instance : PriceLaws ℚ where
  lt_iff a b := decide_eq_true_iff
  le_iff a b := decide_eq_true_iff
  lit_mono := monotone_id
  le_add a b h := le_add_of_nonneg_right h
  sub_le a b h := sub_le_self a h
  mul_nonneg a b ha hb := mul_nonneg ha hb
  midpoint a b := by
    change _ ≤ 1 / 2 * (a + b) ∧ 1 / 2 * (a + b) ≤ _
    have := min_le_left a b
    have := min_le_right a b
    have := le_max_left a b
    have := le_max_right a b
    constructor <;> linarith

namespace Rounding

variable {R : Rounding}

/-- Prices of a format. -/
instance : PriceArith R.Num where
  lit := R.round
  ofUInt64 x := R.round x.toNat
  fabs a := R.round |a.1|
  fmax := max
  lt a b := decide (a < b)
  le a b := decide (a ≤ b)
  eq a b := decide (a = b)

instance : PriceLaws R.Num where
  lt_iff _ _ := decide_eq_true_iff
  le_iff _ _ := decide_eq_true_iff
  lit_mono := round_mono
  le_add _ _ h := le_add_of_nonneg h
  sub_le _ _ h := sub_le_of_nonneg h
  mul_nonneg _ _ ha hb := nonneg_mul ha hb
  midpoint := midpoint

end Rounding

end OhlcvValidator
