import Mathlib

namespace OhlcvValidator

/-- A ring size as the ring classes accept it: at least two, with no bit in
common with its predecessor, and a 64-bit `size_t`. -/
structure PowTwo where
  size : Nat
  two_le : 2 ≤ size
  mask_eq_zero : size &&& (size - 1) = 0
  fits : size < 2 ^ 64

namespace PowTwo

def two : PowTwo := ⟨2, by decide, by decide, by decide⟩

def four : PowTwo := ⟨4, by decide, by decide, by decide⟩

variable (w : PowTwo)

theorem size_pos : 0 < w.size := by
  have := w.two_le
  omega

theorem exists_pow : ∃ k, w.size = 2 ^ k :=
  (Nat.and_sub_one_eq_zero_iff_isPowerOfTwo w.size_pos.ne').mp w.mask_eq_zero

theorem and_mask (n : Nat) : n &&& (w.size - 1) = n % w.size := by
  obtain ⟨k, hk⟩ := w.exists_pow
  rw [hk, Nat.and_two_pow_sub_one_eq_mod]

/-- The ring slot of a counter: its low bits. -/
def index (x : UInt64) : Fin w.size :=
  ⟨x.toNat &&& (w.size - 1), by
    rw [w.and_mask]
    exact Nat.mod_lt _ w.size_pos⟩

/-- The ring slot of a position that no word bounds. -/
def slotOf (n : Nat) : Fin w.size :=
  ⟨n % w.size, Nat.mod_lt _ w.size_pos⟩

theorem index_eq_slotOf (x : UInt64) : w.index x = w.slotOf x.toNat :=
  Fin.ext (w.and_mask x.toNat)

/-- The size divides the counter range, so wrapping a counter keeps its slot. -/
theorem mod_word (n : Nat) : n % 2 ^ 64 % w.size = n % w.size := by
  obtain ⟨k, hk⟩ := w.exists_pow
  have hlt : k < 64 := (Nat.pow_lt_pow_iff_right (by omega)).mp (hk ▸ w.fits)
  rw [hk]
  exact Nat.mod_mod_of_dvd n (Nat.pow_dvd_pow 2 hlt.le)

theorem slotOf_mod_word (n : Nat) : w.slotOf (n % 2 ^ 64) = w.slotOf n :=
  Fin.ext (w.mod_word n)

end PowTwo

theorem toNat_succ {x : UInt64} (h : x.toNat < 2 ^ 64 - 1) : (x + 1).toNat = x.toNat + 1 := by
  rw [UInt64.toNat_add, UInt64.toNat_one]
  omega

theorem succ_add_ofNat (x : UInt64) (n : Nat) :
    x + 1 + UInt64.ofNat n = x + UInt64.ofNat (n + 1) := by
  rw [UInt64.ofNat_add, UInt64.add_assoc, UInt64.add_comm 1]
  rfl

/-- The distance of two counters that are near each other survives wrapping. -/
theorem toNat_ofNat_sub {n i : Nat} (hle : i ≤ n) (hlt : n - i < 2 ^ 64) :
    (UInt64.ofNat n - UInt64.ofNat i).toNat = n - i := by
  rw [UInt64.toNat_sub, UInt64.toNat_ofNat', UInt64.toNat_ofNat']
  omega

theorem ofNat_eq_ofNat_iff {n i : Nat} (hle : i ≤ n) (hlt : n - i < 2 ^ 64) :
    UInt64.ofNat i = UInt64.ofNat n ↔ i = n := by
  refine ⟨?_, fun h => by rw [h]⟩
  intro h
  have := toNat_ofNat_sub hle hlt
  rw [h, UInt64.sub_self] at this
  have hz : (0 : UInt64).toNat = 0 := rfl
  omega

theorem PowTwo.index_ofNat (w : PowTwo) (n : Nat) : w.index (UInt64.ofNat n) = w.slotOf n := by
  rw [w.index_eq_slotOf, UInt64.toNat_ofNat', w.slotOf_mod_word]

/-- Two positions of one window with the same slot are the same position. -/
theorem eq_of_mod_eq_of_window {n f s t : Nat} (hs : f ≤ s) (hs' : s < f + n)
    (ht : f ≤ t) (ht' : t < f + n) (h : s % n = t % n) : s = t := by
  have hdiv : ∀ {x y : Nat}, x ≤ y → y < x + n → x % n = y % n → x = y := by
    intro x y hle hlt hmod
    have hd : n ∣ y - x := (Nat.modEq_iff_dvd' hle).mp hmod
    have := Nat.eq_zero_of_dvd_of_lt hd (by omega)
    omega
  rcases Nat.le_total s t with hle | hle
  · exact hdiv hle (by omega) h
  · exact (hdiv hle (by omega) h.symm).symm

theorem PowTwo.eq_of_slotOf_eq (w : PowTwo) {f s t : Nat} (hs : f ≤ s) (hs' : s < f + w.size)
    (ht : f ≤ t) (ht' : t < f + w.size) (h : w.slotOf s = w.slotOf t) : s = t :=
  eq_of_mod_eq_of_window hs hs' ht ht' (congrArg Fin.val h)

end OhlcvValidator
