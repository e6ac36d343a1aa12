import Mathlib

namespace OhlcvValidator

/-! The proleptic Gregorian calendar, with years before the first one counted down from 0. -/

def isLeapYear (y : Int) : Bool :=
  y % 4 = 0 ∧ (y % 100 ≠ 0 ∨ y % 400 = 0)

def daysInMonth (y : Int) (m : Nat) : Nat :=
  if m = 2 then if isLeapYear y then 29 else 28
  else if m = 4 ∨ m = 6 ∨ m = 9 ∨ m = 11 then 30
  else 31

/-- The days of the months before month `m` of a year. -/
def daysBeforeMonth (y : Int) (m : Nat) : Nat :=
  ∑ k ∈ Finset.range (m - 1), daysInMonth y (k + 1)

/-- The days of the years from year 1 up to year `y`. -/
def daysBeforeYear (y : Int) : Int :=
  365 * (y - 1) + (y - 1) / 4 - (y - 1) / 100 + (y - 1) / 400

/-- The days from 1 January 1970 to a day of a year's month, numbered from 1. -/
def dayNumber (y : Int) (m : Nat) (d : Int) : Int :=
  daysBeforeYear y + daysBeforeMonth y m + (d - 1) - daysBeforeYear 1970

theorem daysInMonth_pos (y : Int) (m : Nat) : 28 ≤ daysInMonth y m := by
  unfold daysInMonth
  split_ifs <;> omega

@[simp] theorem daysBeforeMonth_one (y : Int) : daysBeforeMonth y 1 = 0 := rfl

theorem daysBeforeMonth_succ {m : Nat} (y : Int) (hm : 1 ≤ m) :
    daysBeforeMonth y (m + 1) = daysBeforeMonth y m + daysInMonth y m := by
  obtain ⟨k, rfl⟩ := Nat.exists_eq_add_of_le' hm
  exact Finset.sum_range_succ _ _

theorem daysBeforeMonth_mono (y : Int) : Monotone (daysBeforeMonth y) := fun _ _ h =>
  Finset.sum_le_sum_of_subset (Finset.range_subset_range.mpr (Nat.sub_le_sub_right h 1))

/-- A year's months make up the year. -/
theorem daysBeforeYear_succ (y : Int) :
    daysBeforeYear (y + 1) = daysBeforeYear y + daysBeforeMonth y 13 := by
  have hmonths : daysBeforeMonth y 13 = if isLeapYear y then 366 else 365 := by
    cases h : isLeapYear y <;> simp [daysBeforeMonth, Finset.sum_range_succ, daysInMonth, h]
  rw [hmonths]
  unfold daysBeforeYear
  by_cases h : isLeapYear y = true
  · have hleap := h
    simp only [isLeapYear, decide_eq_true_eq] at hleap
    rw [if_pos h]
    push_cast
    omega
  · have hleap := h
    simp only [isLeapYear, decide_eq_true_eq] at hleap
    rw [if_neg h]
    push_cast
    omega

theorem daysBeforeYear_mono : Monotone daysBeforeYear :=
  monotone_int_of_le_succ fun y => by
    rw [daysBeforeYear_succ]
    omega

/-- A day of the calendar. -/
@[ext] structure Date where
  year : Int
  month : Nat
  day : Nat
  month_pos : 1 ≤ month
  month_le : month ≤ 12
  day_pos : 1 ≤ day
  day_le : day ≤ daysInMonth year month
  deriving DecidableEq, Repr

namespace Date

def dayNumber (d : Date) : Int :=
  OhlcvValidator.dayNumber d.year d.month d.day

def epoch : Date where
  year := 1970
  month := 1
  day := 1
  month_pos := by decide
  month_le := by decide
  day_pos := by decide
  day_le := by decide

/-- The day after. -/
def next (d : Date) : Date :=
  if h : d.day < daysInMonth d.year d.month then
    { d with day := d.day + 1, day_pos := by omega, day_le := h }
  else if h : d.month < 12 then
    { d with
      month := d.month + 1, day := 1
      month_pos := by omega, month_le := h
      day_pos := by omega, day_le := by have := daysInMonth_pos d.year (d.month + 1); omega }
  else
    { year := d.year + 1, month := 1, day := 1
      month_pos := by omega, month_le := by omega
      day_pos := by omega, day_le := by have := daysInMonth_pos (d.year + 1) 1; omega }

theorem dayNumber_next (d : Date) : d.next.dayNumber = d.dayNumber + 1 := by
  have hday := d.day_le
  have hmonth := d.month_le
  have hsucc := daysBeforeMonth_succ d.year d.month_pos
  unfold next
  split
  next =>
    simp only [dayNumber, OhlcvValidator.dayNumber]
    push_cast
    omega
  next hlast =>
    split
    next =>
      simp only [dayNumber, OhlcvValidator.dayNumber, hsucc]
      push_cast
      omega
    next hdec =>
      have hm : d.month = 12 := by omega
      rw [hm] at hsucc hday hlast
      change daysBeforeMonth d.year 13 = _ at hsucc
      have hyear := daysBeforeYear_succ d.year
      simp only [dayNumber, OhlcvValidator.dayNumber, hyear, hm, daysBeforeMonth_one]
      push_cast
      omega

/-- Where a date lies in its year and its month. -/
theorem dayNumber_bounds (d : Date) :
    d.day ≤ daysInMonth d.year d.month ∧
      daysBeforeMonth d.year d.month + daysInMonth d.year d.month =
        daysBeforeMonth d.year (d.month + 1) ∧
      daysBeforeMonth d.year (d.month + 1) ≤ daysBeforeMonth d.year 13 :=
  ⟨d.day_le, (daysBeforeMonth_succ d.year d.month_pos).symm,
    daysBeforeMonth_mono d.year (Nat.succ_le_succ d.month_le)⟩

theorem dayNumber_lt_of_year {a b : Date} (h : a.year < b.year) : a.dayNumber < b.dayNumber := by
  obtain ⟨hday, hmonth, hyear⟩ := a.dayNumber_bounds
  have hpos := b.day_pos
  have hnext := daysBeforeYear_mono (show a.year + 1 ≤ b.year from h)
  rw [daysBeforeYear_succ] at hnext
  unfold dayNumber OhlcvValidator.dayNumber
  omega

theorem dayNumber_lt_of_month {a b : Date} (hy : a.year = b.year) (h : a.month < b.month) :
    a.dayNumber < b.dayNumber := by
  obtain ⟨hday, hmonth, _⟩ := a.dayNumber_bounds
  have hpos := b.day_pos
  have hnext := daysBeforeMonth_mono a.year (show a.month + 1 ≤ b.month from h)
  unfold dayNumber OhlcvValidator.dayNumber
  rw [← hy]
  omega

/-- Different dates have different numbers. -/
theorem dayNumber_injective : Function.Injective dayNumber := by
  intro a b h
  rcases lt_trichotomy a.year b.year with hy | hy | hy
  · exact absurd h (dayNumber_lt_of_year hy).ne
  · rcases lt_trichotomy a.month b.month with hm | hm | hm
    · exact absurd h (dayNumber_lt_of_month hy hm).ne
    · refine Date.ext hy hm ?_
      unfold dayNumber OhlcvValidator.dayNumber at h
      rw [hy, hm] at h
      omega
    · exact absurd h (dayNumber_lt_of_month hy.symm hm).ne'
  · exact absurd h (dayNumber_lt_of_year hy).ne'

theorem dayNumber_iterate (n : Nat) : (next^[n] epoch).dayNumber = n := by
  induction n with
  | zero => decide
  | succ n ih =>
    rw [Function.iterate_succ_apply', dayNumber_next, ih]
    push_cast
    rfl

/-- The number of a date counts the days to it from the epoch. -/
theorem iterate_next_epoch {d : Date} {n : Nat} (h : d.dayNumber = n) : next^[n] epoch = d :=
  dayNumber_injective (by rw [dayNumber_iterate, h])

/-- The dates of a range of years have numbers between those of its ends. -/
theorem dayNumber_range {d : Date} {lo hi : Int} (hlo : lo ≤ d.year) (hhi : d.year ≤ hi) :
    daysBeforeYear lo - daysBeforeYear 1970 ≤ d.dayNumber ∧
      d.dayNumber < daysBeforeYear (hi + 1) - daysBeforeYear 1970 := by
  obtain ⟨hday, hmonth, hyear⟩ := d.dayNumber_bounds
  have hpos := d.day_pos
  have hfrom := daysBeforeYear_mono hlo
  have hto := daysBeforeYear_mono (show d.year + 1 ≤ hi + 1 by omega)
  rw [daysBeforeYear_succ] at hto
  unfold dayNumber OhlcvValidator.dayNumber
  omega

end Date

end OhlcvValidator
