import OhlcvValidator.Timestamp

namespace OhlcvValidator

namespace Timestamp

variable {other : Int → Int → Int → Int} {s : List UInt8}

/-- Long enough, with the separators in place: all that is checked before the fraction. -/
structure Shape (s : List UInt8) : Prop where
  long : 20 ≤ s.length
  dash : s.getD 4 0 = '-'.toUInt8
  dash' : s.getD 7 0 = '-'.toUInt8
  tee : s.getD 10 0 = 'T'.toUInt8
  colon : s.getD 13 0 = ':'.toUInt8
  colon' : s.getD 16 0 = ':'.toUInt8

/-- What the parser checks. -/
theorem returns_iff :
    (∃ v, parseRfc3339Nano other s = .ok v) ↔
      Shape s ∧ (fraction (s.drop 19)).2.head? = some 'Z'.toUInt8 := by
  unfold parseRfc3339Nano
  split
  next h =>
    refine iff_of_false (by rintro ⟨v, ⟨⟩⟩) ?_
    rintro ⟨⟨hlong, h4, h7, h10, h13, h16⟩, _⟩
    rcases h with h | h | h | h | h | h
    · omega
    all_goals contradiction
  next h =>
    simp only [not_or, not_not, not_lt] at h
    obtain ⟨hlong, h4, h7, h10, h13, h16⟩ := h
    dsimp only
    split
    next hz => exact iff_of_false (by rintro ⟨v, ⟨⟩⟩) fun hshape => hz hshape.2
    next hz => exact iff_of_true ⟨_, rfl⟩ ⟨⟨hlong, h4, h7, h10, h13, h16⟩, not_not.mp hz⟩

/-- The digits at two positions next to each other, as a number. -/
def twoDigits (s : List UInt8) (k : Nat) : Nat :=
  ((s.getD k 0).toNat - 48) * 10 + ((s.getD (k + 1) 0).toNat - 48)

def yearOf (s : List UInt8) : Nat :=
  twoDigits s 0 * 100 + twoDigits s 2

/-- What the parser leaves unchecked: digits, the ranges of the fields, and the end of the
text. -/
structure Unchecked (s : List UInt8) : Prop where
  digits : ∀ k ∈ [0, 2, 5, 8, 11, 14, 17],
    isDigit (s.getD k 0) = true ∧ isDigit (s.getD (k + 1) 0) = true
  year : 1970 ≤ yearOf s ∧ yearOf s ≤ 2553
  month : 1 ≤ twoDigits s 5 ∧ twoDigits s 5 ≤ 12
  day : 1 ≤ twoDigits s 8 ∧ twoDigits s 8 ≤ daysInMonth (yearOf s) (twoDigits s 5)
  hour : twoDigits s 11 < 24
  minute : twoDigits s 14 < 60
  second : twoDigits s 17 < 60
  last : ∀ k < s.length, 19 ≤ k → s[k]? = some 'Z'.toUInt8 → k + 1 = s.length

theorem digitChar_congr {m n : Nat} (h : m % 10 = n % 10) : digitChar m = digitChar n := by
  rw [digitChar, digitChar, h]

/-- Two digits are read and written back. -/
theorem digits2_twoDigits {k n : Nat}
    (h : isDigit (s.getD k 0) = true ∧ isDigit (s.getD (k + 1) 0) = true)
    (hn : n % 100 = twoDigits s k) :
    Instant.digits2 n = [s.getD k 0, s.getD (k + 1) 0] := by
  have h0 := isDigit_iff.mp h.1
  have h1 := isDigit_iff.mp h.2
  unfold twoDigits at hn
  rw [Instant.digits2, ← digitChar_sub h.1, ← digitChar_sub h.2]
  rw [digitChar_congr (show n / 10 % 10 = ((s.getD k 0).toNat - 48) % 10 by omega),
    digitChar_congr (show n % 10 = ((s.getD (k + 1) 0).toNat - 48) % 10 by omega)]

theorem take_eq_map_getD {n : Nat} (h : n ≤ s.length) :
    s.take n = (List.range n).map fun k => s.getD k 0 := by
  refine List.ext_getElem (by simp [h]) fun k hk _ => ?_
  have hlt : k < s.length := by
    rw [List.length_take] at hk
    omega
  simp [List.getElem?_eq_getElem hlt]

/-- The loops skip exactly the digits. -/
theorem dropWhile_keepDigits (nano : UInt64) (k : Nat) :
    (keepDigits nano k s).2.2.dropWhile isDigit = s.dropWhile isDigit := by
  induction s generalizing nano k with
  | nil => rfl
  | cons c s ih =>
    rw [keepDigits]
    split
    next h => rw [ih, List.dropWhile_cons_of_pos h.1]
    next => rfl

/-- What is accepted after the seconds, if nothing follows the `Z`. -/
theorem exists_fraction {t : List UInt8} (hz : (fraction t).2.head? = some 'Z'.toUInt8)
    (hlast : ∀ k < t.length, t[k]? = some 'Z'.toUInt8 → k + 1 = t.length) :
    ∃ frac, t = Instant.fractionText frac ++ ['Z'.toUInt8] := by
  cases t with
  | nil => cases hz
  | cons c t =>
    rw [fraction] at hz
    split at hz
    next hdot =>
      -- the digits after the point end at the `Z`
      subst hdot
      simp only [dropWhile_keepDigits] at hz
      obtain ⟨rest, hrest⟩ : ∃ rest, t.dropWhile isDigit = 'Z'.toUInt8 :: rest :=
        List.head?_eq_some_iff.mp hz
      have hsplit : t = t.takeWhile isDigit ++ 'Z'.toUInt8 :: rest := by
        rw [← hrest, List.takeWhile_append_dropWhile]
      obtain ⟨ds, hds⟩ := exists_digits fun c hc => List.mem_takeWhile_imp hc
      rw [hds] at hsplit
      have hend := hlast (ds.length + 1) (by rw [hsplit]; simp) (by rw [hsplit]; simp)
      rw [hsplit] at hend
      have hnil : rest = [] := by simpa using hend
      exact ⟨some ds, by rw [hsplit, hnil]; rfl⟩
    next =>
      obtain rfl : c = 'Z'.toUInt8 := Option.some.inj hz
      have hend := hlast 0 (by simp) rfl
      have hnil : t = [] := by simpa using hend
      exact ⟨none, by rw [hnil]; rfl⟩

/-- The instant that such a text stands for. -/
def instantOf (s : List UInt8) (h : Unchecked s) (frac : Option (List (Fin 10))) : Instant where
  year := yearOf s
  month := twoDigits s 5
  day := twoDigits s 8
  month_pos := h.month.1
  month_le := h.month.2
  day_pos := h.day.1
  day_le := h.day.2
  hour := twoDigits s 11
  minute := twoDigits s 14
  second := twoDigits s 17
  fraction := frac
  year_ge := by exact_mod_cast h.year.1
  year_le := by exact_mod_cast h.year.2
  hour_lt := h.hour
  minute_lt := h.minute
  second_lt := h.second

theorem twoDigits_lt {k : Nat}
    (h : isDigit (s.getD k 0) = true ∧ isDigit (s.getD (k + 1) 0) = true) :
    twoDigits s k < 100 := by
  have h0 := isDigit_iff.mp h.1
  have h1 := isDigit_iff.mp h.2
  unfold twoDigits
  omega

theorem seconds_instantOf (hs : Shape s) (h : Unchecked s) (frac : Option (List (Fin 10))) :
    (instantOf s h frac).seconds = s.take 19 := by
  have hlt := fun k hk => twoDigits_lt (h.digits k hk)
  have hmod := fun k hk => Nat.mod_eq_of_lt (hlt k hk)
  have hcentury : (yearOf s / 100) % 100 = twoDigits s 0 := by
    have := hlt 0 (by simp)
    have := hlt 2 (by simp)
    unfold yearOf
    omega
  have hyear : yearOf s % 100 = twoDigits s 2 := by
    have := hlt 2 (by simp)
    unfold yearOf
    omega
  have hlong := hs.long
  rw [take_eq_map_getD (by omega)]
  change _ = [s.getD 0 0, s.getD 1 0, s.getD 2 0, s.getD 3 0, s.getD 4 0, s.getD 5 0, s.getD 6 0,
    s.getD 7 0, s.getD 8 0, s.getD 9 0, s.getD 10 0, s.getD 11 0, s.getD 12 0, s.getD 13 0,
    s.getD 14 0, s.getD 15 0, s.getD 16 0, s.getD 17 0, s.getD 18 0]
  simp only [Instant.seconds, instantOf, Int.toNat_natCast]
  rw [digits2_twoDigits (h.digits 0 (by simp)) hcentury,
    digits2_twoDigits (h.digits 2 (by simp)) hyear,
    digits2_twoDigits (h.digits 5 (by simp)) (hmod 5 (by simp)),
    digits2_twoDigits (h.digits 8 (by simp)) (hmod 8 (by simp)),
    digits2_twoDigits (h.digits 11 (by simp)) (hmod 11 (by simp)),
    digits2_twoDigits (h.digits 14 (by simp)) (hmod 14 (by simp)),
    digits2_twoDigits (h.digits 17 (by simp)) (hmod 17 (by simp)),
    hs.dash, hs.dash', hs.tee, hs.colon, hs.colon']
  rfl

namespace Instant

theorem digits_text_isDigit (i : Instant) : ∀ k ∈ [0, 2, 5, 8, 11, 14, 17],
    isDigit (i.text.getD k 0) = true ∧ isDigit (i.text.getD (k + 1) 0) = true := by
  simp only [List.forall_mem_cons, getD_text, Nat.reduceLT, Nat.reduceAdd]
  simp [seconds, digits2, isDigit_digitChar]

/-- The fields are read off their digits. -/
theorem twoDigits_text (i : Instant) :
    yearOf i.text = i.year.toNat ∧ twoDigits i.text 5 = i.month ∧ twoDigits i.text 8 = i.day ∧
      twoDigits i.text 11 = i.hour ∧ twoDigits i.text 14 = i.minute ∧
      twoDigits i.text 17 = i.second := by
  have hyear := i.year_ge
  have hyear' := i.year_le
  have hmonth := i.month_le
  have hday := i.day_le
  have hday' := i.daysInMonth_le
  have hhour := i.hour_lt
  have hminute := i.minute_lt
  have hsecond := i.second_lt
  simp only [yearOf, twoDigits, getD_text, Nat.reduceLT, Nat.reduceAdd, seconds, digits2,
    List.cons_append, List.nil_append, List.getD_cons_zero, List.getD_cons_succ, toNat_digitChar]
  omega

theorem fractionText_ne (frac : Option (List (Fin 10))) : 'Z'.toUInt8 ∉ fractionText frac := by
  cases frac with
  | none => simp [fractionText]
  | some ds =>
    have hz : ∀ n, digitChar n ≠ 'Z'.toUInt8 := by
      intro n hn
      have hdigit := isDigit_digitChar n
      rw [hn] at hdigit
      cases hdigit
    have hdot : 'Z'.toUInt8 ≠ '.'.toUInt8 := by decide
    simp [fractionText, hz, hdot]

/-- The only `Z` after the seconds is the last character. -/
theorem last_text (i : Instant) : ∀ k < i.text.length, 19 ≤ k →
    i.text[k]? = some 'Z'.toUInt8 → k + 1 = i.text.length := by
  intro k hk hk19 hz
  have hlen : i.text.length = 19 + (fractionText i.fraction).length + 1 := by
    rw [text, List.length_append, List.length_append, length_seconds, List.length_singleton]
  by_contra hne
  have hinside : k < 19 + (fractionText i.fraction).length := by omega
  rw [text, List.getElem?_append_left (by simpa [length_seconds] using hinside),
    List.getElem?_append_right (by simpa [length_seconds] using hk19)] at hz
  exact fractionText_ne _ (List.mem_of_getElem? hz)

/-- The text of an instant has in order what the parser leaves unchecked. -/
theorem unchecked_text (i : Instant) : Unchecked i.text := by
  obtain ⟨hyear, hmonth, hday, hhour, hminute, hsecond⟩ := i.twoDigits_text
  have hge := i.year_ge
  have hle := i.year_le
  have hnat : ((i.year.toNat : Nat) : Int) = i.year := Int.toNat_of_nonneg (by omega)
  refine ⟨i.digits_text_isDigit, ?_, ?_, ?_, ?_, ?_, ?_, i.last_text⟩
  · rw [hyear]
    omega
  · rw [hmonth]
    exact ⟨i.month_pos, i.month_le⟩
  · rw [hyear, hmonth, hday, hnat]
    exact ⟨i.day_pos, i.day_le⟩
  · rw [hhour]
    exact i.hour_lt
  · rw [hminute]
    exact i.minute_lt
  · rw [hsecond]
    exact i.second_lt

end Instant

/-- A text whose unchecked parts are in order is that of an instant, if the parser accepts it. -/
theorem exists_instant (hs : Shape s) (hz : (fraction (s.drop 19)).2.head? = some 'Z'.toUInt8)
    (h : Unchecked s) : ∃ i : Instant, s = i.text := by
  have hlong := hs.long
  obtain ⟨frac, hfrac⟩ := exists_fraction hz fun k hk hzk => by
    rw [List.length_drop] at hk ⊢
    have := h.last (19 + k) (by omega) (by omega) (by simpa using hzk)
    omega
  refine ⟨instantOf s h frac, ?_⟩
  rw [Instant.text, seconds_instantOf hs, List.append_assoc]
  exact (List.take_append_drop 19 s).symm.trans (congrArg _ hfrac)

/-- The texts that the parser accepts are those of the instants exactly where the unchecked parts
of what it accepts are in order. -/
theorem returns_iff_instant :
    ((∃ v, parseRfc3339Nano other s = .ok v) ↔ ∃ i : Instant, s = i.text) ↔
      (Shape s → (fraction (s.drop 19)).2.head? = some 'Z'.toUInt8 → Unchecked s) := by
  constructor
  · intro h hshape hz
    obtain ⟨i, rfl⟩ := h.mp (returns_iff.mpr ⟨hshape, hz⟩)
    exact i.unchecked_text
  · intro h
    constructor
    · intro hreturns
      obtain ⟨hshape, hz⟩ := returns_iff.mp hreturns
      exact exists_instant hshape hz (h hshape hz)
    · rintro ⟨i, rfl⟩
      obtain ⟨nano, _, hparse⟩ := i.parse_text other
      exact ⟨_, hparse⟩

/-- The day of a text that is no date. -/
def februaryText : List UInt8 :=
  ascii "2024-02-31T00:00:00Z"

/-- An hour that is no number, and more text after the `Z`. -/
def trailingText : List UInt8 :=
  ascii "2024-01-01Tx0:00:00Z and more"

/-- Both are accepted, the first as the second of March. -/
theorem malformed_returns :
    (parseRfc3339Nano (fun _ _ _ => 0) februaryText =
        parseRfc3339Nano (fun _ _ _ => 0) (ascii "2024-03-02T00:00:00Z") ∧
      (∀ other, ∃ v, parseRfc3339Nano other februaryText = .ok v) ∧
      ¬∃ i : Instant, februaryText = i.text) ∧
    (∀ other, ∃ v, parseRfc3339Nano other trailingText = .ok v) ∧
      ¬∃ i : Instant, trailingText = i.text := by
  refine ⟨⟨by decide +kernel, fun _ => ⟨_, rfl⟩, ?_⟩, fun _ => ⟨_, rfl⟩, ?_⟩
  · rintro ⟨i, htext⟩
    obtain ⟨hyear, hmonth, hday, _⟩ := i.digits_text
    have hle := i.day_le
    rw [← htext] at hyear hmonth hday
    have hyear' : i.year = 2024 := hyear.symm.trans (by decide +kernel)
    have hmonth' : (i.month : Int) = 2 := hmonth.symm.trans (by decide +kernel)
    have hday' : (i.day : Int) = 31 := hday.symm.trans (by decide +kernel)
    rw [hyear', Int.natCast_inj.mp (hmonth'.trans Nat.cast_two.symm)] at hle
    have hfebruary : daysInMonth 2024 2 = 29 := by decide
    omega
  · rintro ⟨i, htext⟩
    have hlast : trailingText.getLast? = i.text.getLast? := by rw [htext]
    rw [Instant.text, List.getLast?_concat] at hlast
    exact absurd hlast (by decide +kernel)

end Timestamp

end OhlcvValidator
