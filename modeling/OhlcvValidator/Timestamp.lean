import OhlcvValidator.DecimalDigits
import OhlcvValidator.GregorianCalendar

namespace OhlcvValidator

/-- The characters of a text literal. -/
def ascii (s : String) : List UInt8 :=
  s.toList.map Char.toUInt8

structure RuntimeError where
  what : List UInt8
  deriving DecidableEq, Repr

namespace Timestamp

/-- `s[i] - '0'` of a signed character. -/
def charValue (c : UInt8) : Int :=
  c.toInt8.toInt - 48

/-- `sys_days` of a year, a month and a day. The standard says what it is for the twelve months
and for fields that their types can hold, also for a day that the month does not have; for all
others it is left open and given by `other`. -/
def sysDays (other : Int → Int → Int → Int) (yr mo dy : Int) : Int :=
  if (-32767 ≤ yr ∧ yr ≤ 32767) ∧ (1 ≤ mo ∧ mo ≤ 12) ∧ 0 ≤ dy ∧ dy ≤ 255 then
    dayNumber yr mo.toNat dy
  else other yr mo dy

/-- The loop that keeps up to nine digits of the fraction. -/
def keepDigits (nano : UInt64) (digits : Nat) : List UInt8 → UInt64 × Nat × List UInt8
  | [] => (nano, digits, [])
  | c :: s =>
    if isDigit c ∧ digits < 9 then
      keepDigits (nano * 10 + UInt64.ofInt (charValue c)) (digits + 1) s
    else (nano, digits, c :: s)

/-- The loop that scales up for `k` missing digits. -/
def scaleUp (nano : UInt64) : Nat → UInt64
  | 0 => nano
  | k + 1 => scaleUp (nano * 10) k

/-- The optional fraction in nanoseconds, and the text after it. -/
def fraction : List UInt8 → UInt64 × List UInt8
  | [] => (0, [])
  | c :: s =>
    if c = '.'.toUInt8 then
      let (nano, digits, rest) := keepDigits 0 0 s
      (scaleUp nano (9 - digits), rest.dropWhile isDigit)
    else (0, c :: s)

def parseRfc3339Nano (other : Int → Int → Int → Int) (s : List UInt8) :
    Except RuntimeError UInt64 :=
  if s.length < 20 ∨ s.getD 4 0 ≠ '-'.toUInt8 ∨ s.getD 7 0 ≠ '-'.toUInt8 ∨
      s.getD 10 0 ≠ 'T'.toUInt8 ∨ s.getD 13 0 ≠ ':'.toUInt8 ∨ s.getD 16 0 ≠ ':'.toUInt8 then
    throw ⟨ascii "malformed timestamp: " ++ s⟩
  else
    let d (i : Nat) : Int := charValue (s.getD i 0)
    let yr := d 0 * 1000 + d 1 * 100 + d 2 * 10 + d 3
    let mo := d 5 * 10 + d 6
    let dy := d 8 * 10 + d 9
    let hr := d 11 * 10 + d 12
    let mi := d 14 * 10 + d 15
    let sc := d 17 * 10 + d 18
    let (nano, rest) := fraction (s.drop 19)
    if rest.head? ≠ some 'Z'.toUInt8 then
      throw ⟨ascii "timestamp must end in Z: " ++ s⟩
    else
      let totalSec := sysDays other yr mo dy * 86400 + hr * 3600 + mi * 60 + sc
      pure (UInt64.ofInt totalSec * 1000000000 + nano)

/-- A UTC instant that fits 64 bits of nanoseconds, with any number of digits for the fraction
of its second. -/
structure Instant extends Date where
  hour : Nat
  minute : Nat
  second : Nat
  fraction : Option (List (Fin 10))
  year_ge : 1970 ≤ year
  year_le : year ≤ 2553
  hour_lt : hour < 24
  minute_lt : minute < 60
  second_lt : second < 60

namespace Instant

def digits2 (n : Nat) : List UInt8 :=
  [digitChar (n / 10), digitChar n]

/-- `YYYY-MM-DDTHH:MM:SS`. -/
def seconds (i : Instant) : List UInt8 :=
  digits2 (i.year.toNat / 100) ++ digits2 i.year.toNat ++
    '-'.toUInt8 :: digits2 i.month ++ '-'.toUInt8 :: digits2 i.day ++
    'T'.toUInt8 :: digits2 i.hour ++ ':'.toUInt8 :: digits2 i.minute ++
    ':'.toUInt8 :: digits2 i.second

def fractionText : Option (List (Fin 10)) → List UInt8
  | none => []
  | some ds => '.'.toUInt8 :: ds.map fun d => digitChar d.val

/-- `YYYY-MM-DDTHH:MM:SS[.digits]Z`. -/
def text (i : Instant) : List UInt8 :=
  i.seconds ++ fractionText i.fraction ++ ['Z'.toUInt8]

/-- The seconds since the epoch. -/
def unixSeconds (i : Instant) : Int :=
  i.dayNumber * 86400 + i.hour * 3600 + i.minute * 60 + i.second

/-- The exact number of nanoseconds since the epoch. -/
def nanos (i : Instant) : ℚ :=
  (i.unixSeconds + fractionValue (i.fraction.getD [])) * 10 ^ 9

end Instant

theorem charValue_digitChar (n : Nat) : charValue (digitChar n) = (n % 10 : Nat) := by
  have hall : ∀ k < 10, charValue (UInt8.ofNat (48 + k)) = k := by decide
  exact hall (n % 10) (Nat.mod_lt n (by decide))

theorem toNat_ofInt {x : Int} (h0 : 0 ≤ x) (h : x < 2 ^ 64) : (UInt64.ofInt x).toNat = x.toNat := by
  rw [UInt64.ofInt, UInt64.toNat_ofNat', Int.emod_eq_of_lt h0 h]
  omega

theorem toNat_scaleUp {nano : UInt64} {k : Nat} (h : nano.toNat * 10 ^ k < 2 ^ 64) :
    (scaleUp nano k).toNat = nano.toNat * 10 ^ k := by
  induction k generalizing nano with
  | zero => simp [scaleUp]
  | succ k ih =>
    have hmul : (nano * 10).toNat = nano.toNat * 10 := by
      rw [UInt64.toNat_mul]
      refine Nat.mod_eq_of_lt (lt_of_le_of_lt ?_ h)
      exact Nat.mul_le_mul_left _ (Nat.le_self_pow (by omega) 10)
    rw [pow_succ', ← mul_assoc, ← hmul] at h ⊢
    exact ih h

section KeepDigits

variable {nano : UInt64} {k : Nat} {s : List UInt8}

theorem keepDigits_stop (h : ∀ c ∈ s.head?, isDigit c = false ∨ k = 9) :
    keepDigits nano k s = (nano, k, s) := by
  cases s with
  | nil => rfl
  | cons c s =>
    rw [keepDigits, if_neg]
    rintro ⟨hc, hk⟩
    rcases h c rfl with h | h
    · rw [hc] at h
      cases h
    · omega

theorem keepDigits_digit (d : Fin 10) (hk : k < 9) :
    keepDigits nano k (digitChar d.val :: s) =
      keepDigits (nano * 10 + UInt64.ofInt d.val) (k + 1) s := by
  rw [keepDigits, if_pos ⟨isDigit_digitChar _, hk⟩, charValue_digitChar,
    Nat.mod_eq_of_lt d.isLt]

/-- One more digit fits. -/
theorem toNat_next_digit (d : Fin 10) (hk : k < 9) (hnano : nano.toNat < 10 ^ k) :
    (nano * 10 + UInt64.ofInt d.val).toNat = nano.toNat * 10 + d.val ∧
      nano.toNat * 10 + d.val < 10 ^ (k + 1) := by
  have hd := d.isLt
  have hpow : (10 : Nat) ^ k ≤ 10 ^ 8 := Nat.pow_le_pow_right (by omega) (by omega)
  have hten : (10 : UInt64).toNat = 10 := rfl
  rw [UInt64.toNat_add, UInt64.toNat_mul, hten, toNat_ofInt (by omega) (by omega), pow_succ]
  omega

end KeepDigits

/-- The loops over the digits of a fraction compute its first nine. -/
theorem scaleUp_keepDigits (ds : List (Fin 10)) {rest : List UInt8}
    (hrest : ∀ c ∈ rest.head?, isDigit c = false) {nano : UInt64} {k : Nat} (hk : k ≤ 9)
    (hnano : nano.toNat < 10 ^ k) :
    (scaleUp (keepDigits nano k (ds.map (fun d => digitChar d.val) ++ rest)).1
        (9 - (keepDigits nano k (ds.map (fun d => digitChar d.val) ++ rest)).2.1)).toNat =
      nano.toNat * 10 ^ (9 - k) + firstDigits (9 - k) ds ∧
    (keepDigits nano k (ds.map (fun d => digitChar d.val) ++ rest)).2.2.dropWhile isDigit =
      rest := by
  have hskip : rest.dropWhile isDigit = rest := by
    cases rest with
    | nil => rfl
    | cons c rest => rw [List.dropWhile_cons_of_neg (by simp [hrest c (by simp)])]
  induction ds generalizing nano k with
  | nil =>
    have hroom : nano.toNat * 10 ^ (9 - k) < 2 ^ 64 := by
      calc nano.toNat * 10 ^ (9 - k) < 10 ^ k * 10 ^ (9 - k) := by gcongr
        _ = 10 ^ 9 := by rw [← pow_add, Nat.add_sub_cancel' hk]
        _ < 2 ^ 64 := by norm_num
    rw [List.map_nil, List.nil_append, keepDigits_stop fun c hc => Or.inl (hrest c hc),
      toNat_scaleUp hroom]
    exact ⟨by cases 9 - k <;> rfl, hskip⟩
  | cons d ds ih =>
    rw [List.map_cons, List.cons_append]
    by_cases hlast : k = 9
    · subst hlast
      rw [keepDigits_stop fun _ _ => Or.inr rfl]
      refine ⟨by simp [scaleUp, firstDigits], ?_⟩
      rw [List.dropWhile_cons_of_pos (isDigit_digitChar _),
        List.dropWhile_append_of_pos (by simp), hskip]
    · obtain ⟨m, hm⟩ : ∃ m, 9 - k = m + 1 := ⟨8 - k, by omega⟩
      obtain ⟨hnext, hsmall⟩ := toNat_next_digit d (show k < 9 by omega) hnano
      obtain ⟨hvalue, hdrop⟩ := ih (show k + 1 ≤ 9 by omega) (hnext ▸ hsmall)
      rw [keepDigits_digit d (by omega)]
      refine ⟨hvalue.trans ?_, hdrop⟩
      rw [hnext, show 9 - (k + 1) = m by omega, hm, firstDigits, pow_succ]
      ring

namespace Instant

theorem fraction_text (frac : Option (List (Fin 10))) :
    (Timestamp.fraction (fractionText frac ++ ['Z'.toUInt8])).1.toNat =
        firstDigits 9 (frac.getD []) ∧
      (Timestamp.fraction (fractionText frac ++ ['Z'.toUInt8])).2 = ['Z'.toUInt8] := by
  cases frac with
  | none => exact ⟨rfl, rfl⟩
  | some ds =>
    have hz : ∀ c ∈ ['Z'.toUInt8].head?, isDigit c = false := by
      rintro c ⟨⟩
      rfl
    obtain ⟨hvalue, hdrop⟩ := scaleUp_keepDigits ds hz (Nat.zero_le 9)
      (show (0 : UInt64).toNat < 10 ^ 0 by decide)
    rw [fractionText, List.cons_append, Timestamp.fraction, if_pos rfl]
    exact ⟨hvalue.trans (Nat.zero_add _), hdrop⟩

theorem length_seconds (i : Instant) : i.seconds.length = 19 := rfl

theorem drop_text (i : Instant) : i.text.drop 19 = fractionText i.fraction ++ ['Z'.toUInt8] := by
  rw [text, List.append_assoc]
  exact List.drop_left' i.length_seconds

/-- The characters before the fraction are read back. -/
theorem getD_text (i : Instant) {k : Nat} (hk : k < 19) :
    i.text.getD k 0 = i.seconds.getD k 0 := by
  rw [text, List.append_assoc, List.getD_append _ _ _ _ (by rw [length_seconds]; exact hk)]

theorem daysInMonth_le (i : Instant) : daysInMonth i.year i.month ≤ 31 := by
  unfold daysInMonth
  split_ifs <;> omega

theorem digits_text (i : Instant) :
    charValue (i.text.getD 0 0) * 1000 + charValue (i.text.getD 1 0) * 100 +
        charValue (i.text.getD 2 0) * 10 + charValue (i.text.getD 3 0) = i.year ∧
      charValue (i.text.getD 5 0) * 10 + charValue (i.text.getD 6 0) = i.month ∧
      charValue (i.text.getD 8 0) * 10 + charValue (i.text.getD 9 0) = i.day ∧
      charValue (i.text.getD 11 0) * 10 + charValue (i.text.getD 12 0) = i.hour ∧
      charValue (i.text.getD 14 0) * 10 + charValue (i.text.getD 15 0) = i.minute ∧
      charValue (i.text.getD 17 0) * 10 + charValue (i.text.getD 18 0) = i.second := by
  have hyear := i.year_ge
  have hyear' := i.year_le
  have hmonth := i.month_le
  have hday := i.day_le
  have hday' := i.daysInMonth_le
  have hhour := i.hour_lt
  have hminute := i.minute_lt
  have hsecond := i.second_lt
  simp only [getD_text, Nat.reduceLT, seconds, digits2, List.cons_append, List.nil_append,
    List.getD_cons_zero, List.getD_cons_succ, charValue_digitChar]
  omega

theorem sysDays_eq (other : Int → Int → Int → Int) (i : Instant) :
    sysDays other i.year i.month i.day = i.dayNumber := by
  have hyear := i.year_ge
  have hyear' := i.year_le
  have hmonth := i.month_pos
  have hmonth' := i.month_le
  have hday := i.day_le
  have hday' := i.daysInMonth_le
  rw [sysDays, if_pos (by omega), Int.toNat_natCast]
  rfl

/-- The text of an instant is accepted, and stands for its seconds and its first nine digits. -/
theorem parse_text (other : Int → Int → Int → Int) (i : Instant) :
    ∃ nano : UInt64, nano.toNat = firstDigits 9 (i.fraction.getD []) ∧
      parseRfc3339Nano other i.text =
        .ok (UInt64.ofInt i.unixSeconds * 1000000000 + nano) := by
  obtain ⟨hnano, hrest⟩ := fraction_text i.fraction
  obtain ⟨hyr, hmo, hdy, hhr, hmi, hsc⟩ := i.digits_text
  refine ⟨_, hnano, ?_⟩
  rw [parseRfc3339Nano, if_neg]
  · simp only [drop_text, hrest, hyr, hmo, hdy, hhr, hmi, hsc, sysDays_eq]
    rfl
  · have hlen : 20 ≤ i.text.length := by
      simp only [text, List.length_append, length_seconds, List.length_singleton]
      omega
    simp only [getD_text, Nat.reduceLT]
    rintro (h | h | h | h | h | h)
    · omega
    all_goals exact h rfl

theorem unixSeconds_bounds (i : Instant) : 0 ≤ i.unixSeconds ∧ i.unixSeconds < 18430000000 := by
  obtain ⟨hlo, hhi⟩ := i.toDate.dayNumber_range i.year_ge i.year_le
  have hyears : daysBeforeYear (2553 + 1) - daysBeforeYear 1970 = 213302 := by decide
  have hhour := i.hour_lt
  have hminute := i.minute_lt
  have hsecond := i.second_lt
  unfold unixSeconds
  omega

theorem floor_nanos (i : Instant) :
    ⌊i.nanos⌋ = i.unixSeconds * 1000000000 + firstDigits 9 (i.fraction.getD []) := by
  have hsplit : i.nanos = ((i.unixSeconds * 1000000000 : ℤ) : ℚ) +
      fractionValue (i.fraction.getD []) * 10 ^ 9 := by
    unfold nanos
    push_cast
    ring
  rw [hsplit, Int.floor_intCast_add, floor_fractionValue]

/-- An instant is parsed as its nanoseconds since the epoch, rounded down. -/
theorem parse_text_floor (other : Int → Int → Int → Int) (i : Instant) :
    ∃ v, parseRfc3339Nano other i.text = .ok v ∧ (v.toNat : ℤ) = ⌊i.nanos⌋ := by
  obtain ⟨nano, hnano, hparse⟩ := i.parse_text other
  obtain ⟨hlo, hhi⟩ := i.unixSeconds_bounds
  have hfirst := firstDigits_lt 9 (i.fraction.getD [])
  have hbillion : (1000000000 : UInt64).toNat = 1000000000 := rfl
  refine ⟨_, hparse, ?_⟩
  rw [floor_nanos, UInt64.toNat_add, UInt64.toNat_mul, toNat_ofInt hlo (by omega), hnano, hbillion]
  omega

/-- Instants are parsed exactly, and their stamps compare as they do, up to what lies within one
nanosecond. -/
theorem parse_exact (other : Int → Int → Int → Int) (i j : Instant) :
    Date.next^[i.dayNumber.toNat] Date.epoch = i.toDate ∧
    ∃ v w, parseRfc3339Nano other i.text = .ok v ∧ parseRfc3339Nano other j.text = .ok w ∧
      (v.toNat : ℤ) = ⌊i.nanos⌋ ∧ (i.nanos ≤ j.nanos → v ≤ w) ∧
      (v ≤ w → i.nanos < j.nanos + 1) := by
  have hday : i.dayNumber = i.dayNumber.toNat := by
    have := (i.toDate.dayNumber_range i.year_ge i.year_le).1
    omega
  obtain ⟨v, hv, hfloor⟩ := i.parse_text_floor other
  obtain ⟨w, hw, hfloor'⟩ := j.parse_text_floor other
  refine ⟨Date.iterate_next_epoch hday, v, w, hv, hw, hfloor, fun hle => ?_, fun hle => ?_⟩
  · have := Int.floor_le_floor hle
    rw [UInt64.le_iff_toNat_le]
    omega
  · rw [UInt64.le_iff_toNat_le] at hle
    have hfloors : (⌊i.nanos⌋ : ℚ) ≤ ⌊j.nanos⌋ := by
      rw [← hfloor, ← hfloor']
      exact_mod_cast hle
    calc i.nanos < ⌊i.nanos⌋ + 1 := Int.lt_floor_add_one _
      _ ≤ ⌊j.nanos⌋ + 1 := by gcongr
      _ ≤ j.nanos + 1 := by gcongr; exact Int.floor_le _

example : parseRfc3339Nano (fun _ _ _ => 0) (ascii "2022-01-12T19:46:00.000000000Z") =
    .ok (1642016760 * 1000000000) := by
  decide +kernel

end Instant

end Timestamp

end OhlcvValidator
