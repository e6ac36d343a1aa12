import OhlcvValidator.DecimalDigits

namespace OhlcvValidator

/-! Flat JSON objects, one to a line of a text. What a JSON library does is a parameter. -/

namespace JsonLines

section Decimal

/-- A number in decimal, without leading zeros. -/
def decimal (n : Nat) : List UInt8 :=
  if n = 0 then [digitChar 0] else (Nat.digits 10 n).reverse.map digitChar

/-- The number that a text of digits stands for. -/
def readDecimal (s : List UInt8) : Option Nat :=
  if s ≠ [] ∧ s.all isDigit then some (Nat.ofDigits 10 (s.reverse.map fun c => c.toNat - 48))
  else none

theorem isDigit_of_mem_decimal {n : Nat} : ∀ c ∈ decimal n, isDigit c = true := by
  intro c hc
  unfold decimal at hc
  split at hc
  next => rw [List.mem_singleton.mp hc, isDigit_digitChar]
  next =>
    obtain ⟨d, _, rfl⟩ := List.mem_map.mp hc
    exact isDigit_digitChar d

theorem decimal_ne_nil (n : Nat) : decimal n ≠ [] := by
  unfold decimal
  split
  next => simp
  next hn => simp [Nat.digits_ne_nil_iff_ne_zero.mpr hn]

theorem ofDigits_decimal (n : Nat) :
    Nat.ofDigits 10 ((decimal n).reverse.map fun c => c.toNat - 48) = n := by
  unfold decimal
  split
  next hn => simp [hn]
  next =>
    have hdigits : (Nat.digits 10 n).map (fun d => (digitChar d).toNat - 48) = Nat.digits 10 n := by
      conv_rhs => rw [← List.map_id (Nat.digits 10 n)]
      refine List.map_congr_left fun d hd => ?_
      have := Nat.digits_lt_base (by omega) hd
      simp only [toNat_digitChar, id]
      omega
    rw [← List.map_reverse, List.reverse_reverse, List.map_map]
    exact (congrArg (Nat.ofDigits 10) hdigits).trans (Nat.ofDigits_digits 10 n)

theorem readDecimal_decimal (n : Nat) : readDecimal (decimal n) = some n := by
  rw [readDecimal, if_pos ⟨decimal_ne_nil n, List.all_eq_true.mpr isDigit_of_mem_decimal⟩,
    ofDigits_decimal]

end Decimal

section Objects

inductive Value
  | string (s : List UInt8)
  | number (n : UInt64)
  | strings (xs : List (List UInt8))
  deriving DecidableEq, Repr

/-- An object: its fields, in the order in which they were assigned. -/
abbrev Fields := List (List UInt8 × Value)

/-- A JSON library: the compact text of an object, or that it throws, and the object that a text
stands for. -/
structure Json where
  dump : Fields → Option (List UInt8)
  read : List UInt8 → Option Fields

end Objects

section Lines

def newline : UInt8 := 10

/-- What is asked of a library: the text of an object is one line, from which each field is read
back. -/
structure Json.Lawful (json : Json) : Prop where
  one_line : ∀ {o text}, json.dump o = some text → newline ∉ text
  read_dump : ∀ {o text}, (o.map Prod.fst).Nodup → json.dump o = some text →
    ∃ o', json.read text = some o' ∧ ∀ key, o'.lookup key = o.lookup key

/-- The lines of a text, each ended by a newline or by the end of the text. -/
def splitLines : List UInt8 → List (List UInt8)
  | [] => []
  | c :: s =>
    if c = newline then [] :: splitLines s
    else
      match splitLines s with
      | [] => [[c]]
      | l :: ls => (c :: l) :: ls

theorem splitLines_append {l : List UInt8} (h : newline ∉ l) (rest : List UInt8) :
    splitLines (l ++ newline :: rest) = l :: splitLines rest := by
  induction l with
  | nil => simp [splitLines]
  | cons c l ih =>
    have hc : c ≠ newline := fun he => h (by simp [he])
    have hl : newline ∉ l := fun hm => h (List.mem_cons_of_mem _ hm)
    rw [List.cons_append, splitLines, if_neg hc, ih hl]

theorem splitLines_flatMap {α : Type} {line : α → List UInt8} {xs : List α}
    (h : ∀ x ∈ xs, newline ∉ line x) :
    splitLines (xs.flatMap fun x => line x ++ [newline]) = xs.map line := by
  induction xs with
  | nil => rfl
  | cons x xs ih =>
    rw [List.flatMap_cons, List.append_assoc, List.singleton_append,
      splitLines_append (h x (by simp)), ih fun y hy => h y (List.mem_cons_of_mem _ hy)]
    rfl

/-- Lines appended to a text, each with its newline. -/
def appendLines (text : List UInt8) (ls : List (List UInt8)) : List UInt8 :=
  text ++ ls.flatMap fun l => l ++ [newline]

end Lines

end JsonLines

end OhlcvValidator
