import Mathlib

namespace OhlcvValidator

def kSymbolLen : Nat := 8

/-- A ticker in its NUL-padded 8-byte field. -/
abbrev Symbol := Vector UInt8 kSymbolLen

/-- The symbol's bytes as one 64-bit word, lowest byte first. -/
def symbolKey (symbol : Symbol) : UInt64 :=
  UInt64.ofNat (Nat.ofDigits 256 (symbol.toList.map UInt8.toNat))

theorem symbolKey_injective : Function.Injective symbolKey := by
  intro s t h
  have hbyte : ∀ (u : Symbol), ∀ d ∈ u.toList.map UInt8.toNat, d < 256 := by
    intro u d hd
    obtain ⟨b, _, rfl⟩ := List.mem_map.mp hd
    exact b.toNat_lt
  have hlen : ∀ u : Symbol, (u.toList.map UInt8.toNat).length = 8 := by
    intro u
    rw [List.length_map, Vector.length_toList]
    rfl
  have hfits : ∀ u : Symbol, Nat.ofDigits 256 (u.toList.map UInt8.toNat) < 2 ^ 64 := by
    intro u
    have := Nat.ofDigits_lt_base_pow_length (by decide) (hbyte u)
    rwa [hlen u] at this
  have hnat := congrArg UInt64.toNat h
  simp only [symbolKey, UInt64.toNat_ofNat', Nat.mod_eq_of_lt (hfits s),
    Nat.mod_eq_of_lt (hfits t)] at hnat
  have hdigits := Nat.ofDigits_inj_of_len_eq (by decide) ((hlen s).trans (hlen t).symm) (hbyte s)
    (hbyte t) hnat
  have hbytes : s.toList = t.toList :=
    List.map_injective_iff.mpr (fun _ _ => UInt8.toNat_inj.mp) hdigits
  exact Vector.toList_inj.mp hbytes

structure WireTrade (F : Type) where
  symbol : Symbol
  tsNs : UInt64
  seq : UInt64
  price : F
  size : UInt64
  deriving DecidableEq, Repr

structure WireBar (F : Type) where
  symbol : Symbol
  startNs : UInt64
  seq : UInt64
  openPrice : F
  high : F
  low : F
  close : F
  vwap : F
  volume : UInt64
  tradeCount : UInt64
  deriving DecidableEq, Repr

structure WireQuote (F : Type) where
  symbol : Symbol
  tsNs : UInt64
  seq : UInt64
  bidPrice : F
  askPrice : F
  bidSize : UInt64
  askSize : UInt64
  deriving DecidableEq, Repr

/-- One record of the merged stream. -/
inductive WireRecord (F : Type)
  | trade (t : WireTrade F)
  | bar (b : WireBar F)
  | quote (q : WireQuote F)
  deriving DecidableEq, Repr

def WireRecord.symbol {F : Type} : WireRecord F → Symbol
  | .trade t => t.symbol
  | .bar b => b.symbol
  | .quote q => q.symbol

/-- The arithmetic that prices are computed in, as far as the code uses it. Nothing is assumed
of the operations, so that rounding and NaN are covered; `lit` is a literal of the source. -/
class PriceArith (F : Type) extends Add F, Sub F, Mul F, Div F where
  lit : ℚ → F
  ofUInt64 : UInt64 → F
  fabs : F → F
  fmax : F → F → F
  lt : F → F → Bool
  le : F → F → Bool
  eq : F → F → Bool

/-- Exact rational prices. -/
instance : PriceArith ℚ where
  lit q := q
  ofUInt64 x := x.toNat
  fabs a := |a|
  fmax a b := max a b
  lt a b := a < b
  le a b := a ≤ b
  eq a b := a = b

end OhlcvValidator
