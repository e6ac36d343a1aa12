import OhlcvValidator.SequencingCursor

namespace OhlcvValidator

/-- Numbers and a NaN. -/
inductive Extended (K : Type)
  | nan
  | num (x : K)
  deriving DecidableEq, Repr

namespace Extended

variable {K : Type}

def map (f : K → K) : Extended K → Extended K
  | num a => num (f a)
  | nan => nan

def map₂ (f : K → K → K) : Extended K → Extended K → Extended K
  | num a, num b => num (f a b)
  | _, _ => nan

/-- A comparison is false on a NaN. -/
def compare (p : K → K → Bool) : Extended K → Extended K → Bool
  | num a, num b => p a b
  | _, _ => false

theorem exists_num {p : Extended K} (h : p ≠ .nan) : ∃ x, p = num x := by
  cases p with
  | nan => exact absurd rfl h
  | num x => exact ⟨x, rfl⟩

variable [Field K] [LinearOrder K]

instance : PriceArith (Extended K) where
  add := map₂ (· + ·)
  sub := map₂ (· - ·)
  mul := map₂ (· * ·)
  div a b := if b = num 0 then nan else map₂ (· / ·) a b
  lit q := num q
  ofUInt64 x := num x.toNat
  fabs := map fun a => |a|
  fmax
    | nan, b => b
    | a, nan => a
    | num a, num b => num (max a b)
  lt := compare fun a b => a < b
  le := compare fun a b => a ≤ b
  eq := compare fun a b => a = b

end Extended

open PriceArith (lit lt le)

section WellFormed

variable {F : Type} [PriceArith F]

/-- The violations that a record shows by itself. -/
def Violation.stateless : Violation → Bool
  | .barLowAboveHigh | .barOpenOutOfRange | .barCloseOutOfRange | .barVwapOutOfRange
  | .barNonPositivePrice | .barVolumeInconsistent | .tradeNonPositivePrice
  | .tradeNonPositiveSize | .quoteCrossed | .quoteLocked | .quoteNonPositive
  | .quoteZeroSize => true
  | .timestampRegression | .sequenceGap | .barVolumeReconstructMismatch
  | .barTradeCountReconstructMismatch | .barVwapReconstructMismatch
  | .barOhlcReconstructMismatch | .priceBandBreach => false

/-- What a record is expected to look like. -/
def WireRecord.WellFormed : WireRecord F → Prop
  | .trade t => lt (lit 0) t.price = true ∧ t.size ≠ 0
  | .bar b => lt (lit 0) b.low = true ∧ le b.low b.high = true ∧
      (∀ p ∈ [b.openPrice, b.close, b.vwap], le b.low p = true ∧ le p b.high = true) ∧
      (b.volume = 0 ↔ b.tradeCount = 0)
  | .quote q => lt (lit 0) q.bidPrice = true ∧ lt q.bidPrice q.askPrice = true ∧
      q.bidSize ≠ 0 ∧ q.askSize ≠ 0

instance (rec : WireRecord F) : Decidable rec.WellFormed := by
  cases rec <;> unfold WireRecord.WellFormed <;> infer_instance

namespace Validator

/-- The stateful checks leave these flags as they are. -/
theorem has_check_stateless (pre : List (WireRecord F)) (rec : WireRecord F) {v : Violation}
    (hv : v.stateless = true) :
    ((run pre).1.check rec).2.has v = (statelessFlags rec).has v := by
  have hne : ∀ {u : Violation}, u.stateless = false → v ≠ u := by
    intro u hu heq
    rw [heq, hu] at hv
    cases hv
  have hrec : ¬Reconstructs v := by
    rintro (h | h | h | h) <;> exact hne rfl h
  rw [check_run]
  split
  next =>
    rw [(stateful_keeps rec _ _).2.2.2 v (hne rfl) fun h => absurd h hrec,
      has_checkSequencing _ _ _ _ _ (hne rfl) (hne rfl)]
  next => rfl

/-- A trade without such a flag is well formed, whatever its price is. -/
theorem tradeFlags_clear (t : WireTrade F) :
    (∀ v, v.stateless = true → (tradeFlags t).has v = false) ↔
      (WireRecord.trade t).WellFormed := by
  constructor
  · intro h
    have hprice := h .tradeNonPositivePrice rfl
    have hsize := h .tradeNonPositiveSize rfl
    exact ⟨by simpa [tradeFlags, validPrice] using hprice,
      by simpa [tradeFlags, validSize] using hsize⟩
  · rintro ⟨hprice, hsize⟩ v _
    simp [tradeFlags, validPrice, validSize, hprice, hsize]

theorem has_quoteFlags (q : WireQuote F) (v : Violation) :
    (quoteFlags q).has v =
      ((le q.bidPrice (lit 0) || le q.askPrice (lit 0)) && decide (.quoteNonPositive = v) ||
        decide (q.bidSize = 0 ∨ q.askSize = 0) && decide (.quoteZeroSize = v) ||
        lt q.askPrice q.bidPrice && decide (.quoteCrossed = v) ||
        !lt q.askPrice q.bidPrice && PriceArith.eq q.bidPrice q.askPrice &&
          decide (.quoteLocked = v)) := by
  unfold quoteFlags
  dsimp only
  split
  next h => simp [h]
  next h => simp [h]

end Validator

end WellFormed

section Numbers

variable {K : Type} [Field K] [LinearOrder K]

/-- A bar or a quote has no NaN among its prices. -/
def WireRecord.NoNaN : WireRecord (Extended K) → Prop
  | .trade _ => True
  | .bar b => ∀ p ∈ [b.openPrice, b.high, b.low, b.close, b.vwap], p ≠ .nan
  | .quote q => q.bidPrice ≠ .nan ∧ q.askPrice ≠ .nan

/-- A bar or a quote shows a fault in the prices that are numbers, or in its counts. -/
def WireRecord.Tripped : WireRecord (Extended K) → Prop
  | .trade _ => False
  | .bar b => lt b.high b.low = true ∨
      (∃ p ∈ [b.openPrice, b.close, b.vwap], lt p b.low = true ∨ lt b.high p = true) ∨
      (∃ p ∈ [b.openPrice, b.high, b.low, b.close], le p (lit 0) = true) ∨
      ¬(b.tradeCount = 0 ↔ b.volume = 0)
  | .quote q => (∃ p ∈ [q.bidPrice, q.askPrice], le p (lit 0) = true) ∨
      lt q.askPrice q.bidPrice = true ∨ PriceArith.eq q.bidPrice q.askPrice = true ∨
      q.bidSize = 0 ∨ q.askSize = 0

@[simp] theorem Extended.lt_num (a b : K) : lt (num a) (num b) = decide (a < b) := rfl

@[simp] theorem Extended.le_num (a b : K) : le (num a) (num b) = decide (a ≤ b) := rfl

@[simp] theorem Extended.eq_num (a b : K) : PriceArith.eq (num a) (num b) = decide (a = b) := rfl

@[simp] theorem Extended.lit_zero : (lit 0 : Extended K) = num 0 :=
  congrArg num Rat.cast_zero

/-- A NaN is in no range. -/
theorem WireRecord.noNaN_of_wellFormed (rec : WireRecord (Extended K)) (h : rec.WellFormed) :
    rec.NoNaN := by
  have hle : ∀ {p q : Extended K}, le p q = true → p ≠ .nan ∧ q ≠ .nan := by
    intro p q hpq
    cases p <;> cases q <;> first | cases hpq | simp
  have hlt : ∀ {p q : Extended K}, lt p q = true → p ≠ .nan ∧ q ≠ .nan := by
    intro p q hpq
    cases p <;> cases q <;> first | cases hpq | simp
  cases rec with
  | trade t => trivial
  | bar b =>
    obtain ⟨_, hband, hrange, _⟩ := h
    simp only [List.forall_mem_cons] at hrange
    simp only [NoNaN, List.forall_mem_cons]
    exact ⟨(hle hrange.1.1).2, (hle hband).2, (hle hband).1, (hle hrange.2.1.1).2,
      (hle hrange.2.2.1.1).2, by simp⟩
  | quote q => exact hlt h.2.1

namespace Validator

theorem barFlags_clear {b : WireBar (Extended K)} (h : (WireRecord.bar b).NoNaN) :
    (∀ v, v.stateless = true → (barFlags b).has v = false) ↔ (WireRecord.bar b).WellFormed := by
  obtain ⟨_, _, _, o, hi, lo, c, w, _, _⟩ := b
  simp only [WireRecord.NoNaN, List.forall_mem_cons] at h
  obtain ⟨ho, hhi, hlo, hc, hw, _⟩ := h
  obtain ⟨o, rfl⟩ := Extended.exists_num ho
  obtain ⟨hi, rfl⟩ := Extended.exists_num hhi
  obtain ⟨lo, rfl⟩ := Extended.exists_num hlo
  obtain ⟨c, rfl⟩ := Extended.exists_num hc
  obtain ⟨w, rfl⟩ := Extended.exists_num hw
  constructor
  · intro h
    have hband := h .barLowAboveHigh rfl
    have hopen := h .barOpenOutOfRange rfl
    have hclose := h .barCloseOutOfRange rfl
    have hvwap := h .barVwapOutOfRange rfl
    have hpos := h .barNonPositivePrice rfl
    have hempty := h .barVolumeInconsistent rfl
    simp [barFlags] at hband hopen hclose hvwap hpos hempty
    simp only [WireRecord.WellFormed, List.forall_mem_cons, Extended.lit_zero, Extended.lt_num,
      Extended.le_num, decide_eq_true_eq]
    exact ⟨hpos.1.2, hband, ⟨hopen, hclose, hvwap, by simp⟩, hempty.symm⟩
  · rintro ⟨hpos, hband, hrange, hempty⟩ v _
    simp only [List.forall_mem_cons, Extended.lit_zero, Extended.lt_num, Extended.le_num,
      decide_eq_true_eq] at hpos hband hrange
    obtain ⟨⟨hlo, ho⟩, ⟨hlc, hc⟩, ⟨hlw, hw⟩, _⟩ := hrange
    simp [barFlags, hband.not_gt, hlo.not_gt, ho.not_gt, hlc.not_gt, hc.not_gt, hlw.not_gt,
      hw.not_gt, hpos.not_ge, (hpos.trans_le hband).not_ge, (hpos.trans_le hlo).not_ge,
      (hpos.trans_le hlc).not_ge, hempty]

theorem quoteFlags_clear {q : WireQuote (Extended K)} (h : (WireRecord.quote q).NoNaN) :
    (∀ v, v.stateless = true → (quoteFlags q).has v = false) ↔
      (WireRecord.quote q).WellFormed := by
  obtain ⟨_, _, _, bid, ask, _, _⟩ := q
  obtain ⟨bid, rfl⟩ := Extended.exists_num h.1
  obtain ⟨ask, rfl⟩ := Extended.exists_num h.2
  constructor
  · intro h
    have hcrossed := h .quoteCrossed rfl
    have hlocked := h .quoteLocked rfl
    have hpos := h .quoteNonPositive rfl
    have hsize := h .quoteZeroSize rfl
    simp [has_quoteFlags] at hcrossed hlocked hpos hsize
    simp only [WireRecord.WellFormed, Extended.lit_zero, Extended.lt_num, decide_eq_true_eq]
    exact ⟨hpos.1, lt_of_le_of_ne hcrossed (hlocked hcrossed), hsize⟩
  · rintro ⟨hpos, hspread, hbid, hask⟩ v _
    simp only [Extended.lit_zero, Extended.lt_num, decide_eq_true_eq] at hpos hspread
    simp at hbid hask
    simp [has_quoteFlags, hpos.not_ge, (hpos.trans hspread).not_ge, hspread.not_gt, hspread.ne,
      hbid, hask]

/-- The bar checks, together. -/
theorem barFlags_clear_iff_not_tripped (b : WireBar (Extended K)) :
    (∀ v, v.stateless = true → (barFlags b).has v = false) ↔ ¬(WireRecord.bar b).Tripped := by
  constructor
  · intro h
    have hband := h .barLowAboveHigh rfl
    have hopen := h .barOpenOutOfRange rfl
    have hclose := h .barCloseOutOfRange rfl
    have hvwap := h .barVwapOutOfRange rfl
    have hpos := h .barNonPositivePrice rfl
    have hempty := h .barVolumeInconsistent rfl
    simp [barFlags] at hband hopen hclose hvwap hpos hempty
    simp [WireRecord.Tripped, hband, hopen, hclose, hvwap, hpos, hempty]
  · intro h v _
    simp [WireRecord.Tripped] at h
    simp [barFlags, h]

theorem quoteFlags_clear_iff_not_tripped (q : WireQuote (Extended K)) :
    (∀ v, v.stateless = true → (quoteFlags q).has v = false) ↔ ¬(WireRecord.quote q).Tripped := by
  constructor
  · intro h
    have hcrossed := h .quoteCrossed rfl
    have hlocked := h .quoteLocked rfl
    have hpos := h .quoteNonPositive rfl
    have hsize := h .quoteZeroSize rfl
    simp [has_quoteFlags] at hcrossed hlocked hpos hsize
    simp [WireRecord.Tripped, hcrossed, hlocked, hpos, hsize]
  · intro h v _
    simp [WireRecord.Tripped] at h
    simp [has_quoteFlags, h]

/-- Whatever came before it, a trade, and a bar or quote whose prices are numbers, has none of
the flags of its own exactly if it is well formed. That a record without such a flag is well formed
is so for these and for the records with a NaN that another check catches, and for no others. -/
theorem clear_iff_wellFormed (pre : List (WireRecord (Extended K)))
    (rec : WireRecord (Extended K)) :
    (rec.NoNaN → ((∀ v, v.stateless = true → ((run pre).1.check rec).2.has v = false) ↔
      rec.WellFormed)) ∧
    (((∀ v, v.stateless = true → ((run pre).1.check rec).2.has v = false) → rec.WellFormed) ↔
      rec.NoNaN ∨ rec.Tripped) := by
  have hflags : (∀ v, v.stateless = true → ((run pre).1.check rec).2.has v = false) ↔
      ∀ v, v.stateless = true → (statelessFlags rec).has v = false :=
    forall₂_congr fun v hv => by rw [has_check_stateless pre rec hv]
  have hexact : (rec.NoNaN → ((∀ v, v.stateless = true → (statelessFlags rec).has v = false) ↔
        rec.WellFormed)) →
      ((∀ v, v.stateless = true → (statelessFlags rec).has v = false) ↔ ¬rec.Tripped) →
      (((∀ v, v.stateless = true → (statelessFlags rec).has v = false) → rec.WellFormed) ↔
        rec.NoNaN ∨ rec.Tripped) := by
    intro hnum hclear
    have hnan := rec.noNaN_of_wellFormed
    tauto
  rw [hflags]
  cases rec with
  | trade t => exact ⟨fun _ => tradeFlags_clear t, iff_of_true (tradeFlags_clear t).mp (.inl trivial)⟩
  | bar b => exact ⟨barFlags_clear, hexact barFlags_clear (barFlags_clear_iff_not_tripped b)⟩
  | quote q =>
    exact ⟨quoteFlags_clear, hexact quoteFlags_clear (quoteFlags_clear_iff_not_tripped q)⟩

/-- A quote with a spread of one. -/
def unitSpread : WireRecord (Extended ℚ) :=
  .quote ⟨Vector.replicate 8 88, 2, 2, .num 99, .num 100, 1, 1⟩

theorem clear_iff_wellFormed_unitSpread :
    unitSpread.WellFormed ∧ ∀ v, v.stateless = true →
      ((run [unitSpread]).1.check unitSpread).2.has v = false :=
  ⟨by decide +kernel, ((clear_iff_wellFormed [unitSpread] unitSpread).1 (by simp [unitSpread,
    WireRecord.NoNaN])).mpr (by decide +kernel)⟩

/-- A bar whose volume-weighted price is a NaN. -/
def barWithoutVwap : WireRecord (Extended ℚ) :=
  .bar ⟨Vector.replicate 8 88, 1, 1, .num 100, .num 101, .num 99, .num 100, .nan, 5, 1⟩

/-- A quote whose ask price is a NaN. -/
def quoteWithoutAsk : WireRecord (Extended ℚ) :=
  .quote ⟨Vector.replicate 8 88, 2, 2, .num 99, .nan, 1, 1⟩

/-- Both get no flag at all. -/
theorem nan_passes :
    ((run []).1.check barWithoutVwap).2.ok = true ∧ ¬barWithoutVwap.WellFormed ∧
      ((run []).1.check quoteWithoutAsk).2.ok = true ∧ ¬quoteWithoutAsk.WellFormed := by
  decide +kernel

end Validator

end Numbers

end OhlcvValidator
