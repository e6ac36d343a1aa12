import OhlcvValidator.Transducer

namespace OhlcvValidator

/-- A filter for outliers: how far from its reference a value may lie, how fast the reference
follows the values, and how many outliers in a row move it to the last of them. -/
structure BandRule (K : Type) [Field K] [LinearOrder K] [IsStrictOrderedRing K] where
  frac : K
  alpha : K
  patience : Nat
  frac_pos : 0 < frac
  frac_lt_one : frac < 1
  alpha_pos : 0 < alpha
  alpha_le_one : alpha ≤ 1
  patience_pos : 0 < patience

/-- The reference, if there is one yet, and the outliers since the last value in the band. -/
structure Band (K : Type) where
  ref : Option K := none
  breaches : Nat := 0
  deriving DecidableEq, Repr

namespace BandRule

variable {K : Type} [Field K] [LinearOrder K] [IsStrictOrderedRing K] (rule : BandRule K)

-- Shortcuts to what the order of a field gives, which nearly every step below asks for.

local instance : IsOrderedRing K := inferInstance

local instance : IsOrderedAddMonoid K := inferInstance

local instance : PosMulMono K := inferInstance

local instance : MulPosMono K := inferInstance

local instance : AddLeftMono K := inferInstance

local instance : AddRightMono K := inferInstance

def Outlier (r p : K) : Prop :=
  rule.frac * r < |p - r|

instance (r p : K) : Decidable (rule.Outlier r p) :=
  inferInstanceAs (Decidable (_ < _))

/-- The reference after a value in the band. -/
def follow (r p : K) : K :=
  rule.alpha * p + (1 - rule.alpha) * r

/-- One value through the filter, and whether it is an outlier. -/
def step (b : Band K) (p : K) : Band K × Bool :=
  match b.ref with
  | none => ({ b with ref := some p }, false)
  | some r =>
    if rule.Outlier r p then
      if rule.patience ≤ b.breaches + 1 then ({ ref := some p }, true)
      else ({ b with breaches := b.breaches + 1 }, true)
    else ({ ref := some (rule.follow r p) }, false)

/-- A run of outliers never stands for long, and there is none without a reference. -/
structure Sound (b : Band K) : Prop where
  waits : b.breaches < rule.patience
  unset : b.ref = none → b.breaches = 0

variable {rule} {b : Band K} {r p lo hi : K}

theorem step_first (hb : b.ref = none) (p : K) : rule.step b p = ({ b with ref := some p }, false) := by
  rw [step, hb]

theorem step_inBand (hb : b.ref = some r) (h : ¬rule.Outlier r p) :
    rule.step b p = ({ ref := some (rule.follow r p) }, false) := by
  rw [step, hb]
  exact if_neg h

theorem step_outlier (hb : b.ref = some r) (h : rule.Outlier r p) :
    rule.step b p = if rule.patience ≤ b.breaches + 1 then ({ ref := some p }, true)
      else ({ b with breaches := b.breaches + 1 }, true) := by
  rw [step, hb]
  exact if_pos h

/-- Whether a value is an outlier is a matter of the reference only. -/
theorem step_verdict {c : Band K} (h : b.ref = c.ref) (p : K) :
    (rule.step b p).2 = (rule.step c p).2 := by
  cases hb : b.ref with
  | none => rw [step_first hb, step_first (h ▸ hb)]
  | some r =>
    by_cases hout : rule.Outlier r p
    · rw [step_outlier hb hout, step_outlier (h ▸ hb) hout]
      split <;> split <;> rfl
    · rw [step_inBand hb hout, step_inBand (h ▸ hb) hout]

/-- A value in the band forgets the outliers before it. -/
theorem step_eq_of_inBand {c : Band K} (hb : b.ref = some r) (hc : c.ref = some r)
    (hin : (rule.step c p).2 = false) : rule.step b p = rule.step c p := by
  by_cases hout : rule.Outlier r p
  · rw [step_outlier hc hout] at hin
    split at hin <;> cases hin
  · rw [step_inBand hb hout, step_inBand hc hout]

theorem outlier_of_step (hb : b.ref = some r) (h : (rule.step b p).2 = true) :
    rule.Outlier r p := by
  by_contra hout
  rw [step_inBand hb hout] at h
  cases h

theorem sound_fresh : rule.Sound {} where
  waits := rule.patience_pos
  unset := fun _ => rfl

theorem Sound.step (h : rule.Sound b) (p : K) : rule.Sound (rule.step b p).1 := by
  cases hb : b.ref with
  | none =>
    rw [step_first hb]
    exact ⟨h.waits, fun _ => h.unset hb⟩
  | some r =>
    by_cases hout : rule.Outlier r p
    · rw [step_outlier hb hout]
      split
      next => exact ⟨rule.patience_pos, fun _ => rfl⟩
      next hrun => exact ⟨not_le.mp hrun, fun hn => by simp [hb] at hn⟩
    · rw [step_inBand hb hout]
      exact ⟨rule.patience_pos, fun _ => rfl⟩

/-- A value that is no outlier ends the run of outliers. -/
theorem Sound.breaches_of_inBand (h : rule.Sound b) (hin : (rule.step b p).2 = false) :
    (rule.step b p).1.breaches = 0 ∧ (rule.step b p).1.ref ≠ none := by
  cases hb : b.ref with
  | none =>
    rw [step_first hb]
    exact ⟨h.unset hb, Option.some_ne_none p⟩
  | some r =>
    by_cases hout : rule.Outlier r p
    · rw [step_outlier hb hout] at hin
      split at hin <;> cases hin
    · rw [step_inBand hb hout]
      exact ⟨rfl, Option.some_ne_none _⟩

/-- The reference follows between its old place and the value, and so keeps bounds on both. -/
theorem follow_le_follow {r' p' : K} (hr : r ≤ r') (hp : p ≤ p') :
    rule.follow r p ≤ rule.follow r' p' := by
  have ha := rule.alpha_pos.le
  have ha1 : 0 ≤ 1 - rule.alpha := by linarith [rule.alpha_le_one]
  unfold follow
  gcongr

theorem follow_self (rule : BandRule K) (p : K) : rule.follow p p = p := by
  unfold follow
  ring

/-- The reference lies between two of the values. -/
def Spanned (ps : List K) (b : Band K) : Prop :=
  ∀ r, b.ref = some r → (∃ p ∈ ps, p ≤ r) ∧ ∃ p ∈ ps, r ≤ p

omit [Field K] [IsStrictOrderedRing K] in
theorem spanned_fresh : Spanned [] ({} : Band K) := by
  intro r hr
  cases hr

/-- Whether the reference is set, follows or is anchored anew, the next value spans it too. -/
theorem Spanned.step {ps : List K} (h : Spanned ps b) (p : K) :
    Spanned (ps ++ [p]) (rule.step b p).1 := by
  have hnew : Spanned (ps ++ [p]) { ref := some p, breaches := b.breaches } := by
    intro r hr
    obtain rfl := Option.some.inj hr
    exact ⟨⟨p, by simp, le_rfl⟩, p, by simp, le_rfl⟩
  cases hb : b.ref with
  | none =>
    rw [step_first hb]
    exact hnew
  | some r =>
    obtain ⟨⟨lo, hlo, hlor⟩, hi, hhi, hrhi⟩ := h r hb
    by_cases hout : rule.Outlier r p
    · rw [step_outlier hb hout]
      split
      next => exact hnew
      next =>
        intro r' hr'
        obtain rfl := Option.some.inj (hb.symm.trans hr')
        exact ⟨⟨lo, by simp [hlo], hlor⟩, hi, by simp [hhi], hrhi⟩
    · rw [step_inBand hb hout]
      intro r' hr'
      obtain rfl := Option.some.inj hr'
      have hmin : min lo p ∈ ps ++ [p] := by
        rcases min_choice lo p with he | he <;> simp [he, hlo]
      have hmax : max hi p ∈ ps ++ [p] := by
        rcases max_choice hi p with he | he <;> simp [he, hhi]
      refine ⟨⟨min lo p, hmin, ?_⟩, max hi p, hmax, ?_⟩
      · calc min lo p = rule.follow (min lo p) (min lo p) := (follow_self rule _).symm
          _ ≤ rule.follow r p := follow_le_follow ((min_le_left _ _).trans hlor) (min_le_right _ _)
      · calc rule.follow r p
            ≤ rule.follow (max hi p) (max hi p) :=
              follow_le_follow (hrhi.trans (le_max_left _ _)) (le_max_right _ _)
          _ = max hi p := follow_self rule _

section Recovery

/-- From such a reference every value between `lo` and `hi` is in the band. -/
def Near (rule : BandRule K) (lo hi r : K) : Prop :=
  hi ≤ (1 + rule.frac) * r ∧ (1 - rule.frac) * r ≤ lo

theorem Near.inBand (h : rule.Near lo hi r) (hlo : lo ≤ p) (hhi : p ≤ hi) :
    ¬rule.Outlier r p := by
  obtain ⟨habove, hbelow⟩ := h
  rw [Outlier, not_lt, abs_le]
  constructor <;> linarith

theorem near_of_mem (hpos : 0 < lo) (hband : hi < (1 + rule.frac) * lo) (hlo : lo ≤ r)
    (hhi : r ≤ hi) : rule.Near lo hi r := by
  have hf := rule.frac_pos
  have hf1 := rule.frac_lt_one
  constructor
  · calc hi ≤ (1 + rule.frac) * lo := hband.le
      _ ≤ (1 + rule.frac) * r := by gcongr
  · calc (1 - rule.frac) * r ≤ (1 - rule.frac) * ((1 + rule.frac) * lo) := by
          have hone : 0 ≤ 1 - rule.frac := by linarith
          gcongr
          exact hhi.trans hband.le
      _ = lo - rule.frac ^ 2 * lo := by ring
      _ ≤ lo := by
          have : 0 ≤ rule.frac ^ 2 * lo := by positivity
          linarith

theorem Near.follow (h : rule.Near lo hi r) (hp : rule.Near lo hi p) :
    rule.Near lo hi (rule.follow r p) := by
  constructor
  · calc hi = rule.follow hi hi := (follow_self rule hi).symm
      _ ≤ rule.follow ((1 + rule.frac) * r) ((1 + rule.frac) * p) := follow_le_follow h.1 hp.1
      _ = (1 + rule.frac) * rule.follow r p := by unfold BandRule.follow; ring
  · calc (1 - rule.frac) * rule.follow r p
        = rule.follow ((1 - rule.frac) * r) ((1 - rule.frac) * p) := by
          unfold BandRule.follow; ring
      _ ≤ rule.follow lo lo := follow_le_follow h.2 hp.2
      _ = lo := follow_self rule lo

/-- Once near a range of values, the filter passes all further values in it. -/
theorem Near.passes (hpos : 0 < lo) (hband : hi < (1 + rule.frac) * lo) {ps : List K}
    (hps : ∀ p ∈ ps, lo ≤ p ∧ p ≤ hi) (hb : b.ref = some r) (h : rule.Near lo hi r) :
    ∀ x ∈ (transduce rule.step b ps).2, x = false := by
  induction ps generalizing b r with
  | nil => simp [transduce]
  | cons p ps ih =>
    obtain ⟨⟨hlo, hhi⟩, hps⟩ := List.forall_mem_cons.mp hps
    have hp : rule.Near lo hi p := near_of_mem hpos hband hlo hhi
    rw [transduce, step_inBand hb (h.inBand hlo hhi)]
    exact List.forall_mem_cons.mpr ⟨rfl, ih hps rfl (h.follow hp)⟩

/-- The reference lies at most `e` outside the range. -/
def Within (lo hi e r : K) : Prop :=
  lo - e ≤ r ∧ r ≤ hi + e

/-- A value in the range and in the band brings the reference closer. -/
theorem Within.follow {e : K} (h : Within lo hi e r) (hlo : lo ≤ p) (hhi : p ≤ hi) :
    Within lo hi ((1 - rule.alpha) * e) (rule.follow r p) := by
  constructor
  · calc lo - (1 - rule.alpha) * e = rule.follow (lo - e) lo := by unfold BandRule.follow; ring
      _ ≤ rule.follow r p := follow_le_follow h.1 hlo
  · calc rule.follow r p ≤ rule.follow (hi + e) hi := follow_le_follow h.2 hhi
      _ = hi + (1 - rule.alpha) * e := by unfold BandRule.follow; ring

/-- So close to the range that the reference is near. -/
def Close (rule : BandRule K) (lo hi e : K) : Prop :=
  hi ≤ (1 + rule.frac) * (lo - e) ∧ (1 - rule.frac) * (hi + e) ≤ lo

theorem Close.near {e : K} (h : rule.Close lo hi e) (hr : Within lo hi e r) :
    rule.Near lo hi r := by
  have hf := rule.frac_pos
  have hf1 : 0 ≤ 1 - rule.frac := by linarith [rule.frac_lt_one]
  obtain ⟨hbelow, habove⟩ := hr
  constructor
  · calc hi ≤ (1 + rule.frac) * (lo - e) := h.1
      _ ≤ (1 + rule.frac) * r := by gcongr
  · calc (1 - rule.frac) * r ≤ (1 - rule.frac) * (hi + e) := by gcongr
      _ ≤ lo := h.2

theorem mul_le_abs {c : K} (d : K) (h0 : 0 ≤ c) (h1 : c ≤ 1) : c * d ≤ |d| :=
  calc c * d ≤ c * |d| := mul_le_mul_of_nonneg_left (le_abs_self d) h0
    _ ≤ |d| := mul_le_of_le_one_left (abs_nonneg d) h1

/-- A value that shrinks by a factor gets as small as wanted. -/
theorem exists_abs_pow_mul_le [Archimedean K] {a m : K} (ha0 : 0 ≤ a) (ha1 : a < 1) (hm : 0 < m)
    (e : K) : ∃ n : Nat, |a ^ n * e| ≤ m := by
  have he : 0 < |e| + 1 := add_pos_of_nonneg_of_pos (abs_nonneg e) one_pos
  obtain ⟨n, hn⟩ := exists_pow_lt_of_lt_one (div_pos hm he) ha1
  rw [lt_div_iff₀ he] at hn
  have hpow : 0 ≤ a ^ n := pow_nonneg ha0 n
  refine ⟨n, ?_⟩
  rw [abs_mul, abs_of_nonneg hpow]
  exact (mul_le_mul_of_nonneg_left (le_add_of_nonneg_right zero_le_one) hpow).trans hn.le

theorem exists_close [Archimedean K] (rule : BandRule K) (hpos : 0 < lo)
    (hband : hi < (1 + rule.frac) * lo) (e : K) :
    ∃ n : Nat, rule.Close lo hi ((1 - rule.alpha) ^ n * e) := by
  have hf := rule.frac_pos
  have hf1 := rule.frac_lt_one
  have hslack : 0 < lo - (1 - rule.frac) * hi := by
    have hle : (1 - rule.frac) * hi ≤ (1 - rule.frac) * ((1 + rule.frac) * lo) :=
      mul_le_mul_of_nonneg_left hband.le (sub_nonneg.mpr hf1.le)
    have hsq : 0 < rule.frac ^ 2 * lo := mul_pos (pow_pos hf 2) hpos
    linarith
  have hroom : 0 < ((1 + rule.frac) * lo - hi) / 2 := half_pos (sub_pos.mpr hband)
  -- the margin that is left on the tighter side
  obtain ⟨n, hn⟩ := exists_abs_pow_mul_le (sub_nonneg.mpr rule.alpha_le_one)
    (sub_lt_self 1 rule.alpha_pos) (lt_min hslack hroom) e
  refine ⟨n, ?_⟩
  generalize (1 - rule.alpha) ^ n * e = d at hn ⊢
  obtain ⟨hslack', hroom'⟩ := le_min_iff.mp hn
  have hle_abs := le_abs_self d
  constructor
  · have := mul_le_abs d hf.le hf1.le
    linarith
  · have := mul_le_abs d (sub_nonneg.mpr hf1.le) (sub_le_self 1 hf.le)
    linarith

theorem count_of_passes {xs : List Bool} (h : ∀ x ∈ xs, x = false) : xs.count true = 0 :=
  List.count_eq_zero.mpr fun ht => Bool.noConfusion (h true ht)

/-- At most `patience` outliers come before each of the `n` values in the band that bring the
reference close to the range. -/
theorem count_le_of_close (hpos : 0 < lo) (hband : hi < (1 + rule.frac) * lo) {ps : List K}
    (hps : ∀ p ∈ ps, lo ≤ p ∧ p ≤ hi) {n : Nat} {e : K} (hs : rule.Sound b) (hb : b.ref = some r)
    (hr : Within lo hi e r) (hn : rule.Close lo hi ((1 - rule.alpha) ^ n * e)) :
    (transduce rule.step b ps).2.count true + b.breaches ≤ rule.patience * (n + 1) := by
  induction ps generalizing b r n e with
  | nil =>
    have := hs.waits
    have := Nat.le_mul_of_pos_right rule.patience (show 0 < n + 1 by omega)
    simp only [transduce, List.count_nil]
    omega
  | cons p ps ih =>
    have hrest := hps
    obtain ⟨⟨hlo, hhi⟩, hps⟩ := List.forall_mem_cons.mp hps
    have hwaits := hs.waits
    have hsound := hs.step p
    have hfull := Nat.le_mul_of_pos_right rule.patience (show 0 < n + 1 by omega)
    by_cases hout : rule.Outlier r p
    · rw [transduce]
      rw [step_outlier hb hout] at hsound ⊢
      split
      next hrun =>
        -- the reference moves into the range, and nothing more is flagged
        have hp : rule.Near lo hi p := near_of_mem hpos hband hlo hhi
        have hzero := count_of_passes (hp.passes (b := { ref := some p }) hpos hband hps rfl)
        simp only [List.count_cons_self, hzero]
        omega
      next hrun =>
        rw [if_neg hrun] at hsound
        have := ih hps hsound hb hr hn
        simp only [List.count_cons_self] at this ⊢
        omega
    · cases n with
      | zero =>
        have hnear := Close.near (by simpa using hn) hr
        rw [count_of_passes (hnear.passes hpos hband hrest hb)]
        omega
      | succ n =>
        rw [transduce]
        rw [step_inBand hb hout] at hsound ⊢
        have hcloser : Within lo hi ((1 - rule.alpha) * e) (rule.follow r p) := hr.follow hlo hhi
        have := ih (n := n) hps hsound rfl hcloser (by
          rw [← mul_assoc, ← pow_succ]
          exact hn)
        simp only [ne_eq, Bool.false_eq_true, not_false_eq_true, List.count_cons_of_ne] at this ⊢
        rw [Nat.mul_succ]
        omega

/-- From any state, only boundedly many values of a narrow enough range are outliers. -/
theorem recovers [Archimedean K] (hpos : 0 < lo) (hle : lo ≤ hi)
    (hband : hi < (1 + rule.frac) * lo) (hs : rule.Sound b) :
    ∃ n : Nat, ∀ ps : List K, (∀ p ∈ ps, lo ≤ p ∧ p ≤ hi) →
      (transduce rule.step b ps).2.count true ≤ n := by
  cases hb : b.ref with
  | none =>
    refine ⟨0, fun ps hps => ?_⟩
    cases ps with
    | nil => exact Nat.zero_le _
    | cons p ps =>
      obtain ⟨⟨hlo, hhi⟩, hps⟩ := List.forall_mem_cons.mp hps
      rw [transduce, step_first hb]
      exact (count_of_passes (List.forall_mem_cons.mpr ⟨rfl, Near.passes hpos hband hps rfl
        (near_of_mem hpos hband hlo hhi)⟩)).le
  | some r =>
    have hwithin : Within lo hi (|r - lo|) r := by
      have habs := abs_le.mp (le_refl |r - lo|)
      exact ⟨by linarith, by linarith⟩
    obtain ⟨n, hn⟩ := exists_close rule hpos hband |r - lo|
    refine ⟨rule.patience * (n + 1), fun ps hps => ?_⟩
    have := count_le_of_close hpos hband hps hs hb hwithin hn
    omega

end Recovery

section Drift

/-- The reference lags behind the last value by no more than a steady drift of `alpha * frac`
makes it lag in the end. -/
def Trails (rule : BandRule K) (r p : K) : Prop :=
  (1 - rule.frac) * r ≤ (1 - rule.alpha * rule.frac) * p ∧
    (1 + rule.alpha * rule.frac) * p ≤ (1 + rule.frac) * r

theorem trails_self (hp : 0 < p) : rule.Trails p p := by
  have hle : rule.alpha * rule.frac ≤ 1 * rule.frac :=
    mul_le_mul_of_nonneg_right rule.alpha_le_one rule.frac_pos.le
  rw [one_mul] at hle
  constructor <;> gcongr

variable {q : K}

theorem Trails.inBand (h : rule.Trails r p) (hq : |q - p| ≤ rule.alpha * rule.frac * p) :
    ¬rule.Outlier r q := by
  obtain ⟨hlow, hhigh⟩ := abs_le.mp hq
  obtain ⟨hbelow, habove⟩ := h
  rw [Outlier, not_lt, abs_le]
  constructor <;> linarith

/-- The lag is a fixed point: a step of the drift and the reference's answer keep it. -/
theorem Trails.follow (h : rule.Trails r p) (hq : |q - p| ≤ rule.alpha * rule.frac * p) :
    rule.Trails (rule.follow r q) q := by
  obtain ⟨hlow, hhigh⟩ := abs_le.mp hq
  obtain ⟨hbelow, habove⟩ := h
  have ha1 : 0 ≤ 1 - rule.alpha := by linarith [rule.alpha_le_one]
  have hge : (1 - rule.frac) * r ≤ q := by linarith
  have hle : q ≤ (1 + rule.frac) * r := by linarith
  have hge' := mul_le_mul_of_nonneg_left hge ha1
  have hle' := mul_le_mul_of_nonneg_left hle ha1
  unfold BandRule.follow
  constructor <;> linarith

theorem Trails.passes {ps : List K}
    (hdrift : (p :: ps).IsChain fun p q => |q - p| ≤ rule.alpha * rule.frac * p)
    (hb : b.ref = some r) (h : rule.Trails r p) :
    ∀ x ∈ (transduce rule.step b ps).2, x = false := by
  induction ps generalizing b r p with
  | nil => simp [transduce]
  | cons q ps ih =>
    obtain ⟨hq, hdrift⟩ := List.isChain_cons_cons.mp hdrift
    rw [transduce, step_inBand hb (h.inBand hq)]
    exact List.forall_mem_cons.mpr ⟨rfl, ih hdrift rfl (h.follow hq)⟩

/-- Values that drift by at most `alpha * frac` of the last one are never outliers. -/
theorem passes_of_drift {ps : List K} (hpos : ∀ p ∈ ps, 0 < p)
    (hdrift : ps.IsChain fun p q => |q - p| ≤ rule.alpha * rule.frac * p) :
    ∀ x ∈ (transduce rule.step {} ps).2, x = false := by
  cases ps with
  | nil => simp [transduce]
  | cons p ps =>
    rw [transduce, step_first rfl]
    exact List.forall_mem_cons.mpr ⟨rfl, Trails.passes hdrift rfl (trails_self (hpos p (by simp)))⟩

end Drift

end BandRule

end OhlcvValidator
