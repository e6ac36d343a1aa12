import OhlcvValidator.CheckedArray

namespace OhlcvValidator

@[simp] theorem ok_bind {ε α β : Type} (x : α) (f : α → Except ε β) :
    (Except.ok x >>= f) = f x := rfl

namespace Replay

/-- What no run of the bench may come to. -/
inductive Fault
  | outOfBounds
  | divisionByZero
  deriving DecidableEq, Repr

def checked {α : Type} : Option α → Except Fault α
  | some x => .ok x
  | none => .error .outOfBounds

def divide (a b : UInt64) : Except Fault UInt64 :=
  if b = 0 then .error .divisionByZero else .ok (a / b)

/-- A histogram with one bucket for each nanosecond up to `maxNs`. -/
structure LatencyHistogram (maxNs : UInt64) where
  buckets : Vector UInt64 (maxNs + 1).toNat := Vector.replicate _ 0
  count : UInt64 := 0
  sumNs : UInt64 := 0
  overflow : UInt64 := 0
  minNs : UInt64 := 0xFFFFFFFFFFFFFFFF
  maxObserved : UInt64 := 0

def LatencyHistogram.record {maxNs : UInt64} (h : LatencyHistogram maxNs) (ns : UInt64) :
    Except Fault (LatencyHistogram maxNs) :=
  let h :=
    { h with
      count := h.count + 1
      sumNs := h.sumNs + ns
      minNs := if ns < h.minNs then ns else h.minNs
      maxObserved := if h.maxObserved < ns then ns else h.maxObserved }
  if maxNs < ns then pure { h with overflow := h.overflow + 1 }
  else do
    let n ← checked h.buckets[ns.toNat]?
    let buckets ← checked (store h.buckets ns.toNat (n + 1))
    pure { h with buckets := buckets }

namespace LatencyHistogram

variable {maxNs : UInt64}

/-- The loop over the buckets from `ns` on: the first at which the running sum reaches the
target. -/
def scan (target : UInt64) : List UInt64 → UInt64 → UInt64 → Option UInt64
  | [], _, _ => none
  | bucket :: buckets, ns, cumulative =>
    let cumulative := cumulative + bucket
    if target ≤ cumulative then some ns else scan target buckets (ns + 1) cumulative

/-- The smallest latency at or below which the fraction `p` of the samples falls, as far as the
truncated rank tells. -/
def percentile (h : LatencyHistogram maxNs) (p : ℚ) : UInt64 :=
  if h.count = 0 then 0
  else
    let target := UInt64.ofNat ⌊p * h.count.toNat⌋₊
    (scan target h.buckets.toList 0 0).getD (maxNs + 1)

def min (h : LatencyHistogram maxNs) : UInt64 :=
  if h.count ≠ 0 then h.minNs else 0

/-- A new histogram with these samples recorded. -/
def recordAll (maxNs : UInt64) (samples : List UInt64) : Except Fault (LatencyHistogram maxNs) :=
  samples.foldlM record {}

end LatencyHistogram

theorem checked_some {α : Type} {o : Option α} {x : α} (h : o = some x) : checked o = .ok x := by
  rw [h]
  rfl

theorem divide_ok {b : UInt64} (hb : b ≠ 0) (a : UInt64) : divide a b = .ok (a / b) := by
  unfold divide
  rw [if_neg hb]

namespace LatencyHistogram

variable {maxNs : UInt64}

theorem toNat_size (hmax : maxNs ≠ 0xFFFFFFFFFFFFFFFF) : (maxNs + 1).toNat = maxNs.toNat + 1 := by
  have hlast : maxNs.toNat ≠ 2 ^ 64 - 1 := fun h => hmax (UInt64.toNat_inj.mp h)
  have := maxNs.toNat_lt
  rw [UInt64.toNat_add, UInt64.toNat_one, Nat.mod_eq_of_lt (by omega)]

theorem toNat_lt_size (hmax : maxNs ≠ 0xFFFFFFFFFFFFFFFF) {ns : UInt64} (h : ns ≤ maxNs) :
    ns.toNat < (maxNs + 1).toNat := by
  rw [toNat_size hmax]
  exact Nat.lt_succ_of_le (UInt64.le_iff_toNat_le.mp h)

/-- Every sample that is not an overflow has its bucket. -/
theorem record_ok (hmax : maxNs ≠ 0xFFFFFFFFFFFFFFFF) (h : LatencyHistogram maxNs) (ns : UInt64) :
    ∃ h', h.record ns = .ok h' ∧ h'.count = h.count + 1 := by
  unfold record
  dsimp only
  split
  next => exact ⟨_, rfl, rfl⟩
  next hns =>
    have hin := toNat_lt_size hmax (UInt64.not_lt.mp hns)
    simp only [checked_some (load_some hin), ok_bind, checked_some (store_some hin _)]
    exact ⟨_, rfl, rfl⟩

/-- What the histogram knows of the samples, the counters modulo 2⁶⁴. -/
structure Tallies (h : LatencyHistogram maxNs) (samples : List UInt64) : Prop where
  count_eq : h.count = UInt64.ofNat samples.length
  bucket_eq : ∀ ns ≤ maxNs, h.buckets[ns.toNat]? = some (UInt64.ofNat (samples.count ns))
  minNs_le : ∀ ns ∈ samples, h.minNs ≤ ns
  minNs_mem : h.minNs ∈ samples ∨ h.minNs = 0xFFFFFFFFFFFFFFFF

theorem tallies_fresh (hmax : maxNs ≠ 0xFFFFFFFFFFFFFFFF) :
    ({} : LatencyHistogram maxNs).Tallies [] where
  count_eq := rfl
  bucket_eq := by
    intro ns hns
    rw [load_some (toNat_lt_size hmax hns), Vector.getElem_replicate]
    rfl
  minNs_le := by simp
  minNs_mem := Or.inr rfl

/-- One more sample moves the minimum as it moves the least of the samples. -/
theorem Tallies.minNs_record {h : LatencyHistogram maxNs} {samples : List UInt64}
    (ht : h.Tallies samples) (ns : UInt64) :
    (∀ s ∈ samples ++ [ns], (if ns < h.minNs then ns else h.minNs) ≤ s) ∧
      ((if ns < h.minNs then ns else h.minNs) ∈ samples ++ [ns] ∨
        (if ns < h.minNs then ns else h.minNs) = 0xFFFFFFFFFFFFFFFF) := by
  split
  next hlt =>
    refine ⟨?_, Or.inl (by simp)⟩
    intro s hs
    rcases List.mem_append.mp hs with hs | hs
    · exact UInt64.le_trans (UInt64.le_of_lt hlt) (ht.minNs_le s hs)
    · rw [List.mem_singleton.mp hs]
      exact UInt64.le_refl ns
  next hge =>
    refine ⟨?_, ht.minNs_mem.imp_left fun hmem => by simp [hmem]⟩
    intro s hs
    rcases List.mem_append.mp hs with hs | hs
    · exact ht.minNs_le s hs
    · rw [List.mem_singleton.mp hs]
      exact UInt64.not_lt.mp hge

theorem Tallies.record (hmax : maxNs ≠ 0xFFFFFFFFFFFFFFFF) {h : LatencyHistogram maxNs}
    {samples : List UInt64} (ht : h.Tallies samples) (ns : UInt64) :
    ∃ h', h.record ns = .ok h' ∧ h'.Tallies (samples ++ [ns]) := by
  obtain ⟨hle, hmem⟩ := ht.minNs_record ns
  have hcount : h.count + 1 = UInt64.ofNat (samples ++ [ns]).length := by
    rw [ht.count_eq, List.length_append, UInt64.ofNat_add]
    rfl
  unfold LatencyHistogram.record
  dsimp only
  split
  next hover =>
    refine ⟨_, rfl, hcount, ?_, hle, hmem⟩
    intro u hu
    have hne : u ≠ ns := by
      rintro rfl
      exact UInt64.not_lt.mpr hu hover
    rw [ht.bucket_eq u hu, List.count_append, List.count_singleton]
    simp [hne.symm]
  next hns =>
    have hns := UInt64.not_lt.mp hns
    have hin := toNat_lt_size hmax hns
    simp only [checked_some (ht.bucket_eq ns hns), ok_bind, checked_some (store_some hin _)]
    refine ⟨_, rfl, hcount, ?_, hle, hmem⟩
    intro u hu
    rw [Vector.getElem?_set, List.count_append, List.count_singleton]
    by_cases hun : ns = u
    · subst hun
      simp [UInt64.ofNat_add]
    · rw [if_neg (mt UInt64.toNat_inj.mp hun), ht.bucket_eq u hu]
      simp [hun]

theorem recordAll_tallies (hmax : maxNs ≠ 0xFFFFFFFFFFFFFFFF) (samples : List UInt64) :
    ∃ h, recordAll maxNs samples = .ok h ∧ h.Tallies samples := by
  induction samples using List.reverseRecOn with
  | nil => exact ⟨_, rfl, tallies_fresh hmax⟩
  | append_singleton samples ns ih =>
    obtain ⟨h, hrun, ht⟩ := ih
    obtain ⟨h', hrecord, ht'⟩ := ht.record hmax ns
    refine ⟨h', ?_, ht'⟩
    unfold recordAll at hrun ⊢
    rw [List.foldlM_append, hrun, ok_bind, List.foldlM_cons, hrecord]
    rfl

/-- How many of the samples are at most `v`. -/
def atMost (samples : List UInt64) (v : UInt64) : Nat :=
  samples.countP (· ≤ v)

theorem atMost_mono (samples : List UInt64) {u v : UInt64} (h : u ≤ v) :
    atMost samples u ≤ atMost samples v := by
  refine List.countP_mono_left fun s _ hs => ?_
  simp only [decide_eq_true_eq] at hs ⊢
  exact UInt64.le_trans hs h

/-- The samples below a bucket. -/
def below (samples : List UInt64) (i : Nat) : Nat :=
  samples.countP (·.toNat < i)

theorem below_succ (samples : List UInt64) {i : Nat} (hi : i < 2 ^ 64) :
    below samples (i + 1) = below samples i + samples.count (UInt64.ofNat i) := by
  induction samples with
  | nil => rfl
  | cons s samples ih =>
    have hs : s = UInt64.ofNat i ↔ s.toNat = i := by
      rw [← UInt64.toNat_inj, UInt64.toNat_ofNat_of_lt' hi]
    simp only [below, List.countP_cons, List.count_cons, decide_eq_true_eq, beq_iff_eq, hs] at ih ⊢
    split <;> split <;> split <;> omega

theorem atMost_eq_below (samples : List UInt64) (v : UInt64) :
    atMost samples v = below samples (v.toNat + 1) := by
  refine List.countP_congr fun s _ => ?_
  simp only [decide_eq_true_eq, UInt64.le_iff_toNat_le]
  omega

theorem Tallies.buckets_eq (hmax : maxNs ≠ 0xFFFFFFFFFFFFFFFF) {h : LatencyHistogram maxNs}
    {samples : List UInt64} (ht : h.Tallies samples) :
    h.buckets.toList = (List.range' 0 (maxNs.toNat + 1)).map
      fun i => UInt64.ofNat (samples.count (UInt64.ofNat i)) := by
  apply List.ext_getElem?
  intro i
  rw [Vector.getElem?_toList, List.getElem?_map, ← List.range_eq_range']
  by_cases hi : i < maxNs.toNat + 1
  · have hword : (UInt64.ofNat i).toNat = i :=
      UInt64.toNat_ofNat_of_lt' ((Nat.le_of_lt_succ hi).trans_lt maxNs.toNat_lt)
    have hle : UInt64.ofNat i ≤ maxNs := by
      rw [UInt64.le_iff_toNat_le, hword]
      omega
    have hbucket := ht.bucket_eq _ hle
    rw [hword] at hbucket
    rw [hbucket, List.getElem?_range hi]
    rfl
  · rw [Vector.getElem?_eq_none (by rw [toNat_size hmax]; omega),
      List.getElem?_eq_none (by simpa using hi)]
    rfl

/-- The loop stops at the first bucket up to which there are enough samples. -/
theorem scan_spec {samples : List UInt64} (hlen : samples.length < 2 ^ 64) (target : UInt64)
    (len : Nat) (ns cumulative : UInt64) (hend : ns.toNat + len ≤ 2 ^ 64)
    (hcum : cumulative.toNat = below samples ns.toNat) :
    let buckets := (List.range' ns.toNat len).map
      fun i => UInt64.ofNat (samples.count (UInt64.ofNat i))
    (∃ v, scan target buckets ns cumulative = some v ∧ v.toNat < ns.toNat + len ∧
      target.toNat ≤ below samples (v.toNat + 1) ∧
      ∀ i, ns.toNat ≤ i → i < v.toNat → below samples (i + 1) < target.toNat) ∨
    (scan target buckets ns cumulative = none ∧
      ∀ i, ns.toNat ≤ i → i < ns.toNat + len → below samples (i + 1) < target.toNat) := by
  intro buckets
  induction len generalizing ns cumulative with
  | zero =>
    refine Or.inr ⟨rfl, ?_⟩
    intro i hle hlt
    omega
  | succ len ih =>
    have hword : UInt64.ofNat ns.toNat = ns := UInt64.ofNat_toNat
    have hbelow := below_succ samples ns.toNat_lt
    have hle : below samples (ns.toNat + 1) ≤ samples.length := List.countP_le_length
    have hnext : (cumulative + UInt64.ofNat (samples.count ns)).toNat =
        below samples (ns.toNat + 1) := by
      rw [hword] at hbelow
      have hcount : samples.count ns ≤ samples.length := by omega
      rw [UInt64.toNat_add, UInt64.toNat_ofNat_of_lt' (hcount.trans_lt hlen), hcum, ← hbelow,
        Nat.mod_eq_of_lt (by omega)]
    simp only [buckets, List.range'_succ, List.map_cons, scan, hword]
    split
    next hreach =>
      rw [UInt64.le_iff_toNat_le, hnext] at hreach
      refine Or.inl ⟨ns, rfl, by omega, hreach, ?_⟩
      intro i hge hlt
      omega
    next hmiss =>
      rw [UInt64.le_iff_toNat_le, hnext, Nat.not_le] at hmiss
      by_cases hlast : len = 0
      · subst hlast
        refine Or.inr ⟨rfl, ?_⟩
        intro i hge hlt
        rwa [show i = ns.toNat by omega]
      · have hsucc : (ns + 1).toNat = ns.toNat + 1 := by
          rw [UInt64.toNat_add, UInt64.toNat_one, Nat.mod_eq_of_lt (by omega)]
        have hstep := ih (ns + 1) (cumulative + UInt64.ofNat (samples.count ns)) (by omega)
          (by rw [hnext, hsucc])
        simp only [hsucc] at hstep
        have hcase : ∀ i, ns.toNat ≤ i → i = ns.toNat ∨ ns.toNat + 1 ≤ i := by omega
        rcases hstep with ⟨v, hv, hlt, hreach, hfirst⟩ | ⟨hnone, hall⟩
        · refine Or.inl ⟨v, hv, by omega, hreach, ?_⟩
          intro i hge hiv
          rcases hcase i hge with rfl | hgt
          · exact hmiss
          · exact hfirst i hgt hiv
        · refine Or.inr ⟨hnone, ?_⟩
          intro i hge hlt
          rcases hcase i hge with rfl | hgt
          · exact hmiss
          · exact hall i hgt (by omega)

/-- The first value at which `P` holds, or `maxNs + 1` if there is none up to `maxNs`. -/
def FirstUpTo (maxNs : UInt64) (P : UInt64 → Prop) (v : UInt64) : Prop :=
  (v ≤ maxNs ∧ P v ∧ ∀ u, P u → v ≤ u) ∨ (v = maxNs + 1 ∧ ∀ u ≤ maxNs, ¬P u)

theorem not_succ_le (hmax : maxNs ≠ 0xFFFFFFFFFFFFFFFF) : ¬maxNs + 1 ≤ maxNs := by
  rw [UInt64.le_iff_toNat_le, toNat_size hmax]
  omega

/-- A stronger property that grows with the value has the same first place just if it is no
stronger up to `maxNs`. -/
theorem FirstUpTo.iff_of_imp (hmax : maxNs ≠ 0xFFFFFFFFFFFFFFFF) {P Q : UInt64 → Prop}
    {v : UInt64} (h : FirstUpTo maxNs P v) (himp : ∀ u, Q u → P u)
    (hmono : ∀ u w, u ≤ w → Q u → Q w) :
    FirstUpTo maxNs Q v ↔ ∀ u ≤ maxNs, P u → Q u := by
  constructor
  · intro hq u hu hpu
    rcases h with ⟨hv, _, hleast⟩ | ⟨_, hnone⟩
    · rcases hq with ⟨_, hqv, _⟩ | ⟨rfl, _⟩
      · exact hmono v u (hleast u hpu) hqv
      · exact absurd hv (not_succ_le hmax)
    · exact absurd hpu (hnone u hu)
  · intro hup
    rcases h with ⟨hv, hpv, hleast⟩ | ⟨rfl, hnone⟩
    · exact Or.inl ⟨hv, hup v hv hpv, fun u hu => hleast u (himp u hu)⟩
    · exact Or.inr ⟨rfl, fun u hu hqu => hnone u hu (himp u hqu)⟩

section Percentile

variable {h : LatencyHistogram maxNs} {samples : List UInt64} {p : ℚ}

theorem Tallies.toNat_count (ht : h.Tallies samples) (hlen : samples.length < 2 ^ 64) :
    h.count.toNat = samples.length := by
  rw [ht.count_eq, UInt64.toNat_ofNat_of_lt' hlen]

theorem Tallies.count_ne_zero (ht : h.Tallies samples) (hlen : samples.length < 2 ^ 64)
    (hne : samples ≠ []) : h.count ≠ 0 := by
  intro hzero
  have hcount := ht.toNat_count hlen
  rw [hzero, UInt64.toNat_zero] at hcount
  exact hne (List.length_eq_zero_iff.mp hcount.symm)

/-- The minimum is the least of the samples. -/
theorem Tallies.min_spec (ht : h.Tallies samples) (hlen : samples.length < 2 ^ 64)
    (hne : samples ≠ []) : h.min ∈ samples ∧ ∀ ns ∈ samples, h.min ≤ ns := by
  have hmin : h.min = h.minNs := if_pos (ht.count_ne_zero hlen hne)
  rw [hmin]
  refine ⟨?_, ht.minNs_le⟩
  rcases ht.minNs_mem with hmem | hlast
  · exact hmem
  · -- the initial value stands only below samples that equal it
    obtain ⟨ns, hns⟩ := List.exists_mem_of_ne_nil samples hne
    have hle := ht.minNs_le ns hns
    have heq : h.minNs = ns := by
      rw [hlast, UInt64.le_iff_toNat_le] at hle
      rw [hlast, ← UInt64.toNat_inj]
      exact Nat.le_antisymm hle (Nat.le_of_lt_succ ns.toNat_lt)
    rwa [heq]

/-- What the code computes: the first value that reaches the truncated rank. -/
theorem Tallies.percentile_first (hmax : maxNs ≠ 0xFFFFFFFFFFFFFFFF) (ht : h.Tallies samples)
    (hlen : samples.length < 2 ^ 64) (hne : samples ≠ []) (hp : p ≤ 1) :
    FirstUpTo maxNs (fun v => ⌊p * samples.length⌋₊ ≤ atMost samples v) (h.percentile p) := by
  have hrank : ⌊p * samples.length⌋₊ ≤ samples.length := by
    have hle : p * samples.length ≤ samples.length :=
      mul_le_of_le_one_left (Nat.cast_nonneg _) hp
    exact (Nat.floor_le_floor hle).trans (Nat.floor_natCast _).le
  have htarget : (UInt64.ofNat ⌊p * samples.length⌋₊).toNat = ⌊p * samples.length⌋₊ :=
    UInt64.toNat_ofNat_of_lt' (hrank.trans_lt hlen)
  have hscan := scan_spec hlen (UInt64.ofNat ⌊p * samples.length⌋₊) (maxNs.toNat + 1) 0 0
    (by have := maxNs.toNat_lt; simp; omega) (by simp [below])
  simp only [UInt64.toNat_zero, Nat.zero_add, htarget, ← ht.buckets_eq hmax] at hscan
  unfold percentile
  rw [if_neg (ht.count_ne_zero hlen hne), ht.toNat_count hlen]
  dsimp only
  rcases hscan with ⟨v, hv, hlt, hreach, hfirst⟩ | ⟨hnone, hall⟩
  · rw [hv]
    refine Or.inl ⟨UInt64.le_iff_toNat_le.mpr (Nat.le_of_lt_succ hlt), ?_, ?_⟩
    · show ⌊p * samples.length⌋₊ ≤ atMost samples v
      rwa [atMost_eq_below]
    · intro u hu
      rw [atMost_eq_below] at hu
      rw [Option.getD_some, UInt64.le_iff_toNat_le]
      by_contra hlt
      have := hfirst u.toNat (Nat.zero_le _) (by omega)
      omega
  · rw [hnone]
    refine Or.inr ⟨rfl, ?_⟩
    intro u hu
    rw [UInt64.le_iff_toNat_le] at hu
    show ¬⌊p * samples.length⌋₊ ≤ atMost samples u
    rw [atMost_eq_below, Nat.not_le]
    exact hall u.toNat (Nat.zero_le _) (by omega)

end Percentile

/-- At the largest 64-bit `maxNs` the size `maxNs + 1` wraps to no bucket at all. -/
theorem record_last (h : LatencyHistogram 0xFFFFFFFFFFFFFFFF) (ns : UInt64) :
    h.record ns = .error .outOfBounds := by
  have hns : ¬(0xFFFFFFFFFFFFFFFF : UInt64) < ns := by
    have := ns.toNat_lt
    simp only [UInt64.lt_iff_toNat_lt, UInt64.reduceToNat]
    omega
  have hout : h.buckets[ns.toNat]? = none :=
    Vector.getElem?_eq_none (Nat.zero_le _)
  unfold record
  simp only [if_neg hns, hout]
  rfl

theorem recordAll_ok_iff {maxNs : UInt64} {samples : List UInt64} (hne : samples ≠ []) :
    (∃ h, recordAll maxNs samples = .ok h) ↔ maxNs ≠ 0xFFFFFFFFFFFFFFFF := by
  constructor
  · rintro ⟨h, hrun⟩ rfl
    obtain ⟨ns, samples, rfl⟩ := List.exists_cons_of_ne_nil hne
    rw [recordAll, List.foldlM_cons, record_last] at hrun
    exact absurd hrun nofun
  · intro hmax
    obtain ⟨h, hrun, _⟩ := recordAll_tallies hmax samples
    exact ⟨h, hrun⟩

/-- Of recorded samples: the percentile is what it is defined to be, and not below the minimum,
just if every value up to `maxNs` that misses the exact rank misses the truncated one too, and not
all samples lie beyond `maxNs + 1`. -/
theorem Tallies.percentile_exact {maxNs : UInt64} {h : LatencyHistogram maxNs}
    {samples : List UInt64} (ht : h.Tallies samples) (hmax : maxNs ≠ 0xFFFFFFFFFFFFFFFF)
    (hne : samples ≠ []) (hlen : samples.length < 2 ^ 64) {p : ℚ} (hp0 : 0 < p) (hp1 : p ≤ 1) :
    (FirstUpTo maxNs (fun v => p * samples.length ≤ atMost samples v) (h.percentile p) ∧
        h.min ≤ h.percentile p) ↔
      (∀ v ≤ maxNs, (atMost samples v : ℚ) < p * samples.length →
        atMost samples v < ⌊p * samples.length⌋₊) ∧
      ∃ ns ∈ samples, ns ≤ maxNs + 1 := by
  have hpos : 0 < p * samples.length :=
    mul_pos hp0 (Nat.cast_pos.mpr (List.length_pos_iff.mpr hne))
  have hfirst := ht.percentile_first hmax hlen hne hp1
  have hexact := hfirst.iff_of_imp hmax (Q := fun v => p * samples.length ≤ atMost samples v)
    (fun u hu => Nat.floor_le_of_le hu)
    (fun u w huw hu => hu.trans (Nat.cast_le.mpr (atMost_mono samples huw)))
  obtain ⟨hmem, hleast⟩ := ht.min_spec hlen hne
  have hrank : (∀ v ≤ maxNs, (atMost samples v : ℚ) < p * samples.length →
      atMost samples v < ⌊p * samples.length⌋₊) ↔
      ∀ v ≤ maxNs, ⌊p * samples.length⌋₊ ≤ atMost samples v →
        p * samples.length ≤ atMost samples v := by
    refine forall₂_congr fun v _ => ?_
    rw [← not_le, ← not_le, not_imp_not]
  rw [hexact, hrank]
  refine and_congr_right fun hup => ?_
  rcases hexact.mpr hup with ⟨hv, hreach, _⟩ | ⟨hv, hnone⟩
  · -- some sample reaches the rank at or below the value
    have hsome : ∃ ns ∈ samples, ns ≤ h.percentile p := by
      have hcount : 0 < atMost samples (h.percentile p) :=
        Nat.cast_pos.mp (hpos.trans_le hreach)
      simpa [atMost] using List.countP_pos_iff.mp hcount
    obtain ⟨ns, hns, hle⟩ := hsome
    have hnext : h.percentile p ≤ maxNs + 1 := by
      rw [UInt64.le_iff_toNat_le] at hv ⊢
      rw [toNat_size hmax]
      omega
    exact ⟨fun _ => ⟨ns, hns, UInt64.le_trans hle hnext⟩,
      fun _ => UInt64.le_trans (hleast ns hns) hle⟩
  · rw [hv]
    exact ⟨fun hle => ⟨h.min, hmem, hle⟩,
      fun ⟨ns, hns, hle⟩ => UInt64.le_trans (hleast ns hns) hle⟩

/-- Recording succeeds just if there are buckets, and then the percentile of the samples is what it
is defined to be, and not below the minimum, just if every value up to `maxNs` that misses the
exact rank misses the truncated one too, and not all samples lie beyond `maxNs + 1`. -/
theorem percentile_exact_iff {maxNs : UInt64} {samples : List UInt64} (hne : samples ≠ [])
    (hlen : samples.length < 2 ^ 64) {p : ℚ} (hp0 : 0 < p) (hp1 : p ≤ 1) :
    ((∃ h, recordAll maxNs samples = .ok h) ↔ maxNs ≠ 0xFFFFFFFFFFFFFFFF) ∧
      ((∃ h, recordAll maxNs samples = .ok h ∧
          FirstUpTo maxNs (fun v => p * samples.length ≤ atMost samples v) (h.percentile p) ∧
          h.min ≤ h.percentile p) ↔
        maxNs ≠ 0xFFFFFFFFFFFFFFFF ∧
        (∀ v ≤ maxNs, (atMost samples v : ℚ) < p * samples.length →
          atMost samples v < ⌊p * samples.length⌋₊) ∧
        ∃ ns ∈ samples, ns ≤ maxNs + 1) := by
  refine ⟨recordAll_ok_iff hne, ?_⟩
  constructor
  · rintro ⟨h, hrun, hexact⟩
    have hmax : maxNs ≠ 0xFFFFFFFFFFFFFFFF := (recordAll_ok_iff hne).mp ⟨h, hrun⟩
    obtain ⟨_, hrun', ht⟩ := recordAll_tallies hmax samples
    cases hrun.symm.trans hrun'
    exact ⟨hmax, (ht.percentile_exact hmax hne hlen hp0 hp1).mp hexact⟩
  · rintro ⟨hmax, hcond⟩
    obtain ⟨h, hrun, ht⟩ := recordAll_tallies hmax samples
    exact ⟨h, hrun, (ht.percentile_exact hmax hne hlen hp0 hp1).mpr hcond⟩

/-- Half of four samples is a whole rank. -/
theorem percentile_exact_median :
    ∃ h, recordAll 10 [1, 2, 3, 4] = .ok h ∧
      FirstUpTo 10 (fun v => (1 / 2 : ℚ) * [(1 : UInt64), 2, 3, 4].length ≤
        atMost [1, 2, 3, 4] v) (h.percentile (1 / 2)) ∧ h.min ≤ h.percentile (1 / 2) := by
  have hiff := (@percentile_exact_iff 10 [1, 2, 3, 4] (by decide) (by decide) (1 / 2)
    (by norm_num) (by norm_num)).2
  refine hiff.mpr ⟨by decide, ?_, 1, by decide, by decide⟩
  intro v _ hmiss
  have hwhole : (1 / 2 : ℚ) * [(1 : UInt64), 2, 3, 4].length = (2 : ℕ) := by norm_num
  rw [hwhole] at hmiss ⊢
  rw [Nat.floor_natCast]
  exact Nat.cast_lt.mp hmiss

/-- Half of one sample is truncated to no sample at all, which bucket zero already has. -/
theorem percentile_below_min :
    ∃ h, recordAll 10 [5] = .ok h ∧ h.percentile (1 / 2) = 0 ∧ h.min = 5 ∧
      ¬FirstUpTo 10 (fun v => (1 / 2 : ℚ) * [(5 : UInt64)].length ≤ atMost [5] v)
        (h.percentile (1 / 2)) ∧ ¬h.min ≤ h.percentile (1 / 2) := by
  refine ⟨_, rfl, ?_⟩
  refine ⟨by decide +kernel, by decide +kernel, ?_, by decide +kernel⟩
  rintro (⟨_, hreach, _⟩ | ⟨hlast, _⟩)
  · revert hreach
    decide +kernel
  · revert hlast
    decide +kernel

end LatencyHistogram

end Replay

end OhlcvValidator
