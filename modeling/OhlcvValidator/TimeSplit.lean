import OhlcvValidator.IndexArrays

namespace OhlcvValidator

namespace Ml

open IndexArrays (gather masked subrange sortedDistinct stableArgsort)

variable {Y T : Type} [LinearOrder Y] [LinearOrder T]

/-- Row indices of a frame, in time order per symbol. -/
structure Split where
  fit : List Nat
  calibrate : List Nat
  test : List Nat
  deriving DecidableEq, Repr

/-- `int(q)`. -/
def truncate (q : ℚ) : Int :=
  if 0 ≤ q then ⌊q⌋ else ⌈q⌉

/-- `np.where(symbol == sym)[0]`. -/
def rowsOf (symbol : List Y) (sym : Y) : List Nat :=
  (List.range symbol.length).filter fun i => symbol[i]? = some sym

/-- `idx[np.argsort(start_ns[idx], kind="stable")]`. -/
def timeOrdered (startNs : List T) (idx : List Nat) : List Nat :=
  gather idx (stableArgsort (gather startNs idx))

/-- The three blocks of one symbol's rows. -/
def timeBlocks (fitFrac calibFrac : ℚ) (idx : List Nat) : Split :=
  let n := idx.length
  let a := truncate (n * fitFrac)
  let b := a + truncate (n * calibFrac)
  ⟨subrange idx 0 a, subrange idx a b, subrange idx b n⟩

def symbolBlocks (symbol : List Y) (startNs : List T) (fitFrac calibFrac : ℚ) (sym : Y) : Split :=
  timeBlocks fitFrac calibFrac (timeOrdered startNs (rowsOf symbol sym))

def timeSplit (symbol : List Y) (startNs : List T) (fitFrac calibFrac : ℚ) : Split :=
  let blocks := (sortedDistinct symbol).map (symbolBlocks symbol startNs fitFrac calibFrac)
  ⟨blocks.flatMap Split.fit, blocks.flatMap Split.calibrate, blocks.flatMap Split.test⟩

/-- Which two blocks of a symbol are out of order. -/
inductive Leak where
  | fitTest
  | calibrateTest
  | fitCalibrate
  deriving DecidableEq, Repr

structure LeakageError (Y : Type) where
  sym : Y
  leak : Leak
  deriving DecidableEq, Repr

/-- The text of the assertion, given Python's `repr` of the symbol. -/
def LeakageError.message (repr : Y → String) (e : LeakageError Y) : String :=
  "leakage: " ++ repr e.sym ++
    match e.leak with
    | .fitTest => " fit not before test"
    | .calibrateTest => " calibrate not before test"
    | .fitCalibrate => " fit not before calibrate"

/-- The start times of one symbol's rows among `rows`. -/
def symbolTimes (symbol : List Y) (startNs : List T) (sym : Y) (rows : List Nat) : List T :=
  let s := masked rows ((gather symbol rows).map fun x => decide (x = sym))
  gather startNs s

/-- `len(ys) and len(xs) and xs.max() >= ys.min()`. -/
def notBefore (xs ys : List T) : Bool :=
  match xs.max?, ys.min? with
  | some x, some y => decide (y ≤ x)
  | _, _ => false

def assertNoLeakage (split : Split) (symbol : List Y) (startNs : List T) :
    Except (LeakageError Y) Unit :=
  (sortedDistinct symbol).forM fun sym =>
    let f := symbolTimes symbol startNs sym split.fit
    let c := symbolTimes symbol startNs sym split.calibrate
    let t := symbolTimes symbol startNs sym split.test
    if notBefore f t then .error ⟨sym, .fitTest⟩
    else if notBefore c t then .error ⟨sym, .calibrateTest⟩
    else if notBefore f c then .error ⟨sym, .fitCalibrate⟩
    else .ok ()

/-- Times of one symbol in `rows` are related to its times in `later`. -/
def Precedes (r : T → T → Prop) (symbol : List Y) (startNs : List T) (rows later : List Nat) :
    Prop :=
  ∀ i ∈ rows, ∀ j ∈ later, symbol[i]? = symbol[j]? →
    ∀ t u, startNs[i]? = some t → startNs[j]? = some u → r t u

/-- How many of the rows are the symbol's. -/
def countOf (symbol : List Y) (sym : Y) (rows : List Nat) : Nat :=
  rows.countP fun i => symbol[i]? = some sym

/-- A partition of the rows into contiguous time blocks of the given shares per symbol. -/
structure Split.Partitions (symbol : List Y) (startNs : List T) (fitFrac calibFrac : ℚ)
    (split : Split) : Prop where
  rows : (split.fit ++ split.calibrate ++ split.test).Perm (List.range symbol.length)
  fit : ∀ sym, (countOf symbol sym split.fit : Int) = ⌊symbol.count sym * fitFrac⌋
  calibrate : ∀ sym, (countOf symbol sym split.calibrate : Int) = ⌊symbol.count sym * calibFrac⌋
  test : ∀ sym, countOf symbol sym split.fit + countOf symbol sym split.calibrate +
    countOf symbol sym split.test = symbol.count sym
  fit_calibrate : Precedes (· ≤ ·) symbol startNs split.fit split.calibrate
  calibrate_test : Precedes (· ≤ ·) symbol startNs split.calibrate split.test
  fit_test : Precedes (· ≤ ·) symbol startNs split.fit split.test

section Rows

variable {symbol : List Y} {startNs : List T} {sym : Y} {i : Nat}

omit [LinearOrder T] in
theorem mem_rowsOf : i ∈ rowsOf symbol sym ↔ symbol[i]? = some sym := by
  rw [rowsOf, List.mem_filter, List.mem_range, decide_eq_true_eq, and_iff_right_iff_imp]
  intro h
  exact (List.getElem?_eq_some_iff.mp h).1

theorem length_rowsOf (symbol : List Y) (sym : Y) :
    (rowsOf symbol sym).length = symbol.count sym := by
  have hread := congrArg (List.count sym) (IndexArrays.gather_range symbol)
  rw [gather, List.count_filterMap] at hread
  rw [rowsOf, ← List.countP_eq_length_filter, ← hread]
  exact List.countP_congr fun i _ => by simp

/-- Sorting by time keeps the rows. -/
theorem timeOrdered_perm {idx : List Nat} (h : ∀ i ∈ idx, i < startNs.length) :
    (timeOrdered startNs idx).Perm idx := by
  have hperm := (IndexArrays.stableArgsort_perm (gather startNs idx)).filterMap fun i => idx[i]?
  rw [IndexArrays.length_gather h] at hperm
  exact hperm.trans (List.Perm.of_eq (IndexArrays.gather_range idx))

theorem timeOrdered_pairwise {idx : List Nat} (h : ∀ i ∈ idx, i < startNs.length) :
    (timeOrdered startNs idx).Pairwise fun i j =>
      ∀ t u, startNs[i]? = some t → startNs[j]? = some u → t ≤ u := by
  rw [timeOrdered, gather, List.pairwise_filterMap]
  refine (IndexArrays.stableArgsort_pairwise (gather startNs idx)).imp ?_
  intro k l hkl i hi j hj t u ht hu
  have hkt : (gather startNs idx)[k]? = some t := by
    rw [IndexArrays.getElem?_gather h, hi, Option.bind_some, ht]
  have hlu : (gather startNs idx)[l]? = some u := by
    rw [IndexArrays.getElem?_gather h, hj, Option.bind_some, hu]
  rcases hkl t u hkt hlu with hlt | ⟨rfl, -⟩
  · exact hlt.le
  · exact le_rfl

end Rows

section Blocks

variable {fitFrac calibFrac : ℚ}

theorem truncate_of_nonneg {q : ℚ} (h : 0 ≤ q) : truncate q = ⌊q⌋ :=
  if_pos h

/-- Valid shares cut the rows in three. -/
theorem timeBlocks_spec (hfit : 0 ≤ fitFrac) (hcal : 0 ≤ calibFrac) (hsum : fitFrac + calibFrac ≤ 1)
    (idx : List Nat) :
    (timeBlocks fitFrac calibFrac idx).fit ++ (timeBlocks fitFrac calibFrac idx).calibrate ++
        (timeBlocks fitFrac calibFrac idx).test = idx ∧
      ((timeBlocks fitFrac calibFrac idx).fit.length : Int) = ⌊idx.length * fitFrac⌋ ∧
      ((timeBlocks fitFrac calibFrac idx).calibrate.length : Int) = ⌊idx.length * calibFrac⌋ := by
  have hn : (0 : ℚ) ≤ idx.length := Nat.cast_nonneg _
  have ha : truncate (idx.length * fitFrac) = ⌊idx.length * fitFrac⌋ :=
    truncate_of_nonneg (mul_nonneg hn hfit)
  have hb : truncate (idx.length * calibFrac) = ⌊idx.length * calibFrac⌋ :=
    truncate_of_nonneg (mul_nonneg hn hcal)
  have ha0 : 0 ≤ ⌊idx.length * fitFrac⌋ := Int.floor_nonneg.mpr (mul_nonneg hn hfit)
  have hb0 : 0 ≤ ⌊idx.length * calibFrac⌋ := Int.floor_nonneg.mpr (mul_nonneg hn hcal)
  have hle : ⌊idx.length * fitFrac⌋ + ⌊idx.length * calibFrac⌋ ≤ (idx.length : Int) := by
    have hshare : idx.length * fitFrac + idx.length * calibFrac ≤ (idx.length : ℚ) := by
      rw [← mul_add]
      exact mul_le_of_le_one_right hn hsum
    have hfloor := Int.floor_le_floor hshare
    rw [Int.floor_natCast] at hfloor
    exact (Int.le_floor_add _ _).trans hfloor
  simp only [timeBlocks, ha, hb]
  refine ⟨?_, ?_, ?_⟩
  · rw [IndexArrays.subrange_append_subrange le_rfl ha0 (by omega) hle,
      IndexArrays.subrange_append_subrange le_rfl (by omega) hle le_rfl, IndexArrays.subrange_all]
  · rw [IndexArrays.length_subrange le_rfl ha0 (by omega)]
    omega
  · rw [IndexArrays.length_subrange ha0 (by omega) hle]
    omega

end Blocks

section Symbols

variable {symbol : List Y} {startNs : List T} {fitFrac calibFrac : ℚ}

/-- One symbol's rows in time order, cut at its shares. -/
structure Split.Cuts (symbol : List Y) (startNs : List T) (fitFrac calibFrac : ℚ) (sym : Y)
    (blocks : Split) : Prop where
  rows : (blocks.fit ++ blocks.calibrate ++ blocks.test).Perm (rowsOf symbol sym)
  fit : (blocks.fit.length : Int) = ⌊symbol.count sym * fitFrac⌋
  calibrate : (blocks.calibrate.length : Int) = ⌊symbol.count sym * calibFrac⌋
  ordered : (blocks.fit ++ blocks.calibrate ++ blocks.test).Pairwise fun i j =>
    ∀ t u, startNs[i]? = some t → startNs[j]? = some u → t ≤ u

theorem symbolBlocks_cuts (hlen : symbol.length = startNs.length) (hfit : 0 ≤ fitFrac)
    (hcal : 0 ≤ calibFrac) (hsum : fitFrac + calibFrac ≤ 1) (sym : Y) :
    (symbolBlocks symbol startNs fitFrac calibFrac sym).Cuts symbol startNs fitFrac calibFrac
      sym := by
  have hlt : ∀ i ∈ rowsOf symbol sym, i < startNs.length := by
    intro i hi
    rw [← hlen]
    exact (List.getElem?_eq_some_iff.mp (mem_rowsOf.mp hi)).1
  have hperm := timeOrdered_perm hlt
  obtain ⟨happend, hf, hc⟩ :=
    timeBlocks_spec hfit hcal hsum (timeOrdered startNs (rowsOf symbol sym))
  rw [hperm.length_eq, length_rowsOf] at hf hc
  refine ⟨?_, hf, hc, ?_⟩
  · rw [symbolBlocks, happend]
    exact hperm
  · rw [symbolBlocks, happend]
    exact timeOrdered_pairwise hlt

namespace Split.Cuts

variable {sym : Y} {blocks : Split} (h : blocks.Cuts symbol startNs fitFrac calibFrac sym)
include h

theorem symbol_of_mem {i : Nat} (hi : i ∈ blocks.fit ++ blocks.calibrate ++ blocks.test) :
    symbol[i]? = some sym :=
  mem_rowsOf.mp (h.rows.mem_iff.mp hi)

theorem length_test : blocks.fit.length + blocks.calibrate.length + blocks.test.length =
    symbol.count sym := by
  have hlen := h.rows.length_eq
  rwa [List.length_append, List.length_append, length_rowsOf] at hlen

end Split.Cuts

end Symbols

section Parts

/-! One part of every symbol's blocks, one symbol after the other. -/

variable {symbol : List Y} {startNs : List T} {part part' : Y → List Nat}

omit [LinearOrder T] in
theorem countOf_flatMap (h : ∀ sym, ∀ i ∈ part sym, symbol[i]? = some sym) (sym : Y) :
    countOf symbol sym ((sortedDistinct symbol).flatMap part) = (part sym).length := by
  by_cases hsym : sym ∈ symbol
  · rw [countOf, List.countP_eq_length_filter, IndexArrays.filter_flatMap_key
      (IndexArrays.nodup_sortedDistinct symbol) (fun s _ => h s)
      (IndexArrays.mem_sortedDistinct.mpr hsym)]
  · have hnone : ∀ i, symbol[i]? ≠ some sym := fun i hi => hsym (List.mem_of_getElem? hi)
    have hpart : part sym = [] := List.eq_nil_iff_forall_not_mem.mpr fun i hi => hnone i (h sym i hi)
    rw [hpart, countOf, List.countP_eq_zero.mpr]
    · rfl
    · intro i _
      simpa using hnone i

omit [LinearOrder Y] in
theorem precedes_flatMap (h : ∀ sym, ∀ i ∈ part sym, symbol[i]? = some sym)
    (h' : ∀ sym, ∀ i ∈ part' sym, symbol[i]? = some sym)
    (hle : ∀ sym, ∀ i ∈ part sym, ∀ j ∈ part' sym,
      ∀ t u, startNs[i]? = some t → startNs[j]? = some u → t ≤ u) (ks : List Y) :
    Precedes (· ≤ ·) symbol startNs (ks.flatMap part) (ks.flatMap part') := by
  intro i hi j hj hij
  obtain ⟨sym, -, hi⟩ := List.mem_flatMap.mp hi
  obtain ⟨sym', -, hj⟩ := List.mem_flatMap.mp hj
  rw [h sym i hi, h' sym' j hj] at hij
  obtain rfl := Option.some.inj hij
  exact hle sym i hi j hj

end Parts

section Partition

variable {symbol : List Y} {startNs : List T} {fitFrac calibFrac : ℚ}

theorem timeSplit_partitions (hlen : symbol.length = startNs.length) (hfit : 0 ≤ fitFrac)
    (hcal : 0 ≤ calibFrac) (hsum : fitFrac + calibFrac ≤ 1) :
    (timeSplit symbol startNs fitFrac calibFrac).Partitions symbol startNs fitFrac calibFrac := by
  have hcuts := fun sym => @symbolBlocks_cuts Y T _ _ symbol startNs _ _ hlen hfit hcal hsum sym
  have hf : ∀ sym, ∀ i ∈ (symbolBlocks symbol startNs fitFrac calibFrac sym).fit,
      symbol[i]? = some sym := fun sym i hi => (hcuts sym).symbol_of_mem (by simp [hi])
  have hc : ∀ sym, ∀ i ∈ (symbolBlocks symbol startNs fitFrac calibFrac sym).calibrate,
      symbol[i]? = some sym := fun sym i hi => (hcuts sym).symbol_of_mem (by simp [hi])
  have ht : ∀ sym, ∀ i ∈ (symbolBlocks symbol startNs fitFrac calibFrac sym).test,
      symbol[i]? = some sym := fun sym i hi => (hcuts sym).symbol_of_mem (by simp [hi])
  have hordered := fun sym => List.pairwise_append.mp (hcuts sym).ordered
  simp only [timeSplit, List.flatMap_map]
  refine ⟨?_, ?_, ?_, ?_, ?_, ?_, ?_⟩
  · refine ((List.flatMap_append_perm _ _ _).append_right _).trans ?_
    refine (List.flatMap_append_perm _ _ _).trans ?_
    refine (List.Perm.flatMap_left _ fun sym _ => (hcuts sym).rows).trans ?_
    refine IndexArrays.flatMap_filter_perm (IndexArrays.nodup_sortedDistinct symbol) ?_
    intro i hi
    have hi := List.getElem?_eq_getElem (List.mem_range.mp hi)
    exact ⟨_, IndexArrays.mem_sortedDistinct.mpr (List.mem_of_getElem? hi), hi⟩
  · intro sym
    rw [countOf_flatMap hf, (hcuts sym).fit]
  · intro sym
    rw [countOf_flatMap hc, (hcuts sym).calibrate]
  · intro sym
    rw [countOf_flatMap hf, countOf_flatMap hc, countOf_flatMap ht, (hcuts sym).length_test]
  · refine precedes_flatMap hf hc (fun sym => ?_) _
    exact (List.pairwise_append.mp (hordered sym).1).2.2
  · refine precedes_flatMap hc ht (fun sym i hi j hj => ?_) _
    exact (hordered sym).2.2 i (by simp [hi]) j hj
  · refine precedes_flatMap hf ht (fun sym i hi j hj => ?_) _
    exact (hordered sym).2.2 i (by simp [hi]) j hj

end Partition

section Guard

variable {symbol : List Y} {startNs : List T} {rows later : List Nat}

theorem notBefore_eq_false_iff {xs ys : List T} :
    notBefore xs ys = false ↔ ∀ x ∈ xs, ∀ y ∈ ys, x < y := by
  unfold notBefore
  cases hx : xs.max? with
  | none => simp [List.max?_eq_none_iff.mp hx]
  | some x =>
    obtain ⟨hxmem, hxmax⟩ := List.max?_eq_some_iff.mp hx
    cases hy : ys.min? with
    | none => simp [List.min?_eq_none_iff.mp hy]
    | some y =>
      obtain ⟨hymem, hymin⟩ := List.min?_eq_some_iff.mp hy
      simp only [decide_eq_false_iff_not, not_le]
      constructor
      · intro hlt a ha b hb
        exact (hxmax a ha).trans_lt (hlt.trans_le (hymin b hb))
      · intro hall
        exact hall x hxmem y hymem

omit [LinearOrder T] in
theorem mem_symbolTimes (hrows : ∀ i ∈ rows, i < symbol.length) {sym : Y} {t : T} :
    t ∈ symbolTimes symbol startNs sym rows ↔
      ∃ i ∈ rows, symbol[i]? = some sym ∧ startNs[i]? = some t := by
  have hmask : ((gather symbol rows).map fun x => decide (x = sym)) =
      rows.map fun i => decide (symbol[i]? = some sym) := by
    apply List.ext_getElem?
    intro k
    rw [List.getElem?_map, List.getElem?_map, IndexArrays.getElem?_gather hrows]
    cases hk : rows[k]? with
    | none => rfl
    | some i => simp [List.getElem?_eq_getElem (hrows i (List.mem_of_getElem? hk))]
  rw [symbolTimes, hmask, IndexArrays.masked_map, IndexArrays.mem_gather]
  simp [and_assoc]

theorem precedes_lt_iff (hrows : ∀ i ∈ rows, i < symbol.length)
    (hlater : ∀ i ∈ later, i < symbol.length) :
    Precedes (· < ·) symbol startNs rows later ↔ ∀ sym ∈ sortedDistinct symbol,
      notBefore (symbolTimes symbol startNs sym rows) (symbolTimes symbol startNs sym later) =
        false := by
  simp only [notBefore_eq_false_iff, mem_symbolTimes hrows, mem_symbolTimes hlater]
  constructor
  · rintro h sym - t ⟨i, hi, hsi, ht⟩ u ⟨j, hj, hsj, hu⟩
    exact h i hi j hj (hsi.trans hsj.symm) t u ht hu
  · intro h i hi j hj hij t u ht hu
    have hsi := List.getElem?_eq_getElem (hrows i hi)
    refine h _ ?_ t ⟨i, hi, hsi, ht⟩ u ⟨j, hj, hij.symm.trans hsi, hu⟩
    exact IndexArrays.mem_sortedDistinct.mpr (List.mem_of_getElem? hsi)

theorem forM_eq_ok_iff {α ε : Type} {f : α → Except ε Unit} {xs : List α} :
    xs.forM f = .ok () ↔ ∀ x ∈ xs, f x = .ok () := by
  induction xs with
  | nil => simp [pure, Except.pure]
  | cons x xs ih =>
    rw [List.forall_mem_cons, ← ih]
    change (f x >>= fun _ => xs.forM f) = .ok () ↔ _
    cases hx : f x with
    | error e => simp [bind, Except.bind]
    | ok u => simp [bind, Except.bind]

/-- The guard accepts just the splits with every block strictly before the next. -/
theorem assertNoLeakage_eq_ok_iff {split : Split}
    (hrows : ∀ i ∈ split.fit ++ split.calibrate ++ split.test, i < symbol.length) :
    assertNoLeakage split symbol startNs = .ok () ↔
      Precedes (· < ·) symbol startNs split.fit split.test ∧
      Precedes (· < ·) symbol startNs split.calibrate split.test ∧
      Precedes (· < ·) symbol startNs split.fit split.calibrate := by
  have hf : ∀ i ∈ split.fit, i < symbol.length := fun i hi => hrows i (by simp [hi])
  have hc : ∀ i ∈ split.calibrate, i < symbol.length := fun i hi => hrows i (by simp [hi])
  have ht : ∀ i ∈ split.test, i < symbol.length := fun i hi => hrows i (by simp [hi])
  rw [precedes_lt_iff hf ht, precedes_lt_iff hc ht, precedes_lt_iff hf hc, assertNoLeakage,
    forM_eq_ok_iff, ← forall₂_and, ← forall₂_and]
  refine forall₂_congr fun sym _ => ?_
  simp only
  split
  next h => simp [h]
  next h =>
    split
    next h' => simp [h']
    next h' =>
      split
      next h'' => simp [h'']
      next h'' => simp [h, h', h'']

omit [LinearOrder Y] in
/-- Distinct times of a symbol make the order of disjoint blocks strict. -/
theorem Precedes.lt (h : Precedes (· ≤ ·) symbol startNs rows later)
    (hlen : symbol.length = startNs.length) (hdistinct : (symbol.zip startNs).Nodup)
    (hdisjoint : rows.Disjoint later) : Precedes (· < ·) symbol startNs rows later := by
  intro i hi j hj hij t u ht hu
  refine lt_of_le_of_ne (h i hi j hj hij t u ht hu) ?_
  rintro rfl
  have hlt : i < symbol.length := hlen ▸ (List.getElem?_eq_some_iff.mp ht).1
  have hsi := List.getElem?_eq_getElem hlt
  have hzi : (symbol.zip startNs)[i]? = some (symbol[i], t) :=
    List.getElem?_zip_eq_some.mpr ⟨hsi, ht⟩
  have hzj : (symbol.zip startNs)[j]? = some (symbol[i], t) :=
    List.getElem?_zip_eq_some.mpr ⟨hij.symm.trans hsi, hu⟩
  have hzip : i < (symbol.zip startNs).length := by
    rw [List.length_zip, ← hlen, Nat.min_self]
    exact hlt
  obtain rfl := (List.getElem?_inj hzip hdistinct).mp (hzi.trans hzj.symm)
  exact hdisjoint hi hj

/-- The guard accepts a partition into time blocks if no symbol has a time twice. -/
theorem Split.Partitions.assertNoLeakage_eq_ok {fitFrac calibFrac : ℚ} {split : Split}
    (h : split.Partitions symbol startNs fitFrac calibFrac)
    (hlen : symbol.length = startNs.length) (hdistinct : (symbol.zip startNs).Nodup) :
    assertNoLeakage split symbol startNs = .ok () := by
  have hnodup := h.rows.nodup_iff.mpr List.nodup_range
  obtain ⟨hfc, -, htest⟩ := List.nodup_append'.mp hnodup
  obtain ⟨-, -, hcal⟩ := List.nodup_append'.mp hfc
  rw [List.disjoint_append_left] at htest
  rw [assertNoLeakage_eq_ok_iff fun i hi => List.mem_range.mp (h.rows.mem_iff.mp hi)]
  exact ⟨h.fit_test.lt hlen hdistinct htest.1, h.calibrate_test.lt hlen hdistinct htest.2,
    h.fit_calibrate.lt hlen hdistinct hcal⟩

end Guard

/-- The split is a partition of the rows into time blocks of the given shares, and passes the guard
if no symbol has a time twice. -/
theorem timeSplit_leakage_free {symbol : List Y} {startNs : List T}
    (hlen : symbol.length = startNs.length) {fitFrac calibFrac : ℚ} (hfit : 0 ≤ fitFrac)
    (hcal : 0 ≤ calibFrac) (hsum : fitFrac + calibFrac ≤ 1) :
    (timeSplit symbol startNs fitFrac calibFrac).Partitions symbol startNs fitFrac calibFrac ∧
      ((symbol.zip startNs).Nodup →
        assertNoLeakage (timeSplit symbol startNs fitFrac calibFrac) symbol startNs = .ok ()) := by
  have hpart := @timeSplit_partitions Y T _ _ symbol startNs _ _ hlen hfit hcal hsum
  exact ⟨hpart, hpart.assertNoLeakage_eq_ok hlen⟩

/-- Two interleaved symbols, one of them with its rows in reverse. -/
theorem timeSplit_leakage_free_interleaved :
    (timeSplit [1, 0, 1, 0, 1] [50, 1, 40, 2, 30] (2 / 5) (1 / 3)).Partitions
        [1, 0, 1, 0, 1] [50, 1, 40, 2, 30] (2 / 5) (1 / 3) ∧
      assertNoLeakage (timeSplit [1, 0, 1, 0, 1] [50, 1, 40, 2, 30] (2 / 5) (1 / 3))
        [1, 0, 1, 0, 1] [50, 1, 40, 2, 30] = .ok () := by
  obtain ⟨hpart, hguard⟩ := @timeSplit_leakage_free Nat Nat _ _ [1, 0, 1, 0, 1] [50, 1, 40, 2, 30]
    rfl (2 / 5) (1 / 3) (by norm_num) (by norm_num) (by norm_num)
  exact ⟨hpart, hguard (by decide)⟩

example : timeSplit [1, 0, 1, 0, 1] [50, 1, 40, 2, 30] (2 / 5) (1 / 3) =
    ⟨[4], [2], [1, 3, 0]⟩ := by
  decide +kernel

end Ml

end OhlcvValidator
