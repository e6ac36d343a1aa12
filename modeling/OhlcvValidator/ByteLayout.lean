import Mathlib

namespace OhlcvValidator

/-- The `width` lowest base-256 digits of a number, lowest first. -/
def leBytes : Nat → Nat → List UInt8
  | 0, _ => []
  | width + 1, n => UInt8.ofNat n :: leBytes width (n / 256)

/-- The number that bytes stand for, lowest byte first. -/
def leNat : List UInt8 → Nat
  | [] => 0
  | b :: bs => b.toNat + 256 * leNat bs

@[simp] theorem length_leBytes (width n : Nat) : (leBytes width n).length = width := by
  induction width generalizing n with
  | zero => rfl
  | succ width ih => simp [leBytes, ih]

theorem leNat_leBytes {width n : Nat} (h : n < 256 ^ width) : leNat (leBytes width n) = n := by
  induction width generalizing n with
  | zero =>
    simp only [Nat.pow_zero] at h
    simp only [leBytes, leNat]
    omega
  | succ width ih =>
    have hdiv : n / 256 < 256 ^ width := by
      rw [Nat.pow_succ] at h
      omega
    simp only [leBytes, leNat, ih hdiv, UInt8.toNat_ofNat']
    omega

section Slice

variable {α : Type}

/-- The `len` entries that start at an offset. -/
def slice (bs : List α) (off len : Nat) : List α :=
  (bs.drop off).take len

theorem length_slice {bs : List α} {off len : Nat} (h : off + len ≤ bs.length) :
    (slice bs off len).length = len := by
  simp only [slice, List.length_take, List.length_drop]
  omega

theorem slice_append_left {xs ys : List α} {off len : Nat} (h : off + len ≤ xs.length) :
    slice (xs ++ ys) off len = slice xs off len := by
  rw [slice, slice, List.drop_append_of_le_length (by omega), List.take_append_of_le_length]
  rw [List.length_drop]
  omega

theorem slice_append_right {xs ys : List α} {off len : Nat} (h : xs.length ≤ off) :
    slice (xs ++ ys) off len = slice ys (off - xs.length) len := by
  rw [slice, slice, List.drop_append, List.drop_eq_nil_of_le h, List.nil_append]

theorem slice_all {bs : List α} : slice bs 0 bs.length = bs := by
  simp [slice]

/-- Replace what starts at a position, growing the list at its end if need be. -/
def overwrite (bs : List α) (pos : Nat) (new : List α) : List α :=
  bs.take pos ++ new ++ bs.drop (pos + new.length)

theorem length_overwrite {bs new : List α} {pos : Nat} (h : pos + new.length ≤ bs.length) :
    (overwrite bs pos new).length = bs.length := by
  simp only [overwrite, List.length_append, List.length_take, List.length_drop]
  omega

theorem overwrite_end (bs new : List α) : overwrite bs bs.length new = bs ++ new := by
  simp [overwrite]

theorem overwrite_head {old new rest : List α} (h : old.length = new.length) :
    overwrite (old ++ rest) 0 new = new ++ rest := by
  simp [overwrite, ← h]

theorem overwrite_append_right {xs ys new : List α} {pos : Nat} (h : xs.length ≤ pos) :
    overwrite (xs ++ ys) pos new = xs ++ overwrite ys (pos - xs.length) new := by
  have hdrop : pos + new.length - xs.length = pos - xs.length + new.length := by omega
  rw [overwrite, overwrite, List.take_append, List.drop_append, List.take_of_length_le h,
    List.drop_eq_nil_of_le (by omega), hdrop]
  simp

theorem slice_overwrite_self {bs new : List α} {pos : Nat} (h : pos ≤ bs.length) :
    slice (overwrite bs pos new) pos new.length = new := by
  have htake : (bs.take pos).length = pos := by simpa using h
  rw [overwrite, List.append_assoc, slice_append_right (by omega), htake, Nat.sub_self,
    slice_append_left (by omega), slice_all]

theorem slice_overwrite_disjoint {bs new : List α} {pos off len : Nat}
    (hb : pos + new.length ≤ bs.length)
    (h : off + len ≤ pos ∨ pos + new.length ≤ off) :
    slice (overwrite bs pos new) off len = slice bs off len := by
  have htake : (bs.take pos).length = pos := by simp; omega
  rcases h with h | h
  · rw [overwrite, List.append_assoc, slice_append_left (by omega), slice, slice,
      List.drop_take, List.take_take, Nat.min_eq_left (by omega)]
  · rw [overwrite, slice_append_right (by simp only [List.length_append]; omega),
      List.length_append, htake, slice, slice, List.drop_drop]
    congr 2
    omega

/-- Two placed pieces of data do not overlap. -/
def Apart (f g : Nat × List α) : Prop :=
  f.1 + f.2.length ≤ g.1 ∨ g.1 + g.2.length ≤ f.1

/-- Write pieces of data at their offsets, in order. -/
def putFields (bs : List α) (fields : List (Nat × List α)) : List α :=
  fields.foldl (fun bs f => overwrite bs f.1 f.2) bs

variable {bs : List α} {fields : List (Nat × List α)} {f : Nat × List α}

theorem length_putFields (hin : ∀ f ∈ fields, f.1 + f.2.length ≤ bs.length) :
    (putFields bs fields).length = bs.length := by
  induction fields generalizing bs with
  | nil => rfl
  | cons g fields ih =>
    have hlen := length_overwrite (hin g (by simp))
    rw [putFields, List.foldl_cons]
    change (putFields (overwrite bs g.1 g.2) fields).length = _
    rw [ih, hlen]
    intro f hf
    rw [hlen]
    exact hin f (by simp [hf])

theorem slice_putFields_apart {off len : Nat} (hin : ∀ f ∈ fields, f.1 + f.2.length ≤ bs.length)
    (h : ∀ f ∈ fields, off + len ≤ f.1 ∨ f.1 + f.2.length ≤ off) :
    slice (putFields bs fields) off len = slice bs off len := by
  induction fields generalizing bs with
  | nil => rfl
  | cons g fields ih =>
    have hlen := length_overwrite (hin g (by simp))
    have hrest : slice (putFields (overwrite bs g.1 g.2) fields) off len =
        slice (overwrite bs g.1 g.2) off len :=
      ih (fun f hf => by rw [hlen]; exact hin f (by simp [hf])) fun f hf => h f (by simp [hf])
    rw [putFields, List.foldl_cons]
    exact hrest.trans (slice_overwrite_disjoint (hin g (by simp)) (h g (by simp)))

/-- What was written at an offset is read back there, whatever else was written. -/
theorem slice_putFields (hin : ∀ f ∈ fields, f.1 + f.2.length ≤ bs.length)
    (hapart : fields.Pairwise Apart) (hf : f ∈ fields) :
    slice (putFields bs fields) f.1 f.2.length = f.2 := by
  induction fields generalizing bs with
  | nil => simp at hf
  | cons g fields ih =>
    have hlen := length_overwrite (hin g (by simp))
    have hin' : ∀ f ∈ fields, f.1 + f.2.length ≤ (overwrite bs g.1 g.2).length := by
      intro f hf
      rw [hlen]
      exact hin f (by simp [hf])
    obtain ⟨hg, hrest⟩ := List.pairwise_cons.mp hapart
    rw [putFields, List.foldl_cons]
    change slice (putFields (overwrite bs g.1 g.2) fields) f.1 f.2.length = f.2
    rcases List.mem_cons.mp hf with rfl | hf
    · have hbound := hin f (by simp)
      rw [slice_putFields_apart hin' hg, slice_overwrite_self (by omega)]
    · exact ih hin' hrest hf

/-- Cut into rows of a fixed length, dropping what does not fill one. -/
def rows (stride : Nat) (bs : List α) : List (List α) :=
  (List.range (bs.length / stride)).map fun i => slice bs (i * stride) stride

theorem length_flatten_rows {stride : Nat} {rs : List (List α)}
    (h : ∀ r ∈ rs, r.length = stride) : rs.flatten.length = stride * rs.length := by
  rw [List.length_flatten, List.map_congr_left h]
  simp [Nat.mul_comm]

theorem slice_flatten {stride i : Nat} {rs : List (List α)} (h : ∀ r ∈ rs, r.length = stride)
    (hi : i < rs.length) : slice rs.flatten (i * stride) stride = rs[i] := by
  induction rs generalizing i with
  | nil => simp at hi
  | cons r rs ih =>
    have hr := h r (by simp)
    rw [List.flatten_cons]
    cases i with
    | zero =>
      rw [Nat.zero_mul, slice_append_left (by omega), ← hr, slice_all]
      rfl
    | succ i =>
      have hsub : (i + 1) * stride - r.length = i * stride := by
        rw [hr, Nat.succ_mul]
        omega
      rw [slice_append_right (by rw [hr, Nat.succ_mul]; omega), hsub,
        ih (fun r hr => h r (by simp [hr])) (by simpa using hi)]
      rfl

/-- Rows written one after the other are the rows read back. -/
theorem rows_flatten {stride : Nat} {rs : List (List α)} (hs : 0 < stride)
    (h : ∀ r ∈ rs, r.length = stride) : rows stride rs.flatten = rs := by
  apply List.ext_getElem
  · simp [rows, length_flatten_rows h, hs]
  · intro i hi hi'
    simp only [rows, List.getElem_map, List.getElem_range]
    exact slice_flatten h hi'

end Slice

section Struct

/-- A member of a C structure: the bytes it takes, and what its offset is a multiple of. -/
structure CType where
  size : Nat
  align : Nat
  deriving DecidableEq, Repr

namespace CType

def alignUp (n align : Nat) : Nat :=
  (n + align - 1) / align * align

/-- The members' offsets, each the next multiple of its alignment in declaration order. -/
def offsetsFrom : Nat → List CType → List Nat
  | _, [] => []
  | pos, m :: ms => alignUp pos m.align :: offsetsFrom (alignUp pos m.align + m.size) ms

/-- The offset of a structure's member. -/
def offsetOf (members : List CType) (i : Nat) : Nat :=
  (offsetsFrom 0 members).getD i 0

def maxAlign (members : List CType) : Nat :=
  (members.map align).foldl max 1

def structEnd : Nat → List CType → Nat
  | pos, [] => pos
  | pos, m :: ms => structEnd (alignUp pos m.align + m.size) ms

/-- A structure as a member of another: padded to a multiple of its alignment. -/
def struct (members : List CType) : CType :=
  ⟨alignUp (structEnd 0 members) (maxAlign members), maxAlign members⟩

/-- A union: its members share their offset. -/
def union (members : List CType) : CType :=
  ⟨alignUp ((members.map size).foldl max 0) (maxAlign members), maxAlign members⟩

end CType

end Struct

end OhlcvValidator
