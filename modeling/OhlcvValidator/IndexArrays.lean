import Mathlib

namespace OhlcvValidator

namespace IndexArrays

/-! Arrays read and written through arrays of indices and through masks. -/

variable {α β κ S : Type}

/-- `xs[index]`, for indices inside the array. -/
def gather (xs : List α) (index : List Nat) : List α :=
  index.filterMap fun i => xs[i]?

/-- `xs[mask]`. -/
def masked (xs : List α) (mask : List Bool) : List α :=
  (xs.zip mask).filterMap fun p => if p.2 then some p.1 else none

/-- `xs[index] = values`, one entry after the other. -/
def assign (xs : List α) (index : List Nat) (values : List α) : List α :=
  (index.zip values).foldl (fun xs p => xs.set p.1 p.2) xs

/-- `xs[mask] = values`. -/
def assignMasked : List α → List Bool → List α → List α
  | _ :: xs, true :: mask, v :: values => v :: assignMasked xs mask values
  | x :: xs, false :: mask, values => x :: assignMasked xs mask values
  | xs, _, _ => xs

/-- Where a slice bound points to; a negative one counts from the end. -/
def clampIndex (n : Nat) (i : Int) : Nat :=
  if i < 0 then (i + n).toNat else min i.toNat n

/-- `xs[lo:hi]`. -/
def subrange (xs : List α) (lo hi : Int) : List α :=
  (xs.take (clampIndex xs.length hi)).drop (clampIndex xs.length lo)

/-- The distinct values in order. -/
def sortedDistinct [LinearOrder S] (xs : List S) : List S :=
  xs.dedup.insertionSort (· ≤ ·)

/-- The indices in order of their values, and in their own order where these are equal. -/
def stableArgsort [LinearOrder S] (xs : List S) : List Nat :=
  ((xs.zipIdx.map toLex).insertionSort (· ≤ ·)).map fun p => (ofLex p).2

section Gather

variable {xs : List α} {index : List Nat}

theorem mem_gather {x : α} : x ∈ gather xs index ↔ ∃ i ∈ index, xs[i]? = some x :=
  List.mem_filterMap

theorem gather_congr {ys : List α} (h : ∀ i ∈ index, xs[i]? = ys[i]?) :
    gather xs index = gather ys index :=
  List.filterMap_congr h

theorem gather_range (xs : List α) : gather xs (List.range xs.length) = xs := by
  induction xs using List.reverseRecOn with
  | nil => rfl
  | append_singleton xs x ih =>
    have hold : (List.range xs.length).filterMap (fun i => (xs ++ [x])[i]?) =
        (List.range xs.length).filterMap fun i => xs[i]? :=
      List.filterMap_congr fun i hi => List.getElem?_append_left (List.mem_range.mp hi)
    rw [gather, List.length_append, List.length_singleton, List.range_succ, List.filterMap_append,
      hold]
    change gather xs (List.range xs.length) ++ _ = _
    rw [ih]
    simp

/-- Reading an array at places inside it. -/
theorem getElem?_gather (h : ∀ i ∈ index, i < xs.length) (k : Nat) :
    (gather xs index)[k]? = index[k]?.bind fun i => xs[i]? := by
  induction index generalizing k with
  | nil => rfl
  | cons i index ih =>
    obtain ⟨hi, hrest⟩ := List.forall_mem_cons.mp h
    have hcons : gather xs (i :: index) = xs[i] :: gather xs index := by
      simp [gather, List.getElem?_eq_getElem hi]
    rw [hcons]
    cases k with
    | zero => simp [List.getElem?_eq_getElem hi]
    | succ k => simpa using ih hrest k

theorem length_gather (h : ∀ i ∈ index, i < xs.length) :
    (gather xs index).length = index.length := by
  unfold gather
  rw [List.length_filterMap_eq_countP, List.countP_eq_length]
  intro i hi
  simp [h i hi]

theorem map_getD_eq_gather (h : ∀ i ∈ index, i < xs.length) (a : α) :
    index.map (fun i => xs.getD i a) = gather xs index := by
  have hentry : ∀ i ∈ index, xs[i]? = some (xs.getD i a) := by
    intro i hi
    rw [List.getD_eq_getElem?_getD, List.getElem?_eq_getElem (h i hi)]
    rfl
  rw [gather, List.filterMap_congr hentry, List.filterMap_eq_map']

end Gather

section Masked

theorem masked_map (xs : List α) (p : α → Bool) : masked xs (xs.map p) = xs.filter p := by
  induction xs with
  | nil => rfl
  | cons x xs ih =>
    rw [List.filter_cons, ← ih]
    cases hp : p x with
    | true => simp [masked, hp]
    | false => simp [masked, hp]

theorem masked_ne_nil {xs : List α} {mask : List Bool} (hlen : xs.length = mask.length)
    (h : true ∈ mask) : masked xs mask ≠ [] := by
  obtain ⟨k, hk⟩ := List.mem_iff_getElem?.mp h
  have hlt : k < xs.length := hlen ▸ (List.getElem?_eq_some_iff.mp hk).1
  have hmem : (xs[k], true) ∈ xs.zip mask :=
    List.mem_iff_getElem?.mpr ⟨k, List.getElem?_zip_eq_some.mpr ⟨List.getElem?_eq_getElem hlt, hk⟩⟩
  exact List.ne_nil_of_mem (List.mem_filterMap.mpr ⟨_, hmem, rfl⟩)

end Masked

section Assign

variable {xs values : List α} {index : List Nat}

theorem length_assign (xs : List α) (index : List Nat) (values : List α) :
    (assign xs index values).length = xs.length := by
  unfold assign
  induction index.zip values generalizing xs with
  | nil => rfl
  | cons p ps ih =>
    rw [List.foldl_cons, ih, List.length_set]

theorem getElem?_assign_of_not_mem {i : Nat} (h : i ∉ index) :
    (assign xs index values)[i]? = xs[i]? := by
  induction index generalizing xs values with
  | nil => rfl
  | cons j index ih =>
    cases values with
    | nil => rfl
    | cons v values =>
      obtain ⟨hne, hmem⟩ := not_or.mp (mt List.mem_cons.mpr h)
      have hstep : assign xs (j :: index) (v :: values) = assign (xs.set j v) index values := rfl
      rw [hstep, ih hmem, List.getElem?_set_ne (Ne.symm hne)]

theorem getElem?_assign_replicate (v : α) {i : Nat}
    (h : i ∈ index) (hi : i < xs.length) :
    (assign xs index (List.replicate index.length v))[i]? = some v := by
  induction index generalizing xs with
  | nil => simp at h
  | cons j index ih =>
    have hstep : assign xs (j :: index) (List.replicate (j :: index).length v) =
        assign (xs.set j v) index (List.replicate index.length v) := rfl
    rw [hstep]
    by_cases hmem : i ∈ index
    · exact ih hmem (by simpa using hi)
    · obtain rfl := (List.mem_cons.mp h).resolve_right hmem
      rw [getElem?_assign_of_not_mem hmem, List.getElem?_set_self hi]

/-- Entries set in an empty mask are its members. -/
theorem assign_replicate_false {n : Nat} :
    assign (List.replicate n false) index (List.replicate index.length true) =
      (List.range n).map fun i => decide (i ∈ index) := by
  apply List.ext_getElem?
  intro i
  by_cases hi : i < n
  · by_cases hmem : i ∈ index
    · rw [getElem?_assign_replicate true hmem (by simpa using hi)]
      simp [hi, hmem]
    · rw [getElem?_assign_of_not_mem hmem]
      simp [hi, hmem]
  · rw [List.getElem?_eq_none (by simpa [length_assign] using hi),
      List.getElem?_eq_none (by simpa using hi)]

/-- Distinct places inside the array read back what was written to them. -/
theorem gather_assign (hnodup : index.Nodup) (hlt : ∀ i ∈ index, i < xs.length)
    (hlen : index.length = values.length) :
    gather (assign xs index values) index = values := by
  induction index generalizing xs values with
  | nil => exact (List.length_eq_zero_iff.mp hlen.symm).symm
  | cons j index ih =>
    cases values with
    | nil => simp at hlen
    | cons v values =>
      obtain ⟨hj, hnodup⟩ := List.nodup_cons.mp hnodup
      have hstep : assign xs (j :: index) (v :: values) = assign (xs.set j v) index values := rfl
      have hrest := @ih (xs.set j v) values hnodup
        (fun i hi => by simpa using hlt i (by simp [hi])) (by simpa using hlen)
      have hfirst : (assign (xs.set j v) index values)[j]? = some v := by
        rw [getElem?_assign_of_not_mem hj, List.getElem?_set_self (hlt j (by simp))]
      rw [hstep, gather, List.filterMap_cons_some hfirst]
      exact congrArg (v :: ·) hrest

end Assign

section AssignMasked

/-- A masked assignment of values computed from the masked entries of another array. -/
theorem getElem?_assignMasked {xs : List α} {mask : List Bool} {ys : List β} (f : β → α)
    (hx : xs.length = mask.length) (hy : ys.length = mask.length) (i : Nat) :
    (assignMasked xs mask ((masked ys mask).map f))[i]? =
      if mask[i]? = some true then ys[i]?.map f else xs[i]? := by
  induction mask generalizing xs ys i with
  | nil =>
    obtain rfl := List.length_eq_zero_iff.mp hx
    rfl
  | cons b mask ih =>
    obtain ⟨x, xs, rfl⟩ := List.exists_cons_of_length_eq_add_one hx
    obtain ⟨y, ys, rfl⟩ := List.exists_cons_of_length_eq_add_one hy
    have hrest := @ih xs ys (by simpa using hx) (by simpa using hy)
    cases b with
    | true =>
      have hmasked : masked (y :: ys) (true :: mask) = y :: masked ys mask := by simp [masked]
      rw [hmasked, List.map_cons, assignMasked]
      cases i with
      | zero => simp
      | succ i => simpa using hrest i
    | false =>
      have hmasked : masked (y :: ys) (false :: mask) = masked ys mask := by simp [masked]
      rw [hmasked, assignMasked]
      cases i with
      | zero => simp
      | succ i => simpa using hrest i

theorem length_assignMasked (xs : List α) (mask : List Bool) (values : List α) :
    (assignMasked xs mask values).length = xs.length := by
  fun_induction assignMasked xs mask values with
  | case1 x xs mask v values ih => simp [ih]
  | case2 x xs mask values ih => simp [ih]
  | case3 xs mask values => rfl

theorem mem_assignMasked {xs : List α} {mask : List Bool} {values : List α} {a : α}
    (h : a ∈ assignMasked xs mask values) : a ∈ xs ∨ a ∈ values := by
  fun_induction assignMasked xs mask values with
  | case1 x xs mask v values ih =>
    rcases List.mem_cons.mp h with rfl | h
    · simp
    · rcases ih h with h | h <;> simp [h]
  | case2 x xs mask values ih =>
    rcases List.mem_cons.mp h with rfl | h
    · simp
    · rcases ih h with h | h <;> simp [h]
  | case3 xs mask values => exact Or.inl h

end AssignMasked

section Subrange

variable {xs : List α} {lo hi : Int}

theorem clampIndex_of_le {n : Nat} {i : Int} (h0 : 0 ≤ i) (hn : i ≤ n) :
    clampIndex n i = i.toNat := by
  rw [clampIndex, if_neg (by omega), Nat.min_eq_left (by omega)]

theorem length_subrange (h0 : 0 ≤ lo) (hle : lo ≤ hi) (hn : hi ≤ xs.length) :
    (subrange xs lo hi).length = (hi - lo).toNat := by
  rw [subrange, clampIndex_of_le h0 (hle.trans hn), clampIndex_of_le (h0.trans hle) hn,
    List.length_drop, List.length_take]
  omega

theorem subrange_append_subrange {mid : Int} (h0 : 0 ≤ lo) (hlo : lo ≤ mid) (hmid : mid ≤ hi)
    (hn : hi ≤ xs.length) : subrange xs lo mid ++ subrange xs mid hi = subrange xs lo hi := by
  simp only [subrange]
  rw [clampIndex_of_le h0 (by omega), clampIndex_of_le (by omega : 0 ≤ mid) (by omega),
    clampIndex_of_le (by omega : 0 ≤ hi) hn]
  have hsplit : xs.take hi.toNat =
      xs.take mid.toNat ++ (xs.take hi.toNat).drop mid.toNat := by
    have htake : xs.take mid.toNat = (xs.take hi.toNat).take mid.toNat := by
      rw [List.take_take, Nat.min_eq_left (by omega)]
    rw [htake, List.take_append_drop]
  conv_rhs => rw [hsplit]
  rw [List.drop_append_of_le_length]
  rw [List.length_take]
  omega

theorem subrange_all (xs : List α) : subrange xs 0 xs.length = xs := by
  rw [subrange, clampIndex_of_le le_rfl (by omega), clampIndex_of_le (by omega) le_rfl]
  simp

end Subrange

section Order

variable [LinearOrder S]

theorem nodup_sortedDistinct (xs : List S) : (sortedDistinct xs).Nodup :=
  (List.perm_insertionSort _ _).nodup_iff.mpr (List.nodup_dedup xs)

theorem mem_sortedDistinct {xs : List S} {x : S} : x ∈ sortedDistinct xs ↔ x ∈ xs := by
  rw [sortedDistinct, (List.perm_insertionSort _ _).mem_iff, List.mem_dedup]

theorem stableArgsort_perm (xs : List S) : (stableArgsort xs).Perm (List.range xs.length) := by
  have hperm := (List.perm_insertionSort (· ≤ ·) (xs.zipIdx.map toLex)).map fun p => (ofLex p).2
  rw [List.map_map] at hperm
  refine hperm.trans (List.Perm.of_eq ?_)
  exact (List.zipIdx_map_snd 0 xs).trans List.range_eq_range'.symm

theorem stableArgsort_pairwise (xs : List S) : (stableArgsort xs).Pairwise fun i j =>
    ∀ x y, xs[i]? = some x → xs[j]? = some y → x < y ∨ x = y ∧ i ≤ j := by
  rw [stableArgsort, List.pairwise_map]
  refine (List.pairwise_insertionSort (· ≤ ·) (xs.zipIdx.map toLex)).imp_of_mem ?_
  intro p q hp hq hle x y hx hy
  have hvalue : ∀ p ∈ (xs.zipIdx.map toLex).insertionSort (· ≤ ·),
      xs[(ofLex p).2]? = some (ofLex p).1 := by
    intro p hp
    rw [(List.perm_insertionSort _ _).mem_iff, List.mem_map] at hp
    obtain ⟨r, hr, rfl⟩ := hp
    exact List.mem_zipIdx_iff_getElem?.mp hr
  obtain rfl := Option.some.inj ((hvalue p hp).symm.trans hx)
  obtain rfl := Option.some.inj ((hvalue q hq).symm.trans hy)
  exact Prod.Lex.le_iff.mp hle

end Order

section Keyed

variable [DecidableEq κ] {key : β → Option κ} {ks : List κ}

/-- Entries taken key by key are all entries. -/
theorem flatMap_filter_perm (hnodup : ks.Nodup) {xs : List β}
    (h : ∀ x ∈ xs, ∃ k ∈ ks, key x = some k) :
    (ks.flatMap fun k => xs.filter fun x => key x = some k).Perm xs := by
  induction ks generalizing xs with
  | nil =>
    cases xs with
    | nil => exact List.Perm.nil
    | cons x xs => simpa using h x
  | cons k ks ih =>
    obtain ⟨hk, hnodup⟩ := List.nodup_cons.mp hnodup
    have hrest : (ks.flatMap fun k' => xs.filter fun x => key x = some k') =
        ks.flatMap fun k' => (xs.filter fun x => !decide (key x = some k)).filter
          fun x => key x = some k' := by
      refine List.flatMap_congr fun k' hk' => ?_
      rw [List.filter_filter]
      refine List.filter_congr fun x _ => ?_
      by_cases hx : key x = some k'
      · have hne : k' ≠ k := fun he => hk (he ▸ hk')
        simp [hx, hne]
      · simp [hx]
    rw [List.flatMap_cons, hrest]
    refine ((ih hnodup ?_).append_left _).trans (List.filter_append_perm _ xs)
    intro x hx
    obtain ⟨hmem, hne⟩ := List.mem_filter.mp hx
    obtain ⟨k', hk', hkey⟩ := h x hmem
    rcases List.mem_cons.mp hk' with rfl | hk'
    · simp [hkey] at hne
    · exact ⟨k', hk', hkey⟩

/-- The entries of one key among those taken key by key. -/
theorem filter_flatMap_key (hnodup : ks.Nodup) {f : κ → List β}
    (hkey : ∀ k ∈ ks, ∀ x ∈ f k, key x = some k) {k : κ} (hk : k ∈ ks) :
    ((ks.flatMap f).filter fun x => key x = some k) = f k := by
  induction ks with
  | nil => cases hk
  | cons k' ks ih =>
    obtain ⟨hk', hnodup⟩ := List.nodup_cons.mp hnodup
    obtain ⟨hfirst, hrest⟩ := List.forall_mem_cons.mp hkey
    rw [List.flatMap_cons, List.filter_append]
    rcases List.mem_cons.mp hk with rfl | hk
    · rw [List.filter_eq_self.mpr fun x hx => by simpa using hfirst x hx,
        List.filter_eq_nil_iff.mpr, List.append_nil]
      intro x hx
      obtain ⟨k', hmem, hx⟩ := List.mem_flatMap.mp hx
      have hne : k' ≠ k := fun he => hk' (he ▸ hmem)
      simp [hrest k' hmem x hx, hne]
    · rw [ih hnodup hrest hk, List.filter_eq_nil_iff.mpr, List.nil_append]
      intro x hx
      have hne : k' ≠ k := fun he => hk' (he ▸ hk)
      simp [hfirst x hx, hne]

end Keyed

end IndexArrays

end OhlcvValidator
