import OhlcvValidator.OrderedEntries

namespace OhlcvValidator

variable {E K : Type} {r : K → K → Prop} {key : E → K}

theorem split_of_getElem? {xs : List E} {i : Nat} {y : E} (h : xs[i]? = some y) :
    xs = xs.take i ++ y :: xs.drop (i + 1) := by
  obtain ⟨hi, he⟩ := List.getElem?_eq_some_iff.mp h
  rw [← he, ← List.drop_eq_getElem_cons hi, List.take_append_drop]

theorem Ordered.before_split {xs ys : List E} {y : E}
    (h : Ordered r key (xs ++ y :: ys)) :
    ∀ a ∈ xs, r (key a) (key y) :=
  fun a ha => (List.pairwise_append.mp h).2.2 a ha y List.mem_cons_self

theorem Ordered.after_split {xs ys : List E} {y : E}
    (h : Ordered r key (xs ++ y :: ys)) :
    ∀ b ∈ ys, r (key y) (key b) :=
  (List.pairwise_cons.mp (List.pairwise_append.mp h).2.1).1

theorem insertEntry_append [DecidableRel r] {x : E} {xs ys : List E}
    (hx : ∀ a ∈ xs, r (key a) (key x)) (hy : ∀ b ∈ ys, ¬r (key b) (key x)) :
    insertEntry r key x (xs ++ ys) = xs ++ x :: ys := by
  have htake : ys.takeWhile (fun y => decide (r (key y) (key x))) = [] := by
    cases ys with
    | nil => rfl
    | cons b bs => simp [hy b (by simp)]
  have hdrop : ys.dropWhile (fun y => decide (r (key y) (key x))) = ys := by
    cases ys with
    | nil => rfl
    | cons b bs => simp [hy b (by simp)]
  rw [insertEntry, List.takeWhile_append_of_pos (by simpa using hx),
    List.dropWhile_append_of_pos (by simpa using hx), htake, hdrop, List.append_nil]

variable [DecidableEq K]

def removeKey (key : E → K) (k : K) (xs : List E) : List E :=
  xs.filter fun y => key y ≠ k

/-- Put an entry in its place, in the stead of one with the same key. -/
def putEntry (r : K → K → Prop) [DecidableRel r] (key : E → K) (x : E) (xs : List E) : List E :=
  insertEntry r key x (removeKey key (key x) xs)

theorem mem_removeKey {k : K} {e : E} {xs : List E} :
    e ∈ removeKey key k xs ↔ e ∈ xs ∧ key e ≠ k := by
  simp [removeKey]

theorem removeKey_of_absent {k : K} {xs : List E} (h : ∀ y ∈ xs, key y ≠ k) :
    removeKey key k xs = xs := by
  unfold removeKey
  exact List.filter_eq_self.mpr (by simpa using h)

theorem removeKey_append (k : K) (xs ys : List E) :
    removeKey key k (xs ++ ys) = removeKey key k xs ++ removeKey key k ys := by
  simp [removeKey]

theorem length_removeKey_le (key : E → K) (k : K) (xs : List E) :
    (removeKey key k xs).length ≤ xs.length :=
  List.length_filter_le _ _

theorem Ordered.removeKey {xs : List E} (h : Ordered r key xs) (k : K) :
    Ordered r key (removeKey key k xs) :=
  h.sublist List.filter_sublist

/-- Beyond the first `m` entries nothing can matter when the key is not among them. -/
theorem take_removeKey {m : Nat} {k : K} {xs : List E}
    (h : xs.length ≤ m ∨ ∀ y ∈ xs.take m, key y ≠ k) :
    (removeKey key k xs).take m = removeKey key k (xs.take m) := by
  rcases h with hlen | habsent
  · have hle := length_removeKey_le key k xs
    rw [List.take_of_length_le (by omega), List.take_of_length_le hlen]
  · have hsplit : removeKey key k xs = xs.take m ++ removeKey key k (xs.drop m) := by
      rw [← removeKey_of_absent habsent, ← removeKey_append, List.take_append_drop]
    rw [hsplit, removeKey_of_absent habsent, List.take_append, List.take_take, min_self]
    by_cases hm : m ≤ xs.length
    · simp [List.length_take, hm]
    · simp [List.drop_of_length_le (show xs.length ≤ m by omega), OhlcvValidator.removeKey]

theorem mem_putEntry [DecidableRel r] {x e : E} {xs : List E} :
    e ∈ putEntry r key x xs ↔ e = x ∨ e ∈ xs ∧ key e ≠ key x := by
  rw [putEntry, mem_insertEntry, mem_removeKey]

theorem putEntry_of_absent [DecidableRel r] {x : E} {xs : List E}
    (h : ∀ y ∈ xs, key y ≠ key x) : putEntry r key x xs = insertEntry r key x xs := by
  rw [putEntry, removeKey_of_absent h]

variable [IsStrictTotalOrder K r]

theorem Ordered.putEntry [DecidableRel r] {xs : List E} (h : Ordered r key xs) (x : E) :
    Ordered r key (putEntry r key x xs) :=
  (h.removeKey (key x)).insertEntry fun _ hy => (mem_removeKey.mp hy).2

section Split

variable {xs ys : List E} {y : E}

theorem Ordered.removeKey_split (h : Ordered r key (xs ++ y :: ys)) :
    OhlcvValidator.removeKey key (key y) (xs ++ y :: ys) = xs ++ ys := by
  have hbefore : ∀ a ∈ xs, key a ≠ key y := fun a ha => ne_of_irrefl (h.before_split a ha)
  have hafter : ∀ b ∈ ys, key b ≠ key y := fun b hb => ne_of_irrefl' (h.after_split b hb)
  rw [removeKey_append, removeKey_of_absent hbefore, ← removeKey_of_absent hafter]
  simp [OhlcvValidator.removeKey]

theorem Ordered.putEntry_split [DecidableRel r] (h : Ordered r key (xs ++ y :: ys)) {x : E}
    (he : key y = key x) :
    OhlcvValidator.putEntry r key x (xs ++ y :: ys) = xs ++ x :: ys := by
  rw [OhlcvValidator.putEntry, ← he, h.removeKey_split]
  apply insertEntry_append
  · exact fun a ha => he ▸ h.before_split a ha
  · exact fun b hb hbx => irrefl_of r _ (trans_of r (h.after_split b hb) (he ▸ hbx))

end Split

theorem Ordered.removeKey_eq_eraseIdx {xs : List E} (h : Ordered r key xs) {i : Nat} {y : E}
    (hy : xs[i]? = some y) : OhlcvValidator.removeKey key (key y) xs = xs.eraseIdx i := by
  have hsplit := split_of_getElem? hy
  rw [hsplit] at h
  rw [List.eraseIdx_eq_take_drop_succ, ← h.removeKey_split, ← hsplit]

theorem Ordered.putEntry_eq_set [DecidableRel r] {xs : List E} (h : Ordered r key xs) {i : Nat}
    {x y : E} (hy : xs[i]? = some y) (he : key y = key x) :
    OhlcvValidator.putEntry r key x xs = xs.set i x := by
  have hsplit := split_of_getElem? hy
  have hi := (List.getElem?_eq_some_iff.mp hy).1
  rw [hsplit] at h
  rw [List.set_eq_take_append_cons_drop, if_pos hi, ← h.putEntry_split he, ← hsplit]

theorem Ordered.length_removeKey {xs : List E} (h : Ordered r key xs) {y : E} (hy : y ∈ xs) :
    (OhlcvValidator.removeKey key (key y) xs).length + 1 = xs.length := by
  obtain ⟨as, bs, rfl⟩ := List.append_of_mem hy
  rw [h.removeKey_split]
  simp only [List.length_append, List.length_cons]
  omega

/-- Removing one of the first `m` entries uncovers an entry behind them. -/
theorem Ordered.take_removeKey_ne {m : Nat} {xs : List E} (h : Ordered r key xs) {y : E}
    (hy : y ∈ xs.take m) (hlen : m < xs.length) :
    (OhlcvValidator.removeKey key (key y) xs).take m ≠
      OhlcvValidator.removeKey key (key y) (xs.take m) := by
  intro he
  have hfull := h.length_removeKey (List.mem_of_mem_take hy)
  have hkept := Ordered.length_removeKey (h.sublist (List.take_sublist m xs)) hy
  have := congrArg List.length he
  rw [List.length_take] at this hkept
  omega

/-- Putting an entry never makes an entry behind the first `m` move up. -/
theorem Ordered.take_putEntry [DecidableRel r] {xs : List E} (h : Ordered r key xs) (m : Nat)
    (x : E) : (OhlcvValidator.putEntry r key x xs).take m =
      (OhlcvValidator.putEntry r key x (xs.take m)).take m := by
  by_cases hx : ∃ y ∈ xs, key y = key x
  · obtain ⟨y, hy, he⟩ := hx
    obtain ⟨as, bs, rfl⟩ := List.append_of_mem hy
    rw [h.putEntry_split he]
    by_cases hm : as.length < m
    · obtain ⟨n, rfl⟩ := Nat.exists_eq_add_of_lt hm
      have htake : (as ++ y :: bs).take (as.length + n + 1) = as ++ y :: bs.take n := by
        rw [List.take_append, List.take_of_length_le (by omega),
          show as.length + n + 1 - as.length = n + 1 by omega, List.take_succ_cons]
      have hkept := h.sublist (List.take_sublist (as.length + n + 1) _)
      rw [htake] at hkept
      rw [htake, Ordered.putEntry_split hkept he, List.take_append, List.take_append,
        show as.length + n + 1 - as.length = n + 1 by omega]
      simp
    · have hbefore : ∀ a ∈ as.take m, r (key a) (key x) := fun a ha =>
        he ▸ h.before_split a (List.mem_of_mem_take ha)
      have hput : OhlcvValidator.insertEntry r key x (as.take m ++ []) = as.take m ++ [x] :=
        insertEntry_append hbefore (by simp)
      rw [List.take_append_of_le_length (by omega), List.take_append_of_le_length (by omega),
        putEntry_of_absent fun a ha => ne_of_irrefl (hbefore a ha),
        ← List.append_nil (as.take m), hput, List.take_append_of_le_length (by simp; omega)]
      simp
  · push Not at hx
    have hkept : ∀ y ∈ xs.take m, key y ≠ key x := fun y hy => hx y (List.mem_of_mem_take hy)
    rw [putEntry_of_absent hx, putEntry_of_absent hkept]
    have hlen : xs.drop m = [] ∨ m ≤ (xs.take m).length := by
      rw [List.drop_eq_nil_iff, List.length_take]
      omega
    rw [← take_insertEntry_append hlen, List.take_append_drop]

end OhlcvValidator
