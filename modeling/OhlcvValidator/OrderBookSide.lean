import OhlcvValidator.OrderedUpdate
import OhlcvValidator.OrderBook

namespace OhlcvValidator

variable {P : Type} [LinearOrder P] {m : Nat}

instance (descending : Bool) : IsStrictTotalOrder P (OrderBook.before descending) := by
  cases descending with
  | true => exact inferInstanceAs (IsStrictTotalOrder P fun p q => q < p)
  | false => exact inferInstanceAs (IsStrictTotalOrder P fun p q => p < q)

/-- One update of a side without a depth limit. -/
def updateLevels (descending : Bool) (price : P) (newSize : UInt64) (xs : List (Level P)) :
    List (Level P) :=
  if newSize = 0 then removeKey Level.price price xs
  else putEntry (OrderBook.before descending) Level.price ⟨price, newSize⟩ xs

theorem mem_updateLevels {descending : Bool} {price : P} {newSize : UInt64} {l : Level P}
    {xs : List (Level P)} : l ∈ updateLevels descending price newSize xs ↔
      l = ⟨price, newSize⟩ ∧ newSize ≠ 0 ∨ l ∈ xs ∧ l.price ≠ price := by
  unfold updateLevels
  split
  next h => simp [mem_removeKey, h]
  next h => simp [mem_putEntry, h]

theorem Ordered.updateLevels {descending : Bool} {xs : List (Level P)}
    (h : Ordered (OrderBook.before descending) Level.price xs) (price : P) (newSize : UInt64) :
    Ordered (OrderBook.before descending) Level.price
      (updateLevels descending price newSize xs) := by
  unfold OhlcvValidator.updateLevels
  split
  next => exact h.removeKey price
  next => exact h.putEntry ⟨price, newSize⟩

namespace OrderBook

theorem findPrice_spec (lv : Vector (Level P) m) (price : P) {count i : Nat}
    (h : i + count ≤ m) :
    (findPrice lv price count i = some none ∧
      ∀ l ∈ (entries lv (i + count)).drop i, l.price ≠ price) ∨
    ∃ k l, findPrice lv price count i = some (some k) ∧ k < i + count ∧ lv[k]? = some l ∧
      l.price = price := by
  induction count generalizing i with
  | zero =>
    refine Or.inl ⟨rfl, ?_⟩
    simp [entries_drop_self]
  | succ count ih =>
    unfold findPrice
    rw [load_some (show i < m by omega), entries_drop_cons (by omega)]
    by_cases hp : lv[i].price = price
    · exact Or.inr ⟨i, lv[i], by simp [hp], by omega, load_some (by omega), hp⟩
    · rcases ih (show i + 1 + count ≤ m by omega) with ⟨hf, hall⟩ | ⟨k, l, hf, hk, hl, hlp⟩
      · exact Or.inl ⟨by simp [hp, hf], by simpa [hp] using hall⟩
      · exact Or.inr ⟨k, l, by simp [hp, hf], by omega, hl, hlp⟩

theorem insertPos_spec (lv : Vector (Level P) m) (price : P) (descending : Bool) {count pos : Nat}
    (h : pos + count ≤ m) :
    insertPos lv price descending count pos =
      some (pos + (((entries lv (pos + count)).drop pos).takeWhile
        fun l => before descending l.price price).length) := by
  induction count generalizing pos with
  | zero => simp [insertPos, entries_drop_self]
  | succ count ih =>
    unfold insertPos
    rw [load_some (show pos < m by omega), entries_drop_cons (by omega)]
    by_cases hp : before descending lv[pos].price price
    · simp [hp, ih (show pos + 1 + count ≤ m by omega), Nat.add_assoc, Nat.add_comm]
    · simp [hp]

section ApplySide

variable {lv : Vector (Level P) m} {n : Nat} {price : P} {newSize : UInt64} {descending : Bool}

theorem applySide_present (newSize : UInt64) (hn : n ≤ m)
    (hord : Ordered (before descending) Level.price (entries lv n)) {k : Nat} {l : Level P}
    (hfind : findPrice lv price n 0 = some (some k)) (hk : k < n) (hl : lv[k]? = some l)
    (hp : l.price = price) :
    ∃ lv' n', applySide lv n price newSize descending = some (lv', n') ∧ n' ≤ m ∧
      entries lv' n' = updateLevels descending price newSize (entries lv n) := by
  have hkept : (entries lv n)[k]? = some l := by rw [entries_getElem?, if_pos hk, hl]
  by_cases hz : newSize = 0
  · obtain ⟨b, hb, hentries⟩ := entries_shiftDown (a := lv) hk hn
    refine ⟨b, n - 1, by simp [applySide, hfind, hz, hb], by omega, ?_⟩
    rw [hentries, updateLevels, if_pos hz, ← hp, hord.removeKey_eq_eraseIdx hkept]
  · refine ⟨lv.set k { l with size := newSize }, n, ?_, hn, ?_⟩
    · simp [applySide, hfind, hz, hl, store_some (show k < m by omega)]
    · have hset := hord.putEntry_eq_set hkept (show l.price = Level.price ⟨price, newSize⟩ from hp)
      rw [entries_set, updateLevels, if_neg hz, hset, hp]

theorem applySide_absent (hn : n ≤ m) (hfind : findPrice lv price n 0 = some none)
    (habs : ∀ l ∈ entries lv n, l.price ≠ price) :
    ∃ lv' n', applySide lv n price newSize descending = some (lv', n') ∧ n' ≤ m ∧
      entries lv' n' = (updateLevels descending price newSize (entries lv n)).take m := by
  have hlen := entries_length (a := lv) hn
  by_cases hz : newSize = 0
  · refine ⟨lv, n, by simp [applySide, hfind, hz], hn, ?_⟩
    rw [updateLevels, if_pos hz, removeKey_of_absent habs, List.take_of_length_le (by omega)]
  have hpos := insertPos_spec lv price descending (show 0 + n ≤ m by omega)
  simp only [Nat.zero_add, List.drop_zero] at hpos
  have hins := insertIdx_takeWhile (fun l => decide (before descending l.price price))
    (entries lv n) ⟨price, newSize⟩
  have hle := (List.takeWhile_sublist (fun l => decide (before descending l.price price))
    (l := entries lv n)).length_le
  rw [updateLevels, if_neg hz, putEntry_of_absent habs, insertEntry, ← hins]
  generalize ((entries lv n).takeWhile fun l => decide (before descending l.price price)).length =
    pos at hpos hle
  by_cases hroom : n < m
  · obtain ⟨b, c, hb, hc, hentries⟩ := entries_insert (a := lv)
      (show pos ≤ n by omega) hroom ⟨price, newSize⟩
    refine ⟨c, n + 1, by simp [applySide, hfind, hz, hpos, hroom, hb, hc], by omega, ?_⟩
    rw [hentries, List.take_of_length_le]
    rw [List.length_insertIdx_of_le_length hle]
    omega
  · obtain rfl : n = m := by omega
    by_cases hbetter : pos < n
    · obtain ⟨b, c, hb, hc, hentries⟩ := entries_insert (a := lv)
        (show pos ≤ n - 1 by omega) (by omega) ⟨price, newSize⟩
      refine ⟨c, n, by simp [applySide, hfind, hz, hpos, hbetter, hb, hc], le_rfl, ?_⟩
      rw [show n - 1 + 1 = n by omega] at hentries
      have hcut := take_insertIdx_succ (x := Level.mk price newSize) (show pos ≤ n - 1 by omega)
        (show n - 1 ≤ (entries lv n).length by omega)
      rw [show n - 1 + 1 = n by omega] at hcut
      rw [hentries, hcut, entries, entries, List.take_take, min_eq_left (by omega)]
    · refine ⟨lv, n, by simp [applySide, hfind, hz, hpos, hbetter], le_rfl, ?_⟩
      rw [show pos = (entries lv n).length by omega, List.insertIdx_length_self,
        List.take_append_of_le_length (by omega), List.take_of_length_le (by omega)]

/-- The in-place update of a side is the update of the list that the side stands for,
cut to the depth of the array. -/
theorem applySide_spec (hn : n ≤ m)
    (hord : Ordered (before descending) Level.price (entries lv n)) (price : P)
    (newSize : UInt64) :
    ∃ lv' n', applySide lv n price newSize descending = some (lv', n') ∧ n' ≤ m ∧
      entries lv' n' = (updateLevels descending price newSize (entries lv n)).take m := by
  rcases findPrice_spec lv price (show 0 + n ≤ m by omega) with
    ⟨hfind, habs⟩ | ⟨k, l, hfind, hk, hl, hp⟩
  · exact applySide_absent hn hfind (by simpa using habs)
  · obtain ⟨lv', n', happ, hn', hentries⟩ := applySide_present newSize hn hord hfind
      (by omega) hl hp
    refine ⟨lv', n', happ, hn', ?_⟩
    rw [← hentries, List.take_of_length_le]
    rw [entries_length hn']
    exact hn'

end ApplySide

end OrderBook

end OhlcvValidator
