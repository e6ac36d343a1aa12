import OhlcvValidator.BookTracker

namespace OhlcvValidator

/-- A level as a snapshot message carries it. -/
def Level.toSnapshot {P : Type} (side : Side) (l : Level P) : SnapshotLevel P :=
  ⟨l.price, l.size, side.toByte⟩

def SnapshotLevel.toLevel {P : Type} (s : SnapshotLevel P) : Level P :=
  ⟨s.price, s.size⟩

theorem Side.ofByte_toByte (side : Side) : Side.ofByte side.toByte = side := by
  cases side <;> rfl

variable {P : Type} [LinearOrder P] {m : Nat}

namespace Ladder

variable {side : Side}

def fill (L : Ladder P side m) (xs : List (Level P)) : Ladder P side m :=
  xs.foldl (fun L l => L.update l.price l.size) L

theorem levels_update_new {L : Ladder P side m} {x : Level P} (hroom : L.levels.length < m)
    (hz : x.size ≠ 0) (hnew : ∀ l ∈ L.levels, l.price ≠ x.price) :
    (L.update x.price x.size).levels =
      insertEntry (OrderBook.before side.descending) Level.price x L.levels := by
  rw [levels_update, updateLevels, if_neg hz, putEntry_of_absent hnew, List.take_of_length_le]
  rw [insertEntry_length]
  omega

/-- Levels with new prices that find room are all kept, in whatever order they come. -/
theorem mem_fill {L : Ladder P side m} {xs : List (Level P)}
    (hroom : L.levels.length + xs.length ≤ m) (hz : ∀ x ∈ xs, x.size ≠ 0)
    (hnew : ∀ x ∈ xs, ∀ l ∈ L.levels, l.price ≠ x.price) (hnodup : (xs.map Level.price).Nodup)
    (l : Level P) : l ∈ (L.fill xs).levels ↔ l ∈ L.levels ∨ l ∈ xs := by
  induction xs generalizing L with
  | nil => simp [fill]
  | cons x xs ih =>
    rw [List.map_cons, List.nodup_cons] at hnodup
    rw [List.length_cons] at hroom
    have hupdate := levels_update_new (L := L) (by omega) (hz x (by simp)) (hnew x (by simp))
    have hlen : (L.update x.price x.size).levels.length = L.levels.length + 1 := by
      rw [hupdate, insertEntry_length]
    have hnew' : ∀ y ∈ xs, ∀ l ∈ (L.update x.price x.size).levels, l.price ≠ y.price := by
      intro y hy l hl
      rw [hupdate, mem_insertEntry] at hl
      rcases hl with rfl | hl
      · intro he
        exact hnodup.1 (he ▸ List.mem_map_of_mem hy)
      · exact hnew y (by simp [hy]) l hl
    have hstep := ih (L := L.update x.price x.size) (by omega)
      (fun y hy => hz y (by simp [hy])) hnew' hnodup.2
    show l ∈ ((L.update x.price x.size).fill xs).levels ↔ _
    rw [hstep, hupdate, mem_insertEntry, List.mem_cons]
    tauto

/-- A ladder is rebuilt from its own levels in any order. -/
theorem fill_perm {L : Ladder P side m} {xs : List (Level P)} (h : xs.Perm L.levels) :
    Ladder.empty.fill xs = L := by
  apply ext_mem
  intro l
  have hroom : (Ladder.empty : Ladder P side m).levels.length + xs.length ≤ m := by
    simpa [empty, h.length_eq] using L.length_le
  have hmem := mem_fill hroom (fun x hx => L.size_ne_zero x (h.mem_iff.mp hx)) (by simp [empty])
    ((h.map Level.price).nodup_iff.mpr L.ordered.nodup_keys) l
  rw [hmem, h.mem_iff]
  simp [empty]

end Ladder

namespace Depth

def snapshotOf (v : Depth P m) : List (SnapshotLevel P) :=
  (v .bid).levels.map (Level.toSnapshot .bid) ++ (v .ask).levels.map (Level.toSnapshot .ask)

/-- Each side of a rebuilt book comes from that side's levels alone. -/
theorem foldl_applyLevel (v : Depth P m) (levels : List (SnapshotLevel P)) (side : Side) :
    levels.foldl applyLevel v side =
      (v side).fill ((levels.filter fun l => Side.ofByte l.side = side).map
        SnapshotLevel.toLevel) := by
  induction levels generalizing v with
  | nil => rfl
  | cons l levels ih =>
    rw [List.foldl_cons, ih]
    by_cases hs : Side.ofByte l.side = side
    · subst hs
      simp [applyLevel, apply_self, Ladder.fill, SnapshotLevel.toLevel]
    · simp [applyLevel, apply_other v (Ne.symm hs), hs]

theorem snapshotOf_side (v : Depth P m) (side : Side) :
    ((snapshotOf v).filter fun l => Side.ofByte l.side = side).map SnapshotLevel.toLevel =
      (v side).levels := by
  have hkeep : ∀ (s : Side) (xs : List (Level P)),
      ((xs.map (Level.toSnapshot s)).filter fun l => Side.ofByte l.side = side).map
        SnapshotLevel.toLevel = if s = side then xs else [] := by
    intro s xs
    by_cases hs : s = side
    · have hall : ∀ l ∈ xs.map (Level.toSnapshot s), decide (Side.ofByte l.side = side) = true := by
        intro l hl
        obtain ⟨x, _, rfl⟩ := List.mem_map.mp hl
        simp [Level.toSnapshot, Side.ofByte_toByte, hs]
      rw [List.filter_eq_self.mpr hall, List.map_map, if_pos hs]
      exact List.map_id xs
    · have hnone : ∀ l ∈ xs.map (Level.toSnapshot s), ¬decide (Side.ofByte l.side = side) = true := by
        intro l hl
        obtain ⟨x, _, rfl⟩ := List.mem_map.mp hl
        simp [Level.toSnapshot, Side.ofByte_toByte, hs]
      rw [List.filter_eq_nil_iff.mpr hnone, if_neg hs, List.map_nil]
  rw [snapshotOf, List.filter_append, List.map_append, hkeep, hkeep]
  cases side <;> simp

/-- A snapshot rebuilds the book it was taken from, in whatever order its levels come. -/
theorem rebuild_perm {v : Depth P m} {levels : List (SnapshotLevel P)}
    (h : levels.Perm (snapshotOf v)) : rebuild levels = v := by
  funext side
  rw [rebuild, foldl_applyLevel]
  apply Ladder.fill_perm
  rw [← snapshotOf_side]
  exact (h.filter _).map _

end Depth

end OhlcvValidator
