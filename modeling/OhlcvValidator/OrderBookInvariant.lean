import OhlcvValidator.BookBuilderLive

namespace OhlcvValidator

namespace OrderBook

variable {P : Type} [LinearOrder P] [Zero P] {m : Nat}

/-- The representation invariant: counts within the arrays, each side strictly ordered with
its best level in front, and no empty level kept. -/
structure WellFormed (b : OrderBook P m) : Prop where
  nBid_le : b.nBid ≤ m
  nAsk_le : b.nAsk ≤ m
  bids_descend : ∀ i j l l', i < j → j < b.nBid → b.bid[i]? = some l → b.bid[j]? = some l' →
    l'.price < l.price
  asks_ascend : ∀ i j l l', i < j → j < b.nAsk → b.ask[i]? = some l → b.ask[j]? = some l' →
    l.price < l'.price
  bid_size_ne_zero : ∀ i l, i < b.nBid → b.bid[i]? = some l → l.size ≠ 0
  ask_size_ne_zero : ∀ i l, i < b.nAsk → b.ask[i]? = some l → l.size ≠ 0

variable {b : OrderBook P m} {v : Depth P m}

omit [LinearOrder P] in
theorem getElem?_levels {side : Side} {i : Nat} (hi : i < b.count side) :
    (b.levels side)[i]? = (b.array side)[i]? := by
  rw [levels, entries_getElem?, if_pos hi]

/-- An entry below the count is a level of the ladder. -/
theorem Shows.mem_ladder (h : Shows b v) (side : Side) {i : Nat} {l : Level P}
    (hi : i < b.count side) (hl : (b.array side)[i]? = some l) : l ∈ (v side).levels := by
  rw [← h.levels_eq]
  rw [← getElem?_levels hi] at hl
  exact List.mem_of_getElem? hl

theorem Shows.before_of_lt (h : Shows b v) (side : Side) {i j : Nat} {l l' : Level P}
    (hij : i < j) (hj : j < b.count side) (hl : (b.array side)[i]? = some l)
    (hl' : (b.array side)[j]? = some l') : before side.descending l.price l'.price := by
  have hord : Ordered (before side.descending) Level.price (b.levels side) :=
    h.levels_eq side ▸ (v side).ordered
  rw [← getElem?_levels (by omega)] at hl
  rw [← getElem?_levels hj] at hl'
  obtain ⟨hi, rfl⟩ := List.getElem?_eq_some_iff.mp hl
  obtain ⟨hj, rfl⟩ := List.getElem?_eq_some_iff.mp hl'
  exact List.pairwise_iff_getElem.mp hord i j hi hj hij

theorem Shows.wellFormed (h : Shows b v) : b.WellFormed where
  nBid_le := h.count_le .bid
  nAsk_le := h.count_le .ask
  bids_descend := fun _ _ _ _ hij hj hl hl' => h.before_of_lt .bid hij hj hl hl'
  asks_ascend := fun _ _ _ _ hij hj hl hl' => h.before_of_lt .ask hij hj hl hl'
  bid_size_ne_zero := fun _ l hi hl => (v .bid).size_ne_zero l (h.mem_ladder .bid hi hl)
  ask_size_ne_zero := fun _ l hi hl => (v .ask).size_ne_zero l (h.mem_ladder .ask hi hl)

/-- An update touches its own side only, its stale entries included. -/
theorem apply_other_side {b' : OrderBook P m} {side other : Side} {price : P} {newSize : UInt64}
    (ho : other ≠ side) (h : b.apply side price newSize = some b') :
    b'.array other = b.array other ∧ b'.count other = b.count other := by
  rw [apply_eq] at h
  obtain ⟨s, _, rfl⟩ := Option.map_eq_some_iff.mp h
  rw [array_withSide, count_withSide, if_neg ho, if_neg ho]
  exact ⟨rfl, rfl⟩

/-- Every history of calls stays inside the arrays and leaves a well-formed book, and one more
update of a side leaves the other side as it is. -/
theorem wellFormed_run (m : Nat) (calls : List (BookCall P)) :
    ∃ b, run m calls = some b ∧ b.WellFormed ∧
      ∀ side price newSize, ∃ b', b.apply side price newSize = some b' ∧
        ∀ other, other ≠ side → b'.array other = b.array other ∧
          b'.count other = b.count other := by
  obtain ⟨b, hb, hshows⟩ := shows_run m calls
  refine ⟨b, hb, hshows.wellFormed, ?_⟩
  intro side price newSize
  obtain ⟨b', hb', _⟩ := hshows.apply side price newSize
  exact ⟨b', hb', fun other ho => apply_other_side ho hb'⟩

theorem Shows.snapshotOf (h : Shows b v) : b.snapshotOf = Depth.snapshotOf v := by
  rw [OrderBook.snapshotOf, Depth.snapshotOf, h.levels_eq, h.levels_eq]

/-- Two books that stand for the same ladders stay equal under the same deltas. -/
theorem Shows.foldlM_applyDelta {a : OrderBook P m} (ha : Shows a v) (hb : Shows b v)
    (ds : List (BookDelta P)) : ∃ a' b', ds.foldlM applyDelta a = some a' ∧
      ds.foldlM applyDelta b = some b' ∧ a'.equals b' = some true := by
  have hstep : ∀ (c : OrderBook P m) u d, d ∈ ds → Shows c u →
      ∃ c', c.applyDelta d = some c' ∧ Shows c' (Depth.applyDelta u d) :=
    fun c u d _ h => h.apply _ _ _
  obtain ⟨a', ha', hsa⟩ := foldlM_simulates hstep ha
  obtain ⟨b', hb', hsb⟩ := foldlM_simulates hstep hb
  exact ⟨a', b', ha', hb', (hsa.equals_iff hsb).mpr rfl⟩

/-- A reachable book is rebuilt from its own levels in any order, over any cleared book; and
deltas keep equal books equal, whatever lies beyond their level counts. -/
theorem rebuild_and_congruence (m : Nat) (calls : List (BookCall P)) :
    ∃ b, run m calls = some b ∧
      (∀ (o : OrderBook P m) (levels : List (SnapshotLevel P)), levels.Perm b.snapshotOf →
        ∃ b', levels.foldlM BookBuilder.applyLevel o.clear = some b' ∧
          b'.equals b = some true) ∧
      ∀ calls' a, run m calls' = some a → a.equals b = some true →
        ∀ ds : List (BookDelta P), ∃ a' b', ds.foldlM applyDelta a = some a' ∧
          ds.foldlM applyDelta b = some b' ∧ a'.equals b' = some true := by
  obtain ⟨b, hb, hshows⟩ := shows_run m calls
  refine ⟨b, hb, ?_, ?_⟩
  · intro o levels hperm
    obtain ⟨b', hb', hshows'⟩ := BookBuilder.applyLevels_spec o levels
    rw [Depth.rebuild_perm (hshows.snapshotOf ▸ hperm)] at hshows'
    exact ⟨b', hb', (hshows'.equals_iff hshows).mpr rfl⟩
  · intro calls' a ha heq ds
    obtain ⟨a', ha', hshows'⟩ := shows_run m calls'
    obtain rfl := Option.some.inj (ha.symm.trans ha')
    rw [(hshows'.equals_iff hshows).mp heq] at hshows'
    exact hshows'.foldlM_applyDelta hshows ds

/-- A full side whose worst level was evicted, and the same levels after a longer history. -/
def evictedBids : List (BookCall ℤ) :=
  [.apply .bid 10 1, .apply .bid 12 2, .apply .bid 11 3]

def refilledBids : List (BookCall ℤ) :=
  [.apply .bid 7 9, .apply .bid 8 9, .apply .ask 20 5, .clear, .apply .bid 11 3, .apply .bid 12 2]

theorem rebuild_and_congruence_refilled :
    ∃ a b a' b', run 2 refilledBids = some a ∧ run 2 evictedBids = some b ∧
      b.snapshotOf = [⟨12, 2, 0⟩, ⟨11, 3, 0⟩] ∧
      (∃ c, [⟨11, 3, 0⟩, ⟨12, 2, 0⟩].foldlM BookBuilder.applyLevel a.clear = some c ∧
        c.equals b = some true) ∧
      a.applyDelta ⟨1, 12, 0, 0⟩ = some a' ∧ b.applyDelta ⟨1, 12, 0, 0⟩ = some b' ∧
      a'.equals b' = some true := by
  obtain ⟨b, hb, hrebuild, hcongr⟩ := rebuild_and_congruence 2 evictedBids
  obtain ⟨a, ha, -⟩ := shows_run 2 refilledBids
  have hsnap : (run 2 evictedBids).map OrderBook.snapshotOf = some [⟨12, 2, 0⟩, ⟨11, 3, 0⟩] := by
    decide +kernel
  have hequal : ((run 2 refilledBids).bind fun a => (run 2 evictedBids).bind fun b =>
      a.equals b) = some true := by decide +kernel
  rw [hb, Option.map_some, Option.some.injEq] at hsnap
  rw [ha, hb, Option.bind_some, Option.bind_some] at hequal
  have hperm : List.Perm [⟨11, 3, 0⟩, ⟨12, 2, 0⟩] b.snapshotOf := by
    rw [hsnap]
    exact List.Perm.swap ..
  obtain ⟨a', b', ha', hb', he⟩ := hcongr _ a ha hequal [⟨1, 12, 0, 0⟩]
  refine ⟨a, b, a', b', ha, hb, hsnap, hrebuild a _ hperm, ?_, ?_, he⟩
  · simpa using ha'
  · simpa using hb'

end OrderBook

end OhlcvValidator
