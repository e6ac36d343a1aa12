import OhlcvValidator.OrderBookSide

namespace OhlcvValidator

namespace OrderBook

variable {P : Type} [Zero P] {m : Nat}

def array (b : OrderBook P m) : Side → Vector (Level P) m
  | .bid => b.bid
  | .ask => b.ask

def count (b : OrderBook P m) : Side → Nat
  | .bid => b.nBid
  | .ask => b.nAsk

def withSide (b : OrderBook P m) (side : Side) (lv : Vector (Level P) m) (n : Nat) :
    OrderBook P m :=
  match side with
  | .bid => { b with bid := lv, nBid := n }
  | .ask => { b with ask := lv, nAsk := n }

/-- The levels held on a side, best first. -/
def levels (b : OrderBook P m) (side : Side) : List (Level P) :=
  entries (b.array side) (b.count side)

theorem array_withSide (b : OrderBook P m) (side other : Side) (lv : Vector (Level P) m)
    (n : Nat) : (b.withSide side lv n).array other = if other = side then lv else b.array other := by
  cases side <;> cases other <;> rfl

theorem count_withSide (b : OrderBook P m) (side other : Side) (lv : Vector (Level P) m)
    (n : Nat) : (b.withSide side lv n).count other = if other = side then n else b.count other := by
  cases side <;> cases other <;> rfl

def best (b : OrderBook P m) : Side → Option P
  | .bid => b.bestBid
  | .ask => b.bestAsk

theorem best_of_head {b : OrderBook P m} {side : Side} {l : Level P}
    (h : (b.levels side).head? = some l) : b.best side = some l.price := by
  have hfirst : (b.array side)[0]? = some l := by
    rw [List.head?_eq_getElem?, levels, entries_getElem?] at h
    split at h
    next => exact h
    next => simp at h
  cases side with
  | bid =>
    show b.bid[0]?.map Level.price = _
    rw [show b.bid[0]? = some l from hfirst, Option.map_some]
  | ask =>
    show b.ask[0]?.map Level.price = _
    rw [show b.ask[0]? = some l from hfirst, Option.map_some]

end OrderBook

variable {P : Type} [LinearOrder P] {m : Nat}

def Side.descending : Side → Bool
  | .bid => true
  | .ask => false

/-- What a side is meant to be: at most `m` live price levels, best first. -/
@[ext] structure Ladder (P : Type) [LinearOrder P] (side : Side) (m : Nat) where
  levels : List (Level P)
  ordered : Ordered (OrderBook.before side.descending) Level.price levels
  length_le : levels.length ≤ m
  size_ne_zero : ∀ l ∈ levels, l.size ≠ 0

namespace Ladder

variable {side : Side}

def empty : Ladder P side m where
  levels := []
  ordered := List.Pairwise.nil
  length_le := Nat.zero_le m
  size_ne_zero := by simp

def update (L : Ladder P side m) (price : P) (newSize : UInt64) : Ladder P side m where
  levels := (updateLevels side.descending price newSize L.levels).take m
  ordered := (L.ordered.updateLevels price newSize).sublist (List.take_sublist _ _)
  length_le := List.length_take_le _ _
  size_ne_zero := by
    intro l hl
    rcases mem_updateLevels.mp (List.mem_of_mem_take hl) with ⟨rfl, hz⟩ | ⟨hmem, _⟩
    · exact hz
    · exact L.size_ne_zero l hmem

theorem levels_update (L : Ladder P side m) (price : P) (newSize : UInt64) :
    (L.update price newSize).levels =
      (updateLevels side.descending price newSize L.levels).take m := rfl

/-- Ladders with the same levels are the same ladder. -/
theorem ext_mem {L M : Ladder P side m} (h : ∀ l, l ∈ L.levels ↔ l ∈ M.levels) : L = M :=
  Ladder.ext (L.ordered.ext M.ordered h)

end Ladder

/-- Both sides of a book of depth `m`. -/
abbrev Depth (P : Type) [LinearOrder P] (m : Nat) := (side : Side) → Ladder P side m

namespace Depth

def empty : Depth P m := fun _ => Ladder.empty

def apply (v : Depth P m) (side : Side) (price : P) (newSize : UInt64) : Depth P m :=
  Function.update v side ((v side).update price newSize)

theorem apply_self (v : Depth P m) (side : Side) (price : P) (newSize : UInt64) :
    v.apply side price newSize side = (v side).update price newSize := by
  simp [apply]

theorem apply_other (v : Depth P m) {side other : Side} (h : other ≠ side) (price : P)
    (newSize : UInt64) : v.apply side price newSize other = v other := by
  simp [apply, h]

end Depth

namespace OrderBook

theorem sameLevels_spec (lv lv' : Vector (Level P) m) {count i : Nat} (h : i + count ≤ m) :
    sameLevels lv lv' count i =
      some (decide ((entries lv (i + count)).drop i = (entries lv' (i + count)).drop i)) := by
  induction count generalizing i with
  | zero => simp [sameLevels, entries_drop_self]
  | succ count ih =>
    unfold sameLevels
    rw [load_some (show i < m by omega), load_some (show i < m by omega),
      entries_drop_cons (by omega), entries_drop_cons (by omega)]
    have hlevel : (lv[i].price ≠ lv'[i].price ∨ lv[i].size ≠ lv'[i].size) ↔ lv[i] ≠ lv'[i] := by
      rw [Ne, Ne, Ne, Level.mk.injEq]
      tauto
    by_cases he : lv[i] = lv'[i]
    · simp [he, ih (show i + 1 + count ≤ m by omega)]
    · simp only [Option.bind_eq_bind, Option.bind_some, hlevel]
      simp [he]

variable [Zero P]

theorem apply_eq (b : OrderBook P m) (side : Side) (price : P) (newSize : UInt64) :
    b.apply side price newSize =
      (applySide (b.array side) (b.count side) price newSize side.descending).map
        fun s => b.withSide side s.1 s.2 := by
  cases side with
  | bid => exact Option.map_eq_bind.symm
  | ask => exact Option.map_eq_bind.symm

/-- The arrays of a book stand for the two ladders. -/
structure Shows (b : OrderBook P m) (v : Depth P m) : Prop where
  count_le : ∀ side, b.count side ≤ m
  levels_eq : ∀ side, b.levels side = (v side).levels

theorem shows_empty {b : OrderBook P m} (h : ∀ side, b.count side = 0) : Shows b Depth.empty := by
  refine ⟨fun side => by rw [h side]; exact Nat.zero_le m, ?_⟩
  intro side
  rw [levels, h side]
  rfl

theorem shows_fresh : Shows ({} : OrderBook P m) Depth.empty :=
  shows_empty fun side => by cases side <;> rfl

theorem shows_clear (b : OrderBook P m) : Shows b.clear Depth.empty :=
  shows_empty fun side => by cases side <;> rfl

theorem Shows.apply {b : OrderBook P m} {v : Depth P m} (h : Shows b v) (side : Side) (price : P)
    (newSize : UInt64) :
    ∃ b', b.apply side price newSize = some b' ∧ Shows b' (v.apply side price newSize) := by
  have hord : Ordered (before side.descending) Level.price (b.levels side) :=
    h.levels_eq side ▸ (v side).ordered
  obtain ⟨lv, n, happ, hn, hentries⟩ := applySide_spec (h.count_le side) hord price newSize
  refine ⟨b.withSide side lv n, by rw [apply_eq, happ, Option.map_some], ?_, ?_⟩
  · intro other
    rw [count_withSide]
    split
    next => exact hn
    next => exact h.count_le other
  · intro other
    rw [levels, array_withSide, count_withSide]
    by_cases ho : other = side
    · subst other
      rw [if_pos rfl, if_pos rfl, hentries, Depth.apply_self, Ladder.levels_update,
        ← h.levels_eq side]
      rfl
    · rw [if_neg ho, if_neg ho, Depth.apply_other v ho, ← h.levels_eq other]
      rfl

theorem Shows.length_levels {b : OrderBook P m} {v : Depth P m} (h : Shows b v) (side : Side) :
    (b.levels side).length = b.count side :=
  entries_length (h.count_le side)

/-- The comparison of two books compares what they stand for. -/
theorem Shows.equals_iff {b o : OrderBook P m} {v w : Depth P m} (hb : Shows b v)
    (ho : Shows o w) : b.equals o = some true ↔ v = w := by
  have hsides : v = w ↔ b.levels .bid = o.levels .bid ∧ b.levels .ask = o.levels .ask := by
    rw [hb.levels_eq, hb.levels_eq, ho.levels_eq, ho.levels_eq]
    refine ⟨fun h => by simp [h], ?_⟩
    intro h
    funext side
    cases side with
    | bid => exact Ladder.ext h.1
    | ask => exact Ladder.ext h.2
  have hcount : ∀ side, b.levels side = o.levels side → b.count side = o.count side := by
    intro side he
    rw [← hb.length_levels, ← ho.length_levels, he]
  unfold equals
  split
  next hne =>
    refine ⟨by simp, ?_⟩
    intro he
    obtain ⟨hbid, hask⟩ := hsides.mp he
    have hnb : b.nBid = o.nBid := hcount .bid hbid
    have hna : b.nAsk = o.nAsk := hcount .ask hask
    simp [hnb, hna] at hne
  next heq =>
    push Not at heq
    have hnb : 0 + b.nBid ≤ m := by rw [Nat.zero_add]; exact hb.count_le .bid
    have hna : 0 + b.nAsk ≤ m := by rw [Nat.zero_add]; exact hb.count_le .ask
    have hbid := sameLevels_spec b.bid o.bid hnb
    have hask := sameLevels_spec b.ask o.ask hna
    simp only [Nat.zero_add, List.drop_zero] at hbid hask
    simp only [hsides, levels, array, count, ← heq.1, ← heq.2, hbid, hask]
    by_cases he : entries b.bid b.nBid = entries o.bid b.nBid <;> simp [he]

end OrderBook

end OhlcvValidator
