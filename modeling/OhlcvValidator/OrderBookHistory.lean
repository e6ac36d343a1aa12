import OhlcvValidator.BoundedLoop
import OhlcvValidator.OrderBookLadder

namespace OhlcvValidator

inductive BookCall (P : Type)
  | apply (side : Side) (price : P) (newSize : UInt64)
  | clear
  deriving DecidableEq, Repr

variable {P : Type} [LinearOrder P] {m : Nat}

/-- The size last given to a price of a side, after one more call. -/
def BookCall.sizeAfter (side : Side) (price : P) (size : UInt64) : BookCall P → UInt64
  | .apply s p newSize => if s = side ∧ p = price then newSize else size
  | .clear => 0

/-- The last size applied to a price of a side since the last clear; 0 if there is none. -/
def lastSize (side : Side) (price : P) (calls : List (BookCall P)) : UInt64 :=
  calls.foldl (BookCall.sizeAfter side price) 0

def BookCall.price? : BookCall P → Option P
  | .apply _ p _ => some p
  | .clear => none

/-- The prices of a side whose last size is not 0. -/
def livePrices (side : Side) (calls : List (BookCall P)) : Finset P :=
  (calls.filterMap BookCall.price?).toFinset.filter fun p => lastSize side p calls ≠ 0

def bestFirst (side : Side) (prices : Finset P) : List P :=
  match side with
  | .bid => prices.sort (· ≥ ·)
  | .ask => prices.sort (· ≤ ·)

/-- The full book's side: every live price with its last size, best first. -/
def fullSide (side : Side) (calls : List (BookCall P)) : List (Level P) :=
  (bestFirst side (livePrices side calls)).map fun p => ⟨p, lastSize side p calls⟩

theorem lastSize_concat (side : Side) (price : P) (calls : List (BookCall P)) (c : BookCall P) :
    lastSize side price (calls ++ [c]) = c.sizeAfter side price (lastSize side price calls) := by
  simp [lastSize]

theorem mem_prices_of_lastSize {side : Side} {price : P} {calls : List (BookCall P)}
    (h : lastSize side price calls ≠ 0) : price ∈ calls.filterMap BookCall.price? := by
  induction calls using List.reverseRecOn with
  | nil => simp [lastSize] at h
  | append_singleton calls c ih =>
    rw [lastSize_concat] at h
    rw [List.filterMap_append, List.mem_append]
    cases c with
    | clear => simp [BookCall.sizeAfter] at h
    | apply s p newSize =>
      by_cases hp : s = side ∧ p = price
      · exact Or.inr (by simp [BookCall.price?, hp.2])
      · exact Or.inl (ih (by simpa [BookCall.sizeAfter, hp] using h))

theorem mem_livePrices {side : Side} {price : P} {calls : List (BookCall P)} :
    price ∈ livePrices side calls ↔ lastSize side price calls ≠ 0 := by
  rw [livePrices, Finset.mem_filter, List.mem_toFinset]
  exact ⟨And.right, fun h => ⟨mem_prices_of_lastSize h, h⟩⟩

theorem mem_fullSide {side : Side} {l : Level P} {calls : List (BookCall P)} :
    l ∈ fullSide side calls ↔ l.size ≠ 0 ∧ lastSize side l.price calls = l.size := by
  have hmem : ∀ p, p ∈ bestFirst side (livePrices side calls) ↔ lastSize side p calls ≠ 0 := by
    intro p
    rw [← mem_livePrices]
    cases side <;> exact Finset.mem_sort _
  rw [fullSide, List.mem_map]
  constructor
  · intro h
    obtain ⟨p, hp, he⟩ := h
    subst l
    exact ⟨(hmem p).mp hp, rfl⟩
  · intro h
    exact ⟨l.price, (hmem l.price).mpr (h.2 ▸ h.1), by rw [h.2]⟩

theorem ordered_fullSide (side : Side) (calls : List (BookCall P)) :
    Ordered (OrderBook.before side.descending) Level.price (fullSide side calls) := by
  refine List.pairwise_map.mpr ?_
  cases side with
  | bid => exact (Finset.sortedGT_sort _).pairwise
  | ask => exact (Finset.sortedLT_sort _).pairwise

theorem length_fullSide (side : Side) (calls : List (BookCall P)) :
    (fullSide side calls).length = (livePrices side calls).card := by
  rw [fullSide, List.length_map]
  cases side <;> exact Finset.length_sort _

/-- The full side is a function of the last sizes. -/
theorem fullSide_congr {side : Side} {calls calls' : List (BookCall P)}
    (h : ∀ price, lastSize side price calls' = lastSize side price calls) :
    fullSide side calls' = fullSide side calls := by
  apply (ordered_fullSide side calls').ext (ordered_fullSide side calls)
  intro l
  rw [mem_fullSide, mem_fullSide, h]

theorem fullSide_nil (side : Side) : fullSide side ([] : List (BookCall P)) = [] := by
  rw [List.eq_nil_iff_forall_not_mem]
  intro l hl
  obtain ⟨hne, he⟩ := mem_fullSide.mp hl
  exact hne he.symm

theorem fullSide_clear (side : Side) (calls : List (BookCall P)) :
    fullSide side (calls ++ [.clear]) = [] := by
  rw [← fullSide_nil side]
  apply fullSide_congr
  intro price
  rw [lastSize_concat]
  rfl

theorem fullSide_apply_other {side s : Side} (h : s ≠ side) (calls : List (BookCall P)) (price : P)
    (newSize : UInt64) :
    fullSide side (calls ++ [.apply s price newSize]) = fullSide side calls := by
  apply fullSide_congr
  intro p
  rw [lastSize_concat, BookCall.sizeAfter, if_neg (fun hp => h hp.1)]

theorem fullSide_apply (side : Side) (calls : List (BookCall P)) (price : P) (newSize : UInt64) :
    fullSide side (calls ++ [.apply side price newSize]) =
      updateLevels side.descending price newSize (fullSide side calls) := by
  apply (ordered_fullSide side _).ext ((ordered_fullSide side calls).updateLevels price newSize)
  intro l
  rw [mem_updateLevels, mem_fullSide, mem_fullSide, lastSize_concat, BookCall.sizeAfter]
  by_cases hp : price = l.price
  · subst hp
    cases l
    simp only [and_self, if_true, Level.mk.injEq, true_and, ne_eq, not_true, and_false, or_false]
    grind
  · simp only [hp, and_false, if_false, ne_eq, Ne.symm hp, not_false_eq_true, and_true]
    refine ⟨Or.inr, ?_⟩
    intro h
    exact h.resolve_left fun hl => hp (by rw [hl.1])

namespace Depth

def call (v : Depth P m) : BookCall P → Depth P m
  | .apply side price newSize => v.apply side price newSize
  | .clear => Depth.empty

def run (m : Nat) (calls : List (BookCall P)) : Depth P m :=
  calls.foldl call Depth.empty

theorem run_concat (calls : List (BookCall P)) (c : BookCall P) :
    run m (calls ++ [c]) = (run m calls).call c := by
  simp [run]

end Depth

namespace OrderBook

variable [Zero P]

def call (b : OrderBook P m) : BookCall P → Option (OrderBook P m)
  | .apply side price newSize => b.apply side price newSize
  | .clear => some b.clear

/-- A sequence of calls on a fresh book. -/
def run (m : Nat) (calls : List (BookCall P)) : Option (OrderBook P m) :=
  calls.foldlM call {}

theorem Shows.call {b : OrderBook P m} {v : Depth P m} (h : Shows b v) (c : BookCall P) :
    ∃ b', b.call c = some b' ∧ Shows b' (v.call c) := by
  cases c with
  | apply side price newSize => exact h.apply side price newSize
  | clear => exact ⟨b.clear, rfl, shows_clear b⟩

/-- Along every history the arrays stay in bounds and stand for the two ladders. -/
theorem shows_run (m : Nat) (calls : List (BookCall P)) :
    ∃ b, run m calls = some b ∧ Shows b (Depth.run m calls) :=
  foldlM_simulates (f := call) (g := Depth.call) (R := Shows) (fun _ _ c _ h => h.call c)
    shows_fresh

end OrderBook

end OhlcvValidator
