import OhlcvValidator.CheckedArray
import OhlcvValidator.OrderedEntries

namespace OhlcvValidator

inductive Side
  | bid
  | ask
  deriving DecidableEq, Repr

/-- The cast from a message's side byte: the code only ever asks for `Bid`. -/
def Side.ofByte (b : UInt8) : Side :=
  if b = 0 then .bid else .ask

def Side.toByte : Side → UInt8
  | .bid => 0
  | .ask => 1

structure BookDelta (P : Type) where
  seq : UInt64
  price : P
  newSize : UInt64
  side : UInt8
  deriving DecidableEq, Repr

structure SnapshotLevel (P : Type) where
  price : P
  size : UInt64
  side : UInt8
  deriving DecidableEq, Repr

structure Level (P : Type) where
  price : P
  size : UInt64
  deriving DecidableEq, Repr

/-- The two sides as fixed arrays with level counts; what lies beyond a count is stale. -/
structure OrderBook (P : Type) [Zero P] (m : Nat) where
  bid : Vector (Level P) m := Vector.replicate m ⟨0, 0⟩
  ask : Vector (Level P) m := Vector.replicate m ⟨0, 0⟩
  nBid : Nat := 0
  nAsk : Nat := 0
  deriving DecidableEq, Repr

namespace OrderBook

variable {P : Type} [LinearOrder P] {m : Nat}

/-- The search for an existing level, over `count` entries from index `i` on. -/
def findPrice (lv : Vector (Level P) m) (price : P) : Nat → Nat → Option (Option Nat)
  | 0, _ => some none
  | count + 1, i => do
    let l ← lv[i]?
    if l.price = price then return some i
    findPrice lv price count (i + 1)

/-- A kept price that stays ahead of a new one on this side. -/
def before (descending : Bool) (p q : P) : Prop :=
  if descending then q < p else p < q

instance (descending : Bool) : DecidableRel (before (P := P) descending) := fun _ _ => by
  unfold before
  infer_instance

/-- The walk to the insertion point, over `count` entries from index `pos` on. -/
def insertPos (lv : Vector (Level P) m) (price : P) (descending : Bool) : Nat → Nat → Option Nat
  | 0, pos => some pos
  | count + 1, pos => do
    let l ← lv[pos]?
    if before descending l.price price then insertPos lv price descending count (pos + 1)
    else return pos

/-- The in-place update of one side. An access outside the array has no result. -/
def applySide (lv : Vector (Level P) m) (n : Nat) (price : P) (newSize : UInt64)
    (descending : Bool) : Option (Vector (Level P) m × Nat) := do
  match ← findPrice lv price n 0 with
  | some i =>
    if newSize = 0 then
      let lv ← shiftDown lv (i + 1) (n - (i + 1))
      return (lv, n - 1)
    else
      let l ← lv[i]?
      let lv ← store lv i { l with size := newSize }
      return (lv, n)
  | none =>
    if newSize = 0 then return (lv, n)
    let pos ← insertPos lv price descending n 0
    if n < m then
      let lv ← shiftUp lv n (n - pos)
      let lv ← store lv pos ⟨price, newSize⟩
      return (lv, n + 1)
    else if pos < m then
      let lv ← shiftUp lv (m - 1) (m - 1 - pos)
      let lv ← store lv pos ⟨price, newSize⟩
      return (lv, n)
    else return (lv, n)

variable [Zero P]

def clear (b : OrderBook P m) : OrderBook P m :=
  { b with nBid := 0, nAsk := 0 }

def apply (b : OrderBook P m) (side : Side) (price : P) (newSize : UInt64) :
    Option (OrderBook P m) :=
  match side with
  | .bid => do
    let (lv, n) ← applySide b.bid b.nBid price newSize true
    return { b with bid := lv, nBid := n }
  | .ask => do
    let (lv, n) ← applySide b.ask b.nAsk price newSize false
    return { b with ask := lv, nAsk := n }

def applyDelta (b : OrderBook P m) (d : BookDelta P) : Option (OrderBook P m) :=
  b.apply (Side.ofByte d.side) d.price d.newSize

def bestBid (b : OrderBook P m) : Option P := b.bid[0]?.map Level.price
def bestAsk (b : OrderBook P m) : Option P := b.ask[0]?.map Level.price

/-- Level by level comparison of `count` entries from index `i` on. -/
def sameLevels (lv lv' : Vector (Level P) m) : Nat → Nat → Option Bool
  | 0, _ => some true
  | count + 1, i => do
    let l ← lv[i]?
    let l' ← lv'[i]?
    if l.price ≠ l'.price ∨ l.size ≠ l'.size then return false
    sameLevels lv lv' count (i + 1)

/-- The source's `operator==`. -/
def equals (b o : OrderBook P m) : Option Bool := do
  if b.nBid ≠ o.nBid ∨ b.nAsk ≠ o.nAsk then return false
  if !(← sameLevels b.bid o.bid b.nBid 0) then return false
  sameLevels b.ask o.ask b.nAsk 0

end OrderBook

end OhlcvValidator
