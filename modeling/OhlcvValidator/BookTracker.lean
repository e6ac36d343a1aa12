import OhlcvValidator.BookBuilder
import OhlcvValidator.OrderBookHistory

namespace OhlcvValidator

namespace BookTracker

variable {P : Type}

/-- The pending deltas that a snapshot does not contain. -/
def later (asOf : UInt64) (pending : List (BookDelta P)) : List (BookDelta P) :=
  pending.filter fun d => asOf < d.seq

def contiguousFrom (expect : UInt64) : List (BookDelta P) → Bool
  | [] => true
  | d :: ds => d.seq = expect && contiguousFrom (expect + 1) ds

def hold (k : Nat) (pending : List (BookDelta P)) (d : BookDelta P) : List (BookDelta P) :=
  if pending.length < k then pending ++ [d] else pending

theorem later_cons (asOf : UInt64) (d : BookDelta P) (ds : List (BookDelta P)) :
    later asOf (d :: ds) = if asOf < d.seq then d :: later asOf ds else later asOf ds := by
  simp [later, List.filter_cons]

theorem mem_hold {k : Nat} {pending : List (BookDelta P)} {d x : BookDelta P}
    (h : x ∈ hold k pending d) : x ∈ pending ∨ x = d := by
  unfold hold at h
  split at h
  next => simpa using h
  next => exact Or.inl h

end BookTracker

variable {P : Type} [LinearOrder P] {m : Nat}

/-- What a builder is for: a book known to be good up to `expected`, or no book at all and
the deltas that wait for a snapshot. -/
inductive BookTracker (P : Type) [LinearOrder P] (m : Nat)
  | recovering (pending : List (BookDelta P))
  | live (expected : UInt64) (book : Depth P m)

namespace Depth

def applyDelta (v : Depth P m) (d : BookDelta P) : Depth P m :=
  v.apply (Side.ofByte d.side) d.price d.newSize

def applyLevel (v : Depth P m) (l : SnapshotLevel P) : Depth P m :=
  v.apply (Side.ofByte l.side) l.price l.size

def rebuild (levels : List (SnapshotLevel P)) : Depth P m :=
  levels.foldl applyLevel Depth.empty

end Depth

namespace BookTracker

def onDelta (k : Nat) (t : BookTracker P m) (d : BookDelta P) : BookTracker P m :=
  match t with
  | .recovering pending => .recovering (hold k pending d)
  | .live expected book =>
    if d.seq = expected then .live (expected + 1) (book.applyDelta d)
    else if expected < d.seq then .recovering (hold k [] d)
    else .live expected book

/-- A snapshot and the pending deltas after it, if they leave no hole. -/
def resync (asOf : UInt64) (levels : List (SnapshotLevel P)) (pending : List (BookDelta P)) :
    Option (BookTracker P m) :=
  if contiguousFrom (asOf + 1) (later asOf pending) then
    some (.live (asOf + 1 + UInt64.ofNat (later asOf pending).length)
      ((later asOf pending).foldl Depth.applyDelta (Depth.rebuild levels)))
  else none

def onSnapshot (t : BookTracker P m) (asOf : UInt64) (levels : List (SnapshotLevel P)) :
    BookTracker P m :=
  match t with
  | .recovering pending => (resync asOf levels pending).getD (.recovering pending)
  | .live expected book =>
    if asOf < expected then .live expected book
    else .live (asOf + 1) (Depth.rebuild levels)

def call (k : Nat) (t : BookTracker P m) : BuilderCall P → BookTracker P m
  | .delta d => t.onDelta k d
  | .snapshot asOf levels => t.onSnapshot asOf levels

def run (m k : Nat) (calls : List (BuilderCall P)) : BookTracker P m :=
  calls.foldl (call k) (.recovering [])

theorem run_concat (m k : Nat) (calls : List (BuilderCall P)) (c : BuilderCall P) :
    run m k (calls ++ [c]) = (run m k calls).call k c := by
  simp [run]

end BookTracker

end OhlcvValidator
