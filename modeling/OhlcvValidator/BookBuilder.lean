import OhlcvValidator.OrderBook

namespace OhlcvValidator

inductive BookBuilder.State
  | recovering
  | live
  deriving DecidableEq, Repr

structure BookBuilder.Stats where
  applied : UInt64 := 0
  gaps : UInt64 := 0
  recovered : UInt64 := 0
  staleDropped : UInt64 := 0
  snapshotTooOld : UInt64 := 0
  bufferOverflow : UInt64 := 0
  deriving DecidableEq, Repr

/-- The builder: a book of depth `m` and a recovery buffer for `k` deltas. -/
structure BookBuilder (P : Type) [Zero P] (m k : Nat) where
  book : OrderBook P m := {}
  state : BookBuilder.State := .recovering
  expected : UInt64 := 0
  buf : Vector (BookDelta P) k := Vector.replicate k ⟨0, 0, 0, 0⟩
  nbuf : Nat := 0
  stats : BookBuilder.Stats := {}
  deriving DecidableEq, Repr

inductive BuilderCall (P : Type)
  | delta (d : BookDelta P)
  | snapshot (asOf : UInt64) (levels : List (SnapshotLevel P))
  deriving DecidableEq, Repr

namespace BookBuilder

section Buffer

variable {P : Type} {k : Nat}

/-- The scan that proves the increments past the snapshot contiguous, over `count` buffered
deltas from index `i` on. A hole has the result `some none`. -/
def checkBuffered (buf : Vector (BookDelta P) k) (asOf : UInt64) :
    Nat → Nat → UInt64 → Option (Option UInt64)
  | 0, _, expect => some (some expect)
  | count + 1, i, expect => do
    let d ← buf[i]?
    if d.seq ≤ asOf then checkBuffered buf asOf count (i + 1) expect
    else if d.seq ≠ expect then return none
    else checkBuffered buf asOf count (i + 1) (expect + 1)

end Buffer

variable {P : Type} [LinearOrder P] [Zero P] {m k : Nat}

/-- The replay of the buffered deltas that the snapshot does not contain. -/
def replay (buf : Vector (BookDelta P) k) (asOf : UInt64) :
    Nat → Nat → OrderBook P m → Option (OrderBook P m)
  | 0, _, book => some book
  | count + 1, i, book => do
    let d ← buf[i]?
    if asOf < d.seq then
      let book ← book.applyDelta d
      replay buf asOf count (i + 1) book
    else replay buf asOf count (i + 1) book

def buffer (b : BookBuilder P m k) (d : BookDelta P) : Option (BookBuilder P m k) :=
  if b.nbuf < k then do
    let buf ← store b.buf b.nbuf d
    return { b with buf := buf, nbuf := b.nbuf + 1 }
  else some { b with stats := { b.stats with bufferOverflow := b.stats.bufferOverflow + 1 } }

def onDelta (b : BookBuilder P m k) (d : BookDelta P) : Option (BookBuilder P m k) :=
  if b.state = .live then
    if d.seq = b.expected then do
      let book ← b.book.applyDelta d
      return { b with
        book := book
        expected := b.expected + 1
        stats := { b.stats with applied := b.stats.applied + 1 } }
    else if b.expected < d.seq then
      buffer { b with
        stats := { b.stats with gaps := b.stats.gaps + 1 }
        state := .recovering
        nbuf := 0 } d
    else some { b with stats := { b.stats with staleDropped := b.stats.staleDropped + 1 } }
  else b.buffer d

def applyLevel (book : OrderBook P m) (l : SnapshotLevel P) : Option (OrderBook P m) :=
  book.apply (Side.ofByte l.side) l.price l.size

def onSnapshot (b : BookBuilder P m k) (asOf : UInt64) (levels : List (SnapshotLevel P)) :
    Option (BookBuilder P m k) := do
  if b.state = .live ∧ asOf < b.expected then return b
  match ← checkBuffered b.buf asOf b.nbuf 0 (asOf + 1) with
  | none =>
    return { b with stats := { b.stats with snapshotTooOld := b.stats.snapshotTooOld + 1 } }
  | some expect =>
    let book ← levels.foldlM applyLevel b.book.clear
    let book ← replay b.buf asOf b.nbuf 0 book
    return { b with
      book := book
      expected := expect
      nbuf := 0
      state := .live
      stats := { b.stats with recovered := b.stats.recovered + 1 } }

def call (b : BookBuilder P m k) : BuilderCall P → Option (BookBuilder P m k)
  | .delta d => b.onDelta d
  | .snapshot asOf levels => b.onSnapshot asOf levels

/-- A sequence of calls on a fresh builder. -/
def run (m k : Nat) (calls : List (BuilderCall P)) : Option (BookBuilder P m k) :=
  calls.foldlM call {}

end BookBuilder

end OhlcvValidator
