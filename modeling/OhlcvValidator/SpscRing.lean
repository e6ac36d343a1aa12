import OhlcvValidator.MaskIndex

namespace OhlcvValidator

/-- The memory of the ring. The cached cursors are private to their side. -/
structure SpscRing (T : Type) (w : PowTwo) where
  buf : Fin w.size → T
  tail : UInt64 := 0
  cachedHead : UInt64 := 0
  head : UInt64 := 0
  cachedTail : UInt64 := 0

namespace SpscRing

/-- How far the producer is in `try_push`, with the local variables that are live there. -/
inductive Producer (T : Type)
  | idle
  | viewing (item : T) (t : UInt64)
  | writing (item : T) (t : UInt64)
  | publishing (item : T) (t : UInt64)
  deriving DecidableEq, Repr

/-- How far the consumer is in `try_pop`. -/
inductive Consumer (T : Type)
  | idle
  | viewing (h : UInt64)
  | reading (h : UInt64)
  | publishing (h : UInt64) (out : T)
  deriving DecidableEq, Repr

/-- Both sides at work. `tails` and `heads` are all values a cursor was published with, the
oldest first; a side's latest view is an index into the other side's list. -/
structure Session (T : Type) (w : PowTwo) where
  ring : SpscRing T w
  producer : Producer T := .idle
  consumer : Consumer T := .idle
  tails : List UInt64 := [0]
  heads : List UInt64 := [0]
  headSeen : Nat := 0
  tailSeen : Nat := 0
  pushed : List (T × Fin w.size) := []
  popped : List T := []

inductive Action (T : Type)
  | readTail (item : T)
  | trustHead
  | viewHead (i : Nat)
  | writeSlot
  | publishTail
  | readHead
  | trustTail
  | viewTail (i : Nat)
  | readSlot
  | publishHead
  deriving DecidableEq, Repr

variable {T : Type} {w : PowTwo}

/-- The test `t - head >= Capacity` on wrapping cursors. -/
def looksFull (w : PowTwo) (t head : UInt64) : Bool :=
  UInt64.ofNat w.size ≤ t - head

/-- A view that the far side has published and that is not older than the view before. -/
def view (published : List UInt64) (seen i : Nat) : Option UInt64 :=
  if seen ≤ i then published[i]? else none

/-- The producer obtains a view of head, and keeps it if it caches the far cursor. -/
def noteHead (cacheFarCursor : Bool) (s : Session T w) (i : Nat) (head : UInt64) : Session T w :=
  { s with
    ring := { s.ring with cachedHead := if cacheFarCursor then head else s.ring.cachedHead }
    headSeen := i }

/-- The consumer obtains a view of tail. -/
def noteTail (cacheFarCursor : Bool) (s : Session T w) (i : Nat) (tail : UInt64) : Session T w :=
  { s with
    ring := { s.ring with cachedTail := if cacheFarCursor then tail else s.ring.cachedTail }
    tailSeen := i }

/-- The steps of `try_push`. With a cached far cursor the real one is read only if the cache
says full. -/
def stepPush (cacheFarCursor : Bool) (s : Session T w) : Action T → Option (Session T w)
  | .readTail item =>
    match s.producer with
    | .idle => some { s with producer := .viewing item s.ring.tail }
    | _ => none
  | .trustHead =>
    match s.producer with
    | .viewing item t =>
      if cacheFarCursor ∧ ¬looksFull w t s.ring.cachedHead then
        some { s with producer := .writing item t }
      else none
    | _ => none
  | .viewHead i =>
    match s.producer with
    | .viewing item t =>
      if cacheFarCursor ∧ ¬looksFull w t s.ring.cachedHead then none
      else do
        let head ← view s.heads s.headSeen i
        if looksFull w t head then
          return { noteHead cacheFarCursor s i head with producer := .idle }
        else return { noteHead cacheFarCursor s i head with producer := .writing item t }
    | _ => none
  | .writeSlot =>
    match s.producer with
    | .writing item t =>
      some { s with
        ring := { s.ring with buf := Function.update s.ring.buf (w.index t) item }
        producer := .publishing item t }
    | _ => none
  | .publishTail =>
    match s.producer with
    | .publishing item t =>
      some { s with
        ring := { s.ring with tail := t + 1 }
        producer := .idle
        tails := s.tails ++ [t + 1]
        pushed := s.pushed ++ [(item, w.index t)] }
    | _ => none
  | _ => none

/-- The steps of `try_pop`. -/
def stepPop (cacheFarCursor : Bool) (s : Session T w) : Action T → Option (Session T w)
  | .readHead =>
    match s.consumer with
    | .idle => some { s with consumer := .viewing s.ring.head }
    | _ => none
  | .trustTail =>
    match s.consumer with
    | .viewing h =>
      if cacheFarCursor ∧ h ≠ s.ring.cachedTail then some { s with consumer := .reading h }
      else none
    | _ => none
  | .viewTail i =>
    match s.consumer with
    | .viewing h =>
      if cacheFarCursor ∧ h ≠ s.ring.cachedTail then none
      else do
        let tail ← view s.tails s.tailSeen i
        if h = tail then
          return { noteTail cacheFarCursor s i tail with consumer := .idle }
        else return { noteTail cacheFarCursor s i tail with consumer := .reading h }
    | _ => none
  | .readSlot =>
    match s.consumer with
    | .reading h => some { s with consumer := .publishing h (s.ring.buf (w.index h)) }
    | _ => none
  | .publishHead =>
    match s.consumer with
    | .publishing h out =>
      some { s with
        ring := { s.ring with head := h + 1 }
        consumer := .idle
        heads := s.heads ++ [h + 1]
        popped := s.popped ++ [out] }
    | _ => none
  | _ => none

/-- One step of either side. -/
def step (cacheFarCursor : Bool) (s : Session T w) (a : Action T) : Option (Session T w) :=
  match a with
  | .readTail _ | .trustHead | .viewHead _ | .writeSlot | .publishTail =>
    stepPush cacheFarCursor s a
  | .readHead | .trustTail | .viewTail _ | .readSlot | .publishHead =>
    stepPop cacheFarCursor s a

/-- An interleaving of steps, from an empty ring with any buffer contents. -/
def run (cacheFarCursor : Bool) (buf : Fin w.size → T) (actions : List (Action T)) :
    Option (Session T w) :=
  actions.foldlM (step cacheFarCursor) { ring := { buf := buf } }

/-- The slot that a step writes. -/
def writtenSlot (s : Session T w) : Action T → Option (Fin w.size)
  | .writeSlot =>
    match s.producer with
    | .writing _ t => some (w.index t)
    | _ => none
  | _ => none

/-- Items published by the producer that the consumer has not yet published having read. -/
def outstanding (s : Session T w) : List (T × Fin w.size) :=
  s.pushed.drop s.popped.length

end SpscRing

end OhlcvValidator
