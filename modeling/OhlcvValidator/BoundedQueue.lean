import OhlcvValidator.Transducer

namespace OhlcvValidator

/-- A call on a queue. -/
inductive QueueCall (α : Type)
  | push (item : α)
  | pop
  deriving DecidableEq, Repr

/-- What a call returns; a `pop` that succeeds also hands out an item. -/
inductive QueueReply (α : Type)
  | pushed (ok : Bool)
  | popped (item : Option α)
  deriving DecidableEq, Repr

def QueueReply.ok {α : Type} : QueueReply α → Bool
  | .pushed ok => ok
  | .popped item => item.isSome

/-- A first-in first-out queue that holds at most `capacity` items, the oldest first. -/
def boundedQueue {α : Type} (capacity : Nat) (q : List α) :
    QueueCall α → List α × QueueReply α
  | .push item => if q.length < capacity then (q ++ [item], .pushed true) else (q, .pushed false)
  | .pop =>
    match q with
    | [] => ([], .popped none)
    | item :: q => (q, .popped (some item))

end OhlcvValidator
