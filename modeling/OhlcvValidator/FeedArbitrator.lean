import OhlcvValidator.BoundedLoop
import OhlcvValidator.MaskIndex

namespace OhlcvValidator

/-- The two redundant lines; a packet carries the value as a raw byte. -/
inductive Line
  | A
  | B
  deriving DecidableEq, Repr

def Line.toByte : Line → UInt8
  | .A => 0
  | .B => 1

/-- One sequenced message. The payload is only ever copied, so its type stays open. -/
structure FeedPacket (ρ : Type) where
  seq : UInt64
  line : UInt8
  record : ρ
  deriving DecidableEq, Repr

structure FeedArbitrator.Stats where
  delivered : UInt64 := 0
  duplicates : Fin 2 → UInt64 := fun _ => 0
  gaps : UInt64 := 0
  maxReorder : UInt64 := 0
  rejected : UInt64 := 0

structure FeedArbitrator.Slot (ρ : Type) [Inhabited ρ] where
  occupied : Bool := false
  seq : UInt64 := 0
  record : ρ := default

/-- The arbitrator's fields; the reorder ring has one slot per low-bits value. -/
structure FeedArbitrator (ρ : Type) [Inhabited ρ] (w : PowTwo) where
  buf : Fin w.size → FeedArbitrator.Slot ρ := fun _ => {}
  frontier : UInt64 := 0
  occupied : UInt64 := 0
  started : Bool := false
  stats : FeedArbitrator.Stats := {}

/-- An arbitrator together with the calls its sink has received, in order. -/
abbrev FeedSession (ρ : Type) [Inhabited ρ] (w : PowTwo) :=
  FeedArbitrator ρ w × List (UInt64 × ρ)

namespace FeedArbitrator

variable {ρ : Type} [Inhabited ρ] {w : PowTwo}

def kMaxGap : UInt64 := (1 : UInt64) <<< 20

/-- The `duplicates` index of a packet: every byte other than line B counts as line A. -/
def lineIndex (pkt : FeedPacket ρ) : Fin 2 :=
  if pkt.line = Line.B.toByte then 1 else 0

def Stats.addDuplicate (s : Stats) (ln : Fin 2) : Stats :=
  { s with duplicates := Function.update s.duplicates ln (s.duplicates ln + 1) }

def frontSlot (a : FeedArbitrator ρ w) : Slot ρ :=
  a.buf (w.index a.frontier)

/-- The message at the frontier is buffered. -/
def frontReady (a : FeedArbitrator ρ w) : Bool :=
  a.frontSlot.occupied && a.frontSlot.seq == a.frontier

/-- Hand the buffered frontier message to the sink and free its slot. -/
def deliverFront (st : FeedSession ρ w) : FeedSession ρ w :=
  let a := st.1
  ({ a with
      buf := Function.update a.buf (w.index a.frontier) { a.frontSlot with occupied := false }
      occupied := a.occupied - 1
      stats := { a.stats with delivered := a.stats.delivered + 1 } },
    st.2 ++ [(a.frontier, a.frontSlot.record)])

def countGap (st : FeedSession ρ w) : FeedSession ρ w :=
  ({ st.1 with stats := { st.1.stats with gaps := st.1.stats.gaps + 1 } }, st.2)

def bumpFrontier (st : FeedSession ρ w) : FeedSession ρ w :=
  ({ st.1 with frontier := st.1.frontier + 1 }, st.2)

/-- The release loop frees one slot a turn, so a budget of one turn per slot is enough. -/
def releasePrefix (st : FeedSession ρ w) : Option (FeedSession ρ w) :=
  whileLoop (fun st => st.1.frontReady) (fun st => some (bumpFrontier (deliverFront st))) w.size st

def advanceFrontier (st : FeedSession ρ w) : Option (FeedSession ρ w) :=
  if st.1.frontReady then releasePrefix (bumpFrontier (deliverFront st))
  else releasePrefix (bumpFrontier (countGap st))

/-- Anchor the session at the first sequence seen. -/
def anchor (seq : UInt64) (st : FeedSession ρ w) : FeedSession ρ w :=
  if st.1.started then st else ({ st.1 with frontier := seq, started := true }, st.2)

def noteDepth (seq : UInt64) (st : FeedSession ρ w) : FeedSession ρ w :=
  let a := st.1
  if a.stats.maxReorder < seq - a.frontier then
    ({ a with stats := { a.stats with maxReorder := seq - a.frontier } }, st.2)
  else st

def addDuplicate (ln : Fin 2) (st : FeedSession ρ w) : FeedSession ρ w :=
  ({ st.1 with stats := st.1.stats.addDuplicate ln }, st.2)

/-- Buffer a packet that fits the window, or count it as the other line's copy. -/
def place (pkt : FeedPacket ρ) (st : FeedSession ρ w) : Option (FeedSession ρ w) :=
  let a := st.1
  let s := a.buf (w.index pkt.seq)
  if s.occupied then
    -- a slot taken by a different sequence counts nothing, as in the source
    if s.seq = pkt.seq then some (addDuplicate (lineIndex pkt) st) else some st
  else
    releasePrefix
      ({ a with
          buf := Function.update a.buf (w.index pkt.seq) ⟨true, pkt.seq, pkt.record⟩
          occupied := a.occupied + 1 },
        st.2)

/-- Force the frontier forward until `seq` fits the window. -/
def makeRoom (seq : UInt64) (st : FeedSession ρ w) : Option (FeedSession ρ w) :=
  whileLoop (fun st => decide (w.size ≤ (seq - st.1.frontier).toNat)) advanceFrontier
    kMaxGap.toNat st

def offer (pkt : FeedPacket ρ) (st : FeedSession ρ w) : Option (FeedSession ρ w) :=
  let st := anchor pkt.seq st
  let a := st.1
  if pkt.seq < a.frontier then some (addDuplicate (lineIndex pkt) st)
  else if kMaxGap < pkt.seq - a.frontier then
    some ({ a with stats := { a.stats with rejected := a.stats.rejected + 1 } }, st.2)
  else (makeRoom pkt.seq st).bind fun st => place pkt (noteDepth pkt.seq st)

def flush (st : FeedSession ρ w) : Option (FeedSession ρ w) :=
  whileLoop (fun st => decide (0 < st.1.occupied)) advanceFrontier w.size st

end FeedArbitrator

/-- A call of the arbitrator's public interface. -/
inductive FeedCall (ρ : Type)
  | offer (pkt : FeedPacket ρ)
  | flush
  deriving DecidableEq, Repr

/-- The sequences a run may offer: the top word stays free, so that the frontier
past the last sequence is a word too. -/
def FeedCall.Bounded {ρ : Type} : FeedCall ρ → Prop
  | .offer pkt => pkt.seq.toNat ≤ 2 ^ 64 - 2
  | .flush => True

instance {ρ : Type} (c : FeedCall ρ) : Decidable c.Bounded :=
  match c with
  | .offer pkt => inferInstanceAs (Decidable (pkt.seq.toNat ≤ 2 ^ 64 - 2))
  | .flush => inferInstanceAs (Decidable True)

namespace FeedArbitrator

variable {ρ : Type} [Inhabited ρ] {w : PowTwo}

def call (st : FeedSession ρ w) : FeedCall ρ → Option (FeedSession ρ w)
  | .offer pkt => offer pkt st
  | .flush => flush st

/-- A run of calls on a fresh arbitrator whose sink has received nothing yet. -/
def run (w : PowTwo) (calls : List (FeedCall ρ)) : Option (FeedSession ρ w) :=
  calls.foldlM call (({} : FeedArbitrator ρ w), [])

end FeedArbitrator

end OhlcvValidator
