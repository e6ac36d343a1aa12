import OhlcvValidator.LiveCapture
import OhlcvValidator.Timestamp

namespace OhlcvValidator

namespace Ingest

open Replay (DoubleBits)
open Timestamp (parseRfc3339Nano)

/-- A JSON value as the accessors see it: a number is read as a double and, if it is one, as an
unsigned 64-bit integer. -/
inductive Value
  | string (s : List UInt8)
  | number (double : Option DoubleBits) (uint64 : Option UInt64)
  | other
  deriving DecidableEq, Repr

/-- The lookups `obj[key]`. -/
abbrev Object := List UInt8 → Option Value

/-- An element of the frame's array. -/
inductive Element
  | object (obj : Object)
  | other

/-- A frame that is JSON: an array, or something else. -/
inductive Document
  | array (elements : List Element)
  | other

structure ParsedFrame extends ParseResult where
  errors : List (List UInt8) := []
  unknownTypes : List (List UInt8) := []
  hasConnectedAck : Bool := false
  hasAuthenticatedAck : Bool := false
  hasSubscriptionAck : Bool := false
  deriving DecidableEq, Repr

def getString (obj : Object) (key : String) : List UInt8 :=
  match obj (ascii key) with
  | some (.string s) => s
  | _ => []

def getDouble (obj : Object) (key : String) : DoubleBits :=
  match obj (ascii key) with
  | some (.number (some v) _) => v
  | _ => 0

def getU64 (obj : Object) (key : String) : UInt64 :=
  match obj (ascii key) with
  | some (.number _ (some v)) => v
  | _ => 0

section Parser

variable (other : Int → Int → Int → Int)

/-- The field `t`, which is parsed unless it is empty; a record's own stamp is 0. -/
def getStamp (obj : Object) : Except RuntimeError UInt64 :=
  let ts := getString obj "t"
  if ts.isEmpty then pure 0 else parseRfc3339Nano other ts

def tradeOf (obj : Object) (tsNs : UInt64) : Trade where
  symbol := getString obj "S"
  tradeId := getU64 obj "i"
  exchange := getString obj "x"
  price := getDouble obj "p"
  size := getU64 obj "s"
  tape := getString obj "z"
  tsNs := tsNs

def parseTrade (obj : Object) (out : ParsedFrame) : Except RuntimeError ParsedFrame := do
  let tsNs ← getStamp other obj
  pure { out with trades := out.trades ++ [tradeOf obj tsNs] }

def barOf (obj : Object) (startNs : UInt64) : Bar where
  symbol := getString obj "S"
  openPrice := getDouble obj "o"
  high := getDouble obj "h"
  low := getDouble obj "l"
  close := getDouble obj "c"
  volume := getU64 obj "v"
  tradeCount := getU64 obj "n"
  vwap := getDouble obj "vw"
  startNs := startNs

def parseBar (obj : Object) (out : ParsedFrame) : Except RuntimeError ParsedFrame := do
  let startNs ← getStamp other obj
  pure { out with bars := out.bars ++ [barOf obj startNs] }

def quoteOf (obj : Object) (tsNs : UInt64) : Quote where
  symbol := getString obj "S"
  bidExchange := getString obj "bx"
  bidPrice := getDouble obj "bp"
  bidSize := getU64 obj "bs"
  askExchange := getString obj "ax"
  askPrice := getDouble obj "ap"
  askSize := getU64 obj "as"
  tape := getString obj "z"
  tsNs := tsNs

def parseQuote (obj : Object) (out : ParsedFrame) : Except RuntimeError ParsedFrame := do
  let tsNs ← getStamp other obj
  pure { out with quotes := out.quotes ++ [quoteOf obj tsNs] }

def parseSuccess (obj : Object) (out : ParsedFrame) : ParsedFrame :=
  let msg := getString obj "msg"
  if msg = ascii "connected" then { out with hasConnectedAck := true }
  else if msg = ascii "authenticated" then { out with hasAuthenticatedAck := true }
  else out

def parseError (obj : Object) (out : ParsedFrame) : ParsedFrame :=
  { out with errors := out.errors ++ [getString obj "msg"] }

/-- The body of the loop over the array. -/
def parseElement (out : ParsedFrame) : Element → Except RuntimeError ParsedFrame
  | .other => pure { out with unknownTypes := out.unknownTypes ++ [ascii "<not an object>"] }
  | .object obj =>
    match obj (ascii "T") with
    | some (.string type) =>
      if type = ascii "t" then parseTrade other obj out
      else if type = ascii "q" then parseQuote other obj out
      else if type = ascii "b" then parseBar other obj out
      else if type = ascii "success" then pure (parseSuccess obj out)
      else if type = ascii "subscription" then pure { out with hasSubscriptionAck := true }
      else if type = ascii "error" then pure (parseError obj out)
      else pure { out with unknownTypes := out.unknownTypes ++ [type] }
    | _ => pure { out with unknownTypes := out.unknownTypes ++ [ascii "<missing T>"] }

def parse : Document → Except RuntimeError ParsedFrame
  | .other => throw ⟨ascii "frame is not a JSON array"⟩
  | .array elements => elements.foldlM (parseElement other) {}

end Parser

/-- What one element says. -/
inductive Entry
  | trade (t : Trade)
  | quote (q : Quote)
  | bar (b : Bar)
  | success (msg : List UInt8)
  | subscription
  | error (msg : List UInt8)
  | unknown (label : List UInt8)
  deriving DecidableEq, Repr

namespace Entry

def trade? : Entry → Option Trade
  | trade t => some t
  | _ => none

def quote? : Entry → Option Quote
  | quote q => some q
  | _ => none

def bar? : Entry → Option Bar
  | bar b => some b
  | _ => none

def error? : Entry → Option (List UInt8)
  | error msg => some msg
  | _ => none

def unknown? : Entry → Option (List UInt8)
  | unknown label => some label
  | _ => none

/-- The frame with one more entry. -/
def push (out : ParsedFrame) : Entry → ParsedFrame
  | trade t => { out with trades := out.trades ++ [t] }
  | quote q => { out with quotes := out.quotes ++ [q] }
  | bar b => { out with bars := out.bars ++ [b] }
  | success msg =>
    if msg = ascii "connected" then { out with hasConnectedAck := true }
    else if msg = ascii "authenticated" then { out with hasAuthenticatedAck := true }
    else out
  | subscription => { out with hasSubscriptionAck := true }
  | error msg => { out with errors := out.errors ++ [msg] }
  | unknown label => { out with unknownTypes := out.unknownTypes ++ [label] }

end Entry

/-- An element by itself. -/
def Element.entry (other : Int → Int → Int → Int) : Element → Except RuntimeError Entry
  | .other => .ok (.unknown (ascii "<not an object>"))
  | .object obj =>
    match obj (ascii "T") with
    | some (.string type) =>
      if type = ascii "t" then (getStamp other obj).map fun ts => .trade (tradeOf obj ts)
      else if type = ascii "q" then (getStamp other obj).map fun ts => .quote (quoteOf obj ts)
      else if type = ascii "b" then (getStamp other obj).map fun ts => .bar (barOf obj ts)
      else if type = ascii "success" then .ok (.success (getString obj "msg"))
      else if type = ascii "subscription" then .ok .subscription
      else if type = ascii "error" then .ok (.error (getString obj "msg"))
      else .ok (.unknown type)
    | _ => .ok (.unknown (ascii "<missing T>"))

section Elements

variable {other : Int → Int → Int → Int}

/-- The loop's body adds what the element says. -/
theorem parseElement_eq (out : ParsedFrame) (e : Element) :
    parseElement other out e = (e.entry other).map (Entry.push out) := by
  have hstamp : ∀ obj (f : UInt64 → Entry), ((getStamp other obj).map f).map (Entry.push out) =
      getStamp other obj >>= fun ts => pure (Entry.push out (f ts)) := by
    intro obj f
    cases getStamp other obj <;> rfl
  cases e with
  | other => rfl
  | object obj =>
    unfold parseElement Element.entry
    dsimp only
    split
    next =>
      split_ifs
      · exact (hstamp obj fun ts => .trade (tradeOf obj ts)).symm
      · exact (hstamp obj fun ts => .quote (quoteOf obj ts)).symm
      · exact (hstamp obj fun ts => .bar (barOf obj ts)).symm
      all_goals rfl
    next => rfl

/-- The elements' entries, if all of them have one, are pushed in array order. -/
theorem foldlM_parseElement {es : List Element} {entries : List Entry}
    (h : List.Forall₂ (fun e x => e.entry other = .ok x) es entries) (out : ParsedFrame) :
    es.foldlM (parseElement other) out = .ok (entries.foldl Entry.push out) := by
  induction h generalizing out with
  | nil => rfl
  | cons hx _ ih =>
    rw [List.foldlM_cons, parseElement_eq, hx]
    exact ih _

/-- An entry goes to the list of its kind. -/
theorem push_lists (out : ParsedFrame) (x : Entry) :
    (x.push out).trades = out.trades ++ x.trade?.toList ∧
      (x.push out).quotes = out.quotes ++ x.quote?.toList ∧
      (x.push out).bars = out.bars ++ x.bar?.toList ∧
      (x.push out).errors = out.errors ++ x.error?.toList ∧
      (x.push out).unknownTypes = out.unknownTypes ++ x.unknown?.toList := by
  cases x with
  | success msg =>
    unfold Entry.push
    dsimp only
    split_ifs <;> simp [Entry.trade?, Entry.quote?, Entry.bar?, Entry.error?, Entry.unknown?]
  | _ => simp [Entry.push, Entry.trade?, Entry.quote?, Entry.bar?, Entry.error?, Entry.unknown?]

theorem foldl_push (entries : List Entry) (out : ParsedFrame) :
    (entries.foldl Entry.push out).trades = out.trades ++ entries.filterMap Entry.trade? ∧
      (entries.foldl Entry.push out).quotes = out.quotes ++ entries.filterMap Entry.quote? ∧
      (entries.foldl Entry.push out).bars = out.bars ++ entries.filterMap Entry.bar? ∧
      (entries.foldl Entry.push out).errors = out.errors ++ entries.filterMap Entry.error? ∧
      (entries.foldl Entry.push out).unknownTypes =
        out.unknownTypes ++ entries.filterMap Entry.unknown? := by
  have hcons : ∀ {β : Type} (f : Entry → Option β) x xs,
      List.filterMap f (x :: xs) = (f x).toList ++ xs.filterMap f := by
    intro β f x xs
    cases h : f x <;> simp [h]
  induction entries generalizing out with
  | nil => simp
  | cons x entries ih =>
    obtain ⟨htrades, hquotes, hbars, herrors, hunknown⟩ := push_lists out x
    have hrest := ih (x.push out)
    rw [htrades, hquotes, hbars, herrors, hunknown] at hrest
    simpa only [List.foldl_cons, hcons, List.append_assoc] using hrest

/-- If the element is a record, its timestamp is missing or can be parsed. -/
def Element.Stamped (other : Int → Int → Int → Int) : Element → Prop
  | .other => True
  | .object obj => getString obj "T" ∈ [ascii "t", ascii "q", ascii "b"] →
      getString obj "t" = [] ∨ ∃ v, parseRfc3339Nano other (getString obj "t") = .ok v

theorem getStamp_ok_iff {obj : Object} :
    (∃ v, getStamp other obj = .ok v) ↔
      getString obj "t" = [] ∨ ∃ v, parseRfc3339Nano other (getString obj "t") = .ok v := by
  unfold getStamp
  dsimp only
  split
  next hempty => exact iff_of_true ⟨0, rfl⟩ (Or.inl (List.isEmpty_iff.mp hempty))
  next hempty => exact (or_iff_right fun h => hempty (List.isEmpty_iff.mpr h)).symm

/-- An element has an entry exactly if its timestamp does not stop the parser. -/
theorem Element.entry_ok_iff {e : Element} : (∃ x, e.entry other = .ok x) ↔ e.Stamped other := by
  cases e with
  | other => exact iff_of_true ⟨_, rfl⟩ trivial
  | object obj =>
    have hmap : ∀ f : UInt64 → Entry, (∃ x, (getStamp other obj).map f = .ok x) ↔
        getString obj "t" = [] ∨ ∃ v, parseRfc3339Nano other (getString obj "t") = .ok v := by
      intro f
      rw [← getStamp_ok_iff]
      cases getStamp other obj <;> simp [Except.map]
    unfold Element.entry Element.Stamped
    dsimp only
    split
    next type htype =>
      have hT : getString obj "T" = type := by simp [getString, htype]
      rw [hT]
      split_ifs with ht hq hb
      · simpa [ht] using hmap _
      · simpa [hq] using hmap _
      · simpa [hb] using hmap _
      all_goals exact iff_of_true ⟨_, rfl⟩ fun h => absurd h (by simp [ht, hq, hb])
    next hnone =>
      have hT : getString obj "T" = [] := by
        unfold getString
        split
        next type htype => exact absurd htype (hnone type)
        next => rfl
      refine iff_of_true ⟨_, rfl⟩ fun h => ?_
      rw [hT] at h
      exact absurd h (by decide)

/-- A frame has an entry for each element exactly if none of them stops the parser. -/
theorem exists_entries_iff {es : List Element} :
    (∃ entries, List.Forall₂ (fun e x => e.entry other = .ok x) es entries) ↔
      ∀ e ∈ es, e.Stamped other := by
  induction es with
  | nil => exact iff_of_true ⟨[], List.Forall₂.nil⟩ (by simp)
  | cons e es ih =>
    rw [List.forall_mem_cons, ← ih, ← Element.entry_ok_iff]
    constructor
    · rintro ⟨_, hentries⟩
      cases hentries with
      | cons hx hrest => exact ⟨⟨_, hx⟩, _, hrest⟩
    · rintro ⟨⟨x, hx⟩, entries, hentries⟩
      exact ⟨x :: entries, List.Forall₂.cons hx hentries⟩

/-- A frame that is parsed has an entry for each element. -/
theorem entries_of_parse {es : List Element} {out out' : ParsedFrame}
    (h : es.foldlM (parseElement other) out = .ok out') :
    ∃ entries, List.Forall₂ (fun e x => e.entry other = .ok x) es entries := by
  induction es generalizing out with
  | nil => exact ⟨[], List.Forall₂.nil⟩
  | cons e es ih =>
    rw [List.foldlM_cons, parseElement_eq] at h
    cases he : e.entry other with
    | error err =>
      rw [he] at h
      cases h
    | ok x =>
      rw [he] at h
      obtain ⟨entries, hentries⟩ := ih h
      exact ⟨x :: entries, List.Forall₂.cons he hentries⟩

/-- One record whose timestamp cannot be parsed makes the parser throw, and nothing else does. -/
theorem parse_throws_iff (es : List Element) :
    (∃ err, parse other (.array es) = .error err) ↔ ∃ e ∈ es, ¬e.Stamped other := by
  constructor
  · rintro ⟨err, herr⟩
    by_contra hnone
    push Not at hnone
    obtain ⟨entries, hentries⟩ := exists_entries_iff.mpr hnone
    rw [parse, foldlM_parseElement hentries] at herr
    cases herr
  · rintro ⟨e, he, hbad⟩
    cases hparse : parse other (.array es) with
    | error err => exact ⟨err, rfl⟩
    | ok out => exact absurd (exists_entries_iff.mp (entries_of_parse hparse) e he) hbad

/-- Every element of a frame has its one entry, whatever the others are, and the frame holds the
entries of each kind in array order, exactly if no timestamp of a record stops the parser; if one
does, the parser throws. -/
theorem parse_elementwise (other : Int → Int → Int → Int) (es : List Element) :
    ((∃ out entries, parse other (.array es) = .ok out ∧
      List.Forall₂ (fun e x => e.entry other = .ok x) es entries ∧
      out.trades = entries.filterMap Entry.trade? ∧
      out.quotes = entries.filterMap Entry.quote? ∧
      out.bars = entries.filterMap Entry.bar? ∧
      out.errors = entries.filterMap Entry.error? ∧
      out.unknownTypes = entries.filterMap Entry.unknown?) ↔ ∀ e ∈ es, e.Stamped other) ∧
    ((∃ err, parse other (.array es) = .error err) ↔ ∃ e ∈ es, ¬e.Stamped other) := by
  refine ⟨⟨?_, ?_⟩, parse_throws_iff es⟩
  · rintro ⟨_, entries, _, hentries, _⟩
    exact exists_entries_iff.mp ⟨entries, hentries⟩
  · intro h
    obtain ⟨entries, hentries⟩ := exists_entries_iff.mpr h
    refine ⟨_, entries, foldlM_parseElement hentries {}, hentries, ?_⟩
    simpa using foldl_push entries {}

end Elements

/-- A text as a value. -/
def Value.text (s : String) : Value :=
  .string (ascii s)

/-- An object with the given fields. -/
def Element.ofFields (fields : List (String × Value)) : Element :=
  .object fun key => (fields.find? fun f => ascii f.1 = key).map Prod.snd

/-- A trade, a bar without a timestamp and a message of no known type. -/
def mixedFrame : List Element :=
  [.ofFields [("T", .text "t"), ("S", .text "AAPL"), ("t", .text "2024-01-02T03:04:05.6Z")],
    .ofFields [("T", .text "b"), ("S", .text "AAPL")], .ofFields [("T", .text "l")]]

/-- A trade whose timestamp cannot be parsed. -/
def badStamp : Element :=
  .ofFields [("T", .text "t"), ("S", .text "AAPL"), ("t", .text "yesterday")]

/-- One such trade loses the frame that it is in. -/
theorem badStamp_loses_frame :
    (∃ out, parse (fun _ _ _ => 0) (.array mixedFrame) = .ok out ∧ out.trades.length = 1) ∧
      parse (fun _ _ _ => 0) (.array (mixedFrame ++ [badStamp])) =
        .error ⟨ascii "malformed timestamp: yesterday"⟩ :=
  ⟨⟨_, rfl, by decide +kernel⟩, by decide +kernel⟩

end Ingest

end OhlcvValidator
