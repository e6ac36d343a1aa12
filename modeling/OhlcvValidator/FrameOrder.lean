import OhlcvValidator.BarReconstruction
import OhlcvValidator.FrameParser

namespace OhlcvValidator

namespace Validator

section Reordering

variable {F : Type} [PriceArith F] {recs recs' : List (WireRecord F)}

theorem accepts_iff_symbols (recs : List (WireRecord F)) (symbol : Symbol) :
    (Roster.run recs).1.Accepts (symbolKey symbol) ↔
      symbol ∈ firstDistinct kCapacity (recs.map WireRecord.symbol) ∨
        (firstDistinct kCapacity (recs.map WireRecord.symbol)).length < kCapacity := by
  have hkeys : keysOf recs = (recs.map WireRecord.symbol).map symbolKey := by simp [keysOf]
  rw [accepts_run_iff, hkeys, firstDistinct_map symbolKey_injective,
    List.mem_map_of_injective symbolKey_injective, List.length_map]

/-- Where each symbol's records come in the same order, the states of all symbols are the same
exactly if the same symbols get a slot. -/
theorem slotState_congr_iff (h : ∀ symbol, recs.filter (fun q => q.symbol = symbol) =
      recs'.filter fun q => q.symbol = symbol) :
    (∀ symbol, (run recs).1.slotState symbol = (run recs').1.slotState symbol) ↔
      ∀ symbol, symbol ∈ firstDistinct kCapacity (recs.map WireRecord.symbol) ↔
        symbol ∈ firstDistinct kCapacity (recs'.map WireRecord.symbol) := by
  have hmem : ∀ {rs : List (WireRecord F)} (sym : Symbol),
      sym ∈ rs.map WireRecord.symbol ↔ rs.filter (fun q => q.symbol = sym) ≠ [] := by
    intro rs sym
    simp [List.filter_eq_nil_iff]
  have hsame : ∀ sym, sym ∈ recs.map WireRecord.symbol ↔ sym ∈ recs'.map WireRecord.symbol := by
    intro sym
    rw [hmem, hmem, h]
  rw [← firstDistinct_room_congr hsame]
  refine forall_congr' fun symbol => ?_
  rw [← accepts_iff_symbols, ← accepts_iff_symbols, slotState_run, slotState_run, h symbol]
  by_cases hacc : (Roster.run recs).1.Accepts (symbolKey symbol) <;>
    by_cases hacc' : (Roster.run recs').1.Accepts (symbolKey symbol) <;> simp [hacc, hacc']

end Reordering

end Validator

namespace Ingest

open Replay (DoubleBits)

/-- A record of a frame. -/
inductive Record
  | trade (t : Trade)
  | quote (q : Quote)
  | bar (b : Bar)
  deriving DecidableEq, Repr

namespace Record

def symbol : Record → List UInt8
  | trade t => t.symbol
  | quote q => q.symbol
  | bar b => b.symbol

/-- The loop that takes a record. -/
def loop : Record → Nat
  | trade _ => 0
  | quote _ => 1
  | bar _ => 2

def toModel {F : Type} (ofBits : DoubleBits → F) (seq : UInt64) : Record → WireRecord F
  | trade t => .trade ((t.toWire seq).toModel ofBits)
  | quote q => .quote ((q.toWire seq).toModel ofBits)
  | bar b => .bar ((b.toWire seq).toModel ofBits)

def wrap (seq : UInt64) : Record → Replay.WireRecord
  | trade t => (t.toWire seq).wrap
  | quote q => (q.toWire seq).wrap
  | bar b => (b.toWire seq).wrap

theorem symbol_toModel {F : Type} (ofBits : DoubleBits → F) (seq : UInt64) (r : Record) :
    (r.toModel ofBits seq).symbol = setSymbol r.symbol := by
  cases r <;> rfl

end Record

/-- The records of a frame in the order of the three loops. -/
def ParseResult.records (parsed : ParseResult) : List Record :=
  parsed.trades.map .trade ++ parsed.quotes.map .quote ++ parsed.bars.map .bar

def Entry.record? : Entry → Option Record
  | .trade t => some (.trade t)
  | .quote q => some (.quote q)
  | .bar b => some (.bar b)
  | _ => none

/-- The records of a frame in the order of its array. -/
def arrivals (other : Int → Int → Int → Int) (es : List Element) : List Record :=
  es.filterMap fun e => (e.entry other).toOption.bind Entry.record?

/-- The symbols under which the records are validated, as their eight bytes. -/
def tickers (recs : List Record) : List Symbol :=
  (recs.filter fun r => !r.symbol.isEmpty).map fun r => setSymbol r.symbol

/-- The records of one symbol. -/
def ofTicker (w : Symbol) (recs : List Record) : List Record :=
  recs.filter fun r => setSymbol r.symbol = w && !r.symbol.isEmpty

theorem ofTicker_append (w : Symbol) (recs recs' : List Record) :
    ofTicker w (recs ++ recs') = ofTicker w recs ++ ofTicker w recs' :=
  List.filter_append ..

namespace Session

section Number

variable {F : Type} (ofBits : DoubleBits → F)

/-- The records that the loops do not skip, with the numbers they get. -/
def numbered (next : List UInt8 → UInt64) : List Record → List (Record × UInt64)
  | [] => []
  | r :: rs =>
    if r.symbol.isEmpty then numbered next rs
    else (r, next r.symbol + 1) ::
      numbered (Function.update next r.symbol (next r.symbol + 1)) rs

/-- What the validator gets of them. -/
def number (next : List UInt8 → UInt64) (recs : List Record) : List (WireRecord F) :=
  (numbered next recs).map fun p => p.1.toModel ofBits p.2

/-- A symbol's records are numbered by themselves. -/
theorem filter_numbered (w : Symbol) {next next' : List UInt8 → UInt64}
    (h : ∀ sym, setSymbol sym = w → next sym = next' sym) (recs : List Record) :
    (numbered next recs).filter (fun p => setSymbol p.1.symbol = w) =
      numbered next' (ofTicker w recs) := by
  induction recs generalizing next next' with
  | nil => rfl
  | cons r recs ih =>
    by_cases he : r.symbol.isEmpty = true
    · rw [numbered, if_pos he, ofTicker, List.filter_cons_of_neg (by simp [he])]
      exact ih h
    · rw [numbered, if_neg he]
      by_cases hr : setSymbol r.symbol = w
      · rw [ofTicker, List.filter_cons_of_pos (by simpa using hr),
          List.filter_cons_of_pos (by simpa [hr] using he), numbered, if_neg he, h _ hr]
        refine congrArg _ (ih fun sym hsym => ?_)
        by_cases hs : sym = r.symbol
        · rw [hs, Function.update_self, Function.update_self]
        · rw [Function.update_of_ne hs, Function.update_of_ne hs, h sym hsym]
      · rw [ofTicker, List.filter_cons_of_neg (by simpa using hr),
          List.filter_cons_of_neg (by simp [hr])]
        refine ih fun sym hsym => ?_
        have hne : sym ≠ r.symbol := by
          rintro rfl
          exact hr hsym
        rw [Function.update_of_ne hne, h sym hsym]

theorem map_fst_numbered (next : List UInt8 → UInt64) (recs : List Record) :
    (numbered next recs).map Prod.fst = recs.filter fun r => !r.symbol.isEmpty := by
  induction recs generalizing next with
  | nil => rfl
  | cons r recs ih =>
    rw [numbered]
    split
    next h => rw [ih, List.filter_cons_of_neg (by simp [h])]
    next h => rw [List.map_cons, ih, List.filter_cons_of_pos (by simp [h])]

theorem filter_number (w : Symbol) (next : List UInt8 → UInt64) (recs : List Record) :
    (number ofBits next recs).filter (fun q => q.symbol = w) =
      ((numbered next recs).filter fun p => setSymbol p.1.symbol = w).map
        fun p => p.1.toModel ofBits p.2 := by
  simp [number, List.filter_map, Function.comp_def, Record.symbol_toModel]

theorem map_symbol_number (next : List UInt8 → UInt64) (recs : List Record) :
    (number ofBits next recs).map WireRecord.symbol = tickers recs := by
  rw [tickers, ← map_fst_numbered next, number, List.map_map, List.map_map]
  exact List.map_congr_left fun p _ => Record.symbol_toModel ofBits p.2 p.1

end Number

variable {F : Type} [PriceArith F] (ofBits : DoubleBits → F)

def onRecord (s : Session F) : Record → Session F
  | .trade t => s.onTrade ofBits t
  | .quote q => s.onQuote ofBits q
  | .bar b => s.onBar ofBits b

theorem onFrame_eq (s : Session F) (parsed : ParseResult) :
    s.onFrame ofBits parsed = parsed.records.foldl (onRecord ofBits) s := by
  simp only [onFrame, ParseResult.records, List.foldl_append, List.foldl_map]
  rfl

theorem run_eq (frames : List ParseResult) :
    run ofBits frames = (frames.flatMap ParseResult.records).foldl (onRecord ofBits) {} := by
  rw [run, List.foldl_flatMap]
  congr
  funext s parsed
  exact onFrame_eq ofBits s parsed

theorem onRecord_eq (s : Session F) (r : Record) :
    s.onRecord ofBits r =
      s.process r.symbol (fun seq => r.toModel ofBits seq) fun seq => r.wrap seq := by
  cases r <;> rfl

theorem onRecord_of_empty {s : Session F} {r : Record} (h : r.symbol.isEmpty = true) :
    s.onRecord ofBits r = s := by
  rw [onRecord_eq, process, if_pos h]

theorem onRecord_of_nonempty {s : Session F} {r : Record} (h : ¬r.symbol.isEmpty = true) :
    (s.onRecord ofBits r).validator =
        (s.validator.check (r.toModel ofBits (s.nextSeq r.symbol + 1))).1 ∧
      (s.onRecord ofBits r).nextSeq =
        Function.update s.nextSeq r.symbol (s.nextSeq r.symbol + 1) ∧
      (s.onRecord ofBits r).capture = s.capture.write (r.wrap (s.nextSeq r.symbol + 1)) := by
  rw [onRecord_eq, process, if_neg h]
  exact ⟨rfl, rfl, rfl⟩

/-- The validator and the capture get the records with their numbers, one after the other. -/
theorem foldl_onRecord (s : Session F) (recs : List Record) :
    (recs.foldl (onRecord ofBits) s).validator =
        (transduce Validator.check s.validator (number ofBits s.nextSeq recs)).1 ∧
      (recs.foldl (onRecord ofBits) s).capture =
        (numbered s.nextSeq recs).foldl (fun w p => w.write (p.1.wrap p.2)) s.capture := by
  induction recs generalizing s with
  | nil => exact ⟨rfl, rfl⟩
  | cons r recs ih =>
    rw [List.foldl_cons, (ih _).1, (ih _).2, number, number, numbered]
    split
    next h =>
      rw [onRecord_of_empty ofBits h]
      exact ⟨rfl, rfl⟩
    next h =>
      obtain ⟨hvalidator, hnext, hcapture⟩ := onRecord_of_nonempty ofBits (s := s) h
      rw [hvalidator, hnext, hcapture]
      exact ⟨rfl, rfl⟩

/-- A symbol's counter is the number of its records. -/
theorem nextSeq_foldl (s : Session F) (sym : List UInt8) (recs : List Record) :
    (recs.foldl (onRecord ofBits) s).nextSeq sym =
      s.nextSeq sym + UInt64.ofNat (recs.countP fun r => r.symbol = sym ∧ r.symbol ≠ []) := by
  induction recs generalizing s with
  | nil => exact (UInt64.add_zero _).symm
  | cons r recs ih =>
    rw [List.foldl_cons, ih, List.countP_cons]
    by_cases he : r.symbol.isEmpty = true
    · rw [onRecord_of_empty ofBits he]
      simp [List.isEmpty_iff.mp he]
    · have hne : r.symbol ≠ [] := fun h => he (List.isEmpty_iff.mpr h)
      rw [(onRecord_of_nonempty ofBits he).2.1]
      by_cases hr : r.symbol = sym
      · subst hr
        rw [Function.update_self, UInt64.add_assoc, if_pos (by simpa using hne), UInt64.ofNat_add,
          UInt64.add_comm 1]
        rfl
      · rw [Function.update_of_ne (Ne.symm hr), if_neg (by simp [hr]), Nat.add_zero]

end Session

section Order

variable {other : Int → Int → Int → Int}

/-- The records that one of the loops takes. -/
def takenBy (k : Nat) (recs : List Record) : List Record :=
  recs.filter fun r => r.loop = k

theorem takenBy_cons (k : Nat) (a : Record) (recs : List Record) :
    takenBy k (a :: recs) = if a.loop = k then a :: takenBy k recs else takenBy k recs := by
  simp [takenBy, List.filter_cons]

theorem takenBy_filter (k : Nat) (p : Record → Bool) (recs : List Record) :
    (takenBy k recs).filter p = takenBy k (recs.filter p) := by
  simp [takenBy, Bool.and_comm]

theorem takenBy_perm (recs : List Record) :
    (takenBy 0 recs ++ takenBy 1 recs ++ takenBy 2 recs).Perm recs := by
  induction recs with
  | nil => exact List.Perm.refl _
  | cons a recs ih =>
    have hmiddle : ∀ {xs ys : List Record}, (xs ++ ys).Perm recs → (xs ++ a :: ys).Perm (a :: recs) :=
      fun h => List.perm_middle.trans (h.cons a)
    simp only [takenBy_cons]
    cases a with
    | trade t => simpa [Record.loop] using ih
    | quote q =>
      rw [List.append_assoc] at ih
      simpa [Record.loop] using hmiddle ih
    | bar b => simpa [Record.loop] using hmiddle ih

/-- Records that come in the order of the loops are taken in their own order. -/
theorem takenBy_append {recs : List Record} (h : recs.Pairwise fun a b => a.loop ≤ b.loop) :
    takenBy 0 recs ++ takenBy 1 recs ++ takenBy 2 recs = recs := by
  induction recs with
  | nil => rfl
  | cons a recs ih =>
    obtain ⟨hhead, htail⟩ := List.pairwise_cons.mp h
    have hnone : ∀ k, k < a.loop → takenBy k recs = [] := by
      intro k hk
      rw [takenBy, List.filter_eq_nil_iff]
      intro r hr
      have := hhead r hr
      simp
      omega
    have hrec := ih htail
    simp only [takenBy_cons]
    cases a with
    | trade t => exact congrArg (Record.trade t :: ·) hrec
    | quote q =>
      have h0 := hnone 0 Nat.zero_lt_one
      rw [h0] at hrec
      simpa [Record.loop, h0] using hrec
    | bar b =>
      have h0 := hnone 0 Nat.zero_lt_two
      have h1 := hnone 1 Nat.one_lt_two
      rw [h0, h1] at hrec
      simpa [Record.loop, h0, h1] using hrec

/-- The loops keep the order of some records exactly if these come as trades, quotes and bars. -/
theorem takenBy_append_iff {recs : List Record} :
    takenBy 0 recs ++ takenBy 1 recs ++ takenBy 2 recs = recs ↔
      recs.Pairwise fun a b => a.loop ≤ b.loop := by
  have hloop : ∀ {k r}, r ∈ takenBy k recs → r.loop = k := fun h => by
    simpa using (List.mem_filter.mp h).2
  have hsorted : (takenBy 0 recs ++ takenBy 1 recs ++ takenBy 2 recs).Pairwise
      fun a b => a.loop ≤ b.loop := by
    have hsame : ∀ k, (takenBy k recs).Pairwise fun a b => a.loop ≤ b.loop := fun k =>
      List.pairwise_of_forall_mem_list fun a ha b hb => (hloop ha).trans_le (hloop hb).ge
    simp only [List.pairwise_append, List.mem_append]
    refine ⟨⟨hsame 0, hsame 1, fun a ha b hb => ?_⟩, hsame 2, fun a ha b hb => ?_⟩
    · rw [hloop ha, hloop hb]
      omega
    · rw [hloop hb]
      rcases ha with ha | ha <;> rw [hloop ha] <;> omega
  refine ⟨fun h => ?_, takenBy_append⟩
  rwa [h] at hsorted

theorem arrivals_eq {es : List Element} {entries : List Entry}
    (h : List.Forall₂ (fun e x => e.entry other = .ok x) es entries) :
    arrivals other es = entries.filterMap Entry.record? := by
  induction h with
  | nil => rfl
  | cons hx _ ih =>
    unfold arrivals at ih ⊢
    rw [List.filterMap_cons, List.filterMap_cons, hx, ih]
    rfl

theorem takenBy_filterMap {α : Type} {k : Nat} {proj : Entry → Option α} {wrap : α → Record}
    (h : ∀ x, (proj x).map wrap = (Entry.record? x).filter fun r => r.loop = k)
    (entries : List Entry) :
    (entries.filterMap proj).map wrap = takenBy k (entries.filterMap Entry.record?) := by
  rw [takenBy, List.map_filterMap, List.filter_filterMap]
  exact congrArg (List.filterMap · entries) (funext h)

/-- The loops take a frame's records type by type. -/
theorem records_eq {es : List Element} {out : ParsedFrame}
    (hparse : parse other (.array es) = .ok out) :
    out.records = takenBy 0 (arrivals other es) ++ takenBy 1 (arrivals other es) ++
      takenBy 2 (arrivals other es) := by
  obtain ⟨entries, hentries⟩ := entries_of_parse hparse
  obtain rfl := Except.ok.inj (hparse.symm.trans (foldlM_parseElement hentries {}))
  obtain ⟨htrades, hquotes, hbars, _⟩ := foldl_push entries {}
  rw [arrivals_eq hentries, ParseResult.records, htrades, hquotes, hbars]
  simp only [List.nil_append]
  rw [takenBy_filterMap (k := 0) fun x => by cases x <;> rfl,
    takenBy_filterMap (k := 1) fun x => by cases x <;> rfl,
    takenBy_filterMap (k := 2) fun x => by cases x <;> rfl]

/-- Each symbol's records come as trades, quotes and bars; those without a symbol do not count. -/
def InLoopOrder (recs : List Record) : Prop :=
  recs.Pairwise fun a b => a.symbol ≠ [] → b.symbol ≠ [] →
    setSymbol a.symbol = setSymbol b.symbol → a.loop ≤ b.loop

instance (recs : List Record) : Decidable (InLoopOrder recs) :=
  inferInstanceAs (Decidable (List.Pairwise _ recs))

theorem inLoopOrder_iff {recs : List Record} :
    InLoopOrder recs ↔ ∀ w, (ofTicker w recs).Pairwise fun a b => a.loop ≤ b.loop := by
  have hnamed : ∀ {w : Symbol} {r : Record},
      (decide (setSymbol r.symbol = w) && !r.symbol.isEmpty) = true ↔
        setSymbol r.symbol = w ∧ r.symbol ≠ [] := by
    intro w r
    simp
  unfold InLoopOrder ofTicker
  simp only [List.pairwise_filter, hnamed]
  constructor
  · intro h w
    exact h.imp fun hab ha hb => hab ha.2 hb.2 (ha.1.trans hb.1.symm)
  · intro h
    rw [List.pairwise_iff_forall_sublist]
    intro a b hab ha hb heq
    exact List.pairwise_iff_forall_sublist.mp (h (setSymbol b.symbol)) hab ⟨heq, ha⟩ ⟨rfl, hb⟩

/-- The loops keep each symbol's records in array order exactly if these come in loop order. -/
theorem ofTicker_records_iff {es : List Element} {out : ParsedFrame}
    (hparse : parse other (.array es) = .ok out) :
    (∀ w, ofTicker w out.records = ofTicker w (arrivals other es)) ↔
      InLoopOrder (arrivals other es) := by
  rw [inLoopOrder_iff]
  refine forall_congr' fun w => ?_
  have htaken : ofTicker w out.records = takenBy 0 (ofTicker w (arrivals other es)) ++
      takenBy 1 (ofTicker w (arrivals other es)) ++ takenBy 2 (ofTicker w (arrivals other es)) := by
    rw [records_eq hparse, ofTicker, List.filter_append, List.filter_append, takenBy_filter,
      takenBy_filter, takenBy_filter]
    rfl
  rw [htaken, takenBy_append_iff]

/-- Two lists of one symbol's records are numbered in the same way exactly if they are equal. -/
theorem numbered_ofTicker_inj (w : Symbol) (next : List UInt8 → UInt64) (recs recs' : List Record) :
    Session.numbered next (ofTicker w recs) = Session.numbered next (ofTicker w recs') ↔
      ofTicker w recs = ofTicker w recs' := by
  have hfst : ∀ rs, (Session.numbered next (ofTicker w rs)).map Prod.fst = ofTicker w rs := by
    intro rs
    rw [Session.map_fst_numbered, List.filter_eq_self]
    intro r hr
    exact (Bool.and_eq_true_iff.mp (List.mem_filter.mp hr).2).2
  refine ⟨fun h => ?_, fun h => by rw [h]⟩
  rw [← hfst recs, ← hfst recs', h]

/-- The loops take every record of a frame once. -/
theorem records_perm {es : List Element} {out : ParsedFrame}
    (hparse : parse other (.array es) = .ok out) : out.records.Perm (arrivals other es) :=
  records_eq hparse ▸ takenBy_perm (arrivals other es)

end Order

section Feed

variable {other : Int → Int → Int → Int} {F : Type} [PriceArith F] (ofBits : DoubleBits → F)

/-- The validator after records that are numbered as they come. -/
theorem validator_foldl_fresh (recs : List Record) :
    (recs.foldl (Session.onRecord ofBits) {}).validator =
      (Validator.run (Session.number ofBits (fun _ => 0) recs)).1 := by
  have hrun := Validator.run_append [] (Session.number ofBits (fun _ => 0) recs)
  rw [List.nil_append] at hrun
  rw [(Session.foldl_onRecord ofBits _ _).1, hrun]
  rfl

omit [PriceArith F] in
/-- With no more symbols than slots, all of them get one in any order. -/
theorem same_slots_of_few {past : List ParseResult} {es : List Element} {out : ParsedFrame}
    (hparse : parse other (.array es) = .ok out)
    (hfew : (tickers (past.flatMap ParseResult.records ++ out.records)).toFinset.card ≤
      Validator.kCapacity) (w : Symbol) :
    w ∈ firstDistinct Validator.kCapacity
        (tickers (past.flatMap ParseResult.records ++ out.records)) ↔
      w ∈ firstDistinct Validator.kCapacity
        (tickers (past.flatMap ParseResult.records ++ arrivals other es)) := by
  have hperm : (tickers (past.flatMap ParseResult.records ++ out.records)).Perm
      (tickers (past.flatMap ParseResult.records ++ arrivals other es)) :=
    (((records_perm hparse).append_left _).filter _).map _
  rw [mem_firstDistinct_iff_of_few hfew,
    mem_firstDistinct_iff_of_few (List.toFinset_eq_of_perm _ _ hperm ▸ hfew), hperm.mem_iff]

/-- A trade of AAPL. -/
def aaplTrade : Element :=
  .ofFields [("T", .text "t"), ("S", .text "AAPL"), ("p", .number (some 100) none),
    ("s", .number none (some 5))]

/-- A bar of AAPL. -/
def aaplBar : Element :=
  .ofFields [("T", .text "b"), ("S", .text "AAPL")]

/-- A quote of MSFT. -/
def msftQuote : Element :=
  .ofFields [("T", .text "q"), ("S", .text "MSFT")]

end Feed

end Ingest

end OhlcvValidator
