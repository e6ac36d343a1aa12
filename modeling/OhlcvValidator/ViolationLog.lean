import OhlcvValidator.FlagKinds
import OhlcvValidator.FrameOrder
import OhlcvValidator.ThrowingRuns

namespace OhlcvValidator

namespace Ingest

open Replay (DoubleBits bumpIf)
open JsonLines (Json Fields readDecimal splitLines decimal appendLines newline)
open ThrowingRuns (Ends)

section Reader

def getText (fields : Fields) (key : String) : Option (List UInt8) :=
  match fields.lookup (ascii key) with
  | some (.string s) => some s
  | _ => none

def getNumber (fields : Fields) (key : String) : Option UInt64 :=
  match fields.lookup (ascii key) with
  | some (.number n) => some n
  | _ => none

def getTexts (fields : Fields) (key : String) : Option (List (List UInt8)) :=
  match fields.lookup (ascii key) with
  | some (.strings xs) => some xs
  | _ => none

def labelOf (text : List UInt8) : Option LiveLabel :=
  kLiveLabels.find? fun l => ascii l.text = text

def kindOf (text : List UInt8) : Option Kind :=
  [Kind.trade, .quote, .bar].find? fun k => ascii k.text = text

/-- What a line of the log says, with the flags that its checks stand for. -/
def readEntry (json : Json) (line : List UInt8) : Option Validated := do
  let fields ← json.read line
  let kind ← (getText fields "kind").bind kindOf
  let symbol ← getText fields "symbol"
  let ts ← (getText fields "ts").bind readDecimal
  let seq ← getNumber fields "seq"
  let labels ← (getTexts fields "checks").bind (List.mapM labelOf)
  return ⟨kind, symbol, UInt64.ofNat ts, seq, labels.foldl (fun m l => m ||| l.bit.bit) 0⟩

def readLog (json : Json) (text : List UInt8) : Option (List Validated) :=
  (splitLines text).mapM (readEntry json)

end Reader

theorem labelOf_text {l : LiveLabel} (h : l ∈ kLiveLabels) : labelOf (ascii l.text) = some l := by
  revert l
  decide +kernel

section Flags

/-- The bits of a list of labels together. -/
def bitsOf (labels : List LiveLabel) : UInt32 :=
  labels.foldl (fun m l => m ||| l.bit.bit) 0

theorem testBit_bitsOf (labels : List LiveLabel) (i : Nat) :
    (bitsOf labels).toNat.testBit i = labels.any fun l => l.bit.shift = i := by
  induction labels using List.reverseRecOn with
  | nil => simp [bitsOf]
  | append_singleton labels l ih =>
    have hstep : bitsOf (labels ++ [l]) = bitsOf labels ||| l.bit.bit := by simp [bitsOf]
    rw [hstep, UInt32.toNat_or, Nat.testBit_or, ih, l.bit.toNat_bit, Nat.testBit_two_pow]
    simp

theorem raised_eq {flags : UInt32} {l : LiveLabel} (hl : l ∈ kLiveLabels) :
    l.raised flags = flags.toNat.testBit l.bit.shift := by
  have hmask : kSurfacedMask &&& l.bit.bit = l.bit.bit := by
    fin_cases hl <;> rfl
  have hhas := Validator.Result.has_eq_testBit { flags := flags } l.bit
  rw [← hhas, LiveLabel.raised, UInt32.and_assoc, hmask]
  rfl

theorem has_of_raised {flags : UInt32} {l : LiveLabel} (hl : l ∈ kLiveLabels)
    (h : l.raised flags = true) : ({ flags := flags } : Validator.Result).has l.bit = true := by
  rw [Validator.Result.has_eq_testBit, ← h, raised_eq hl]

/-- The labels that are raised stand for the surfaced part of the flags. -/
theorem bitsOf_raised (flags : UInt32) :
    bitsOf (kLiveLabels.filter (LiveLabel.raised flags)) = flags &&& kSurfacedMask := by
  refine UInt32.toNat_inj.mp (Nat.eq_of_testBit_eq fun i => ?_)
  rw [UInt32.toNat_and, Nat.testBit_and, testBit_bitsOf, show kSurfacedMask = bitsOf kLiveLabels from rfl,
    testBit_bitsOf, List.any_filter, Bool.eq_iff_iff]
  simp only [List.any_eq_true, Bool.and_eq_true, decide_eq_true_eq]
  constructor
  · rintro ⟨l, hl, hraised, rfl⟩
    exact ⟨raised_eq hl ▸ hraised, l, hl, rfl⟩
  · rintro ⟨hbit, l, hl, rfl⟩
    exact ⟨l, hl, (raised_eq hl).trans hbit, rfl⟩

end Flags

section RoundTrip

/-- What the log tells of a record. -/
def Validated.told (e : Validated) : Validated :=
  { e with flags := e.flags &&& kSurfacedMask }

def Validated.surfaced (e : Validated) : Bool :=
  decide (e.flags &&& kSurfacedMask ≠ 0)

theorem surfaced_iff (e : Validated) :
    e.surfaced = true ↔ ∃ l ∈ kLiveLabels, l.raised e.flags = true := by
  have hzero : e.flags &&& kSurfacedMask = 0 ↔ kLiveLabels.filter (LiveLabel.raised e.flags) = [] := by
    constructor
    · intro hz
      simp [List.filter_eq_nil_iff, LiveLabel.raised, hz]
    · intro hnil
      rw [← bitsOf_raised, hnil]
      rfl
  rw [Validated.surfaced, decide_eq_true_eq, Ne, hzero, List.filter_eq_nil_iff]
  simp

theorem kindOf_text (k : Kind) : kindOf (ascii k.text) = some k := by
  cases k <;> rfl

theorem mapM_labelOf {labels : List LiveLabel} (h : ∀ l ∈ labels, l ∈ kLiveLabels) :
    (labels.map fun l => ascii l.text).mapM labelOf = some labels := by
  induction labels with
  | nil => rfl
  | cons l labels ih =>
    rw [List.map_cons, List.mapM_cons, labelOf_text (h l (by simp)),
      ih fun x hx => h x (List.mem_cons_of_mem _ hx)]
    rfl

theorem nodup_violationObject (e : Validated) :
    ((violationObject e).map Prod.fst).Nodup := by
  show [ascii "kind", ascii "symbol", ascii "ts", ascii "seq", ascii "checks"].Nodup
  decide +kernel

theorem get_violationObject {e : Validated} {fields : Fields}
    (h : ∀ key, fields.lookup key = (violationObject e).lookup key) :
    getText fields "kind" = some (ascii e.kind.text) ∧
    getText fields "symbol" = some e.symbol ∧
    getText fields "ts" = some (decimal e.tsNs.toNat) ∧
    getNumber fields "seq" = some e.seq ∧
    getTexts fields "checks" =
      some ((kLiveLabels.filter (LiveLabel.raised e.flags)).map fun l => ascii l.text) := by
  simp only [getText, getNumber, getTexts, h]
  exact ⟨rfl, rfl, rfl, rfl, rfl⟩

variable {json : Json}

/-- A line is read back. -/
theorem readEntry_violationJson (hjson : json.Lawful) {e : Validated} {line : List UInt8}
    (h : violationJson json e = some line) : readEntry json line = some e.told := by
  obtain ⟨fields, hread, hfields⟩ := hjson.read_dump (nodup_violationObject e) h
  obtain ⟨hkind, hsymbol, hts, hseq, hchecks⟩ := get_violationObject hfields
  have hlabels := mapM_labelOf fun l (hl : l ∈ kLiveLabels.filter (LiveLabel.raised e.flags)) =>
    (List.mem_filter.mp hl).1
  simp only [readEntry, hread, hkind, hsymbol, hts, hseq, hchecks, hlabels, kindOf_text,
    JsonLines.readDecimal_decimal, Option.bind_eq_bind, Option.bind_some]
  rw [show (kLiveLabels.filter (LiveLabel.raised e.flags)).foldl (fun m l => m ||| l.bit.bit) 0 =
    e.flags &&& kSurfacedMask from bitsOf_raised e.flags]
  simp [Validated.told]

/-- The lines that the library gives for some records. -/
def Lines (json : Json) : List Validated → List (List UInt8) → Prop :=
  List.Forall₂ fun e line => violationJson json e = some line

theorem Lines.one_line (hjson : json.Lawful) {es : List Validated} {lines : List (List UInt8)}
    (h : Lines json es lines) : ∀ l ∈ lines, newline ∉ l := by
  induction h with
  | nil => simp
  | cons he _ ih =>
    intro l hl
    obtain rfl | hl := List.mem_cons.mp hl
    · exact hjson.one_line he
    · exact ih l hl

theorem Lines.read (hjson : json.Lawful) {es : List Validated} {lines : List (List UInt8)}
    (h : Lines json es lines) : lines.mapM (readEntry json) = some (es.map Validated.told) := by
  induction h with
  | nil => rfl
  | cons he _ ih =>
    rw [List.mapM_cons, readEntry_violationJson hjson he, ih]
    rfl

theorem readLog_lines (hjson : json.Lawful) {es : List Validated} {lines : List (List UInt8)}
    (h : Lines json es lines) :
    readLog json (lines.flatMap fun l => l ++ [newline]) = some (es.map Validated.told) := by
  rw [readLog, JsonLines.splitLines_flatMap (h.one_line hjson), List.map_id', h.read hjson]

/-- The log file now, given what it had in it when the session began: after it, a line for each
record that has a surfaced violation. -/
def LogOf (json : Json) (es : List Validated) : Option (List UInt8) → Option (List UInt8) → Prop
  | none, now => now = none
  | some before, now => ∃ lines, Lines json (es.filter Validated.surfaced) lines ∧
      now = some (appendLines before lines)

end RoundTrip

section Totals

def flagLine (e : Validated) : List UInt8 :=
  ascii "  !! " ++ e.symbol ++ ascii ": " ++ describe e.flags

theorem countP_kinds (es : List Validated) :
    (es.countP fun e => e.kind = .trade) + (es.countP fun e => e.kind = .quote) +
      (es.countP fun e => e.kind = .bar) = es.length := by
  induction es with
  | nil => rfl
  | cons e es ih =>
    rw [List.length_cons, ← ih, List.countP_cons, List.countP_cons, List.countP_cons]
    cases e.kind <;> simp <;> omega

/-- What the counters of a report count and what its flag lines are. -/
structure Report.Totals (es : List Validated) (r : Report) : Prop where
  counts : r.counts = kLiveLabels.map fun l => UInt64.ofNat (es.countP fun e => l.raised e.flags)
  nTrades : r.nTrades = UInt64.ofNat (es.countP fun e => e.kind = .trade)
  nQuotes : r.nQuotes = UInt64.ofNat (es.countP fun e => e.kind = .quote)
  nBars : r.nBars = UInt64.ofNat (es.countP fun e => e.kind = .bar)
  nFlagged : r.nFlagged = UInt64.ofNat (es.countP Validated.surfaced)
  flagLines : r.flagLines = (es.filter Validated.surfaced).map flagLine

/-- What a record does to all of the report but the log. -/
def Report.tally (r : Report) (e : Validated) : Report :=
  { r with
    counts := List.zipWith (fun (l : LiveLabel) n => bumpIf (l.raised e.flags) n) kLiveLabels
      r.counts
    nFlagged := bumpIf e.surfaced r.nFlagged
    flagLines := r.flagLines ++ ([e].filter Validated.surfaced).map flagLine }

theorem Report.record_of_not_surfaced (json : Json) (r : Report) {e : Validated}
    (h : e.surfaced = false) : r.record json e = .ok (r.tally e) := by
  have hflags : ¬(e.flags &&& kSurfacedMask ≠ 0) := of_decide_eq_false h
  unfold Report.record Report.tally
  simp only [if_neg hflags, h, bumpIf]
  simp [h]

theorem Report.tally_of_surfaced (r : Report) {e : Validated} (h : e.surfaced = true) :
    r.tally e =
      { r with
        counts := List.zipWith (fun (l : LiveLabel) n => bumpIf (l.raised e.flags) n) kLiveLabels
          r.counts
        nFlagged := r.nFlagged + 1
        flagLines := r.flagLines ++ [ascii "  !! " ++ e.symbol ++ ascii ": " ++ describe e.flags] } := by
  rw [Report.tally, List.filter_cons_of_pos h, h]
  rfl

/-- With a surfaced violation the log, if it is open, decides. -/
theorem Report.record_of_surfaced (json : Json) (r : Report) {e : Validated}
    (h : e.surfaced = true) :
    (r.vlog = none → r.record json e = .ok (r.tally e)) ∧
      ∀ log, r.vlog = some log →
        (violationJson json e = none → r.record json e = .error (r.tally e)) ∧
        ∀ line, violationJson json e = some line →
          r.record json e = .ok { r.tally e with vlog := some (appendLines log [line]) } := by
  have hflags : e.flags &&& kSurfacedMask ≠ 0 := of_decide_eq_true h
  rw [Report.tally_of_surfaced r h]
  unfold Report.record
  simp only [if_pos hflags]
  refine ⟨fun hv => by simp only [hv], fun log hv => ⟨fun hj => ?_, fun line hj => ?_⟩⟩
  · simp only [hv, hj]
  · simp only [hv, hj]

theorem Report.Totals.tally {es : List Validated} {r : Report} (h : r.Totals es) (e : Validated) :
    ((r.count e.kind).tally e).Totals (es ++ [e]) := by
  have hsame : (r.count e.kind).counts = r.counts ∧ (r.count e.kind).nFlagged = r.nFlagged ∧
      (r.count e.kind).flagLines = r.flagLines := by
    cases e.kind <;> exact ⟨rfl, rfl, rfl⟩
  have hkinds : (r.count e.kind).nTrades = bumpIf (e.kind = .trade) r.nTrades ∧
      (r.count e.kind).nQuotes = bumpIf (e.kind = .quote) r.nQuotes ∧
      (r.count e.kind).nBars = bumpIf (e.kind = .bar) r.nBars := by
    cases e.kind <;> exact ⟨rfl, rfl, rfl⟩
  obtain ⟨hcounts, hflagged, hlines⟩ := hsame
  obtain ⟨htrades, hquotes, hbars⟩ := hkinds
  unfold Report.tally
  refine ⟨?_, ?_, ?_, ?_, ?_, ?_⟩
  · dsimp only
    rw [hcounts, h.counts, List.zipWith_map_right, List.zipWith_self]
    refine List.map_congr_left fun l _ => ?_
    exact (ofNat_countP_concat (fun e : Validated => l.raised e.flags) es e).symm
  · rw [ofNat_countP_concat, ← h.nTrades, ← htrades]
  · rw [ofNat_countP_concat, ← h.nQuotes, ← hquotes]
  · rw [ofNat_countP_concat, ← h.nBars, ← hbars]
  · rw [ofNat_countP_concat, ← h.nFlagged, ← hflagged]
  · rw [List.filter_append, List.map_append, ← h.flagLines, ← hlines]

theorem Report.vlog_count (r : Report) (k : Kind) : (r.count k).vlog = r.vlog := by
  cases k <;> rfl

variable {json : Json} {log : Option (List UInt8)}

theorem LogOf.concat_of_not_surfaced {es : List Validated} {now : Option (List UInt8)}
    (h : LogOf json es log now) {e : Validated} (he : e.surfaced = false) :
    LogOf json (es ++ [e]) log now := by
  cases log with
  | none => exact h
  | some before =>
    show ∃ lines, Lines json ((es ++ [e]).filter Validated.surfaced) lines ∧ _
    rw [List.filter_append, List.filter_cons_of_neg (by simp [he]), List.filter_nil,
      List.append_nil]
    exact h

theorem LogOf.concat_line {es : List Validated} {before now line : List UInt8}
    (h : LogOf json es (some before) (some now)) {e : Validated} (he : e.surfaced = true)
    (hline : violationJson json e = some line) :
    LogOf json (es ++ [e]) (some before) (some (appendLines now [line])) := by
  obtain ⟨lines, hlines, hnow⟩ := h
  refine ⟨lines ++ [line], ?_, ?_⟩
  · rw [List.filter_append, List.filter_cons_of_pos he, List.filter_nil]
    exact List.rel_append hlines (.cons hline .nil)
  · rw [Option.some.inj hnow]
    simp [appendLines]

/-- A record is tallied in any case. If its line throws, the log is as before. -/
theorem Report.record_ends {es : List Validated} {r : Report} (h : r.Totals es)
    (hlog : LogOf json es log r.vlog) (e : Validated) :
    Ends (fun r => r.Totals (es ++ [e]) ∧ LogOf json (es ++ [e]) log r.vlog)
      (fun r => r.Totals (es ++ [e]) ∧ LogOf json es log r.vlog ∧ log ≠ none ∧
        e.surfaced = true ∧ violationJson json e = none)
      ((r.count e.kind).record json e) := by
  have ht := h.tally e
  rw [← r.vlog_count e.kind] at hlog
  cases hs : e.surfaced with
  | false =>
    rw [Report.record_of_not_surfaced json _ hs]
    exact ⟨ht, hlog.concat_of_not_surfaced hs⟩
  | true =>
    obtain ⟨hclosed, hopen⟩ := Report.record_of_surfaced json (r.count e.kind) hs
    cases hv : (r.count e.kind).vlog with
    | none =>
      rw [hclosed hv]
      refine ⟨ht, ?_⟩
      cases log with
      | none => exact hv
      | some before =>
        obtain ⟨_, _, hnow⟩ := hlog
        rw [hv] at hnow
        cases hnow
    | some now =>
      obtain ⟨hthrow, hline⟩ := hopen now hv
      have hbegun : log ≠ none := by
        rintro rfl
        exact absurd (hv.symm.trans hlog) nofun
      cases hj : violationJson json e with
      | none =>
        rw [hthrow hj]
        exact ⟨ht, hlog, hbegun, rfl, rfl⟩
      | some line =>
        rw [hline line hj]
        refine ⟨⟨ht.counts, ht.nTrades, ht.nQuotes, ht.nBars, ht.nFlagged, ht.flagLines⟩, ?_⟩
        obtain ⟨before, rfl⟩ := Option.ne_none_iff_exists'.mp hbegun
        rw [hv] at hlog
        exact hlog.concat_line hs hj

end Totals

def Record.kind : Record → Kind
  | .trade _ => .trade
  | .quote _ => .quote
  | .bar _ => .bar

def Record.tsNs : Record → UInt64
  | .trade t => t.tsNs
  | .quote q => q.tsNs
  | .bar b => b.startNs

/-- The records that the loops do not skip, as the log names them. -/
def heardOf (recs : List Record) : List (Kind × List UInt8 × UInt64) :=
  (recs.filter fun r => !r.symbol.isEmpty).map fun r => (r.kind, r.symbol, r.tsNs)

theorem heardOf_append (recs recs' : List Record) :
    heardOf (recs ++ recs') = heardOf recs ++ heardOf recs' := by
  rw [heardOf, List.filter_append, List.map_append]
  rfl

namespace Monitor

section Loop

variable {F : Type} [PriceArith F] (ofBits : DoubleBits → F) (json : Json)

def onRecord (m : Monitor F) (r : Record) : Except (Monitor F) (Monitor F) :=
  m.hear json r.kind r.symbol r.tsNs (fun seq => r.toModel ofBits seq) fun seq => r.wrap seq

theorem onFrame_eq (m : Monitor F) (parsed : ParseResult) :
    m.onFrame ofBits json parsed = parsed.records.foldlM (onRecord ofBits json) m := by
  simp only [ParseResult.records, List.foldlM_append, List.foldlM_map, bind_assoc]
  rfl

/-- A record as the monitor hears it next. -/
def entry (m : Monitor F) (r : Record) : Validated where
  kind := r.kind
  symbol := r.symbol
  tsNs := r.tsNs
  seq := m.session.nextSeq r.symbol + 1
  flags := (m.session.validator.check (r.toModel ofBits (m.session.nextSeq r.symbol + 1))).2.flags

theorem onRecord_of_nonempty (m : Monitor F) {r : Record} (he : ¬r.symbol.isEmpty = true)
    (report : Report) :
    ((m.report.count r.kind).record json (m.entry ofBits r) = .ok report →
      m.onRecord ofBits json r =
        .ok { session := m.session.onRecord ofBits r, report := report
              heard := m.heard ++ [m.entry ofBits r] }) ∧
    ((m.report.count r.kind).record json (m.entry ofBits r) = .error report →
      m.onRecord ofBits json r =
        .error { session := { m.session.onRecord ofBits r with capture := m.session.capture }
                 report := report, heard := m.heard ++ [m.entry ofBits r] }) := by
  rw [onRecord, hear, if_neg he, Session.onRecord_eq]
  constructor
  · intro hrecord
    unfold entry at hrecord ⊢
    simp only [hrecord]
  · intro hrecord
    unfold entry at hrecord ⊢
    simp only [hrecord]

/-- A session is one loop over the records of its frames. -/
theorem run_eq (log : Option (List UInt8)) (frames : List ParseResult) :
    run ofBits json log frames =
      (frames.flatMap ParseResult.records).foldlM (onRecord ofBits json)
        ({ report := { vlog := log } } : Monitor F) := by
  have hloop : ∀ m : Monitor F, frames.foldlM (onFrame ofBits json) m =
      (frames.flatMap ParseResult.records).foldlM (onRecord ofBits json) m := by
    induction frames with
    | nil => exact fun m => rfl
    | cons parsed frames ih =>
      intro m
      rw [List.foldlM_cons, List.flatMap_cons, List.foldlM_append, onFrame_eq]
      exact congrArg _ (funext ih)
  exact hloop _

end Loop

def heardRecord (e : Validated) : Kind × List UInt8 × UInt64 :=
  (e.kind, e.symbol, e.tsNs)

variable {F : Type} [PriceArith F] {ofBits : DoubleBits → F} {json : Json}
  {log : Option (List UInt8)} {m : Monitor F}

/-- The monitor's books: the report is on the records it has heard, these have the flags that
the validator returned, all of their kind, and each is numbered among those of its symbol. -/
structure Books (m : Monitor F) : Prop where
  totals : m.report.Totals m.heard
  flags : m.heard.map Validated.flags = m.session.results.map Validator.Result.flags
  kinds : ∀ e ∈ m.heard, Only e.kind { flags := e.flags }
  nextSeq : ∀ symbol, m.session.nextSeq symbol =
    UInt64.ofNat (m.heard.countP fun e => e.symbol = symbol)
  seq : ∀ (k : Nat) e, m.heard[k]? = some e →
    e.seq = UInt64.ofNat ((m.heard.take k).countP (fun x => x.symbol = e.symbol) + 1)

/-- One more record is heard. -/
theorem Books.concat (h : Books m) {m' : Monitor F} {e : Validated} {r : Validator.Result}
    (hheard : m'.heard = m.heard ++ [e]) (ht : m'.report.Totals (m.heard ++ [e]))
    (hresults : m'.session.results = m.session.results ++ [r]) (hflags : e.flags = r.flags)
    (hkind : Only e.kind { flags := e.flags })
    (hnext : m'.session.nextSeq = Function.update m.session.nextSeq e.symbol e.seq)
    (hseq : e.seq = m.session.nextSeq e.symbol + 1) : Books m' := by
  refine ⟨hheard ▸ ht, ?_, ?_, ?_, ?_⟩
  · rw [hheard, hresults, List.map_append, List.map_append, h.flags, List.map_singleton, hflags]
    rfl
  · intro x hx
    rw [hheard, List.mem_append, List.mem_singleton] at hx
    obtain hx | rfl := hx
    · exact h.kinds x hx
    · exact hkind
  · intro symbol
    rw [hheard, ofNat_countP_concat, ← h.nextSeq symbol, hnext]
    by_cases hs : e.symbol = symbol
    · subst hs
      simp [bumpIf, hseq]
    · simp [bumpIf, hs, Function.update_of_ne (Ne.symm hs)]
  · intro k x hk
    rw [hheard] at hk ⊢
    rcases Nat.lt_or_ge k m.heard.length with hlt | hge
    · rw [List.getElem?_append_left hlt] at hk
      rw [List.take_append_of_le_length hlt.le]
      exact h.seq k x hk
    · have hlen := (List.getElem?_eq_some_iff.mp hk).1
      rw [List.length_append, List.length_singleton] at hlen
      obtain rfl : k = m.heard.length := by omega
      obtain rfl := Option.some.inj (List.getElem?_concat_length.symm.trans hk)
      rw [List.take_append_of_le_length le_rfl, List.take_length, UInt64.ofNat_add, ← h.nextSeq,
        hseq]
      rfl

/-- The books of a session that goes on after these records: it has heard those with a symbol, and
the log has a line for each with a surfaced violation. -/
structure Accounts (ofBits : DoubleBits → F) (json : Json) (log : Option (List UInt8))
    (recs : List Record) (m : Monitor F) : Prop where
  books : Books m
  session : m.session = recs.foldl (Session.onRecord ofBits) {}
  log : LogOf json m.heard log m.report.vlog
  heard : m.heard.map heardRecord = heardOf recs

/-- The books of a session that a throw has ended among these records: the line of the last record
it heard is not in the log. -/
structure Stopped (json : Json) (log : Option (List UInt8)) (recs : List Record) (m : Monitor F) :
    Prop where
  books : Books m
  opened : log ≠ none
  last : ∃ es e, m.heard = es ++ [e] ∧ e.surfaced = true ∧ violationJson json e = none ∧
    LogOf json es log m.report.vlog
  heard : m.heard.map heardRecord <+: heardOf recs

theorem accounts_start :
    Accounts ofBits json log [] ({ report := { vlog := log } } : Monitor F) := by
  refine ⟨⟨⟨rfl, rfl, rfl, rfl, rfl, rfl⟩, rfl, by simp, fun _ => rfl, by simp⟩, rfl, ?_, rfl⟩
  cases log with
  | none => rfl
  | some before => exact ⟨[], .nil, by simp [appendLines]⟩

/-- What the loop's body does with a record. -/
theorem Accounts.onRecord {recs : List Record} (h : Accounts ofBits json log recs m) (r : Record) :
    Ends (Accounts ofBits json log (recs ++ [r])) (Stopped json log (recs ++ [r]))
      (m.onRecord ofBits json r) := by
  have hsession : m.session.onRecord ofBits r = (recs ++ [r]).foldl (Session.onRecord ofBits) {} := by
    rw [List.foldl_append, ← h.session]
    rfl
  by_cases he : r.symbol.isEmpty = true
  · rw [Monitor.onRecord, hear, if_pos he]
    refine ⟨h.books, ?_, h.log, ?_⟩
    · rw [← hsession, Session.onRecord_of_empty ofBits he]
    · rw [heardOf_append, h.heard]
      simp [heardOf, he]
  · have hresults : (m.session.onRecord ofBits r).results = m.session.results ++
        [(m.session.validator.check (r.toModel ofBits (m.session.nextSeq r.symbol + 1))).2] := by
      rw [Session.onRecord_eq, Session.process, if_neg he]
    have hnext := (Session.onRecord_of_nonempty ofBits (s := m.session) he).2.1
    have hkind : Only r.kind { flags := (m.entry ofBits r).flags } := by
      have hk : kindOfRecord (r.toModel ofBits (m.session.nextSeq r.symbol + 1)) = r.kind := by
        cases r <;> rfl
      rw [← hk]
      exact (built_check m.session.validator _).only
    have hheard : (m.heard ++ [m.entry ofBits r]).map heardRecord = heardOf (recs ++ [r]) := by
      rw [List.map_append, h.heard, heardOf_append]
      simp [heardOf, he, heardRecord, entry]
    have hends := Report.record_ends h.books.totals h.log (m.entry ofBits r)
    change Ends _ _ ((m.report.count r.kind).record json _) at hends
    cases hrecord : (m.report.count r.kind).record json (m.entry ofBits r) with
    | ok report =>
      rw [hrecord] at hends
      obtain ⟨ht, hlog⟩ := hends
      rw [(onRecord_of_nonempty ofBits json m he report).1 hrecord]
      exact ⟨h.books.concat rfl ht hresults rfl hkind hnext rfl, hsession, hlog, hheard⟩
    | error report =>
      rw [hrecord] at hends
      obtain ⟨ht, hlog, hopened, hs, hj⟩ := hends
      rw [(onRecord_of_nonempty ofBits json m he report).2 hrecord]
      exact ⟨h.books.concat rfl ht hresults rfl hkind hnext rfl, hopened,
        ⟨m.heard, _, rfl, hs, hj, hlog⟩, hheard ▸ List.prefix_rfl⟩

theorem run_ends (ofBits : DoubleBits → F) (json : Json) (log : Option (List UInt8))
    (frames : List ParseResult) :
    Ends (Accounts ofBits json log (frames.flatMap ParseResult.records))
      (Stopped json log (frames.flatMap ParseResult.records)) (run ofBits json log frames) := by
  rw [run_eq]
  refine Ends.foldlM accounts_start (fun _ r _ h => h.onRecord r) (fun _ r _ h => ?_) _
  refine ⟨h.books, h.opened, h.last, h.heard.trans ?_⟩
  rw [heardOf_append]
  exact List.prefix_append _ _

theorem accounts_of_run {frames : List ParseResult} (h : run ofBits json log frames = .ok m) :
    Accounts ofBits json log (frames.flatMap ParseResult.records) m := by
  have hends := run_ends ofBits json log frames
  rw [h] at hends
  exact hends

theorem stopped_of_run {frames : List ParseResult} (h : run ofBits json log frames = .error m) :
    Stopped json log (frames.flatMap ParseResult.records) m := by
  have hends := run_ends ofBits json log frames
  rw [h] at hends
  exact hends

theorem session_of_run {frames : List ParseResult} (h : run ofBits json log frames = .ok m) :
    m.session = Session.run ofBits frames := by
  rw [(accounts_of_run h).session, Session.run_eq]

theorem capture_count {frames : List ParseResult} (h : run ofBits json log frames = .ok m) :
    m.session.capture.count = UInt64.ofNat m.heard.length := by
  obtain ⟨recs, hrec, hpass⟩ := Session.captured_run ofBits frames
  have hresults : (Replay.benchPass ofBits recs).2 = m.session.results := by
    rw [hpass, session_of_run h]
  have hflags := congrArg List.length (accounts_of_run h).books.flags
  rw [List.length_map, List.length_map, ← hresults, Replay.benchPass, Validator.length_run,
    List.length_map] at hflags
  rw [session_of_run h, hrec.count, hflags]

/-- What the session has appended to its log reads back as these records. -/
def LogReads (json : Json) (before : List UInt8) (es : List Validated) (m : Monitor F) : Prop :=
  ∃ text, m.report.vlog = some (before ++ text) ∧
    readLog json text = some ((es.filter Validated.surfaced).map Validated.told)

theorem logReads_of_logOf (hjson : json.Lawful) {before : List UInt8} {es : List Validated}
    (h : LogOf json es (some before) m.report.vlog) : m.LogReads json before es := by
  obtain ⟨lines, hlines, hnow⟩ := h
  exact ⟨_, hnow, readLog_lines hjson hlines⟩

end Monitor

section Sessions

variable {F : Type} [PriceArith F] (ofBits : DoubleBits → F) (frames : List ParseResult)

/-- What the session appends to the violations log can be read back: its lines are, in the order of
the three loops over each frame, the records with a surfaced violation, each with its kind, its
whole symbol, its exact timestamp, its number among the records of its symbol, and the surfaced
part of the flags that the validator returned. Only a flagged record whose line the library throws
on ends the session early, and then the lines of all flagged records before it are in the log. -/
theorem live_log_reads_back {json : Json} (hjson : json.Lawful) (before : List UInt8) :
    (∀ m, Monitor.run ofBits json (some before) frames = .ok m →
      m.LogReads json before m.heard ∧
      m.heard.map Monitor.heardRecord = heardOf (frames.flatMap ParseResult.records) ∧
      m.heard.map Validated.flags = (Session.run ofBits frames).results.map Validator.Result.flags) ∧
    (∀ m, Monitor.run ofBits json (some before) frames = .error m →
      (∃ es e, m.heard = es ++ [e] ∧ e.surfaced = true ∧ violationJson json e = none ∧
        m.LogReads json before es) ∧
      m.heard.map Monitor.heardRecord <+: heardOf (frames.flatMap ParseResult.records) ∧
      m.heard.map Validated.flags = m.session.results.map Validator.Result.flags) ∧
    ∀ m, Monitor.run ofBits json (some before) frames = .ok m ∨
        Monitor.run ofBits json (some before) frames = .error m →
      ∀ (k : Nat) e, m.heard[k]? = some e →
        e.seq = UInt64.ofNat ((m.heard.take k).countP (fun x => x.symbol = e.symbol) + 1) := by
  refine ⟨fun m hrun => ?_, fun m hrun => ?_, fun m hrun => ?_⟩
  · have h := Monitor.accounts_of_run hrun
    refine ⟨Monitor.logReads_of_logOf hjson h.log, h.heard, ?_⟩
    rw [h.books.flags, Monitor.session_of_run hrun]
  · have h := Monitor.stopped_of_run hrun
    obtain ⟨es, e, hheard, hs, hj, hlog⟩ := h.last
    exact ⟨⟨es, e, hheard, hs, hj, Monitor.logReads_of_logOf hjson hlog⟩, h.heard, h.books.flags⟩
  · obtain hrun | hrun := hrun
    · exact (Monitor.accounts_of_run hrun).books.seq
    · exact (Monitor.stopped_of_run hrun).books.seq

/-- A library that knows the texts of some objects. -/
def tableJson (table : List (Fields × List UInt8)) : Json where
  dump o := (table.find? fun p => p.1 = o).map Prod.snd
  read text := (table.find? fun p => p.2 = text).map Prod.fst

theorem tableJson_lawful {table : List (Fields × List UInt8)} (hnodup : (table.map Prod.snd).Nodup)
    (hline : ∀ p ∈ table, newline ∉ p.2) : (tableJson table).Lawful := by
  have hfound : ∀ {o text}, (tableJson table).dump o = some text → (o, text) ∈ table := by
    intro o text h
    obtain ⟨⟨o', text'⟩, hp, rfl⟩ := Option.map_eq_some_iff.mp h
    obtain rfl : o' = o := by simpa using List.find?_some hp
    exact List.mem_of_find?_eq_some hp
  refine ⟨fun h => hline _ (hfound h), fun {o text} _ h => ⟨o, ?_, fun _ => rfl⟩⟩
  have hmem := hfound h
  obtain ⟨p, hp⟩ : ∃ p, table.find? (fun p => p.2 = text) = some p :=
    Option.isSome_iff_exists.mp (List.find?_isSome.mpr ⟨_, hmem, by simp⟩)
  have hsnd : p.2 = text := by simpa using List.find?_some hp
  obtain rfl := List.inj_on_of_nodup_map hnodup (List.mem_of_find?_eq_some hp) hmem hsnd
  exact congrArg (Option.map Prod.fst) hp

/-- A trade without a price and a locked quote, in one frame. -/
def flaggedFrame : ParseResult where
  trades := [{ symbol := ascii "AAPL", tsNs := 1700000000000000001, size := 3 }]
  quotes := [{
    symbol := ascii "AAPL", tsNs := 1700000000000000002, bidPrice := 10, askPrice := 10
    bidSize := 1, askSize := 1 }]

def flaggedRecords : List Validated :=
  [⟨.trade, ascii "AAPL", 1700000000000000001, 1, Violation.tradeNonPositivePrice.bit⟩,
    ⟨.quote, ascii "AAPL", 1700000000000000002, 2, Violation.quoteLocked.bit⟩]

def flaggedTexts : List String :=
  ["\x7b\"checks\":[\"trade non-positive price\"],\"kind\":\"trade\",\"seq\":1," ++
      "\"symbol\":\"AAPL\",\"ts\":\"1700000000000000001\"\x7d",
    "\x7b\"checks\":[\"quote locked (bid == ask)\"],\"kind\":\"quote\",\"seq\":2," ++
      "\"symbol\":\"AAPL\",\"ts\":\"1700000000000000002\"\x7d"]

def flaggedJson : Json :=
  tableJson ((flaggedRecords.map violationObject).zip (flaggedTexts.map ascii))

theorem live_log_reads_back_flaggedFrame :
    ∃ m text, Monitor.run (fun x => (x.toNat : ℚ)) flaggedJson (some (ascii "old")) [flaggedFrame] =
        .ok m ∧
      m.report.vlog = some (ascii "old" ++ text) ∧ readLog flaggedJson text = some flaggedRecords := by
  have hjson : flaggedJson.Lawful := tableJson_lawful (by decide +kernel) (by decide +kernel)
  have htold : ((Monitor.run (fun x => (x.toNat : ℚ)) flaggedJson (some (ascii "old"))
      [flaggedFrame]).toOption.map fun m => (m.heard.filter Validated.surfaced).map Validated.told) =
      some flaggedRecords := by decide +kernel
  cases hrun : Monitor.run (fun x => (x.toNat : ℚ)) flaggedJson (some (ascii "old"))
      [flaggedFrame] with
  | ok m =>
    obtain ⟨⟨text, hlog, hread⟩, -, -⟩ := (live_log_reads_back _ _ hjson _).1 m hrun
    rw [hrun] at htold
    exact ⟨m, text, rfl, hlog, hread.trans htold⟩
  | error m =>
    rw [hrun] at htold
    cases htold

end Sessions

end Ingest

end OhlcvValidator
