import OhlcvValidator.LiveCapture
import OhlcvValidator.SequencingCursor

namespace OhlcvValidator

namespace Validator

variable {F : Type} [PriceArith F]

/-- A record that carries on from its symbol's last number gets no gap. -/
theorem stateful_inert {s : Slot F} {rec : WireRecord F}
    (h : s.seen = true → s.lastSeq + 1 = rec.seq) :
    (stateful rec s (statelessFlags rec)).2.has .sequenceGap = false ∧
      (stateful rec s (statelessFlags rec)).2.gap = 0 := by
  obtain ⟨_, _, hgap, hhas⟩ := stateful_keeps rec s (statelessFlags rec)
  have hnext : ¬(s.seen = true ∧ s.lastSeq + 1 < rec.seq) := by
    rintro ⟨hseen, hlt⟩
    rw [h hseen] at hlt
    exact UInt64.lt_irrefl _ hlt
  refine ⟨?_, ?_⟩
  · rw [hhas _ (by simp) (by simp [Reconstructs]), has_checkSequencing_gap, decide_eq_false hnext,
      (has_statelessFlags_sequencing rec).2]
    rfl
  · rw [hgap, gap_checkSequencing, if_neg hnext, gap_statelessFlags]

end Validator

namespace Ingest

open Replay (DoubleBits)
open Validator (Holds Roster)

/-- The symbols of a frame's records. -/
def ParseResult.symbols (parsed : ParseResult) : List (List UInt8) :=
  parsed.trades.map Trade.symbol ++ parsed.quotes.map Quote.symbol ++ parsed.bars.map Bar.symbol

/-- The non-empty strings among some symbols. -/
def named (S : Set (List UInt8)) : Set (List UInt8) :=
  {sym | sym ∈ S ∧ sym ≠ []}

section Agrees

variable {F : Type} [PriceArith F] {S : Set (List UInt8)} {nextSeq : List UInt8 → UInt64}
  {table : Fin Validator.kCapacity → Validator.Slot F} {a : Roster F}

/-- The validator's cursors stand where the counters of the symbols do. -/
def Agrees (S : Set (List UInt8)) (a : Roster F) (nextSeq : List UInt8 → UInt64) : Prop :=
  ∀ sym ∈ named S, (a.slots (symbolKey (setSymbol sym))).seen = true →
    (a.slots (symbolKey (setSymbol sym))).lastSeq = nextSeq sym

theorem Agrees.check (h : Agrees S a nextSeq) (hholds : Holds table a)
    (hinj : Set.InjOn setSymbol (named S)) {symbol : List UInt8} (hmem : symbol ∈ named S)
    {rec : WireRecord F} (hfield : rec.symbol = setSymbol symbol)
    (hseq : rec.seq = nextSeq symbol + 1) :
    Agrees S (a.check rec).1 (Function.update nextSeq symbol rec.seq) ∧
      (a.check rec).2.has .sequenceGap = false ∧ (a.check rec).2.gap = 0 := by
  -- a string other than the record's has another field and keeps its slot and its counter
  have hother : ∀ sym ∈ named S, sym ≠ symbol →
      symbolKey (setSymbol sym) ≠ symbolKey (setSymbol symbol) :=
    fun sym hsym hne he => hne (hinj hsym hmem (symbolKey_injective he))
  unfold Roster.check
  rw [hfield]
  by_cases hacc : a.Accepts (symbolKey (setSymbol symbol))
  · simp only [if_pos hacc]
    refine ⟨?_, Validator.stateful_inert fun hseen => by rw [h symbol hmem hseen, hseq]⟩
    intro sym hsym hseen
    by_cases he : sym = symbol
    · subst he
      simp only [Function.update_self]
      exact (Validator.stateful_keeps _ _ _).1
    · simp only [Function.update_of_ne (hother sym hsym he)] at hseen ⊢
      rw [Function.update_of_ne he]
      exact h sym hsym hseen
  · simp only [if_neg hacc]
    refine ⟨?_, (Validator.has_statelessFlags_sequencing rec).2, Validator.gap_statelessFlags rec⟩
    intro sym hsym hseen
    by_cases he : sym = symbol
    · subst he
      rw [hholds.fresh _ fun hin => hacc (Or.inl hin)] at hseen
      cases hseen
    · rw [Function.update_of_ne he]
      exact h sym hsym hseen

end Agrees

namespace Session

variable {F : Type} [PriceArith F] {ofBits : DoubleBits → F} {S : Set (List UInt8)} {s : Session F}

/-- The counters and the cursors agree, and no gap was seen. -/
structure Numbered (S : Set (List UInt8)) (s : Session F) : Prop where
  cursors : ∃ a : Roster F, Holds s.validator.table a ∧ Agrees S a s.nextSeq
  inert : ∀ r ∈ s.results, r.has .sequenceGap = false ∧ r.gap = 0

theorem numbered_start : Numbered S ({} : Session F) where
  cursors := ⟨{}, Validator.holds_fresh, fun _ _ h => Bool.noConfusion h⟩
  inert := fun _ h => absurd h List.not_mem_nil

theorem Numbered.process (h : s.Numbered S) (hinj : Set.InjOn setSymbol (named S))
    {symbol : List UInt8} (hsym : symbol ∈ S) {checked : UInt64 → WireRecord F}
    {wrapped : UInt64 → Replay.WireRecord} (hfield : ∀ n, (checked n).symbol = setSymbol symbol)
    (hseq : ∀ n, (checked n).seq = n) : (s.process symbol checked wrapped).Numbered S := by
  unfold Session.process
  split
  next => exact h
  next hne =>
    have hmem : symbol ∈ named S := ⟨hsym, by simpa using hne⟩
    obtain ⟨⟨a, hholds, hagrees⟩, hinert⟩ := h
    obtain ⟨hnext, hresult⟩ := hholds.check (checked (s.nextSeq symbol + 1))
    obtain ⟨hagrees', hclean⟩ := hagrees.check hholds hinj hmem (hfield (s.nextSeq symbol + 1))
      (hseq _)
    rw [hseq] at hagrees'
    refine ⟨⟨_, hnext, hagrees'⟩, ?_⟩
    intro r hr
    rcases List.mem_append.mp hr with hr | hr
    · exact hinert r hr
    · obtain rfl := List.mem_singleton.mp hr
      rwa [hresult]

theorem Numbered.onFrame (h : s.Numbered S) (hinj : Set.InjOn setSymbol (named S))
    {parsed : ParseResult} (hsyms : ∀ sym ∈ parsed.symbols, sym ∈ S) :
    (s.onFrame ofBits parsed).Numbered S := by
  simp only [ParseResult.symbols, List.mem_append, List.mem_map] at hsyms
  have htrades := List.foldlRecOn (motive := Numbered S) parsed.trades (onTrade ofBits) h
    fun _ hs t ht => hs.process hinj (hsyms _ (Or.inl (Or.inl ⟨t, ht, rfl⟩))) (fun _ => rfl)
      fun _ => rfl
  have hquotes := List.foldlRecOn (motive := Numbered S) parsed.quotes (onQuote ofBits) htrades
    fun _ hs q hq => hs.process hinj (hsyms _ (Or.inl (Or.inr ⟨q, hq, rfl⟩))) (fun _ => rfl)
      fun _ => rfl
  exact List.foldlRecOn (motive := Numbered S) parsed.bars (onBar ofBits) hquotes
    fun _ hs b hb => hs.process hinj (hsyms _ (Or.inr ⟨b, hb, rfl⟩)) (fun _ => rfl) fun _ => rfl

theorem numbered_run (hinj : Set.InjOn setSymbol (named S)) {frames : List ParseResult}
    (hsyms : ∀ parsed ∈ frames, ∀ sym ∈ parsed.symbols, sym ∈ S) :
    (run ofBits frames).Numbered S :=
  List.foldlRecOn (motive := Numbered S) frames (Session.onFrame ofBits) numbered_start
    fun _ hs parsed hp => hs.onFrame hinj (hsyms parsed hp)

end Session

section Fields

/-- A short string without NUL stands in its field as it is, padded with NULs. -/
theorem toList_setSymbol {sym : List UInt8} (hlen : sym.length ≤ kSymbolLen) (hnul : 0 ∉ sym) :
    (setSymbol sym).toList = sym ++ List.replicate (kSymbolLen - sym.length) 0 := by
  have hwhole : sym.takeWhile (· ≠ 0) = sym := by
    rw [List.takeWhile_eq_self_iff]
    intro x hx
    simpa using fun hz : x = 0 => hnul (hz ▸ hx)
  apply List.ext_getElem
  · rw [Vector.length_toList, List.length_append, List.length_replicate]
    omega
  · intro i hi _
    rw [Vector.length_toList] at hi
    simp only [setSymbol, hwhole, List.take_of_length_le hlen, Vector.getElem_toList,
      Vector.getElem_ofFn, List.getD_eq_getElem?_getD]
    by_cases hs : i < sym.length
    · rw [List.getElem_append_left hs, List.getElem?_eq_getElem hs, Option.getD_some]
    · rw [List.getElem_append_right (not_lt.mp hs), List.getElem_replicate,
        List.getElem?_eq_none (not_lt.mp hs), Option.getD_none]

theorem setSymbol_injOn_short :
    Set.InjOn setSymbol {sym | sym.length ≤ kSymbolLen ∧ 0 ∉ sym} := by
  have hstrip : ∀ sym : List UInt8, sym.length ≤ kSymbolLen → 0 ∉ sym →
      (setSymbol sym).toList.filter (· ≠ 0) = sym := by
    intro sym hlen hnul
    have hkeep : sym.filter (· ≠ 0) = sym := by
      rw [List.filter_eq_self]
      intro x hx
      simpa using fun hz : x = 0 => hnul (hz ▸ hx)
    rw [toList_setSymbol hlen hnul, List.filter_append, hkeep, List.filter_replicate]
    simp
  rintro x ⟨hx, hx0⟩ y ⟨hy, hy0⟩ he
  rw [← hstrip x hx hx0, he, hstrip y hy hy0]

end Fields

/-- One frame with three trades of one string and one of another, which comes third. -/
def thirdOther (x y : List UInt8) : ParseResult :=
  { trades := [{ symbol := x }, { symbol := x }, { symbol := y }, { symbol := x }] }

/-- With one field for both strings, the fourth trade has number 3 after a trade with number 1. -/
theorem run_thirdOther {F : Type} [PriceArith F] (ofBits : DoubleBits → F) {x y : List UInt8}
    (hx : x ≠ []) (hy : y ≠ []) (hne : x ≠ y) (hfield : setSymbol x = setSymbol y) :
    ∃ r ∈ (Session.run ofBits [thirdOther x y]).results, r.has .sequenceGap = true := by
  let trade (sym : List UInt8) (seq : UInt64) : WireRecord F :=
    .trade ((Trade.toWire { symbol := sym } seq).toModel ofBits)
  let pre := [trade x 1, trade x 2, trade y 1]
  have hresults : (Session.run ofBits [thirdOther x y]).results =
      (Validator.run (pre ++ trade x 3 :: [])).2 := by
    simp [Session.run, Session.onFrame, thirdOther, Session.onTrade, Session.process, hx, hy, hne,
      Validator.run, pre, trade, Ne.symm hne]
  have hfew : ((pre ++ trade x 3 :: []).map WireRecord.symbol).toFinset.card ≤ 4096 :=
    (List.toFinset_card_le _).trans (by simp [pre])
  have hown : pre.filter (fun q => q.symbol = (trade x 3).symbol) = pre := by
    rw [List.filter_eq_self]
    intro q hq
    simp only [pre, List.mem_cons, List.not_mem_nil, or_false] at hq
    rcases hq with rfl | rfl | rfl
    · exact decide_eq_true rfl
    · exact decide_eq_true rfl
    · exact decide_eq_true hfield.symm
  obtain ⟨r, hr, _, hskips, _⟩ := Validator.sequencing_exact hfew
  rw [← hresults] at hr
  refine ⟨r, List.mem_of_getElem? hr, hskips.mpr ?_⟩
  rw [hown]
  exact ⟨by simp [pre], show (1 : UInt64) + 1 < 3 by decide⟩

/-- On the live path sequence gaps are inert for exactly those symbols of which no two
different non-empty ones are truncated to one field. Tickers of at most eight bytes are such. -/
theorem live_gaps_inert_iff {F : Type} [PriceArith F] (ofBits : DoubleBits → F)
    (S : Set (List UInt8)) :
    ((∀ frames : List ParseResult, (∀ parsed ∈ frames, ∀ sym ∈ parsed.symbols, sym ∈ S) →
        ∀ r ∈ (Session.run ofBits frames).results, r.has .sequenceGap = false ∧ r.gap = 0) ↔
      Set.InjOn setSymbol (named S)) ∧
    Set.InjOn setSymbol {sym | sym.length ≤ kSymbolLen ∧ 0 ∉ sym} := by
  refine ⟨⟨?_, fun hinj frames hsyms => (Session.numbered_run hinj hsyms).inert⟩,
    setSymbol_injOn_short⟩
  intro hinert x hx y hy hfield
  by_contra hne
  obtain ⟨r, hr, hgap⟩ := run_thirdOther ofBits hx.2 hy.2 hne hfield
  have hsyms : ∀ parsed ∈ [thirdOther x y], ∀ sym ∈ parsed.symbols, sym ∈ S := by
    simp only [thirdOther, ParseResult.symbols, forall_eq, List.map_cons, List.map_nil,
      List.append_nil, List.mem_cons, List.not_mem_nil, or_false]
    rintro sym (rfl | rfl | rfl | rfl)
    · exact hx.1
    · exact hx.1
    · exact hy.1
    · exact hx.1
  rw [(hinert _ hsyms r hr).1] at hgap
  cases hgap

/-- Two strings of nine letters that differ in the last one. -/
theorem live_gap_of_truncated :
    (Session.run (fun x => (x.toNat : ℚ))
      [thirdOther [65, 66, 67, 68, 69, 70, 71, 72, 73] [65, 66, 67, 68, 69, 70, 71, 72, 74]]).results.map
        (fun r => (r.has .sequenceGap, r.gap)) =
      [(false, 0), (false, 0), (false, 0), (true, 1)] := by
  decide +kernel

end Ingest

end OhlcvValidator
