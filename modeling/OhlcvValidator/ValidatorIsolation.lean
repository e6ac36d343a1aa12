import OhlcvValidator.FirstDistinct
import OhlcvValidator.Transducer
import OhlcvValidator.ValidatorFlags
import OhlcvValidator.ValidatorTable

namespace OhlcvValidator

namespace Validator

variable {F : Type}

/-- The results of one symbol's records in a stream. -/
def resultsFor (symbol : Symbol) (recs : List (WireRecord F)) (rs : List Result) : List Result :=
  ((recs.zip rs).filter fun p => p.1.symbol = symbol).map Prod.snd

theorem resultsFor_concat (symbol : Symbol) {recs : List (WireRecord F)} {rs : List Result}
    (hlen : rs.length = recs.length) (rec : WireRecord F) (r : Result) :
    resultsFor symbol (recs ++ [rec]) (rs ++ [r]) =
      if rec.symbol = symbol then resultsFor symbol recs rs ++ [r]
      else resultsFor symbol recs rs := by
  unfold resultsFor
  rw [List.zip_append hlen.symm]
  split
  next h => simp [h]
  next h => simp [h]

theorem symbol_of_mem_filter (symbol : Symbol) (recs : List (WireRecord F)) :
    ∀ rec ∈ recs.filter (fun rec => rec.symbol = symbol), rec.symbol = symbol := by
  intro rec hrec
  simpa using (List.mem_filter.mp hrec).2

variable [PriceArith F]

/-- A stream through an empty roster. -/
def Roster.run (recs : List (WireRecord F)) : Roster F × List Result :=
  recs.foldl (fun p rec => ((p.1.check rec).1, p.2 ++ [(p.1.check rec).2])) ({}, [])

/-- The records of one symbol, as if they were the whole stream. -/
def solo (k : UInt64) (recs : List (WireRecord F)) : Slot F × List Result :=
  recs.foldl (fun p rec =>
    ((stateful rec p.1 (statelessFlags rec)).1,
      p.2 ++ [(stateful rec p.1 (statelessFlags rec)).2])) ({ key := k }, [])

theorem run_concat (recs : List (WireRecord F)) (rec : WireRecord F) :
    run (recs ++ [rec]) =
      (((run recs).1.check rec).1, (run recs).2 ++ [((run recs).1.check rec).2]) := by
  simp [run]

theorem Roster.run_concat (recs : List (WireRecord F)) (rec : WireRecord F) :
    Roster.run (recs ++ [rec]) =
      (((Roster.run recs).1.check rec).1,
        (Roster.run recs).2 ++ [((Roster.run recs).1.check rec).2]) := by
  simp [Roster.run]

theorem solo_concat (k : UInt64) (recs : List (WireRecord F)) (rec : WireRecord F) :
    solo k (recs ++ [rec]) =
      ((stateful rec (solo k recs).1 (statelessFlags rec)).1,
        (solo k recs).2 ++ [(stateful rec (solo k recs).1 (statelessFlags rec)).2]) := by
  simp [solo]

theorem length_run (recs : List (WireRecord F)) : (run recs).2.length = recs.length := by
  induction recs using List.reverseRecOn with
  | nil => rfl
  | append_singleton recs rec ih => simp [run_concat, ih]

/-- A stream that goes on is more records through the validator it has left. -/
theorem run_append (pre post : List (WireRecord F)) :
    run (pre ++ post) = ((transduce check (run pre).1 post).1,
      (run pre).2 ++ (transduce check (run pre).1 post).2) := by
  induction post generalizing pre with
  | nil => simp [transduce]
  | cons rec post ih =>
    have hsplit : pre ++ rec :: post = pre ++ [rec] ++ post := by simp
    rw [hsplit, ih (pre ++ [rec]), run_concat]
    simp [transduce]

/-- Every stream through the table gives the roster's states and results. -/
theorem holds_run (recs : List (WireRecord F)) :
    Holds (run recs).1.table (Roster.run recs).1 ∧ (run recs).2 = (Roster.run recs).2 := by
  induction recs using List.reverseRecOn with
  | nil => exact ⟨holds_fresh, rfl⟩
  | append_singleton recs rec ih =>
    obtain ⟨hholds, hresult⟩ := ih.1.check rec
    rw [run_concat, Roster.run_concat]
    exact ⟨hholds, by rw [ih.2, hresult]⟩

def keysOf (recs : List (WireRecord F)) : List UInt64 :=
  recs.map fun rec => symbolKey rec.symbol

omit [PriceArith F] in
theorem keysOf_concat (recs : List (WireRecord F)) (rec : WireRecord F) :
    keysOf (recs ++ [rec]) = keysOf recs ++ [symbolKey rec.symbol] := by
  simp [keysOf]

/-- The symbols that have a state are the first that fit into the table. -/
theorem keys_run (recs : List (WireRecord F)) :
    (Roster.run recs).1.keys = firstDistinct kCapacity (keysOf recs) := by
  induction recs using List.reverseRecOn with
  | nil => rfl
  | append_singleton recs rec ih =>
    rw [Roster.run_concat, Roster.keys_check, ih, keysOf_concat, firstDistinct_concat]

theorem accepts_run_iff (recs : List (WireRecord F)) (k : UInt64) :
    (Roster.run recs).1.Accepts k ↔ k ∈ firstDistinct kCapacity (keysOf recs) ∨
      (firstDistinct kCapacity (keysOf recs)).length < kCapacity := by
  unfold Roster.Accepts
  rw [keys_run]

/-- A symbol with a place in the table has its state there, or has had no record yet. -/
theorem mem_of_accepts {recs : List (WireRecord F)} {k : UInt64}
    (h : (Roster.run recs).1.Accepts k) :
    k ∈ firstDistinct kCapacity (keysOf recs) ∨ k ∉ keysOf recs := by
  rcases (accepts_run_iff recs k).mp h with hin | hroom
  · exact Or.inl hin
  · by_cases hin : k ∈ keysOf recs
    · exact Or.inl (mem_firstDistinct_of_room hroom hin)
    · exact Or.inr hin

/-- The records of a symbol that has a state see that state and nothing else. -/
theorem slots_run {symbol : Symbol} {recs : List (WireRecord F)}
    (h : symbolKey symbol ∈ firstDistinct kCapacity (keysOf recs) ∨
      symbolKey symbol ∉ keysOf recs) :
    (Roster.run recs).1.slots (symbolKey symbol) =
        (solo (symbolKey symbol) (recs.filter fun rec => rec.symbol = symbol)).1 ∧
      resultsFor symbol recs (run recs).2 =
        (solo (symbolKey symbol) (recs.filter fun rec => rec.symbol = symbol)).2 := by
  induction recs using List.reverseRecOn with
  | nil => exact ⟨rfl, rfl⟩
  | append_singleton recs rec ih =>
    rw [keysOf_concat] at h
    rw [run_concat, resultsFor_concat symbol (length_run recs), ((holds_run recs).1.check rec).2,
      Roster.run_concat]
    by_cases hs : rec.symbol = symbol
    · subst hs
      -- its own record: accepted, and the state before is the solo state by induction
      have hmem : symbolKey rec.symbol ∈ keysOf recs ++ [symbolKey rec.symbol] := by simp
      have hacc := (accepts_run_iff recs _).mpr
        (room_of_mem_firstDistinct (h.resolve_right (fun hn => hn hmem)))
      obtain ⟨hslot, hresults⟩ := ih (mem_of_accepts hacc)
      have hfilter : (recs ++ [rec]).filter (fun r => r.symbol = rec.symbol) =
          recs.filter (fun r => r.symbol = rec.symbol) ++ [rec] := by simp
      rw [hfilter, solo_concat, if_pos rfl, ← hslot, ← hresults]
      unfold Roster.check
      rw [if_pos hacc]
      exact ⟨Function.update_self .., rfl⟩
    · have hne : symbolKey symbol ≠ symbolKey rec.symbol := fun he =>
        hs (symbolKey_injective he).symm
      have hih : symbolKey symbol ∈ firstDistinct kCapacity (keysOf recs) ∨
          symbolKey symbol ∉ keysOf recs := by
        rcases h with h | h
        · exact Or.inl (mem_firstDistinct_of_concat hne h)
        · exact Or.inr fun hin => h (by simp [hin])
      obtain ⟨hslot, hresults⟩ := ih hih
      have hfilter : (recs ++ [rec]).filter (fun r => r.symbol = symbol) =
          recs.filter (fun r => r.symbol = symbol) := by simp [hs]
      rw [hfilter, if_neg hs, ← hslot, ← hresults]
      refine ⟨?_, rfl⟩
      unfold Roster.check
      dsimp only
      split
      next => exact Function.update_of_ne hne ..
      next => rfl

/-- A record is checked against what its symbol's own records have left, or the table is full. -/
theorem check_run (pre : List (WireRecord F)) (rec : WireRecord F) :
    ((run pre).1.check rec).2 =
      if (Roster.run pre).1.Accepts (symbolKey rec.symbol) then
        (stateful rec (solo (symbolKey rec.symbol)
          (pre.filter fun q => q.symbol = rec.symbol)).1 (statelessFlags rec)).2
      else statelessFlags rec := by
  rw [((holds_run pre).1.check rec).2, Roster.check]
  split
  next hacc => rw [(slots_run (mem_of_accepts hacc)).1]
  next => rfl

/-- The slot that a check of a symbol's record would work on. -/
def slotState (v : Validator F) (symbol : Symbol) : Option (Slot F) :=
  (v.slotFor symbol).map fun found => found.2 found.1

/-- A symbol's slot is what its own records have left. -/
theorem slotState_run (pre : List (WireRecord F)) (symbol : Symbol) :
    (run pre).1.slotState symbol =
      if (Roster.run pre).1.Accepts (symbolKey symbol) then
        some (solo (symbolKey symbol) (pre.filter fun q => q.symbol = symbol)).1
      else none := by
  have hholds := (holds_run pre).1
  unfold slotState slotFor
  split
  next hacc =>
    obtain ⟨j, table', hprobe, hread, _⟩ := hholds.slotFor_accepts hacc
    rw [hprobe, Option.map_some, ← (slots_run (mem_of_accepts hacc)).1, ← hread]
  next hrej => rw [probe_eq, hholds.probe_rejects hrej]; rfl

/-- A stream of one symbol only has a place for it. -/
theorem accepts_own {symbol : Symbol} {own : List (WireRecord F)}
    (hall : ∀ rec ∈ own, rec.symbol = symbol) :
    (Roster.run own).1.Accepts (symbolKey symbol) := by
  rw [accepts_run_iff]
  cases own with
  | nil => exact Or.inr (by simp [keysOf, firstDistinct, kCapacity, kBits])
  | cons rec own =>
    have hpre := firstDistinct_append_left kCapacity [symbolKey symbol] (keysOf own)
    have hkeys : keysOf (rec :: own) = [symbolKey symbol] ++ keysOf own := by
      simp [keysOf, hall rec (by simp)]
    rw [hkeys]
    exact Or.inl (hpre.mem (by simp [firstDistinct, List.eraseDups_cons, kCapacity, kBits]))

/-- A stream of one symbol only. -/
theorem run_own {symbol : Symbol} {own : List (WireRecord F)}
    (hall : ∀ rec ∈ own, rec.symbol = symbol) :
    (run own).2 = (solo (symbolKey symbol) own).2 := by
  have hfilter : own.filter (fun rec => rec.symbol = symbol) = own :=
    List.filter_eq_self.mpr (by simpa using hall)
  have hresults : resultsFor symbol own (run own).2 = (run own).2 := by
    have hzip : ∀ p ∈ own.zip (run own).2, decide (p.1.symbol = symbol) = true := by
      intro p hp
      simpa using hall p.1 (List.of_mem_zip hp).1
    rw [resultsFor, List.filter_eq_self.mpr hzip, List.map_snd_zip (length_run own).le]
  have hown := (slots_run (mem_of_accepts (accepts_own hall))).2
  rwa [hfilter, hresults] at hown

theorem gap_statelessFlags (rec : WireRecord F) : (statelessFlags rec).gap = 0 := by
  cases rec with
  | trade t => simp [statelessFlags, tradeFlags]
  | bar b => simp [statelessFlags, barFlags]
  | quote q =>
    unfold statelessFlags quoteFlags
    dsimp only
    split <;> simp

/-- A symbol among the first 4096 distinct ones of a stream gets the results that a validator of
its own would give it. A record of any other symbol gets its stateless flags, no gap, and leaves
the table as it is. -/
theorem symbol_isolation (recs : List (WireRecord F)) :
    (∀ symbol ∈ firstDistinct 4096 (recs.map WireRecord.symbol),
      resultsFor symbol recs (run recs).2 =
        (run (recs.filter fun rec => rec.symbol = symbol)).2) ∧
    ∀ pre rec post, recs = pre ++ rec :: post →
      rec.symbol ∉ firstDistinct 4096 (recs.map WireRecord.symbol) →
      (run pre).1.check rec = ((run pre).1, statelessFlags rec) ∧ (statelessFlags rec).gap = 0 := by
  have hkeys : ∀ rs : List (WireRecord F), firstDistinct kCapacity (keysOf rs) =
      (firstDistinct kCapacity (rs.map WireRecord.symbol)).map symbolKey := by
    intro rs
    rw [← firstDistinct_map symbolKey_injective, List.map_map]
    rfl
  refine ⟨?_, ?_⟩
  · intro symbol hsymbol
    have hmem : symbolKey symbol ∈ firstDistinct kCapacity (keysOf recs) := by
      rw [hkeys]
      exact List.mem_map_of_mem hsymbol
    rw [(slots_run (Or.inl hmem)).2]
    exact (run_own (symbol_of_mem_filter symbol recs)).symm
  · intro pre rec post hrecs hnot
    refine ⟨(holds_run pre).1.check_rejects ?_, gap_statelessFlags rec⟩
    have hnot : symbolKey rec.symbol ∉
        firstDistinct kCapacity (keysOf pre ++ symbolKey rec.symbol :: keysOf post) := by
      have hsplit : keysOf recs = keysOf pre ++ symbolKey rec.symbol :: keysOf post := by
        simp [hrecs, keysOf]
      rw [← hsplit, hkeys, List.mem_map_of_injective symbolKey_injective]
      exact hnot
    rw [accepts_run_iff]
    exact full_of_not_mem_firstDistinct hnot

end Validator

end OhlcvValidator
