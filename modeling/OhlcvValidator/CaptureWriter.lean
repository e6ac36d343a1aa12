import OhlcvValidator.ReplayFormat

namespace OhlcvValidator

namespace Replay

/-- An output file stream: what the file holds, where the next write goes, and
whether the stream is usable. -/
structure OutStream where
  file : List UInt8 := []
  pos : Nat := 0
  good : Bool := true
  deriving DecidableEq, Repr

namespace OutStream

def write (s : OutStream) (bs : List UInt8) : OutStream :=
  if s.good then { s with file := overwrite s.file s.pos bs, pos := s.pos + bs.length } else s

def seekp (s : OutStream) (pos : Nat) : OutStream :=
  if s.good then { s with pos := pos } else s

end OutStream

structure CaptureWriter where
  out : OutStream
  count : UInt64 := 0
  finalized : Bool := false
  deriving DecidableEq, Repr

namespace CaptureWriter

/-- The constructor; `opened` is whether the file could be opened. -/
def create (opened : Bool) : CaptureWriter :=
  let out : OutStream := { good := opened }
  if out.good then { out := out.write (FileHeader.bytes ⟨kMagic, kVersion, 0⟩) } else { out := out }

def ok (w : CaptureWriter) : Bool := w.out.good

def write (w : CaptureWriter) (rec : WireRecord) : CaptureWriter :=
  if !w.out.good then w
  else { w with out := w.out.write rec.bytes, count := w.count + 1 }

def finalize (w : CaptureWriter) : CaptureWriter :=
  if !w.out.good || w.finalized then w
  else
    { w with
      finalized := true
      out := (w.out.seekp 0).write (FileHeader.bytes ⟨kMagic, kVersion, w.count⟩) }

/-- The destructor; the stream is closed after it. -/
def destroy (w : CaptureWriter) : CaptureWriter := w.finalize

end CaptureWriter

inductive CaptureCall
  | write (rec : WireRecord)
  | finalize
  deriving DecidableEq, Repr

/-- The records that a sequence of calls passes to `write`. -/
def CaptureCall.written (calls : List CaptureCall) : List WireRecord :=
  calls.filterMap fun
    | .write rec => some rec
    | .finalize => none

namespace CaptureWriter

def call (w : CaptureWriter) : CaptureCall → CaptureWriter
  | .write rec => w.write rec
  | .finalize => w.finalize

/-- Calls on a writer whose file opened. -/
def run (calls : List CaptureCall) : CaptureWriter :=
  calls.foldl call (create true)

variable {w : CaptureWriter} {recs : List WireRecord} {calls : List CaptureCall}

/-- Nothing is finalized yet: the records follow a header that counts none. -/
structure Recording (w : CaptureWriter) (recs : List WireRecord) : Prop where
  good : w.out.good = true
  file : w.out.file = FileHeader.bytes ⟨kMagic, kVersion, 0⟩ ++ (recs.map WireRecord.bytes).flatten
  pos : w.out.pos = w.out.file.length
  count : w.count = UInt64.ofNat recs.length
  finalized : w.finalized = false

/-- The header is final and counts `kept` records; what follows it can still change. -/
structure Sealed (w : CaptureWriter) (kept : UInt64) (total : Nat) : Prop where
  good : w.out.good = true
  file : ∃ body, w.out.file = FileHeader.bytes ⟨kMagic, kVersion, kept⟩ ++ body
  pos : kHeaderSize ≤ w.out.pos
  count : w.count = UInt64.ofNat total
  finalized : w.finalized = true

theorem recording_create : Recording (create true) [] where
  good := rfl
  file := by decide
  pos := by decide
  count := rfl
  finalized := rfl

theorem Recording.write (h : Recording w recs) (rec : WireRecord) :
    Recording (w.write rec) (recs ++ [rec]) := by
  have hfile : (w.write rec).out.file = w.out.file ++ rec.bytes := by
    simp only [CaptureWriter.write, OutStream.write, h.good, h.pos, overwrite_end, Bool.not_true,
      Bool.false_eq_true, if_false, if_true]
  refine ⟨?_, ?_, ?_, ?_, ?_⟩
  · simp [CaptureWriter.write, OutStream.write, h.good]
  · rw [hfile, h.file]
    simp
  · rw [hfile]
    simp [CaptureWriter.write, OutStream.write, h.good, h.pos]
  · rw [List.length_append, List.length_singleton, UInt64.ofNat_add, ← h.count]
    simp [CaptureWriter.write, h.good]
  · simp [CaptureWriter.write, h.good, h.finalized]

theorem recording_run (recs : List WireRecord) : Recording (run (recs.map .write)) recs := by
  induction recs using List.reverseRecOn with
  | nil => exact recording_create
  | append_singleton recs rec ih =>
    rw [run, List.map_append, List.foldl_append]
    exact ih.write rec

/-- Finalizing patches the count into the header and leaves the records alone. -/
theorem Recording.finalize (h : Recording w recs) :
    w.finalize.out.file = fileOf recs ∧ Sealed w.finalize (UInt64.ofNat recs.length) recs.length := by
  have hfile : w.finalize.out.file = fileOf recs := by
    simp only [CaptureWriter.finalize, OutStream.seekp, OutStream.write, h.good, h.finalized,
      Bool.not_true, Bool.or_self, Bool.false_eq_true, if_false, if_true]
    rw [h.file, overwrite_head (by simp), h.count, fileOf]
  refine ⟨hfile, ?_, ⟨_, hfile⟩, ?_, ?_, ?_⟩
  · simp [CaptureWriter.finalize, OutStream.seekp, OutStream.write, h.good, h.finalized]
  · simp [CaptureWriter.finalize, OutStream.seekp, OutStream.write, h.good, h.finalized]
  · simp [CaptureWriter.finalize, h.good, h.finalized, h.count]
  · simp [CaptureWriter.finalize, h.good, h.finalized]

theorem Sealed.finalize {kept : UInt64} {total : Nat} (h : Sealed w kept total) :
    w.finalize = w := by
  simp [CaptureWriter.finalize, h.finalized]

theorem Sealed.call {kept : UInt64} {total : Nat} (h : Sealed w kept total) (c : CaptureCall) :
    Sealed (w.call c) kept (total + (CaptureCall.written [c]).length) := by
  cases c with
  | finalize =>
    change Sealed w.finalize kept total
    rwa [h.finalize]
  | write rec =>
    obtain ⟨body, hbody⟩ := h.file
    change Sealed (w.write rec) kept (total + 1)
    refine ⟨?_, ⟨overwrite body (w.out.pos - kHeaderSize) rec.bytes, ?_⟩, ?_, ?_, ?_⟩
    · simp [CaptureWriter.write, OutStream.write, h.good]
    · have hpos := h.pos
      simp only [CaptureWriter.write, OutStream.write, h.good, hbody, Bool.not_true,
        Bool.false_eq_true, if_false, if_true]
      rw [overwrite_append_right (by rwa [FileHeader.length_bytes]), FileHeader.length_bytes]
    · have := h.pos
      simp only [CaptureWriter.write, OutStream.write, h.good, Bool.not_true, Bool.false_eq_true,
        if_false, if_true]
      omega
    · simp [CaptureWriter.write, h.good, h.count, UInt64.ofNat_add]
    · simp [CaptureWriter.write, h.good, h.finalized]

theorem Sealed.run {kept : UInt64} {total : Nat} (h : Sealed w kept total)
    (calls : List CaptureCall) :
    Sealed (calls.foldl CaptureWriter.call w) kept (total + (CaptureCall.written calls).length) := by
  induction calls generalizing w total with
  | nil => exact h
  | cons c calls ih =>
    have hlen : (CaptureCall.written (c :: calls)).length =
        (CaptureCall.written [c]).length + (CaptureCall.written calls).length := by
      rw [← List.singleton_append, CaptureCall.written, List.filterMap_append, List.length_append]
      rfl
    rw [List.foldl_cons, hlen, ← Nat.add_assoc]
    exact ih (h.call c)

theorem Sealed.run_finalize {kept : UInt64} {total : Nat} (h : Sealed w kept total)
    {calls : List CaptureCall} (hall : ∀ c ∈ calls, c = .finalize) : calls.foldl CaptureWriter.call w = w := by
  induction calls with
  | nil => rfl
  | cons c calls ih =>
    obtain rfl := hall c (by simp)
    rw [List.foldl_cons]
    change List.foldl CaptureWriter.call w.finalize calls = w
    rw [h.finalize]
    exact ih fun c hc => hall c (by simp [hc])

/-- A sealed file never shows more records than its header counts. -/
theorem Sealed.view_count {kept : UInt64} {total : Nat} (h : Sealed w kept total) :
    (viewReplay (some w.out.file)).count = kept ∨ (viewReplay (some w.out.file)).error ≠ none := by
  obtain ⟨body, hbody⟩ := h.file
  rw [hbody, viewReplay_header]
  split
  next => exact Or.inr (by simp)
  next => exact Or.inl rfl

end CaptureWriter

namespace CaptureCall

theorem eq_map_written {calls : List CaptureCall} (h : CaptureCall.finalize ∉ calls) :
    calls = (written calls).map .write := by
  induction calls with
  | nil => rfl
  | cons c calls ih =>
    cases c with
    | finalize => simp at h
    | write rec =>
      have hrest := ih (by simpa using h)
      change _ = CaptureCall.write rec :: (written calls).map .write
      rw [← hrest]

theorem written_eq_nil_iff {calls : List CaptureCall} :
    written calls = [] ↔ ∀ c ∈ calls, c = .finalize := by
  rw [written, List.filterMap_eq_nil_iff]
  refine forall₂_congr fun c _ => ?_
  cases c <;> simp

end CaptureCall

namespace CaptureWriter

theorem Recording.destroy_shows (h : Recording w recs) (hn : recs.length < 2 ^ 64) :
    (viewReplay (some w.destroy.out.file)).Shows recs ∧
      (viewReplay (some w.destroy.out.file)).count = w.destroy.count := by
  obtain ⟨hfile, hsealed⟩ := h.finalize
  have hshows : (viewReplay (some w.destroy.out.file)).Shows recs := by
    rw [destroy, hfile]
    exact viewReplay_fileOf hn
  refine ⟨hshows, ?_⟩
  apply UInt64.toNat_inj.mp
  rw [hshows.2.1, destroy, hsealed.count, UInt64.toNat_ofNat_of_lt' (by simpa using hn)]

/-- After the destructor, the file shows every written record in order and
`count()` of them exactly if no record was written after a `finalize()`. -/
theorem capture_complete_iff {calls : List CaptureCall}
    (hsize : kHeaderSize + kStride * (CaptureCall.written calls).length < 2 ^ 64) :
    ((viewReplay (some (run calls).destroy.out.file)).Shows (CaptureCall.written calls) ∧
      (viewReplay (some (run calls).destroy.out.file)).count = (run calls).destroy.count) ↔
    calls.Pairwise fun c d => c = .finalize → d = .finalize := by
  have hn := length_lt_of_size_lt hsize
  by_cases hfin : CaptureCall.finalize ∈ calls
  · -- split at the first `finalize`: records before it are kept, later ones are not counted
    obtain ⟨pre, post, rfl, hpre⟩ := List.eq_append_cons_of_mem hfin
    have hwritten : CaptureCall.written (pre ++ .finalize :: post) =
        CaptureCall.written pre ++ CaptureCall.written post := by
      simp [CaptureCall.written]
    have hrec : Recording (run pre) (CaptureCall.written pre) := by
      have := recording_run (CaptureCall.written pre)
      rwa [← CaptureCall.eq_map_written hpre] at this
    have hsealed := hrec.finalize.2
    have hrun : run (pre ++ .finalize :: post) =
        post.foldl CaptureWriter.call (run pre).finalize := by
      rw [run, List.foldl_append, List.foldl_cons]
      rfl
    rw [hrun, hwritten]
    rw [hwritten, List.length_append] at hn
    by_cases hpost : CaptureCall.written post = []
    · have hall := CaptureCall.written_eq_nil_iff.mp hpost
      have hpair : (pre ++ .finalize :: post).Pairwise fun c d => c = .finalize → d = .finalize := by
        rw [List.pairwise_append]
        refine ⟨List.pairwise_of_forall_mem_list fun c hc d _ he => absurd (he ▸ hc) hpre,
          List.pairwise_of_forall_mem_list ?_, fun c hc d _ he => absurd (he ▸ hc) hpre⟩
        intro c _ d hd _
        rcases List.mem_cons.mp hd with rfl | hd
        · rfl
        · exact hall d hd
      rw [hsealed.run_finalize hall, hpost, List.append_nil, destroy, hsealed.finalize]
      exact iff_of_true (hrec.destroy_shows (by omega)) hpair
    · have hpos : 0 < (CaptureCall.written post).length := List.length_pos_iff.mpr hpost
      have hlater := hsealed.run post
      rw [destroy, hlater.finalize]
      refine iff_of_false ?_ ?_
      · rintro ⟨⟨herr, hcount, _⟩, _⟩
        rcases hlater.view_count with hkept | hne
        · rw [hkept, List.length_append, UInt64.toNat_ofNat_of_lt' (show _ < 2 ^ 64 by omega)]
            at hcount
          omega
        · exact hne herr
      · intro hpair
        have hcons := (List.pairwise_append.mp hpair).2.1
        have hall := (List.pairwise_cons.mp hcons).1
        exact hpost (CaptureCall.written_eq_nil_iff.mpr fun d hd => hall d hd rfl)
  · have hrec : Recording (run calls) (CaptureCall.written calls) := by
      have := recording_run (CaptureCall.written calls)
      rwa [← CaptureCall.eq_map_written hfin] at this
    exact iff_of_true (hrec.destroy_shows hn)
      (List.pairwise_of_forall_mem_list fun c hc d _ he => absurd (he ▸ hc) hfin)

theorem capture_complete_twoFinalizes :
    (viewReplay (some (run [.write (fill 0), .write (fill 1), .finalize,
      .finalize]).destroy.out.file)).Shows [fill 0, fill 1] := by
  have hpair : [CaptureCall.write (fill 0), .write (fill 1), .finalize, .finalize].Pairwise
      fun c d => c = .finalize → d = .finalize := by decide
  exact ((capture_complete_iff (by decide)).mpr hpair).1

/-- A record written after `finalize()` lands on the first one and is not counted. -/
theorem capture_overwrites_after_finalize :
    (viewReplay (some (run [.write (fill 0), .finalize, .write (fill 1)]).destroy.out.file)).Shows
        [fill 1] ∧
      (run [.write (fill 0), .finalize, .write (fill 1)]).destroy.count = 2 ∧
      CaptureCall.written [.write (fill 0), .finalize, .write (fill 1)] = [fill 0, fill 1] := by
  decide +kernel

end CaptureWriter

end Replay

end OhlcvValidator
