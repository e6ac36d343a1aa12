import OhlcvValidator.BookBuilderRefinement
import OhlcvValidator.BookTrackerAhead

namespace OhlcvValidator

variable {P : Type} [LinearOrder P] {m k : Nat}

namespace BookBuilder

variable [Zero P]

/-- The call of `buffer` has no room for the next delta and only counts it. -/
def BufferFull (b : BookBuilder P m k) : Prop :=
  b.state = .recovering ∧ ¬b.nbuf < k

/-- A call of `on_snapshot` gets past its stale check and its contiguity check. -/
def Commits (b : BookBuilder P m k) (asOf : UInt64) : Prop :=
  ¬(b.state = .live ∧ asOf < b.expected) ∧
    ∃ expect, checkBuffered b.buf asOf b.nbuf 0 (asOf + 1) = some (some expect)

/-- A delta of the run that was dropped because the recovery buffer was full. -/
def DroppedIn (m k : Nat) (calls : List (BuilderCall P)) (d : BookDelta P) : Prop :=
  ∃ pre b, pre ++ [.delta d] <+: calls ∧ run m k pre = some b ∧ b.BufferFull

theorem Tracks.bufferFull_iff {b : BookBuilder P m k} {t : BookTracker P m} (h : Tracks b t) :
    b.BufferFull ↔ t.Full k := by
  unfold BufferFull BookTracker.Full
  cases t with
  | recovering pending =>
    obtain ⟨hstate, hn, hentries, _⟩ := h
    subst hentries
    show _ ↔ k ≤ (entries b.buf b.nbuf).length
    rw [entries_length hn, Nat.not_lt]
    exact and_iff_right hstate
  | live expected v => simp [h.1]

theorem Tracks.commits_iff {b : BookBuilder P m k} {t : BookTracker P m} (h : Tracks b t)
    (asOf : UInt64) : b.Commits asOf ↔ t.Accepts asOf := by
  have hn : b.nbuf ≤ k := by
    cases t with
    | recovering pending => exact h.2.1
    | live expected v => rw [h.2.1]; exact Nat.zero_le k
  have hcheck := checkBuffered_spec b.buf asOf (asOf + 1) (show 0 + b.nbuf ≤ k by omega)
  simp only [Nat.zero_add, List.drop_zero] at hcheck
  unfold Commits BookTracker.Accepts
  rw [hcheck]
  cases t with
  | recovering pending =>
    obtain ⟨hstate, _, hentries, _⟩ := h
    simp [hstate, hentries]
  | live expected v =>
    obtain ⟨hstate, hzero, rfl, _⟩ := h
    simp [hstate, hzero, entries, BookTracker.later, BookTracker.contiguousFrom]

theorem droppedIn_iff {calls : List (BuilderCall P)} {d : BookDelta P} :
    DroppedIn m k calls d ↔ BookTracker.Lost m k calls d := by
  constructor
  · intro h
    obtain ⟨pre, b, hpre, hb, hfull⟩ := h
    obtain ⟨b', hb', htracks⟩ := tracks_run m k pre
    obtain rfl : b = b' := Option.some.inj (hb.symm.trans hb')
    exact ⟨pre, hpre, htracks.bufferFull_iff.mp hfull⟩
  · intro h
    obtain ⟨pre, hpre, hfull⟩ := h
    obtain ⟨b, hb, htracks⟩ := tracks_run m k pre
    exact ⟨pre, b, hpre, hb, htracks.bufferFull_iff.mpr hfull⟩

theorem Tracks.live_ahead_iff {calls : List (BuilderCall P)} {b : BookBuilder P m k}
    (h : Tracks b (BookTracker.run m k calls)) :
    (b.state = .live → ∀ d ∈ received calls, d.seq < b.expected) ↔
      BookTracker.Ahead m k calls := by
  unfold BookTracker.Ahead
  generalize BookTracker.run m k calls = t at h
  cases t with
  | recovering pending => simp [h.1]
  | live expected v =>
    obtain ⟨hstate, _, hexp, _⟩ := h
    constructor
    · intro hahead e w he
      obtain ⟨rfl, _⟩ := BookTracker.live.inj he
      exact hexp ▸ hahead hstate
    · intro hahead _
      exact hexp ▸ hahead expected v rfl

/-- After every call of a run, a live builder expects a number beyond every delta received,
exactly if no snapshot is committed that is older than a delta dropped by a full buffer, nor
one as of the largest number after a delta. -/
theorem live_ahead_of_received_iff {m k : Nat} (hk : 0 < k) {calls : List (BuilderCall P)}
    (hseq : InSequence calls) :
    (∀ pre, pre <+: calls → ∃ b, run m k pre = some b ∧
      (b.state = .live → ∀ d ∈ received pre, d.seq < b.expected)) ↔
    ∀ pre asOf levels b, pre ++ [.snapshot asOf levels] <+: calls → run m k pre = some b →
      b.Commits asOf →
      (∀ d, DroppedIn m k pre d → d.seq ≤ asOf) ∧
        (asOf.toNat = 2 ^ 64 - 1 → received pre = []) := by
  have hahead : (∀ pre, pre <+: calls → ∃ b, run m k pre = some b ∧
      (b.state = .live → ∀ d ∈ received pre, d.seq < b.expected)) ↔
      ∀ pre, pre <+: calls → BookTracker.Ahead m k pre := by
    refine forall₂_congr fun pre _ => ?_
    obtain ⟨b, hb, htracks⟩ := tracks_run m k pre
    simp only [hb, Option.some.injEq, exists_eq_left', htracks.live_ahead_iff]
  rw [hahead, BookTracker.ahead_run_iff hk hseq]
  refine forall₃_congr fun pre asOf levels => ?_
  obtain ⟨b, hb, htracks⟩ := tracks_run m k pre
  have hover : ¬BookTracker.Overtaken m k pre asOf ↔
      (∀ d, DroppedIn m k pre d → d.seq ≤ asOf) ∧
        (asOf.toNat = 2 ^ 64 - 1 → received pre = []) := by
    unfold BookTracker.Overtaken
    push Not
    simp only [droppedIn_iff, UInt64.not_lt]
  constructor
  · intro h b' hpre hb' hcommits
    obtain rfl : b = b' := Option.some.inj (hb.symm.trans hb')
    exact hover.mp (h hpre ((htracks.commits_iff asOf).mp hcommits))
  · intro h hpre hacc
    exact hover.mpr (h b hpre hb ((htracks.commits_iff asOf).mpr hacc))

def overflow (asOf : UInt64) : List (BuilderCall ℤ) :=
  [.delta ⟨1, 100, 5, 0⟩, .delta ⟨2, 100, 6, 0⟩, .snapshot asOf []]

/-- With a buffer for one delta the second is dropped, and the snapshot that fits the first
makes the builder live without the second. -/
theorem live_without_dropped_delta :
    InSequence (overflow 0) ∧ ⟨2, 100, 6, 0⟩ ∈ received (overflow 0) ∧
      (run 1 1 (overflow 0)).map (fun b => (b.state, b.expected)) = some (.live, 2) := by
  refine ⟨⟨by decide, by decide⟩, by decide, by decide⟩

/-- The same run with a snapshot that is not older than the dropped delta. -/
theorem live_ahead_newerSnapshot :
    0 < 1 ∧ InSequence (overflow 2) ∧ ∃ b, run 1 1 (overflow 2) = some b ∧ b.state = .live ∧
      ∀ d ∈ received (overflow 2), d.seq < b.expected := by
  have hseq : InSequence (overflow 2) := ⟨by decide, by decide⟩
  have hstate : (run 1 1 (overflow 2)).map (fun b => b.state) = some .live := by decide
  suffices hahead : ∃ b, run 1 1 (overflow 2) = some b ∧
      (b.state = .live → ∀ d ∈ received (overflow 2), d.seq < b.expected) by
    obtain ⟨b, hb, hahead⟩ := hahead
    rw [hb] at hstate
    exact ⟨by decide, hseq, b, hb, Option.some.inj hstate, hahead (Option.some.inj hstate)⟩
  refine (live_ahead_of_received_iff (by decide) hseq).mpr ?_ _ List.prefix_rfl
  intro pre asOf levels b hpre _ _
  have hlen : pre.length < 3 := by simpa [overflow] using hpre.length_le
  have htake := List.prefix_iff_eq_take.mp hpre
  rw [List.length_append, List.length_singleton] at htake
  have hlast := congrArg List.getLast? htake
  have hinit := congrArg List.dropLast htake
  interval_cases pre.length
  · simp [overflow] at hlast
  · simp [overflow] at hlast
  · simp [overflow] at hlast hinit
    obtain ⟨rfl, rfl⟩ := hlast
    subst hinit
    refine ⟨?_, by decide⟩
    intro d hd
    have hmem := (droppedIn_iff.mp hd).received
    simp [received, BuilderCall.delta?] at hmem
    rcases hmem with rfl | rfl <;> decide

end BookBuilder

end OhlcvValidator
