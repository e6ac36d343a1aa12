import OhlcvValidator.MaskIndex
import OhlcvValidator.BookTracker

namespace OhlcvValidator

namespace BookBuilder

open OrderBook (Shows)
open BookTracker (later later_cons contiguousFrom hold)

variable {P : Type} {m k : Nat}

theorem checkBuffered_spec (buf : Vector (BookDelta P) k) (asOf expect : UInt64) {count i : Nat}
    (h : i + count ≤ k) :
    checkBuffered buf asOf count i expect =
      some (if contiguousFrom expect (later asOf ((entries buf (i + count)).drop i)) then
        some (expect + UInt64.ofNat (later asOf ((entries buf (i + count)).drop i)).length)
      else none) := by
  induction count generalizing i expect with
  | zero => simp [checkBuffered, entries_drop_self, later, contiguousFrom]
  | succ count ih =>
    have hnext : i + 1 + count ≤ k := by omega
    unfold checkBuffered
    rw [load_some (show i < k by omega), entries_drop_cons (by omega), later_cons]
    simp only [Option.bind_eq_bind, Option.bind_some]
    by_cases hle : buf[i].seq ≤ asOf
    · rw [if_pos hle, if_neg (UInt64.not_lt.mpr hle), ih expect hnext]
    · rw [if_neg hle, if_pos (UInt64.not_le.mp hle)]
      by_cases hseq : buf[i].seq = expect
      · rw [if_neg (not_not.mpr hseq), ih (expect + 1) hnext]
        simp only [contiguousFrom, hseq, decide_true, Bool.true_and, List.length_cons]
        rw [succ_add_ofNat]
      · rw [if_pos hseq]
        simp [contiguousFrom, hseq]

variable [LinearOrder P] [Zero P]

/-- The builder is in the state that the tracker names, with the same book or deltas. -/
def Tracks (b : BookBuilder P m k) : BookTracker P m → Prop
  | .recovering pending =>
    b.state = .recovering ∧ b.nbuf ≤ k ∧ entries b.buf b.nbuf = pending ∧ ∃ v, Shows b.book v
  | .live expected v =>
    b.state = .live ∧ b.nbuf = 0 ∧ b.expected = expected ∧ Shows b.book v

theorem tracks_fresh : Tracks ({} : BookBuilder P m k) (.recovering []) :=
  ⟨rfl, Nat.zero_le k, rfl, _, OrderBook.shows_fresh⟩

theorem replay_spec (buf : Vector (BookDelta P) k) (asOf : UInt64) {count i : Nat}
    (h : i + count ≤ k) {book : OrderBook P m} {v : Depth P m} (hshows : Shows book v) :
    ∃ book', replay buf asOf count i book = some book' ∧
      Shows book' ((later asOf ((entries buf (i + count)).drop i)).foldl Depth.applyDelta v) := by
  induction count generalizing i book v with
  | zero => exact ⟨book, rfl, by simpa [entries_drop_self, later] using hshows⟩
  | succ count ih =>
    have hnext : i + 1 + count ≤ k := by omega
    unfold replay
    rw [load_some (show i < k by omega), entries_drop_cons (by omega), later_cons]
    simp only [Option.bind_eq_bind, Option.bind_some]
    by_cases hlt : asOf < buf[i].seq
    · obtain ⟨b', hb', hs'⟩ := hshows.apply (Side.ofByte buf[i].side) buf[i].price buf[i].newSize
      obtain ⟨book', hreplay, hs⟩ := ih hnext hs'
      refine ⟨book', ?_, ?_⟩
      · rw [if_pos hlt, OrderBook.applyDelta, hb', Option.bind_some, hreplay]
      · rw [if_pos hlt, List.foldl_cons]
        exact hs
    · rw [if_neg hlt, if_neg hlt]
      exact ih hnext hshows

theorem applyLevels_spec (book : OrderBook P m) (levels : List (SnapshotLevel P)) :
    ∃ book', levels.foldlM applyLevel book.clear = some book' ∧
      Shows book' (Depth.rebuild levels) :=
  foldlM_simulates (f := applyLevel) (g := Depth.applyLevel) (R := Shows)
    (fun _ _ l _ h => h.apply (Side.ofByte l.side) l.price l.size) (OrderBook.shows_clear book)

theorem tracks_buffer {b : BookBuilder P m k} {v : Depth P m} (hstate : b.state = .recovering)
    (hn : b.nbuf ≤ k) (hshows : Shows b.book v) (d : BookDelta P) :
    ∃ b', b.buffer d = some b' ∧ Tracks b' (.recovering (hold k (entries b.buf b.nbuf) d)) := by
  unfold buffer hold
  rw [entries_length hn]
  split
  next hroom =>
    refine ⟨{ b with buf := b.buf.set b.nbuf d, nbuf := b.nbuf + 1 }, ?_, hstate, hroom, ?_, v,
      hshows⟩
    · simp [store_some hroom]
    · exact entries_push hroom d
  next => exact ⟨_, rfl, hstate, hn, rfl, v, hshows⟩

theorem tracks_onDelta {b : BookBuilder P m k} {t : BookTracker P m} (h : Tracks b t)
    (d : BookDelta P) : ∃ b', b.onDelta d = some b' ∧ Tracks b' (t.onDelta k d) := by
  unfold onDelta BookTracker.onDelta
  cases t with
  | recovering pending =>
    obtain ⟨hstate, hn, hentries, v, hshows⟩ := h
    rw [if_neg (by simp [hstate]), ← hentries]
    exact tracks_buffer hstate hn hshows d
  | live expected v =>
    obtain ⟨hstate, hn, hexp, hshows⟩ := h
    subst hexp
    rw [if_pos hstate]
    by_cases heq : d.seq = b.expected
    · obtain ⟨book, hbook, hs⟩ := hshows.apply (Side.ofByte d.side) d.price d.newSize
      simp only [if_pos heq, OrderBook.applyDelta, hbook]
      exact ⟨_, rfl, hstate, hn, rfl, hs⟩
    · by_cases hgap : b.expected < d.seq
      · simp only [if_neg heq, if_pos hgap]
        exact tracks_buffer (b := { b with
          stats := { b.stats with gaps := b.stats.gaps + 1 }
          state := .recovering
          nbuf := 0 }) rfl (Nat.zero_le k) hshows d
      · simp only [if_neg heq, if_neg hgap]
        exact ⟨_, rfl, hstate, hn, rfl, hshows⟩

section OnSnapshot

variable (b : BookBuilder P m k) (hn : b.nbuf ≤ k) (asOf : UInt64)
  (levels : List (SnapshotLevel P)) (hlive : ¬(b.state = .live ∧ asOf < b.expected))
include hn hlive

/-- Behind the stale check, increments without a hole are replayed over the snapshot. -/
theorem onSnapshot_commits
    (hrun : contiguousFrom (asOf + 1) (later asOf (entries b.buf b.nbuf)) = true) :
    ∃ book, b.onSnapshot asOf levels = some { b with
        book := book
        expected := asOf + 1 + UInt64.ofNat (later asOf (entries b.buf b.nbuf)).length
        nbuf := 0
        state := .live
        stats := { b.stats with recovered := b.stats.recovered + 1 } } ∧
      Shows book ((later asOf (entries b.buf b.nbuf)).foldl Depth.applyDelta
        (Depth.rebuild levels)) := by
  have hcheck := checkBuffered_spec b.buf asOf (asOf + 1) (show 0 + b.nbuf ≤ k by omega)
  obtain ⟨book, hbook, hs⟩ := applyLevels_spec b.book levels
  obtain ⟨book', hreplay, hs'⟩ := replay_spec b.buf asOf (show 0 + b.nbuf ≤ k by omega) hs
  simp only [Nat.zero_add, List.drop_zero] at hcheck hreplay hs'
  refine ⟨book', ?_, hs'⟩
  unfold onSnapshot
  rw [if_neg hlive, hcheck]
  simp only [hrun, if_true, Option.bind_eq_bind, Option.bind_some, hbook, hreplay]
  rfl

/-- A hole is counted, and nothing else changes. -/
theorem onSnapshot_rejects
    (hhole : ¬contiguousFrom (asOf + 1) (later asOf (entries b.buf b.nbuf)) = true) :
    b.onSnapshot asOf levels = some
      { b with stats := { b.stats with snapshotTooOld := b.stats.snapshotTooOld + 1 } } := by
  have hcheck := checkBuffered_spec b.buf asOf (asOf + 1) (show 0 + b.nbuf ≤ k by omega)
  simp only [Nat.zero_add, List.drop_zero] at hcheck
  unfold onSnapshot
  rw [if_neg hlive, hcheck]
  simp only [hhole, Option.bind_eq_bind, Option.bind_some]
  rfl

/-- The part of `on_snapshot` behind the stale check, in the tracker's terms. -/
theorem tracks_commit :
    (∃ b' t, b.onSnapshot asOf levels = some b' ∧ Tracks b' t ∧
      BookTracker.resync asOf levels (entries b.buf b.nbuf) = some t) ∨
    (b.onSnapshot asOf levels = some
        { b with stats := { b.stats with snapshotTooOld := b.stats.snapshotTooOld + 1 } } ∧
      BookTracker.resync (m := m) asOf levels (entries b.buf b.nbuf) = none) := by
  by_cases hrun : contiguousFrom (asOf + 1) (later asOf (entries b.buf b.nbuf)) = true
  · obtain ⟨book, hbook, hs⟩ := onSnapshot_commits b hn asOf levels hlive hrun
    refine Or.inl ⟨_, _, hbook, ?_, if_pos hrun⟩
    exact ⟨rfl, rfl, rfl, hs⟩
  · exact Or.inr ⟨onSnapshot_rejects b hn asOf levels hlive hrun, if_neg hrun⟩

end OnSnapshot

theorem tracks_onSnapshot {b : BookBuilder P m k} {t : BookTracker P m} (h : Tracks b t)
    (asOf : UInt64) (levels : List (SnapshotLevel P)) :
    ∃ b', b.onSnapshot asOf levels = some b' ∧ Tracks b' (t.onSnapshot asOf levels) := by
  cases t with
  | recovering pending =>
    obtain ⟨hstate, hn, hentries, v, hshows⟩ := h
    subst hentries
    rcases tracks_commit b hn asOf levels (by simp [hstate]) with
      ⟨b', t, hb', ht, hsync⟩ | ⟨hb', hsync⟩
    · exact ⟨b', hb', by simpa [BookTracker.onSnapshot, hsync] using ht⟩
    · refine ⟨_, hb', ?_⟩
      rw [BookTracker.onSnapshot, hsync]
      exact ⟨hstate, hn, rfl, v, hshows⟩
  | live expected v =>
    obtain ⟨hstate, hn, hexp, hshows⟩ := h
    subst hexp
    by_cases hstale : asOf < b.expected
    · refine ⟨b, by simp [onSnapshot, hstate, hstale], ?_⟩
      rw [BookTracker.onSnapshot, if_pos hstale]
      exact ⟨hstate, hn, rfl, hshows⟩
    · have hempty : entries b.buf b.nbuf = [] := by rw [hn]; rfl
      have hsync : BookTracker.resync (m := m) asOf levels (entries b.buf b.nbuf) =
          some (.live (asOf + 1) (Depth.rebuild levels)) := by
        rw [hempty]
        simp [BookTracker.resync, later, contiguousFrom]
      rw [BookTracker.onSnapshot, if_neg hstale]
      rcases tracks_commit b (by omega) asOf levels (by simp [hstale]) with
        ⟨b', t, hb', ht, hsync'⟩ | ⟨_, hsync'⟩
      · obtain rfl := Option.some.inj (hsync.symm.trans hsync')
        exact ⟨b', hb', ht⟩
      · rw [hsync] at hsync'
        simp at hsync'

theorem tracks_call {b : BookBuilder P m k} {t : BookTracker P m} (h : Tracks b t)
    (c : BuilderCall P) : ∃ b', b.call c = some b' ∧ Tracks b' (t.call k c) := by
  cases c with
  | delta d => exact tracks_onDelta h d
  | snapshot asOf levels => exact tracks_onSnapshot h asOf levels

/-- Along every run the builder stays in bounds and in step with the tracker. -/
theorem tracks_run (m k : Nat) (calls : List (BuilderCall P)) :
    ∃ b, run m k calls = some b ∧ Tracks b (BookTracker.run m k calls) :=
  foldlM_simulates (f := call) (g := BookTracker.call k) (R := Tracks)
    (fun _ _ c _ h => tracks_call h c) tracks_fresh

end BookBuilder

end OhlcvValidator
