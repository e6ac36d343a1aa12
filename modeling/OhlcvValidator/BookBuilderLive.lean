import OhlcvValidator.MaskIndex
import OhlcvValidator.BookBuilderRefinement
import OhlcvValidator.SnapshotRebuild

namespace OhlcvValidator

variable {P : Type}

/-- A stream of deltas, the one with number `j` carrying the sequence number `j`. -/
structure DeltaStream (P : Type) where
  delta : Nat → BookDelta P
  seq_eq : ∀ j, 1 ≤ j → j < 2 ^ 64 - 1 → (delta j).seq.toNat = j

def DeltaStream.Carries (d : DeltaStream P) (x : BookDelta P) : Prop :=
  ∃ j, 1 ≤ j ∧ j < 2 ^ 64 - 1 ∧ x = d.delta j

variable [LinearOrder P] {m k : Nat}

namespace OrderBook

variable [Zero P]

/-- The book after the first `n` deltas of the stream, applied to an empty book. -/
def ref (m : Nat) (d : DeltaStream P) (n : Nat) : Option (OrderBook P m) :=
  (List.range n).foldlM (fun b j => b.applyDelta (d.delta (j + 1))) {}

/-- The levels of a book as a snapshot lists them. -/
def snapshotOf (b : OrderBook P m) : List (SnapshotLevel P) :=
  (b.levels .bid).map (Level.toSnapshot .bid) ++ (b.levels .ask).map (Level.toSnapshot .ask)

end OrderBook

namespace Depth

def ref (m : Nat) (d : DeltaStream P) (n : Nat) : Depth P m :=
  (List.range n).foldl (fun v j => v.applyDelta (d.delta (j + 1))) Depth.empty

theorem ref_succ (d : DeltaStream P) (n : Nat) :
    ref m d (n + 1) = (ref m d n).applyDelta (d.delta (n + 1)) := by
  simp [ref, List.range_succ]

/-- Contiguous deltas of the stream carry the reference book on. -/
theorem foldl_contiguous {d : DeltaStream P} {ds : List (BookDelta P)} {expect : UInt64} {n : Nat}
    (hds : ∀ x ∈ ds, d.Carries x) (hexp : expect.toNat = n + 1)
    (hrun : BookTracker.contiguousFrom expect ds = true) :
    ds.foldl applyDelta (ref m d n) = ref m d (n + ds.length) ∧
      (expect + UInt64.ofNat ds.length).toNat = n + ds.length + 1 := by
  induction ds generalizing expect n with
  | nil => exact ⟨rfl, by simpa using hexp⟩
  | cons x ds ih =>
    unfold BookTracker.contiguousFrom at hrun
    obtain ⟨hseq, hrun⟩ := Bool.and_eq_true_iff.mp hrun
    obtain ⟨j, hj, hmax, hx⟩ := hds x (by simp)
    have hjn : j = n + 1 := by
      rw [← d.seq_eq j hj hmax, ← hx, of_decide_eq_true hseq, hexp]
    have hnext : (expect + 1).toNat = n + 1 + 1 := by
      rw [toNat_succ (by omega), hexp]
    obtain ⟨hfold, hend⟩ := ih (fun y hy => hds y (by simp [hy])) hnext hrun
    refine ⟨?_, ?_⟩
    · rw [List.foldl_cons, hx, hjn, ← ref_succ, hfold, List.length_cons]
      congr 1
      omega
    · rw [List.length_cons, ← succ_add_ofNat, hend]
      omega

end Depth

/-- A call made of the stream: one of its deltas, or a snapshot of its reference book with
the levels in any order. -/
def BuilderCall.FromStream [Zero P] (m : Nat) (d : DeltaStream P) : BuilderCall P → Prop
  | .delta x => d.Carries x
  | .snapshot asOf levels => asOf.toNat < 2 ^ 64 - 1 ∧
      ∃ r, OrderBook.ref m d asOf.toNat = some r ∧ levels.Perm r.snapshotOf

namespace BookTracker

/-- Nothing but deltas of the stream is pending, and a live book is the reference book. -/
def Faithful (d : DeltaStream P) : BookTracker P m → Prop
  | .recovering pending => ∀ x ∈ pending, d.Carries x
  | .live expected v => ∃ n, expected.toNat = n + 1 ∧ v = Depth.ref m d n

theorem faithful_onDelta {d : DeltaStream P} {t : BookTracker P m} {x : BookDelta P}
    (h : t.Faithful d) (hx : d.Carries x) : (t.onDelta k x).Faithful d := by
  unfold onDelta
  split
  next pending =>
    intro y hy
    rcases mem_hold hy with hy | rfl
    · exact h y hy
    · exact hx
  next expected v =>
    obtain ⟨n, hexp, rfl⟩ := h
    split
    next hseq =>
      obtain ⟨j, hj, hmax, rfl⟩ := hx
      have hjn : j = n + 1 := by rw [← d.seq_eq j hj hmax, hseq, hexp]
      refine ⟨n + 1, ?_, ?_⟩
      · rw [toNat_succ (by omega), hexp]
      · rw [Depth.ref_succ, hjn]
    next =>
      split
      next =>
        intro y hy
        rcases mem_hold hy with hy | rfl
        · exact absurd hy List.not_mem_nil
        · exact hx
      next => exact ⟨n, hexp, rfl⟩

theorem faithful_onSnapshot {d : DeltaStream P} {t : BookTracker P m} {asOf : UInt64}
    {levels : List (SnapshotLevel P)} (h : t.Faithful d) (hmax : asOf.toNat < 2 ^ 64 - 1)
    (hlevels : levels.Perm (Depth.snapshotOf (Depth.ref m d asOf.toNat))) :
    (t.onSnapshot asOf levels).Faithful d := by
  have hrebuild := Depth.rebuild_perm hlevels
  have hexp : (asOf + 1).toNat = asOf.toNat + 1 := toNat_succ (by omega)
  unfold onSnapshot
  split
  next pending =>
    unfold resync
    split
    next hrun =>
      have hlater : ∀ x ∈ later asOf pending, d.Carries x := fun x hx =>
        h x (List.mem_of_mem_filter hx)
      obtain ⟨hfold, hend⟩ := Depth.foldl_contiguous (m := m) hlater hexp hrun
      exact ⟨_, hend, by rw [hrebuild, hfold]⟩
    next => exact h
  next expected v =>
    split
    next => exact h
    next => exact ⟨_, hexp, hrebuild⟩

end BookTracker

namespace BookBuilder

variable [Zero P]

open OrderBook (Shows)

theorem shows_ref (m : Nat) (d : DeltaStream P) (n : Nat) :
    ∃ r, OrderBook.ref m d n = some r ∧ Shows r (Depth.ref m d n) :=
  foldlM_simulates (f := fun b j => OrderBook.applyDelta b (d.delta (j + 1)))
    (g := fun v j => Depth.applyDelta v (d.delta (j + 1))) (R := Shows)
    (fun _ _ _ _ h => h.apply _ _ _) OrderBook.shows_fresh

theorem faithful_call {d : DeltaStream P} {t : BookTracker P m} {c : BuilderCall P}
    (h : t.Faithful d) (hc : c.FromStream m d) : (t.call k c).Faithful d := by
  cases c with
  | delta x => exact BookTracker.faithful_onDelta h hc
  | snapshot asOf levels =>
    obtain ⟨hmax, r, hr, hperm⟩ := hc
    obtain ⟨r', hr', hshows⟩ := shows_ref m d asOf.toNat
    obtain rfl : r = r' := Option.some.inj (hr.symm.trans hr')
    refine BookTracker.faithful_onSnapshot h hmax ?_
    rw [Depth.snapshotOf, ← hshows.levels_eq, ← hshows.levels_eq]
    exact hperm

theorem faithful_run {d : DeltaStream P} {calls : List (BuilderCall P)}
    (hcalls : ∀ c ∈ calls, c.FromStream m d) : (BookTracker.run m k calls).Faithful d := by
  induction calls using List.reverseRecOn with
  | nil =>
    intro x hx
    exact absurd hx List.not_mem_nil
  | append_singleton calls c ih =>
    rw [BookTracker.run_concat]
    exact faithful_call (ih fun x hx => hcalls x (by simp [hx])) (hcalls c (by simp))

/-- A live book is never corrupt: whatever was lost, repeated or reordered and whenever
snapshots came, it is the book of all deltas before the next expected one. -/
theorem live_book_eq_ref {m k : Nat} {d : DeltaStream P} {calls : List (BuilderCall P)}
    (hcalls : ∀ c ∈ calls, c.FromStream m d) :
    ∃ b, run m k calls = some b ∧ (b.state = .live →
      ∃ r, OrderBook.ref m d (b.expected.toNat - 1) = some r ∧ b.book.equals r = some true) := by
  obtain ⟨b, hb, htracks⟩ := tracks_run m k calls
  refine ⟨b, hb, ?_⟩
  intro hlive
  have hfaithful := faithful_run (k := k) hcalls
  generalize BookTracker.run m k calls = t at htracks hfaithful
  cases t with
  | recovering pending =>
    rw [htracks.1] at hlive
    exact absurd hlive (by decide)
  | live expected v =>
    obtain ⟨_, _, hexp, hshows⟩ := htracks
    obtain ⟨n, hn, hv⟩ := hfaithful
    obtain ⟨r, hr, hshows'⟩ := shows_ref m d n
    refine ⟨r, ?_, ?_⟩
    · rw [hexp, hn, Nat.add_sub_cancel, hr]
    · exact (hshows.equals_iff hshows').mpr hv

/-- One bid whose size follows the sequence number. -/
def countingStream : DeltaStream ℤ where
  delta j := ⟨UInt64.ofNat j, 100, UInt64.ofNat j, 0⟩
  seq_eq := by
    intro j _ hmax
    exact UInt64.toNat_ofNat_of_lt' (show j < 2 ^ 64 by omega)

def lostFirst : List (BuilderCall ℤ) :=
  [.delta (countingStream.delta 2), .snapshot 1 [⟨100, 1, 0⟩]]

/-- The first delta is lost and made good by a snapshot that arrives behind the second. -/
theorem live_book_eq_ref_lostFirst :
    (∀ c ∈ lostFirst, c.FromStream 1 countingStream) ∧
    ∃ b, run 1 2 lostFirst = some b ∧ b.state = .live ∧
      ∃ r, OrderBook.ref 1 countingStream (b.expected.toNat - 1) = some r ∧
        b.book.equals r = some true := by
  have hcalls : ∀ c ∈ lostFirst, c.FromStream 1 countingStream := by
    intro c hc
    rcases List.mem_pair.mp hc with rfl | rfl
    · exact ⟨2, by decide, by decide, rfl⟩
    · exact ⟨by decide, _, rfl, List.Perm.refl _⟩
  have hrun : (run 1 2 lostFirst).map (fun b => b.state) = some .live := by decide
  obtain ⟨b, hb, hlive⟩ := live_book_eq_ref (k := 2) hcalls
  have hstate : b.state = .live := by
    rw [hb] at hrun
    exact Option.some.inj hrun
  exact ⟨hcalls, b, hb, hstate, hlive hstate⟩

end BookBuilder

end OhlcvValidator
