import OhlcvValidator.MaskIndex
import OhlcvValidator.BookTracker

namespace OhlcvValidator

variable {P : Type}

def BuilderCall.delta? : BuilderCall P → Option (BookDelta P)
  | .delta d => some d
  | .snapshot _ _ => none

/-- All deltas ever passed in. -/
def received (calls : List (BuilderCall P)) : List (BookDelta P) :=
  calls.filterMap BuilderCall.delta?

/-- Deltas with strictly increasing sequence numbers that leave room for a next one. -/
def InSequence (calls : List (BuilderCall P)) : Prop :=
  (received calls).Pairwise (fun x y => x.seq < y.seq) ∧
    ∀ d ∈ received calls, d.seq.toNat < 2 ^ 64 - 1

theorem received_delta (calls : List (BuilderCall P)) (d : BookDelta P) :
    received (calls ++ [.delta d]) = received calls ++ [d] := by
  simp [received, BuilderCall.delta?]

theorem received_snapshot (calls : List (BuilderCall P)) (asOf : UInt64)
    (levels : List (SnapshotLevel P)) :
    received (calls ++ [.snapshot asOf levels]) = received calls := by
  simp [received, BuilderCall.delta?]

theorem InSequence.before {calls pre : List (BuilderCall P)} (h : InSequence calls)
    (hpre : pre <+: calls) : InSequence pre := by
  have hsub : List.Sublist (received pre) (received calls) := hpre.sublist.filterMap _
  exact ⟨h.1.sublist hsub, fun d hd => h.2 d (hsub.mem hd)⟩

theorem InSequence.lt_last {calls : List (BuilderCall P)} {d : BookDelta P}
    (h : InSequence (calls ++ [.delta d])) : ∀ x ∈ received calls, x.seq < d.seq := by
  have hpair := h.1
  rw [received_delta] at hpair
  exact fun x hx => (List.pairwise_append.mp hpair).2.2 x hx d (by simp)

namespace BookTracker

/-- What a successful contiguity check says about the sequence numbers. -/
theorem contiguousFrom_bounds {expect : UInt64} {ds : List (BookDelta P)}
    (hmax : ∀ x ∈ ds, x.seq.toNat < 2 ^ 64 - 1) (h : contiguousFrom expect ds = true) :
    (expect + UInt64.ofNat ds.length).toNat = expect.toNat + ds.length ∧
      ∀ x ∈ ds, expect.toNat ≤ x.seq.toNat ∧ x.seq.toNat < expect.toNat + ds.length := by
  induction ds generalizing expect with
  | nil => exact ⟨by simp, by simp⟩
  | cons d ds ih =>
    unfold contiguousFrom at h
    obtain ⟨hseq, hrun⟩ := Bool.and_eq_true_iff.mp h
    have hseq : d.seq = expect := of_decide_eq_true hseq
    have hnext : (expect + 1).toNat = expect.toNat + 1 :=
      toNat_succ (hseq ▸ hmax d (by simp))
    obtain ⟨hend, hall⟩ := ih (fun x hx => hmax x (by simp [hx])) hrun
    refine ⟨by rw [List.length_cons, ← succ_add_ofNat, hend]; omega, ?_⟩
    intro x hx
    rw [List.length_cons]
    rcases List.mem_cons.mp hx with rfl | hx
    · rw [hseq]
      omega
    · have := hall x hx
      omega

/-- The first and the last delta of a contiguous run. -/
theorem contiguousFrom_ends {expect : UInt64} {ds : List (BookDelta P)}
    (hmax : ∀ x ∈ ds, x.seq.toNat < 2 ^ 64 - 1) (h : contiguousFrom expect ds = true)
    (hne : ds ≠ []) :
    (∃ x ∈ ds, x.seq.toNat = expect.toNat) ∧
      ∃ x ∈ ds, x.seq.toNat + 1 = expect.toNat + ds.length := by
  induction ds generalizing expect with
  | nil => exact absurd rfl hne
  | cons d ds ih =>
    unfold contiguousFrom at h
    obtain ⟨hseq, hrun⟩ := Bool.and_eq_true_iff.mp h
    have hseq : d.seq = expect := of_decide_eq_true hseq
    have hnext : (expect + 1).toNat = expect.toNat + 1 :=
      toNat_succ (hseq ▸ hmax d (by simp))
    refine ⟨⟨d, by simp, by rw [hseq]⟩, ?_⟩
    by_cases hds : ds = []
    · exact ⟨d, by simp, by simp [hds, hseq]⟩
    · obtain ⟨x, hx, hlast⟩ := (ih (fun x hx => hmax x (by simp [hx])) hrun hds).2
      exact ⟨x, by simp [hx], by rw [List.length_cons]; omega⟩

theorem mem_later {asOf : UInt64} {pending : List (BookDelta P)} {x : BookDelta P} :
    x ∈ later asOf pending ↔ x ∈ pending ∧ asOf < x.seq := by
  simp [later]

variable [LinearOrder P] {m k : Nat}

/-- The recovery buffer is full, so that the next delta is dropped. -/
def Full (k : Nat) : BookTracker P m → Prop
  | .recovering pending => k ≤ pending.length
  | .live _ _ => False

/-- The snapshot is neither stale nor too old. -/
def Accepts (asOf : UInt64) : BookTracker P m → Prop
  | .recovering pending => contiguousFrom (asOf + 1) (later asOf pending) = true
  | .live expected _ => expected ≤ asOf

/-- A delta that arrived when the recovery buffer was full. -/
def Lost (m k : Nat) (calls : List (BuilderCall P)) (d : BookDelta P) : Prop :=
  ∃ pre, pre ++ [.delta d] <+: calls ∧ (run m k pre).Full k

theorem lost_concat {calls : List (BuilderCall P)} {c : BuilderCall P} {d : BookDelta P} :
    Lost m k (calls ++ [c]) d ↔ Lost m k calls d ∨ c = .delta d ∧ (run m k calls).Full k := by
  constructor
  · intro h
    obtain ⟨pre, hpre, hfull⟩ := h
    rcases List.prefix_concat_iff.mp hpre with heq | hpre
    · obtain ⟨rfl, hc⟩ := List.append_inj' heq rfl
      exact Or.inr ⟨(List.singleton_inj.mp hc).symm, hfull⟩
    · exact Or.inl ⟨pre, hpre, hfull⟩
  · intro h
    rcases h with ⟨pre, hpre, hfull⟩ | ⟨rfl, hfull⟩
    · exact ⟨pre, hpre.trans (List.prefix_append _ _), hfull⟩
    · exact ⟨calls, List.prefix_rfl, hfull⟩

theorem lost_snapshot {calls : List (BuilderCall P)} {asOf : UInt64}
    {levels : List (SnapshotLevel P)} {d : BookDelta P} :
    Lost m k (calls ++ [.snapshot asOf levels]) d ↔ Lost m k calls d := by
  rw [lost_concat]
  simp

theorem Lost.received {calls : List (BuilderCall P)} {d : BookDelta P} (h : Lost m k calls d) :
    d ∈ received calls := by
  obtain ⟨pre, hpre, _⟩ := h
  exact List.mem_filterMap.mpr ⟨.delta d, hpre.mem (by simp), rfl⟩

/-- Where the deltas received so far are while the tracker waits for a snapshot: pending, lost,
or older than what is pending. Lost ones are all newer or all older than the pending ones. -/
structure Accounts (m k : Nat) (calls : List (BuilderCall P)) (pending : List (BookDelta P)) :
    Prop where
  pending_received : ∀ x ∈ pending, x ∈ received calls
  covered : ∀ x ∈ received calls, x ∈ pending ∨ Lost m k calls x ∨ ∃ y ∈ pending, x.seq < y.seq
  lost_apart : ∀ d, Lost m k calls d →
    k ≤ pending.length ∧ (∀ x ∈ pending, x.seq < d.seq) ∨ ∀ x ∈ pending, d.seq < x.seq

theorem Accounts.hold {calls : List (BuilderCall P)} {pending : List (BookDelta P)}
    {d : BookDelta P} (h : Accounts m k calls pending) (hseq : InSequence (calls ++ [.delta d]))
    (hrun : run m k calls = .recovering pending) :
    Accounts m k (calls ++ [.delta d]) (hold k pending d) := by
  have hlast := hseq.lt_last
  unfold BookTracker.hold
  split
  next hroom =>
    have hlost : ∀ x, Lost m k (calls ++ [.delta d]) x ↔ Lost m k calls x := by
      intro x
      rw [lost_concat, hrun]
      exact or_iff_left fun hx => absurd hx.2 (Nat.not_le.mpr hroom)
    refine ⟨?_, ?_, ?_⟩
    · intro x hx
      rw [received_delta]
      exact List.mem_append.mpr ((List.mem_append.mp hx).imp_left (h.pending_received x))
    · intro x hx
      rw [received_delta] at hx
      rw [hlost]
      rcases List.mem_append.mp hx with hx | hx
      · rcases h.covered x hx with hp | hl | ⟨y, hy, hxy⟩
        · exact Or.inl (by simp [hp])
        · exact Or.inr (Or.inl hl)
        · exact Or.inr (Or.inr ⟨y, by simp [hy], hxy⟩)
      · exact Or.inl (by simp [List.mem_singleton.mp hx])
    · intro x hx
      rw [hlost] at hx
      rcases h.lost_apart x hx with ⟨hfull, _⟩ | hold
      · omega
      · refine Or.inr ?_
        intro y hy
        rcases List.mem_append.mp hy with hy | hy
        · exact hold y hy
        · rw [List.mem_singleton.mp hy]
          exact hlast x hx.received
  next hfull =>
    have hfull : k ≤ pending.length := Nat.not_lt.mp hfull
    have hlost : ∀ x, Lost m k (calls ++ [.delta d]) x ↔ Lost m k calls x ∨ x = d := by
      intro x
      rw [lost_concat, hrun]
      simp [Full, hfull, eq_comm]
    refine ⟨?_, ?_, ?_⟩
    · intro x hx
      rw [received_delta]
      exact List.mem_append.mpr (Or.inl (h.pending_received x hx))
    · intro x hx
      rw [received_delta] at hx
      rw [hlost]
      rcases List.mem_append.mp hx with hx | hx
      · rcases h.covered x hx with hp | hl | hy
        · exact Or.inl hp
        · exact Or.inr (Or.inl (Or.inl hl))
        · exact Or.inr (Or.inr hy)
      · exact Or.inr (Or.inl (Or.inr (List.mem_singleton.mp hx)))
    · intro x hx
      rcases (hlost x).mp hx with hx | rfl
      · exact h.lost_apart x hx
      · exact Or.inl ⟨hfull, fun y hy => hlast y (h.pending_received y hy)⟩

/-- A gap starts a new recovery with the delta behind it. -/
theorem accounts_gap {calls : List (BuilderCall P)} {d : BookDelta P} {expected : UInt64}
    {v : Depth P m} (hseq : InSequence (calls ++ [.delta d]))
    (hrun : run m k calls = .live expected v) : Accounts m k (calls ++ [.delta d]) [d] := by
  have hlast := hseq.lt_last
  refine ⟨?_, ?_, ?_⟩
  · intro x hx
    rw [received_delta]
    exact List.mem_append.mpr (Or.inr hx)
  · intro x hx
    rw [received_delta] at hx
    rcases List.mem_append.mp hx with hx | hx
    · exact Or.inr (Or.inr ⟨d, by simp, hlast x hx⟩)
    · exact Or.inl hx
  · intro x hx
    rw [lost_concat, hrun] at hx
    have hx : Lost m k calls x := hx.resolve_right fun h => h.2
    refine Or.inr ?_
    intro y hy
    rw [List.mem_singleton.mp hy]
    exact hlast x hx.received

theorem accounts_run (hk : 0 < k) {calls : List (BuilderCall P)} (hseq : InSequence calls) :
    ∀ pending, run m k calls = .recovering pending → Accounts m k calls pending := by
  induction calls using List.reverseRecOn with
  | nil =>
    intro pending hrun
    obtain rfl : [] = pending := BookTracker.recovering.inj hrun
    exact ⟨by simp, by simp [OhlcvValidator.received],
      fun d hd => absurd hd.received (by simp [OhlcvValidator.received])⟩
  | append_singleton calls c ih =>
    have hih := ih (hseq.before (List.prefix_append _ _))
    intro pending hrun
    rw [run_concat] at hrun
    cases hstate : run m k calls with
    | recovering before =>
      have haccounts := hih before hstate
      rw [hstate] at hrun
      cases c with
      | delta d =>
        obtain rfl := BookTracker.recovering.inj hrun
        exact haccounts.hold hseq hstate
      | snapshot asOf levels =>
        -- a rejected snapshot changes nothing, an accepted one ends the recovery
        simp only [call, onSnapshot, resync] at hrun
        split at hrun
        next => simp at hrun
        next =>
          obtain rfl := BookTracker.recovering.inj hrun
          refine ⟨?_, ?_, ?_⟩
          · simpa only [received_snapshot] using haccounts.pending_received
          · simpa only [received_snapshot, lost_snapshot] using haccounts.covered
          · simpa only [lost_snapshot] using haccounts.lost_apart
    | live expected v =>
      rw [hstate] at hrun
      cases c with
      | delta d =>
        simp only [call, onDelta] at hrun
        split at hrun
        next => simp at hrun
        next =>
          split at hrun
          next =>
            rw [BookTracker.hold, List.length_nil, if_pos hk] at hrun
            obtain rfl := BookTracker.recovering.inj hrun
            exact accounts_gap hseq hstate
          next => simp at hrun
      | snapshot asOf levels =>
        simp only [call, onSnapshot] at hrun
        split at hrun <;> simp at hrun

end BookTracker

end OhlcvValidator
