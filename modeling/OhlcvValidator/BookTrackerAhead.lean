import OhlcvValidator.BookTrackerLoss

namespace OhlcvValidator

variable {P : Type} [LinearOrder P] {m k : Nat}

namespace BookTracker

/-- A live tracker expects a number beyond everything received. -/
def Ahead (m k : Nat) (calls : List (BuilderCall P)) : Prop :=
  ∀ expected v, run m k calls = .live expected v → ∀ d ∈ received calls, d.seq < expected

/-- A snapshot that is older than a lost delta, or whose successor wraps to 0. -/
def Overtaken (m k : Nat) (calls : List (BuilderCall P)) (asOf : UInt64) : Prop :=
  (∃ d, Lost m k calls d ∧ asOf < d.seq) ∨ asOf.toNat = 2 ^ 64 - 1 ∧ received calls ≠ []

theorem ahead_delta {calls : List (BuilderCall P)} {d : BookDelta P} (h : Ahead m k calls)
    (hseq : InSequence (calls ++ [.delta d])) : Ahead m k (calls ++ [.delta d]) := by
  intro expected v hrun
  rw [run_concat] at hrun
  have hmax : d.seq.toNat < 2 ^ 64 - 1 := hseq.2 d (by rw [received_delta]; simp)
  rw [received_delta]
  cases hstate : run m k calls with
  | recovering pending =>
    rw [hstate] at hrun
    simp [call, onDelta] at hrun
  | live before w =>
    have hbefore := h before w hstate
    rw [hstate] at hrun
    simp only [call, onDelta] at hrun
    intro x hx
    split at hrun
    next he =>
      obtain ⟨rfl, _⟩ := BookTracker.live.inj hrun
      have hnext := toNat_succ (he ▸ hmax)
      rw [UInt64.lt_iff_toNat_lt, hnext]
      rcases List.mem_append.mp hx with hx | hx
      · have := UInt64.lt_iff_toNat_lt.mp (hbefore x hx)
        omega
      · rw [List.mem_singleton.mp hx, he]
        omega
    next hne =>
      split at hrun
      next => simp at hrun
      next hnot =>
        obtain ⟨rfl, _⟩ := BookTracker.live.inj hrun
        rcases List.mem_append.mp hx with hx | hx
        · exact hbefore x hx
        · rw [List.mem_singleton.mp hx]
          exact UInt64.lt_of_le_of_ne (UInt64.not_lt.mp hnot) hne

/-- What an accepted snapshot makes of the tracker. -/
theorem run_accepted {calls : List (BuilderCall P)} {asOf : UInt64}
    (levels : List (SnapshotLevel P)) (h : (run m k calls).Accepts asOf) :
    (∃ before w v, run m k calls = .live before w ∧ before ≤ asOf ∧
      run m k (calls ++ [.snapshot asOf levels]) = .live (asOf + 1) v) ∨
    ∃ pending v, run m k calls = .recovering pending ∧
      contiguousFrom (asOf + 1) (later asOf pending) = true ∧
      run m k (calls ++ [.snapshot asOf levels]) =
        .live (asOf + 1 + UInt64.ofNat (later asOf pending).length) v := by
  rw [run_concat]
  cases hstate : run m k calls with
  | live before w =>
    rw [hstate] at h
    have hle : before ≤ asOf := h
    refine Or.inl ⟨before, w, Depth.rebuild levels, rfl, hle, ?_⟩
    rw [call, onSnapshot, if_neg (UInt64.not_lt.mpr hle)]
  | recovering pending =>
    rw [hstate] at h
    have hrun : contiguousFrom (asOf + 1) (later asOf pending) = true := h
    refine Or.inr ⟨pending, (later asOf pending).foldl Depth.applyDelta (Depth.rebuild levels),
      rfl, hrun, ?_⟩
    rw [call, onSnapshot, resync, if_pos hrun]
    rfl

theorem run_rejected {calls : List (BuilderCall P)} {asOf : UInt64}
    {levels : List (SnapshotLevel P)} (h : ¬(run m k calls).Accepts asOf) :
    run m k (calls ++ [.snapshot asOf levels]) = run m k calls := by
  rw [run_concat]
  cases hstate : run m k calls with
  | live before w =>
    rw [hstate] at h
    have hlt : asOf < before := UInt64.not_le.mp h
    rw [call, onSnapshot, if_pos hlt]
  | recovering pending =>
    rw [hstate] at h
    have hhole : ¬contiguousFrom (asOf + 1) (later asOf pending) = true := h
    rw [call, onSnapshot, resync, if_neg hhole]
    rfl

section Snapshot

variable {calls : List (BuilderCall P)} {asOf : UInt64}

theorem later_max {pending : List (BookDelta P)} (asOf : UInt64) (hseq : InSequence calls)
    (h : Accounts m k calls pending) :
    ∀ x ∈ later asOf pending, x.seq.toNat < 2 ^ 64 - 1 :=
  fun x hx => hseq.2 x (h.pending_received x (mem_later.mp hx).1)

theorem ahead_snapshot (hk : 0 < k) (levels : List (SnapshotLevel P)) (hseq : InSequence calls)
    (h : Ahead m k calls) (hok : (run m k calls).Accepts asOf → ¬Overtaken m k calls asOf) :
    Ahead m k (calls ++ [.snapshot asOf levels]) := by
  intro expected v hrun
  rw [received_snapshot]
  by_cases hacc : (run m k calls).Accepts asOf
  · have hover := hok hacc
    unfold Overtaken at hover
    push Not at hover
    obtain ⟨hlost, hwrap⟩ := hover
    intro d hd
    have hnext : (asOf + 1).toNat = asOf.toNat + 1 := by
      apply toNat_succ
      have := asOf.toNat_lt
      have : asOf.toNat ≠ 2 ^ 64 - 1 := fun he => by simp [hwrap he] at hd
      omega
    rcases run_accepted levels hacc with
      ⟨before, w, v', hstate, hle, hafter⟩ | ⟨pending, v', hstate, hcont, hafter⟩
    · rw [hafter] at hrun
      obtain ⟨rfl, _⟩ := BookTracker.live.inj hrun
      have := UInt64.lt_iff_toNat_lt.mp (h before w hstate d hd)
      have := UInt64.le_iff_toNat_le.mp hle
      rw [UInt64.lt_iff_toNat_lt]
      omega
    · rw [hafter] at hrun
      obtain ⟨rfl, _⟩ := BookTracker.live.inj hrun
      have haccounts := accounts_run hk hseq pending hstate
      obtain ⟨hend, hbounds⟩ := contiguousFrom_bounds (later_max asOf hseq haccounts) hcont
      -- pending deltas are in the snapshot or in the run behind it
      have hpending : ∀ x ∈ pending,
          x.seq.toNat < (asOf + 1 + UInt64.ofNat (later asOf pending).length).toNat := by
        intro x hx
        rw [hend]
        by_cases hlate : asOf < x.seq
        · exact (hbounds x (mem_later.mpr ⟨hx, hlate⟩)).2
        · have := UInt64.le_iff_toNat_le.mp (UInt64.not_lt.mp hlate)
          omega
      rw [UInt64.lt_iff_toNat_lt]
      rcases haccounts.covered d hd with hp | hl | ⟨y, hy, hdy⟩
      · exact hpending d hp
      · have := UInt64.le_iff_toNat_le.mp (UInt64.not_lt.mp (hlost d hl))
        omega
      · have := UInt64.lt_iff_toNat_lt.mp hdy
        have := hpending y hy
        omega
  · rw [run_rejected hacc] at hrun
    exact h expected v hrun

theorem not_ahead_overtaken (hk : 0 < k) (levels : List (SnapshotLevel P))
    (hseq : InSequence calls) (h : Ahead m k calls) (hacc : (run m k calls).Accepts asOf)
    (hover : Overtaken m k calls asOf) : ¬Ahead m k (calls ++ [.snapshot asOf levels]) := by
  intro hafter
  unfold Ahead at hafter
  rw [received_snapshot] at hafter
  rcases hover with ⟨d, hlost, hold⟩ | ⟨hwrap, hne⟩
  · have hold := UInt64.lt_iff_toNat_lt.mp hold
    have hnext : (asOf + 1).toNat = asOf.toNat + 1 := by
      apply toNat_succ
      have := d.seq.toNat_lt
      omega
    rcases run_accepted levels hacc with
      ⟨before, w, v, hstate, hle, hrun⟩ | ⟨pending, v, hstate, hcont, hrun⟩
    · have := UInt64.lt_iff_toNat_lt.mp (h before w hstate d hlost.received)
      have := UInt64.le_iff_toNat_le.mp hle
      omega
    · have hd := UInt64.lt_iff_toNat_lt.mp (hafter _ v hrun d hlost.received)
      have haccounts := accounts_run hk hseq pending hstate
      have hmax := later_max asOf hseq haccounts
      rw [(contiguousFrom_bounds hmax hcont).1] at hd
      by_cases hnil : later asOf pending = []
      · rw [hnil, List.length_nil] at hd
        omega
      · obtain ⟨⟨x, hx, hfirst⟩, y, hy, hlast⟩ := contiguousFrom_ends hmax hcont hnil
        rcases haccounts.lost_apart d hlost with ⟨_, hnewer⟩ | holder
        · have := UInt64.lt_iff_toNat_lt.mp (hnewer y (mem_later.mp hy).1)
          omega
        · have := UInt64.lt_iff_toNat_lt.mp (holder x (mem_later.mp hx).1)
          omega
  · obtain ⟨d, hd⟩ := List.exists_mem_of_ne_nil _ hne
    have hzero : asOf + 1 = 0 := by
      apply UInt64.toNat_inj.mp
      rw [UInt64.toNat_add, hwrap]
      rfl
    rcases run_accepted levels hacc with
      ⟨before, w, v, hstate, hle, hrun⟩ | ⟨pending, v, hstate, hcont, hrun⟩
    · have := UInt64.lt_iff_toNat_lt.mp (hafter _ v hrun d hd)
      rw [hzero] at this
      exact absurd this (Nat.not_lt_zero _)
    · have hnil : later asOf pending = [] := by
        rw [List.eq_nil_iff_forall_not_mem]
        intro x hx
        have := UInt64.lt_iff_toNat_lt.mp (mem_later.mp hx).2
        have := x.seq.toNat_lt
        omega
      have := UInt64.lt_iff_toNat_lt.mp (hafter _ v hrun d hd)
      rw [hnil, hzero] at this
      exact absurd this (Nat.not_lt_zero _)

end Snapshot

theorem ahead_run_iff (hk : 0 < k) {calls : List (BuilderCall P)} (hseq : InSequence calls) :
    (∀ pre, pre <+: calls → Ahead m k pre) ↔
      ∀ pre asOf levels, pre ++ [.snapshot asOf levels] <+: calls →
        (run m k pre).Accepts asOf → ¬Overtaken m k pre asOf := by
  constructor
  · intro h pre asOf levels hpre hacc hover
    have hbefore : pre <+: calls := (List.prefix_append _ _).trans hpre
    exact not_ahead_overtaken hk levels (hseq.before hbefore) (h pre hbefore) hacc hover
      (h _ hpre)
  · intro h pre
    induction pre using List.reverseRecOn with
    | nil =>
      intro _ expected v hrun
      exact absurd hrun (by simp [run])
    | append_singleton pre c ih =>
      intro hpre
      have hbefore : pre <+: calls := (List.prefix_append _ _).trans hpre
      cases c with
      | delta d => exact ahead_delta (ih hbefore) (hseq.before hpre)
      | snapshot asOf levels =>
        exact ahead_snapshot hk levels (hseq.before hbefore) (ih hbefore)
          (h pre asOf levels hpre)

end BookTracker

end OhlcvValidator
