import OhlcvValidator.BookBuilderRefinement
import OhlcvValidator.BookTrackerLoss

namespace OhlcvValidator

variable {P : Type}

/-- Sequence numbers that leave room for a next one. -/
def BuilderCall.BelowTop : BuilderCall P → Prop
  | .delta d => d.seq.toNat < 2 ^ 64 - 1
  | .snapshot asOf _ => asOf.toNat < 2 ^ 64 - 1

instance (c : BuilderCall P) : Decidable c.BelowTop :=
  match c with
  | .delta d => inferInstanceAs (Decidable (d.seq.toNat < 2 ^ 64 - 1))
  | .snapshot asOf _ => inferInstanceAs (Decidable (asOf.toNat < 2 ^ 64 - 1))

variable [Zero P] {m k : Nat}

namespace BookBuilder

open BookTracker (later mem_later contiguousFrom contiguousFrom_bounds)

/-- The deltas in the recovery buffer, in the order of their arrival. -/
def buffered (b : BookBuilder P m k) : List (BookDelta P) :=
  entries b.buf b.nbuf

/-- The book is given up: the state in which the first delta behind a gap is buffered. -/
def openGap (b : BookBuilder P m k) : BookBuilder P m k :=
  { b with stats := { b.stats with gaps := b.stats.gaps + 1 }, state := .recovering, nbuf := 0 }

/-- A delta is buffered behind the others, or counted as overflow if there is no room. -/
theorem buffer_spec {b b' : BookBuilder P m k} {d : BookDelta P}
    (h : b.buffer d = some b') : b'.state = b.state ∧ b'.expected = b.expected ∧
      (b'.buffered = b.buffered ++ [d] ∧ b'.stats.bufferOverflow = b.stats.bufferOverflow ∨
        k ≤ b.nbuf ∧ b'.buffered = b.buffered ∧
          b'.stats.bufferOverflow = b.stats.bufferOverflow + 1) := by
  unfold buffer at h
  split at h
  next hroom =>
    rw [store_some hroom] at h
    cases Option.some.inj h
    exact ⟨rfl, rfl, Or.inl ⟨entries_push hroom d, rfl⟩⟩
  next hfull =>
    cases Option.some.inj h
    exact ⟨rfl, rfl, Or.inr ⟨Nat.not_lt.mp hfull, rfl, rfl⟩⟩

/-- Everything a call can do, whatever happens to the book. -/
inductive Called (b : BookBuilder P m k) : BuilderCall P → BookBuilder P m k → Prop
  | applied {d book} : b.state = .live → d.seq = b.expected →
      Called b (.delta d) { b with
        book := book
        expected := b.expected + 1
        stats := { b.stats with applied := b.stats.applied + 1 } }
  | late {d} : b.state = .live → d.seq < b.expected →
      Called b (.delta d) { b with
        stats := { b.stats with staleDropped := b.stats.staleDropped + 1 } }
  | gap {d b'} : b.state = .live → b.expected < d.seq → b.openGap.buffer d = some b' →
      Called b (.delta d) b'
  | waits {d b'} : b.state = .recovering → b.buffer d = some b' → Called b (.delta d) b'
  | stale {asOf levels} : b.state = .live → asOf < b.expected →
      Called b (.snapshot asOf levels) b
  | commits {asOf levels book} : ¬(b.state = .live ∧ asOf < b.expected) →
      contiguousFrom (asOf + 1) (later asOf b.buffered) = true →
      Called b (.snapshot asOf levels) { b with
        book := book
        expected := asOf + 1 + UInt64.ofNat (later asOf b.buffered).length
        nbuf := 0
        state := .live
        stats := { b.stats with recovered := b.stats.recovered + 1 } }
  | tooOld {asOf levels} : ¬(b.state = .live ∧ asOf < b.expected) →
      ¬contiguousFrom (asOf + 1) (later asOf b.buffered) = true →
      Called b (.snapshot asOf levels) { b with
        stats := { b.stats with snapshotTooOld := b.stats.snapshotTooOld + 1 } }

section Guard

variable {a b : BookBuilder P m k}

/-- The number expected is 0 or behind the first delta that waits, so that no snapshot older
than it leaves the waiting deltas without a hole. -/
structure Guarded (b : BookBuilder P m k) : Prop where
  below : ∀ d ∈ b.buffered, d.seq.toNat < 2 ^ 64 - 1
  head : b.state = .recovering → b.expected = 0 ∨
    ∃ d ds, b.buffered = d :: ds ∧ b.expected < d.seq

theorem guarded_fresh : Guarded ({} : BookBuilder P m k) where
  below := fun _ hd => absurd hd List.not_mem_nil
  head := fun _ => Or.inl rfl

theorem Guarded.buffer {d : BookDelta P} (h : a.Guarded) (hd : d.seq.toNat < 2 ^ 64 - 1)
    (hstate : a.state = .recovering) (hb : a.buffer d = some b) : b.Guarded := by
  obtain ⟨_, hexp, hbuf⟩ := buffer_spec hb
  rcases hbuf with ⟨hbuf, _⟩ | ⟨_, hbuf, _⟩
  · refine ⟨?_, fun _ => ?_⟩
    · rw [hbuf]
      intro x hx
      rcases List.mem_append.mp hx with hx | hx
      · exact h.below x hx
      · rw [List.mem_singleton.mp hx]
        exact hd
    · rw [hexp, hbuf]
      refine (h.head hstate).imp_right ?_
      intro ⟨x, ds, hx, hlt⟩
      exact ⟨x, ds ++ [d], by rw [hx, List.cons_append], hlt⟩
  · refine ⟨by rw [hbuf]; exact h.below, fun _ => ?_⟩
    rw [hexp, hbuf]
    exact h.head hstate

/-- A snapshot that is committed is not older than the number expected. -/
theorem Guarded.expected_le {asOf : UInt64} (h : a.Guarded) (hne : a.expected ≠ 0)
    (hstale : ¬(a.state = .live ∧ asOf < a.expected)) (hmax : asOf.toNat < 2 ^ 64 - 1)
    (hrun : contiguousFrom (asOf + 1) (later asOf a.buffered) = true) : a.expected ≤ asOf := by
  by_contra hlt
  have hlt := UInt64.not_le.mp hlt
  cases hstate : a.state with
  | live => exact hstale ⟨hstate, hlt⟩
  | recovering =>
    obtain ⟨d, ds, hbuf, hd⟩ := (h.head hstate).resolve_left hne
    rw [hbuf, BookTracker.later_cons, if_pos (UInt64.lt_trans hlt hd), contiguousFrom,
      Bool.and_eq_true, decide_eq_true_eq] at hrun
    rw [hrun.1, UInt64.lt_iff_toNat_lt, toNat_succ hmax] at hd
    rw [UInt64.lt_iff_toNat_lt] at hlt
    omega

theorem Guarded.lt_committed {asOf : UInt64} (h : a.Guarded)
    (hstale : ¬(a.state = .live ∧ asOf < a.expected)) (hmax : asOf.toNat < 2 ^ 64 - 1)
    (hrun : contiguousFrom (asOf + 1) (later asOf a.buffered) = true) :
    a.expected < asOf + 1 + UInt64.ofNat (later asOf a.buffered).length := by
  have hend := (contiguousFrom_bounds (fun x hx => h.below x (mem_later.mp hx).1) hrun).1
  rw [UInt64.lt_iff_toNat_lt, hend, toNat_succ hmax]
  by_cases hzero : a.expected = 0
  · rw [hzero, UInt64.toNat_zero]
    omega
  · have := UInt64.le_iff_toNat_le.mp (h.expected_le hzero hstale hmax hrun)
    omega

theorem Guarded.called {c : BuilderCall P} (hk : 0 < k) (h : a.Guarded) (hc : c.BelowTop)
    (hcall : Called a c b) : b.Guarded ∧ a.expected ≤ b.expected ∧
      (a.state = .recovering → b.state = .live → a.expected < b.expected) := by
  cases hcall with
  | applied hlive hseq =>
    refine ⟨⟨h.below, fun hs => by simp [hlive] at hs⟩, ?_, fun hs => by simp [hlive] at hs⟩
    rw [UInt64.le_iff_toNat_le]
    change a.expected.toNat ≤ (a.expected + 1).toNat
    rw [toNat_succ (hseq ▸ hc)]
    omega
  | late hlive _ =>
    exact ⟨⟨h.below, h.head⟩, UInt64.le_refl _, fun hs => by simp [hlive] at hs⟩
  | gap hlive hgt hbuffer =>
    obtain ⟨_, hexp, hbuf⟩ := buffer_spec hbuffer
    have hbuf := (hbuf.resolve_right fun hfull => absurd hfull.1 (Nat.not_le.mpr hk)).1
    refine ⟨⟨?_, fun _ => Or.inr ⟨_, [], hbuf, hexp ▸ hgt⟩⟩, by rw [hexp]; exact UInt64.le_refl _,
      fun hs => by simp [hlive] at hs⟩
    rw [hbuf]
    intro x hx
    rw [List.mem_singleton.mp hx]
    exact hc
  | waits hrec hbuffer =>
    obtain ⟨hstate, hexp, _⟩ := buffer_spec hbuffer
    refine ⟨h.buffer hc hrec hbuffer, by rw [hexp]; exact UInt64.le_refl _, ?_⟩
    intro _ hlive
    rw [hstate, hrec] at hlive
    exact absurd hlive (by decide)
  | stale hlive _ => exact ⟨h, UInt64.le_refl _, fun hs => by simp [hlive] at hs⟩
  | commits hstale hrun =>
    have hlt := h.lt_committed hstale hc hrun
    exact ⟨⟨fun _ hx => absurd hx List.not_mem_nil, fun hs => State.noConfusion hs⟩,
      UInt64.le_of_lt hlt, fun _ _ => hlt⟩
  | tooOld _ _ =>
    refine ⟨⟨h.below, h.head⟩, UInt64.le_refl _, ?_⟩
    intro hrec hlive
    change a.state = .live at hlive
    rw [hrec] at hlive
    exact absurd hlive (by decide)

end Guard

variable [LinearOrder P]

theorem call_cases {b b' : BookBuilder P m k} (hn : b.nbuf ≤ k) {c : BuilderCall P}
    (h : b.call c = some b') : Called b c b' := by
  cases c with
  | delta d =>
    change b.onDelta d = some b' at h
    unfold onDelta at h
    split at h
    next hlive =>
      split at h
      next hseq =>
        obtain ⟨book, _, h⟩ := Option.bind_eq_some_iff.mp h
        cases Option.some.inj h
        exact Called.applied hlive hseq
      next hne =>
        split at h
        next hgap => exact Called.gap hlive hgap h
        next hle =>
          cases Option.some.inj h
          exact Called.late hlive (UInt64.lt_of_le_of_ne (UInt64.not_lt.mp hle) hne)
    next hrec =>
      refine Called.waits ?_ h
      cases hs : b.state with
      | recovering => rfl
      | live => exact absurd hs hrec
  | snapshot asOf levels =>
    change b.onSnapshot asOf levels = some b' at h
    by_cases hstale : b.state = .live ∧ asOf < b.expected
    · rw [onSnapshot, if_pos hstale] at h
      cases Option.some.inj h
      exact Called.stale hstale.1 hstale.2
    · by_cases hrun : contiguousFrom (asOf + 1) (later asOf b.buffered) = true
      · obtain ⟨book, hbook, _⟩ := onSnapshot_commits b hn asOf levels hstale hrun
        cases Option.some.inj (hbook.symm.trans h)
        exact Called.commits hstale hrun
      · cases Option.some.inj ((onSnapshot_rejects b hn asOf levels hstale hrun).symm.trans h)
        exact Called.tooOld hstale hrun

theorem nbuf_le_run {calls : List (BuilderCall P)} {b : BookBuilder P m k}
    (hb : run m k calls = some b) : b.nbuf ≤ k := by
  obtain ⟨b', hb', htracks⟩ := tracks_run m k calls
  obtain rfl := Option.some.inj (hb.symm.trans hb')
  generalize BookTracker.run m k calls = t at htracks
  cases t with
  | recovering pending => exact htracks.2.1
  | live expected v => exact htracks.2.1 ▸ Nat.zero_le k

theorem run_concat (calls : List (BuilderCall P)) (c : BuilderCall P) :
    run m k (calls ++ [c]) = (run m k calls).bind fun b => b.call c := by
  rw [run, List.foldlM_append]
  simp only [List.foldlM_cons, List.foldlM_nil, bind_pure]
  rfl

/-- One more call of a run. -/
theorem called_run {calls : List (BuilderCall P)} {c : BuilderCall P} {b : BookBuilder P m k}
    (hb : run m k (calls ++ [c]) = some b) :
    ∃ a, run m k calls = some a ∧ a.nbuf ≤ k ∧ Called a c b := by
  rw [run_concat] at hb
  obtain ⟨a, ha, hb⟩ := Option.bind_eq_some_iff.mp hb
  exact ⟨a, ha, nbuf_le_run ha, call_cases (nbuf_le_run ha) hb⟩

theorem guarded_run (hk : 0 < k) {calls : List (BuilderCall P)} {b : BookBuilder P m k}
    (hc : ∀ c ∈ calls, c.BelowTop) (hb : run m k calls = some b) : b.Guarded := by
  induction calls using List.reverseRecOn generalizing b with
  | nil =>
    obtain rfl := Option.some.inj hb
    exact guarded_fresh
  | append_singleton calls c ih =>
    obtain ⟨a, ha, _, hcall⟩ := called_run hb
    exact ((ih (fun x hx => hc x (by simp [hx])) ha).called hk (hc c (by simp)) hcall).1

/-- The builder never rewinds: the number it expects grows along every run, and strictly
whenever a recovery ends. -/
theorem expected_never_rewinds {m k : Nat} (hk : 0 < k) {calls : List (BuilderCall P)}
    (hc : ∀ c ∈ calls, c.BelowTop) :
    (∀ pre post, calls = pre ++ post → ∃ a b : BookBuilder P m k, run m k pre = some a ∧
      run m k calls = some b ∧ a.expected ≤ b.expected) ∧
    ∀ pre c post, calls = pre ++ c :: post → ∃ a b : BookBuilder P m k, run m k pre = some a ∧
      run m k (pre ++ [c]) = some b ∧
      (a.state = .recovering → b.state = .live → a.expected < b.expected) := by
  refine ⟨?_, ?_⟩
  · rintro pre post rfl
    obtain ⟨a, ha, _⟩ := tracks_run (P := P) m k pre
    induction post using List.reverseRecOn with
    | nil => exact ⟨a, a, ha, by rwa [List.append_nil], UInt64.le_refl _⟩
    | append_singleton post c ih =>
      rw [← List.append_assoc] at hc ⊢
      obtain ⟨a', b, ha', hb, hle⟩ := ih fun x hx => hc x (List.mem_append_left _ hx)
      obtain ⟨b', hb', _⟩ := tracks_run (P := P) m k (pre ++ post ++ [c])
      obtain ⟨b₀, hb₀, _, hcall⟩ := called_run hb'
      obtain rfl := Option.some.inj (hb.symm.trans hb₀)
      have hguard := guarded_run hk (fun x hx => hc x (List.mem_append_left _ hx)) hb
      exact ⟨a', b', ha', hb', UInt64.le_trans hle
        (hguard.called hk (hc c (by simp)) hcall).2.1⟩
  · rintro pre c post rfl
    obtain ⟨b, hb, _⟩ := tracks_run (P := P) m k (pre ++ [c])
    obtain ⟨a, ha, _, hcall⟩ := called_run hb
    have hguard := guarded_run hk (fun x hx => hc x (List.mem_append_left _ hx)) ha
    exact ⟨a, b, ha, hb, (hguard.called hk (hc c (by simp)) hcall).2.2⟩

/-- A gap after the first number, an old snapshot, and one that closes the gap. -/
def oldThenNew : List (BuilderCall ℤ) :=
  [.snapshot 0 [], .delta ⟨1, 100, 5, 0⟩, .delta ⟨3, 100, 7, 0⟩, .snapshot 0 [],
    .snapshot 2 [⟨100, 6, 0⟩]]

theorem expected_never_rewinds_oldThenNew :
    0 < 4 ∧ (∀ c ∈ oldThenNew, c.BelowTop) ∧
      ∃ a b : BookBuilder ℤ 2 4, run 2 4 (oldThenNew.take 4) = some a ∧
        run 2 4 oldThenNew = some b ∧ a.expected < b.expected := by
  have hc : ∀ c ∈ oldThenNew, c.BelowTop := by decide
  obtain ⟨a, b, ha, hb, hlt⟩ := (expected_never_rewinds (m := 2) (k := 4) (by decide) hc).2
    (oldThenNew.take 4) (.snapshot 2 [⟨100, 6, 0⟩]) [] rfl
  have hbefore : (run 2 4 (oldThenNew.take 4)).map (fun b => b.state) = some .recovering := by
    decide +kernel
  have hafter : (run 2 4 oldThenNew).map (fun b => b.state) = some .live := by decide +kernel
  rw [ha] at hbefore
  rw [show oldThenNew = oldThenNew.take 4 ++ [.snapshot 2 [⟨100, 6, 0⟩]] from rfl, hb] at hafter
  exact ⟨by decide, hc, a, b, ha, hb, hlt (Option.some.inj hbefore) (Option.some.inj hafter)⟩

end BookBuilder

end OhlcvValidator
