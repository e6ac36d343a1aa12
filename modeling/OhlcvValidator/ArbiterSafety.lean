import OhlcvValidator.ArbiterCalls
import OhlcvValidator.ArbiterHistory

namespace OhlcvValidator

namespace FeedArbitrator

variable {ρ : Type} [Inhabited ρ] {w : PowTwo}

/-- A packet with this sequence is neither behind the frontier nor implausibly
far ahead of it. The first packet of a session sets the frontier itself. -/
def Admits (a : FeedArbitrator ρ w) (seq : UInt64) : Prop :=
  a.started = false ∨ a.frontier ≤ seq ∧ seq - a.frontier ≤ kMaxGap

/-- Some ring slot holds this sequence. -/
def Buffers (a : FeedArbitrator ρ w) (seq : UInt64) : Prop :=
  ∃ i, (a.buf i).occupied = true ∧ (a.buf i).seq = seq

/-- The sequence was delivered to the sink or waits in the ring. -/
def Accepted (st : FeedSession ρ w) (seq : UInt64) : Prop :=
  seq ∈ st.2.map Prod.fst ∨ st.1.Buffers seq

/-- Within the run `calls`, the packet offered right after `pre` is admitted. -/
def AdmittedAt (w : PowTwo) (calls pre : List (FeedCall ρ)) (pkt : FeedPacket ρ) : Prop :=
  (∃ post, calls = pre ++ .offer pkt :: post) ∧
    ∃ st, run w pre = some st ∧ st.1.Admits pkt.seq

/-- The packet offered right after `pre` is the first admitted one with its sequence. -/
def FirstAdmittedAt (w : PowTwo) (calls pre : List (FeedCall ρ)) (pkt : FeedPacket ρ) : Prop :=
  AdmittedAt w calls pre pkt ∧ ∀ pre' pkt', AdmittedAt w pre pre' pkt' → pkt'.seq ≠ pkt.seq

variable {st : FeedSession ρ w} {a : Arbiter ρ}

theorem Refines.admits_iff (h : Refines st a) (seq : UInt64) :
    st.1.Admits seq ↔ a.Admits seq.toNat := by
  rw [Admits, Arbiter.Admits, h.started, UInt64.le_iff_toNat_le, h.frontier]
  refine or_congr Iff.rfl (and_congr_right fun hle => ?_)
  rw [UInt64.le_iff_toNat_le, h.toNat_sub_frontier hle]
  change _ ≤ Arbiter.maxGap ↔ _
  omega

theorem Refines.buffers_iff (h : Refines st a) (seq : UInt64) :
    st.1.Buffers seq ↔ ∃ r, a.pending seq.toNat = some r := by
  constructor
  · rintro ⟨i, hi, rfl⟩
    exact ⟨_, h.read_slot hi⟩
  · rintro ⟨r, hr⟩
    obtain ⟨hocc, hseq⟩ := h.slot_of_pending (s := seq.toNat) (by simp [hr])
    exact ⟨_, hocc, UInt64.toNat_inj.mp hseq⟩

omit [Inhabited ρ] in
theorem entry_toNat_injective : Function.Injective fun e : UInt64 × ρ => (e.1.toNat, e.2) := by
  rintro ⟨x, r⟩ ⟨y, q⟩ he
  obtain ⟨hx, hq⟩ := Prod.mk.inj he
  exact Prod.ext (UInt64.toNat_inj.mp hx) hq

theorem Refines.mem_sink_iff (h : Refines st a) {seq : UInt64} {r : ρ} :
    (seq, r) ∈ st.2 ↔ (seq.toNat, r) ∈ a.sent := by
  rw [← h.sink, List.mem_map]
  constructor
  · intro hm
    exact ⟨(seq, r), hm, rfl⟩
  · rintro ⟨⟨x, q⟩, hm, he⟩
    obtain ⟨hx, hq⟩ := Prod.mk.inj he
    rwa [← UInt64.toNat_inj.mp hx, ← hq]

theorem Refines.accepted_iff (h : Refines st a) (seq : UInt64) :
    Accepted st seq ↔ ∃ r, a.Known seq.toNat r := by
  rw [Accepted, h.buffers_iff, List.mem_map]
  simp only [Arbiter.Known, ← h.mem_sink_iff, exists_or]
  refine or_congr ⟨?_, ?_⟩ Iff.rfl
  · rintro ⟨⟨x, r⟩, hm, rfl⟩
    exact ⟨r, hm⟩
  · rintro ⟨r, hm⟩
    exact ⟨(seq, r), hm, rfl⟩

theorem admittedAt_append {calls pre : List (FeedCall ρ)} {c : FeedCall ρ} {pkt : FeedPacket ρ} :
    AdmittedAt w (calls ++ [c]) pre pkt ↔ AdmittedAt w calls pre pkt ∨
      pre = calls ∧ c = .offer pkt ∧ ∃ st, run w calls = some st ∧ st.1.Admits pkt.seq := by
  constructor
  · rintro ⟨⟨post, he⟩, hadm⟩
    rcases List.eq_nil_or_concat post with rfl | ⟨post', d, rfl⟩
    · obtain ⟨rfl, hc⟩ := List.append_inj' he rfl
      exact Or.inr ⟨rfl, List.singleton_inj.mp hc, hadm⟩
    · rw [List.concat_eq_append, ← List.cons_append, ← List.append_assoc] at he
      exact Or.inl ⟨⟨post', (List.append_inj' he rfl).1⟩, hadm⟩
  · rintro (⟨⟨post, rfl⟩, hadm⟩ | ⟨rfl, rfl, hadm⟩)
    · exact ⟨⟨post ++ [c], by simp⟩, hadm⟩
    · exact ⟨⟨[], rfl⟩, hadm⟩

/-- Among the admitted packets with one sequence there is a first. -/
theorem exists_firstAdmittedAt {calls pre : List (FeedCall ρ)} {pkt : FeedPacket ρ}
    (h : AdmittedAt w calls pre pkt) :
    ∃ pre' pkt', FirstAdmittedAt w calls pre' pkt' ∧ pkt'.seq = pkt.seq := by
  induction hn : pre.length using Nat.strong_induction_on generalizing pre pkt with
  | _ n ih =>
    by_cases hfirst : ∀ pre' pkt', AdmittedAt w pre pre' pkt' → pkt'.seq ≠ pkt.seq
    · exact ⟨pre, pkt, ⟨h, hfirst⟩, rfl⟩
    · push Not at hfirst
      obtain ⟨pre', pkt', ⟨⟨post', rfl⟩, hst⟩, hseq⟩ := hfirst
      obtain ⟨⟨post, rfl⟩, _⟩ := h
      have hearlier : AdmittedAt w (pre' ++ .offer pkt' :: post' ++ .offer pkt :: post) pre' pkt' :=
        ⟨⟨post' ++ .offer pkt :: post, by simp⟩, hst⟩
      obtain ⟨pre'', pkt'', hf, hs⟩ := ih pre'.length (by simp [← hn]) hearlier rfl
      exact ⟨pre'', pkt'', hf, hs.trans hseq⟩

theorem run_admits_iff {calls : List (FeedCall ρ)} (hc : ∀ c ∈ calls, c.Bounded) (s : UInt64) :
    (∃ st, run w calls = some st ∧ st.1.Admits s) ↔
      (Arbiter.run w.size calls).Admits s.toNat := by
  obtain ⟨st, hrun, href⟩ := refines_run (w := w) hc
  constructor
  · rintro ⟨st', hst', ha⟩
    rw [hrun] at hst'
    cases hst'
    exact (href.admits_iff _).mp ha
  · exact fun ha => ⟨st, hrun, (href.admits_iff _).mpr ha⟩

/-- What the arbiter knows after a run is what the first admitted packets carried. -/
theorem known_iff_firstAdmitted {calls : List (FeedCall ρ)}
    (hc : ∀ c ∈ calls, c.Bounded) (s : UInt64) (r : ρ) :
    (Arbiter.run w.size calls).Known s.toNat r ↔
      ∃ pre pkt, FirstAdmittedAt w calls pre pkt ∧ pkt.seq = s ∧ pkt.record = r := by
  induction calls using List.reverseRecOn generalizing r with
  | nil =>
    constructor
    · rintro (hm | hp)
      · cases hm
      · cases hp
    · rintro ⟨pre, pkt, ⟨⟨⟨post, he⟩, _⟩, _⟩, _⟩
      simp at he
  | append_singleton calls c ih =>
    have hc' : ∀ c ∈ calls, c.Bounded := fun c hm => hc c (by simp [hm])
    have ih := ih hc'
    have hset := Arbiter.settled_run w.size_pos calls
    have hstep : Arbiter.run w.size (calls ++ [c]) = (Arbiter.run w.size calls).call w.size c := by
      rw [Arbiter.run, List.foldl_append]
      rfl
    -- something is known under `s` exactly when an admitted packet carried it
    have hany : (∃ q, (Arbiter.run w.size calls).Known s.toNat q) ↔
        ∃ pre pkt, AdmittedAt w calls pre pkt ∧ pkt.seq = s := by
      constructor
      · rintro ⟨q, hq⟩
        obtain ⟨pre, pkt, hf, hs, _⟩ := (ih q).mp hq
        exact ⟨pre, pkt, hf.1, hs⟩
      · rintro ⟨pre, pkt, hadm, hs⟩
        obtain ⟨pre', pkt', hf, hs'⟩ := exists_firstAdmittedAt hadm
        exact ⟨pkt'.record, (ih _).mpr ⟨pre', pkt', hf, hs'.trans hs, rfl⟩⟩
    rw [hstep]
    cases c with
    | flush =>
      rw [Arbiter.call, Arbiter.known_flush hset, ih]
      refine exists_congr fun pre => exists_congr fun pkt => and_congr_left fun _ => ?_
      simp [FirstAdmittedAt, admittedAt_append]
    | offer new =>
      rw [Arbiter.call, Arbiter.known_offer hset w.size_pos, ih]
      have hadm := run_admits_iff (w := w) hc' new.seq
      constructor
      · rintro (⟨pre, pkt, hf, hs, hr⟩ | ⟨hs, rfl, ha, hnew⟩)
        · exact ⟨pre, pkt, ⟨admittedAt_append.mpr (Or.inl hf.1), hf.2⟩, hs, hr⟩
        · have hs := UInt64.toNat_inj.mp hs
          subst hs
          refine ⟨calls, new, ⟨admittedAt_append.mpr (Or.inr ⟨rfl, rfl, hadm.mpr ha⟩), ?_⟩, rfl, rfl⟩
          intro pre' pkt' hadm' heq
          obtain ⟨q, hq⟩ := hany.mpr ⟨pre', pkt', hadm', heq⟩
          exact hnew q hq
      · rintro ⟨pre, pkt, ⟨hf, hfirst⟩, hs, hr⟩
        rcases admittedAt_append.mp hf with hf | ⟨rfl, he, ha⟩
        · exact Or.inl ⟨pre, pkt, ⟨hf, hfirst⟩, hs, hr⟩
        · cases he
          subst hs
          refine Or.inr ⟨rfl, hr.symm, hadm.mp ha, ?_⟩
          intro q hq
          obtain ⟨pre', pkt', hadm', heq⟩ := hany.mp ⟨q, hq⟩
          exact hfirst pre' pkt' hadm' heq

/-- Arbitration is safe on every run: the sink sees strictly increasing
sequences, a sequence is delivered or buffered exactly when a packet with it was
admitted, and a delivered record is that of the first such packet. -/
theorem arbitration_safe {calls : List (FeedCall ρ)} (hc : ∀ c ∈ calls, c.Bounded) :
    ∃ a sink, run w calls = some (a, sink) ∧
      (sink.map Prod.fst).Pairwise (· < ·) ∧
      (∀ s, (s ∈ sink.map Prod.fst ∨ a.Buffers s) ↔
        ∃ pre pkt, AdmittedAt w calls pre pkt ∧ pkt.seq = s) ∧
      ∀ s r, (s, r) ∈ sink →
        ∃ pre pkt, FirstAdmittedAt w calls pre pkt ∧ pkt.seq = s ∧ pkt.record = r := by
  obtain ⟨⟨a, sink⟩, hrun, href⟩ := refines_run (w := w) hc
  have hset := Arbiter.settled_run w.size_pos calls
  have hknown := known_iff_firstAdmitted (w := w) hc
  refine ⟨a, sink, hrun, ?_, ?_, ?_⟩
  · have hsorted := hset.sorted
    rw [← href.sink, List.pairwise_map] at hsorted
    exact List.pairwise_map.mpr (hsorted.imp UInt64.lt_iff_toNat_lt.mpr)
  · intro s
    refine (href.accepted_iff s).trans ?_
    constructor
    · rintro ⟨r, hr⟩
      obtain ⟨pre, pkt, hf, hs, _⟩ := (hknown s r).mp hr
      exact ⟨pre, pkt, hf.1, hs⟩
    · rintro ⟨pre, pkt, hadm, rfl⟩
      obtain ⟨pre', pkt', hf, hs⟩ := exists_firstAdmittedAt hadm
      exact ⟨pkt'.record, (hknown _ _).mpr ⟨pre', pkt', hf, hs, rfl⟩⟩
  · intro s r hm
    exact (hknown s r).mp (Or.inl (href.mem_sink_iff.mp hm))

/-- A jump over the window, a wild sequence, and a late copy with another payload. -/
def jumpAndLateCopy : List (FeedCall Nat) :=
  [.offer ⟨0, 0, 10⟩, .offer ⟨9, 0, 19⟩, .offer ⟨4611686018427387904, 0, 0⟩, .offer ⟨1, 1, 11⟩,
    .offer ⟨9, 1, 99⟩, .flush]

theorem arbitration_safe_jumpAndLateCopy :
    ∃ a sink, run PowTwo.four jumpAndLateCopy = some (a, sink) ∧
      (sink.map Prod.fst).Pairwise (· < ·) := by
  obtain ⟨a, sink, hrun, hsorted, _⟩ := arbitration_safe (w := PowTwo.four)
    (show ∀ c ∈ jumpAndLateCopy, c.Bounded by decide)
  exact ⟨a, sink, hrun, hsorted⟩

end FeedArbitrator

end OhlcvValidator
