import OhlcvValidator.ArbiterRefinement

namespace OhlcvValidator

namespace FeedArbitrator

variable {ρ : Type} [Inhabited ρ] {w : PowTwo}

/-- The condition of the forced-advance loop. -/
def tooFar (seq : UInt64) (st : FeedSession ρ w) : Bool :=
  decide (w.size ≤ (seq - st.1.frontier).toNat)

/-- The condition of the flush loop. -/
def holdsAny (st : FeedSession ρ w) : Bool :=
  decide (0 < st.1.occupied)

/-- The release loop ends after at most so many releases. -/
def ReleasesWithin (n : Nat) (st : FeedSession ρ w) : Prop :=
  ∃ k ≤ n, ∃ st', Turns (fun st => st.1.frontReady) (fun st => some (bumpFrontier (deliverFront st)))
    k st st' ∧ st'.1.frontReady = false

/-- The state in which `advance_frontier` calls `release_prefix`. -/
def stepped (st : FeedSession ρ w) : FeedSession ρ w :=
  bumpFrontier (if st.1.frontReady then deliverFront st else countGap st)

/-- The state in which `offer` calls `release_prefix`. -/
def inserted (pkt : FeedPacket ρ) (st : FeedSession ρ w) : FeedSession ρ w :=
  ({ st.1 with
      buf := Function.update st.1.buf (w.index pkt.seq) ⟨true, pkt.seq, pkt.record⟩
      occupied := st.1.occupied + 1 },
    st.2)

theorem advanceFrontier_eq (st : FeedSession ρ w) :
    advanceFrontier st = releasePrefix (stepped st) := by
  unfold advanceFrontier stepped
  split <;> rfl

theorem place_free {pkt : FeedPacket ρ} {st : FeedSession ρ w}
    (hfree : (st.1.buf (w.index pkt.seq)).occupied = false) :
    place pkt st = releasePrefix (inserted pkt st) := by
  simp [place, inserted, hfree]

theorem releasesWithin_of_releasePrefix {st st' : FeedSession ρ w}
    (h : releasePrefix st = some st') : ReleasesWithin w.size st := by
  obtain ⟨k, hk, hturns, hexit⟩ := whileLoop_eq_some_iff.mp h
  exact ⟨k, hk, st', hturns, hexit⟩

/-- Some slot holds this sequence. -/
def Holds (a : FeedArbitrator ρ w) (s : Nat) : Prop :=
  ∃ i, (a.buf i).occupied = true ∧ (a.buf i).seq.toNat = s

/-- The ring with the frontier at position `f`. The position past the last word is `2 ^ 64`, where
the frontier is 0 again. -/
structure RingAt (f : Nat) (a : FeedArbitrator ρ w) : Prop where
  frontier : a.frontier = UInt64.ofNat f
  fits : f ≤ 2 ^ 64
  placed : ∀ i, (a.buf i).occupied = true → w.slotOf (a.buf i).seq.toNat = i
  within : ∀ s, a.Holds s → f ≤ s ∧ s < f + w.size
  counted : a.occupied = UInt64.ofNat a.occupiedSlots.card

/-- The frontier has moved to `g`, and what is held is what was held from there on. -/
structure Passed (st st' : FeedSession ρ w) (g : Nat) : Prop where
  ring : RingAt g st'.1
  holds : ∀ s, st'.1.Holds s ↔ st.1.Holds s ∧ g ≤ s
  started : st'.1.started = st.1.started

theorem Holds.lt_word {a : FeedArbitrator ρ w} {s : Nat} (h : a.Holds s) : s < 2 ^ 64 := by
  obtain ⟨i, _, rfl⟩ := h
  exact (a.buf i).seq.toNat_lt

namespace RingAt

variable {f : Nat} {st : FeedSession ρ w}

theorem slot_of_holds (h : RingAt f st.1) {s : Nat} (hs : st.1.Holds s) :
    (st.1.buf (w.slotOf s)).occupied = true ∧ (st.1.buf (w.slotOf s)).seq.toNat = s := by
  obtain ⟨i, hocc, rfl⟩ := hs
  rw [h.placed i hocc]
  exact ⟨hocc, rfl⟩

theorem toNat_frontier (h : RingAt f st.1) (hf : f < 2 ^ 64) : st.1.frontier.toNat = f := by
  rw [h.frontier, UInt64.toNat_ofNat_of_lt' hf]

theorem frontReady_iff (h : RingAt f st.1) : st.1.frontReady = true ↔ st.1.Holds f := by
  rw [frontReady, frontSlot, Bool.and_eq_true, beq_iff_eq]
  constructor
  · rintro ⟨hocc, hseq⟩
    refine ⟨_, hocc, ?_⟩
    -- past the last word the ring is empty
    have hle := (h.within _ ⟨_, hocc, rfl⟩).1
    have hlt : f < 2 ^ 64 := lt_of_le_of_lt hle (UInt64.toNat_lt _)
    rw [hseq, h.toNat_frontier hlt]
  · intro hf
    obtain ⟨hocc, hseq⟩ := h.slot_of_holds hf
    rw [w.index_eq_slotOf, h.toNat_frontier hf.lt_word]
    exact ⟨hocc, UInt64.toNat_inj.mp (hseq.trans (h.toNat_frontier hf.lt_word).symm)⟩

theorem passed_self (h : RingAt f st.1) : Passed st st f where
  ring := h
  holds := fun s => ⟨fun hs => ⟨hs, (h.within s hs).1⟩, And.left⟩
  started := rfl

/-- Delivering the frontier's message frees its slot and leaves the others. -/
theorem deliver (h : RingAt f st.1) (hf : st.1.Holds f) :
    RingAt (f + 1) (bumpFrontier (deliverFront st)).1 ∧
      (∀ s, (bumpFrontier (deliverFront st)).1.Holds s ↔ st.1.Holds s ∧ f < s) ∧
      (bumpFrontier (deliverFront st)).1.occupiedSlots.card < st.1.occupiedSlots.card := by
  obtain ⟨hocc, hseq⟩ := h.slot_of_holds hf
  have hidx : w.index st.1.frontier = w.slotOf f := by
    rw [w.index_eq_slotOf, h.toNat_frontier hf.lt_word]
  have hbuf : (bumpFrontier (deliverFront st)).1.buf = Function.update st.1.buf (w.slotOf f)
      { st.1.frontSlot with occupied := false } := by
    rw [← hidx]
    rfl
  have hcard := occupiedSlots_free hbuf hocc rfl
  have hholds : ∀ s, (bumpFrontier (deliverFront st)).1.Holds s ↔ st.1.Holds s ∧ f < s := by
    intro s
    simp only [Holds, hbuf]
    constructor
    · rintro ⟨j, hj, hs⟩
      by_cases hji : j = w.slotOf f
      · simp [hji] at hj
      · rw [Function.update_of_ne hji] at hj hs
        refine ⟨⟨j, hj, hs⟩, lt_of_le_of_ne (h.within s ⟨j, hj, hs⟩).1 ?_⟩
        rintro rfl
        exact hji (by rw [← h.placed j hj, hs])
    · rintro ⟨⟨j, hj, hs⟩, hlt⟩
      have hji : j ≠ w.slotOf f := by
        rintro rfl
        omega
      exact ⟨j, by rwa [Function.update_of_ne hji], by rwa [Function.update_of_ne hji]⟩
  refine ⟨⟨?_, hf.lt_word, placed_update hbuf h.placed (by simp), ?_, ?_⟩, hholds, by omega⟩
  · change st.1.frontier + 1 = _
    rw [h.frontier, UInt64.ofNat_add]
    rfl
  · intro s hs
    obtain ⟨hs, hlt⟩ := (hholds s).mp hs
    have := h.within s hs
    omega
  · change st.1.occupied - 1 = UInt64.ofNat _
    rw [h.counted, ← hcard, UInt64.ofNat_add]
    simp

theorem gap (h : RingAt f st.1) (hf : ¬st.1.Holds f) (hlt : f < 2 ^ 64) :
    RingAt (f + 1) (bumpFrontier (countGap st)).1 := by
  refine ⟨?_, hlt, h.placed, ?_, h.counted⟩
  · change st.1.frontier + 1 = _
    rw [h.frontier, UInt64.ofNat_add]
    rfl
  · intro s hs
    have hs : st.1.Holds s := hs
    have hne : s ≠ f := fun heq => hf (heq ▸ hs)
    have := h.within s hs
    omega

/-- The release loop takes the run of held sequences at the frontier. -/
theorem release (h : RingAt f st.1) :
    ∃ st' g, releasePrefix st = some st' ∧ Passed st st' g ∧ ¬st'.1.Holds g ∧ f ≤ g ∧
      ∀ s, f ≤ s → s < g → st.1.Holds s := by
  let Inv : FeedSession ρ w → Prop := fun u =>
    ∃ g, Passed st u g ∧ f ≤ g ∧ ∀ s, f ≤ s → s < g → st.1.Holds s
  have step : ∀ u, Inv u → u.1.frontReady = true →
      ∃ u', some (bumpFrontier (deliverFront u)) = some u' ∧ Inv u' ∧
        u'.1.occupiedSlots.card < u.1.occupiedSlots.card := by
    rintro u ⟨g, hg, hfg, hrun⟩ hready
    have hfront := hg.ring.frontReady_iff.mp hready
    obtain ⟨hnext, hholds, hcard⟩ := hg.ring.deliver hfront
    refine ⟨_, rfl, ⟨g + 1, ⟨hnext, ?_, hg.started⟩, by omega, ?_⟩, hcard⟩
    · intro s
      rw [hholds, hg.holds, and_assoc]
      exact and_congr_right fun _ => by omega
    · intro s hs hlt
      by_cases heq : s = g
      · subst heq
        exact ((hg.holds s).mp hfront).1
      · exact hrun s hs (by omega)
  have hbudget : st.1.occupiedSlots.card ≤ w.size := by
    simpa using Finset.card_le_univ st.1.occupiedSlots
  obtain ⟨st', hloop, ⟨g, hg, hfg, hrun⟩, hexit⟩ :=
    whileLoop_total step ⟨f, h.passed_self, le_rfl, fun s _ _ => by omega⟩ hbudget
  refine ⟨st', g, hloop, hg, ?_, hfg, hrun⟩
  rw [← hg.ring.frontReady_iff, hexit]
  simp

/-- A forced step moves on to the next sequence that is not held. -/
theorem advance (h : RingAt f st.1) (hf : f < 2 ^ 64) :
    ∃ st' g, advanceFrontier st = some st' ∧ Passed st st' g ∧ ¬st'.1.Holds g ∧ f < g ∧
      ∀ s, f < s → s < g → st.1.Holds s := by
  rw [advanceFrontier_eq, stepped]
  by_cases hready : st.1.frontReady = true
  · have hfront := h.frontReady_iff.mp hready
    obtain ⟨hnext, hholds, _⟩ := h.deliver hfront
    obtain ⟨st', g, hloop, hg, hfree, hfg, hrun⟩ := hnext.release
    rw [if_pos hready]
    refine ⟨st', g, hloop, ⟨hg.ring, ?_, hg.started⟩, hfree, by omega, ?_⟩
    · intro s
      rw [hg.holds, hholds]
      constructor
      · exact fun ⟨hs, hgs⟩ => ⟨hs.1, hgs⟩
      · exact fun ⟨hs, hgs⟩ => ⟨⟨hs, by omega⟩, hgs⟩
    · intro s hs hlt
      exact ((hholds s).mp (hrun s (by omega) hlt)).1
  · have hfront := mt h.frontReady_iff.mpr hready
    obtain ⟨st', g, hloop, hg, hfree, hfg, hrun⟩ := (h.gap hfront hf).release
    rw [if_neg hready]
    exact ⟨st', g, hloop, ⟨hg.ring, hg.holds, hg.started⟩, hfree, by omega,
      fun s hs hlt => hrun s (by omega) hlt⟩

/-- No two sequences of the window share a slot. -/
theorem slot_seq (h : RingAt f st.1) {s : Nat} (hle : f ≤ s) (hlt : s < f + w.size)
    (hocc : (st.1.buf (w.slotOf s)).occupied = true) :
    (st.1.buf (w.slotOf s)).seq.toNat = s := by
  obtain ⟨hge, hwin⟩ := h.within _ ⟨_, hocc, rfl⟩
  exact w.eq_of_slotOf_eq hge hwin hle hlt (h.placed _ hocc)

theorem insert (h : RingAt f st.1) {pkt : FeedPacket ρ} (hle : f ≤ pkt.seq.toNat)
    (hlt : pkt.seq.toNat < f + w.size)
    (hfree : (st.1.buf (w.index pkt.seq)).occupied = false) : RingAt f (inserted pkt st).1 := by
  have hidx : w.index pkt.seq = w.slotOf pkt.seq.toNat := w.index_eq_slotOf pkt.seq
  refine ⟨h.frontier, h.fits, placed_update rfl h.placed fun _ => hidx.symm, ?_, ?_⟩
  · rintro s ⟨j, hj, hs⟩
    by_cases hji : j = w.index pkt.seq
    · simp only [inserted, hji, Function.update_self] at hs
      omega
    · simp only [inserted, Function.update_of_ne hji] at hj hs
      exact h.within s ⟨j, hj, hs⟩
  · have hcard := occupiedSlots_take (b := (inserted pkt st).1) rfl hfree rfl
    change st.1.occupied + 1 = UInt64.ofNat (inserted pkt st).1.occupiedSlots.card
    rw [hcard, UInt64.ofNat_add, h.counted]
    rfl

theorem toNat_sub (h : RingAt f st.1) {seq : UInt64} (hle : f ≤ seq.toNat) :
    (seq - st.1.frontier).toNat = seq.toNat - f := by
  have hf := h.toNat_frontier (lt_of_le_of_lt hle seq.toNat_lt)
  rw [UInt64.toNat_sub_of_le _ _ (UInt64.le_iff_toNat_le.mpr (by rwa [hf])), hf]

theorem of_ring (h : RingAt f st.1) {st' : FeedSession ρ w} (hbuf : st'.1.buf = st.1.buf)
    (hfront : st'.1.frontier = st.1.frontier) (hocc : st'.1.occupied = st.1.occupied) :
    RingAt f st'.1 := by
  refine ⟨hfront.trans h.frontier, h.fits, ?_, ?_, ?_⟩
  · rw [hbuf]
    exact h.placed
  · unfold Holds
    rw [hbuf]
    exact h.within
  · rw [hocc, occupiedSlots, hbuf]
    exact h.counted

end RingAt

/-- The loops of an `offer` that comes past its guards with the session anchored. -/
structure OfferLoops (pkt : FeedPacket ρ) (st : FeedSession ρ w) : Prop where
  ends : ∃ n ≤ kMaxGap.toNat, ∃ mid, Turns (tooFar pkt.seq) advanceFrontier n st mid ∧
    makeRoom pkt.seq st = some mid ∧ mid.1.frontier ≤ pkt.seq ∧
    (pkt.seq - mid.1.frontier).toNat < w.size ∧
    ((mid.1.buf (w.index pkt.seq)).occupied = false →
      ReleasesWithin w.size (inserted pkt (noteDepth pkt.seq mid)))
  never_past : ∀ n mid, Turns (tooFar pkt.seq) advanceFrontier n st mid →
    mid.1.frontier ≤ pkt.seq
  releases : ∀ n mid, Turns (tooFar pkt.seq) advanceFrontier n st mid → tooFar pkt.seq mid = true →
    ReleasesWithin w.size (stepped mid)

/-- The loops of a `flush`, which leaves the frontier past the last buffered sequence. -/
structure FlushLoops (st : FeedSession ρ w) : Prop where
  ends : ∃ n ≤ w.size - 1, ∃ fin, Turns holdsAny advanceFrontier n st fin ∧
    flush st = some fin ∧ fin.1.occupied = 0 ∧
    ((∀ i, (st.1.buf i).occupied = false) → fin.1.frontier = st.1.frontier) ∧
    ∀ i, (st.1.buf i).occupied = true →
      (∀ j, (st.1.buf j).occupied = true → (st.1.buf j).seq ≤ (st.1.buf i).seq) →
        fin.1.frontier = (st.1.buf i).seq + 1
  releases : ∀ n mid, Turns holdsAny advanceFrontier n st mid → holdsAny mid = true →
    ReleasesWithin w.size (stepped mid)

section Offer

variable {f : Nat} {st : FeedSession ρ w} {pkt : FeedPacket ρ}

/-- A forced step that is still needed does not lead past the packet, which is not held. -/
theorem RingAt.forced (h : RingAt f st.1) (hle : f ≤ pkt.seq.toNat)
    (hfar : tooFar pkt.seq st = true) :
    ∃ st' g, advanceFrontier st = some st' ∧ Passed st st' g ∧ ¬st'.1.Holds g ∧ f < g ∧
      g ≤ pkt.seq.toNat := by
  have hfar := of_decide_eq_true hfar
  rw [h.toNat_sub hle] at hfar
  have hpos := w.size_pos
  have hword := pkt.seq.toNat_lt
  obtain ⟨st', g, hrun, hg, hfree, hlt, hheld⟩ := h.advance (by omega)
  refine ⟨st', g, hrun, hg, hfree, hlt, ?_⟩
  by_contra hpast
  have := h.within _ (hheld pkt.seq.toNat (by omega) (by omega))
  omega

/-- The forced-advance loop ends where the packet fits the window. -/
theorem RingAt.makeRoom (h : RingAt f st.1) (hle : f ≤ pkt.seq.toNat)
    (hgap : pkt.seq.toNat ≤ f + kMaxGap.toNat) :
    ∃ mid g, makeRoom pkt.seq st = some mid ∧ RingAt g mid.1 ∧ g ≤ pkt.seq.toNat ∧
      pkt.seq.toNat < g + w.size ∧ (¬st.1.Holds f → ¬mid.1.Holds g) ∧
      mid.1.started = st.1.started := by
  let Inv : FeedSession ρ w → Prop := fun u => ∃ g, RingAt g u.1 ∧ g ≤ pkt.seq.toNat ∧
    (¬st.1.Holds f → ¬u.1.Holds g) ∧ u.1.started = st.1.started
  have step : ∀ u, Inv u → tooFar pkt.seq u = true → ∃ u', advanceFrontier u = some u' ∧ Inv u' ∧
      (pkt.seq - u'.1.frontier).toNat < (pkt.seq - u.1.frontier).toNat := by
    rintro u ⟨g, hg, hgs, _, hstarted⟩ hfar
    obtain ⟨u', g', hrun, hg', hfree, hlt, hgs'⟩ := hg.forced hgs hfar
    refine ⟨u', hrun, ⟨g', hg'.ring, hgs', fun _ => hfree, hg'.started.trans hstarted⟩, ?_⟩
    rw [hg'.ring.toNat_sub hgs', hg.toNat_sub hgs]
    omega
  have hbudget : (pkt.seq - st.1.frontier).toNat ≤ kMaxGap.toNat := by
    rw [h.toNat_sub hle]
    omega
  obtain ⟨mid, hloop, ⟨g, hg, hgs, hhole, hstarted⟩, hexit⟩ :=
    whileLoop_total step ⟨f, h, hle, id, rfl⟩ hbudget
  refine ⟨mid, g, hloop, hg, hgs, ?_, hhole, hstarted⟩
  have hnear := of_decide_eq_false hexit
  rw [hg.toNat_sub hgs] at hnear
  omega

theorem RingAt.noteDepth (h : RingAt f st.1) (seq : UInt64) : RingAt f (noteDepth seq st).1 := by
  unfold FeedArbitrator.noteDepth
  dsimp only
  split
  next => exact h.of_ring rfl rfl rfl
  next => exact h

theorem noteDepth_buf (seq : UInt64) (st : FeedSession ρ w) :
    (noteDepth seq st).1.buf = st.1.buf := by
  unfold noteDepth
  dsimp only
  split <;> rfl

theorem noteDepth_started (seq : UInt64) (st : FeedSession ρ w) :
    (noteDepth seq st).1.started = st.1.started := by
  unfold noteDepth
  dsimp only
  split <;> rfl

theorem RingAt.offerLoops (h : RingAt f st.1) (hle : f ≤ pkt.seq.toNat)
    (hgap : pkt.seq.toNat ≤ f + kMaxGap.toNat) : OfferLoops pkt st := by
  have hturn : ∀ n mid, Turns (tooFar pkt.seq) advanceFrontier n st mid →
      ∃ g, RingAt g mid.1 ∧ g ≤ pkt.seq.toNat := by
    intro n mid hturns
    have step : ∀ u u' : FeedSession ρ w, (∃ g, RingAt g u.1 ∧ g ≤ pkt.seq.toNat) →
        tooFar pkt.seq u = true → advanceFrontier u = some u' →
        ∃ g, RingAt g u'.1 ∧ g ≤ pkt.seq.toNat := by
      rintro u u' ⟨g, hg, hgs⟩ hfar hrun
      obtain ⟨u₁, g', hrun', hg', _, _, hgs'⟩ := hg.forced hgs hfar
      obtain rfl := Option.some.inj (hrun.symm.trans hrun')
      exact ⟨g', hg'.ring, hgs'⟩
    exact hturns.invariant step ⟨f, h, hle⟩
  refine ⟨?_, ?_, ?_⟩
  · obtain ⟨mid, g, hroom, hg, hgs, hnear, _⟩ := h.makeRoom hle hgap
    obtain ⟨n, hn, hturns, _⟩ := whileLoop_eq_some_iff.mp hroom
    refine ⟨n, hn, mid, hturns, hroom, ?_, ?_, ?_⟩
    · rw [UInt64.le_iff_toNat_le, hg.toNat_frontier (lt_of_le_of_lt hgs pkt.seq.toNat_lt)]
      exact hgs
    · rw [hg.toNat_sub hgs]
      omega
    · intro hfree
      rw [← noteDepth_buf pkt.seq mid] at hfree
      obtain ⟨st', _, hloop, _⟩ := ((hg.noteDepth pkt.seq).insert hgs hnear hfree).release
      exact releasesWithin_of_releasePrefix hloop
  · intro n mid hturns
    obtain ⟨g, hg, hgs⟩ := hturn n mid hturns
    rw [UInt64.le_iff_toNat_le, hg.toNat_frontier (lt_of_le_of_lt hgs pkt.seq.toNat_lt)]
    exact hgs
  · intro n mid hturns hfar
    obtain ⟨g, hg, hgs⟩ := hturn n mid hturns
    obtain ⟨u, _, hrun, _⟩ := hg.forced hgs hfar
    rw [advanceFrontier_eq] at hrun
    exact releasesWithin_of_releasePrefix hrun

end Offer

section Flush

variable {f : Nat} {st : FeedSession ρ w}

theorem RingAt.holdsAny_iff (h : RingAt f st.1) : holdsAny st = true ↔ ∃ s, st.1.Holds s := by
  have hcard : st.1.occupiedSlots.card ≤ w.size := by
    simpa using Finset.card_le_univ st.1.occupiedSlots
  have hfits := w.fits
  have hnat : (UInt64.ofNat st.1.occupiedSlots.card).toNat = st.1.occupiedSlots.card :=
    UInt64.toNat_ofNat_of_lt' (show _ < 2 ^ 64 by omega)
  rw [holdsAny, decide_eq_true_eq, h.counted, UInt64.lt_iff_toNat_lt, hnat, UInt64.toNat_zero,
    Finset.card_pos]
  constructor
  · rintro ⟨i, hi⟩
    exact ⟨_, i, by simpa [occupiedSlots] using hi, rfl⟩
  · rintro ⟨s, i, hi, _⟩
    exact ⟨i, by simpa [occupiedSlots] using hi⟩

/-- Where a flush stands that has come from the hole `f` to the hole `g`: more is held, nothing
was ever held, or the sequence before `g` was. -/
structure Flushing (f g : Nat) (st mid : FeedSession ρ w) : Prop where
  passed : Passed st mid g
  hole : ¬mid.1.Holds g
  from_start : f ≤ g
  reason : (∃ s, mid.1.Holds s) ∨ g = f ∨ st.1.Holds (g - 1)

theorem Flushing.step {g : Nat} {mid : FeedSession ρ w} (h : Flushing f g st mid)
    (hany : holdsAny mid = true) :
    ∃ mid' g', advanceFrontier mid = some mid' ∧ Flushing f g' st mid' ∧ g < g' := by
  obtain ⟨s, hs⟩ := h.passed.ring.holdsAny_iff.mp hany
  have hgs : g < s := lt_of_le_of_ne (h.passed.ring.within s hs).1 fun heq => h.hole (heq ▸ hs)
  obtain ⟨mid', g', hrun, hpass, hhole, hlt, hheld⟩ :=
    h.passed.ring.advance (hgs.trans hs.lt_word)
  have hfrom := h.from_start
  refine ⟨mid', g', hrun, ⟨⟨hpass.ring, ?_, hpass.started.trans h.passed.started⟩, hhole,
    by omega, ?_⟩, hlt⟩
  · intro t
    rw [hpass.holds, h.passed.holds]
    constructor
    · exact fun ⟨ht, hgt⟩ => ⟨ht.1, hgt⟩
    · exact fun ⟨ht, hgt⟩ => ⟨⟨ht, by omega⟩, hgt⟩
  · by_cases hstep : g' = g + 1
    · exact Or.inl ⟨s, (hpass.holds s).mpr ⟨hs, by omega⟩⟩
    · exact Or.inr (Or.inr ((h.passed.holds _).mp (hheld (g' - 1) (by omega) (by omega))).1)

/-- The flush ends after at most one turn per sequence of the window that can be held. -/
theorem RingAt.flush (h : RingAt f st.1) (hhole : ¬st.1.Holds f) :
    ∃ n ≤ w.size - 1, ∃ fin g, Turns holdsAny advanceFrontier n st fin ∧ flush st = some fin ∧
      Flushing f g st fin ∧ holdsAny fin = false := by
  -- as long as anything is held, the frontier is short of the window's last sequence
  let left : FeedSession ρ w → Nat := fun u =>
    if holdsAny u then f + w.size - 1 - u.1.frontier.toNat else 0
  have hleft : ∀ {u g}, Flushing f g st u → holdsAny u = true →
      left u = f + w.size - 1 - g ∧ g + 1 < f + w.size := by
    intro u g hu hany
    obtain ⟨s, hs⟩ := hu.passed.ring.holdsAny_iff.mp hany
    have hgs := (hu.passed.ring.within s hs).1
    have hne : g ≠ s := fun heq => hu.hole (heq ▸ hs)
    have hwin := (h.within s ((hu.passed.holds s).mp hs).1).2
    have hword := hs.lt_word
    refine ⟨?_, by omega⟩
    simp only [left, hany, if_true, hu.passed.ring.toNat_frontier (by omega)]
  have step : ∀ u, (∃ g, Flushing f g st u) → holdsAny u = true →
      ∃ u', advanceFrontier u = some u' ∧ (∃ g, Flushing f g st u') ∧ left u' < left u := by
    rintro u ⟨g, hu⟩ hany
    obtain ⟨u', g', hrun, hu', hlt⟩ := hu.step hany
    obtain ⟨hnow, hroom⟩ := hleft hu hany
    refine ⟨u', hrun, ⟨g', hu'⟩, ?_⟩
    cases hany' : holdsAny u' with
    | false =>
      simp only [left, hany', Bool.false_eq_true, if_false] at hnow ⊢
      omega
    | true =>
      obtain ⟨hnext, _⟩ := hleft hu' hany'
      omega
  have hstart : Flushing f f st st := ⟨h.passed_self, hhole, le_rfl, Or.inr (Or.inl rfl)⟩
  have hbudget : left st ≤ w.size - 1 := by
    cases hany : holdsAny st with
    | false => simp [left, hany]
    | true =>
      have := (hleft hstart hany).1
      omega
  obtain ⟨fin, hloop, ⟨g, hfin⟩, hexit⟩ := whileLoop_total step ⟨f, hstart⟩ hbudget
  obtain ⟨n, hn, hturns, _⟩ := whileLoop_eq_some_iff.mp hloop
  have hflush : FeedArbitrator.flush st = some fin :=
    whileLoop_eq_some_iff.mpr ⟨n, by omega, hturns, hexit⟩
  exact ⟨n, hn, fin, g, hturns, hflush, hfin, hexit⟩

theorem RingAt.flushLoops (h : RingAt f st.1) (hhole : ¬st.1.Holds f) : FlushLoops st := by
  refine ⟨?_, ?_⟩
  · obtain ⟨n, hn, fin, g, hturns, hflush, hfin, hexit⟩ := h.flush hhole
    have hnone : ¬∃ s, fin.1.Holds s := by
      rw [← hfin.passed.ring.holdsAny_iff, hexit]
      simp
    have hreason := hfin.reason.resolve_left hnone
    refine ⟨n, hn, fin, hturns, hflush, ?_, ?_, ?_⟩
    · have hzero := of_decide_eq_false hexit
      rw [UInt64.not_lt] at hzero
      exact UInt64.le_antisymm hzero UInt64.zero_le
    · intro hfree
      have hempty : ∀ s, ¬st.1.Holds s := by
        rintro s ⟨i, hi, _⟩
        rw [hfree i] at hi
        cases hi
      rw [hfin.passed.ring.frontier, hreason.resolve_right (hempty _), h.frontier]
    · intro i hi hmax
      have hheld : st.1.Holds (st.1.buf i).seq.toNat := ⟨i, hi, rfl⟩
      have hlt : (st.1.buf i).seq.toNat < g := by
        by_contra hge
        exact hnone ⟨_, (hfin.passed.holds _).mpr ⟨hheld, not_lt.mp hge⟩⟩
      have hlast : g = (st.1.buf i).seq.toNat + 1 := by
        rcases hreason with heq | ⟨j, hj, hseq⟩
        · have := (h.within _ hheld).1
          omega
        · have := UInt64.le_iff_toNat_le.mp (hmax j hj)
          omega
      rw [hfin.passed.ring.frontier, hlast, UInt64.ofNat_add, UInt64.ofNat_toNat]
      rfl
  · intro n mid hturns hany
    have step : ∀ u u' : FeedSession ρ w, (∃ g, Flushing f g st u) → holdsAny u = true →
        advanceFrontier u = some u' → ∃ g, Flushing f g st u' := by
      rintro u u' ⟨g, hu⟩ hcond hrun
      obtain ⟨u₁, g', hrun', hu', _⟩ := hu.step hcond
      obtain rfl := Option.some.inj (hrun.symm.trans hrun')
      exact ⟨g', hu'⟩
    obtain ⟨g, hmid⟩ := hturns.invariant step
      ⟨f, h.passed_self, hhole, le_rfl, Or.inr (Or.inl rfl)⟩
    obtain ⟨u, _, hrun, _⟩ := hmid.step hany
    rw [advanceFrontier_eq] at hrun
    exact releasesWithin_of_releasePrefix hrun

end Flush

section Run

variable {st : FeedSession ρ w}

/-- What holds between calls, whatever sequences were offered. -/
structure BetweenCalls (st : FeedSession ρ w) : Prop where
  ring : ∃ f < 2 ^ 64, RingAt f st.1 ∧ ¬st.1.Holds f
  idle : st.1.started = false → ∀ s, ¬st.1.Holds s

/-- Past the last word the ring is empty and the frontier is 0 again. -/
theorem RingAt.wrap {g : Nat} (h : RingAt g st.1) (hhole : ¬st.1.Holds g) :
    ∃ f < 2 ^ 64, RingAt f st.1 ∧ ¬st.1.Holds f := by
  by_cases hg : g < 2 ^ 64
  · exact ⟨g, hg, h, hhole⟩
  · have hempty : ∀ s, ¬st.1.Holds s := by
      intro s hs
      have := (h.within s hs).1
      have := hs.lt_word
      omega
    have hlast : g = 2 ^ 64 := by
      have := h.fits
      omega
    refine ⟨0, by omega, ⟨?_, by omega, h.placed, fun s hs => absurd hs (hempty s), h.counted⟩,
      hempty 0⟩
    rw [h.frontier, hlast]
    rfl

theorem betweenCalls_fresh : BetweenCalls (({} : FeedArbitrator ρ w), []) := by
  have hempty : ∀ s, ¬({} : FeedArbitrator ρ w).Holds s := by
    rintro s ⟨i, hi, _⟩
    cases hi
  have hring : RingAt 0 ({} : FeedArbitrator ρ w) :=
    ⟨rfl, by omega, fun i hi => Bool.noConfusion hi, fun s hs => absurd hs (hempty s),
      by simp [occupiedSlots]⟩
  exact ⟨⟨0, by omega, hring, hempty 0⟩, fun _ => hempty⟩

theorem BetweenCalls.anchor (h : BetweenCalls st) (seq : UInt64) :
    (∃ f < 2 ^ 64, RingAt f (anchor seq st).1 ∧ ¬(anchor seq st).1.Holds f) ∧
      (anchor seq st).1.started = true := by
  unfold FeedArbitrator.anchor
  cases hs : st.1.started with
  | true => exact ⟨h.ring, hs⟩
  | false =>
    have hempty := h.idle hs
    obtain ⟨f, _, hring, _⟩ := h.ring
    refine ⟨⟨seq.toNat, seq.toNat_lt, ⟨?_, seq.toNat_lt.le, hring.placed, ?_, hring.counted⟩,
      hempty _⟩, rfl⟩
    · exact UInt64.ofNat_toNat.symm
    · exact fun s hs => absurd hs (hempty s)

theorem RingAt.betweenCalls {g : Nat} (h : RingAt g st.1) (hhole : ¬st.1.Holds g)
    (hstarted : st.1.started = true) : BetweenCalls st :=
  ⟨h.wrap hhole, fun hidle => absurd hstarted (by simp [hidle])⟩

theorem BetweenCalls.of_ring (h : BetweenCalls st) {st' : FeedSession ρ w}
    (hbuf : st'.1.buf = st.1.buf) (hfront : st'.1.frontier = st.1.frontier)
    (hocc : st'.1.occupied = st.1.occupied) (hstarted : st'.1.started = st.1.started) :
    BetweenCalls st' := by
  have hholds : ∀ s, st'.1.Holds s ↔ st.1.Holds s := by
    intro s
    rw [Holds, hbuf, Holds]
  obtain ⟨f, hf, hring, hhole⟩ := h.ring
  refine ⟨⟨f, hf, hring.of_ring hbuf hfront hocc, by rwa [hholds]⟩, fun hidle s => ?_⟩
  rw [hholds]
  exact h.idle (hstarted ▸ hidle) s

theorem RingAt.place {f : Nat} (h : RingAt f st.1) (hhole : ¬st.1.Holds f)
    (hstarted : st.1.started = true) {pkt : FeedPacket ρ} (hle : f ≤ pkt.seq.toNat)
    (hlt : pkt.seq.toNat < f + w.size) : ∃ st', place pkt st = some st' ∧ BetweenCalls st' := by
  cases hfree : (st.1.buf (w.index pkt.seq)).occupied with
  | true =>
    rw [w.index_eq_slotOf] at hfree
    have hseq := UInt64.toNat_inj.mp (h.slot_seq hle hlt hfree)
    refine ⟨addDuplicate (lineIndex pkt) st, ?_, ?_⟩
    · simp [FeedArbitrator.place, w.index_eq_slotOf, hfree, hseq]
    · exact (h.betweenCalls hhole hstarted).of_ring rfl rfl rfl rfl
  | false =>
    obtain ⟨st', g, hloop, hg, hfree', _⟩ := (h.insert hle hlt hfree).release
    exact ⟨st', by rw [place_free hfree, hloop],
      hg.ring.betweenCalls hfree' (hg.started.trans hstarted)⟩

theorem BetweenCalls.offer (h : BetweenCalls st) (pkt : FeedPacket ρ) :
    ∃ st', offer pkt st = some st' ∧ BetweenCalls st' := by
  obtain ⟨⟨f, hf, hring, hhole⟩, hstarted⟩ := h.anchor pkt.seq
  unfold FeedArbitrator.offer
  dsimp only
  split
  next => exact ⟨_, rfl, (hring.betweenCalls hhole hstarted).of_ring rfl rfl rfl rfl⟩
  next hlate =>
    rw [UInt64.lt_iff_toNat_lt, hring.toNat_frontier hf, not_lt] at hlate
    split
    next => exact ⟨_, rfl, (hring.betweenCalls hhole hstarted).of_ring rfl rfl rfl rfl⟩
    next hwild =>
      rw [UInt64.lt_iff_toNat_lt, hring.toNat_sub hlate] at hwild
      obtain ⟨mid, g, hroom, hg, hgs, hnear, hfree, hmid⟩ := hring.makeRoom hlate (by omega)
      have hnoted := hg.noteDepth pkt.seq
      have hhole' : ¬(noteDepth pkt.seq mid).1.Holds g := by
        unfold Holds
        rw [noteDepth_buf]
        exact hfree hhole
      have hstarted' : (noteDepth pkt.seq mid).1.started = true := by
        rw [noteDepth_started, hmid, hstarted]
      rw [hroom, Option.bind_some]
      exact hnoted.place hhole' hstarted' hgs hnear

theorem BetweenCalls.call (h : BetweenCalls st) (c : FeedCall ρ) :
    ∃ st', call st c = some st' ∧ BetweenCalls st' := by
  cases c with
  | offer pkt => exact h.offer pkt
  | flush =>
    obtain ⟨f, _, hring, hhole⟩ := h.ring
    obtain ⟨_, _, fin, g, _, hflush, hfin, hexit⟩ := hring.flush hhole
    have hnone : ∀ s, ¬fin.1.Holds s := by
      intro s hs
      have hany := hfin.passed.ring.holdsAny_iff.mpr ⟨s, hs⟩
      rw [hexit] at hany
      cases hany
    exact ⟨fin, hflush, hfin.passed.ring.wrap hfin.hole, fun _ => hnone⟩

theorem betweenCalls_run (calls : List (FeedCall ρ)) :
    ∃ st, run w calls = some st ∧ BetweenCalls st :=
  foldlM_simulates (f := call) (g := fun (_ : Unit) _ => ()) (R := fun st _ => BetweenCalls st)
    (fun _ _ c _ h => h.call c) (t := ()) betweenCalls_fresh

end Run

/-- From every state between calls, the loops of every `offer` that comes past its guards and of
`flush` end within their bounds. -/
theorem loops_bounded (calls : List (FeedCall ρ)) :
    ∃ st, run w calls = some st ∧
      (∀ pkt : FeedPacket ρ, ¬pkt.seq < (anchor pkt.seq st).1.frontier →
        ¬kMaxGap < pkt.seq - (anchor pkt.seq st).1.frontier →
          OfferLoops pkt (anchor pkt.seq st)) ∧
      FlushLoops st := by
  obtain ⟨st, hrun, hst⟩ := betweenCalls_run (w := w) calls
  obtain ⟨f, _, hring, hhole⟩ := hst.ring
  refine ⟨st, hrun, ?_, hring.flushLoops hhole⟩
  intro pkt hlate hwild
  obtain ⟨⟨g, hg, hanc, _⟩, _⟩ := hst.anchor pkt.seq
  rw [UInt64.lt_iff_toNat_lt, hanc.toNat_frontier hg, not_lt] at hlate
  rw [UInt64.lt_iff_toNat_lt, hanc.toNat_sub hlate] at hwild
  exact hanc.offerLoops hlate (by omega)

end FeedArbitrator

end OhlcvValidator
