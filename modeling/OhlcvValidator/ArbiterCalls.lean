import OhlcvValidator.ArbiterSimulation

namespace OhlcvValidator

namespace FeedArbitrator

variable {ρ : Type} [Inhabited ρ] {w : PowTwo} {st : FeedSession ρ w} {a : Arbiter ρ}

theorem refines_noteDepth (h : Refines st a) {seq : UInt64} (hle : a.frontier ≤ seq.toNat) :
    Refines (noteDepth seq st) (a.noteDepth seq.toNat) := by
  have hdist := h.toNat_sub_frontier hle
  have hmax := h.maxReorder
  by_cases hd : st.1.stats.maxReorder < seq - st.1.frontier
  · have hval : (seq - st.1.frontier).toNat = max a.maxReorder (seq.toNat - a.frontier) := by
      rw [UInt64.lt_iff_toNat_lt, hdist, hmax] at hd
      rw [hdist, max_eq_right hd.le]
    simp only [noteDepth, hd, if_true]
    exact { h with maxReorder := hval }
  · have hval : st.1.stats.maxReorder.toNat = max a.maxReorder (seq.toNat - a.frontier) := by
      rw [UInt64.lt_iff_toNat_lt, hdist, hmax] at hd
      rw [hmax, max_eq_left (by omega)]
    simp only [noteDepth, hd, if_false]
    exact { h with maxReorder := hval }

theorem refines_addDuplicate (h : Refines st a) (ln : Fin 2) :
    Refines (addDuplicate ln st) (a.addDuplicate ln) := by
  refine { h with duplicates := ?_ }
  intro k
  by_cases hk : k = ln
  · subst hk
    simp [addDuplicate, Stats.addDuplicate, Arbiter.addDuplicate, h.duplicates]
  · simp [addDuplicate, Stats.addDuplicate, Arbiter.addDuplicate, hk, h.duplicates]

theorem refines_place (h : Refines st a) {pkt : FeedPacket ρ} (hseq : pkt.seq.toNat ≤ 2 ^ 64 - 2)
    (hstarted : a.started = true) (hle : a.frontier ≤ pkt.seq.toNat)
    (hlt : pkt.seq.toNat < a.frontier + w.size) :
    ∃ st', place pkt st = some st' ∧
      Refines st' (a.place pkt.seq.toNat (lineIndex pkt) pkt.record) := by
  have hidx : w.index pkt.seq = w.slotOf pkt.seq.toNat := w.index_eq_slotOf pkt.seq
  cases hocc : (st.1.buf (w.slotOf pkt.seq.toNat)).occupied with
  | true =>
    have hs := h.slot_seq_eq hle hlt hocc
    have hp : a.pending pkt.seq.toNat ≠ none := by
      have hread := h.read_slot hocc
      rw [hs] at hread
      simp [hread]
    refine ⟨addDuplicate (lineIndex pkt) st, ?_, ?_⟩
    · simp [place, hidx, hocc, UInt64.toNat_inj.mp hs]
    · rw [Arbiter.place, if_neg hp]
      exact refines_addDuplicate h _
  | false =>
    have hnone : a.pending pkt.seq.toNat = none := by
      by_contra hne
      rw [(h.slot_of_pending hne).1] at hocc
      cases hocc
    let st' : FeedSession ρ w :=
      ({ st.1 with
          buf := Function.update st.1.buf (w.index pkt.seq) ⟨true, pkt.seq, pkt.record⟩
          occupied := st.1.occupied + 1 }, st.2)
    have hplace : place pkt st = releasePrefix st' := by simp [place, hidx, hocc, st']
    have hheld : Refines st' (a.hold pkt.seq.toNat pkt.record) := by
      refine { h with pending := ?_, placed := ?_, below := ?_, within := h.within.hold hle hlt,
                      idle := ?_, occupied := ?_ }
      · intro s
        rw [view_update (b := st'.1) rfl, hidx]
        by_cases hs : s = pkt.seq.toNat
        · subst hs
          simp [Slot.read, Arbiter.hold]
        · simp only [Arbiter.hold, Function.update_of_ne hs]
          split
          next hslot =>
            -- the slot was free, so no other sequence of its class is held
            have hn : a.pending s = none := by
              by_contra hne
              have hocc' := (h.slot_of_pending hne).1
              rw [hslot, hocc] at hocc'
              cases hocc'
            simp [Slot.read, Ne.symm hs, hn]
          next => exact h.pending s
      · exact placed_update rfl h.placed fun _ => hidx.symm
      · intro s hs
        by_cases heq : s = pkt.seq.toNat
        · omega
        · exact h.below s (by simpa [Arbiter.hold, heq] using hs)
      · intro hst
        change a.started = false at hst
        rw [hstarted] at hst
        cases hst
      · have hcard := occupiedSlots_take (b := st'.1) rfl (hidx ▸ hocc) rfl
        change st.1.occupied + 1 = UInt64.ofNat st'.1.occupiedSlots.card
        rw [hcard, UInt64.ofNat_add, h.occupied]
        rfl
    rw [hplace, Arbiter.place, if_pos hnone]
    exact refines_releasePrefix hheld

theorem refines_anchor (h : Refines st a) (seq : UInt64) :
    Refines (anchor seq st) (a.anchor seq.toNat) := by
  rw [anchor, Arbiter.anchor, h.started]
  cases hs : a.started with
  | true => simpa using h
  | false =>
    have hidle := h.idle hs
    simp only [Bool.false_eq_true, if_false]
    exact { h with
            frontier := rfl
            started := rfl
            within := fun s hne => absurd (hidle s) hne
            idle := fun _ => hidle }

/-- Every `offer` ends, and does to the ring what arbitration asks for. -/
theorem refines_offer (h : Refines st a) {pkt : FeedPacket ρ} (hseq : pkt.seq.toNat ≤ 2 ^ 64 - 2) :
    ∃ st', offer pkt st = some st' ∧
      Refines st' (a.offer w.size pkt.seq.toNat (lineIndex pkt) pkt.record) := by
  have hanc := refines_anchor h pkt.seq
  have hstart := a.anchor_started pkt.seq.toNat
  simp only [offer, Arbiter.offer]
  by_cases hlate : pkt.seq.toNat < (a.anchor pkt.seq.toNat).frontier
  · have hlate' : pkt.seq < (anchor pkt.seq st).1.frontier :=
      UInt64.lt_iff_toNat_lt.mpr (by rwa [hanc.frontier])
    rw [if_pos hlate, if_pos hlate']
    exact ⟨_, rfl, refines_addDuplicate hanc _⟩
  · have hlate' : ¬pkt.seq < (anchor pkt.seq st).1.frontier := by
      rwa [UInt64.lt_iff_toNat_lt, hanc.frontier]
    have hle := not_lt.mp hlate
    have hdist := hanc.toNat_sub_frontier hle
    rw [if_neg hlate, if_neg hlate']
    by_cases hwild : (a.anchor pkt.seq.toNat).frontier + Arbiter.maxGap < pkt.seq.toNat
    · have hwild' : kMaxGap < pkt.seq - (anchor pkt.seq st).1.frontier := by
        rw [UInt64.lt_iff_toNat_lt, hdist]
        change Arbiter.maxGap < _
        omega
      rw [if_pos hwild, if_pos hwild']
      refine ⟨_, rfl, { hanc with rejected := ?_ }⟩
      change _ + 1 = UInt64.ofNat (_ + 1)
      rw [UInt64.ofNat_add, hanc.rejected]
      rfl
    · have hwild' : ¬kMaxGap < pkt.seq - (anchor pkt.seq st).1.frontier := by
        rw [UInt64.lt_iff_toNat_lt, hdist]
        change ¬Arbiter.maxGap < _
        omega
      rw [if_neg hwild, if_neg hwild']
      obtain ⟨st₁, hroom, h₁⟩ := refines_makeRoom hanc hseq hle (not_lt.mp hwild)
      have hfront := Arbiter.makeRoom_frontier hanc.within w.size_pos hle
      have h₂ := refines_noteDepth h₁ hfront.2.1
      obtain ⟨st₂, hplace, h₃⟩ := refines_place h₂ hseq
        (by change (Arbiter.makeRoom _ _ _).started = true; rw [Arbiter.makeRoom_started, hstart])
        hfront.2.1 hfront.2.2
      exact ⟨st₂, by simp [hroom, hplace], h₃⟩

/-- Every `flush` ends with all held messages sent. -/
theorem refines_flush (h : Refines st a) : ∃ st', flush st = some st' ∧ Refines st' a.flush := by
  let fin := pendingEnd a.pending a.frontier
  have hfin := h.within.finiteBelow
  have hend := pendingEnd_finiteBelow hfin a.frontier
  have step : ∀ st : FeedSession ρ w,
      (∃ g, Refines st (a.passTo g) ∧ a.frontier ≤ g ∧ g ≤ fin) →
      decide (0 < st.1.occupied) = true → ∃ st', advanceFrontier st = some st' ∧
        (∃ g, Refines st' (a.passTo g) ∧ a.frontier ≤ g ∧ g ≤ fin) ∧
        fin - st'.1.frontier.toNat < fin - st.1.frontier.toNat := by
    rintro st ⟨g, hg, hge, hle⟩ hc
    obtain ⟨s, hs⟩ := hg.occupied_pos_iff.mp (of_decide_eq_true hc)
    have hgs := (hg.within s hs).1
    have hbelow := hg.below s hs
    change g ≤ s at hgs
    rw [Arbiter.passTo_pending hgs] at hs
    have hsfin : s < fin := lt_pendingEnd hfin hs
    obtain ⟨st', hrun, href, hsucc⟩ := refines_advanceFrontier_passTo h.within hg hge (by omega)
    have hstop : firstHole a.pending (g + 1) ≤ fin := firstHole_le (by omega) (hend fin le_rfl)
    refine ⟨st', hrun, ⟨_, href, by omega, hstop⟩, ?_⟩
    rw [href.frontier, hg.frontier]
    change fin - firstHole a.pending (g + 1) < fin - g
    omega
  have hbudget : fin - st.1.frontier.toNat ≤ w.size := by
    have := pendingEnd_le (q := a.frontier) (by omega) hfin
    rw [h.frontier]
    omega
  obtain ⟨st', hrun, ⟨g, hg, hge, hle⟩, hexit⟩ := whileLoop_total step
    ⟨a.frontier, by rwa [Arbiter.passTo_self h.within], le_rfl, le_pendingEnd hfin _⟩ hbudget
  have hempty : FiniteBelow a.pending g := by
    intro s hs
    by_contra hne
    rw [← Arbiter.passTo_pending hs] at hne
    exact of_decide_eq_false hexit (hg.occupied_pos_iff.mpr ⟨s, hne⟩)
  have heq : g = fin := le_antisymm hle (pendingEnd_le hge hempty)
  subst heq
  exact ⟨st', hrun, hg⟩

theorem refines_call (h : Refines st a) {c : FeedCall ρ} (hc : c.Bounded) :
    ∃ st', call st c = some st' ∧ Refines st' (a.call w.size c) := by
  cases c with
  | offer pkt => exact refines_offer h hc
  | flush => exact refines_flush h

/-- The code refines arbitration along every run. -/
theorem refines_run {calls : List (FeedCall ρ)} (hc : ∀ c ∈ calls, c.Bounded) :
    ∃ st, run w calls = some st ∧ Refines st (Arbiter.run w.size calls) :=
  foldlM_simulates (f := call) (g := Arbiter.call w.size) (R := Refines)
    (fun _ _ c hm h => refines_call h (hc c hm)) refines_fresh

end FeedArbitrator

end OhlcvValidator
