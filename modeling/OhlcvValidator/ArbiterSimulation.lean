import OhlcvValidator.ArbiterRefinement

namespace OhlcvValidator

namespace FeedArbitrator

variable {ρ : Type} [Inhabited ρ] {w : PowTwo} {st : FeedSession ρ w} {a : Arbiter ρ}

/-- Releasing the frontier message is a pass over one held index. -/
theorem refines_deliverFront (h : Refines st a) (hr : st.1.frontReady = true) :
    Refines (bumpFrontier (deliverFront st)) (a.passTo (a.frontier + 1)) := by
  have hrec := h.frontSlot_record hr
  have hne : a.pending a.frontier ≠ none := h.frontReady_iff.mp hr
  have hbound := h.below _ hne
  have hslot := h.slot_of_pending hne
  have hidx : w.index st.1.frontier = w.slotOf a.frontier := by rw [w.index_eq_slotOf, h.frontier]
  have hentry : entriesBetween a.pending a.frontier (a.frontier + 1) =
      [(a.frontier, st.1.frontSlot.record)] := by simp [entriesBetween_one, hrec]
  have hpend := h.within.passTo_succ_pending
  refine ⟨?_, h.started, ?_, ?_, ?_, h.within.passTo (by omega), ?_, ?_, ?_, ?_, ?_, h.duplicates,
    h.maxReorder, h.rejected⟩
  · change (st.1.frontier + 1).toNat = a.frontier + 1
    rw [toNat_succ (by rw [h.frontier]; omega), h.frontier]
  · intro s
    rw [hpend]
    rw [view_update (b := (bumpFrontier (deliverFront st)).1) rfl]
    by_cases hs : w.slotOf s = w.index st.1.frontier
    · rw [if_pos hs]
      by_cases heq : s = a.frontier
      · simp [Slot.read, heq]
      · have : a.pending s = none := by
          by_contra hn
          have hseq := (h.slot_of_pending hn).2
          rw [hs, hidx] at hseq
          exact heq (hseq.symm.trans hslot.2)
        simp [Slot.read, this]
    · have heq : s ≠ a.frontier := by
        rintro rfl
        exact hs hidx.symm
      rw [if_neg hs, if_neg heq, h.pending]
  · exact placed_update rfl h.placed (by simp)
  · intro s hs
    apply h.below s
    intro hn
    rw [hpend] at hs
    simp [hn] at hs
  · intro hst s
    rw [hpend, h.idle hst s, ite_self]
  · have hocc : (st.1.buf (w.index st.1.frontier)).occupied = true := by
      rw [hidx]
      exact hslot.1
    have hcard := occupiedSlots_free (b := (bumpFrontier (deliverFront st)).1) rfl hocc rfl
    change st.1.occupied - 1 = UInt64.ofNat _
    rw [h.occupied, ← hcard, UInt64.ofNat_add]
    simp
  · change (st.2 ++ [(st.1.frontier, st.1.frontSlot.record)]).map _ = a.sent ++ _
    rw [List.map_append, h.sink, hentry]
    simp [h.frontier]
  · change st.1.stats.delivered + 1 = UInt64.ofNat (a.sent ++ _).length
    rw [hentry, List.length_append, UInt64.ofNat_add, h.delivered]
    rfl
  · change st.1.stats.gaps = UInt64.ofNat (a.gaps + _)
    rw [hentry, h.gaps]
    simp

/-- Giving the frontier up as lost is a pass over one index that is not held. -/
theorem refines_countGap (h : Refines st a) (hr : st.1.frontReady = false)
    (hf : a.frontier < 2 ^ 64 - 1) :
    Refines (bumpFrontier (countGap st)) (a.passTo (a.frontier + 1)) := by
  have hnone : a.pending a.frontier = none := by
    by_contra hne
    rw [h.frontReady_iff.mpr hne] at hr
    cases hr
  have hentry : entriesBetween a.pending a.frontier (a.frontier + 1) = [] := by
    simp [entriesBetween_one, hnone]
  have hpend : (a.passTo (a.frontier + 1)).pending = a.pending := by
    funext s
    rw [h.within.passTo_succ_pending]
    split
    next hs => rw [hs, hnone]
    next => rfl
  refine ⟨?_, h.started, ?_, h.placed, ?_, h.within.passTo (by omega), ?_, h.occupied, ?_, ?_, ?_,
    h.duplicates, h.maxReorder, h.rejected⟩
  · change (st.1.frontier + 1).toNat = a.frontier + 1
    rw [toNat_succ (by rw [h.frontier]; omega), h.frontier]
  · rw [hpend]
    exact h.pending
  · rw [hpend]
    exact h.below
  · rw [hpend]
    exact h.idle
  · change st.2.map _ = a.sent ++ _
    rw [hentry, List.append_nil, h.sink]
  · change st.1.stats.delivered = UInt64.ofNat (a.sent ++ _).length
    rw [hentry, List.append_nil, h.delivered]
  · change st.1.stats.gaps + 1 = UInt64.ofNat (a.gaps + _)
    rw [hentry, h.gaps, UInt64.ofNat_add]
    simp

/-- The release loop passes exactly the contiguous run at the frontier. -/
theorem refines_releasePrefix (h : Refines st a) :
    ∃ st', releasePrefix st = some st' ∧ Refines st' a.release := by
  let hole := firstHole a.pending a.frontier
  have hfin := h.within.finiteBelow
  -- along the loop the frontier stays inside the run, which ends within the window
  have step : ∀ st : FeedSession ρ w,
      (∃ g, Refines st (a.passTo g) ∧ a.frontier ≤ g ∧ g ≤ hole) →
      st.1.frontReady = true → ∃ st', some (bumpFrontier (deliverFront st)) = some st' ∧
        (∃ g, Refines st' (a.passTo g) ∧ a.frontier ≤ g ∧ g ≤ hole) ∧
        hole - st'.1.frontier.toNat < hole - st.1.frontier.toNat := by
    rintro st ⟨g, hg, hle, hhole⟩ hr
    have hnext := refines_deliverFront hg hr
    have hne := hg.frontReady_iff.mp hr
    change (a.passTo g).pending g ≠ none at hne
    rw [Arbiter.passTo_pending le_rfl] at hne
    have hlt : g < hole := lt_of_le_of_ne hhole
      fun he => hne (he ▸ firstHole_none hfin a.frontier)
    change Refines _ ((a.passTo g).passTo (g + 1)) at hnext
    rw [Arbiter.passTo_passTo a hle (by omega)] at hnext
    refine ⟨_, rfl, ⟨g + 1, hnext, by omega, hlt⟩, ?_⟩
    rw [hnext.frontier, hg.frontier]
    change hole - (g + 1) < hole - g
    omega
  have hstart : ∃ g, Refines st (a.passTo g) ∧ a.frontier ≤ g ∧ g ≤ hole :=
    ⟨a.frontier, by rwa [Arbiter.passTo_self h.within], le_rfl, le_firstHole hfin _⟩
  have hbudget : hole - st.1.frontier.toNat ≤ w.size := by
    have := firstHole_le_bound hfin (q := a.frontier) (by omega)
    rw [h.frontier]
    omega
  obtain ⟨st', hrun, ⟨g, hg, hle, hhole⟩, hexit⟩ := whileLoop_total step hstart hbudget
  have hnone : a.pending g = none := by
    by_contra hne
    rw [← Arbiter.passTo_pending (a := a) le_rfl] at hne
    rw [hg.frontReady_iff.mpr hne] at hexit
    cases hexit
  have heq : g = hole := le_antisymm hhole (firstHole_le hle hnone)
  subst heq
  exact ⟨st', hrun, hg⟩

/-- One forced step passes the frontier and the run behind it. -/
theorem refines_advanceFrontier (h : Refines st a) (hf : a.frontier < 2 ^ 64 - 1) :
    ∃ st', advanceFrontier st = some st' ∧
      Refines st' (a.passTo (firstHole a.pending (a.frontier + 1))) := by
  rw [← Arbiter.passTo_succ_release h.within, advanceFrontier]
  cases hr : st.1.frontReady with
  | true => exact refines_releasePrefix (refines_deliverFront h hr)
  | false => exact refines_releasePrefix (refines_countGap h hr hf)

/-- One advance of an arbiter that has already passed to `g` goes on to the next hole. -/
theorem refines_advanceFrontier_passTo {g : Nat} (hw : a.Within w.size)
    (hg : Refines st (a.passTo g)) (hge : a.frontier ≤ g) (hlt : g < 2 ^ 64 - 1) :
    ∃ st', advanceFrontier st = some st' ∧
      Refines st' (a.passTo (firstHole a.pending (g + 1))) ∧
      g < firstHole a.pending (g + 1) := by
  obtain ⟨st', hrun, href⟩ := refines_advanceFrontier hg hlt
  have hnext : firstHole (a.passTo g).pending (g + 1) = firstHole a.pending (g + 1) :=
    a.firstHole_passTo (by omega)
  have hsucc := le_firstHole hw.finiteBelow (g + 1)
  change Refines st' ((a.passTo g).passTo (firstHole (a.passTo g).pending (g + 1))) at href
  rw [hnext, Arbiter.passTo_passTo a hge (by omega)] at href
  exact ⟨st', hrun, href, by omega⟩

/-- The forced-advance loop ends within its budget, at the first hole that leaves
room for `seq`. -/
theorem refines_makeRoom (h : Refines st a) {seq : UInt64} (hseq : seq.toNat ≤ 2 ^ 64 - 2)
    (hle : a.frontier ≤ seq.toNat) (hgap : seq.toNat ≤ a.frontier + Arbiter.maxGap) :
    ∃ st', makeRoom seq st = some st' ∧ Refines st' (a.makeRoom w.size seq.toNat) := by
  have hpos := w.size_pos
  by_cases hfar : a.frontier + w.size ≤ seq.toNat
  · let target := firstHole a.pending (seq.toNat + 1 - w.size)
    have htarget : target ≤ seq.toNat := Arbiter.makeRoom_target_le h.within hpos hfar
    have hroom := le_firstHole h.within.finiteBelow (seq.toNat + 1 - w.size)
    -- the frontier is the start or a hole, and never runs past the target
    let Inv : FeedSession ρ w → Prop := fun st => ∃ g, Refines st (a.passTo g) ∧
      a.frontier ≤ g ∧ g ≤ target ∧ (g = a.frontier ∨ a.pending g = none)
    have step : ∀ st, Inv st → decide (w.size ≤ (seq - st.1.frontier).toNat) = true →
        ∃ st', advanceFrontier st = some st' ∧ Inv st' ∧
          seq.toNat - st'.1.frontier.toNat < seq.toNat - st.1.frontier.toNat := by
      rintro st ⟨g, hg, hge, hgt, _⟩ hc
      have hc := of_decide_eq_true hc
      rw [hg.toNat_sub_frontier (hgt.trans htarget)] at hc
      change w.size ≤ seq.toNat - g at hc
      obtain ⟨st', hrun, href, hsucc⟩ :=
        refines_advanceFrontier_passTo h.within hg hge (by omega)
      have hstop : firstHole a.pending (g + 1) ≤ target :=
        firstHole_le (by omega) (firstHole_none h.within.finiteBelow _)
      refine ⟨st', hrun, ⟨_, href, by omega, hstop, Or.inr (firstHole_none h.within.finiteBelow _)⟩,
        ?_⟩
      rw [href.frontier, hg.frontier]
      change seq.toNat - firstHole a.pending (g + 1) < seq.toNat - g
      omega
    have hstart : Inv st :=
      ⟨a.frontier, by rwa [Arbiter.passTo_self h.within], le_rfl, by omega, Or.inl rfl⟩
    have hbudget : seq.toNat - st.1.frontier.toNat ≤ kMaxGap.toNat := by
      rw [h.frontier]
      change seq.toNat - a.frontier ≤ Arbiter.maxGap
      omega
    obtain ⟨st', hrun, ⟨g, hg, hge, hgt, hhole⟩, hexit⟩ := whileLoop_total step hstart hbudget
    have hexit := of_decide_eq_false hexit
    rw [hg.toNat_sub_frontier (hgt.trans htarget)] at hexit
    change ¬w.size ≤ seq.toNat - g at hexit
    have hnone : a.pending g = none := hhole.resolve_left (by omega)
    have heq : g = target := le_antisymm hgt (firstHole_le (by omega) hnone)
    subst heq
    refine ⟨st', hrun, ?_⟩
    rw [Arbiter.makeRoom, if_pos hfar]
    exact hg
  · refine ⟨st, whileLoop_exit ?_, ?_⟩
    · rw [decide_eq_false_iff_not, h.toNat_sub_frontier hle]
      omega
    · rwa [Arbiter.makeRoom, if_neg hfar]

end FeedArbitrator

end OhlcvValidator
