import OhlcvValidator.ArbiterSafety
import OhlcvValidator.ArbiterDepth
import OhlcvValidator.WildPacket

namespace OhlcvValidator

namespace Arbiter

variable {ρ : Type} {window : Nat}

/-- What was taken in once stays known. -/
theorem known_foldl (hw : 0 < window) {calls : List (FeedCall ρ)} {a : Arbiter ρ}
    (h : a.Settled window) {s : Nat} {r : ρ} (hk : a.Known s r) :
    (calls.foldl (call window) a).Known s r := by
  induction calls generalizing a with
  | nil => exact hk
  | cons c calls ih =>
    refine ih (settled_call h hw c) ?_
    cases c with
    | offer pkt => exact (known_offer h hw).mpr (Or.inl hk)
    | flush => exact (known_flush h).mpr hk

end Arbiter

namespace FeedArbitrator

variable {ρ : Type} [Inhabited ρ] {w : PowTwo}

section Commutes

variable (ln : Fin 2) (st : FeedSession ρ w)

-- No branch of the code reads a `duplicates` counter, so each function carries one along.

theorem releasePrefix_addDuplicate :
    releasePrefix (addDuplicate ln st) = (releasePrefix st).map (addDuplicate ln) :=
  whileLoop_map (f := addDuplicate ln) (fun _ => rfl) (fun _ => rfl) w.size st

theorem advanceFrontier_addDuplicate :
    advanceFrontier (addDuplicate ln st) = (advanceFrontier st).map (addDuplicate ln) := by
  unfold advanceFrontier
  change (if st.1.frontReady then _ else _) = _
  split
  next => exact releasePrefix_addDuplicate ln (bumpFrontier (deliverFront st))
  next => exact releasePrefix_addDuplicate ln (bumpFrontier (countGap st))

theorem makeRoom_addDuplicate (seq : UInt64) :
    makeRoom seq (addDuplicate ln st) = (makeRoom seq st).map (addDuplicate ln) :=
  whileLoop_map (f := addDuplicate ln) (fun _ => rfl) (advanceFrontier_addDuplicate ln)
    kMaxGap.toNat st

theorem noteDepth_addDuplicate (seq : UInt64) :
    noteDepth seq (addDuplicate ln st) = addDuplicate ln (noteDepth seq st) := by
  have hmax : (addDuplicate ln st).1.stats.maxReorder = st.1.stats.maxReorder := rfl
  have hfront : (addDuplicate ln st).1.frontier = st.1.frontier := rfl
  simp only [noteDepth, hmax, hfront]
  split <;> rfl

/-- Counters of copies add up in either order. -/
theorem addDuplicate_comm (ln' : Fin 2) :
    addDuplicate ln (addDuplicate ln' st) = addDuplicate ln' (addDuplicate ln st) := by
  have hstats : (st.1.stats.addDuplicate ln').addDuplicate ln =
      (st.1.stats.addDuplicate ln).addDuplicate ln' := by
    by_cases h : ln = ln'
    · rw [h]
    · simp only [Stats.addDuplicate, Function.update_of_ne h, Function.update_of_ne (Ne.symm h)]
      rw [Function.update_comm h]
  simp only [addDuplicate, hstats]

theorem place_addDuplicate (pkt : FeedPacket ρ) :
    place pkt (addDuplicate ln st) = (place pkt st).map (addDuplicate ln) := by
  have hbuf : (addDuplicate ln st).1.buf = st.1.buf := rfl
  simp only [place, hbuf]
  split
  next =>
    split
    next => rw [addDuplicate_comm, Option.map_some]
    next => rfl
  next =>
    exact releasePrefix_addDuplicate ln
      ({ st.1 with
          buf := Function.update st.1.buf (w.index pkt.seq) ⟨true, pkt.seq, pkt.record⟩
          occupied := st.1.occupied + 1 }, st.2)

theorem offer_addDuplicate (pkt : FeedPacket ρ) :
    offer pkt (addDuplicate ln st) = (offer pkt st).map (addDuplicate ln) := by
  have hanc : anchor pkt.seq (addDuplicate ln st) = addDuplicate ln (anchor pkt.seq st) := by
    unfold anchor
    change (if st.1.started then _ else _) = _
    split <;> rfl
  unfold offer
  simp only [hanc]
  generalize anchor pkt.seq st = st
  change (if pkt.seq < st.1.frontier then _ else if kMaxGap < pkt.seq - st.1.frontier then _
    else _) = _
  split
  next => rw [addDuplicate_comm]; rfl
  next =>
    split
    next => rfl
    next =>
      rw [makeRoom_addDuplicate]
      cases makeRoom pkt.seq st with
      | none => rfl
      | some u =>
        simp only [Option.map_some, Option.bind_some, noteDepth_addDuplicate]
        exact place_addDuplicate ln _ pkt

theorem call_addDuplicate (c : FeedCall ρ) :
    call (addDuplicate ln st) c = (call st c).map (addDuplicate ln) := by
  cases c with
  | offer pkt => exact offer_addDuplicate ln st pkt
  | flush =>
    exact whileLoop_map (f := addDuplicate ln) (fun _ => rfl) (advanceFrontier_addDuplicate ln)
      w.size st

end Commutes

variable {st : FeedSession ρ w} {a : Arbiter ρ}

/-- A copy of a buffered message passes the guard, forces nothing, was noted at its depth
before and finds its own slot taken. -/
theorem offer_buffered (h : Refines st a) (hshallow : a.Shallow) {pkt : FeedPacket ρ}
    (hst : a.started = true) (hp : a.pending pkt.seq.toNat ≠ none) :
    offer pkt st = some (addDuplicate (lineIndex pkt) st) := by
  obtain ⟨hle, hlt⟩ := h.within _ hp
  obtain ⟨hdepth, hgap⟩ := hshallow _ hp
  obtain ⟨hocc, hslot⟩ := h.slot_of_pending hp
  have hdist := h.toNat_sub_frontier hle
  have hanc : anchor pkt.seq st = st := by rw [anchor, h.started, if_pos hst]
  have hlate : ¬pkt.seq < st.1.frontier := by
    rw [UInt64.lt_iff_toNat_lt, h.frontier]
    omega
  have hwild : ¬kMaxGap < pkt.seq - st.1.frontier := by
    rw [UInt64.lt_iff_toNat_lt, hdist]
    change ¬Arbiter.maxGap < _
    omega
  have hroom : makeRoom pkt.seq st = some st :=
    whileLoop_exit (decide_eq_false (by rw [hdist]; omega))
  have hnote : noteDepth pkt.seq st = st := by
    refine if_neg ?_
    rw [UInt64.lt_iff_toNat_lt, hdist, h.maxReorder]
    omega
  have hplace : place pkt st = some (addDuplicate (lineIndex pkt) st) := by
    simp [place, w.index_eq_slotOf, hocc, UInt64.toNat_inj.mp hslot]
  simp only [offer, hanc]
  rw [if_neg hlate, if_neg hwild, hroom, Option.bind_some, hnote, hplace]

theorem offer_accepted (h : Refines st a) (hset : a.Settled w.size) (hshallow : a.Shallow)
    {pkt : FeedPacket ρ} {r : ρ} (hk : a.Known pkt.seq.toNat r) :
    offer pkt st = some (addDuplicate (lineIndex pkt) st) := by
  have hst : a.started = true := by
    by_contra hn
    obtain ⟨hp, hsent⟩ := hset.idle (Bool.eq_false_iff.mpr hn)
    rcases hk with hm | hq
    · simp [hsent] at hm
    · simp [hp] at hq
  rcases hk with hm | hq
  · refine offer_late (h.started.trans hst) ?_
    rw [UInt64.lt_iff_toNat_lt, h.frontier]
    exact hset.behind _ hm
  · exact offer_buffered h hshallow hst (by simp [hq])

/-- A copy of a sequence that was accepted earlier, on either line and with any payload, is
counted and does nothing else, then or later. -/
theorem redundant_copy_inert {early later post : List (FeedCall ρ)} {pkt : FeedPacket ρ}
    (hc : ∀ c ∈ early ++ later ++ post, c.Bounded) {st₀ : FeedSession ρ w}
    (hearly : run w early = some st₀) (hacc : Accepted st₀ pkt.seq) :
    ∃ a sink, run w (early ++ later ++ post) = some (a, sink) ∧
      run w (early ++ later ++ .offer pkt :: post) = some
        ({ a with stats := { a.stats with
            duplicates := Function.update a.stats.duplicates (lineIndex pkt)
              (a.stats.duplicates (lineIndex pkt) + 1) } }, sink) := by
  have hce : ∀ c ∈ early, c.Bounded := fun c hm => hc c (by simp [hm])
  have hcl : ∀ c ∈ early ++ later, c.Bounded := fun c hm => hc c (List.mem_append_left _ hm)
  obtain ⟨u, hu, href⟩ := refines_run (w := w) hce
  obtain rfl := Option.some.inj (hearly.symm.trans hu)
  obtain ⟨r, hk⟩ := (href.accepted_iff _).mp hacc
  obtain ⟨mid, hmid, hrefm⟩ := refines_run (w := w) hcl
  have hknown : (Arbiter.run w.size (early ++ later)).Known pkt.seq.toNat r := by
    rw [Arbiter.run, List.foldl_append]
    exact Arbiter.known_foldl w.size_pos (Arbiter.settled_run w.size_pos early) hk
  have hcopy := offer_accepted hrefm (Arbiter.settled_run w.size_pos _)
    (Arbiter.shallow_run w.size_pos _) hknown
  obtain ⟨⟨a, sink⟩, hrun, _⟩ := refines_run (w := w) hc
  refine ⟨a, sink, hrun, ?_⟩
  have hpost : post.foldlM call mid = some (a, sink) := by
    rw [run_append, hmid] at hrun
    exact hrun
  rw [run_append, hmid, Option.bind_some, List.foldlM_cons]
  change (offer pkt mid).bind _ = _
  rw [hcopy, Option.bind_some, foldlM_map (call_addDuplicate (lineIndex pkt)), hpost]
  rfl

/-- The other line's copy of 2 comes while 2 still waits for 1. -/
theorem redundant_copy_inert_waiting :
    ∃ a sink, run PowTwo.four ([.offer ⟨0, 0, 10⟩, .offer ⟨2, 0, 12⟩] ++ [] ++
        [FeedCall.offer ⟨1, 1, 11⟩]) = some (a, sink) ∧
      run PowTwo.four ([.offer ⟨0, 0, 10⟩, .offer ⟨2, 0, 12⟩] ++ [] ++
        .offer ⟨2, 1, 99⟩ :: [FeedCall.offer ⟨1, 1, 11⟩]) = some
        ({ a with stats := { a.stats with
            duplicates := Function.update a.stats.duplicates (lineIndex (ρ := Nat) ⟨2, 1, 99⟩)
              (a.stats.duplicates (lineIndex (ρ := Nat) ⟨2, 1, 99⟩) + 1) } }, sink) :=
  redundant_copy_inert (by decide) rfl
    (Or.inr ⟨⟨2, by decide⟩, by decide +kernel, by decide +kernel⟩)

end FeedArbitrator

end OhlcvValidator
