import OhlcvValidator.ArbiterSafety
import OhlcvValidator.ArbiterBalance

namespace OhlcvValidator

namespace Arbiter

variable {ρ : Type} {window bound s : Nat} {a : Arbiter ρ}

/-- The frontier never gets past the sequences that were offered. -/
theorem frontier_run_le (hw : 0 < window) {calls : List (FeedCall ρ)}
    (hb : ∀ q, .offer q ∈ calls → q.seq.toNat < bound) :
    (run window calls).frontier ≤ bound ∧ FiniteBelow (run window calls).pending bound := by
  induction calls using List.reverseRecOn with
  | nil => exact ⟨Nat.zero_le _, fun _ _ => rfl⟩
  | append_singleton calls c ih =>
    have hset := settled_run hw calls
    obtain ⟨hfront, hbelow⟩ := ih fun q hq => hb q (by simp [hq])
    simp only [run, List.foldl_append]
    cases c with
    | flush =>
      have hend : pendingEnd (run window calls).pending (run window calls).frontier ≤ bound :=
        pendingEnd_le hfront hbelow
      refine ⟨hend, ?_⟩
      intro t ht
      exact (passTo_pending (hend.trans ht)).trans (hbelow t ht)
    | offer pkt =>
      have hs := hb pkt (by simp)
      have hanc : ((run window calls).anchor pkt.seq.toNat).frontier ≤ bound := by
        unfold anchor
        split
        next => exact hfront
        next => exact hs.le
      have hpend : ((run window calls).anchor pkt.seq.toNat).pending = (run window calls).pending := by
        unfold anchor
        split <;> rfl
      have hcases := offer_cases hset hw pkt.seq.toNat (FeedArbitrator.lineIndex pkt) pkt.record
      have hsetb := hset.anchor pkt.seq.toNat
      rw [← hpend] at hbelow
      simp only [List.foldl_cons, List.foldl_nil, call]
      change ((run window calls).offer window _ _ _).frontier ≤ bound ∧
        FiniteBelow ((run window calls).offer window _ _ _).pending bound
      generalize (run window calls).anchor pkt.seq.toNat = b at hanc hbelow hcases hsetb
      generalize (run window calls).offer window pkt.seq.toNat (FeedArbitrator.lineIndex pkt)
        pkt.record = a' at hcases ⊢
      cases hcases with
      | late _ => exact ⟨hanc, hbelow⟩
      | wild _ => exact ⟨hanc, hbelow⟩
      | copy _ _ _ => exact ⟨hanc, hbelow⟩
      | @held g _ _ _ hg hgs hlt _ =>
        let c := ((b.passTo g).noteDepth pkt.seq.toNat).hold pkt.seq.toNat pkt.record
        have hc : FiniteBelow c.pending bound := by
          intro t ht
          have hne : t ≠ pkt.seq.toNat := by omega
          have hold : c.pending t = (b.passTo g).pending t := by
            simp [c, hold, noteDepth, hne]
          rw [hold, passTo_pending (by omega)]
          exact hbelow t ht
        have hle : firstHole c.pending g ≤ bound := firstHole_le (by omega) (hc bound le_rfl)
        refine ⟨hle, ?_⟩
        intro t ht
        exact (passTo_pending (hle.trans ht)).trans (hc t ht)

theorem call_addRejected (a : Arbiter ρ) (c : FeedCall ρ) :
    a.addRejected.call window c = (a.call window c).addRejected := by
  cases c with
  | flush => rfl
  | offer pkt =>
    simp only [call, offer]
    have hanc : a.addRejected.anchor pkt.seq.toNat = (a.anchor pkt.seq.toNat).addRejected := by
      unfold anchor
      cases hs : a.started <;> simp [addRejected, hs]
    rw [hanc]
    generalize a.anchor pkt.seq.toNat = b
    change (if pkt.seq.toNat < b.frontier then _ else if b.frontier + maxGap < _ then _ else _) = _
    split
    next => rfl
    next =>
      split
      next => rfl
      next =>
        have hroom : b.addRejected.makeRoom window pkt.seq.toNat =
            (b.makeRoom window pkt.seq.toNat).addRejected := by
          unfold makeRoom
          change (if b.frontier + window ≤ _ then _ else _) = _
          split <;> rfl
        rw [hroom]
        unfold place
        change (if (b.makeRoom window pkt.seq.toNat).pending _ = none then _ else _) = _
        split
        next h => rw [if_pos (by exact h)]; rfl
        next h => rw [if_neg (by exact h)]; rfl

/-- A rejected packet is counted and nothing else. -/
theorem foldl_addRejected (calls : List (FeedCall ρ)) (a : Arbiter ρ) :
    calls.foldl (call window) a.addRejected = (calls.foldl (call window) a).addRejected := by
  induction calls generalizing a with
  | nil => rfl
  | cons c calls ih => rw [List.foldl_cons, List.foldl_cons, call_addRejected, ih]

theorem run_started_iff (hw : 0 < window) {calls : List (FeedCall ρ)} :
    (run window calls).started = true ↔ ∃ q, .offer q ∈ calls := by
  cases hf : firstOffered calls with
  | some first =>
    refine ⟨fun _ => ⟨first, ?_⟩, fun _ => ((run_passedFrom hw).1 first hf).1⟩
    obtain ⟨c, hc, he⟩ := List.exists_of_findSome?_eq_some hf
    cases c with
    | offer q =>
      cases Option.some.inj he
      exact hc
    | flush => simp at he
  | none =>
    have hstart : (run window calls).started = false := ((run_passedFrom hw).2 hf).1
    refine ⟨fun h => by simp [hstart] at h, ?_⟩
    rintro ⟨q, hq⟩
    have := List.findSome?_eq_none_iff.mp hf _ hq
    simp at this

end Arbiter

namespace FeedArbitrator

variable {ρ : Type} [Inhabited ρ] {w : PowTwo} {st st' : FeedSession ρ w}

section Grows

variable {e : UInt64 × ρ}

-- What the sink has received stays received, in every call that returns.

theorem mem_releasePrefix (he : e ∈ st.2) (h : releasePrefix st = some st') : e ∈ st'.2 := by
  refine (whileLoop_invariant (I := fun st => e ∈ st.2) ?_ he h).1
  intro s t hs _ ht
  cases Option.some.inj ht
  exact List.mem_append_left _ hs

theorem mem_advanceFrontier (he : e ∈ st.2) (h : advanceFrontier st = some st') : e ∈ st'.2 := by
  unfold advanceFrontier at h
  split at h
  next => exact mem_releasePrefix (List.mem_append_left _ he) h
  next =>
    refine mem_releasePrefix ?_ h
    exact he

theorem mem_offer {pkt : FeedPacket ρ} (he : e ∈ st.2) (h : offer pkt st = some st') :
    e ∈ st'.2 := by
  have hanc : e ∈ (anchor pkt.seq st).2 := by
    unfold anchor
    split <;> exact he
  simp only [offer] at h
  split at h
  next =>
    cases Option.some.inj h
    exact hanc
  next =>
    split at h
    next =>
      cases Option.some.inj h
      exact hanc
    next =>
      obtain ⟨u, hu, h⟩ := Option.bind_eq_some_iff.mp h
      have hroom : e ∈ u.2 := (whileLoop_invariant (I := fun st => e ∈ st.2)
        (fun _ _ hs _ ht => mem_advanceFrontier hs ht) hanc hu).1
      have hnote : e ∈ (noteDepth pkt.seq u).2 := by
        unfold noteDepth
        dsimp only
        split <;> exact hroom
      simp only [place] at h
      split at h
      next =>
        split at h
        all_goals
          cases Option.some.inj h
          exact hnote
      next =>
        refine mem_releasePrefix ?_ h
        exact hnote

theorem mem_flush (he : e ∈ st.2) (h : flush st = some st') : e ∈ st'.2 :=
  (whileLoop_invariant (I := fun st => e ∈ st.2)
    (fun _ _ hs _ ht => mem_advanceFrontier hs ht) he h).1

theorem mem_foldlM {calls : List (FeedCall ρ)} (he : e ∈ st.2)
    (h : calls.foldlM call st = some st') : e ∈ st'.2 := by
  refine foldlM_invariant (I := fun st : FeedSession ρ w => e ∈ st.2) ?_ he h
  intro s c t hs ht
  cases c with
  | offer pkt => exact mem_offer hs ht
  | flush => exact mem_flush hs ht

end Grows

theorem releasePrefix_idle (h : st.1.frontReady = false) : releasePrefix st = some st :=
  whileLoop_exit h

theorem releasePrefix_ready (hr : st.1.frontReady = true) (h : releasePrefix st = some st') :
    (st.1.frontier, st.1.frontSlot.record) ∈ st'.2 := by
  obtain ⟨n, hn⟩ := Nat.exists_eq_succ_of_ne_zero w.size_pos.ne'
  simp only [releasePrefix, hn, Nat.succ_eq_add_one, whileLoop, hr, if_true,
    Option.bind_some] at h
  refine (whileLoop_invariant (I := fun s => (st.1.frontier, st.1.frontSlot.record) ∈ s.2)
    ?_ ?_ h).1
  · intro s t hs _ ht
    cases Option.some.inj ht
    exact List.mem_append_left _ hs
  · exact List.mem_append_right _ (List.mem_singleton.mpr rfl)

theorem offer_late {pkt : FeedPacket ρ} (hst : st.1.started = true)
    (hlt : pkt.seq < st.1.frontier) :
    offer pkt st = some (addDuplicate (lineIndex pkt) st) := by
  simp [offer, anchor, hst, hlt]

/-- Late packets only are counted as copies and reach nobody. -/
theorem foldlM_late {calls : List (FeedCall ρ)} (hst : st.1.started = true)
    (hlate : ∀ c ∈ calls, ∃ q, c = .offer q ∧ q.seq < st.1.frontier) :
    ∃ st', calls.foldlM call st = some st' ∧ st'.2 = st.2 := by
  induction calls generalizing st with
  | nil => exact ⟨st, rfl, rfl⟩
  | cons c calls ih =>
    obtain ⟨q, rfl, hq⟩ := hlate c (by simp)
    have hst' : (addDuplicate (lineIndex q) st).1.started = true := hst
    obtain ⟨st', hrun, hsink⟩ := ih hst' fun c hc => hlate c (by simp [hc])
    refine ⟨st', ?_, hsink⟩
    rw [List.foldlM_cons]
    change (offer q st).bind _ = _
    rw [offer_late hst hq]
    exact hrun

section Alone

variable {pkt : FeedPacket ρ}

/-- The packet is the only one in the ring, ahead of a frontier that has every
sequence more than `kMaxGap` before it behind it. -/
structure Alone (pkt : FeedPacket ρ) (st : FeedSession ρ w) : Prop where
  started : st.1.started = true
  slot : st.1.buf (w.index pkt.seq) = ⟨true, pkt.seq, pkt.record⟩
  others : ∀ i, i ≠ w.index pkt.seq → (st.1.buf i).occupied = false
  occupied : 0 < st.1.occupied
  ahead : st.1.frontier < pkt.seq
  near : pkt.seq.toNat ≤ st.1.frontier.toNat + kMaxGap.toNat

/-- The packet has been delivered, or waits alone. -/
def Taken (pkt : FeedPacket ρ) (st : FeedSession ρ w) : Prop :=
  (pkt.seq, pkt.record) ∈ st.2 ∨ Alone pkt st

theorem frontReady_of_ne (pkt : FeedPacket ρ) {a : FeedArbitrator ρ w}
    (hslot : (a.buf (w.index pkt.seq)).seq = pkt.seq)
    (hothers : ∀ i, i ≠ w.index pkt.seq → (a.buf i).occupied = false)
    (hne : a.frontier ≠ pkt.seq) : a.frontReady = false := by
  unfold frontReady frontSlot
  by_cases hi : w.index a.frontier = w.index pkt.seq
  · simp [hi, hslot, Ne.symm hne]
  · simp [hothers _ hi]

theorem Alone.advanceFrontier (h : Alone pkt st) (hr : advanceFrontier st = some st') :
    Taken pkt st' := by
  have hidle : st.1.frontReady = false :=
    frontReady_of_ne pkt (by rw [h.slot]) h.others (UInt64.ne_of_lt h.ahead)
  have hahead := UInt64.lt_iff_toNat_lt.mp h.ahead
  have hword := pkt.seq.toNat_lt
  have hsucc := toNat_succ (x := st.1.frontier) (by omega)
  simp only [FeedArbitrator.advanceFrontier, hidle, Bool.false_eq_true, if_false] at hr
  by_cases heq : st.1.frontier + 1 = pkt.seq
  · have hfront : (bumpFrontier (countGap st)).1.frontSlot = ⟨true, pkt.seq, pkt.record⟩ := by
      change st.1.buf (w.index (st.1.frontier + 1)) = _
      rw [heq, h.slot]
    have hready : (bumpFrontier (countGap st)).1.frontReady = true := by
      unfold frontReady
      rw [hfront]
      change (true && pkt.seq == st.1.frontier + 1) = true
      simp [heq]
    have hmem := releasePrefix_ready hready hr
    rw [hfront] at hmem
    change (st.1.frontier + 1, pkt.record) ∈ st'.2 at hmem
    rw [heq] at hmem
    exact Or.inl hmem
  · have hnext : (bumpFrontier (countGap st)).1.frontReady = false :=
      frontReady_of_ne pkt (by change (st.1.buf _).seq = _; rw [h.slot]) h.others heq
    rw [releasePrefix_idle hnext] at hr
    cases Option.some.inj hr
    have hne : (st.1.frontier + 1).toNat ≠ pkt.seq.toNat := fun he => heq (UInt64.toNat_inj.mp he)
    refine Or.inr { h with ahead := ?_, near := ?_ }
    · apply UInt64.lt_iff_toNat_lt.mpr
      change (st.1.frontier + 1).toNat < _
      omega
    · change _ ≤ (st.1.frontier + 1).toNat + _
      have := h.near
      omega

/-- A `flush` that returns has delivered the packet. -/
theorem Taken.flush (h : Taken pkt st) (hr : flush st = some st') :
    (pkt.seq, pkt.record) ∈ st'.2 := by
  have step : ∀ s t : FeedSession ρ w, Taken pkt s → decide (0 < s.1.occupied) = true →
      FeedArbitrator.advanceFrontier s = some t → Taken pkt t := by
    intro s t hs _ ht
    rcases hs with hm | ha
    · exact Or.inl (mem_advanceFrontier hm ht)
    · exact ha.advanceFrontier ht
  obtain ⟨htaken, hexit⟩ := whileLoop_invariant step h hr
  rcases htaken with hm | ha
  · exact hm
  · exact absurd ha.occupied (of_decide_eq_false hexit)

theorem Taken.offer {q : FeedPacket ρ} (h : Taken pkt st)
    (hq : q.seq.toNat + kMaxGap.toNat < pkt.seq.toNat) (hr : offer q st = some st') :
    Taken pkt st' := by
  rcases h with hm | ha
  · exact Or.inl (mem_offer hm hr)
  · have hlate : q.seq < st.1.frontier := by
      have := ha.near
      exact UInt64.lt_iff_toNat_lt.mpr (by omega)
    rw [offer_late ha.started hlate] at hr
    cases Option.some.inj hr
    exact Or.inr { ha with }

/-- Once taken, the packet is delivered by the next `flush`, whatever else is offered. -/
theorem Taken.delivered {calls : List (FeedCall ρ)} (h : Taken pkt st)
    (hq : ∀ q, .offer q ∈ calls → q.seq.toNat + kMaxGap.toNat < pkt.seq.toNat)
    (hr : calls.foldlM call st = some st') (hf : FeedCall.flush ∈ calls) :
    (pkt.seq, pkt.record) ∈ st'.2 := by
  induction calls generalizing st with
  | nil => simp at hf
  | cons c calls ih =>
    rw [List.foldlM_cons] at hr
    obtain ⟨u, hu, hrest⟩ := Option.bind_eq_some_iff.mp hr
    cases c with
    | flush => exact mem_foldlM (h.flush hu) hrest
    | offer q =>
      have hu' : Taken pkt u := h.offer (hq q (by simp)) hu
      exact ih hu' (fun q hm => hq q (by simp [hm])) hrest (by simpa using hf)

end Alone

section Arrival

variable {pkt : FeedPacket ρ}

/-- On an empty ring the first packet of a session is delivered at once. -/
theorem offer_first (hst : st.1.started = false) (hclear : ∀ i, (st.1.buf i).occupied = false)
    (h : offer pkt st = some st') : (pkt.seq, pkt.record) ∈ st'.2 := by
  have hanc : anchor pkt.seq st = ({ st.1 with frontier := pkt.seq, started := true }, st.2) := by
    simp [anchor, hst]
  have hroom : makeRoom pkt.seq (anchor pkt.seq st) = some (anchor pkt.seq st) := by
    have := w.size_pos
    exact whileLoop_exit (by simp [hanc]; omega)
  have hnote : noteDepth pkt.seq (anchor pkt.seq st) = anchor pkt.seq st := by
    simp [noteDepth, hanc]
  have hlate : ¬pkt.seq < (anchor pkt.seq st).1.frontier := by simp [hanc]
  have hgap : ¬kMaxGap < pkt.seq - (anchor pkt.seq st).1.frontier := by simp [hanc]
  simp only [offer, hlate, hgap, if_false, hroom, Option.bind_some, hnote, place] at h
  simp only [hanc, hclear, Bool.false_eq_true, if_false] at h
  have hmem := releasePrefix_ready (by simp [frontReady, frontSlot]) h
  simpa [frontSlot] using hmem

/-- The frontier has moved on before the packet, over an empty ring. -/
structure MovedOver (pkt : FeedPacket ρ) (st u : FeedSession ρ w) : Prop where
  buf : u.1.buf = st.1.buf
  occupied : u.1.occupied = st.1.occupied
  started : u.1.started = true
  sink : u.2 = st.2
  le : st.1.frontier.toNat ≤ u.1.frontier.toNat
  lt : u.1.frontier.toNat < pkt.seq.toNat

omit [Inhabited ρ] in
theorem toNat_sub_seq {x : UInt64} (h : x.toNat ≤ pkt.seq.toNat) :
    (pkt.seq - x).toNat = pkt.seq.toNat - x.toNat :=
  UInt64.toNat_sub_of_le _ _ (UInt64.le_iff_toNat_le.mpr h)

/-- The ring is empty, so a forced advance is a gap and releases nothing. -/
theorem MovedOver.advanceFrontier {u : FeedSession ρ w} (h : MovedOver pkt st u)
    (hclear : ∀ i, (st.1.buf i).occupied = false)
    (hfull : w.size ≤ (pkt.seq - u.1.frontier).toNat) :
    ∃ t, advanceFrontier u = some t ∧ MovedOver pkt st t ∧
      pkt.seq.toNat - t.1.frontier.toNat < pkt.seq.toNat - u.1.frontier.toNat := by
  have hle := h.le
  have hlt := h.lt
  rw [toNat_sub_seq hlt.le] at hfull
  have hword := pkt.seq.toNat_lt
  have htwo := w.two_le
  have hsucc := toNat_succ (x := u.1.frontier) (by omega)
  have hidle : u.1.frontReady = false := by simp [frontReady, frontSlot, h.buf, hclear]
  have hnext : (bumpFrontier (countGap u)).1.frontReady = false := by
    simp [frontReady, frontSlot, bumpFrontier, countGap, h.buf, hclear]
  have hfrontier : (bumpFrontier (countGap u)).1.frontier.toNat = u.1.frontier.toNat + 1 := hsucc
  refine ⟨bumpFrontier (countGap u), ?_, ⟨h.buf, h.occupied, h.started, h.sink, ?_, ?_⟩, ?_⟩
  · simp only [FeedArbitrator.advanceFrontier, hidle, Bool.false_eq_true, if_false]
    exact releasePrefix_idle hnext
  · omega
  · omega
  · omega

theorem makeRoom_empty (hst : st.1.started = true) (hclear : ∀ i, (st.1.buf i).occupied = false)
    (hlt : st.1.frontier.toNat < pkt.seq.toNat)
    (hnear : pkt.seq.toNat ≤ st.1.frontier.toNat + kMaxGap.toNat) :
    ∃ u, makeRoom pkt.seq st = some u ∧ MovedOver pkt st u := by
  obtain ⟨u, hu, hmoved, _⟩ : ∃ u, makeRoom pkt.seq st = some u ∧ MovedOver pkt st u ∧ _ :=
    whileLoop_total (fun s (hs : MovedOver pkt st s) hc =>
      hs.advanceFrontier hclear (of_decide_eq_true hc))
      ⟨rfl, rfl, hst, rfl, le_rfl, hlt⟩ (by omega)
  exact ⟨u, hu, hmoved⟩

theorem noteDepth_eq_stats (seq : UInt64) (u : FeedSession ρ w) :
    ∃ stats, noteDepth seq u = ({ u.1 with stats := stats }, u.2) := by
  unfold noteDepth
  dsimp only
  split
  next => exact ⟨_, rfl⟩
  next => exact ⟨u.1.stats, rfl⟩

/-- On an empty ring, a packet exactly `kMaxGap` ahead is taken and stays alone. -/
theorem offer_alone (hst : st.1.started = true) (hclear : ∀ i, (st.1.buf i).occupied = false)
    (hocc : st.1.occupied = 0) (hgap : st.1.frontier.toNat + kMaxGap.toNat = pkt.seq.toNat) :
    ∃ st', offer pkt st = some st' ∧ Alone pkt st' ∧ st'.2 = st.2 := by
  have hk : kMaxGap.toNat = 1048576 := rfl
  obtain ⟨u, hroom, hmoved⟩ := @makeRoom_empty ρ _ w st pkt hst hclear (by omega) hgap.ge
  obtain ⟨stats, hnote⟩ := noteDepth_eq_stats pkt.seq u
  let v : FeedSession ρ w :=
    ({ u.1 with
        buf := Function.update u.1.buf (w.index pkt.seq) ⟨true, pkt.seq, pkt.record⟩
        occupied := u.1.occupied + 1
        stats := stats }, u.2)
  have hothers : ∀ i, i ≠ w.index pkt.seq → (v.1.buf i).occupied = false := by
    intro i hi
    simp [v, hi, hmoved.buf, hclear]
  have hlt := hmoved.lt
  have hle := hmoved.le
  have hne : u.1.frontier ≠ pkt.seq := by
    intro he
    rw [he] at hlt
    omega
  have hv : v.1.frontReady = false := frontReady_of_ne pkt (by simp [v]) hothers hne
  refine ⟨v, ?_, ⟨hmoved.started, by simp [v], hothers, ?_, UInt64.lt_iff_toNat_lt.mpr hlt, ?_⟩,
    hmoved.sink⟩
  · have hlate : ¬pkt.seq < st.1.frontier := by
      rw [UInt64.lt_iff_toNat_lt]
      omega
    have hwild : ¬kMaxGap < pkt.seq - st.1.frontier := by
      rw [UInt64.lt_iff_toNat_lt, toNat_sub_seq (by omega)]
      omega
    have hfree : (u.1.buf (w.index pkt.seq)).occupied = false := by rw [hmoved.buf, hclear]
    simp only [offer, anchor, hst, if_true, hlate, hwild, if_false, hroom, Option.bind_some, hnote,
      place, hfree, Bool.false_eq_true]
    exact releasePrefix_idle hv
  · change 0 < u.1.occupied + 1
    rw [hmoved.occupied, hocc]
    decide
  · change _ ≤ u.1.frontier.toNat + _
    omega

end Arrival

section Insertion

variable {a : Arbiter ρ} {pre post : List (FeedCall ρ)} {pkt : FeedPacket ρ}

theorem Refines.sink_eq {st₂ : FeedSession ρ w} {a₂ : Arbiter ρ} (h : Refines st a)
    (h₂ : Refines st₂ a₂) (hsent : a.sent = a₂.sent) : st.2 = st₂.2 :=
  entry_toNat_injective.list_map (by rw [h.sink, h₂.sink, hsent])

/-- A rejected packet changes nothing that a later call reads. -/
theorem foldlM_rejected (h : Refines st a) (hst : st.1.started = true)
    (hle : st.1.frontier ≤ pkt.seq) (hgap : kMaxGap < pkt.seq - st.1.frontier)
    (hc : ∀ c ∈ post, c.Bounded) :
    ((FeedCall.offer pkt :: post).foldlM call st).map Prod.snd =
      (post.foldlM call st).map Prod.snd := by
  let st₁ : FeedSession ρ w :=
    ({ st.1 with stats := { st.1.stats with rejected := st.1.stats.rejected + 1 } }, st.2)
  have hoffer : call st (.offer pkt) = some st₁ := by
    have hlate : ¬pkt.seq < st.1.frontier := UInt64.not_lt.mpr hle
    simp [call, offer, anchor, hst, hlate, hgap, st₁]
  have h₁ : Refines st₁ a.addRejected := by
    refine { h with rejected := ?_ }
    change _ + 1 = UInt64.ofNat (_ + 1)
    rw [UInt64.ofNat_add, h.rejected]
    rfl
  have hstep : ∀ s b c, c ∈ post → Refines s b →
      ∃ s', call s c = some s' ∧ Refines s' (b.call w.size c) :=
    fun _ _ c hm hr => refines_call hr (hc c hm)
  obtain ⟨u, hu, hru⟩ := foldlM_simulates hstep h
  obtain ⟨v, hv, hrv⟩ := foldlM_simulates hstep h₁
  rw [Arbiter.foldl_addRejected] at hrv
  rw [List.foldlM_cons, hoffer]
  change (post.foldlM call st₁).map Prod.snd = _
  rw [hu, hv, Option.map_some, Option.map_some, hrv.sink_eq hru rfl]

theorem run_append (calls more : List (FeedCall ρ)) :
    run w (calls ++ more) = (run w calls).bind fun st => more.foldlM call st :=
  List.foldlM_append

omit [Inhabited ρ] in
theorem bounded_of_wild {calls : List (FeedCall ρ)}
    (hwild : ∀ q, .offer q ∈ calls → q.seq.toNat + kMaxGap.toNat < pkt.seq.toNat) :
    ∀ c ∈ calls, c.Bounded := by
  intro c hc
  cases c with
  | offer q =>
    have hk : kMaxGap.toNat = 1048576 := rfl
    have hword := pkt.seq.toNat_lt
    have := hwild q hc
    change q.seq.toNat ≤ 2 ^ 64 - 2
    omega
  | flush => trivial

omit [Inhabited ρ] in
/-- Without a `flush`, all other calls are late once the frontier is near the wild packet. -/
theorem late_of_wild {calls : List (FeedCall ρ)} {x : UInt64}
    (hwild : ∀ q, .offer q ∈ calls → q.seq.toNat + kMaxGap.toNat < pkt.seq.toNat)
    (hflush : FeedCall.flush ∉ calls) (hnear : pkt.seq.toNat ≤ x.toNat + kMaxGap.toNat) :
    ∀ c ∈ calls, ∃ q, c = .offer q ∧ q.seq < x := by
  intro c hc
  cases c with
  | flush => exact absurd hc hflush
  | offer q =>
    have := hwild q hc
    exact ⟨q, rfl, UInt64.lt_iff_toNat_lt.mpr (by omega)⟩

/-- The wild record is not among those of the run without it. -/
theorem wild_not_sent {calls : List (FeedCall ρ)} {st : FeedSession ρ w}
    (hwild : ∀ q, .offer q ∈ calls → q.seq.toNat + kMaxGap.toNat < pkt.seq.toNat)
    (href : Refines st (Arbiter.run w.size calls)) : (pkt.seq, pkt.record) ∉ st.2 := by
  intro hm
  have hlt := (Arbiter.settled_run w.size_pos calls).behind _ (href.mem_sink_iff.mp hm)
  have hle : (Arbiter.run w.size calls).frontier ≤ pkt.seq.toNat :=
    (Arbiter.frontier_run_le w.size_pos fun q hq => by have := hwild q hq; omega).1
  exact absurd hlt (not_lt.mpr hle)

/-- A packet that finds the session unanchored anchors it and is delivered at once. -/
theorem wild_first_delivered (href : Refines st (Arbiter.run w.size pre))
    (hst : st.1.started = false) {u : FeedSession ρ w}
    (hu : (FeedCall.offer pkt :: post).foldlM call st = some u) : (pkt.seq, pkt.record) ∈ u.2 := by
  have hidle := ((Arbiter.settled_run w.size_pos pre).idle (href.started ▸ hst)).1
  rw [List.foldlM_cons] at hu
  obtain ⟨v, hv, hrest⟩ := Option.bind_eq_some_iff.mp hu
  exact mem_foldlM (offer_first hst (href.clear hidle).1 hv) hrest

/-- A wild packet exactly `kMaxGap` past the frontier, which has passed all others, is taken and
stays alone. -/
theorem wild_alone (href : Refines st (Arbiter.run w.size pre)) (hst : st.1.started = true)
    (hpre : ∀ q, .offer q ∈ pre → q.seq.toNat < pkt.seq.toNat - kMaxGap.toNat)
    (hexact : st.1.frontier.toNat + kMaxGap.toNat = pkt.seq.toNat) :
    ∃ v, offer pkt st = some v ∧ Alone pkt v ∧ v.2 = st.2 := by
  have hset := Arbiter.settled_run w.size_pos pre
  obtain ⟨_, hbelow⟩ := Arbiter.frontier_run_le w.size_pos hpre
  have hnone : ∀ s, (Arbiter.run w.size pre).pending s = none := by
    intro s
    by_contra hne
    have hge := (hset.within s hne).1
    rw [← href.frontier] at hge
    exact hne (hbelow s (by omega))
  obtain ⟨hclear, hocc⟩ := href.clear hnone
  exact offer_alone hst hclear hocc hexact

/-- While a packet waits alone and no `flush` comes, the others are late with it and without it. -/
theorem Alone.unseen {v : FeedSession ρ w} (halone : Alone pkt v) (hsink : v.2 = st.2)
    (hst : st.1.started = true) (hexact : st.1.frontier.toNat + kMaxGap.toNat = pkt.seq.toNat)
    (hpost : ∀ q, .offer q ∈ post → q.seq.toNat + kMaxGap.toNat < pkt.seq.toNat)
    (hflush : FeedCall.flush ∉ post) :
    (post.foldlM call v).map Prod.snd = (post.foldlM call st).map Prod.snd := by
  obtain ⟨u, hu, husink⟩ := foldlM_late hst (late_of_wild hpost hflush hexact.ge)
  obtain ⟨x, hx, hxsink⟩ := foldlM_late halone.started (late_of_wild hpost hflush halone.near)
  rw [hu, hx, Option.map_some, Option.map_some, husink, hxsink, hsink]

/-- The sink's view changes if the wild record is delivered, since it is not without it. -/
theorem changed_of_delivered {fin : FeedSession ρ w} (hfin : post.foldlM call st = some fin)
    (hnotin : (pkt.seq, pkt.record) ∉ fin.2)
    (hall : ∀ u, (FeedCall.offer pkt :: post).foldlM call st = some u →
      (pkt.seq, pkt.record) ∈ u.2) :
    ((FeedCall.offer pkt :: post).foldlM call st).map Prod.snd ≠
      (post.foldlM call st).map Prod.snd := by
  intro heq
  rw [hfin, Option.map_some] at heq
  obtain ⟨u, hu, hsink⟩ := Option.map_eq_some_iff.mp heq
  exact hnotin (hsink ▸ hall u hu)

/-- A wild packet exactly `kMaxGap` past the frontier is seen exactly if a later `flush` forces it
out. -/
theorem wild_exact_unseen_iff {fin : FeedSession ρ w}
    (href : Refines st (Arbiter.run w.size pre)) (hst : st.1.started = true)
    (hpre : ∀ q, .offer q ∈ pre → q.seq.toNat < pkt.seq.toNat - kMaxGap.toNat)
    (hpost : ∀ q, .offer q ∈ post → q.seq.toNat + kMaxGap.toNat < pkt.seq.toNat)
    (hexact : st.1.frontier.toNat + kMaxGap.toNat = pkt.seq.toNat)
    (hfin : post.foldlM call st = some fin) (hnotin : (pkt.seq, pkt.record) ∉ fin.2) :
    ((FeedCall.offer pkt :: post).foldlM call st).map Prod.snd =
      (post.foldlM call st).map Prod.snd ↔ FeedCall.flush ∉ post := by
  obtain ⟨v, hv, halone, hsink⟩ := wild_alone href hst hpre hexact
  have hcons : (FeedCall.offer pkt :: post).foldlM call st = post.foldlM call v := by
    rw [List.foldlM_cons]
    exact congrArg (Option.bind · _) hv
  constructor
  · intro heq hflush
    refine changed_of_delivered hfin hnotin (fun u hu => ?_) heq
    exact Taken.delivered (Or.inr halone) hpost (hcons ▸ hu) hflush
  · intro hflush
    rw [hcons]
    exact halone.unseen hsink hst hexact hpost hflush

/-- One packet whose sequence exceeds all others of the run by more than
`kMaxGap` leaves the sink's view unchanged exactly when the session is anchored
before it and either the guard rejects it, being more than `kMaxGap` past the
frontier too, or no later `flush` forces it out. -/
theorem wild_packet_unseen_iff
    (hwild : ∀ q, .offer q ∈ pre ++ post → q.seq.toNat + kMaxGap.toNat < pkt.seq.toNat) :
    (∃ st, run w (pre ++ post) = some st) ∧
    ((run w (pre ++ .offer pkt :: post)).map Prod.snd = (run w (pre ++ post)).map Prod.snd ↔
      (∃ q, .offer q ∈ pre) ∧
        ((∃ st, run w pre = some st ∧ kMaxGap < pkt.seq - st.1.frontier) ∨
          FeedCall.flush ∉ post)) := by
  have hbounded := bounded_of_wild hwild
  have hpost : ∀ q, .offer q ∈ post → q.seq.toNat + kMaxGap.toNat < pkt.seq.toNat :=
    fun q hq => hwild q (List.mem_append_right _ hq)
  have hpre : ∀ q, .offer q ∈ pre → q.seq.toNat < pkt.seq.toNat - kMaxGap.toNat := by
    intro q hq
    have := hwild q (List.mem_append_left _ hq)
    omega
  obtain ⟨st, hrun, href⟩ := refines_run (w := w) fun c hc => hbounded c (List.mem_append_left _ hc)
  obtain ⟨fin, hfin, hrefFin⟩ := refines_run (w := w) hbounded
  have hnotin := wild_not_sent hwild hrefFin
  refine ⟨⟨fin, hfin⟩, ?_⟩
  rw [run_append, hrun, Option.bind_some] at hfin
  rw [run_append, run_append, hrun, Option.bind_some, Option.bind_some,
    ← Arbiter.run_started_iff w.size_pos, ← href.started]
  cases hst : st.1.started with
  | false =>
    simp only [Bool.false_eq_true, false_and, iff_false]
    exact changed_of_delivered hfin hnotin fun u hu => wild_first_delivered href hst hu
  | true =>
    have hfront := (Arbiter.frontier_run_le w.size_pos hpre).1
    rw [← href.frontier] at hfront
    have hle : st.1.frontier ≤ pkt.seq := UInt64.le_iff_toNat_le.mpr (by omega)
    simp only [true_and, Option.some.injEq, exists_eq_left']
    by_cases hgap : kMaxGap < pkt.seq - st.1.frontier
    · have hsame := foldlM_rejected href hst hle hgap
        fun c hc => hbounded c (List.mem_append_right _ hc)
      exact iff_of_true hsame (Or.inl hgap)
    · obtain ⟨q, hq⟩ := (Arbiter.run_started_iff w.size_pos).mp (href.started ▸ hst)
      have hahead := hwild q (List.mem_append_left _ hq)
      have hexact : st.1.frontier.toNat + kMaxGap.toNat = pkt.seq.toNat := by
        rw [UInt64.lt_iff_toNat_lt, UInt64.toNat_sub_of_le _ _ hle] at hgap
        omega
      rw [wild_exact_unseen_iff href hst hpre hpost hexact hfin hnotin, or_iff_right hgap]

theorem wild_packet_unseen_iff_anchored :
    (run PowTwo.four ([.offer ⟨7, 0, 70⟩] ++ .offer ⟨4194304, 1, 0⟩ ::
        [FeedCall.offer ⟨8, 0, 80⟩, .flush])).map Prod.snd =
      (run PowTwo.four ([.offer ⟨7, 0, 70⟩] ++ [FeedCall.offer ⟨8, 0, 80⟩, .flush])).map
        Prod.snd := by
  refine (wild_packet_unseen_iff ?_).2.mpr
    ⟨⟨_, List.mem_singleton.mpr rfl⟩, Or.inl ⟨_, rfl, by decide +kernel⟩⟩
  intro q hq
  simp at hq
  rcases hq with rfl | rfl <;> decide

/-- Offered before the first packet, the wild packet anchors the session itself:
it is delivered, and all the others are late. -/
theorem wild_packet_first_takes_over :
    (∀ q, .offer q ∈ ([] : List (FeedCall Nat)) ++ [.offer ⟨7, 0, 70⟩, .flush] →
      q.seq.toNat + kMaxGap.toNat < (4194304 : UInt64).toNat) ∧
    (run PowTwo.four ([] ++ .offer ⟨4194304, 1, 0⟩ ::
        [FeedCall.offer ⟨7, 0, 70⟩, .flush])).map Prod.snd = some [(4194304, 0)] ∧
    (run PowTwo.four ([] ++ [FeedCall.offer ⟨7, 0, 70⟩, .flush])).map Prod.snd =
      some [(7, 70)] := by
  refine ⟨?_, by decide +kernel, by decide +kernel⟩
  intro q hq
  simp at hq
  subst hq
  decide

end Insertion

end FeedArbitrator

end OhlcvValidator
