import OhlcvValidator.ArbiterCalls
import OhlcvValidator.ArbiterHistory

namespace OhlcvValidator

/-- How many packets a run offers. -/
def offerCount {ρ : Type} (calls : List (FeedCall ρ)) : Nat :=
  calls.countP fun c => match c with
    | .offer _ => true
    | .flush => false

/-- The first packet of a run, whose sequence anchors the session. -/
def firstOffered {ρ : Type} (calls : List (FeedCall ρ)) : Option (FeedPacket ρ) :=
  calls.findSome? fun c => match c with
    | .offer pkt => some pkt
    | .flush => none

namespace Arbiter

variable {ρ : Type} {window s : Nat} {ln : Fin 2} {r : ρ} {a : Arbiter ρ}

/-- How many messages are held. -/
def held (window : Nat) (a : Arbiter ρ) : Nat :=
  (entriesBetween a.pending a.frontier (a.frontier + window)).length

/-- Every packet that was offered, by what became of it. -/
def accounted (window : Nat) (a : Arbiter ρ) : Nat :=
  a.sent.length + a.held window + ∑ ln, a.duplicates ln + a.rejected

theorem accounted_eq (window : Nat) (a : Arbiter ρ) : a.accounted window =
    a.sent.length + a.held window + a.duplicates 0 + a.duplicates 1 + a.rejected := by
  rw [accounted, Fin.sum_univ_two]
  omega

theorem passTo_passed {g : Nat} (hg : a.frontier ≤ g) :
    (a.passTo g).sent.length + (a.passTo g).gaps + a.frontier = a.sent.length + a.gaps + g := by
  have := entriesBetween_length_le a.pending a.frontier g
  simp only [passTo, List.length_append]
  omega

/-- A pass moves held messages to the sent ones. -/
theorem passTo_held (h : a.Within window) {g : Nat} (hg : a.frontier ≤ g) :
    (a.passTo g).sent.length + (a.passTo g).held window = a.sent.length + a.held window := by
  have hfar : entriesBetween a.pending (a.frontier + window) (g + window) = [] :=
    entriesBetween_of_none fun s hs _ => h.finiteBelow s hs
  have hall := entriesBetween_append a.pending (f := a.frontier) (g := a.frontier + window)
    (h := g + window) (by omega) (by omega)
  rw [hfar, List.append_nil] at hall
  have hsplit := entriesBetween_append a.pending hg (h := g + window) (by omega)
  have hlater : entriesBetween (a.passTo g).pending g (g + window) =
      entriesBetween a.pending g (g + window) :=
    entriesBetween_congr fun s hs _ => passTo_pending hs
  have hlen := congrArg List.length hsplit
  rw [List.length_append, ← hall] at hlen
  change (a.sent ++ _).length + (entriesBetween (a.passTo g).pending g (g + window)).length = _
  rw [hlater, List.length_append, held]
  omega

theorem addDuplicate_accounted (a : Arbiter ρ) (ln : Fin 2) :
    (a.addDuplicate ln).accounted window = a.accounted window + 1 := by
  have hsum : (a.addDuplicate ln).duplicates 0 + (a.addDuplicate ln).duplicates 1 =
      a.duplicates 0 + a.duplicates 1 + 1 := by
    fin_cases ln <;> simp [addDuplicate] <;> omega
  have hheld : (a.addDuplicate ln).held window = a.held window := rfl
  simp only [accounted_eq, hheld]
  change a.sent.length + _ + _ + _ + a.rejected = _
  omega

theorem anchor_accounted (h : a.Settled window) :
    (a.anchor s).accounted window = a.accounted window := by
  cases hs : a.started with
  | true => simp [anchor, hs]
  | false =>
    have hp := (h.idle hs).1
    have hnone : ∀ f, entriesBetween a.pending f (f + window) = [] :=
      fun f => entriesBetween_of_none fun t _ _ => hp t
    simp [accounted_eq, held, anchor, hs, hnone]

/-- An `offer` accounts for exactly one packet. -/
theorem offer_accounted (h : a.Settled window) (hw : 0 < window) :
    (a.offer window s ln r).accounted window = a.accounted window + 1 := by
  have hb := h.anchor s
  rw [← anchor_accounted (s := s) h]
  have hcases := offer_cases h hw s ln r
  generalize a.anchor s = b at hb hcases
  generalize a.offer window s ln r = a' at hcases ⊢
  cases hcases with
  | late _ => exact b.addDuplicate_accounted ln
  | wild _ =>
    simp only [accounted_eq, addRejected, held]
    omega
  | copy _ _ _ => exact (b.noteDepth s).addDuplicate_accounted ln
  | @held g hle _ hp hg hgs hs _ =>
    have hwithin := hb.within.passTo hg
    have hpass := passTo_held hb.within hg
    have hadd : (((b.passTo g).noteDepth s).hold s r).held window =
        (b.passTo g).held window + 1 := by
      apply entriesBetween_update_length
      · exact (passTo_pending hgs).trans hp
      · exact hgs
      · exact hs
    have hhold : (((b.passTo g).noteDepth s).hold s r).Within window :=
      Within.hold hwithin hgs hs
    have hrel := passTo_held hhold (le_firstHole hhold.finiteBelow _)
    change _ = (b.passTo g).sent.length + _ at hrel
    simp only [accounted_eq, release]
    change _ + _ + b.duplicates 0 + b.duplicates 1 + b.rejected = _
    omega

theorem flush_accounted (h : a.Settled window) :
    a.flush.accounted window = a.accounted window := by
  have hpass := passTo_held h.within (le_pendingEnd h.within.finiteBelow a.frontier)
  simp only [accounted_eq, flush]
  change _ + _ + a.duplicates 0 + a.duplicates 1 + a.rejected = _
  omega

theorem run_accounted (hw : 0 < window) (calls : List (FeedCall ρ)) :
    (run window calls).accounted window = offerCount calls := by
  induction calls using List.reverseRecOn with
  | nil => simp [run, accounted_eq, held, fresh, offerCount, entriesBetween_of_none]
  | append_singleton calls c ih =>
    have hset := settled_run hw calls
    have hcount : offerCount (calls ++ [c]) = offerCount calls + offerCount [c] := by
      simp [offerCount]
    rw [run, List.foldl_append, hcount, ← ih]
    cases c with
    | offer pkt => exact offer_accounted hset hw
    | flush => exact flush_accounted hset

/-- The session runs from `first`, and everything passed is sent or a gap. -/
def PassedFrom (first : Nat) (a : Arbiter ρ) : Prop :=
  a.started = true ∧ first + a.sent.length + a.gaps = a.frontier ∧
    ∀ e ∈ a.sent, first ≤ e.1

theorem PassedFrom.passTo {first g : Nat} (h : a.PassedFrom first) (hg : a.frontier ≤ g) :
    (a.passTo g).PassedFrom first := by
  have hsum := passTo_passed hg
  refine ⟨h.1, ?_, ?_⟩
  · have := h.2.1
    change _ = g
    omega
  · rintro ⟨t, q⟩ hm
    rcases List.mem_append.mp hm with hm | hm
    · exact h.2.2 _ hm
    · have hf := (mem_entriesBetween.mp hm).1
      have hsum := h.2.1
      simp only
      omega

theorem PassedFrom.offer {first : Nat} (h : a.Settled window) (hw : 0 < window)
    (hb : (a.anchor s).PassedFrom first) : (a.offer window s ln r).PassedFrom first := by
  have hset := h.anchor s
  have hcases := offer_cases h hw s ln r
  generalize a.anchor s = b at hb hset hcases
  generalize a.offer window s ln r = a' at hcases ⊢
  cases hcases with
  | late _ => exact hb
  | wild _ => exact hb
  | copy _ _ _ => exact hb
  | @held g _ _ _ hg hgs hs _ =>
    have hhold : (((b.passTo g).noteDepth s).hold s r).Within window :=
      Within.hold (hset.within.passTo hg) hgs hs
    have hpass : (((b.passTo g).noteDepth s).hold s r).PassedFrom first := hb.passTo hg
    exact hpass.passTo (le_firstHole hhold.finiteBelow _)

theorem run_passedFrom (hw : 0 < window) {calls : List (FeedCall ρ)} :
    (∀ first, firstOffered calls = some first →
      (run window calls).PassedFrom first.seq.toNat) ∧
    (firstOffered calls = none → (run window calls).started = false ∧
      (run window calls).gaps = 0) := by
  induction calls using List.reverseRecOn with
  | nil => exact ⟨fun _ h => by simp [firstOffered] at h, fun _ => ⟨rfl, rfl⟩⟩
  | append_singleton calls c ih =>
    have hset := settled_run hw calls
    have hstep : run window (calls ++ [c]) = (run window calls).call window c := by
      rw [run, List.foldl_append]
      rfl
    have hfirst : firstOffered (calls ++ [c]) = (firstOffered calls).or (firstOffered [c]) := by
      simp [firstOffered, List.findSome?_append]
    rw [hstep, hfirst]
    cases hf : firstOffered calls with
    | some first =>
      have hpass := ih.1 first hf
      refine ⟨?_, by simp⟩
      rintro _ ⟨⟩
      cases c with
      | offer pkt =>
        apply PassedFrom.offer hset hw
        simpa [anchor, hpass.1] using hpass
      | flush => exact hpass.passTo (le_pendingEnd hset.within.finiteBelow _)
    | none =>
      obtain ⟨hstarted, hgaps⟩ := ih.2 hf
      obtain ⟨hp, hsent⟩ := hset.idle hstarted
      cases c with
      | offer pkt =>
        refine ⟨?_, by simp [firstOffered]⟩
        rintro _ ⟨⟩
        apply PassedFrom.offer hset hw
        simp [PassedFrom, anchor, hstarted, hsent, hgaps]
      | flush =>
        refine ⟨by simp [firstOffered], fun _ => ⟨hstarted, ?_⟩⟩
        have hend : pendingEnd (run window calls).pending (run window calls).frontier =
            (run window calls).frontier :=
          le_antisymm (pendingEnd_le le_rfl fun t _ => hp t)
            (le_pendingEnd hset.within.finiteBelow _)
        change (passTo _ _).gaps = 0
        rw [hend, passTo_self hset.within, hgaps]

/-- A `flush` leaves nothing held. -/
theorem flush_pending (h : a.Within window) (s : Nat) : a.flush.pending s = none := by
  simp only [flush, passTo]
  split
  next => rfl
  next hs => exact pendingEnd_finiteBelow h.finiteBelow a.frontier s (not_lt.mp hs)

/-- The sent sequences, as a set, are as many as the messages sent. -/
theorem card_sent (hs : a.sent.Pairwise fun x y => x.1 < y.1) :
    (a.sent.map Prod.fst).toFinset.card = a.sent.length := by
  rw [List.toFinset_card_of_nodup, List.length_map]
  exact (List.pairwise_map.mpr hs).imp Nat.ne_of_lt

end Arbiter

namespace FeedArbitrator

variable {ρ : Type} [Inhabited ρ] {w : PowTwo} {st : FeedSession ρ w} {a : Arbiter ρ}

theorem Refines.card_occupiedSlots (h : Refines st a) :
    st.1.occupiedSlots.card = a.held w.size := by
  let entries := entriesBetween a.pending a.frontier (a.frontier + w.size)
  have hkeys : (entries.map Prod.fst).toFinset =
      st.1.occupiedSlots.image fun i => (st.1.buf i).seq.toNat := by
    ext s
    simp only [List.mem_toFinset, List.mem_map, Finset.mem_image, occupiedSlots,
      Finset.mem_filter, Finset.mem_univ, true_and]
    constructor
    · rintro ⟨⟨t, r⟩, hm, rfl⟩
      have hp := (mem_entriesBetween.mp hm).2.2
      have hslot := h.slot_of_pending (s := t) (by simp [hp])
      exact ⟨w.slotOf t, hslot.1, hslot.2⟩
    · rintro ⟨i, hi, rfl⟩
      have hread := h.read_slot hi
      have hin := h.within (st.1.buf i).seq.toNat (by simp [hread])
      exact ⟨(_, _), mem_entriesBetween.mpr ⟨hin.1, hin.2, hread⟩, rfl⟩
  have hinj : Set.InjOn (fun i => (st.1.buf i).seq.toNat) st.1.occupiedSlots := by
    intro i hi j hj hij
    have hi : (st.1.buf i).occupied = true := by simpa [occupiedSlots] using hi
    have hj : (st.1.buf j).occupied = true := by simpa [occupiedSlots] using hj
    rw [← h.placed i hi, ← h.placed j hj]
    exact congrArg w.slotOf hij
  have hnodup : (entries.map Prod.fst).Nodup :=
    (List.pairwise_map.mpr (entriesBetween_sorted _ _ _)).imp Nat.ne_of_lt
  rw [← Finset.card_image_of_injOn hinj, ← hkeys, List.toFinset_card_of_nodup hnodup,
    List.length_map]
  rfl

/-- The delivered sequences of the session, seen as numbers. -/
theorem Refines.sent_keys (h : Refines st a) (s : Nat) :
    s ∈ a.sent.map Prod.fst ↔ s < 2 ^ 64 ∧ UInt64.ofNat s ∈ st.2.map Prod.fst := by
  have hmap : a.sent.map Prod.fst = (st.2.map Prod.fst).map UInt64.toNat := by
    rw [← h.sink, List.map_map, List.map_map]
    rfl
  rw [hmap, List.mem_map]
  constructor
  · rintro ⟨x, hx, rfl⟩
    exact ⟨x.toNat_lt, by rwa [UInt64.ofNat_toNat]⟩
  · rintro ⟨hlt, hm⟩
    exact ⟨_, hm, by rw [UInt64.toNat_ofNat']; omega⟩

theorem Refines.clear {st : FeedSession ρ w} {a : Arbiter ρ} (h : Refines st a) (hp : ∀ s, a.pending s = none) :
    (∀ i, (st.1.buf i).occupied = false) ∧ st.1.occupied = 0 := by
  have hclear : ∀ i, (st.1.buf i).occupied = false := by
    intro i
    by_contra hi
    have := h.read_slot (i := i) (by simpa using hi)
    simp [hp] at this
  refine ⟨hclear, ?_⟩
  rw [h.occupied]
  simp [occupiedSlots, hclear]

/-- The delivered sequences from the anchor on, counted in the sink. -/
theorem Refines.card_delivered {st : FeedSession ρ w} {a : Arbiter ρ} (h : Refines st a)
    (hset : a.Settled w.size) {lo : Nat} (hfrom : ∀ e ∈ a.sent, lo ≤ e.1) :
    ((Finset.Ico lo st.1.frontier.toNat).filter
      fun s => UInt64.ofNat s ∈ st.2.map Prod.fst).card = a.sent.length := by
  have hfront := h.frontier
  have hbound := st.1.frontier.toNat_lt
  rw [← Arbiter.card_sent hset.sorted]
  congr 1
  ext s
  rw [Finset.mem_filter, Finset.mem_Ico, List.mem_toFinset, h.sent_keys]
  constructor
  · rintro ⟨hs, hm⟩
    exact ⟨by omega, hm⟩
  · rintro ⟨hs, hm⟩
    obtain ⟨⟨t, q⟩, he, rfl⟩ := List.mem_map.mp ((h.sent_keys s).mpr ⟨hs, hm⟩)
    have := hset.behind _ he
    exact ⟨⟨hfrom _ he, by omega⟩, hm⟩

/-- Packets and sequences are conserved: what the frontier has passed since the
first packet is delivered or a gap, each sequence counted once, and every packet
offered is delivered, buffered, a duplicate or rejected. The packet balance is
between 64-bit counters, so it is exact while the number of packets is a word. -/
theorem packets_conserved {calls : List (FeedCall ρ)} (hc : ∀ c ∈ calls, c.Bounded) :
    ∃ a sink, run w calls = some (a, sink) ∧
      (∀ first, firstOffered calls = some first →
        first.seq ≤ a.frontier ∧
        (a.frontier - first.seq).toNat = a.stats.delivered.toNat + a.stats.gaps.toNat ∧
        a.stats.delivered.toNat = ((Finset.Ico first.seq.toNat a.frontier.toNat).filter
          fun s => UInt64.ofNat s ∈ sink.map Prod.fst).card ∧
        a.stats.gaps.toNat = ((Finset.Ico first.seq.toNat a.frontier.toNat).filter
          fun s => UInt64.ofNat s ∉ sink.map Prod.fst).card) ∧
      UInt64.ofNat (offerCount calls) = a.stats.delivered + UInt64.ofNat a.occupiedSlots.card +
        a.stats.duplicates 0 + a.stats.duplicates 1 + a.stats.rejected ∧
      (offerCount calls < 2 ^ 64 → offerCount calls = a.stats.delivered.toNat +
        a.occupiedSlots.card + (a.stats.duplicates 0).toNat + (a.stats.duplicates 1).toNat +
        a.stats.rejected.toNat) ∧
      (calls.getLast? = some .flush → a.occupiedSlots = ∅) := by
  obtain ⟨⟨a, sink⟩, hrun, href⟩ := refines_run (w := w) hc
  have hset := Arbiter.settled_run w.size_pos calls
  have hacc := Arbiter.run_accounted w.size_pos calls
  rw [Arbiter.accounted_eq, ← href.card_occupiedSlots] at hacc
  have hdelivered : a.stats.delivered = _ := href.delivered
  have hduplicates : ∀ ln, a.stats.duplicates ln = _ := href.duplicates
  have hrejected : a.stats.rejected = _ := href.rejected
  refine ⟨a, sink, hrun, ?_, ?_, ?_, ?_⟩
  · intro first hfirst
    obtain ⟨-, hsum, hfrom⟩ := (Arbiter.run_passedFrom w.size_pos).1 first hfirst
    have hfront := href.frontier
    have hbound := a.frontier.toNat_lt
    simp only at hfront
    have hdel : a.stats.delivered.toNat = (Arbiter.run w.size calls).sent.length := by
      rw [hdelivered, UInt64.toNat_ofNat']
      omega
    have hgaps : a.stats.gaps.toNat = (Arbiter.run w.size calls).gaps := by
      rw [href.gaps, UInt64.toNat_ofNat']
      omega
    have hle : first.seq ≤ a.frontier := UInt64.le_iff_toNat_le.mpr (by omega)
    have hcount : ((Finset.Ico first.seq.toNat a.frontier.toNat).filter
        fun s => UInt64.ofNat s ∈ sink.map Prod.fst).card = _ := href.card_delivered hset hfrom
    have hall := Finset.card_filter_add_card_filter_not
      (s := Finset.Ico first.seq.toNat a.frontier.toNat)
      (fun s => UInt64.ofNat s ∈ sink.map Prod.fst)
    rw [Nat.card_Ico] at hall
    refine ⟨hle, ?_, hdel.trans hcount.symm, ?_⟩
    · rw [UInt64.toNat_sub_of_le _ _ hle]
      omega
    · omega
  · rw [← hacc]
    simp only [UInt64.ofNat_add, hdelivered, hduplicates, hrejected]
  · intro hlt
    have hword : ∀ n ≤ offerCount calls, (UInt64.ofNat n).toNat = n := by
      intro n hn
      rw [UInt64.toNat_ofNat']
      omega
    rw [hdelivered, hduplicates, hduplicates, hrejected]
    rw [hword _ (by omega), hword _ (by omega), hword _ (by omega), hword _ (by omega)]
    exact hacc.symm
  · intro hlast
    obtain ⟨before, rfl⟩ := List.getLast?_eq_some_iff.mp hlast
    have hflush : Arbiter.run w.size (before ++ [.flush]) = (Arbiter.run w.size before).flush := by
      rw [Arbiter.run, List.foldl_append]
      rfl
    have hclear : ∀ i, (a.buf i).occupied = false := (href.clear fun s => by
      rw [hflush, Arbiter.flush_pending (Arbiter.settled_run w.size_pos before).within]).1
    simp [occupiedSlots, hclear]

/-- A lost sequence, a redundant copy, a packet behind the anchor and a wild one. -/
def mixedFates : List (FeedCall Nat) :=
  [.offer ⟨5, 0, 50⟩, .offer ⟨7, 0, 70⟩, .offer ⟨7, 1, 71⟩, .offer ⟨4, 1, 40⟩,
    .offer ⟨9223372036854775808, 0, 0⟩, .flush]

theorem packets_conserved_mixedFates :
    ∃ a sink, run PowTwo.four mixedFates = some (a, sink) ∧
      5 = a.stats.delivered.toNat + a.occupiedSlots.card + (a.stats.duplicates 0).toNat +
        (a.stats.duplicates 1).toNat + a.stats.rejected.toNat := by
  obtain ⟨a, sink, hrun, _, _, hexact, _⟩ := packets_conserved (w := PowTwo.four)
    (show ∀ c ∈ mixedFates, c.Bounded by decide)
  exact ⟨a, sink, hrun, hexact (by decide)⟩

end FeedArbitrator

end OhlcvValidator
