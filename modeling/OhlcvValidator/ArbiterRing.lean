import OhlcvValidator.ArbiterCalls
import OhlcvValidator.ArbiterHistory

namespace OhlcvValidator

namespace FeedArbitrator

variable {ρ : Type} [Inhabited ρ] {w : PowTwo}

/-- The reorder ring between two calls: it holds sequences strictly ahead of the frontier and
within the window, each in the slot of its low bits, and `occupied` counts them. -/
structure RingSettled (a : FeedArbitrator ρ w) : Prop where
  counted : a.occupied.toNat = a.occupiedSlots.card
  placed : ∀ i, (a.buf i).occupied = true → (a.buf i).seq.toNat % w.size = i
  ahead : ∀ i, (a.buf i).occupied = true → a.frontier.toNat < (a.buf i).seq.toNat
  within : ∀ i, (a.buf i).occupied = true →
    (a.buf i).seq.toNat < a.frontier.toNat + w.size

/-- The call of `offer` with this packet comes to the test of its slot, in the state `mid`. -/
def TestsSlot (pkt : FeedPacket ρ) (st mid : FeedSession ρ w) : Prop :=
  ¬pkt.seq < (anchor pkt.seq st).1.frontier ∧
    ¬kMaxGap < pkt.seq - (anchor pkt.seq st).1.frontier ∧
    ∃ room, makeRoom pkt.seq (anchor pkt.seq st) = some room ∧ mid = noteDepth pkt.seq room

theorem TestsSlot.offer_eq {pkt : FeedPacket ρ} {st mid : FeedSession ρ w}
    (h : TestsSlot pkt st mid) : offer pkt st = place pkt mid := by
  obtain ⟨hlate, hwild, room, hroom, rfl⟩ := h
  simp [offer, hlate, hwild, hroom]

section Settled

variable {a : FeedArbitrator ρ w}

/-- Slots with the same sequence are the same slot. -/
theorem RingSettled.slot_unique (h : a.RingSettled) {i j : Fin w.size}
    (hi : (a.buf i).occupied = true) (hj : (a.buf j).occupied = true)
    (hseq : (a.buf i).seq = (a.buf j).seq) : i = j := by
  apply Fin.ext
  rw [← h.placed i hi, ← h.placed j hj, hseq]

/-- The only sequence of the window in the frontier's slot is the frontier itself. -/
theorem RingSettled.frontSlot_free (h : a.RingSettled) : a.frontSlot.occupied = false := by
  by_contra hocc
  have hocc : (a.buf (w.index a.frontier)).occupied = true := by simpa [frontSlot] using hocc
  have hahead := h.ahead _ hocc
  have hmod := h.placed _ hocc
  rw [w.index_eq_slotOf] at hocc hahead hmod
  have := eq_of_mod_eq_of_window hahead.le (h.within _ hocc) le_rfl
    (Nat.lt_add_of_pos_right w.size_pos) hmod
  omega

end Settled

section Run

variable {st : FeedSession ρ w} {a : Arbiter ρ}

theorem Refines.ringSettled (h : Refines st a) (hset : a.Settled w.size) : st.1.RingSettled where
  counted := by
    have hcard : st.1.occupiedSlots.card ≤ w.size := by
      simpa using Finset.card_le_univ st.1.occupiedSlots
    have hfits := w.fits
    rw [h.occupied, UInt64.toNat_ofNat_of_lt' (show _ < 2 ^ 64 by omega)]
  placed := fun i hi => congrArg Fin.val (h.placed i hi)
  ahead := by
    intro i hi
    have hread := h.read_slot hi
    have hle := (h.within (st.1.buf i).seq.toNat (by simp [hread])).1
    rw [h.frontier]
    refine lt_of_le_of_ne hle fun heq => ?_
    rw [← heq, hset.hole] at hread
    cases hread
  within := by
    intro i hi
    rw [h.frontier]
    exact (h.within (st.1.buf i).seq.toNat (by simp [h.read_slot hi])).2

/-- At the slot test the packet fits the window, so the slot holds it or nothing. -/
theorem Refines.testsSlot (h : Refines st a) {pkt : FeedPacket ρ}
    (hseq : pkt.seq.toNat ≤ 2 ^ 64 - 2) {mid : FeedSession ρ w} (hmid : TestsSlot pkt st mid)
    (hocc : (mid.1.buf (w.index pkt.seq)).occupied = true) :
    (mid.1.buf (w.index pkt.seq)).seq = pkt.seq := by
  obtain ⟨hlate, hwild, room, hroom, rfl⟩ := hmid
  have hanc := refines_anchor h pkt.seq
  rw [UInt64.lt_iff_toNat_lt, hanc.frontier, not_lt] at hlate
  have hgap : pkt.seq.toNat ≤ (a.anchor pkt.seq.toNat).frontier + Arbiter.maxGap := by
    rw [UInt64.lt_iff_toNat_lt, hanc.toNat_sub_frontier hlate] at hwild
    change ¬Arbiter.maxGap < _ at hwild
    omega
  obtain ⟨room', hroom', href⟩ := refines_makeRoom hanc hseq hlate hgap
  obtain rfl := Option.some.inj (hroom.symm.trans hroom')
  obtain ⟨_, hle, hlt⟩ := Arbiter.makeRoom_frontier hanc.within w.size_pos hlate
  have hnoted := refines_noteDepth href hle
  rw [w.index_eq_slotOf] at hocc ⊢
  exact UInt64.toNat_inj.mp (hnoted.slot_seq_eq hle hlt hocc)

end Run

/-- In every state between calls the ring is settled: no two slots share a sequence, the
frontier's slot is free, and no `offer` finds a different sequence in its packet's slot. -/
theorem ring_settled {calls : List (FeedCall ρ)} (hc : ∀ c ∈ calls, c.Bounded) :
    ∃ st, run w calls = some st ∧ st.1.RingSettled ∧
      (∀ i j, (st.1.buf i).occupied = true → (st.1.buf j).occupied = true →
        (st.1.buf i).seq = (st.1.buf j).seq → i = j) ∧
      (st.1.buf (w.index st.1.frontier)).occupied = false ∧
      ∀ pkt : FeedPacket ρ, pkt.seq.toNat ≤ 2 ^ 64 - 2 → ∀ mid, TestsSlot pkt st mid →
        offer pkt st = place pkt mid ∧
          ((mid.1.buf (w.index pkt.seq)).occupied = true →
            (mid.1.buf (w.index pkt.seq)).seq = pkt.seq) := by
  obtain ⟨st, hrun, href⟩ := refines_run (w := w) hc
  have hset := href.ringSettled (Arbiter.settled_run w.size_pos calls)
  refine ⟨st, hrun, hset, fun i j => hset.slot_unique, hset.frontSlot_free, ?_⟩
  intro pkt hseq mid hmid
  exact ⟨hmid.offer_eq, fun hocc => href.testsSlot hseq hmid hocc⟩

/-- Sequences 7, 9 and 12 in a ring of four slots. -/
def skipsAhead : List (FeedCall Nat) :=
  [.offer ⟨7, 0, 70⟩, .offer ⟨9, 0, 90⟩, .offer ⟨12, 1, 120⟩]

theorem ring_settled_skipsAhead :
    ∃ st, run PowTwo.four skipsAhead = some st ∧ st.1.RingSettled := by
  obtain ⟨st, hrun, hset, _⟩ := ring_settled (w := PowTwo.four)
    (show ∀ c ∈ skipsAhead, c.Bounded by decide)
  exact ⟨st, hrun, hset⟩

end FeedArbitrator

end OhlcvValidator
