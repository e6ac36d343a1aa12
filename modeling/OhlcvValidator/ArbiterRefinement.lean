import OhlcvValidator.Arbiter

namespace OhlcvValidator

namespace FeedArbitrator

variable {ρ : Type} [Inhabited ρ] {w : PowTwo}

/-- What a ring slot holds for a given sequence. -/
def Slot.read (slot : Slot ρ) (s : Nat) : Option ρ :=
  if slot.occupied = true ∧ slot.seq.toNat = s then some slot.record else none

/-- What the ring holds for a given sequence. -/
def view (a : FeedArbitrator ρ w) (s : Nat) : Option ρ :=
  (a.buf (w.slotOf s)).read s

def occupiedSlots (a : FeedArbitrator ρ w) : Finset (Fin w.size) :=
  Finset.univ.filter fun i => (a.buf i).occupied = true

/-- The code's state represents an abstract arbiter. Counters agree as machine words. -/
structure Refines (st : FeedSession ρ w) (a : Arbiter ρ) : Prop where
  frontier : st.1.frontier.toNat = a.frontier
  started : st.1.started = a.started
  pending : ∀ s, st.1.view s = a.pending s
  placed : ∀ i, (st.1.buf i).occupied = true → w.slotOf (st.1.buf i).seq.toNat = i
  below : ∀ s, a.pending s ≠ none → s ≤ 2 ^ 64 - 2
  within : a.Within w.size
  idle : a.started = false → ∀ s, a.pending s = none
  occupied : st.1.occupied = UInt64.ofNat st.1.occupiedSlots.card
  sink : st.2.map (fun e => (e.1.toNat, e.2)) = a.sent
  delivered : st.1.stats.delivered = UInt64.ofNat a.sent.length
  gaps : st.1.stats.gaps = UInt64.ofNat a.gaps
  duplicates : ∀ ln, st.1.stats.duplicates ln = UInt64.ofNat (a.duplicates ln)
  maxReorder : st.1.stats.maxReorder.toNat = a.maxReorder
  rejected : st.1.stats.rejected = UInt64.ofNat a.rejected

theorem refines_fresh : Refines (({} : FeedArbitrator ρ w), []) (Arbiter.fresh : Arbiter ρ) where
  frontier := rfl
  started := rfl
  pending := fun _ => rfl
  placed := fun _ h => by simp at h
  below := fun _ h => absurd rfl h
  within := fun _ h => absurd rfl h
  idle := fun _ _ => rfl
  occupied := by simp [occupiedSlots]
  sink := rfl
  delivered := rfl
  gaps := rfl
  duplicates := fun _ => rfl
  maxReorder := rfl
  rejected := rfl

section Update

variable {a b : FeedArbitrator ρ w} {i : Fin w.size} {slot : Slot ρ}

theorem view_update (hb : b.buf = Function.update a.buf i slot) (s : Nat) :
    b.view s = if w.slotOf s = i then slot.read s else a.view s := by
  by_cases h : w.slotOf s = i
  · subst h
    simp [view, hb]
  · simp [h, view, hb]

theorem occupiedSlots_free (hb : b.buf = Function.update a.buf i slot)
    (hi : (a.buf i).occupied = true) (hs : slot.occupied = false) :
    b.occupiedSlots.card + 1 = a.occupiedSlots.card := by
  have herase : b.occupiedSlots = a.occupiedSlots.erase i := by
    ext j
    by_cases hj : j = i
    · subst hj
      simp [occupiedSlots, hb, hs]
    · simp [occupiedSlots, hb, hj]
  rw [herase]
  exact Finset.card_erase_add_one (by simp [occupiedSlots, hi])

theorem occupiedSlots_take (hb : b.buf = Function.update a.buf i slot)
    (hi : (a.buf i).occupied = false) (hs : slot.occupied = true) :
    b.occupiedSlots.card = a.occupiedSlots.card + 1 := by
  have hinsert : b.occupiedSlots = insert i a.occupiedSlots := by
    ext j
    by_cases hj : j = i
    · subst hj
      simp [occupiedSlots, hb, hs]
    · simp [occupiedSlots, hb, hj]
  rw [hinsert]
  exact Finset.card_insert_of_notMem (by simp [occupiedSlots, hi])

theorem placed_update (hb : b.buf = Function.update a.buf i slot)
    (ha : ∀ i, (a.buf i).occupied = true → w.slotOf (a.buf i).seq.toNat = i)
    (hs : slot.occupied = true → w.slotOf slot.seq.toNat = i) (j : Fin w.size)
    (hj : (b.buf j).occupied = true) : w.slotOf (b.buf j).seq.toNat = j := by
  by_cases hji : j = i
  · subst hji
    simp only [hb, Function.update_self] at hj ⊢
    exact hs hj
  · simp only [hb, Function.update_of_ne hji] at hj ⊢
    exact ha j hj

end Update

namespace Refines

variable {st : FeedSession ρ w} {a : Arbiter ρ}

/-- The unsigned distance to the frontier is the distance of a sequence that is not behind it. -/
theorem toNat_sub_frontier (h : Refines st a) {seq : UInt64} (hle : a.frontier ≤ seq.toNat) :
    (seq - st.1.frontier).toNat = seq.toNat - a.frontier := by
  rw [UInt64.toNat_sub_of_le _ _ (UInt64.le_iff_toNat_le.mpr (by rwa [h.frontier])), h.frontier]

theorem read_slot (h : Refines st a) {i : Fin w.size} (hi : (st.1.buf i).occupied = true) :
    a.pending (st.1.buf i).seq.toNat = some (st.1.buf i).record := by
  rw [← h.pending, view, h.placed i hi]
  simp [Slot.read, hi]

theorem slot_of_pending (h : Refines st a) {s : Nat} (hs : a.pending s ≠ none) :
    (st.1.buf (w.slotOf s)).occupied = true ∧ (st.1.buf (w.slotOf s)).seq.toNat = s := by
  by_contra hn
  apply hs
  rw [← h.pending, view, Slot.read, if_neg hn]

theorem frontReady_iff (h : Refines st a) :
    st.1.frontReady = true ↔ a.pending a.frontier ≠ none := by
  rw [frontReady, frontSlot, w.index_eq_slotOf, h.frontier, Bool.and_eq_true, beq_iff_eq,
    ← UInt64.toNat_inj, h.frontier, ← h.pending, view, Slot.read]
  split <;> simp_all

theorem frontSlot_record (h : Refines st a) (hr : st.1.frontReady = true) :
    a.pending a.frontier = some st.1.frontSlot.record := by
  have hne := h.frontReady_iff.mp hr
  rw [← h.pending, view, Slot.read, if_pos (h.slot_of_pending hne), frontSlot,
    w.index_eq_slotOf, h.frontier]

/-- No two sequences of one window share a slot, so a taken slot is a copy. -/
theorem slot_seq_eq (h : Refines st a) {s : Nat} (hs : a.frontier ≤ s)
    (hs' : s < a.frontier + w.size) (hocc : (st.1.buf (w.slotOf s)).occupied = true) :
    (st.1.buf (w.slotOf s)).seq.toNat = s := by
  have hp : a.pending (st.1.buf (w.slotOf s)).seq.toNat ≠ none := by simp [h.read_slot hocc]
  have hin := h.within _ hp
  exact w.eq_of_slotOf_eq hin.1 hin.2 hs hs' (h.placed _ hocc)

theorem occupied_pos_iff (h : Refines st a) : 0 < st.1.occupied ↔ ∃ s, a.pending s ≠ none := by
  have hcard : st.1.occupiedSlots.card ≤ w.size := by
    simpa using Finset.card_le_univ st.1.occupiedSlots
  have hfits := w.fits
  have hnat : (UInt64.ofNat st.1.occupiedSlots.card).toNat = st.1.occupiedSlots.card := by
    rw [UInt64.toNat_ofNat']
    omega
  rw [h.occupied, UInt64.lt_iff_toNat_lt, hnat, UInt64.toNat_zero, Finset.card_pos]
  constructor
  · rintro ⟨i, hi⟩
    have hi : (st.1.buf i).occupied = true := by simpa [occupiedSlots] using hi
    exact ⟨(st.1.buf i).seq.toNat, by simp [h.read_slot hi]⟩
  · rintro ⟨s, hs⟩
    exact ⟨w.slotOf s, by simpa [occupiedSlots] using (h.slot_of_pending hs).1⟩

end Refines

end FeedArbitrator

end OhlcvValidator
