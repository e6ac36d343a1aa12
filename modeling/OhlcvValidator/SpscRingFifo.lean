import OhlcvValidator.BoundedLoop
import OhlcvValidator.SpscRingCoherent

namespace OhlcvValidator

namespace SpscRing

variable {T : Type} {w : PowTwo}

theorem coherent_run {cacheFarCursor : Bool} {buf : Fin w.size → T} {actions : List (Action T)}
    {s : Session T w} (hrun : run cacheFarCursor buf actions = some s) :
    Coherent cacheFarCursor s := by
  exact foldlM_invariant (I := Coherent cacheFarCursor) (fun _ _ _ h hs => h.step hs)
    (coherent_fresh cacheFarCursor buf) hrun

/-- A slot that a step writes holds no outstanding item. -/
theorem Coherent.writtenSlot_free {cacheFarCursor : Bool} {s : Session T w}
    (h : Coherent cacheFarCursor s) (a : Action T) :
    ∀ p ∈ outstanding s, writtenSlot s a ≠ some p.2 := by
  intro p hp hw
  unfold writtenSlot at hw
  split at hw
  next =>
    split at hw
    next item t hpc =>
      have hok : t = s.ring.tail ∧ s.pushed.length < s.headSeen + w.size := by
        simpa [ProducerOk, hpc] using h.producer_ok
      obtain ⟨ht, hfree⟩ := hok
      obtain ⟨j, hj⟩ := List.mem_iff_getElem?.mp hp
      rw [outstanding, List.getElem?_drop] at hj
      have hlt := (List.getElem?_eq_some_iff.mp hj).1
      have hslot := Option.some.inj hw
      rw [h.slots _ p hj, ht, h.tail_eq, w.index_ofNat] at hslot
      exact h.slot_free hfree (Nat.le_add_right _ _) hlt hslot.symm
    next => simp at hw
  next => simp at hw

/-- In every interleaving of any length the popped items are a prefix of the pushed ones, at
most `Capacity` are outstanding, and no step writes the slot of an outstanding item. -/
theorem spsc_fifo {cacheFarCursor : Bool} {buf : Fin w.size → T} {actions : List (Action T)}
    {s : Session T w} (hrun : run cacheFarCursor buf actions = some s) :
    s.popped <+: s.pushed.map Prod.fst ∧
      (outstanding s).length ≤ w.size ∧
      ∀ a s', step cacheFarCursor s a = some s' →
        ∀ p ∈ outstanding s, writtenSlot s a ≠ some p.2 := by
  have h := coherent_run hrun
  refine ⟨?_, ?_, fun a _ _ => h.writtenSlot_free a⟩
  · rw [h.popped_eq]
    exact List.take_prefix _ _
  · rw [outstanding, List.length_drop]
    have hroom := h.room
    have hseen := h.headSeen_le
    omega

def twoPushesOnePop : List (Action Nat) :=
  [.readTail 7, .trustHead, .writeSlot, .readHead, .publishTail, .viewTail 1, .readSlot,
    .readTail 8, .trustHead, .publishHead, .writeSlot, .publishTail]

/-- One item goes through a ring of four slots and a second one is published. -/
theorem spsc_fifo_twoPushesOnePop :
    ∃ s : Session Nat PowTwo.four, run true (fun _ => 0) twoPushesOnePop = some s ∧
      s.popped = [7] ∧ s.popped <+: s.pushed.map Prod.fst ∧ (outstanding s).length ≤ 4 := by
  have hpopped : (run (w := PowTwo.four) true (fun _ => 0) twoPushesOnePop).map
      (fun s => s.popped) = some [7] := by decide
  obtain ⟨s, hs, he⟩ := Option.map_eq_some_iff.mp hpopped
  obtain ⟨hfifo, hroom, _⟩ := spsc_fifo hs
  exact ⟨s, hs, he, hfifo, hroom⟩

end SpscRing

end OhlcvValidator
