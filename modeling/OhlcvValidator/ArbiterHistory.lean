import OhlcvValidator.Arbiter

namespace OhlcvValidator

namespace Arbiter

variable {ρ : Type} {window s : Nat} {ln : Fin 2} {r : ρ} {a : Arbiter ρ}

/-- The arbiter has taken in `r` as the message with sequence `s`. -/
def Known (a : Arbiter ρ) (s : Nat) (r : ρ) : Prop :=
  (s, r) ∈ a.sent ∨ a.pending s = some r

/-- A packet with sequence `s` is taken in unless one is already there. -/
def Admits (a : Arbiter ρ) (s : Nat) : Prop :=
  a.started = false ∨ a.frontier ≤ s ∧ s ≤ a.frontier + maxGap

/-- What holds between calls. -/
structure Settled (window : Nat) (a : Arbiter ρ) : Prop where
  within : a.Within window
  behind : ∀ e ∈ a.sent, e.1 < a.frontier
  sorted : a.sent.Pairwise fun x y => x.1 < y.1
  hole : a.pending a.frontier = none
  idle : a.started = false → (∀ s, a.pending s = none) ∧ a.sent = []

theorem settled_fresh : (fresh : Arbiter ρ).Settled window where
  within := fun _ h => absurd rfl h
  behind := fun _ h => by simp [fresh] at h
  sorted := List.Pairwise.nil
  hole := rfl
  idle := fun _ => ⟨fun _ => rfl, rfl⟩

theorem known_passTo (h : a.Within window) {g t : Nat} {q : ρ} :
    (a.passTo g).Known t q ↔ a.Known t q := by
  simp only [Known, passTo, List.mem_append, mem_entriesBetween]
  constructor
  · rintro ((hm | ⟨_, _, hp⟩) | hp)
    · exact Or.inl hm
    · exact Or.inr hp
    · split at hp
      next => cases hp
      next => exact Or.inr hp
  · rintro (hm | hp)
    · exact Or.inl (Or.inl hm)
    · have hft := (h t (by simp [hp])).1
      by_cases ht : t < g
      · exact Or.inl (Or.inr ⟨hft, ht, hp⟩)
      · exact Or.inr (by simpa [ht] using hp)

theorem behind_passTo (h : ∀ e ∈ a.sent, e.1 < a.frontier) {g : Nat} (hg : a.frontier ≤ g) :
    ∀ e ∈ (a.passTo g).sent, e.1 < g := by
  rintro ⟨t, q⟩ hm
  rcases List.mem_append.mp hm with hm | hm
  · exact lt_of_lt_of_le (h _ hm) hg
  · exact (mem_entriesBetween.mp hm).2.1

theorem sorted_passTo (h : ∀ e ∈ a.sent, e.1 < a.frontier)
    (hs : a.sent.Pairwise fun x y => x.1 < y.1) (g : Nat) :
    (a.passTo g).sent.Pairwise fun x y => x.1 < y.1 := by
  refine List.pairwise_append.mpr ⟨hs, entriesBetween_sorted _ _ _, ?_⟩
  rintro x hx ⟨t, q⟩ hy
  exact lt_of_lt_of_le (h x hx) (mem_entriesBetween.mp hy).1

theorem Settled.anchor (h : a.Settled window) (s : Nat) : (a.anchor s).Settled window := by
  cases hs : a.started with
  | true => simpa [Arbiter.anchor, hs] using h
  | false =>
    obtain ⟨hp, hsent⟩ := h.idle hs
    simp only [Arbiter.anchor, hs, Bool.false_eq_true, if_false]
    exact ⟨fun t ht => absurd (hp t) ht, fun e he => by simp [hsent] at he, h.sorted, hp s,
      fun _ => ⟨hp, hsent⟩⟩

theorem admits_iff_anchor : a.Admits s ↔
    (a.anchor s).frontier ≤ s ∧ s ≤ (a.anchor s).frontier + maxGap := by
  cases hs : a.started <;> simp [Admits, Arbiter.anchor, hs]

theorem known_anchor {t : Nat} {q : ρ} : (a.anchor s).Known t q ↔ a.Known t q := by
  cases hs : a.started <;> simp [Known, Arbiter.anchor, hs]

/-- Everything an `offer` can do to an anchored arbiter. -/
inductive Offered (window : Nat) (b : Arbiter ρ) (s : Nat) (ln : Fin 2) (r : ρ) : Arbiter ρ → Prop
  | late : s < b.frontier → Offered window b s ln r (b.addDuplicate ln)
  | wild : b.frontier + maxGap < s → Offered window b s ln r b.addRejected
  | copy : b.frontier ≤ s → s ≤ b.frontier + maxGap → b.pending s ≠ none →
      Offered window b s ln r ((b.noteDepth s).addDuplicate ln)
  | held {g} : b.frontier ≤ s → s ≤ b.frontier + maxGap → b.pending s = none →
      b.frontier ≤ g → g ≤ s → s < g + window →
      (b.frontier + window ≤ s ∧ g = firstHole b.pending (s + 1 - window) ∨
        s < b.frontier + window ∧ g = b.frontier) →
      Offered window b s ln r (((b.passTo g).noteDepth s).hold s r).release

theorem offer_cases (h : a.Settled window) (hw : 0 < window) (s : Nat) (ln : Fin 2) (r : ρ) :
    Offered window (a.anchor s) s ln r (a.offer window s ln r) := by
  have hb := h.anchor s
  generalize hbe : a.anchor s = b at hb
  simp only [offer, hbe]
  by_cases hlate : s < b.frontier
  · rw [if_pos hlate]
    exact Offered.late hlate
  rw [if_neg hlate]
  by_cases hwild : b.frontier + maxGap < s
  · rw [if_pos hwild]
    exact Offered.wild hwild
  rw [if_neg hwild]
  have hle := not_lt.mp hlate
  by_cases hfar : b.frontier + window ≤ s
  · have htarget := makeRoom_target_le hb.within hw hfar
    have hroom := le_firstHole hb.within.finiteBelow (s + 1 - window)
    have hnone : b.pending s = none := hb.within.finiteBelow s hfar
    have hpass : (b.passTo (firstHole b.pending (s + 1 - window))).pending s = none := by
      rw [passTo_pending htarget, hnone]
    rw [makeRoom, if_pos hfar, place, if_pos (by exact hpass)]
    exact Offered.held hle (not_lt.mp hwild) hnone (by omega) htarget (by omega)
      (Or.inl ⟨hfar, rfl⟩)
  · rw [makeRoom, if_neg hfar, place]
    by_cases hp : b.pending s = none
    · rw [if_pos (by exact hp)]
      have hheld : Offered window b s ln r _ := Offered.held hle (not_lt.mp hwild) hp le_rfl hle
        (not_le.mp hfar) (Or.inr ⟨not_le.mp hfar, rfl⟩)
      rwa [passTo_self hb.within] at hheld
    · rw [if_neg (by exact hp)]
      exact Offered.copy hle (not_lt.mp hwild) hp

/-- A release passes nothing but held messages, so it declares no gap. -/
theorem release_gaps (a : Arbiter ρ) : a.release.gaps = a.gaps := by
  have hkeys := entriesBetween_keys (p := a.pending) (f := a.frontier)
    (g := firstHole a.pending a.frontier) fun s hs hsg => ne_none_of_lt_firstHole hs hsg
  have hlen := congrArg List.length hkeys
  rw [List.length_map, List.length_range'] at hlen
  simp only [release, passTo, hlen, Nat.sub_self, Nat.add_zero]

theorem Settled.release (hw : a.Within window) (hb : ∀ e ∈ a.sent, e.1 < a.frontier)
    (hs : a.sent.Pairwise fun x y => x.1 < y.1) (hst : a.started = true) :
    a.release.Settled window := by
  have hle := le_firstHole hw.finiteBelow a.frontier
  have hnone := firstHole_none hw.finiteBelow a.frontier
  refine ⟨hw.passTo hle, behind_passTo hb hle, sorted_passTo hb hs _, ?_, ?_⟩
  · exact (passTo_pending le_rfl).trans hnone
  · intro hst'
    change a.started = false at hst'
    rw [hst] at hst'
    cases hst'

theorem Settled.held (h : a.Settled window) (hst : a.started = true) {g : Nat}
    (hg : a.frontier ≤ g) (hgs : g ≤ s) (hs : s < g + window) :
    (((a.passTo g).noteDepth s).hold s r).release.Settled window :=
  Settled.release (Within.hold (h.within.passTo hg) hgs hs) (behind_passTo h.behind hg)
    (sorted_passTo h.behind h.sorted g) hst

theorem settled_offer (h : a.Settled window) (hw : 0 < window) :
    (a.offer window s ln r).Settled window := by
  have hb := h.anchor s
  have hst := a.anchor_started s
  have hcases := offer_cases h hw s ln r
  generalize a.offer window s ln r = a' at hcases ⊢
  cases hcases with
  | late _ => exact { hb with }
  | wild _ => exact { hb with }
  | copy _ _ _ => exact { hb with }
  | held _ _ _ hg hgs hs _ => exact hb.held hst hg hgs hs

theorem settled_flush (h : a.Settled window) : a.flush.Settled window := by
  have hle := le_pendingEnd h.within.finiteBelow a.frontier
  have hend := pendingEnd_finiteBelow h.within.finiteBelow a.frontier
  refine ⟨h.within.passTo hle, behind_passTo h.behind hle, sorted_passTo h.behind h.sorted _,
    (passTo_pending le_rfl).trans (hend _ le_rfl), ?_⟩
  intro hst
  obtain ⟨hp, hsent⟩ := h.idle hst
  refine ⟨fun s => ?_, ?_⟩
  · simp [flush, passTo, hp]
  · change a.sent ++ _ = []
    rw [hsent, entriesBetween_of_none fun s _ _ => hp s, List.append_nil]

theorem settled_call (h : a.Settled window) (hw : 0 < window) (c : FeedCall ρ) :
    (a.call window c).Settled window := by
  cases c with
  | offer pkt => exact settled_offer h hw
  | flush => exact settled_flush h

theorem settled_run (hw : 0 < window) (calls : List (FeedCall ρ)) :
    (run window calls).Settled window := by
  induction calls using List.reverseRecOn with
  | nil => exact settled_fresh
  | append_singleton calls c ih =>
    rw [run, List.foldl_append]
    exact settled_call ih hw c

theorem not_known_ahead (h : a.Settled window) (hs : a.frontier ≤ s) (hp : a.pending s = none)
    (q : ρ) : ¬a.Known s q := by
  rintro (hm | hq)
  · have := h.behind _ hm
    simp only at this
    omega
  · simp [hp] at hq

/-- An `offer` takes in its packet exactly when it is admitted and nothing is
known under its sequence; it never touches what is known already. -/
theorem known_offer (h : a.Settled window) (hw : 0 < window) {t : Nat} {q : ρ} :
    (a.offer window s ln r).Known t q ↔
      a.Known t q ∨ t = s ∧ q = r ∧ a.Admits s ∧ ∀ q', ¬a.Known s q' := by
  have hb := h.anchor s
  rw [admits_iff_anchor]
  simp only [← known_anchor (a := a) (s := s)]
  generalize hbe : a.anchor s = b at hb
  have hcases := offer_cases h hw s ln r
  rw [hbe] at hcases
  generalize a.offer window s ln r = a' at hcases ⊢
  cases hcases with
  | late hlate =>
    refine (or_iff_left ?_).symm
    rintro ⟨-, -, hadm, -⟩
    omega
  | wild hwild =>
    refine (or_iff_left ?_).symm
    rintro ⟨-, -, hadm, -⟩
    omega
  | copy _ _ hp =>
    refine (or_iff_left ?_).symm
    rintro ⟨-, -, -, hnew⟩
    obtain ⟨q', hq'⟩ := Option.ne_none_iff_exists'.mp hp
    exact hnew q' (Or.inr hq')
  | @held g hle hgap hp hg hgs hs _ =>
    have hwithin : (((b.passTo g).noteDepth s).hold s r).Within window :=
      Within.hold (hb.within.passTo hg) hgs hs
    have hrel : (((b.passTo g).noteDepth s).hold s r).release.Known t q ↔
        (((b.passTo g).noteDepth s).hold s r).Known t q :=
      known_passTo hwithin
    rw [hrel]
    have hnew := not_known_ahead hb hle hp
    by_cases hts : t = s
    · subst hts
      have hnot : ¬(t, q) ∈ (b.passTo g).sent := by
        intro hm
        exact hnew q ((known_passTo hb.within).mp (Or.inl hm))
      constructor
      · rintro (hm | hq)
        · exact absurd hm hnot
        · simp only [hold, Function.update_self, Option.some.injEq] at hq
          exact Or.inr ⟨rfl, hq.symm, ⟨hle, hgap⟩, hnew⟩
      · rintro (hk | ⟨-, rfl, -⟩)
        · exact absurd hk (hnew q)
        · exact Or.inr (by simp [hold])
    · have hsame : (((b.passTo g).noteDepth s).hold s r).Known t q ↔ (b.passTo g).Known t q := by
        simp [Known, hold, noteDepth, hts]
      rw [hsame, known_passTo hb.within]
      exact (or_iff_left fun hh => hts hh.1).symm

theorem known_flush (h : a.Settled window) {t : Nat} {q : ρ} : a.flush.Known t q ↔ a.Known t q :=
  known_passTo h.within

end Arbiter

end OhlcvValidator
