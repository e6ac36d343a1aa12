import OhlcvValidator.ArbiterCalls
import OhlcvValidator.ArbiterHistory

namespace OhlcvValidator

namespace Arbiter

variable {ρ : Type} {window s : Nat} {ln : Fin 2} {r : ρ} {a : Arbiter ρ}

/-- Everything held lies within the recorded depth and within what is still believed. -/
def Shallow (a : Arbiter ρ) : Prop :=
  ∀ s, a.pending s ≠ none → s ≤ a.frontier + a.maxReorder ∧ s ≤ a.frontier + maxGap

theorem shallow_fresh : (fresh : Arbiter ρ).Shallow :=
  fun _ h => absurd rfl h

theorem Shallow.passTo (h : a.Shallow) {g : Nat} (hg : a.frontier ≤ g) : (a.passTo g).Shallow := by
  intro t ht
  by_cases hlt : t < g
  · simp [Arbiter.passTo, hlt] at ht
  · simp only [Arbiter.passTo, hlt, if_false] at ht ⊢
    have := h t ht
    omega

theorem Shallow.anchor (h : a.Shallow) (hset : a.Settled window) (s : Nat) :
    (a.anchor s).Shallow := by
  cases hs : a.started with
  | true => simpa [Arbiter.anchor, hs] using h
  | false =>
    intro t ht
    simp only [Arbiter.anchor, hs, Bool.false_eq_true, if_false] at ht
    exact absurd ((hset.idle hs).1 t) ht

theorem Shallow.noteDepth (h : a.Shallow) (s : Nat) : (a.noteDepth s).Shallow := by
  intro t ht
  have := h t ht
  simp only [Arbiter.noteDepth]
  omega

/-- A message is held only after its own depth was noted. -/
theorem Shallow.hold (h : a.Shallow) (hmax : s ≤ a.frontier + maxGap) :
    ((a.noteDepth s).hold s r).Shallow := by
  intro t ht
  by_cases hts : t = s
  · subst hts
    simp only [Arbiter.hold, Arbiter.noteDepth]
    omega
  · exact h.noteDepth s t (by simpa [Arbiter.hold, hts] using ht)

theorem shallow_offer (h : a.Shallow) (hset : a.Settled window) (hw : 0 < window) :
    (a.offer window s ln r).Shallow := by
  have hb := h.anchor hset s
  have hbset := hset.anchor s
  have hcases := offer_cases hset hw s ln r
  generalize a.offer window s ln r = a' at hcases ⊢
  cases hcases with
  | late _ => exact hb
  | wild _ => exact hb
  | copy _ _ _ => exact hb.noteDepth s
  | held _ hgap _ hg hgs hs _ =>
    have hwithin := Within.hold (r := r) (hbset.within.passTo hg) hgs hs
    exact ((hb.passTo hg).hold (hgap.trans (Nat.add_le_add_right hg _))).passTo
      (le_firstHole hwithin.finiteBelow _)

theorem shallow_call (h : a.Shallow) (hset : a.Settled window) (hw : 0 < window)
    (c : FeedCall ρ) : (a.call window c).Shallow := by
  cases c with
  | offer pkt => exact shallow_offer h hset hw
  | flush => exact h.passTo (le_pendingEnd hset.within.finiteBelow _)

theorem shallow_run (hw : 0 < window) (calls : List (FeedCall ρ)) :
    (run window calls).Shallow := by
  induction calls using List.reverseRecOn with
  | nil => exact shallow_fresh
  | append_singleton calls c ih =>
    rw [run, List.foldl_append]
    exact shallow_call ih (settled_run hw calls) hw c

theorem offer_maxReorder_le (h : a.Settled window) (hw : 0 < window) :
    a.maxReorder ≤ (a.offer window s ln r).maxReorder := by
  have hanc : (a.anchor s).maxReorder = a.maxReorder := by
    cases hs : a.started <;> simp [anchor, hs]
  have hcases := offer_cases h hw s ln r
  generalize a.offer window s ln r = a' at hcases ⊢
  rw [← hanc]
  cases hcases with
  | late _ => exact le_rfl
  | wild _ => exact le_rfl
  | copy _ _ _ => exact le_max_left _ _
  | held _ _ _ _ _ _ _ => exact le_max_left _ _

/-- A forced pass to `g` leaves the new packet at depth `s - g`, and what it passed without
a gap was noted at depth `g - 1` past the old frontier: one of the two is half a window. -/
theorem offer_forces (h : a.Shallow) (hset : a.Settled window) (hw : 0 < window) :
    (a.offer window s ln r).gaps = a.gaps ∨
      window / 2 ≤ (a.offer window s ln r).maxReorder := by
  have hb := h.anchor hset s
  have hbset := hset.anchor s
  have hanc : (a.anchor s).gaps = a.gaps := by
    cases hs : a.started <;> simp [anchor, hs]
  have hcases := offer_cases hset hw s ln r
  generalize a.offer window s ln r = a' at hcases ⊢
  generalize a.anchor s = b at hb hbset hanc hcases
  rw [← hanc]
  cases hcases with
  | late _ => exact Or.inl rfl
  | wild _ => exact Or.inl rfl
  | copy _ _ _ => exact Or.inl rfl
  | @held g _ _ _ hg hgs hs htarget =>
    rcases htarget with ⟨hfar, htarget⟩ | ⟨_, rfl⟩
    · right
      change window / 2 ≤ max b.maxReorder (s - g)
      by_cases hroom : g = s + 1 - window
      · omega
      · have hge := le_firstHole hbset.within.finiteBelow (s + 1 - window)
        have hp : b.pending (g - 1) ≠ none :=
          ne_none_of_lt_firstHole (q := s + 1 - window) (by omega) (by omega)
        have := (hb (g - 1) hp).1
        omega
    · left
      rw [release_gaps, passTo_self hbset.within]
      rfl

theorem run_offers_gaps (hw : 0 < window) (pkts : List (FeedPacket ρ)) :
    (run window (pkts.map .offer)).gaps = 0 ∨
      window / 2 ≤ (run window (pkts.map .offer)).maxReorder := by
  induction pkts using List.reverseRecOn with
  | nil => exact Or.inl rfl
  | append_singleton pkts pkt ih =>
    have hset := settled_run hw (pkts.map (FeedCall.offer (ρ := ρ)))
    have hshallow := shallow_run hw (pkts.map (FeedCall.offer (ρ := ρ)))
    rw [List.map_append, run, List.foldl_append]
    change (offer _ _ _ _ (run _ _)).gaps = 0 ∨ _ ≤ (offer _ _ _ _ (run _ _)).maxReorder
    rcases ih with hz | hdeep
    · exact (offer_forces hshallow hset hw).imp_left fun hsame => hsame.trans hz
    · exact Or.inr (hdeep.trans (offer_maxReorder_le hset hw))

section Tight

/-- With its frontier missing, an arbiter only holds what comes next. -/
theorem offer_ahead (hset : a.Settled window) (hst : a.started = true) (hlt : a.frontier < s)
    (hroom : s < a.frontier + window) (hgap : s ≤ a.frontier + maxGap)
    (hp : a.pending s = none) : a.offer window s ln r = (a.noteDepth s).hold s r := by
  have hwithin : ((a.noteDepth s).hold s r).Within window := hset.within.hold hlt.le hroom
  have hfront : ((a.noteDepth s).hold s r).pending a.frontier = none := by
    simp [hold, noteDepth, hlt.ne, hset.hole]
  have hhole : firstHole ((a.noteDepth s).hold s r).pending a.frontier = a.frontier :=
    le_antisymm (firstHole_le le_rfl hfront) (le_firstHole hwithin.finiteBelow _)
  have hanc : a.anchor s = a := by simp [anchor, hst]
  simp only [offer, hanc, makeRoom]
  rw [if_neg (by omega), if_neg (by omega), if_neg (by omega), place, if_pos (by exact hp), release]
  change ((a.noteDepth s).hold s r).passTo
    (firstHole ((a.noteDepth s).hold s r).pending a.frontier) = _
  rw [hhole]
  exact passTo_self hwithin

/-- The arbiter waits for sequence 1 and holds the next `k` ones. -/
structure AwaitsOne (k : Nat) (a : Arbiter ρ) : Prop where
  started : a.started = true
  frontier : a.frontier = 1
  held : ∀ s, a.pending s ≠ none ↔ 2 ≤ s ∧ s < k + 2
  gaps : a.gaps = 0
  maxReorder : a.maxReorder = k

theorem awaitsOne_first (hw : 0 < window) :
    AwaitsOne 0 ((fresh : Arbiter ρ).offer window 0 ln r) := by
  have hset : (fresh : Arbiter ρ).Settled window := settled_fresh
  have hwithin : (((fresh : Arbiter ρ).anchor 0).hold 0 r).Within window :=
    (hset.anchor 0).within.hold le_rfl (by simpa [anchor, fresh] using hw)
  have hnone := firstHole_none hwithin.finiteBelow 0
  have hhole : firstHole (((fresh : Arbiter ρ).anchor 0).hold 0 r).pending 0 = 1 := by
    refine le_antisymm (firstHole_le (Nat.zero_le _) rfl) (Nat.one_le_iff_ne_zero.mpr ?_)
    intro hz
    rw [hz] at hnone
    cases hnone
  have hoffer : (fresh : Arbiter ρ).offer window 0 ln r =
      (((fresh : Arbiter ρ).anchor 0).hold 0 r).release := by
    have hfront : ((fresh : Arbiter ρ).anchor 0).frontier = 0 := rfl
    rw [offer, makeRoom, hfront, if_neg (by omega), if_neg (by omega), if_neg (by omega), place,
      if_pos (by rfl)]
    rfl
  rw [hoffer]
  refine ⟨rfl, hhole, ?_, release_gaps _, rfl⟩
  intro t
  change (if t < firstHole (((fresh : Arbiter ρ).anchor 0).hold 0 r).pending 0 then none
    else (((fresh : Arbiter ρ).anchor 0).hold 0 r).pending t) ≠ none ↔ _
  rw [hhole]
  refine iff_of_false (not_not_intro ?_) (by omega)
  by_cases ht : t = 0
  · simp [ht]
  · simp [hold, anchor, fresh, ht]

theorem AwaitsOne.next {k : Nat} (h : a.AwaitsOne k) (hset : a.Settled window)
    (hroom : k + 1 < window) (hgap : k + 1 ≤ maxGap) :
    AwaitsOne (k + 1) (a.offer window (k + 2) ln r) := by
  have hp : a.pending (k + 2) = none := by
    by_contra hn
    have := (h.held _).mp hn
    omega
  have hf := h.frontier
  rw [offer_ahead hset h.started (by omega) (by omega) (by omega) hp]
  refine ⟨h.started, hf, ?_, h.gaps, ?_⟩
  · intro t
    by_cases ht : t = k + 2
    · simp [hold, ht]
    · simp only [hold, noteDepth, Function.update_of_ne ht, h.held]
      omega
  · simp only [hold, noteDepth, h.maxReorder, hf]
    omega

theorem AwaitsOne.forced {k : Nat} (h : a.AwaitsOne k) (hset : a.Settled window)
    (hk : k < window) (hgap : window ≤ maxGap) :
    (a.offer window (window + 1) ln r).gaps = 1 ∧
      (a.offer window (window + 1) ln r).maxReorder = max k (window - k - 1) := by
  have hcases := offer_cases hset (by omega) (window + 1) ln r
  have hanc : a.anchor (window + 1) = a := by simp [anchor, h.started]
  have hf := h.frontier
  rw [hanc] at hcases
  generalize a.offer window (window + 1) ln r = a' at hcases ⊢
  cases hcases with
  | late hlate => omega
  | wild hwild => omega
  | copy _ _ hp =>
    have := (h.held _).mp hp
    omega
  | @held g _ _ _ hg hgs hs htarget =>
    have hg : g = k + 2 := by
      rcases htarget with ⟨_, rfl⟩ | ⟨hnear, _⟩
      · have htwo : window + 1 + 1 - window = 2 := by omega
        rw [htwo]
        have hend : a.pending (k + 2) = none := by
          by_contra hn
          have := (h.held _).mp hn
          omega
        have hle : firstHole a.pending 2 ≤ k + 2 := firstHole_le (by omega) hend
        have hge := le_firstHole hset.within.finiteBelow 2
        by_contra hne
        exact (h.held _).mpr ⟨hge, by omega⟩ (firstHole_none hset.within.finiteBelow 2)
      · omega
    subst hg
    have hone : a.pending 1 = none := hf ▸ hset.hole
    have hkeys := entriesBetween_keys (p := a.pending) (f := 2) (g := k + 2)
      fun s hs hsk => (h.held s).mpr ⟨hs, hsk⟩
    have hlen := congrArg List.length hkeys
    rw [List.length_map, List.length_range'] at hlen
    refine ⟨?_, ?_⟩
    · rw [release_gaps]
      change a.gaps + (k + 2 - a.frontier - (entriesBetween a.pending a.frontier (k + 2)).length) = 1
      rw [hf, entriesBetween_succ _ (by omega), hone, h.gaps]
      simp only [Option.map_none, Option.toList_none, List.nil_append, hlen]
      omega
    · change max a.maxReorder (window + 1 - (k + 2)) = _
      rw [h.maxReorder]
      omega

end Tight

end Arbiter

namespace FeedArbitrator

variable {ρ : Type} [Inhabited ρ] {w : PowTwo}

/-- Sequence 0, then the `k` sequences that follow the missing sequence 1. -/
def missingOne (ρ : Type) [Inhabited ρ] : Nat → List (FeedPacket ρ)
  | 0 => [⟨0, Line.A.toByte, default⟩]
  | k + 1 => missingOne ρ k ++ [⟨UInt64.ofNat (k + 2), Line.A.toByte, default⟩]

theorem toNat_ofNat_near {n : Nat} (hn : n ≤ Arbiter.maxGap + 1) : (UInt64.ofNat n).toNat = n := by
  have hmax := Arbiter.maxGap_eq
  exact UInt64.toNat_ofNat_of_lt' (show n < 2 ^ 64 by omega)

theorem awaitsOne_missingOne {k : Nat} (hk : k < w.size) (hgap : w.size ≤ Arbiter.maxGap) :
    Arbiter.AwaitsOne k (Arbiter.run w.size ((missingOne ρ k).map .offer)) := by
  induction k with
  | zero => exact Arbiter.awaitsOne_first w.size_pos
  | succ k ih =>
    rw [missingOne, List.map_append, Arbiter.run, List.foldl_append]
    change Arbiter.AwaitsOne (k + 1) (Arbiter.offer w.size (UInt64.ofNat (k + 2)).toNat _ _ _)
    rw [toNat_ofNat_near (by omega)]
    exact (ih (by omega)).next (Arbiter.settled_run w.size_pos _) hk (by omega)

theorem missingOne_bounded {k : Nat} (hk : k ≤ Arbiter.maxGap) :
    ∀ p ∈ missingOne ρ k, p.seq.toNat ≤ 2 ^ 64 - 2 := by
  have hmax := Arbiter.maxGap_eq
  induction k with
  | zero =>
    intro p hp
    obtain rfl := List.mem_singleton.mp hp
    exact Nat.zero_le _
  | succ k ih =>
    have hnat : (UInt64.ofNat (k + 2)).toNat = k + 2 := toNat_ofNat_near (by omega)
    intro p hp
    rcases List.mem_append.mp hp with hp | hp
    · exact ih (by omega) p hp
    · obtain rfl := List.mem_singleton.mp hp
      change (UInt64.ofNat (k + 2)).toNat ≤ 2 ^ 64 - 2
      omega

/-- With half a window held behind the missing sequence, the first one that no longer fits. -/
def jumpOverOne (ρ : Type) [Inhabited ρ] (w : PowTwo) : List (FeedPacket ρ) :=
  missingOne ρ (w.size / 2) ++ [⟨UInt64.ofNat (w.size + 1), Line.A.toByte, default⟩]

theorem jumpOverOne_bounded (hgap : w.size ≤ Arbiter.maxGap) :
    ∀ p ∈ jumpOverOne ρ w, p.seq.toNat ≤ 2 ^ 64 - 2 := by
  have hmax := Arbiter.maxGap_eq
  have hnat : (UInt64.ofNat (w.size + 1)).toNat = w.size + 1 := toNat_ofNat_near (by omega)
  intro p hp
  rcases List.mem_append.mp hp with hp | hp
  · exact missingOne_bounded (by omega) p hp
  · obtain rfl := List.mem_singleton.mp hp
    change (UInt64.ofNat (w.size + 1)).toNat ≤ 2 ^ 64 - 2
    omega

theorem run_jumpOverOne (hgap : w.size ≤ Arbiter.maxGap) :
    (Arbiter.run w.size ((jumpOverOne ρ w).map .offer)).gaps = 1 ∧
      (Arbiter.run w.size ((jumpOverOne ρ w).map .offer)).maxReorder = w.size / 2 := by
  have htwo := w.two_le
  have hhalf : w.size / 2 < w.size := by omega
  rw [jumpOverOne, List.map_append, Arbiter.run, List.foldl_append]
  change (Arbiter.offer w.size (UInt64.ofNat (w.size + 1)).toNat _ _ (Arbiter.run _ _)).gaps = 1 ∧
    (Arbiter.offer w.size (UInt64.ofNat (w.size + 1)).toNat _ _ (Arbiter.run _ _)).maxReorder = _
  rw [toNat_ofNat_near (by omega)]
  obtain ⟨hgaps, hdepth⟩ := (awaitsOne_missingOne (ρ := ρ) hhalf hgap).forced
    (Arbiter.settled_run w.size_pos _) hhalf hgap
  exact ⟨hgaps, hdepth.trans (by omega)⟩

omit [Inhabited ρ] in
theorem offers_bounded {pkts : List (FeedPacket ρ)} (hp : ∀ p ∈ pkts, p.seq.toNat ≤ 2 ^ 64 - 2) :
    ∀ c ∈ pkts.map FeedCall.offer, c.Bounded := by
  intro c hc
  obtain ⟨p, hm, rfl⟩ := List.mem_map.mp hc
  exact hp p hm

/-- A gap that an `offer` declares shows in `maxReorder` as at least half the window. No
larger bound holds for any window up to `kMaxGap`: the depth is noted after the forced advance,
which may have released a run and left the frontier close. -/
theorem forced_gap_depth (w : PowTwo) :
    (∀ pkts : List (FeedPacket ρ), (∀ p ∈ pkts, p.seq.toNat ≤ 2 ^ 64 - 2) →
      ∃ a sink, run w (pkts.map .offer) = some (a, sink) ∧
        (a.stats.gaps ≠ 0 → w.size / 2 ≤ a.stats.maxReorder.toNat)) ∧
    (w.size ≤ kMaxGap.toNat → ∃ pkts : List (FeedPacket ρ),
      (∀ p ∈ pkts, p.seq.toNat ≤ 2 ^ 64 - 2) ∧
      ∃ a sink, run w (pkts.map .offer) = some (a, sink) ∧
        a.stats.gaps ≠ 0 ∧ a.stats.maxReorder.toNat = w.size / 2) := by
  refine ⟨fun pkts hp => ?_, fun hgap => ?_⟩
  · obtain ⟨⟨a, sink⟩, hrun, href⟩ := refines_run (w := w) (offers_bounded hp)
    refine ⟨a, sink, hrun, fun hne => ?_⟩
    rw [href.maxReorder]
    refine (Arbiter.run_offers_gaps w.size_pos pkts).resolve_left fun hz => hne ?_
    rw [href.gaps, hz]
    rfl
  · have hp := jumpOverOne_bounded (ρ := ρ) hgap
    obtain ⟨⟨a, sink⟩, hrun, href⟩ := refines_run (w := w) (offers_bounded hp)
    obtain ⟨hgaps, hdepth⟩ := run_jumpOverOne (ρ := ρ) hgap
    refine ⟨_, hp, a, sink, hrun, ?_, href.maxReorder.trans hdepth⟩
    rw [href.gaps, hgaps]
    decide

/-- Sequence 1 is missing, and 2 and 3 are held when 5 no longer fits. -/
def fiveOverOne : List (FeedPacket Nat) :=
  [⟨0, 0, 10⟩, ⟨2, 0, 12⟩, ⟨3, 1, 13⟩, ⟨5, 0, 15⟩]

theorem forced_gap_depth_fiveOverOne :
    ∃ a sink, run PowTwo.four (fiveOverOne.map .offer) = some (a, sink) ∧
      a.stats.gaps ≠ 0 ∧ PowTwo.four.size / 2 ≤ a.stats.maxReorder.toNat := by
  obtain ⟨a, sink, hrun, hdepth⟩ := (forced_gap_depth PowTwo.four).1 fiveOverOne (by decide)
  have hgaps : (run PowTwo.four (fiveOverOne.map .offer)).map (fun st => st.1.stats.gaps) =
      some 1 := by decide +kernel
  rw [hrun] at hgaps
  have hone : a.stats.gaps = 1 := Option.some.inj hgaps
  have hne : a.stats.gaps ≠ 0 := by
    rw [hone]
    decide
  exact ⟨a, sink, hrun, hne, hdepth hne⟩

/-- When 5 comes, 1 is declared lost and 2 and 3 are released, so that 5 is one past the
frontier: no depth above 2 is ever noted. -/
theorem forced_gap_below_window :
    (∀ p ∈ fiveOverOne, p.seq.toNat ≤ 2 ^ 64 - 2) ∧
    (run PowTwo.four (fiveOverOne.map .offer)).map
      (fun st => (st.1.stats.gaps, st.1.stats.maxReorder)) = some (1, 2) ∧
    (2 : UInt64).toNat < PowTwo.four.size - 1 :=
  ⟨by decide, by decide +kernel, by decide⟩

end FeedArbitrator

end OhlcvValidator
