import OhlcvValidator.ArbiterBalance

namespace OhlcvValidator

namespace Arbiter

variable {ρ : Type} {window s t : Nat} {ln : Fin 2} {r : ρ} {a b : Arbiter ρ}

/-- What an `offer` that is not rejected does, whichever branch it takes. -/
structure Takes (window : Nat) (b : Arbiter ρ) (s : Nat) (r : ρ) (a : Arbiter ρ) : Prop where
  frontier_le : b.frontier ≤ a.frontier
  pending_eq : ∀ t, a.frontier ≤ t → a.pending t = (b.pending t).or (if t = s then some r else none)
  le_hole : ∀ x, b.frontier ≤ x → s < x + window → x ≠ s → b.pending x = none → a.frontier ≤ x
  in_window : b.frontier ≤ s → s < a.frontier + window
  hole : a.pending a.frontier = none

theorem takes_held (h : b.Settled window) {g : Nat} (hp : b.pending s = none)
    (hg : b.frontier ≤ g) (hgs : g ≤ s) (hs : s < g + window)
    (htarget : b.frontier + window ≤ s ∧ g = firstHole b.pending (s + 1 - window) ∨
      s < b.frontier + window ∧ g = b.frontier) :
    Takes window b s r (((b.passTo g).noteDepth s).hold s r).release := by
  let c := ((b.passTo g).noteDepth s).hold s r
  have hwithin : c.Within window := Within.hold (h.within.passTo hg) hgs hs
  have hgf : g ≤ firstHole c.pending g := le_firstHole hwithin.finiteBelow _
  have hc : ∀ t, g ≤ t → c.pending t = (b.pending t).or (if t = s then some r else none) := by
    intro t ht
    by_cases hts : t = s
    · subst hts
      simp [c, hold, hp]
    · have hold : c.pending t = (b.passTo g).pending t := by simp [c, Arbiter.hold, noteDepth, hts]
      rw [hold, passTo_pending ht]
      simp [hts]
  refine ⟨hg.trans hgf, ?_, ?_, ?_, ?_⟩
  · intro t ht
    change firstHole c.pending g ≤ t at ht
    change (c.passTo (firstHole c.pending g)).pending t = _
    rw [passTo_pending ht, hc t (hgf.trans ht)]
  · intro x hx hxw hxs hnone
    have hgx : g ≤ x := by
      rcases htarget with ⟨_, rfl⟩ | ⟨_, rfl⟩
      · exact firstHole_le (by omega) hnone
      · exact hx
    have hfree : c.pending x = none := by simp [hc x hgx, hnone, hxs]
    exact firstHole_le hgx hfree
  · intro _
    change s < firstHole c.pending g + window
    omega
  · change (c.passTo (firstHole c.pending g)).pending (firstHole c.pending g) = none
    rw [passTo_pending le_rfl]
    exact firstHole_none hwithin.finiteBelow g

theorem takes_offer (h : a.Settled window) (hw : 0 < window)
    (hnear : s ≤ (a.anchor s).frontier + maxGap) :
    Takes window (a.anchor s) s r (a.offer window s ln r) := by
  have hb := h.anchor s
  have hcases := offer_cases h hw s ln r
  generalize a.anchor s = b at hb hcases hnear
  generalize a.offer window s ln r = a' at hcases ⊢
  cases hcases with
  | late hlate =>
    refine ⟨le_rfl, ?_, fun x hx _ _ _ => hx, fun hle => by omega, hb.hole⟩
    intro t ht
    have hts : t ≠ s := by
      change b.frontier ≤ t at ht
      omega
    simp [addDuplicate, hts]
  | wild hwild => omega
  | copy hle _ hp =>
    refine ⟨le_rfl, ?_, fun x hx _ _ _ => hx, fun _ => (hb.within s hp).2, hb.hole⟩
    intro t _
    by_cases hts : t = s
    · subst hts
      obtain ⟨q, hq⟩ := Option.ne_none_iff_exists'.mp hp
      simp [addDuplicate, noteDepth, hq]
    · simp [addDuplicate, noteDepth, hts]
  | held _ _ hp hg hgs hs htarget => exact takes_held hb hp hg hgs hs htarget

theorem offer_started (h : a.Settled window) (hw : 0 < window) :
    (a.offer window s ln r).started = true := by
  have hst := a.anchor_started s
  have hcases := offer_cases h hw s ln r
  generalize a.offer window s ln r = a' at hcases ⊢
  cases hcases <;> exact hst

/-- Everything taken in lies below `t`, and a `flush` brings the frontier there. -/
structure ReachesTo (t : Nat) (a : Arbiter ρ) : Prop where
  frontier_le : a.frontier ≤ t
  below : FiniteBelow a.pending t
  last : a.frontier = t ∨ a.pending (t - 1) ≠ none

theorem ReachesTo.takes (h : b.ReachesTo t) (htake : Takes window b s r a) (hw : 0 < window) :
    a.ReachesTo (max t (s + 1)) := by
  have hfront := h.frontier_le
  have hle : a.frontier ≤ max t (s + 1) :=
    htake.le_hole _ (by omega) (by omega) (by omega) (h.below _ (le_max_left _ _))
  refine ⟨hle, ?_, ?_⟩
  · intro x hx
    rw [htake.pending_eq x (hle.trans hx), h.below x (by omega), if_neg (by omega)]
    rfl
  · by_cases hlast : a.frontier = max t (s + 1)
    · exact Or.inl hlast
    · right
      rw [htake.pending_eq _ (by omega)]
      by_cases hts : max t (s + 1) - 1 = s
      · rw [if_pos hts]
        simp
      · have hmax : max t (s + 1) = t := by omega
        have hne := htake.frontier_le
        rw [if_neg hts, Option.or_none, hmax]
        exact h.last.resolve_left (by omega)

theorem ReachesTo.flush_frontier (h : a.ReachesTo t) : a.flush.frontier = t := by
  change pendingEnd a.pending a.frontier = t
  apply le_antisymm (pendingEnd_le h.frontier_le h.below)
  rcases h.last with heq | hne
  · rw [← heq]
    exact le_pendingEnd h.below _
  · have := lt_pendingEnd (q := a.frontier) h.below hne
    omega

theorem ReachesTo.flush (h : a.ReachesTo t) : a.flush.ReachesTo t := by
  have hf := h.flush_frontier
  refine ⟨hf.le, ?_, Or.inl hf⟩
  intro x hx
  have hpend := passTo_pending (a := a) (g := pendingEnd a.pending a.frontier) (s := x)
    (hf.le.trans hx)
  exact hpend.trans (h.below x hx)

/-- The arbiter `b` with the larger window trails the arbiter `a` with the smaller one: it
knows whatever `a` knows, and ahead of `a`'s frontier they hold the same messages. -/
structure Trails (b a : Arbiter ρ) : Prop where
  started : b.started = a.started
  frontier_le : b.frontier ≤ a.frontier
  ahead : ∀ s, a.frontier ≤ s → b.pending s = a.pending s
  known : ∀ s r, a.Known s r → b.Known s r
  reach : ∃ t, a.ReachesTo t ∧ b.ReachesTo t

theorem trails_fresh : Trails (fresh : Arbiter ρ) fresh where
  started := rfl
  frontier_le := le_rfl
  ahead := fun _ _ => rfl
  known := fun _ _ h => h
  reach := ⟨0, ⟨le_rfl, fun _ _ => rfl, Or.inl rfl⟩, ⟨le_rfl, fun _ _ => rfl, Or.inl rfl⟩⟩

section Step

variable {w₁ w₂ : Nat}

theorem Trails.anchor (h : Trails b a) (ha : a.Settled w₁) (hb : b.Settled w₂) (s : Nat) :
    Trails (b.anchor s) (a.anchor s) := by
  have hstarted := h.started
  cases hs : a.started with
  | true =>
    rw [hs] at hstarted
    simpa [Arbiter.anchor, hs, hstarted] using h
  | false =>
    rw [hs] at hstarted
    have hpa := (ha.idle hs).1
    have hpb := (hb.idle hstarted).1
    refine ⟨?_, ?_, ?_, ?_, ⟨s, ?_, ?_⟩⟩
    · rw [anchor_started, anchor_started]
    · simp [Arbiter.anchor, hs, hstarted]
    · intro x _
      simp [Arbiter.anchor, hs, hstarted, hpa, hpb]
    · intro x q hq
      exact known_anchor.mpr (h.known x q (known_anchor.mp hq))
    · exact ⟨by simp [Arbiter.anchor, hs], fun x _ => by simp [Arbiter.anchor, hs, hpa],
        Or.inl (by simp [Arbiter.anchor, hs])⟩
    · exact ⟨by simp [Arbiter.anchor, hstarted], fun x _ => by simp [Arbiter.anchor, hstarted, hpb],
        Or.inl (by simp [Arbiter.anchor, hstarted])⟩

/-- The two frontiers after an `offer`: where the smaller window stops there is a hole for
the larger one too. -/
theorem Trails.frontier_takes {a' b' : Arbiter ρ} (h : Trails b a) (hle : w₁ ≤ w₂)
    (ha : Takes w₁ a s r a') (hb : Takes w₂ b s r b') : b'.frontier ≤ a'.frontier := by
  have hfa := ha.frontier_le
  have hpend := ha.pending_eq _ le_rfl
  rw [ha.hole] at hpend
  obtain ⟨hnone, hnew⟩ := Option.or_eq_none_iff.mp hpend.symm
  apply hb.le_hole _ (h.frontier_le.trans hfa)
  · by_cases hs : a.frontier ≤ s
    · have := ha.in_window hs
      omega
    · omega
  · intro heq
    rw [if_pos heq] at hnew
    simp at hnew
  · rw [h.ahead _ hfa, hnone]

theorem Trails.offer (h : Trails b a) (hle : w₁ ≤ w₂) (hw : 0 < w₁) (ha : a.Settled w₁)
    (hb : b.Settled w₂) (hnear : s ≤ (b.anchor s).frontier + maxGap) :
    Trails (b.offer w₂ s ln r) (a.offer w₁ s ln r) := by
  have hanc := h.anchor ha hb s
  have hf := hanc.frontier_le
  have hta : Takes w₁ (a.anchor s) s r (a.offer w₁ s ln r) := takes_offer ha hw (by omega)
  have htb : Takes w₂ (b.anchor s) s r (b.offer w₂ s ln r) := takes_offer hb (by omega) hnear
  have hfront := hanc.frontier_takes hle hta htb
  obtain ⟨t, hra, hrb⟩ := hanc.reach
  refine ⟨?_, hfront, ?_, ?_, ⟨max t (s + 1), hra.takes hta hw, hrb.takes htb (by omega)⟩⟩
  · rw [offer_started ha hw, offer_started hb (by omega)]
  · intro x hx
    have hxa := hta.frontier_le
    rw [hta.pending_eq x hx, htb.pending_eq x (hfront.trans hx), hanc.ahead x (hxa.trans hx)]
  · intro x q hq
    rw [known_offer ha hw] at hq
    rw [known_offer hb (by omega)]
    rcases hq with hq | ⟨rfl, rfl, hadm, hnew⟩
    · exact Or.inl (h.known x q hq)
    · -- new to the smaller window, so at or ahead of both frontiers and held by neither
      have hax := (admits_iff_anchor.mp hadm).1
      have hnone : (b.anchor x).pending x = none := by
        rw [hanc.ahead x hax]
        by_contra hp
        obtain ⟨q', hq'⟩ := Option.ne_none_iff_exists'.mp hp
        exact hnew q' (known_anchor.mp (Or.inr hq'))
      refine Or.inr ⟨rfl, rfl, admits_iff_anchor.mpr ⟨hf.trans hax, hnear⟩, ?_⟩
      intro q' hq'
      exact not_known_ahead (hb.anchor x) (hf.trans hax) hnone q' (known_anchor.mpr hq')

theorem Trails.flush (h : Trails b a) (ha : a.Settled w₁) (hb : b.Settled w₂) :
    Trails b.flush a.flush := by
  obtain ⟨t, hra, hrb⟩ := h.reach
  refine ⟨h.started, by rw [hra.flush_frontier, hrb.flush_frontier], ?_, ?_,
    ⟨t, hra.flush, hrb.flush⟩⟩
  · intro x _
    rw [flush_pending ha.within, flush_pending hb.within]
  · intro x q hq
    exact (known_flush hb).mpr (h.known x q ((known_flush ha).mp hq))

end Step

theorem firstOffered_append {calls post : List (FeedCall ρ)} {first : FeedPacket ρ}
    (h : firstOffered calls = some first) : firstOffered (calls ++ post) = some first := by
  unfold firstOffered at h ⊢
  rw [List.findSome?_append, h]
  rfl

/-- No packet of a run lies further ahead of its first packet than is believed. -/
def Near (calls : List (FeedCall ρ)) : Prop :=
  ∀ first, firstOffered calls = some first → ∀ pkt, .offer pkt ∈ calls →
    pkt.seq.toNat ≤ first.seq.toNat + maxGap

theorem Near.anchor {calls : List (FeedCall ρ)} {pkt : FeedPacket ρ} (hw : 0 < window)
    (h : Near (calls ++ [.offer pkt])) :
    pkt.seq.toNat ≤ ((run window calls).anchor pkt.seq.toNat).frontier + maxGap := by
  cases hf : firstOffered calls with
  | none =>
    have hidle := ((run_passedFrom hw).2 hf).1
    simp [Arbiter.anchor, hidle]
  | some first =>
    have hpass := (run_passedFrom hw).1 first hf
    have hsum := hpass.2.1
    have hnear := h first (firstOffered_append hf) pkt (by simp)
    simp only [Arbiter.anchor, hpass.1, if_true]
    omega

theorem Near.before {calls : List (FeedCall ρ)} {c : FeedCall ρ} (h : Near (calls ++ [c])) :
    Near calls := by
  intro first hf pkt hm
  exact h first (firstOffered_append hf) pkt (by simp [hm])

theorem trails_run {w₁ w₂ : Nat} (hle : w₁ ≤ w₂) (hw : 0 < w₁) {calls : List (FeedCall ρ)}
    (hnear : Near calls) : Trails (run w₂ calls) (run w₁ calls) := by
  induction calls using List.reverseRecOn with
  | nil => exact trails_fresh
  | append_singleton calls c ih =>
    have ha := settled_run hw calls
    have hb := settled_run (show 0 < w₂ by omega) calls
    have htrail := ih hnear.before
    simp only [run, List.foldl_append]
    cases c with
    | offer pkt => exact htrail.offer hle hw ha hb (hnear.anchor (by omega))
    | flush => exact htrail.flush ha hb

/-- The larger window has sent at least what the smaller one has, once nothing is held. -/
theorem Trails.sent_keys_subset (h : Trails b a) (hempty : ∀ s, b.pending s = none) :
    a.sent.map Prod.fst ⊆ b.sent.map Prod.fst := by
  intro x hx
  obtain ⟨⟨x, q⟩, hm, rfl⟩ := List.mem_map.mp hx
  rcases h.known x q (Or.inl hm) with hsent | hp
  · exact List.mem_map_of_mem hsent
  · simp [hempty] at hp

theorem Trails.gaps_le {w₁ w₂ first : Nat} (h : Trails b a) (hempty : ∀ s, b.pending s = none)
    (ha : a.Settled w₁) (hb : b.Settled w₂) (hpa : a.PassedFrom first) (hpb : b.PassedFrom first) :
    b.gaps ≤ a.gaps := by
  have hsub : (a.sent.map Prod.fst).toFinset ⊆ (b.sent.map Prod.fst).toFinset := by
    intro x hx
    exact List.mem_toFinset.mpr (h.sent_keys_subset hempty (List.mem_toFinset.mp hx))
  have hcard := Finset.card_le_card hsub
  rw [card_sent ha.sorted, card_sent hb.sorted] at hcard
  have hfront := h.frontier_le
  have hsuma := hpa.2.1
  have hsumb := hpb.2.1
  omega

end Arbiter

namespace FeedArbitrator

variable {ρ : Type} [Inhabited ρ]

/-- A larger reorder window never loses more: on the same calls, ending in a flush, it delivers
every sequence that the smaller one delivers, stops at the same frontier and counts no more
gaps. Packets behind the first one are late under both and need no bound. -/
theorem larger_window_loses_less (w₁ w₂ : PowTwo) (hle : w₁.size ≤ w₂.size)
    {calls : List (FeedCall ρ)} (hlast : calls.getLast? = some .flush)
    (hc : ∀ c ∈ calls, c.Bounded)
    (hnear : ∀ first, firstOffered calls = some first → ∀ pkt, .offer pkt ∈ calls →
      pkt.seq.toNat ≤ first.seq.toNat + kMaxGap.toNat) :
    ∃ a₁ sink₁ a₂ sink₂, run w₁ calls = some (a₁, sink₁) ∧ run w₂ calls = some (a₂, sink₂) ∧
      (∀ s ∈ sink₁.map Prod.fst, s ∈ sink₂.map Prod.fst) ∧
      a₁.frontier = a₂.frontier ∧ a₂.stats.gaps ≤ a₁.stats.gaps := by
  obtain ⟨⟨a₁, sink₁⟩, hrun₁, href₁⟩ := refines_run (w := w₁) hc
  obtain ⟨⟨a₂, sink₂⟩, hrun₂, href₂⟩ := refines_run (w := w₂) hc
  refine ⟨a₁, sink₁, a₂, sink₂, hrun₁, hrun₂, ?_⟩
  have htrail := Arbiter.trails_run hle w₁.size_pos (show Arbiter.Near calls from hnear)
  have hset₁ := Arbiter.settled_run w₁.size_pos calls
  have hset₂ := Arbiter.settled_run w₂.size_pos calls
  obtain ⟨before, rfl⟩ := List.getLast?_eq_some_iff.mp hlast
  have hflush : ∀ w : PowTwo, Arbiter.run w.size (before ++ [.flush]) =
      (Arbiter.run w.size before).flush := by
    intro w
    rw [Arbiter.run, List.foldl_append]
    rfl
  have hempty : ∀ s, (Arbiter.run w₂.size (before ++ [.flush])).pending s = none := by
    intro s
    rw [hflush]
    exact Arbiter.flush_pending (Arbiter.settled_run w₂.size_pos before).within s
  have hfront : (Arbiter.run w₁.size (before ++ [.flush])).frontier =
      (Arbiter.run w₂.size (before ++ [.flush])).frontier := by
    have hbefore := Arbiter.trails_run hle w₁.size_pos
      (Arbiter.Near.before (show Arbiter.Near (before ++ [.flush]) from hnear))
    obtain ⟨t, hra, hrb⟩ := hbefore.reach
    rw [hflush, hflush, hra.flush_frontier, hrb.flush_frontier]
  refine ⟨?_, ?_, ?_⟩
  · intro s hs
    have hlt := s.toNat_lt
    have hkey := (href₁.sent_keys s.toNat).mpr ⟨hlt, by simpa using hs⟩
    have hsent := (href₂.sent_keys s.toNat).mp (htrail.sent_keys_subset hempty hkey)
    simpa using hsent.2
  · apply UInt64.toNat_inj.mp
    have h₁ := href₁.frontier
    have h₂ := href₂.frontier
    simp only at h₁ h₂
    omega
  · have hgaps₁ : a₁.stats.gaps = _ := href₁.gaps
    have hgaps₂ : a₂.stats.gaps = _ := href₂.gaps
    cases hf : firstOffered (before ++ [.flush]) with
    | none =>
      rw [hgaps₁, hgaps₂, ((Arbiter.run_passedFrom w₁.size_pos).2 hf).2,
        ((Arbiter.run_passedFrom w₂.size_pos).2 hf).2]
      exact UInt64.le_refl _
    | some first =>
      have hp₁ := (Arbiter.run_passedFrom w₁.size_pos).1 first hf
      have hp₂ := (Arbiter.run_passedFrom w₂.size_pos).1 first hf
      have hle := htrail.gaps_le hempty hset₁ hset₂ hp₁ hp₂
      have hsum := hp₁.2.1
      have hword := a₁.frontier.toNat_lt
      have h₁ := href₁.frontier
      simp only at h₁
      rw [hgaps₁, hgaps₂, UInt64.le_iff_toNat_le,
        UInt64.toNat_ofNat_of_lt' (show _ < 2 ^ 64 by omega),
        UInt64.toNat_ofNat_of_lt' (show _ < 2 ^ 64 by omega)]
      exact hle

/-- The jump to 3 costs a window of two the late 1, which a window of four still delivers. -/
def skippedOne : List (FeedCall Nat) :=
  [.offer ⟨0, 0, 10⟩, .offer ⟨3, 0, 13⟩, .offer ⟨1, 1, 11⟩, .flush]

theorem larger_window_loses_less_skippedOne :
    ∃ a₁ sink₁ a₂ sink₂, run PowTwo.two skippedOne = some (a₁, sink₁) ∧
      run PowTwo.four skippedOne = some (a₂, sink₂) ∧ a₂.stats.gaps ≤ a₁.stats.gaps := by
  have hnear : ∀ first, firstOffered skippedOne = some first → ∀ pkt, .offer pkt ∈ skippedOne →
      pkt.seq.toNat ≤ first.seq.toNat + kMaxGap.toNat := by
    intro first hfirst pkt hpkt
    cases Option.some.inj hfirst
    simp only [skippedOne, List.mem_cons, FeedCall.offer.injEq, reduceCtorEq, List.not_mem_nil,
      or_false] at hpkt
    rcases hpkt with rfl | rfl | rfl <;> decide
  obtain ⟨a₁, sink₁, a₂, sink₂, hrun₁, hrun₂, _, _, hgaps⟩ :=
    larger_window_loses_less PowTwo.two PowTwo.four (by decide) rfl
      (show ∀ c ∈ skippedOne, c.Bounded by decide) hnear
  exact ⟨a₁, sink₁, a₂, sink₂, hrun₁, hrun₂, hgaps⟩

end FeedArbitrator

end OhlcvValidator
