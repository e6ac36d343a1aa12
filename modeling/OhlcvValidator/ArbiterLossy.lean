import OhlcvValidator.ArbiterBalance
import OhlcvValidator.ArbiterLossless
import OhlcvValidator.ArbiterSafety

namespace OhlcvValidator

theorem filter_range'_eq {xs : List Nat} (hsorted : xs.Pairwise (· < ·)) {f n : Nat}
    {p : Nat → Bool} (hmem : ∀ s, s ∈ xs ↔ f ≤ s ∧ s < f + n ∧ p s = true) :
    xs = (List.range' f n).filter p := by
  have hperm : xs.Perm ((List.range' f n).filter p) := by
    rw [List.perm_ext_iff_of_nodup (hsorted.imp Nat.ne_of_lt) (List.Nodup.filter p List.nodup_range')]
    intro s
    rw [hmem, List.mem_filter, List.mem_range'_1, and_assoc]
  exact hperm.eq_of_pairwise (fun _ _ _ _ hst hts => absurd hts (Nat.lt_asymm hst)) hsorted
    (List.Pairwise.filter p List.pairwise_lt_range')

section Arrivals

variable {ρ : Type}

/-- Some packet carries the sequence. -/
def Arrives (pkts : List (FeedPacket ρ)) (s : Nat) : Bool :=
  pkts.any fun p => p.seq.toNat == s

/-- A sequence that comes for the first time is less than a window behind all that came before
it. -/
def FreshWithin (window first : Nat) (pkts : List (FeedPacket ρ)) : Prop :=
  ∀ pre q post, pkts = pre ++ q :: post → first ≤ q.seq.toNat → Arrives pre q.seq.toNat = false →
    ∀ p ∈ pre, p.seq.toNat < q.seq.toNat + window

/-- Of any `limit + 1` sequences in a row before an arrival, one arrives, at least where the
arrival is more than `far` behind the first. -/
def NoBurst (limit far first : Nat) (pkts : List (FeedPacket ρ)) : Prop :=
  ∀ p ∈ pkts, first + far < p.seq.toNat → ∀ s, first ≤ s → s + limit < p.seq.toNat →
    ∃ t, s ≤ t ∧ t ≤ s + limit ∧ Arrives pkts t = true

theorem arrives_iff {pkts : List (FeedPacket ρ)} {s : Nat} :
    Arrives pkts s = true ↔ ∃ p ∈ pkts, p.seq.toNat = s := by
  simp [Arrives]

theorem arrives_append {xs ys : List (FeedPacket ρ)} {s : Nat} :
    Arrives (xs ++ ys) s = (Arrives xs s || Arrives ys s) := by
  simp [Arrives]

theorem freshWithin_of_pairwise {window first : Nat} {pkts : List (FeedPacket ρ)}
    (h : pkts.Pairwise fun p q => p.seq.toNat < q.seq.toNat + window) :
    FreshWithin window first pkts := by
  rintro pre q post rfl _ _ p hp
  exact (List.pairwise_append.mp h).2.2 p hp q List.mem_cons_self

theorem exists_last {pkts : List (FeedPacket ρ)} (hne : pkts ≠ []) :
    ∃ last, Arrives pkts last = true ∧ ∀ p ∈ pkts, p.seq.toNat ≤ last := by
  induction pkts with
  | nil => exact absurd rfl hne
  | cons p pkts ih =>
    by_cases hrest : pkts = []
    · subst hrest
      exact ⟨p.seq.toNat, by simp [Arrives], by simp⟩
    · obtain ⟨last, hlast, hmax⟩ := ih hrest
      rcases Nat.le_total last p.seq.toNat with hle | hle
      · exact ⟨p.seq.toNat, by simp [Arrives], List.forall_mem_cons.mpr
          ⟨le_rfl, fun q hq => (hmax q hq).trans hle⟩⟩
      · refine ⟨last, ?_, List.forall_mem_cons.mpr ⟨hle, hmax⟩⟩
        obtain ⟨q, hq, he⟩ := arrives_iff.mp hlast
        exact arrives_iff.mpr ⟨q, List.mem_cons_of_mem _ hq, he⟩

/-- What is a whole window behind a packet and arrives at all has arrived before it. -/
theorem FreshWithin.arrived {window first s : Nat} {pre post : List (FeedPacket ρ)}
    {p : FeedPacket ρ} (h : FreshWithin window first (pre ++ p :: post)) (hfirst : first ≤ s)
    (hbehind : s + window ≤ p.seq.toNat) (hw : 0 < window)
    (hs : Arrives (pre ++ p :: post) s = true) : Arrives pre s = true := by
  by_contra hpre
  have hfind : ∃ q, (p :: post).find? (fun q => q.seq.toNat == s) = some q := by
    rw [arrives_append, Bool.or_eq_true] at hs
    obtain ⟨q, hq, he⟩ := arrives_iff.mp (hs.resolve_left hpre)
    exact Option.isSome_iff_exists.mp (List.find?_isSome.mpr ⟨q, hq, by simpa using he⟩)
  obtain ⟨q, hq⟩ := hfind
  obtain ⟨hqs, as, bs, hsplit, has⟩ := List.find?_eq_some_iff_append.mp hq
  have hqs : q.seq.toNat = s := by simpa using hqs
  cases as with
  | nil =>
    obtain rfl := (List.cons.inj hsplit).1
    omega
  | cons x as =>
    obtain rfl := (List.cons.inj hsplit).1
    have hfresh : Arrives (pre ++ p :: as) q.seq.toNat = false := by
      have hpre : Arrives pre s = false := by simpa using hpre
      rw [arrives_append, hqs, hpre, Bool.false_or]
      simpa [Arrives] using has
    have hnear := h (pre ++ p :: as) q bs (by rw [hsplit]; simp) (hqs ▸ hfirst) hfresh p (by simp)
    omega

end Arrivals

namespace Arbiter

variable {ρ : Type} {window first : Nat} {pkts seen : List (FeedPacket ρ)} {a : Arbiter ρ}

theorem anchor_of_started (h : a.started = true) (s : Nat) : a.anchor s = a := by
  simp [anchor, h]

/-- A sequence that an offer passes is known by then, or a whole window behind the packet. -/
theorem passed_offer (h : a.Settled window) (hw : 0 < window) (hst : a.started = true) {s t : Nat}
    {ln : Fin 2} {r : ρ} (ht : a.frontier ≤ t) (hpass : t < (a.offer window s ln r).frontier) :
    (∃ q, (a.offer window s ln r).Known t q) ∨ t + window ≤ s := by
  have hcases := offer_cases h hw s ln r
  rw [anchor_of_started hst] at hcases
  generalize a.offer window s ln r = a' at hcases hpass ⊢
  cases hcases with
  | late _ => exact absurd hpass (not_lt.mpr ht)
  | wild _ => exact absurd hpass (not_lt.mpr ht)
  | copy _ _ _ => exact absurd hpass (not_lt.mpr ht)
  | @held g hle _ _ hg hgs hsg hroom =>
    by_cases hfar : t + window ≤ s
    · exact Or.inr hfar
    left
    have hwithin : (((a.passTo g).noteDepth s).hold s r).Within window :=
      Within.hold (h.within.passTo hg) hgs hsg
    by_cases hgt : g ≤ t
    · obtain ⟨q, hq⟩ := Option.ne_none_iff_exists'.mp (ne_none_of_lt_firstHole hgt hpass)
      exact ⟨q, (known_passTo hwithin).mpr (Or.inr hq)⟩
    · obtain ⟨_, hforce⟩ | ⟨_, hsame⟩ := hroom
      · have hheld : a.pending t ≠ none := ne_none_of_lt_firstHole (q := s + 1 - window) (by omega)
          (by omega)
        obtain ⟨q, hq⟩ := Option.ne_none_iff_exists'.mp hheld
        refine ⟨q, (known_passTo hwithin).mpr ?_⟩
        exact ((known_passTo (g := g) h.within).mpr (Or.inr hq)).imp id fun hp => by
          simpa [hold, noteDepth, Function.update_of_ne (show t ≠ s by omega)] using hp
      · omega

theorem offer_frontier_le (h : a.Settled window) (hw : 0 < window) (hst : a.started = true)
    (s : Nat) (ln : Fin 2) (r : ρ) : a.frontier ≤ (a.offer window s ln r).frontier := by
  have hcases := offer_cases h hw s ln r
  rw [anchor_of_started hst] at hcases
  generalize a.offer window s ln r = a' at hcases ⊢
  cases hcases with
  | late _ => exact le_rfl
  | wild _ => exact le_rfl
  | copy _ _ _ => exact le_rfl
  | @held g _ _ _ hg hgs hsg _ =>
    have hwithin : (((a.passTo g).noteDepth s).hold s r).Within window :=
      Within.hold (h.within.passTo hg) hgs hsg
    exact hg.trans (le_firstHole hwithin.finiteBelow g)

theorem offer_rejected (h : a.Settled window) (hw : 0 < window) (hst : a.started = true) {s : Nat}
    (hnear : s ≤ a.frontier + maxGap) (ln : Fin 2) (r : ρ) :
    (a.offer window s ln r).rejected = a.rejected ∧ (a.offer window s ln r).started = true := by
  have hcases := offer_cases h hw s ln r
  rw [anchor_of_started hst] at hcases
  generalize a.offer window s ln r = a' at hcases ⊢
  cases hcases with
  | late _ => exact ⟨rfl, hst⟩
  | wild hwild => omega
  | copy _ _ _ => exact ⟨rfl, hst⟩
  | held _ _ _ _ _ _ _ => exact ⟨rfl, hst⟩

/-- The arbiter knows exactly what has come since its first packet, and has passed nothing that is
still to come nor anything behind which nothing came. -/
structure Exact (first : Nat) (pkts seen : List (FeedPacket ρ)) (a : Arbiter ρ) : Prop where
  started : a.started = true
  rejected : a.rejected = 0
  first_le : first ≤ a.frontier
  known : ∀ s r, a.Known s r → first ≤ s ∧ (firstCopy seen s).map FeedPacket.record = some r
  seen : ∀ s, first ≤ s → Arrives seen s = true → ∃ r, a.Known s r
  passed : ∀ s, first ≤ s → s < a.frontier → Arrives pkts s = true → ∃ r, a.Known s r
  ahead : ∀ s, first ≤ s → s < a.frontier → ∃ t r, s ≤ t ∧ a.Known t r

theorem exact_start : Exact first pkts [] ((fresh : Arbiter ρ).anchor first) where
  started := rfl
  rejected := rfl
  first_le := le_rfl
  known := by
    rintro s r (hm | hp)
    · cases hm
    · cases hp
  seen := fun s _ hs => by simp [Arrives] at hs
  passed := fun s hs hlt _ => absurd hlt (not_lt.mpr hs)
  ahead := fun s hs hlt => absurd hlt (not_lt.mpr hs)

section Step

variable {p : FeedPacket ρ} {post : List (FeedPacket ρ)}

/-- No packet is taken for a wild one: behind it something within its window has come. -/
theorem Exact.near (h : Exact first (seen ++ p :: post) seen a) (hset : a.Settled window)
    (hw : 0 < window) (hmax : 2 * window ≤ maxGap)
    (hskew : FreshWithin window first (seen ++ p :: post))
    (hburst : NoBurst (maxGap - 2 * window) maxGap first (seen ++ p :: post)) :
    p.seq.toNat ≤ a.frontier + maxGap := by
  by_contra hfar
  have hfirst := h.first_le
  obtain ⟨t, hlow, hhigh, ht⟩ := hburst p (by simp) (by omega) (a.frontier + window) (by omega) (by omega)
  obtain ⟨r, hr⟩ := h.seen t (by omega) (hskew.arrived (by omega) (by omega) hw ht)
  rcases hr with hm | hp
  · have := hset.behind _ hm
    simp only at this
    omega
  · have := (hset.within t (by simp [hp])).2
    omega

theorem Exact.offer (h : Exact first (seen ++ p :: post) seen a) (hset : a.Settled window)
    (hw : 0 < window) (hmax : 2 * window ≤ maxGap)
    (hskew : FreshWithin window first (seen ++ p :: post))
    (hburst : NoBurst (maxGap - 2 * window) maxGap first (seen ++ p :: post)) (ln : Fin 2) :
    Exact first (seen ++ p :: post) (seen ++ [p]) (a.offer window p.seq.toNat ln p.record) := by
  have hnear := h.near hset hw hmax hskew hburst
  obtain ⟨hrej, hst⟩ := offer_rejected hset hw h.started hnear ln p.record
  have hknown : ∀ {t q}, (a.offer window p.seq.toNat ln p.record).Known t q ↔
      a.Known t q ∨ t = p.seq.toNat ∧ q = p.record ∧ a.Admits p.seq.toNat ∧
        ∀ q', ¬a.Known p.seq.toNat q' := known_offer hset hw
  have keep : ∀ {t}, (∃ q, a.Known t q) → ∃ q, (a.offer window p.seq.toNat ln p.record).Known t q :=
    fun ⟨q, hq⟩ => ⟨q, hknown.mpr (Or.inl hq)⟩
  have hself : first ≤ p.seq.toNat →
      ∃ q, (a.offer window p.seq.toNat ln p.record).Known p.seq.toNat q := by
    intro hfirst
    by_cases hold : ∃ q, a.Known p.seq.toNat q
    · exact keep hold
    · have hle : a.frontier ≤ p.seq.toNat := by
        by_contra hlate
        exact hold (h.passed _ hfirst (not_le.mp hlate) (arrives_iff.mpr ⟨p, by simp, rfl⟩))
      exact ⟨_, hknown.mpr (Or.inr ⟨rfl, rfl, Or.inr ⟨hle, hnear⟩, fun q hq => hold ⟨q, hq⟩⟩)⟩
  -- what the offer passes is known, or so far behind that it has come if it comes at all
  have hpassed : ∀ s, a.frontier ≤ s → s < (a.offer window p.seq.toNat ln p.record).frontier →
      (∃ q, (a.offer window p.seq.toNat ln p.record).Known s q) ∨ s + window ≤ p.seq.toNat :=
    fun s hs hlt => passed_offer hset hw h.started hs hlt
  have hfirst_le := h.first_le
  refine ⟨hst, hrej.trans h.rejected,
    h.first_le.trans (offer_frontier_le hset hw h.started _ _ _), ?_, ?_, ?_, ?_⟩
  · intro s r hr
    rcases hknown.mp hr with hold | ⟨rfl, rfl, hadm, hnew⟩
    · exact ⟨(h.known s r hold).1, firstCopy_append (h.known s r hold).2⟩
    · have hle : first ≤ p.seq.toNat := by
        rcases hadm with hnot | hadm
        · simp [h.started] at hnot
        · omega
      refine ⟨hle, firstCopy_new fun q hq he => ?_⟩
      obtain ⟨q', hq'⟩ := h.seen p.seq.toNat hle (arrives_iff.mpr ⟨q, hq, he⟩)
      exact hnew q' hq'
  · intro s hs hseen
    rw [arrives_append, Bool.or_eq_true] at hseen
    rcases hseen with hseen | hlast
    · exact keep (h.seen s hs hseen)
    · obtain rfl : p.seq.toNat = s := by simpa [Arrives] using hlast
      exact hself hs
  · intro s hs hlt harr
    by_cases hold : s < a.frontier
    · exact keep (h.passed s hs hold harr)
    · rcases hpassed s (not_lt.mp hold) hlt with hk | hbehind
      · exact hk
      · exact keep (h.seen s hs (hskew.arrived hs hbehind hw harr))
  · intro s hs hlt
    by_cases hold : s < a.frontier
    · obtain ⟨t, r, hst, hr⟩ := h.ahead s hs hold
      exact ⟨t, r, hst, hknown.mpr (Or.inl hr)⟩
    · rcases hpassed s (not_lt.mp hold) hlt with ⟨r, hr⟩ | hbehind
      · exact ⟨s, r, le_rfl, hr⟩
      · obtain ⟨r, hr⟩ := hself (by omega)
        exact ⟨p.seq.toNat, r, by omega, hr⟩

end Step

/-- The window reaches up to everything that came, and only that is known. -/
structure Follows (window first : Nat) (seen : List (FeedPacket ρ)) (a : Arbiter ρ) : Prop where
  started : a.started = true
  first_le : first ≤ a.frontier
  known : ∀ s r, a.Known s r → Arrives seen s = true
  near : ∀ p ∈ seen, p.seq.toNat < a.frontier + window

theorem follows_start : Follows window first [] ((fresh : Arbiter ρ).anchor first) where
  started := rfl
  first_le := le_rfl
  known := by
    rintro s r (hm | hp)
    · cases hm
    · cases hp
  near := by simp

theorem Follows.offer {p : FeedPacket ρ} (h : Follows window first seen a) (hset : a.Settled window)
    (hw : 0 < window) (hspan : p.seq.toNat ≤ first + maxGap) (ln : Fin 2) :
    Follows window first (seen ++ [p]) (a.offer window p.seq.toNat ln p.record) := by
  have hfirst := h.first_le
  have hle := offer_frontier_le hset hw h.started p.seq.toNat ln p.record
  obtain ⟨_, hst⟩ := offer_rejected hset hw h.started (show p.seq.toNat ≤ _ by omega) ln p.record
  refine ⟨hst, h.first_le.trans hle, ?_, ?_⟩
  · intro s r hr
    rw [arrives_append, Bool.or_eq_true]
    rcases (known_offer hset hw).mp hr with hold | ⟨rfl, _⟩
    · exact Or.inl (h.known s r hold)
    · exact Or.inr (by simp [Arrives])
  · intro q hq
    rcases List.mem_append.mp hq with hq | hq
    · have := h.near q hq
      omega
    · obtain rfl := List.mem_singleton.mp hq
      by_contra hfar
      have hcases := offer_cases hset hw q.seq.toNat ln q.record
      rw [anchor_of_started h.started] at hcases
      generalize a.offer window q.seq.toNat ln q.record = a' at hcases hle hfar
      cases hcases with
      | late hlate => omega
      | wild hwild => omega
      | copy _ _ hp =>
        have := (hset.within _ hp).2
        exact hfar this
      | @held g _ _ _ hg hgs hsg _ =>
        have hwithin : (((a.passTo g).noteDepth q.seq.toNat).hold q.seq.toNat q.record).Within window :=
          Within.hold (hset.within.passTo hg) hgs hsg
        have hrelease : g ≤ (((a.passTo g).noteDepth q.seq.toNat).hold q.seq.toNat
            q.record).release.frontier := le_firstHole hwithin.finiteBelow g
        omega

/-- What is behind the frontier and unknown stays unknown. -/
theorem unknown_offer {s t : Nat} {ln : Fin 2} {r : ρ} (hset : a.Settled window) (hw : 0 < window)
    (hst : a.started = true) (ht : t < a.frontier) (hnot : ∀ q, ¬a.Known t q) :
    ∀ q, ¬(a.offer window s ln r).Known t q := by
  intro q hq
  rcases (known_offer hset hw).mp hq with hold | ⟨rfl, _, hadm, _⟩
  · exact hnot q hold
  · rcases hadm with hidle | ⟨hle, _⟩
    · simp [hst] at hidle
    · omega

/-- The first packet anchors the session; later anchoring does nothing. -/
theorem run_anchored (hfirst : pkts.head?.map (fun p => p.seq.toNat) = some first) :
    run window (pkts.map .offer) = (pkts.map .offer).foldl (call window) (fresh.anchor first) := by
  cases pkts with
  | nil => simp at hfirst
  | cons p pkts =>
    have hp : p.seq.toNat = first := by simpa using hfirst
    simp [run, call, Arbiter.offer, anchor, fresh, hp]

theorem exact_run (hw : 0 < window) (hmax : 2 * window ≤ maxGap)
    (hfirst : pkts.head?.map (fun p => p.seq.toNat) = some first)
    (hskew : FreshWithin window first pkts) (hburst : NoBurst (maxGap - 2 * window) maxGap first pkts) :
    Exact first pkts pkts (run window (pkts.map .offer)) := by
  have hrun : ∀ pre post, pkts = pre ++ post →
      Exact first pkts pre ((pre.map .offer).foldl (call window) (fresh.anchor first)) ∧
      ((pre.map .offer).foldl (call window) (fresh.anchor first)).Settled window := by
    intro pre
    induction pre using List.reverseRecOn with
    | nil => exact fun _ _ => ⟨exact_start, settled_fresh.anchor first⟩
    | append_singleton pre p ih =>
      intro post hpost
      have hpost : pkts = pre ++ p :: post := by simpa using hpost
      obtain ⟨hexact, hset⟩ := ih (p :: post) hpost
      rw [List.map_append, List.foldl_append]
      subst hpost
      exact ⟨hexact.offer hset hw hmax hskew hburst _, settled_offer hset hw⟩
  rw [run_anchored hfirst]
  exact (hrun pkts [] (by simp)).1

theorem follows_run (hw : 0 < window) (hspan : ∀ p ∈ pkts, p.seq.toNat ≤ first + maxGap) :
    Follows window first pkts ((pkts.map .offer).foldl (call window) (fresh.anchor first)) ∧
      ((pkts.map .offer).foldl (call window) (fresh.anchor first)).Settled window := by
  induction pkts using List.reverseRecOn with
  | nil => exact ⟨follows_start, settled_fresh.anchor first⟩
  | append_singleton pkts p ih =>
    obtain ⟨hfollows, hset⟩ := ih fun q hq => hspan q (List.mem_append_left _ hq)
    rw [List.map_append, List.foldl_append]
    exact ⟨hfollows.offer hset hw (hspan p (by simp)) _, settled_offer hset hw⟩

theorem unknown_foldl (hset : a.Settled window) (hw : 0 < window) (hst : a.started = true) {t : Nat}
    (ht : t < a.frontier) (hnot : ∀ q, ¬a.Known t q)
    (hspan : ∀ p ∈ pkts, p.seq.toNat ≤ a.frontier + maxGap) :
    ∀ q, ¬((pkts.map .offer).foldl (call window) a).Known t q := by
  induction pkts generalizing a with
  | nil => exact hnot
  | cons p pkts ih =>
    have hle := offer_frontier_le hset hw hst p.seq.toNat (FeedArbitrator.lineIndex p) p.record
    refine ih (settled_offer hset hw) ?_ (ht.trans_le hle) (unknown_offer hset hw hst ht hnot) ?_
    · exact (offer_rejected hset hw hst (hspan p (by simp)) _ _).2
    · intro q hq
      exact (hspan q (List.mem_cons_of_mem _ hq)).trans (Nat.add_le_add_right hle _)

/-- What comes for the first time a whole window late is not taken in any more. -/
theorem late_unknown {pre post : List (FeedPacket ρ)} {p q : FeedPacket ρ} (hw : 0 < window)
    (hfirst : (pre ++ q :: post).head?.map (fun p => p.seq.toNat) = some first)
    (hspan : ∀ p ∈ pre ++ q :: post, p.seq.toNat ≤ first + maxGap)
    (hq : Arrives pre q.seq.toNat = false) (hp : p ∈ pre)
    (hlate : q.seq.toNat + window ≤ p.seq.toNat) (r : ρ) :
    ¬(run window ((pre ++ q :: post).map .offer)).Known q.seq.toNat r := by
  obtain ⟨hfollows, hset⟩ :=
    follows_run hw fun p (hp : p ∈ pre) => hspan p (List.mem_append_left _ hp)
  have hnear := hfollows.near p hp
  have hle := hfollows.first_le
  rw [run_anchored hfirst, List.map_append, List.foldl_append]
  refine unknown_foldl hset hw hfollows.started (by omega) (fun r hr => ?_) (fun p hp => ?_) r
  · rw [hfollows.known _ r hr] at hq
    cases hq
  · have := hspan p (List.mem_append_right _ hp)
    omega

/-- What is left after the flush: everything known is sent. -/
theorem Exact.flush_sent (h : Exact first pkts pkts a) (hset : a.Settled window) (s : Nat) :
    s ∈ a.flush.sent.map Prod.fst ↔ first ≤ s ∧ Arrives pkts s = true := by
  have hsent : s ∈ a.flush.sent.map Prod.fst ↔ ∃ r, a.Known s r := by
    rw [List.mem_map]
    constructor
    · rintro ⟨⟨t, r⟩, hm, rfl⟩
      exact ⟨r, (known_flush hset).mp (Or.inl hm)⟩
    · rintro ⟨r, hr⟩
      rcases (known_flush hset).mpr hr with hm | hp
      · exact ⟨(s, r), hm, rfl⟩
      · rw [flush_pending hset.within] at hp
        cases hp
  rw [hsent]
  constructor
  · rintro ⟨r, hr⟩
    obtain ⟨hle, hcopy⟩ := h.known s r hr
    obtain ⟨p, hp, _⟩ := Option.map_eq_some_iff.mp hcopy
    exact ⟨hle, arrives_iff.mpr ⟨p, List.mem_of_find?_eq_some hp, by simpa using List.find?_some hp⟩⟩
  · rintro ⟨hle, harr⟩
    exact h.seen s hle harr

/-- The flush stops right behind the last sequence that came. -/
theorem Exact.flush_frontier {last : Nat} (h : Exact first pkts pkts a) (hset : a.Settled window)
    (hlast : Arrives pkts last = true) (hle : first ≤ last) (hmax : ∀ p ∈ pkts, p.seq.toNat ≤ last) :
    a.flush.frontier = last + 1 := by
  have hbound : ∀ s r, a.Known s r → s ≤ last := by
    intro s r hr
    obtain ⟨p, hp, _⟩ := Option.map_eq_some_iff.mp (h.known s r hr).2
    have hs : p.seq.toNat = s := by simpa using List.find?_some hp
    exact hs ▸ hmax p (List.mem_of_find?_eq_some hp)
  have hfin := hset.within.finiteBelow
  apply le_antisymm
  · refine pendingEnd_le ?_ ?_
    · by_contra hgt
      obtain ⟨t, r, hst, hr⟩ := h.ahead (last + 1) (by omega) (not_le.mp hgt)
      have := hbound t r hr
      omega
    · intro s hs
      by_contra hne
      obtain ⟨r, hr⟩ := Option.ne_none_iff_exists'.mp hne
      have := hbound s r (Or.inr hr)
      omega
  · obtain ⟨r, hr⟩ := h.seen last hle hlast
    rcases hr with hm | hp
    · exact (hset.behind _ hm).trans_le (le_pendingEnd hfin _)
    · exact lt_pendingEnd hfin (by simp [hp])

/-- What the flush leaves: the arrivals in order, and the rest of their range as gaps. -/
theorem Exact.flush_exact {last : Nat} (h : Exact first pkts pkts a) (hset : a.Settled window)
    (hfrom : a.flush.PassedFrom first) (hlast : Arrives pkts last = true) (hle : first ≤ last)
    (hmax : ∀ p ∈ pkts, p.seq.toNat ≤ last) :
    a.flush.sent.map Prod.fst =
      (List.range' first (last + 1 - first)).filter (Arrives pkts) ∧
    a.flush.gaps =
      ((List.range' first (last + 1 - first)).filter fun s => !Arrives pkts s).length := by
  have hkeys : a.flush.sent.map Prod.fst =
      (List.range' first (last + 1 - first)).filter (Arrives pkts) := by
    refine filter_range'_eq (List.pairwise_map.mpr (settled_flush hset).sorted) fun s => ?_
    rw [h.flush_sent hset]
    refine and_congr_right fun hs => (and_iff_right_of_imp fun harr => ?_).symm
    obtain ⟨p, hp, rfl⟩ := arrives_iff.mp harr
    have := hmax p hp
    omega
  refine ⟨hkeys, ?_⟩
  have hlen := congrArg List.length hkeys
  have hsplit := List.length_eq_length_filter_add (Arrives pkts)
    (l := List.range' first (last + 1 - first))
  have hsum := hfrom.2.1
  rw [h.flush_frontier hset hlast hle hmax] at hsum
  rw [List.length_map] at hlen
  rw [List.length_range'] at hsplit
  omega

theorem bounded_calls (hseq : ∀ p ∈ pkts, p.seq.toNat ≤ 2 ^ 64 - 2) :
    ∀ c ∈ pkts.map FeedCall.offer ++ [.flush], c.Bounded := by
  intro c hc
  rcases List.mem_append.mp hc with hc | hc
  · obtain ⟨p, hp, rfl⟩ := List.mem_map.mp hc
    exact hseq p hp
  · rw [List.mem_singleton.mp hc]
    trivial

theorem run_flush (pkts : List (FeedPacket ρ)) :
    run window (pkts.map .offer ++ [.flush]) = (run window (pkts.map .offer)).flush := by
  rw [run, List.foldl_append]
  rfl

end Arbiter

namespace FeedArbitrator

variable {ρ : Type} [Inhabited ρ] {w : PowTwo}

/-- Lossy lines: while what comes for the first time is less than a window late, and no burst of
losses reaches the plausibility bound, the sink gets, from the first packet on, exactly the
sequences that came on some line, in order and with the record of their first copy; the gaps are
exactly the sequences that came on none, and every other packet is a duplicate. -/
theorem lossy_run {first last : Nat} {pkts : List (FeedPacket ρ)} (hw : 2 * w.size ≤ 2 ^ 20)
    (hseq : ∀ p ∈ pkts, p.seq.toNat ≤ 2 ^ 64 - 2)
    (hfirst : pkts.head?.map (fun p => p.seq.toNat) = some first)
    (hskew : FreshWithin w.size first pkts) (hburst : NoBurst (2 ^ 20 - 2 * w.size) (2 ^ 20) first pkts)
    (hlast : Arrives pkts last = true) (hmax : ∀ p ∈ pkts, p.seq.toNat ≤ last) :
    ∃ a sink, run w (pkts.map .offer ++ [.flush]) = some (a, sink) ∧
      sink.map (fun e => e.1.toNat) =
        (List.range' first (last + 1 - first)).filter (Arrives pkts) ∧
      (∀ s r, (s, r) ∈ sink → (firstCopy pkts s.toNat).map FeedPacket.record = some r) ∧
      a.stats.gaps.toNat =
        ((List.range' first (last + 1 - first)).filter fun s => !Arrives pkts s).length ∧
      a.stats.rejected = 0 ∧
      a.stats.delivered + a.stats.duplicates 0 + a.stats.duplicates 1 =
        UInt64.ofNat pkts.length := by
  obtain ⟨head, hhead, hfseq⟩ := Option.map_eq_some_iff.mp hfirst
  have hle : first ≤ last := hfseq ▸ hmax head (List.mem_of_mem_head? hhead)
  have hlast_le : last ≤ 2 ^ 64 - 2 := by
    obtain ⟨p, hp, rfl⟩ := arrives_iff.mp hlast
    exact hseq p hp
  let calls := pkts.map FeedCall.offer ++ [.flush]
  have hoffered : firstOffered calls = some head := by
    cases pkts with
    | nil => cases hhead
    | cons p pkts => exact hhead
  have hcount : offerCount calls = pkts.length := by
    simp [calls, offerCount, List.countP_map, Function.comp_def]
  have hflush : Arbiter.run w.size calls = (Arbiter.run w.size (pkts.map .offer)).flush :=
    Arbiter.run_flush pkts
  obtain ⟨⟨a, sink⟩, hrun, href⟩ := refines_run (w := w) (Arbiter.bounded_calls hseq)
  have hset := Arbiter.settled_run w.size_pos (pkts.map FeedCall.offer)
  have hexact := Arbiter.exact_run w.size_pos (Arbiter.maxGap_eq ▸ hw) hfirst hskew
    (Arbiter.maxGap_eq ▸ hburst)
  have hfrom := (Arbiter.run_passedFrom w.size_pos).1 head hoffered
  have hall := Arbiter.run_accounted w.size_pos calls
  rw [hflush, hfseq] at hfrom
  rw [hflush, hcount, Arbiter.accounted_eq] at hall
  rw [hflush] at href
  obtain ⟨hkeys, hgaps⟩ := hexact.flush_exact hset hfrom hlast hle hmax
  have hrej : (Arbiter.run w.size (pkts.map .offer)).flush.rejected = 0 := hexact.rejected
  have hheld : (Arbiter.run w.size (pkts.map .offer)).flush.held w.size = 0 := by
    rw [Arbiter.held, entriesBetween_of_none fun s _ _ => Arbiter.flush_pending hset.within s]
    rfl
  have hsmall : (Arbiter.run w.size (pkts.map .offer)).flush.gaps < 2 ^ 64 := by
    have hlen := List.length_filter_le (fun s => !Arrives pkts s)
      (List.range' first (last + 1 - first))
    rw [List.length_range'] at hlen
    omega
  refine ⟨a, sink, hrun, ?_, ?_, ?_, ?_, ?_⟩
  · rw [← hkeys, ← href.sink, List.map_map]
    rfl
  · intro s r hm
    have hsent := href.mem_sink_iff.mp hm
    exact (hexact.known _ _ ((Arbiter.known_flush hset).mp (Or.inl hsent))).2
  · rw [← hgaps, show a.stats.gaps = _ from href.gaps, UInt64.toNat_ofNat_of_lt' hsmall]
  · rw [show a.stats.rejected = _ from href.rejected, hrej]
    rfl
  · rw [show a.stats.delivered = _ from href.delivered,
      show a.stats.duplicates 0 = _ from href.duplicates 0,
      show a.stats.duplicates 1 = _ from href.duplicates 1, ← UInt64.ofNat_add,
      ← UInt64.ofNat_add, ← hall, hheld, hrej]
    congr 1

/-- Two lines that both lose the sequences 10 and 11, and one of which is late with 8. -/
def lossyLines : List (FeedPacket Nat) :=
  [⟨7, 0, 70⟩, ⟨9, 0, 90⟩, ⟨8, 1, 80⟩, ⟨9, 1, 90⟩, ⟨12, 0, 120⟩, ⟨12, 1, 120⟩, ⟨13, 1, 130⟩]

theorem freshWithin_lossyLines : FreshWithin PowTwo.four.size 7 lossyLines :=
  freshWithin_of_pairwise (by decide)

/-- The window is large enough just if nothing that comes for the first time is a whole window
late: then, and only then, everything from the first packet on that came on some line is delivered
(in a session of at most `kMaxGap` sequences). -/
theorem delivers_all_iff {first : Nat} {pkts : List (FeedPacket ρ)} (hw : 2 * w.size ≤ 2 ^ 20)
    (hseq : ∀ p ∈ pkts, p.seq.toNat ≤ 2 ^ 64 - 2)
    (hfirst : pkts.head?.map (fun p => p.seq.toNat) = some first)
    (hspan : ∀ p ∈ pkts, p.seq.toNat ≤ first + 2 ^ 20) :
    ∃ a sink, run w (pkts.map .offer ++ [.flush]) = some (a, sink) ∧
      ((∀ p ∈ pkts, first ≤ p.seq.toNat → p.seq ∈ sink.map Prod.fst) ↔
        FreshWithin w.size first pkts) := by
  obtain ⟨⟨a, sink⟩, hrun, href⟩ := refines_run (w := w) (Arbiter.bounded_calls hseq)
  refine ⟨a, sink, hrun, ?_, ?_⟩
  · intro hall pre q post hsplit hle hfresh p hp
    by_contra hlate
    have hset := Arbiter.settled_run w.size_pos (pkts.map FeedCall.offer)
    subst hsplit
    obtain ⟨e, he, hseqe⟩ := List.mem_map.mp (hall q (by simp) hle)
    have hsent := href.mem_sink_iff.mp he
    rw [Arbiter.run_flush] at hsent
    refine Arbiter.late_unknown w.size_pos hfirst (Arbiter.maxGap_eq ▸ hspan) hfresh hp
      (not_lt.mp hlate) e.2 (hseqe ▸ (Arbiter.known_flush hset).mp (Or.inl hsent))
  · intro hfresh p hp hle
    obtain ⟨last, hlast, hmax⟩ := exists_last (List.ne_nil_of_mem hp)
    obtain ⟨a', sink', hrun', hkeys, _⟩ := lossy_run hw hseq hfirst hfresh
      (fun p hp hfar => absurd (hspan p hp) (not_le.mpr hfar)) hlast hmax
    obtain ⟨rfl, rfl⟩ : a = a' ∧ sink = sink' := by
      rw [hrun] at hrun'
      simpa using hrun'
    have hmem : p.seq.toNat ∈ sink.map fun e => e.1.toNat := by
      rw [hkeys, List.mem_filter, List.mem_range'_1]
      have := hmax p hp
      exact ⟨⟨hle, by omega⟩, arrives_iff.mpr ⟨p, hp, rfl⟩⟩
    obtain ⟨e, he, hseqe⟩ := List.mem_map.mp hmem
    exact List.mem_map.mpr ⟨e, he, UInt64.toNat_inj.mp hseqe⟩

theorem delivers_all_iff_lossyLines :
    ∃ a sink, run PowTwo.four (lossyLines.map .offer ++ [.flush]) = some (a, sink) ∧
      ∀ p ∈ lossyLines, 7 ≤ p.seq.toNat → p.seq ∈ sink.map Prod.fst := by
  have hseq : ∀ p ∈ lossyLines, p.seq.toNat ≤ 2 ^ 64 - 2 := by decide
  obtain ⟨a, sink, hrun, hiff⟩ := delivers_all_iff (w := PowTwo.four) (by decide) hseq
    (show _ = some 7 from rfl) (by decide)
  exact ⟨a, sink, hrun, hiff.mpr freshWithin_lossyLines⟩

end FeedArbitrator

end OhlcvValidator
