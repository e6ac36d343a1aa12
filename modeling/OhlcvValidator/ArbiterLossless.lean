import OhlcvValidator.ArbiterCalls
import OhlcvValidator.ArbiterHistory

namespace OhlcvValidator

/-- The first packet offered with a given sequence. -/
def firstCopy {ρ : Type} (pkts : List (FeedPacket ρ)) (s : Nat) : Option (FeedPacket ρ) :=
  pkts.find? fun p => p.seq.toNat == s

/-- Line skew stays within the window: a packet comes only after everything a
whole window behind it has come on one of the lines. -/
def SkewWithin {ρ : Type} (window first : Nat) (pkts : List (FeedPacket ρ)) : Prop :=
  ∀ pre p post, pkts = pre ++ p :: post →
    ∀ t, first ≤ t → t + window ≤ p.seq.toNat → ∃ q ∈ pre, q.seq.toNat = t

theorem skewWithin_iff_take {ρ : Type} {window first : Nat} {pkts : List (FeedPacket ρ)} :
    SkewWithin window first pkts ↔ ∀ i : Fin pkts.length, ∀ t < (pkts.get i).seq.toNat + 1,
      first ≤ t → t + window ≤ (pkts.get i).seq.toNat → ∃ q ∈ pkts.take i, q.seq.toNat = t := by
  constructor
  · intro h i t _ hf ht
    refine h (pkts.take i) (pkts.get i) (pkts.drop (i + 1)) ?_ t hf ht
    rw [List.get_eq_getElem, List.getElem_cons_drop, List.take_append_drop]
  · rintro h pre p post rfl t hf ht
    have hi : pre.length < (pre ++ p :: post).length := by simp
    have hget : (pre ++ p :: post).get ⟨pre.length, hi⟩ = p := by simp
    have hat := h ⟨pre.length, hi⟩ t
    rw [hget] at hat
    simpa using hat (by omega) hf ht

instance {ρ : Type} (window first : Nat) (pkts : List (FeedPacket ρ)) :
    Decidable (SkewWithin window first pkts) :=
  decidable_of_iff _ skewWithin_iff_take.symm

namespace Arbiter

variable {ρ : Type} {window first : Nat} {seen : List (FeedPacket ρ)} {a : Arbiter ρ}

/-- Nothing was lost so far: all that was seen is behind the frontier, sent, or
held ahead of it, and everything behind the frontier was sent. -/
structure CaughtUp (first : Nat) (seen : List (FeedPacket ρ)) (a : Arbiter ρ) : Prop where
  started : a.started = true
  gaps : a.gaps = 0
  rejected : a.rejected = 0
  first_le : first ≤ a.frontier
  sent : a.sent.map Prod.fst = List.range' first (a.frontier - first)
  known : ∀ s r, a.Known s r → (firstCopy seen s).map FeedPacket.record = some r
  seen : ∀ p ∈ seen, p.seq.toNat < a.frontier ∨ a.pending p.seq.toNat ≠ none

theorem caughtUp_start : CaughtUp first [] ((fresh : Arbiter ρ).anchor first) where
  started := rfl
  gaps := rfl
  rejected := rfl
  first_le := le_rfl
  sent := by simp [anchor, fresh]
  known := by
    rintro s r (hm | hp)
    · cases hm
    · cases hp
  seen := by simp

theorem firstCopy_append {s : Nat} {p : FeedPacket ρ} {r : ρ}
    (h : (firstCopy seen s).map FeedPacket.record = some r) :
    (firstCopy (seen ++ [p]) s).map FeedPacket.record = some r := by
  obtain ⟨q, hq, hr⟩ := Option.map_eq_some_iff.mp h
  rw [firstCopy] at hq
  simp [firstCopy, List.find?_append, hq, hr]

theorem firstCopy_new {p : FeedPacket ρ} (h : ∀ q ∈ seen, q.seq.toNat ≠ p.seq.toNat) :
    (firstCopy (seen ++ [p]) p.seq.toNat).map FeedPacket.record = some p.record := by
  have hnone : seen.find? (fun q => q.seq.toNat == p.seq.toNat) = none := by
    rw [List.find?_eq_none]
    intro q hq
    simpa using h q hq
  simp [firstCopy, List.find?_append, hnone]

/-- The frontier itself was not seen, or it would have been released. -/
theorem CaughtUp.frontier_unseen (h : a.CaughtUp first seen) (hset : a.Settled window) :
    ∀ p ∈ seen, p.seq.toNat ≠ a.frontier := by
  intro p hp he
  rcases h.seen p hp with hlt | hne
  · omega
  · rw [he] at hne
    exact hne hset.hole

/-- A release after filling a hole passes nothing but held messages. -/
theorem CaughtUp.release {p : FeedPacket ρ} (h : a.CaughtUp first seen)
    (hset : a.Settled window) (hle : a.frontier ≤ p.seq.toNat)
    (hlt : p.seq.toNat < a.frontier + window)
    (hknown : ∀ s r, ((a.noteDepth p.seq.toNat).hold p.seq.toNat p.record).release.Known s r →
      (firstCopy (seen ++ [p]) s).map FeedPacket.record = some r) :
    ((a.noteDepth p.seq.toNat).hold p.seq.toNat p.record).release.CaughtUp first (seen ++ [p]) := by
  let c := (a.noteDepth p.seq.toNat).hold p.seq.toNat p.record
  let g := firstHole c.pending c.frontier
  have hwithin : c.Within window := Within.hold hset.within hle hlt
  have hg : a.frontier ≤ g := le_firstHole hwithin.finiteBelow _
  have hkeys : (entriesBetween c.pending c.frontier g).map Prod.fst =
      List.range' a.frontier (g - a.frontier) :=
    entriesBetween_keys fun s hs hsg => ne_none_of_lt_firstHole hs hsg
  refine ⟨h.started, (release_gaps c).trans h.gaps, h.rejected, h.first_le.trans hg, ?_, hknown, ?_⟩
  · change (a.sent ++ entriesBetween c.pending c.frontier g).map Prod.fst =
      List.range' first (g - first)
    have happ := @List.range'_append first (a.frontier - first) (g - a.frontier) 1
    have hfirst := h.first_le
    rw [List.map_append, h.sent, hkeys]
    rwa [show first + 1 * (a.frontier - first) = a.frontier by omega,
      show a.frontier - first + (g - a.frontier) = g - first by omega] at happ
  · intro q hq
    change q.seq.toNat < g ∨ (c.passTo g).pending q.seq.toNat ≠ none
    by_cases hqg : q.seq.toNat < g
    · exact Or.inl hqg
    · right
      rw [passTo_pending (not_lt.mp hqg)]
      by_cases heq : q.seq.toNat = p.seq.toNat
      · simp [c, hold, heq]
      · have hold : c.pending q.seq.toNat = a.pending q.seq.toNat := by
          simp [c, Arbiter.hold, noteDepth, heq]
        rw [hold]
        rcases List.mem_append.mp hq with hq | hq
        · exact (h.seen q hq).resolve_left (by omega)
        · rw [List.mem_singleton] at hq
          exact absurd (congrArg (fun q => q.seq.toNat) hq) heq

/-- One more packet within the skew bound loses nothing: it never forces the
frontier and is never rejected. -/
theorem CaughtUp.offer {p : FeedPacket ρ} (h : a.CaughtUp first seen) (hset : a.Settled window)
    (hw : 0 < window) (hmax : window ≤ maxGap)
    (hskew : ∀ t, first ≤ t → t + window ≤ p.seq.toNat → ∃ q ∈ seen, q.seq.toNat = t)
    (ln : Fin 2) :
    (a.offer window p.seq.toNat ln p.record).CaughtUp first (seen ++ [p]) := by
  have hnear : p.seq.toNat < a.frontier + window := by
    by_contra hfar
    obtain ⟨q, hq, he⟩ := hskew a.frontier h.first_le (not_lt.mp hfar)
    exact h.frontier_unseen hset q hq he
  have hanc : a.anchor p.seq.toNat = a := by simp [anchor, h.started]
  have hcases := offer_cases hset hw p.seq.toNat ln p.record
  have hknown : ∀ s r, (a.offer window p.seq.toNat ln p.record).Known s r →
      (firstCopy (seen ++ [p]) s).map FeedPacket.record = some r := by
    intro s r hk
    rcases (known_offer hset hw).mp hk with hk | ⟨rfl, rfl, hadm, hnew⟩
    · exact firstCopy_append (h.known s r hk)
    · apply firstCopy_new
      intro q hq he
      rcases h.seen q hq with hlt | hne
      · rcases hadm with hst | hadm
        · simp [h.started] at hst
        · omega
      · obtain ⟨r, hr⟩ := Option.ne_none_iff_exists'.mp hne
        exact hnew r (Or.inr (he ▸ hr))
  have hseen : (p.seq.toNat < a.frontier ∨ a.pending p.seq.toNat ≠ none) →
      ∀ q ∈ seen ++ [p], q.seq.toNat < a.frontier ∨ a.pending q.seq.toNat ≠ none := by
    intro hp q hq
    rcases List.mem_append.mp hq with hq | hq
    · exact h.seen q hq
    · rwa [List.mem_singleton.mp hq]
  rw [hanc] at hcases
  generalize a.offer window p.seq.toNat ln p.record = a' at hcases hknown ⊢
  cases hcases with
  | late hlate => exact ⟨h.started, h.gaps, h.rejected, h.first_le, h.sent, hknown,
      hseen (Or.inl hlate)⟩
  | wild hwild => omega
  | copy _ _ hp => exact ⟨h.started, h.gaps, h.rejected, h.first_le, h.sent, hknown,
      hseen (Or.inr hp)⟩
  | held hle _ _ _ _ _ hg =>
    rcases hg with ⟨hfar, _⟩ | ⟨_, rfl⟩
    · omega
    · rw [passTo_self hset.within] at hknown ⊢
      exact h.release hset hle hnear hknown

theorem caughtUp_run {pkts : List (FeedPacket ρ)} (hw : 0 < window) (hmax : window ≤ maxGap)
    (hfirst : pkts.head?.map (fun p => p.seq.toNat) = some first)
    (hskew : SkewWithin window first pkts) :
    (run window (pkts.map .offer)).CaughtUp first pkts := by
  -- the first packet anchors the session, and later anchoring does nothing
  have hstart : run window (pkts.map .offer) =
      (pkts.map .offer).foldl (call window) (fresh.anchor first) := by
    cases pkts with
    | nil => simp at hfirst
    | cons p pkts =>
      have hp : p.seq.toNat = first := by simpa using hfirst
      simp [run, call, offer, anchor, fresh, hp]
  have hrun : ∀ pre post, pkts = pre ++ post →
      ((pre.map .offer).foldl (call window) (fresh.anchor first)).CaughtUp first pre ∧
      ((pre.map .offer).foldl (call window) (fresh.anchor first)).Settled window := by
    intro pre
    induction pre using List.reverseRecOn with
    | nil => exact fun _ _ => ⟨caughtUp_start, settled_fresh.anchor first⟩
    | append_singleton pre p ih =>
      intro post hpost
      obtain ⟨hcaught, hset⟩ := ih (p :: post) (by simpa using hpost)
      rw [List.map_append, List.foldl_append]
      have hp := hskew pre p post (by simpa using hpost)
      exact ⟨hcaught.offer hset hw hmax hp _, settled_offer hset hw⟩
  rw [hstart]
  exact (hrun pkts [] (by simp)).1

/-- Once every sequence up to `last` was seen, all of them are sent and nothing is held. -/
theorem CaughtUp.complete {last : Nat} (h : a.CaughtUp first seen) (hset : a.Settled window)
    (hall : ∀ s, (∃ p ∈ seen, p.seq.toNat = s) ↔ first ≤ s ∧ s ≤ last) (hle : first ≤ last) :
    a.frontier = last + 1 ∧ ∀ s, a.pending s = none := by
  have hknown : ∀ s r, a.Known s r → s ≤ last := by
    intro s r hk
    obtain ⟨p, hp, _⟩ := Option.map_eq_some_iff.mp (h.known s r hk)
    exact ((hall s).mp ⟨p, List.mem_of_find?_eq_some hp,
      by simpa using List.find?_some hp⟩).2
  have hfar : last < a.frontier := by
    by_contra hn
    obtain ⟨p, hp, he⟩ := (hall a.frontier).mpr ⟨h.first_le, not_lt.mp hn⟩
    exact h.frontier_unseen hset p hp he
  have hnear : a.frontier ≤ last + 1 := by
    by_contra hn
    have hm : a.frontier - 1 ∈ a.sent.map Prod.fst := by
      rw [h.sent, List.mem_range'_1]
      omega
    obtain ⟨⟨t, q⟩, hq, he⟩ := List.mem_map.mp hm
    have := hknown t q (Or.inl hq)
    simp only at he
    omega
  refine ⟨by omega, fun s => ?_⟩
  by_contra hne
  obtain ⟨r, hr⟩ := Option.ne_none_iff_exists'.mp hne
  have := hknown s r (Or.inr hr)
  have := (hset.within s hne).1
  omega

end Arbiter

namespace FeedArbitrator

variable {ρ : Type} [Inhabited ρ] {w : PowTwo}

/-- Lossless arbitration: when the lines' skew stays within the window, the sink
gets every sequence of the range once, in order and with the record of its first
copy, before any `flush`; nothing is a gap or rejected, and a `flush` finds
nothing left to do. -/
theorem lossless_of_skewWithin {first last : Nat} {pkts : List (FeedPacket ρ)}
    (hw : w.size ≤ 2 ^ 20) (hlast : last ≤ 2 ^ 64 - 2)
    (hfirst : pkts.head?.map (fun p => p.seq.toNat) = some first)
    (hall : ∀ s, (∃ p ∈ pkts, p.seq.toNat = s) ↔ first ≤ s ∧ s ≤ last)
    (hskew : SkewWithin w.size first pkts) :
    ∃ a sink, run w (pkts.map .offer) = some (a, sink) ∧
      sink.map (fun e => e.1.toNat) = List.range' first (last + 1 - first) ∧
      (∀ s r, (s, r) ∈ sink → (firstCopy pkts s.toNat).map FeedPacket.record = some r) ∧
      a.stats.gaps = 0 ∧ a.stats.rejected = 0 ∧
      a.stats.delivered.toNat = last - first + 1 ∧ a.frontier.toNat = last + 1 ∧
      flush (a, sink) = some (a, sink) := by
  have hbounded : ∀ c ∈ pkts.map FeedCall.offer, c.Bounded := by
    intro c hc
    obtain ⟨p, hp, rfl⟩ := List.mem_map.mp hc
    exact ((hall _).mp ⟨p, hp, rfl⟩).2.trans hlast
  have hle : first ≤ last := by
    cases pkts with
    | nil => simp at hfirst
    | cons p pkts =>
      have hp : p.seq.toNat = first := by simpa using hfirst
      exact ((hall first).mp ⟨p, by simp, hp⟩).2
  obtain ⟨⟨a, sink⟩, hrun, href⟩ := refines_run (w := w) hbounded
  have hset := Arbiter.settled_run w.size_pos (pkts.map FeedCall.offer)
  have hcaught := Arbiter.caughtUp_run w.size_pos (Arbiter.maxGap_eq ▸ hw) hfirst hskew
  obtain ⟨hfront, hempty⟩ := hcaught.complete hset hall hle
  have hsent := hcaught.sent
  have hkeys : (Arbiter.run w.size (pkts.map .offer)).sent.map Prod.fst =
      sink.map fun e => e.1.toNat := by
    rw [← href.sink, List.map_map]
    rfl
  rw [hkeys, hfront] at hsent
  have hlen := congrArg List.length hsent
  have hsink := congrArg List.length href.sink
  rw [List.length_map, List.length_range'] at hlen
  rw [List.length_map] at hsink
  refine ⟨a, sink, hrun, hsent, ?_, ?_, ?_, ?_, ?_, ?_⟩
  · intro s r hm
    apply hcaught.known
    left
    rw [← href.sink]
    exact List.mem_map.mpr ⟨(s, r), hm, rfl⟩
  · exact href.gaps.trans (by rw [hcaught.gaps]; rfl)
  · exact href.rejected.trans (by rw [hcaught.rejected]; rfl)
  · have hdel : a.stats.delivered = _ := href.delivered
    rw [hdel, UInt64.toNat_ofNat']
    simp only at hsink
    omega
  · exact href.frontier.trans hfront
  · apply whileLoop_exit
    rw [decide_eq_false_iff_not, href.occupied_pos_iff]
    rintro ⟨s, hs⟩
    exact hs (hempty s)

/-- Two lines that swap neighbours and repeat a sequence with another payload. -/
def swappedLines : List (FeedPacket Nat) :=
  [⟨7, 0, 70⟩, ⟨9, 0, 90⟩, ⟨8, 1, 80⟩, ⟨8, 0, 81⟩, ⟨11, 1, 110⟩, ⟨10, 0, 100⟩, ⟨12, 1, 120⟩]

theorem lossless_swappedLines :
    ∃ a sink, run PowTwo.four (swappedLines.map .offer) = some (a, sink) ∧
      sink.map (fun e => e.1.toNat) = [7, 8, 9, 10, 11, 12] ∧ a.stats.gaps = 0 := by
  have hall : ∀ s, (∃ p ∈ swappedLines, p.seq.toNat = s) ↔ 7 ≤ s ∧ s ≤ 12 := by
    intro s
    simp only [swappedLines, List.mem_cons, List.not_mem_nil, or_false, exists_eq_or_imp,
      exists_eq_left]
    change 7 = s ∨ 9 = s ∨ 8 = s ∨ 8 = s ∨ 11 = s ∨ 10 = s ∨ 12 = s ↔ _
    omega
  obtain ⟨a, sink, hrun, hsent, _, hgaps, _⟩ := lossless_of_skewWithin (w := PowTwo.four)
    (by decide) (by decide) (by decide) hall (by decide)
  exact ⟨a, sink, hrun, hsent, hgaps⟩

end FeedArbitrator

end OhlcvValidator
