import OhlcvValidator.BookBuilderRecovery

namespace OhlcvValidator

theorem eq_range'_of_no_holes {xs : List Nat} {a : Nat} (hs : xs.Pairwise (· < ·))
    (hlow : ∀ x ∈ xs, a ≤ x) (hfull : ∀ s, a ≤ s → (∃ x ∈ xs, s ≤ x) → s ∈ xs) :
    xs = List.range' a xs.length := by
  induction xs generalizing a with
  | nil => rfl
  | cons x xs ih =>
    obtain ⟨hx, hxs⟩ := List.pairwise_cons.mp hs
    have hax := hlow x (by simp)
    -- the first entry is the bound itself, which would otherwise be a hole
    obtain rfl : a = x := by
      rcases List.mem_cons.mp (hfull a le_rfl ⟨x, by simp, hax⟩) with rfl | ha
      · rfl
      · have := hx a ha
        omega
    have hrest : ∀ s, a + 1 ≤ s → (∃ x ∈ xs, s ≤ x) → s ∈ xs := by
      rintro s hs ⟨y, hy, hsy⟩
      rcases List.mem_cons.mp (hfull s (by omega) ⟨y, by simp [hy], hsy⟩) with rfl | hmem
      · omega
      · exact hmem
    rw [List.length_cons, List.range'_succ]
    exact congrArg (a :: ·) (ih hxs (fun y hy => hx y hy) hrest)

variable {P : Type}

theorem InSequence.length_received {calls : List (BuilderCall P)} (h : InSequence calls) :
    (received calls).length < 2 ^ 64 := by
  have hnodup : ((received calls).map fun d => d.seq.toNat).Nodup := by
    refine List.pairwise_map.mpr (h.1.imp ?_)
    intro x y hlt
    exact (UInt64.lt_iff_toNat_lt.mp hlt).ne
  have hsub : ((received calls).map fun d => d.seq.toNat).toFinset ⊆
      Finset.range (2 ^ 64 - 1) := by
    intro s hs
    obtain ⟨d, hd, rfl⟩ := List.mem_map.mp (List.mem_toFinset.mp hs)
    exact Finset.mem_range.mpr (h.2 d hd)
  have hcard := Finset.card_le_card hsub
  rw [List.toFinset_card_of_nodup hnodup, List.length_map, Finset.card_range] at hcard
  omega

theorem inSequence_of_belowTop {calls : List (BuilderCall P)}
    (hpair : (received calls).Pairwise fun x y => x.seq < y.seq)
    (hc : ∀ c ∈ calls, c.BelowTop) : InSequence calls := by
  refine ⟨hpair, ?_⟩
  intro d hd
  obtain ⟨c, hcmem, hcd⟩ := List.mem_filterMap.mp hd
  cases c with
  | delta x =>
    cases Option.some.inj hcd
    exact hc _ hcmem
  | snapshot _ _ => simp [BuilderCall.delta?] at hcd

/-- Past `asOf`, every number before a received one was received too. -/
def NoneMissingAfter (asOf : UInt64) (calls : List (BuilderCall P)) : Prop :=
  ∀ s, asOf.toNat < s → (∃ d ∈ received calls, s < d.seq.toNat) →
    ∃ d ∈ received calls, d.seq.toNat = s

namespace BookTracker

/-- The contiguity check in plain numbers: past the largest word it can only end. -/
theorem contiguousFrom_iff {asOf expect : UInt64} {ds : List (BookDelta P)}
    (hlow : ∀ d ∈ ds, asOf < d.seq) : contiguousFrom expect ds = true ↔
      ds.map (fun d => d.seq.toNat) = List.range' expect.toNat ds.length := by
  induction ds generalizing expect with
  | nil => simp [contiguousFrom]
  | cons d ds ih =>
    rw [contiguousFrom, Bool.and_eq_true, decide_eq_true_eq, List.map_cons, List.length_cons,
      List.range'_succ, List.cons.injEq, UInt64.toNat_inj]
    refine and_congr_right fun hd => ?_
    by_cases htop : expect.toNat < 2 ^ 64 - 1
    · rw [ih fun x hx => hlow x (by simp [hx]), toNat_succ htop]
    · have hword := expect.toNat_lt
      cases ds with
      | nil => simp [contiguousFrom]
      | cons x ds =>
        have hzero : (expect + 1).toNat = 0 := by
          rw [UInt64.toNat_add, UInt64.toNat_one]
          omega
        have hx := UInt64.lt_iff_toNat_lt.mp (hlow x (by simp))
        have hxword := x.seq.toNat_lt
        have hne : ¬x.seq = expect + 1 := by
          intro he
          rw [he] at hx
          omega
        simp only [contiguousFrom, hne, decide_false, Bool.false_and, Bool.false_eq_true,
          List.map_cons, List.length_cons, List.range'_succ, List.cons.injEq, false_iff, not_and]
        omega

end BookTracker

variable [Zero P] {m k : Nat}

namespace BookBuilder

open OrderBook (Shows)
open BookTracker (later mem_later contiguousFrom contiguousFrom_iff contiguousFrom_bounds
  contiguousFrom_ends)

/-- The buffered deltas that the snapshot does not contain carry on from it one by one. -/
def Closes (asOf : UInt64) (b : BookBuilder P m k) : Prop :=
  (later asOf b.buffered).map (fun d => d.seq.toNat) =
    List.range' (asOf.toNat + 1) (later asOf b.buffered).length

theorem contiguousFrom_iff_closes {b : BookBuilder P m k} {asOf : UInt64}
    (hmax : asOf.toNat < 2 ^ 64 - 1) :
    contiguousFrom (asOf + 1) (later asOf b.buffered) = true ↔ b.Closes asOf := by
  rw [contiguousFrom_iff fun d hd => (mem_later.mp hd).2, toNat_succ hmax]
  rfl

section Whole

variable {calls : List (BuilderCall P)} {a b : BookBuilder P m k}

/-- No delta was dropped: a live builder is past all of them, and a recovering one buffers all
but those before the gap, from which the number that it still expects divides them. -/
structure Whole (calls : List (BuilderCall P)) (b : BookBuilder P m k) : Prop where
  ahead : b.state = .live → ∀ x ∈ received calls, x.seq < b.expected
  kept : b.state = .recovering → ∃ older, received calls = older ++ b.buffered ∧
    (older = [] ∨ b.buffered ≠ [] ∧ (∀ x ∈ older, x.seq < b.expected) ∧
      ∀ y ∈ b.buffered, b.expected < y.seq)

theorem whole_fresh : Whole [] ({} : BookBuilder P m k) where
  ahead := fun h => State.noConfusion h
  kept := fun _ => ⟨[], rfl, Or.inl rfl⟩

theorem Whole.hold {d : BookDelta P} (h : Whole calls a) (hseq : InSequence (calls ++ [.delta d]))
    (hrec : a.state = .recovering) (hstate : b.state = a.state) (hexp : b.expected = a.expected)
    (hbuf : b.buffered = a.buffered ++ [d]) : Whole (calls ++ [.delta d]) b := by
  have hlast := hseq.lt_last
  refine ⟨fun hlive => by simp [hstate, hrec] at hlive, fun _ => ?_⟩
  obtain ⟨older, hsplit, hgap⟩ := h.kept hrec
  refine ⟨older, by rw [received_delta, hsplit, hbuf, List.append_assoc], ?_⟩
  refine hgap.imp_right fun ⟨hne, hbefore, hafter⟩ => ?_
  rw [hbuf, hexp]
  refine ⟨by simp, hbefore, ?_⟩
  intro y hy
  rcases List.mem_append.mp hy with hy | hy
  · exact hafter y hy
  · obtain ⟨x, hx⟩ := List.exists_mem_of_ne_nil _ hne
    rw [List.mem_singleton.mp hy]
    exact UInt64.lt_trans (hafter x hx) (hlast x (by rw [hsplit]; simp [hx]))

/-- A committed snapshot leaves every delta behind the number that is expected next. -/
theorem Whole.lt_committed {asOf : UInt64} (h : Whole calls a) (hseq : InSequence calls)
    (hmem : ∀ d ∈ a.buffered, d ∈ received calls) (hmax : asOf.toNat < 2 ^ 64 - 1)
    (hstale : ¬(a.state = .live ∧ asOf < a.expected))
    (hrun : contiguousFrom (asOf + 1) (later asOf a.buffered) = true) :
    ∀ x ∈ received calls,
      x.seq < asOf + 1 + UInt64.ofNat (later asOf a.buffered).length := by
  have hbound : ∀ d ∈ later asOf a.buffered, d.seq.toNat < 2 ^ 64 - 1 :=
    fun d hd => hseq.2 d (hmem d (mem_later.mp hd).1)
  obtain ⟨hend, hall⟩ := contiguousFrom_bounds hbound hrun
  intro x hx
  rw [UInt64.lt_iff_toNat_lt, hend, toNat_succ hmax]
  by_cases hold : x.seq.toNat ≤ asOf.toNat
  · omega
  have hnew : asOf < x.seq := UInt64.lt_iff_toNat_lt.mpr (not_le.mp hold)
  cases hstate : a.state with
  | live => exact absurd ⟨hstate, UInt64.lt_trans hnew (h.ahead hstate x hx)⟩ hstale
  | recovering =>
    obtain ⟨older, hsplit, hgap⟩ := h.kept hstate
    rcases List.mem_append.mp (hsplit ▸ hx) with hx | hx
    · -- an older delta past the snapshot would leave a hole before the first that waits
      obtain ⟨hne, hbefore, hafter⟩ := hgap.resolve_left (List.ne_nil_of_mem hx)
      obtain ⟨y, hy⟩ := List.exists_mem_of_ne_nil _ hne
      have hy' : y ∈ later asOf a.buffered := mem_later.mpr
        ⟨hy, UInt64.lt_trans hnew (UInt64.lt_trans (hbefore x hx) (hafter y hy))⟩
      obtain ⟨z, hz, hfirst⟩ := (contiguousFrom_ends hbound hrun (List.ne_nil_of_mem hy')).1
      have hzx := UInt64.lt_iff_toNat_lt.mp
        (UInt64.lt_trans (hbefore x hx) (hafter z (mem_later.mp hz).1))
      rw [hfirst, toNat_succ hmax] at hzx
      omega
    · have := (hall x (mem_later.mpr ⟨hx, hnew⟩)).2
      rwa [toNat_succ hmax] at this

theorem Whole.mem_received (h : Whole calls a) (hlive : a.state = .live → a.buffered = []) :
    ∀ d ∈ a.buffered, d ∈ received calls := by
  intro d hd
  cases hstate : a.state with
  | live => simp [hlive hstate] at hd
  | recovering =>
    obtain ⟨older, hsplit, _⟩ := h.kept hstate
    rw [hsplit]
    exact List.mem_append_right _ hd

/-- A call counts an overflow, or it keeps every delta. -/
theorem Whole.called {c : BuilderCall P} (hseq : InSequence (calls ++ [c])) (hc : c.BelowTop)
    (hlive : a.state = .live → a.buffered = []) (hcall : Called a c b) :
    b.stats.bufferOverflow = a.stats.bufferOverflow ∧
      (Whole calls a → Whole (calls ++ [c]) b) ∨
    b.stats.bufferOverflow = a.stats.bufferOverflow + 1 ∧
      (received (calls ++ [c])).length = (received calls).length + 1 := by
  cases hcall with
  | @applied d _ hstate hd =>
    refine Or.inl ⟨rfl, fun h => ⟨fun _ => ?_, fun hs => by simp [hstate] at hs⟩⟩
    have hnext : (a.expected + 1).toNat = a.expected.toNat + 1 := toNat_succ (hd ▸ hc)
    intro x hx
    rw [received_delta] at hx
    rw [UInt64.lt_iff_toNat_lt]
    change x.seq.toNat < (a.expected + 1).toNat
    rcases List.mem_append.mp hx with hx | hx
    · have := UInt64.lt_iff_toNat_lt.mp (h.ahead hstate x hx)
      omega
    · rw [List.mem_singleton.mp hx, hd]
      omega
  | @late d hstate hd =>
    refine Or.inl ⟨rfl, fun h => ⟨fun _ => ?_, fun hs => by simp [hstate] at hs⟩⟩
    intro x hx
    rw [received_delta] at hx
    rcases List.mem_append.mp hx with hx | hx
    · exact h.ahead hstate x hx
    · exact List.mem_singleton.mp hx ▸ hd
  | @gap d _ hstate hd hbuffer =>
    obtain ⟨hb, hexp, hbuf⟩ := buffer_spec hbuffer
    rcases hbuf with ⟨hbuf, hover⟩ | ⟨_, _, hover⟩
    · refine Or.inl ⟨hover, fun h => ⟨fun hs => ?_, fun _ => ?_⟩⟩
      · rw [hb] at hs
        exact State.noConfusion hs
      · refine ⟨received calls, by rw [received_delta, hbuf]; rfl, Or.inr ?_⟩
        rw [hbuf, hexp]
        refine ⟨by simp, h.ahead hstate, ?_⟩
        intro y hy
        exact List.mem_singleton.mp hy ▸ hd
    · exact Or.inr ⟨hover, by rw [received_delta, List.length_append, List.length_singleton]⟩
  | waits hstate hbuffer =>
    obtain ⟨hb, hexp, hbuf⟩ := buffer_spec hbuffer
    rcases hbuf with ⟨hbuf, hover⟩ | ⟨_, _, hover⟩
    · exact Or.inl ⟨hover, fun h => h.hold hseq hstate hb hexp hbuf⟩
    · exact Or.inr ⟨hover, by rw [received_delta, List.length_append, List.length_singleton]⟩
  | stale _ _ =>
    refine Or.inl ⟨rfl, fun h => ?_⟩
    exact ⟨by rw [received_snapshot]; exact h.ahead, by rw [received_snapshot]; exact h.kept⟩
  | commits hstale hrun =>
    refine Or.inl ⟨rfl, fun h => ⟨fun _ => ?_, fun hs => State.noConfusion hs⟩⟩
    rw [received_snapshot]
    exact h.lt_committed (hseq.before (List.prefix_append _ _)) (h.mem_received hlive) hc hstale
      hrun
  | tooOld _ _ =>
    refine Or.inl ⟨rfl, fun h => ?_⟩
    exact ⟨by rw [received_snapshot]; exact h.ahead, by rw [received_snapshot]; exact h.kept⟩

/-- If no number past the snapshot is missing among the deltas received, it closes the gap. -/
theorem Whole.closes {asOf : UInt64} (h : Whole calls b) (hseq : InSequence calls)
    (hrec : b.state = .recovering) (hfull : NoneMissingAfter asOf calls) : b.Closes asOf := by
  obtain ⟨older, hsplit, hgap⟩ := h.kept hrec
  have hpair : ((later asOf b.buffered).map fun d => d.seq.toNat).Pairwise (· < ·) := by
    refine List.pairwise_map.mpr ((hseq.1.imp UInt64.lt_iff_toNat_lt.mp).sublist ?_)
    rw [hsplit]
    exact List.filter_sublist.trans (List.sublist_append_right _ _)
  have hcloses := eq_range'_of_no_holes hpair (a := asOf.toNat + 1) ?_ ?_
  · rwa [List.length_map] at hcloses
  · intro s hs
    obtain ⟨d, hd, rfl⟩ := List.mem_map.mp hs
    exact UInt64.lt_iff_toNat_lt.mp (mem_later.mp hd).2
  · rintro s hs ⟨_, hmem, hsx⟩
    obtain ⟨x, hx, rfl⟩ := List.mem_map.mp hmem
    rcases hsx.eq_or_lt with rfl | hsx
    · exact List.mem_map_of_mem hx
    have hxb := (mem_later.mp hx).1
    obtain ⟨d, hd, rfl⟩ := hfull s hs ⟨x, by rw [hsplit]; simp [hxb], hsx⟩
    rcases List.mem_append.mp (hsplit ▸ hd) with hd | hd
    · -- the number expected at the gap lies between the two and was never received
      obtain ⟨_, hbefore, hafter⟩ := hgap.resolve_left (List.ne_nil_of_mem hd)
      have hlow := UInt64.lt_iff_toNat_lt.mp (hbefore d hd)
      obtain ⟨e, he, hexp⟩ := hfull b.expected.toNat (by omega)
        ⟨x, by rw [hsplit]; simp [hxb], UInt64.lt_iff_toNat_lt.mp (hafter x hxb)⟩
      have hne : e.seq ≠ b.expected := by
        rcases List.mem_append.mp (hsplit ▸ he) with he | he
        · exact UInt64.ne_of_lt (hbefore e he)
        · exact (UInt64.ne_of_lt (hafter e he)).symm
      exact absurd (UInt64.toNat_inj.mp hexp) hne
    · exact List.mem_map_of_mem (mem_later.mpr ⟨hd, UInt64.lt_iff_toNat_lt.mpr hs⟩)

end Whole

variable [LinearOrder P] {calls : List (BuilderCall P)} {b : BookBuilder P m k}

theorem buffered_of_live (hb : run m k calls = some b) (hlive : b.state = .live) :
    b.buffered = [] := by
  obtain ⟨b', hb', htracks⟩ := tracks_run m k calls
  obtain rfl := Option.some.inj (hb.symm.trans hb')
  generalize BookTracker.run m k calls = t at htracks
  cases t with
  | recovering pending =>
    rw [htracks.1] at hlive
    exact State.noConfusion hlive
  | live expected v =>
    rw [buffered, htracks.2.1]
    rfl

theorem whole_run (hseq : InSequence calls) (hc : ∀ c ∈ calls, c.BelowTop)
    (hb : run m k calls = some b) : ∃ n ≤ (received calls).length,
      b.stats.bufferOverflow = UInt64.ofNat n ∧ (n = 0 → Whole calls b) := by
  induction calls using List.reverseRecOn generalizing b with
  | nil =>
    obtain rfl := Option.some.inj hb
    exact ⟨0, le_rfl, rfl, fun _ => whole_fresh⟩
  | append_singleton calls c ih =>
    obtain ⟨a, ha, _, hcall⟩ := called_run hb
    obtain ⟨n, hn, hover, hwhole⟩ := ih (hseq.before (List.prefix_append _ _))
      (fun x hx => hc x (by simp [hx])) ha
    have hlen : (received calls).length ≤ (received (calls ++ [c])).length :=
      ((List.prefix_append _ _).sublist.filterMap _).length_le
    rcases Whole.called hseq (hc c (by simp)) (buffered_of_live ha) hcall with
      ⟨hsame, hkeep⟩ | ⟨hmore, hgrow⟩
    · exact ⟨n, hn.trans hlen, hsame.trans hover, fun hz => hkeep (hwhole hz)⟩
    · refine ⟨n + 1, by omega, ?_, fun hz => absurd hz (Nat.succ_ne_zero n)⟩
      rw [hmore, hover, UInt64.ofNat_add]
      rfl

/-- With none dropped and none missing past it, a snapshot leads past every delta. -/
theorem onSnapshot_recovers {b' : BookBuilder P m k} {asOf : UInt64}
    {levels : List (SnapshotLevel P)} (hb : run m k calls = some b)
    (hmax : asOf.toNat < 2 ^ 64 - 1) (hb' : b.onSnapshot asOf levels = some b')
    (hcommit : ¬(b.state = .live ∧ asOf < b.expected) → b.Closes asOf → b'.state = .live)
    (hseq : InSequence calls) (hc : ∀ c ∈ calls, c.BelowTop) (hover : b.stats.bufferOverflow = 0)
    (hfull : NoneMissingAfter asOf calls) :
    b'.state = .live ∧ (b.state = .recovering → b.Closes asOf) ∧
      ∀ d ∈ received calls, d.seq < b'.expected := by
  obtain ⟨n, hn', hcount, hwhole⟩ := whole_run hseq hc hb
  have hzero : n = 0 := by
    have hlen := hseq.length_received
    rw [hover] at hcount
    have := congrArg UInt64.toNat hcount
    rwa [UInt64.toNat_ofNat_of_lt' (show n < 2 ^ 64 by omega), UInt64.toNat_zero,
      eq_comm] at this
  have hwhole := hwhole hzero
  have hcloses : b.state = .recovering → b.Closes asOf :=
    fun hrec => hwhole.closes hseq hrec hfull
  have hseq' : InSequence (calls ++ [.snapshot asOf levels]) := by
    rwa [InSequence, received_snapshot]
  have hafter := Whole.called hseq' hmax (buffered_of_live hb) (call_cases (nbuf_le_run hb) hb')
  have hahead : Whole (calls ++ [.snapshot asOf levels]) b' := by
    rcases hafter with ⟨_, hkeep⟩ | ⟨_, hgrow⟩
    · exact hkeep hwhole
    · rw [received_snapshot] at hgrow
      omega
  have hlive : b'.state = .live := by
    by_cases hstale : b.state = .live ∧ asOf < b.expected
    · rw [onSnapshot, if_pos hstale] at hb'
      cases Option.some.inj hb'
      exact hstale.1
    · refine hcommit hstale ?_
      cases hstate : b.state with
      | recovering => exact hcloses hstate
      | live =>
        rw [Closes, buffered_of_live hb hstate]
        rfl
  refine ⟨hlive, hcloses, ?_⟩
  have := hahead.ahead hlive
  rwa [received_snapshot] at this

/-- A snapshot is taken over exactly if the buffered deltas past it carry on from it one by
one, and then the book is the snapshot with these deltas on top; otherwise nothing changes but
the count of snapshots that came too late. So with deltas in sequence, none of them dropped, a
snapshot that is not older than the last missing number brings the book back. Numbers are
words: only below the largest one is the next expected number past all others. -/
theorem onSnapshot_exact (hb : run m k calls = some b) {asOf : UInt64}
    (hmax : asOf.toNat < 2 ^ 64 - 1) (levels : List (SnapshotLevel P)) :
    ∃ b', b.onSnapshot asOf levels = some b' ∧
      (b.state = .live ∧ asOf < b.expected → b' = b) ∧
      (¬(b.state = .live ∧ asOf < b.expected) →
        (b'.stats.recovered = b.stats.recovered + 1 ↔ b.Closes asOf) ∧
        (b.Closes asOf →
          (∃ snapshot book, levels.foldlM applyLevel ({} : OrderBook P m) = some snapshot ∧
            (later asOf b.buffered).foldlM OrderBook.applyDelta snapshot = some book ∧
            b'.book.equals book = some true) ∧
          b'.expected = UInt64.ofNat (asOf.toNat + (later asOf b.buffered).length + 1) ∧
          b'.buffered = [] ∧ b'.state = .live) ∧
        (¬b.Closes asOf → b' = { b with
          stats := { b.stats with snapshotTooOld := b.stats.snapshotTooOld + 1 } })) ∧
      ((received calls).Pairwise (fun x y => x.seq < y.seq) → (∀ c ∈ calls, c.BelowTop) →
        b.stats.bufferOverflow = 0 →
        NoneMissingAfter asOf calls →
        b'.state = .live ∧ (b.state = .recovering → b.Closes asOf) ∧
          ∀ d ∈ received calls, d.seq < b'.expected) := by
  have hn := nbuf_le_run hb
  by_cases hstale : b.state = .live ∧ asOf < b.expected
  · have hsame : b.onSnapshot asOf levels = some b := by rw [onSnapshot, if_pos hstale]; rfl
    exact ⟨b, hsame, fun _ => rfl, fun h => absurd hstale h,
      fun hpair hc => onSnapshot_recovers hb hmax hsame (fun h => absurd hstale h)
        (inSequence_of_belowTop hpair hc) hc⟩
  by_cases hcloses : b.Closes asOf
  · have hrun := (contiguousFrom_iff_closes hmax).mpr hcloses
    obtain ⟨book, hbook, hshows⟩ := onSnapshot_commits b hn asOf levels hstale hrun
    refine ⟨_, hbook, fun h => absurd h hstale, fun _ => ⟨?_, fun _ => ?_, fun h => absurd hcloses h⟩,
      fun hpair hc => onSnapshot_recovers hb hmax hbook (fun _ _ => rfl)
        (inSequence_of_belowTop hpair hc) hc⟩
    · exact iff_of_true rfl hcloses
    · obtain ⟨snapshot, hsnapshot, hs⟩ := applyLevels_spec ({} : OrderBook P m) levels
      have hstep : ∀ (c : OrderBook P m) v d, d ∈ later asOf b.buffered → Shows c v →
          ∃ c', c.applyDelta d = some c' ∧ Shows c' (Depth.applyDelta v d) :=
        fun _ _ _ _ h => h.apply _ _ _
      obtain ⟨ref, href, hs'⟩ := foldlM_simulates hstep hs
      refine ⟨⟨snapshot, ref, hsnapshot, href, (hshows.equals_iff hs').mpr rfl⟩, ?_, rfl, rfl⟩
      change asOf + 1 + UInt64.ofNat (later asOf b.buffered).length = _
      rw [succ_add_ofNat, Nat.add_assoc, UInt64.ofNat_add asOf.toNat, UInt64.ofNat_toNat]
  · have hhole := mt (contiguousFrom_iff_closes hmax).mp hcloses
    have hreject := onSnapshot_rejects b hn asOf levels hstale hhole
    refine ⟨_, hreject, fun h => absurd h hstale, fun _ => ⟨?_, fun h => absurd h hcloses, fun _ => rfl⟩,
      fun hpair hc => onSnapshot_recovers hb hmax hreject (fun _ h => absurd h hcloses)
        (inSequence_of_belowTop hpair hc) hc⟩
    refine iff_of_false ?_ hcloses
    intro he
    have := congrArg UInt64.toNat he
    change b.stats.recovered.toNat = (b.stats.recovered + 1).toNat at this
    rw [UInt64.toNat_add, UInt64.toNat_one] at this
    omega

/-- The second delta is lost, and a snapshot up to it arrives behind the third. -/
def lostSecond : List (BuilderCall ℤ) :=
  [.snapshot 0 [], .delta ⟨1, 100, 5, 0⟩, .delta ⟨3, 101, 7, 0⟩]

theorem onSnapshot_exact_lostSecond :
    ∃ b b' : BookBuilder ℤ 2 4, run 2 4 lostSecond = some b ∧ b.state = .recovering ∧
      b.onSnapshot 2 [⟨100, 6, 0⟩] = some b' ∧ b'.state = .live ∧
      ∀ d ∈ received lostSecond, d.seq < b'.expected := by
  obtain ⟨b, hb, _⟩ := tracks_run (P := ℤ) 2 4 lostSecond
  have hstate : (run 2 4 lostSecond).map (fun b => (b.state, b.stats.bufferOverflow)) =
      some (.recovering, 0) := by decide +kernel
  rw [hb, Option.map_some, Option.some.injEq, Prod.mk.injEq] at hstate
  obtain ⟨b', hb', _, _, hrecovers⟩ := onSnapshot_exact hb
    (show (2 : UInt64).toNat < 2 ^ 64 - 1 by decide) [⟨100, 6, 0⟩]
  have hfull : NoneMissingAfter 2 lostSecond := by
    rintro s hs ⟨d, hd, hsd⟩
    change 2 < s at hs
    simp only [received, lostSecond, BuilderCall.delta?, List.filterMap_cons, List.filterMap_nil,
      List.mem_cons, List.not_mem_nil, or_false] at hd
    rcases hd with rfl | rfl
    · exact absurd hsd (by change ¬s < 1; omega)
    · exact absurd hsd (by change ¬s < 3; omega)
  obtain ⟨hlive, _, hahead⟩ := hrecovers (by decide) (by decide) hstate.2 hfull
  exact ⟨b, b', hb, hstate.1, hb', hlive, hahead⟩

/-- A delta with the largest number that a word holds. -/
def lastNumber : List (BuilderCall ℤ) :=
  [.delta ⟨18446744073709551615, 100, 5, 0⟩]

/-- The number expected after the largest one is 0, not past the delta received. -/
theorem onSnapshot_wraps_at_last_number :
    (received lastNumber).Pairwise (fun x y => x.seq < y.seq) ∧
    NoneMissingAfter 18446744073709551614 lastNumber ∧
    ∃ b b' : BookBuilder ℤ 2 4, run 2 4 lastNumber = some b ∧ b.stats.bufferOverflow = 0 ∧
      b.onSnapshot 18446744073709551614 [] = some b' ∧ b'.state = .live ∧ b'.expected = 0 ∧
      ¬∀ d ∈ received lastNumber, d.seq < b'.expected := by
  refine ⟨by decide, ?_, ?_⟩
  · rintro s hs ⟨d, hd, hsd⟩
    rw [show d = ⟨18446744073709551615, 100, 5, 0⟩ from List.mem_singleton.mp hd] at hsd
    change 18446744073709551614 < s at hs
    change s < 18446744073709551615 at hsd
    omega
  · have hrun : ((run 2 4 lastNumber).bind fun b =>
        (b.onSnapshot 18446744073709551614 []).map fun b' =>
          (b.stats.bufferOverflow, b'.state, b'.expected)) = some (0, .live, 0) := by
      decide +kernel
    obtain ⟨b, hb, hrun⟩ := Option.bind_eq_some_iff.mp hrun
    obtain ⟨b', hb', hvalues⟩ := Option.map_eq_some_iff.mp hrun
    obtain ⟨hover, hlive, hzero⟩ := by simpa only [Prod.mk.injEq] using hvalues
    refine ⟨b, b', hb, hover, hb', hlive, hzero, ?_⟩
    rw [hzero]
    decide

end BookBuilder

end OhlcvValidator
