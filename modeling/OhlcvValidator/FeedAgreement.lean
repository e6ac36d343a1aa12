import OhlcvValidator.FeedPipeline
import OhlcvValidator.OrderedUpdate

namespace OhlcvValidator

open Replay (DoubleBits)

namespace Validator

section Published

variable {F : Type} {count k : Nat} {rec : Nat → WireRecord F} {pre post ks : List Nat}

/-- What the validator can tell of the publisher's records below `count`. -/
structure Published (count : Nat) (rec : Nat → WireRecord F) : Prop where
  same_symbol : ∀ j k, (rec j).symbol = (rec k).symbol ↔ j % 4 = k % 4
  stream : ∀ k, (rec k).stream = .trade
  stamp : ∀ j k, j < k → k < count → (rec j).stamp < (rec k).stamp
  seq : ∀ k < count, (rec k).seq.toNat = k / 4 + 1

theorem Published.few (hp : Published count rec) (ks : List Nat) :
    ((ks.map rec).map WireRecord.symbol).toFinset.card ≤ 4096 := by
  have hsub : ((ks.map rec).map WireRecord.symbol).toFinset ⊆
      (Finset.range 4).image fun i => (rec i).symbol := by
    intro s hs
    simp only [List.mem_toFinset, List.mem_map] at hs
    obtain ⟨_, ⟨k, _, rfl⟩, rfl⟩ := hs
    refine Finset.mem_image.mpr ⟨k % 4, Finset.mem_range.mpr (Nat.mod_lt _ (by decide)), ?_⟩
    exact (hp.same_symbol _ _).mpr (Nat.mod_mod _ _)
  have hcard := (Finset.card_le_card hsub).trans Finset.card_image_le
  rw [Finset.card_range] at hcard
  omega

theorem Published.own (hp : Published count rec) (pre : List Nat) (k : Nat) :
    (pre.map rec).filter (fun q => q.symbol = (rec k).symbol) =
      (pre.filter fun j => j % 4 = k % 4).map rec := by
  rw [List.filter_map]
  congr 2
  funext j
  simp [hp.same_symbol]

section After

/-! A record after the last one `j` of its symbol. -/

variable {j : Nat}

theorem lastSeqOf_of_lastSame (hlast : lastSame 4 pre k = some j) :
    lastSeqOf ((pre.filter fun i => i % 4 = k % 4).map rec) = (rec j).seq := by
  obtain ⟨init, hinit⟩ := List.getLast?_eq_some_iff.mp hlast
  rw [lastSeqOf, hinit]
  simp

theorem Published.lastStamp_of_lastSame (hp : Published count rec)
    (hlast : lastSame 4 pre k = some j) :
    lastStamp .trade ((pre.filter fun i => i % 4 = k % 4).map rec) = (rec j).stamp := by
  obtain ⟨init, hinit⟩ := List.getLast?_eq_some_iff.mp hlast
  have hall : ((pre.filter fun i => i % 4 = k % 4).map rec).filter (fun q => q.stream = .trade) =
      (pre.filter fun i => i % 4 = k % 4).map rec := by
    rw [List.filter_eq_self]
    intro q hq
    obtain ⟨i, _, rfl⟩ := List.mem_map.mp hq
    simp [hp.stream i]
  rw [lastStamp, hall, hinit]
  simp

theorem Published.skips_iff (hp : Published count rec) (hlast : lastSame 4 pre k = some j)
    (hres : j % 4 = k % 4) (hjk : j < k) (hk : k < count) :
    Skips ((pre.filter fun i => i % 4 = k % 4).map rec) (rec k) ↔ 0 < skipped 4 pre k := by
  have hne : (pre.filter fun i => i % 4 = k % 4).map rec ≠ [] := by
    obtain ⟨init, hinit⟩ := List.getLast?_eq_some_iff.mp hlast
    rw [hinit]
    simp
  have hseqj := hp.seq j (hjk.trans hk)
  have hseqk := hp.seq k hk
  have hword := (rec k).seq.toNat_lt
  have hsucc : ((rec j).seq + 1).toNat = j / 4 + 2 := by
    rw [toNat_succ (by omega), hseqj]
  have hskip : skipped 4 pre k = (k - j) / 4 - 1 := by rw [skipped, hlast]
  rw [Skips, and_iff_right hne, lastSeqOf_of_lastSame hlast, UInt64.lt_iff_toNat_lt, hsucc, hseqk,
    hskip]
  omega

/-- The size of a gap, once there is one. -/
theorem Published.gap_of_lastSame (hp : Published count rec) (hlast : lastSame 4 pre k = some j)
    (hres : j % 4 = k % 4) (hjk : j < k) (hk : k < count) (hpos : 0 < skipped 4 pre k) :
    ((rec k).seq - (rec j).seq - 1).toNat = skipped 4 pre k := by
  have hseqj := hp.seq j (hjk.trans hk)
  have hseqk := hp.seq k hk
  have hskip : skipped 4 pre k = (k - j) / 4 - 1 := by rw [skipped, hlast]
  have hle : (rec j).seq ≤ (rec k).seq := UInt64.le_iff_toNat_le.mpr (by omega)
  have hdist : ((rec k).seq - (rec j).seq).toNat = k / 4 - j / 4 := by
    rw [UInt64.toNat_sub_of_le _ _ hle, hseqj, hseqk]
    omega
  have hone : (1 : UInt64) ≤ (rec k).seq - (rec j).seq := by
    rw [UInt64.le_iff_toNat_le, hdist, UInt64.toNat_one]
    omega
  rw [UInt64.toNat_sub_of_le _ _ hone, hdist, UInt64.toNat_one]
  omega

end After

variable [PriceArith F]

/-- A record of the publisher is never late, and its gap is what its symbol skipped. -/
theorem Published.result (hp : Published count rec) (hs : (pre ++ k :: post).Pairwise (· < ·))
    (hlt : ∀ j ∈ pre ++ k :: post, j < count) :
    ∃ r, (run ((pre ++ k :: post).map rec)).2[pre.length]? = some r ∧
      r.has .timestampRegression = false ∧
      (r.has .sequenceGap = true ↔ 0 < skipped 4 pre k) ∧ r.gap.toNat = skipped 4 pre k := by
  obtain ⟨hpre, _, hcross⟩ := List.pairwise_append.mp hs
  have hfew := hp.few (pre ++ k :: post)
  have hk := hlt k (by simp)
  rw [List.map_append, List.map_cons] at hfew ⊢
  obtain ⟨r, hr, hts, hgap, hsize, _⟩ := sequencing_exact hfew
  rw [List.length_map] at hr
  refine ⟨r, hr, ?_⟩
  rw [hp.own, hp.stream k] at hts
  rw [hp.own] at hgap hsize
  cases hlast : lastSame 4 pre k with
  | none =>
    have hnil : pre.filter (fun j => j % 4 = k % 4) = [] := List.getLast?_eq_none_iff.mp hlast
    rw [hnil] at hts hgap hsize
    have hskip : skipped 4 pre k = 0 := by rw [skipped, hlast]
    refine ⟨?_, ?_, ?_⟩
    · rw [← Bool.not_eq_true, hts]
      simp [lastStamp]
    · rw [hgap, hskip]
      simp [Skips]
    · rw [hsize, hskip]
      simp [Skips]
  | some j =>
    obtain ⟨⟨hjmem, hjres⟩, _⟩ := lastSame_some hpre hlast
    have hjk : j < k := hcross j hjmem k (by simp)
    have hskips := hp.skips_iff hlast hjres hjk hk
    refine ⟨?_, hgap.trans hskips, ?_⟩
    · rw [← Bool.not_eq_true, hts, hp.lastStamp_of_lastSame hlast]
      rintro ⟨_, hlate⟩
      exact UInt64.lt_asymm hlate (hp.stamp j k hjk hk)
    · rw [hsize]
      split
      next h =>
        rw [lastSeqOf_of_lastSame hlast, hp.gap_of_lastSame hlast hjres hjk hk (hskips.mp h)]
      next h =>
        have : ¬0 < skipped 4 pre k := fun hpos => h (hskips.mpr hpos)
        rw [UInt64.toNat_zero]
        omega

/-- The validator's gaps add up to what is missing between delivered records of a symbol. -/
theorem Published.sum_gap (hp : Published count rec) (hs : ks.Pairwise (· < ·))
    (hlt : ∀ j ∈ ks, j < count) :
    ((run (ks.map rec)).2.map fun r => r.gap.toNat).sum =
      ((Finset.range count).filter (Missing 4 ks)).card := by
  induction ks using List.reverseRecOn with
  | nil =>
    have hempty : (Finset.range count).filter (Missing 4 []) = ∅ := by
      rw [Finset.filter_eq_empty_iff]
      rintro u _ ⟨_, ⟨j, hj, _⟩, _⟩
      simp at hj
    rw [hempty]
    rfl
  | append_singleton ks k ih =>
    obtain ⟨hks, _, hcross⟩ := List.pairwise_append.mp hs
    have hbelow : ∀ j ∈ ks, j < k := fun j hj => hcross j hj k (by simp)
    obtain ⟨r, hr, _, _, hgap⟩ := hp.result hs hlt
    rw [card_missing_concat (by decide) hks hbelow (hlt k (by simp)),
      ← ih hks fun j hj => hlt j (by simp [hj]), ← hgap]
    rw [List.map_append, List.map_cons, List.map_nil, run_concat] at hr ⊢
    have hlast : ((run (ks.map rec)).1.check (rec k)).2 = r := by
      have hlen : ks.length = (run (ks.map rec)).2.length := by
        rw [length_run, List.length_map]
      rw [hlen, List.getElem?_concat_length] at hr
      exact Option.some.inj hr
    rw [hlast]
    simp

end Published

end Validator

namespace FeedHandler

open FeedPublisher (trade packet tickerOf)

section Source

variable {D : Type} [PriceArith D] {toBits : D → DoubleBits} {draws : Nat → D} {count : Nat}

/-- The sink on trades is a validator's run. -/
theorem foldl_sink {F : Type} [PriceArith F] (ofBits : DoubleBits → F) (toBits : D → DoubleBits)
    (draws : Nat → D) (ks : List Nat) :
    let h := ks.foldl (fun h k => Handler.sink ofBits h (trade toBits draws k).wrap) {}
    (h.validator, h.results) =
      Validator.run (ks.map fun k => (trade toBits draws k).wrap.dispatch ofBits) := by
  induction ks using List.reverseRecOn with
  | nil => rfl
  | append_singleton ks k ih =>
    obtain ⟨htype, htrade⟩ := (trade toBits draws k).read_wrap
    simp only at ih
    rw [List.map_append, List.map_cons, List.map_nil, Validator.run_concat, ← ih,
      List.foldl_append, Replay.TradeBody.dispatch_wrap]
    simp only [List.foldl_cons, List.foldl_nil, Handler.sink, if_pos htype, htrade, Handler.tally]

/-- The results of a sink that got these records. -/
theorem results_of_sink {F : Type} [PriceArith F] (ofBits : DoubleBits → F)
    {sent : List (UInt64 × Replay.WireRecord)} {ks : List Nat}
    (hsent : sent = ks.map fun k => (UInt64.ofNat k, (trade toBits draws k).wrap)) :
    (sent.foldl (fun (h : Handler F) e => h.sink ofBits e.2) {}).results =
      (Validator.run (ks.map fun k => (trade toBits draws k).wrap.dispatch ofBits)).2 := by
  rw [← foldl_sink ofBits toBits draws ks, hsent, List.foldl_map]

/-- How many numbers of a range an ascending list in it leaves out. -/
theorem card_missing {ks : List Nat} {lo hi : Nat} (hsorted : ks.Pairwise (· < ·))
    (hin : ∀ k ∈ ks, lo ≤ k ∧ k < hi) :
    ((Finset.Ico lo hi).filter (· ∉ ks)).card = hi - lo - ks.length := by
  have hsub : ks.toFinset ⊆ Finset.Ico lo hi := by
    intro k hk
    rw [List.mem_toFinset] at hk
    exact Finset.mem_Ico.mpr (hin k hk)
  have hmissing : (Finset.Ico lo hi).filter (· ∉ ks) = Finset.Ico lo hi \ ks.toFinset := by
    ext u
    simp
  rw [hmissing, Finset.card_sdiff_of_subset hsub, Nat.card_Ico,
    List.toFinset_card_of_nodup (hsorted.imp Nat.ne_of_lt)]

section Clock

variable (hclock : ∀ j k, j < k → k < count →
  (trade toBits draws j).tsNs < (trade toBits draws k).tsNs)
include hclock

/-- Timestamps that only increase leave room above the sequences. -/
theorem base_add_le_tsNs {k : Nat} (hk : k < count) :
    FeedPublisher.kBaseNs.toNat + k ≤ (trade toBits draws k).tsNs.toNat := by
  induction k with
  | zero =>
    change _ ≤ (FeedPublisher.kBaseNs + UInt64.ofNat 0 * 1000).toNat
    decide
  | succ k ih =>
    have hlt := UInt64.lt_iff_toNat_lt.mp (hclock k (k + 1) (by omega) hk)
    have := ih (by omega)
    omega

theorem seq_lt {k : Nat} (hk : k < count) : k < 2 ^ 64 - 2 := by
  have hle := base_add_le_tsNs hclock hk
  have hword := (trade toBits draws k).tsNs.toNat_lt
  have hbase : FeedPublisher.kBaseNs.toNat = 1704206000000000000 := by decide
  omega

theorem published {F : Type} (ofBits : DoubleBits → F) :
    Validator.Published count fun k => (trade toBits draws k).wrap.dispatch ofBits := by
  simp only [Replay.TradeBody.dispatch_wrap]
  refine ⟨?_, fun _ => rfl, hclock, ?_⟩
  · intro j k
    rw [← FeedPublisher.tickerOf_eq_iff]
    exact FeedPublisher.setSymbol_name_injective.eq_iff
  · intro k hk
    have hword := seq_lt hclock hk
    change (trade toBits draws k).seq.toNat = _
    rw [FeedPublisher.trade_seq, UInt64.toNat_ofNat_of_lt' (show _ < 2 ^ 64 by omega)]

theorem seq_packet (line : Line) {k : Nat} (hk : k < count) : (packet toBits draws line k).seq.toNat = k := by
  have := seq_lt hclock hk
  exact UInt64.toNat_ofNat_of_lt' (show k < 2 ^ 64 by omega)

variable {pkts : List (FeedPacket Replay.WireRecord)}
  (hpub : ∀ p ∈ pkts, ∃ line, ∃ seq < count, p = packet toBits draws line seq)
include hpub

theorem bounded_offers :
    ∀ c ∈ pkts.map FeedCall.offer ++ [.flush], c.Bounded := by
  intro c hc
  cases c with
  | flush => trivial
  | offer p =>
    obtain ⟨line, k, hk, rfl⟩ := hpub p (by simpa using hc)
    have := seq_lt hclock hk
    change (packet toBits draws line k).seq.toNat ≤ _
    rw [seq_packet hclock line hk]
    omega

/-- Each message sent is the publisher's record of its sequence. -/
theorem sent_published
    {st : FeedSession Replay.WireRecord kWindow}
    (href : FeedArbitrator.Refines st
      (Arbiter.run kWindow.size (pkts.map FeedCall.offer ++ [.flush]))) :
    ∀ e ∈ (Arbiter.run kWindow.size (pkts.map FeedCall.offer ++ [.flush])).sent,
      e.1 < count ∧ e.2 = (trade toBits draws e.1).wrap := by
  intro e he
  have hknown := FeedArbitrator.known_iff_firstAdmitted (w := kWindow) (bounded_offers hclock hpub)
  rw [← href.sink] at he
  obtain ⟨⟨x, r⟩, hx, rfl⟩ := List.mem_map.mp he
  obtain ⟨pre, p, ⟨⟨⟨post, hcalls⟩, _⟩, _⟩, hpx, hpr⟩ :=
    (hknown x r).mp (Or.inl (href.mem_sink_iff.mp hx))
  have hp : FeedCall.offer p ∈ pkts.map FeedCall.offer ++ [.flush] := by
    rw [hcalls]
    simp
  obtain ⟨line, k, hk, rfl⟩ := hpub p (by simpa using hp)
  have hnat : x.toNat = k := by rw [← hpx, seq_packet hclock line hk]
  refine ⟨by rw [hnat]; exact hk, ?_⟩
  rw [hnat, ← hpr]
  rfl

/-- What arrives at the sink, and what the frontier passed without it. -/
theorem arrivals :
    ∃ st, ∃ ks : List Nat, ∃ first,
      FeedArbitrator.run kWindow (pkts.map .offer ++ [.flush]) = some st ∧
      (∀ p ∈ pkts.head?, p.seq.toNat = first) ∧
      st.2 = ks.map (fun k => (UInt64.ofNat k, (trade toBits draws k).wrap)) ∧
      ks.Pairwise (· < ·) ∧
      (∀ k ∈ ks, k < count ∧ first ≤ k ∧ k < st.1.frontier.toNat) ∧
      ((Finset.Ico first st.1.frontier.toNat).filter (· ∉ ks)).card = st.1.stats.gaps.toNat := by
  let calls := pkts.map FeedCall.offer ++ [.flush]
  have hbounded : ∀ c ∈ calls, c.Bounded := bounded_offers hclock hpub
  obtain ⟨st, hrun, href⟩ := FeedArbitrator.refines_run (w := kWindow) hbounded
  have hset := Arbiter.settled_run kWindow.size_pos calls
  have hsent := sent_published hclock hpub href
  have hpass : (∀ first, firstOffered calls = some first →
      (Arbiter.run kWindow.size calls).PassedFrom first.seq.toNat) ∧
      (firstOffered calls = none → (Arbiter.run kWindow.size calls).started = false ∧
        (Arbiter.run kWindow.size calls).gaps = 0) := Arbiter.run_passedFrom kWindow.size_pos
  have hfirst : firstOffered calls = pkts.head? := by
    cases pkts <;> rfl
  generalize Arbiter.run kWindow.size calls = a at href hset hsent hpass
  rw [hfirst] at hpass
  obtain ⟨ks, hksent⟩ : ∃ ks, ks = a.sent.map Prod.fst := ⟨_, rfl⟩
  have hsorted : ks.Pairwise (· < ·) := by
    rw [hksent]
    exact List.pairwise_map.mpr hset.sorted
  have hsplit : a.sent = ks.map fun k => (k, (trade toBits draws k).wrap) := by
    rw [hksent, List.map_map]
    conv_lhs => rw [← List.map_id a.sent]
    refine List.map_congr_left fun e he => ?_
    rw [id, Function.comp_apply, ← (hsent e he).2]
  have hks : ∀ k ∈ ks, k < count ∧ k < st.1.frontier.toNat := by
    intro k hk
    rw [hksent] at hk
    obtain ⟨e, he, rfl⟩ := List.mem_map.mp hk
    rw [href.frontier]
    exact ⟨(hsent e he).1, hset.behind e he⟩
  have hsink : st.2 = ks.map fun k => (UInt64.ofNat k, (trade toBits draws k).wrap) := by
    apply FeedArbitrator.entry_toNat_injective.list_map
    rw [href.sink, hsplit, List.map_map]
    refine List.map_congr_left fun k hk => Prod.ext ?_ rfl
    have := seq_lt hclock (hks k hk).1
    exact (UInt64.toNat_ofNat_of_lt' (show k < 2 ^ 64 by omega)).symm
  have hpassed : ∃ first, (∀ p ∈ pkts.head?, p.seq.toNat = first) ∧ (∀ k ∈ ks, first ≤ k) ∧
      first + ks.length + a.gaps = a.frontier := by
    cases hhead : pkts.head? with
    | none =>
      obtain ⟨hstarted, hgaps⟩ := hpass.2 hhead
      have hnil : ks = [] := by rw [hksent, (hset.idle hstarted).2, List.map_nil]
      exact ⟨a.frontier, by simp, by simp [hnil], by simp [hnil, hgaps]⟩
    | some p =>
      obtain ⟨_, hsum, hge⟩ := hpass.1 p hhead
      refine ⟨p.seq.toNat, by simp, ?_, by rw [hksent, List.length_map]; exact hsum⟩
      intro k hk
      rw [hksent] at hk
      obtain ⟨e, he, rfl⟩ := List.mem_map.mp hk
      exact hge e he
  obtain ⟨first, hhead, hge, hsum⟩ := hpassed
  refine ⟨st, ks, first, hrun, hhead, hsink, hsorted, fun k hk => ⟨(hks k hk).1, hge k hk,
    (hks k hk).2⟩, ?_⟩
  have hfrontier := href.frontier
  have hword := st.1.frontier.toNat_lt
  rw [card_missing hsorted fun k hk => ⟨hge k hk, (hks k hk).2⟩, href.gaps,
    UInt64.toNat_ofNat_of_lt' (show _ < 2 ^ 64 by omega)]
  omega

end Clock

variable {pkts : List (FeedPacket Replay.WireRecord)}

/-- The validator's gaps are the arbitrator's, as far as a symbol can see them:
no record is late, a record has a gap exactly if it follows undelivered packets
of its symbol after a delivered one, and the gaps add up to the sequences given
up as lost between two delivered packets of one symbol. -/
theorem gaps_agree {F : Type} [PriceArith F] (ofBits : DoubleBits → F)
    (hclock : ∀ j k, j < k → k < count → (trade toBits draws j).tsNs < (trade toBits draws k).tsNs)
    (hpub : ∀ p ∈ pkts, ∃ line, ∃ seq < count, p = packet toBits draws line seq) :
    ∃ st, ∃ h : Handler F, ∃ ks : List Nat, ∃ first,
      run ofBits pkts = some (st, h) ∧
      (∀ p ∈ pkts.head?, p.seq.toNat = first) ∧
      st.2 = ks.map (fun k => (UInt64.ofNat k, (trade toBits draws k).wrap)) ∧
      ks.Pairwise (· < ·) ∧ h.results.length = ks.length ∧
      (∀ (i k : Nat) (r : Validator.Result), ks[i]? = some k → h.results[i]? = some r →
        r.has .timestampRegression = false ∧
        (r.has .sequenceGap = true ↔ ∃ u < k, u % 4 = k % 4 ∧ u ∉ ks ∧
          (∀ j ∈ ks, j % 4 = k % 4 → j < k → j < u) ∧ ∃ j ∈ ks, j % 4 = k % 4 ∧ j < u)) ∧
      ((Finset.Ico first st.1.frontier.toNat).filter (· ∉ ks)).card = st.1.stats.gaps.toNat ∧
      (h.results.map fun r => r.gap.toNat).sum =
        (((Finset.Ico first st.1.frontier.toNat).filter (· ∉ ks)).filter (Missing 4 ks)).card ∧
      (h.results.map fun r => r.gap.toNat).sum ≤ st.1.stats.gaps.toNat := by
  obtain ⟨st, ks, first, hrun, hhead, hsink, hsorted, hks, hlost⟩ := arrivals hclock hpub
  have hp := published hclock ofBits
  have hlt : ∀ k ∈ ks, k < count := fun k hk => (hks k hk).1
  let h : Handler F := st.2.foldl (fun h e => h.sink ofBits e.2) {}
  have hresults : h.results = (Validator.run
      (ks.map fun k => (trade toBits draws k).wrap.dispatch ofBits)).2 :=
    results_of_sink ofBits hsink
  have hmissing : ((Finset.Ico first st.1.frontier.toNat).filter (· ∉ ks)).filter (Missing 4 ks) =
      (Finset.range count).filter (Missing 4 ks) := by
    ext u
    simp only [Finset.mem_filter, Finset.mem_Ico, Finset.mem_range, and_congr_left_iff]
    rintro ⟨hnot, ⟨j, hj, _, hju⟩, i, hi, _, hui⟩
    have hjb := hks j hj
    have hib := hks i hi
    exact ⟨fun _ => by omega, fun _ => ⟨⟨by omega, by omega⟩, hnot⟩⟩
  have hsum : (h.results.map fun r => r.gap.toNat).sum =
      (((Finset.Ico first st.1.frontier.toNat).filter (· ∉ ks)).filter (Missing 4 ks)).card := by
    rw [hmissing, hresults]
    exact hp.sum_gap hsorted hlt
  refine ⟨st, h, ks, first, ?_, hhead, hsink, hsorted, ?_, ?_, hlost, hsum, ?_⟩
  · rw [run, hrun]
    rfl
  · rw [hresults, Validator.length_run, List.length_map]
  · intro i k r hk hr
    obtain ⟨hi, rfl⟩ := List.getElem?_eq_some_iff.mp hk
    have hsplit := split_of_getElem? hk
    have hsorted' := hsorted
    have hlt' := hlt
    rw [hsplit] at hsorted' hlt'
    obtain ⟨r', hr', hts, hgap, _⟩ := hp.result hsorted' hlt'
    rw [← hsplit, List.length_take, Nat.min_eq_left hi.le, ← hresults, hr] at hr'
    cases Option.some.inj hr'
    refine ⟨hts, ?_⟩
    rw [hgap, skipped_pos_iff_mid (by decide) hsorted', ← hsplit]
  · rw [hsum, ← hlost]
    exact Finset.card_filter_le _ _

/-- The publisher's timestamps increase until the clock wraps. -/
theorem tsNs_lt {j k : Nat} (hjk : j < k) (hk : FeedPublisher.kBaseNs.toNat + 1000 * k < 2 ^ 64) :
    (trade toBits draws j).tsNs < (trade toBits draws k).tsNs := by
  have htoNat : ∀ i ≤ k, (trade toBits draws i).tsNs.toNat =
      FeedPublisher.kBaseNs.toNat + 1000 * i := by
    intro i hi
    change (FeedPublisher.kBaseNs + UInt64.ofNat i * 1000).toNat = _
    rw [UInt64.toNat_add, UInt64.toNat_mul, UInt64.toNat_ofNat']
    change (_ + _ * 1000 % 2 ^ 64) % 2 ^ 64 = _
    omega
  rw [UInt64.lt_iff_toNat_lt, htoNat j hjk.le, htoNat k le_rfl]
  omega

/-- Sequence 4 is lost on both lines, and line B repeats sequence 0 late. -/
def lostFour : List (FeedPacket Replay.WireRecord) :=
  [(Line.A, 0), (.B, 8), (.B, 0), (.A, 5)].map fun p =>
    packet (fun _ : ℚ => 0) (fun _ => 0) p.1 p.2

theorem gaps_agree_lostFour :
    ∃ st, ∃ h : Handler ℚ, run (fun x => (x.toNat : ℚ)) lostFour = some (st, h) ∧
      (h.results.map fun r => r.gap.toNat).sum ≤ st.1.stats.gaps.toNat := by
  have hclock : ∀ j k, j < k → k < 10 → (trade (fun _ : ℚ => 0) (fun _ => 0) j).tsNs <
      (trade (fun _ : ℚ => 0) (fun _ => 0) k).tsNs := by
    intro j k hjk hk
    have hbase : FeedPublisher.kBaseNs.toNat = 1704206000000000000 := by decide
    exact tsNs_lt hjk (by omega)
  have hpub : ∀ p ∈ lostFour, ∃ line, ∃ seq < 10,
      p = packet (fun _ : ℚ => 0) (fun _ => 0) line seq := by
    intro p hp
    obtain ⟨⟨line, seq⟩, hmem, rfl⟩ := List.mem_map.mp hp
    refine ⟨line, seq, ?_, rfl⟩
    simp only [List.mem_cons, Prod.mk.injEq, List.not_mem_nil, or_false] at hmem
    omega
  obtain ⟨st, h, _, _, hrun, _, _, _, _, _, _, _, hle⟩ :=
    gaps_agree (fun x => (x.toNat : ℚ)) hclock hpub
  exact ⟨st, h, hrun, hle⟩

end Source

end FeedHandler

end OhlcvValidator
