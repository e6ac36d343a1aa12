import OhlcvValidator.MixedSequencing

namespace OhlcvValidator

namespace Validator

theorem Result.flags_flagIf_eq_zero_iff (r : Result) (c : Bool) (v : Violation) :
    (r.flagIf c v).flags = 0 ↔ r.flags = 0 ∧ c = false := by
  cases c with
  | false => simp [flagIf]
  | true =>
    have hbit : v.bit ≠ 0 := by
      intro hzero
      have := v.toNat_bit
      rw [hzero, UInt32.toNat_zero] at this
      exact absurd this.symm (Nat.two_pow_pos _).ne'
    simp [flagIf, UInt32.or_eq_zero_iff, hbit]

variable {F : Type} [PriceArith F]

theorem flags_checkSequencing_eq_zero_iff (s : Slot F) (stream : Stream) (ts seq : UInt64)
    (r : Result) :
    (checkSequencing s stream ts seq r).2.flags = 0 ↔ r.flags = 0 ∧
      ¬(s.lastTs stream ≠ 0 ∧ ts < s.lastTs stream) ∧ ¬(s.seen = true ∧ s.lastSeq + 1 < seq) := by
  unfold checkSequencing
  dsimp only
  split
  next hskip => simp [Result.flags_flagIf_eq_zero_iff, hskip]
  next hskip => simp [Result.flags_flagIf_eq_zero_iff, hskip]

/-- A bar may follow another one of its symbol: it does not start earlier and skips no number. -/
def Continues (prev b : WireBar F) : Prop :=
  prev.startNs ≤ b.startNs ∧ b.seq.toNat ≤ prev.seq.toNat + 1

/-- A symbol that only has bars accumulates no trades. -/
theorem hasTrades_solo_bars (k : UInt64) (bars : List (WireBar F)) :
    (solo k (bars.map .bar)).1.hasTrades = false := by
  induction bars using List.reverseRecOn with
  | nil => rfl
  | append_singleton bars b ih =>
    rw [List.map_append, List.map_singleton, solo_concat]
    simp only [stateful, barState, reconcile, checkSequencing, ih]
    rfl

theorem stateful_bar_solo (k : UInt64) (own : List (WireBar F)) (b : WireBar F) :
    (stateful (.bar b) (solo k (own.map .bar)).1 (barFlags b)).2 =
      (checkSequencing (solo k (own.map .bar)).1 .bar b.startNs b.seq (barFlags b)).2 := by
  have hnone : (checkSequencing (solo k (own.map .bar)).1 .bar b.startNs b.seq
      (barFlags b)).1.hasTrades = false := hasTrades_solo_bars k own
  simp [stateful, barState, reconcile, hnone]

theorem flags_bar_solo_eq_zero_iff (k : UInt64) {own : List (WireBar F)} (b : WireBar F)
    (hseq : ∀ q ∈ own, q.seq.toNat < 2 ^ 64 - 1) :
    (stateful (.bar b) (solo k (own.map .bar)).1 (barFlags b)).2.flags = 0 ↔
      (barFlags b).flags = 0 ∧ ∀ prev, own.getLast? = some prev → Continues prev b := by
  have hcursor := cursor_solo k (own.map WireRecord.bar)
  have hwire : ∀ q ∈ own.map WireRecord.bar, q.seq.toNat < 2 ^ 64 - 1 :=
    List.forall_mem_map.mpr hseq
  have hstream : (own.map WireRecord.bar).filter (fun q => q.stream = .bar) =
      own.map WireRecord.bar := by
    simp [List.filter_eq_self, WireRecord.stream]
  have hskip := (hcursor.skips_iff (.bar b)).trans (skips_iff_previous hwire)
  rw [stateful_bar_solo, flags_checkSequencing_eq_zero_iff, hcursor.lastTs,
    regresses_iff_previous, hstream]
  change _ ∧ _ ∧ ¬(_ ∧ _ < (WireRecord.bar b).seq) ↔ _
  rw [hskip, List.getLast?_map]
  cases own.getLast? with
  | none => simp
  | some prev => simp [Continues, WireRecord.stamp, WireRecord.seq]

/-- In a stream of bars, a bar passes all checks exactly if it passes the stateless ones and
continues the last bar of its symbol. -/
theorem bar_ok_iff {pre post : List (WireBar F)} {b : WireBar F}
    (hfew : ((pre ++ b :: post).map WireBar.symbol).toFinset.card ≤ 4096)
    (hseq : ∀ q ∈ pre, q.seq.toNat < 2 ^ 64 - 1) :
    ∃ r, (run ((pre ++ b :: post).map .bar)).2[pre.length]? = some r ∧
      (r.flags = 0 ↔ (barFlags b).flags = 0 ∧
        ∀ prev, (pre.filter fun q => q.symbol = b.symbol).getLast? = some prev →
          Continues prev b) := by
  have hsplit : (pre ++ b :: post).map WireRecord.bar =
      pre.map .bar ++ .bar b :: post.map WireRecord.bar := by simp
  have hsymbols : (pre.map WireRecord.bar ++ WireRecord.bar b :: post.map WireRecord.bar).map
      WireRecord.symbol = (pre ++ b :: post).map WireBar.symbol := by
    simp [WireRecord.symbol, Function.comp_def]
  rw [← hsymbols] at hfew
  obtain ⟨hroom, hcheck⟩ := check_of_few hfew
  have hown : (pre.map WireRecord.bar).filter (fun q => q.symbol = b.symbol) =
      (pre.filter fun q => q.symbol = b.symbol).map .bar := by
    rw [List.filter_map]
    rfl
  have hget := results_run_getElem? (pre.map .bar) (.bar b) (post.map .bar)
  rw [List.length_map] at hget
  rw [hsplit]
  refine ⟨_, hget, ?_⟩
  rw [hcheck, (slots_run hroom).1]
  change (stateful _ (solo _ ((pre.map _).filter fun q => q.symbol = b.symbol)).1 _).2.flags = 0 ↔ _
  rw [hown]
  exact flags_bar_solo_eq_zero_iff _ b fun q hq => hseq q (List.mem_filter.mp hq).1

omit [PriceArith F] in
theorem continues_of_isChain {pre post : List (WireBar F)} {b prev : WireBar F}
    (hchain : ((pre ++ b :: post).filter fun q => q.symbol = b.symbol).IsChain Continues)
    (hprev : (pre.filter fun q => q.symbol = b.symbol).getLast? = some prev) :
    Continues prev b := by
  have hsplit : (pre ++ b :: post).filter (fun q => q.symbol = b.symbol) =
      pre.filter (fun q => q.symbol = b.symbol) ++ b :: post.filter fun q => q.symbol = b.symbol := by
    simp
  rw [hsplit, List.isChain_append] at hchain
  exact hchain.2.2 prev hprev b rfl

/-- Where the bars of every symbol continue each other, a stream of bars passes exactly if each
bar passes by itself. -/
theorem run_bars_ok_iff {bars : List (WireBar F)}
    (hfew : (bars.map WireBar.symbol).toFinset.card ≤ 4096)
    (hseq : ∀ b ∈ bars, b.seq.toNat < 2 ^ 64 - 1)
    (hchain : ∀ symbol, (bars.filter fun q => q.symbol = symbol).IsChain Continues) :
    (∀ r ∈ (run (bars.map .bar)).2, r.ok = true) ↔ ∀ b ∈ bars, (barFlags b).ok = true := by
  have hone : ∀ pre b post, bars = pre ++ b :: post →
      ∃ r, (run (bars.map .bar)).2[pre.length]? = some r ∧
        (r.ok = true ↔ (barFlags b).ok = true) := by
    rintro pre b post rfl
    obtain ⟨r, hr, hok⟩ := bar_ok_iff hfew fun q hq => hseq q (by simp [hq])
    refine ⟨r, hr, ?_⟩
    simp only [Result.ok, decide_eq_true_eq, hok, and_iff_left_iff_imp]
    exact fun _ prev hprev => continues_of_isChain (hchain b.symbol) hprev
  constructor
  · intro hall b hb
    obtain ⟨pre, post, hsplit⟩ := List.append_of_mem hb
    obtain ⟨r, hr, hok⟩ := hone pre b post hsplit
    exact hok.mp (hall r (List.mem_of_getElem? hr))
  · intro hall r hr
    obtain ⟨i, hi, rfl⟩ := List.mem_iff_getElem.mp hr
    have hlt : i < bars.length := by
      rwa [length_run, List.length_map] at hi
    have hsplit : bars = bars.take i ++ bars[i] :: bars.drop (i + 1) := by simp
    obtain ⟨r, hr, hok⟩ := hone _ _ _ hsplit
    rw [List.length_take, Nat.min_eq_left hlt.le, List.getElem?_eq_getElem hi] at hr
    rw [Option.some.inj hr]
    exact hok.mpr (hall _ (List.getElem_mem hlt))

end Validator

end OhlcvValidator
