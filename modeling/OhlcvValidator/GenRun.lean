import OhlcvValidator.GenFeed

namespace OhlcvValidator

namespace GenDataset

open Validator (lastStamp window_concat isBarOf validTradeOf statelessFlags)

theorem clock_succ (σ len : Nat) : clock σ (len + 1) = clock σ len + 1000000 := by
  unfold clock
  omega

section Trade

variable {symCount k : Nat} {st : State} {trades : List (WireTrade ℚ)} {d : Draws}

theorem size_ne_zero (d : Draws) (j k : Nat) : d.size j k ≠ 0 := by
  intro hzero
  have hmem := (d.size_mem j k).1
  rw [hzero] at hmem
  exact absurd hmem (by decide)

/-- A trade that counts has a positive price, at most the spike above the running one. -/
theorem tradePrice_bounds (hpx : Running d (st.px st.s)) (hvalid : ¬(k = 0 ∧ st.defect = .corruptTrade)) :
    1 ≤ tradePrice d st k ∧ tradePrice d st k ≤ movedPx d st k * (16 / 10) := by
  have hmoved := (running_movedPx hpx k).one_le
  unfold tradePrice
  rw [if_neg hvalid]
  split
  next => exact ⟨by linarith, le_refl _⟩
  next => exact ⟨hmoved, by linarith⟩

theorem validTradeOf_tradeOf (hpx : Running d (st.px st.s)) :
    validTradeOf (symbolOf st.s) (.trade (tradeOf d st k)) =
      if k = 0 ∧ st.defect = .corruptTrade then none else some (tradeOf d st k) := by
  have hsize : (tradeOf d st k).size ≠ 0 := size_ne_zero d st.window k
  by_cases hvalid : k = 0 ∧ st.defect = .corruptTrade
  · have hprice : ¬0 < (tradeOf d st k).price := by simp [tradeOf, tradePrice, hvalid]
    rw [if_pos hvalid]
    simp only [validTradeOf]
    rw [if_neg fun hall => hprice hall.2.1]
  · have hprice : 0 < (tradeOf d st k).price :=
      lt_of_lt_of_le one_pos (tradePrice_bounds hpx hvalid).1
    rw [if_neg hvalid]
    simp only [validTradeOf]
    rw [if_pos ⟨rfl, hprice, hsize⟩]

theorem tradeOf_clean (hpx : Running d (st.px st.s)) (h : st.defect = .clean ∨ st.defect = .priceSpike) (v : Violation) :
    (statelessFlags (.trade (tradeOf d st k))).has v = false := by
  have hvalid : ¬(k = 0 ∧ st.defect = .corruptTrade) := by
    rintro ⟨-, hdefect⟩
    rw [hdefect] at h
    simp at h
  have hprice : 0 < (tradeOf d st k).price :=
    lt_of_lt_of_le one_pos (tradePrice_bounds hpx hvalid).1
  have hsize : (tradeOf d st k).size ≠ 0 := size_ne_zero d st.window k
  simp [statelessFlags, Validator.tradeFlags, Validator.validPrice, Validator.validSize,
    PriceArith.lt, PriceArith.lit, hprice, hsize]

/-- One more trade of the window. -/
theorem InWindow.trade (hfew : symCount ≤ 4096) (h : InWindow d symCount st k 0 trades)
    (hk : k < 12) :
    ∃ trades', InWindow d symCount (emitTrade d symCount st k) (k + 1) 0 trades' := by
  obtain ⟨he, hacc⟩ := emitTrade_emits d h.lt k
  have hown := he.own_eq
  have hpx := h.feed.px_running
  have hexplained := h.explain he (running_movedPx hpx k) (by omega)
    (fun hf => ⟨rfl, by simpa using hf, rfl⟩) (fun hc v => tradeOf_clean hpx hc v)
    (fun b hb => by cases hb)
  have hlength := he.length_own_eq
  refine ⟨trades ++ (validTradeOf (symbolOf st.s) (.trade (tradeOf d st k))).toList, ?_⟩
  refine
    { h.toSteady.emit hfew he hexplained with
      window_eq := ?_
      acc := ?_
      count := ?_
      tradable := ?_
      lastTrade := ?_
      opening := by intro h0; omega
      tradeSeen := ?_
      quoteSeen := by intro h0; omega
      fresh := ?_ }
  · rw [hown, he.s_eq, window_concat, h.window_eq]
    rfl
  · rw [hacc, validTradeOf_tradeOf hpx]
    split
    next => simpa using h.acc
    next => exact h.acc.add (tradeOf d st k)
  · have hcount := h.count
    rw [validTradeOf_tradeOf hpx, he.defect_eq]
    by_cases hdefect : st.defect = .corruptTrade
    · by_cases h0 : k = 0
      · subst h0
        simpa [hdefect] using hcount
      · simp only [hdefect, h0, Nat.pos_of_ne_zero h0, and_true, and_self, if_true, if_false,
          Option.toList_some, List.length_append, List.length_singleton, Nat.succ_pos] at hcount ⊢
        omega
    · simp only [hdefect, and_false, false_and, if_false, Option.toList_some, List.length_append,
        List.length_singleton] at hcount ⊢
      omega
  · rw [validTradeOf_tradeOf hpx, he.records_eq]
    split
    next => simpa using h.tradable.mono
    next hvalid =>
      exact h.tradable.mono.concat (List.mem_append_right _ (List.mem_singleton_self _))
        (d.size_mem st.window k).2 (tradePrice_bounds hpx hvalid)
  · intro h2
    have h0 : k ≠ 0 := by omega
    have hstamp := he.stamp_eq.trans (h.feed.stamp _)
    have hback : setBack ⟨st.window, st.defect, decide (k = 0), movedPx d st k,
        .trade (tradeOf d st k)⟩ = 0 := by simp [setBack, h0]
    rw [hback] at hstamp
    rw [hlength, hown, lastStamp_concat, he.s_eq, hstamp]
    rfl
  · intro _
    exact ⟨_, by rw [hown]; exact List.mem_append_right _ (List.mem_singleton_self _), rfl⟩
  · intro hw
    rw [he.window_eq] at hw
    rw [hlength, h.fresh hw]

end Trade

section Quote

variable {symCount k since : Nat} {st : State} {trades : List (WireTrade ℚ)} {d : Draws}

theorem quoteSize_ne_zero (x : UInt64) : 1 + x % 20 ≠ 0 := by
  intro hzero
  have hnat := congrArg UInt64.toNat hzero
  have hlt : x.toNat % 20 < 20 := Nat.mod_lt _ (by decide)
  rw [UInt64.toNat_add, UInt64.toNat_mod] at hnat
  simp at hnat
  omega

theorem quoteOf_clean (h : st.defect = .clean ∨ st.defect = .priceSpike) (hpx : 1 ≤ st.px st.s)
    (qk : Nat) (v : Violation) : (statelessFlags (.quote (quoteOf d st qk))).has v = false := by
  have hplain : ∀ q, injectQuote st qk q = q := by
    intro q
    unfold injectQuote
    rcases h with h | h <;> simp [h]
  have hbid : 0 < st.px st.s - 5 / 100 := by linarith
  have hask : 0 < st.px st.s + 5 / 100 := by linarith
  have horder : ¬st.px st.s + 5 / 100 < st.px st.s - 5 / 100 := by linarith
  have hne : st.px st.s - 5 / 100 ≠ st.px st.s + 5 / 100 := by
    intro heq
    linarith
  simp only [statelessFlags, Validator.quoteFlags, quoteOf, hplain, PriceArith.lt, PriceArith.le,
    PriceArith.eq, PriceArith.lit]
  simp [horder, hne, not_le.mpr hbid, not_le.mpr hask, quoteSize_ne_zero]

/-- One of the window's two quotes. -/
theorem InWindow.quote (hfew : symCount ≤ 4096) (h : InWindow d symCount st k since trades)
    (hk : 2 ≤ k) (hshort : k + since < 15) (qk : Nat) :
    InWindow d symCount (emitQuote d symCount st qk) k (since + 1) trades := by
  obtain ⟨he, hacc⟩ := emitQuote_emits d h.lt qk
  have hown := he.own_eq
  have hexplained := h.explain he h.feed.px_running hshort (fun hf => by cases hf)
    (fun hc v => quoteOf_clean hc h.feed.px_running.one_le qk v) (fun b hb => by cases hb)
  have hlength := he.length_own_eq
  refine
    { h.toSteady.emit hfew he hexplained with
      window_eq := ?_
      acc := by rw [hacc]; exact h.acc
      count := by rw [he.defect_eq]; exact h.count
      tradable := by rw [he.records_eq]; exact h.tradable.mono
      lastTrade := ?_
      opening := by intro h0; omega
      tradeSeen := ?_
      quoteSeen := ?_
      fresh := ?_ }
  · rw [hown, he.s_eq, window_concat, h.window_eq]
    simp [isBarOf, validTradeOf]
  · intro h2
    have hclock : clock st.s ((ownOf st.s st.records).length + 1) - (since + 1) * 1000000 =
        clock st.s (ownOf st.s st.records).length - since * 1000000 := by
      rw [clock_succ]
      omega
    rw [hlength, hown, lastStamp_concat, he.s_eq, hclock]
    exact h.lastTrade h2
  · intro hk0
    obtain ⟨r, hr, hs⟩ := h.tradeSeen hk0
    exact ⟨r, by rw [hown]; exact List.mem_append_left _ hr, hs⟩
  · intro _
    exact ⟨_, by rw [hown]; exact List.mem_append_right _ (List.mem_singleton_self _), rfl⟩
  · intro hw
    rw [he.window_eq] at hw
    rw [hlength, h.fresh hw]
    omega

end Quote

section Bar

variable {d : Draws} {symCount k : Nat} {st : State} {trades : List (WireTrade ℚ)} {b : WireBar ℚ}

/-- A bar that sums up positive trades has nothing wrong with itself. -/
theorem Summarizes.barFlags_clean (h : Summarizes b trades) (hprice : ∀ t ∈ trades, 1 ≤ t.price)
    (hpos : 0 < Validator.totalSize trades) (hsize : Validator.totalSize trades < 2 ^ 64)
    (hlen : trades.length < 2 ^ 64) (hne : trades ≠ []) (v : Violation) :
    (Validator.barFlags b).has v = false := by
  obtain ⟨hmem, hopen, hlow, hhigh, hclose⟩ := h.ohlc.mem_bounds
  have hvwap := Validator.meanPrice_mem (fun t ht => hmem t.price (List.mem_map_of_mem ht)) hpos
  rw [← h.vwap_eq] at hvwap
  have hone : ∀ p ∈ trades.map WireTrade.price, 0 < p := by
    intro p hp
    obtain ⟨t, ht, rfl⟩ := List.mem_map.mp hp
    exact lt_of_lt_of_le one_pos (hprice t ht)
  have hvolume : b.volume ≠ 0 := by
    intro hzero
    have hnat := congrArg UInt64.toNat (h.volume_eq.symm.trans hzero)
    rw [UInt64.toNat_ofNat_of_lt' hsize] at hnat
    simp at hnat
    omega
  have hcount : b.tradeCount ≠ 0 := by
    intro hzero
    have hnat := congrArg UInt64.toNat (h.tradeCount_eq.symm.trans hzero)
    rw [UInt64.toNat_ofNat_of_lt' hlen] at hnat
    exact hne (List.length_eq_zero_iff.mp (by simpa using hnat))
  simp [Validator.barFlags, PriceArith.lt, PriceArith.le, PriceArith.lit, hvolume, hcount,
    not_lt.mpr (hmem _ hhigh).1, not_lt.mpr (hmem _ hopen).1, not_lt.mpr (hmem _ hopen).2,
    not_lt.mpr (hmem _ hclose).1, not_lt.mpr (hmem _ hclose).2, not_lt.mpr hvwap.1,
    not_lt.mpr hvwap.2, not_le.mpr (hone _ hopen), not_le.mpr (hone _ hhigh),
    not_le.mpr (hone _ hlow), not_le.mpr (hone _ hclose)]

theorem InWindow.length_le (h : InWindow d symCount st k 2 trades) :
    trades.length ≤ k ∧ k ≤ trades.length + 1 := by
  have hcount := h.count
  split at hcount <;> omega

theorem InWindow.length_le_totalSize (h : InWindow d symCount st k 2 trades) :
    trades.length ≤ Validator.totalSize trades := by
  rw [← h.window_eq]
  exact Validator.length_window_le _ _

/-- The bar of the aggregate sums up the window's trades. -/
theorem InWindow.summarizes (h : InWindow d symCount st k 2 trades) (hk : 8 ≤ k) (hk12 : k ≤ 12) :
    Summarizes (plainBar st) trades := by
  obtain ⟨hlen, hlen'⟩ := h.length_le
  have htotal := h.tradable.totalSize_le
  have hpos := h.length_le_totalSize
  have hvol : st.acc.vol.toNat = Validator.totalSize trades := by
    rw [h.acc.vol_eq, UInt64.toNat_ofNat_of_lt' (show _ < 2 ^ 64 by omega)]
  have hne : st.acc.vol ≠ 0 := by
    intro hzero
    rw [hzero] at hvol
    change 0 = Validator.totalSize trades at hvol
    omega
  refine ⟨h.acc.ohlc ?_, h.acc.vol_eq, h.acc.cnt_eq, ?_⟩
  · intro hnil
    rw [hnil] at hlen'
    simp at hlen'
    omega
  · simp only [plainBar]
    rw [if_pos hne, h.acc.pv_eq, hvol]
    rfl

/-- The bar completes the window. -/
theorem InWindow.bar (hfew : symCount ≤ 4096) (h : InWindow d symCount st k 2 trades) (hk : 8 ≤ k)
    (hk12 : k ≤ 12) :
    Steady d symCount (emitBar symCount st) ∧ Rest d st.s True (emitBar symCount st) := by
  have he := emitBar_emits h.lt
  have hown := he.own_eq
  obtain ⟨hlen, hlen'⟩ := h.length_le
  have htotal := h.tradable.totalSize_le
  have hpos := h.length_le_totalSize
  have hsummary := h.summarizes hk hk12
  have hclean : st.defect = .clean ∨ st.defect = .priceSpike →
      ∀ v, (statelessFlags (.bar (injectBar st.defect (plainBar st)))).has v = false := by
    intro hc v
    have hplain : injectBar st.defect (plainBar st) = plainBar st := by
      rcases hc with hc | hc <;> rw [hc] <;> rfl
    rw [hplain]
    refine hsummary.barFlags_clean h.tradable.price_ge (by omega) (by omega) (by omega) ?_ v
    intro hnil
    rw [hnil] at hlen'
    simp at hlen'
    omega
  have hexplained := h.explain he h.feed.px_running (by omega) (fun hf => by cases hf) hclean (by
    intro b hb
    obtain rfl := WireRecord.bar.inj hb
    exact ⟨plainBar st, rfl, hsummary, by omega, h.tradable⟩)
  have hsteady := h.toSteady.emit hfew he hexplained
  have hlength := he.length_own_eq
  rw [he.s_eq] at hown hlength
  have hfeed := hsteady.feed
  rw [he.s_eq] at hfeed
  refine ⟨hsteady, hfeed, ?_, ?_, ?_, fun hnot => absurd trivial hnot⟩
  · have hbar : isBarOf (symbolOf st.s) (.bar (injectBar st.defect (plainBar st))) = true := by
      simpa [isBarOf, WireRecord.symbol] using he.symbol_eq
    rw [hown, window_concat, if_pos hbar]
  · intro _
    have hclock : clock st.s ((ownOf st.s st.records).length + 1) - 3000000 =
        clock st.s (ownOf st.s st.records).length - 2 * 1000000 := by
      rw [clock_succ]
      omega
    rw [hlength, hown, lastStamp_concat, hclock]
    exact h.lastTrade (by omega)
  · intro _ stream
    rw [hown]
    cases stream with
    | trade =>
      obtain ⟨r, hr, hs⟩ := h.tradeSeen (by omega)
      exact ⟨r, List.mem_append_left _ hr, hs⟩
    | quote =>
      obtain ⟨r, hr, hs⟩ := h.quoteSeen (by omega)
      exact ⟨r, List.mem_append_left _ hr, hs⟩
    | bar => exact ⟨_, List.mem_append_right _ (List.mem_singleton_self _), rfl⟩

end Bar

/-! The whole run. -/

section Run

variable {symCount n : Nat} {st : State} {d : Draws}

/-- Between two windows. -/
structure Between (d : Draws) (symCount : Nat) (st : State) : Prop where
  next_turn : (st.s + 1) % symCount = st.window % symCount
  rest : ∀ τ < symCount, Rest d τ (τ < st.window) st
  explained : AllExplained d symCount st.records

theorem between_init (hpos : 1 ≤ symCount) : Between d symCount (init symCount) := by
  refine ⟨?_, ?_, ?_⟩
  · change (symCount - 1 + 1) % symCount = 0 % symCount
    rw [Nat.sub_add_cancel hpos]
    simp
  · intro τ _
    have hlow : (0 : ℚ) ≤ ((τ % 50 : Nat) : ℚ) := Nat.cast_nonneg _
    have hhigh : ((τ % 50 : Nat) : ℚ) ≤ 49 := by
      have hlt : τ % 50 ≤ 49 := by omega
      exact_mod_cast hlt
    have hpx : Running d (100 + ((τ % 50 : Nat) : ℚ) * 10) :=
      ⟨by linarith, fun _ => by linarith⟩
    have hts : (init symCount).ts τ = UInt64.ofNat (clock τ 0) := by
      simp [init, clock, UInt64.ofNat_add, UInt64.ofNat_mul]
    exact ⟨⟨hts, by simp [ownOf, init], ⟨1, by simp, rfl⟩, by simp [ownOf, init], hpx⟩, rfl,
      fun h => absurd h (Nat.not_lt_zero τ), fun h => absurd h (Nat.not_lt_zero τ), fun _ => rfl⟩
  · intro pre e post hsplit
    simp [init] at hsplit

/-- The next symbol's window opens on its finished windows. -/
theorem Between.begin (hpos : 1 ≤ symCount) (h : Between d symCount st) :
    InWindow d symCount (beginWindow d symCount st) 0 0 [] := by
  have hturn : (st.s + 1) % symCount < symCount := Nat.mod_lt _ (by omega)
  have hrest := h.rest _ hturn
  -- A symbol has had a window exactly if all of them have had one before this turn.
  have hstarted : (st.s + 1) % symCount < st.window ↔ symCount ≤ st.window := by
    rw [h.next_turn]
    constructor
    · intro hlt
      by_contra hge
      rw [Nat.mod_eq_of_lt (by omega)] at hlt
      omega
    · intro hge
      exact lt_of_lt_of_le (Nat.mod_lt _ (by omega)) hge
  exact
    { turn := h.next_turn.symm
      lt := hturn
      defect_eq := rfl
      feed := hrest.feed
      seen := fun hw => hrest.seen (hstarted.mpr hw)
      rest := by
        intro τ hτ _
        obtain ⟨hfeed, hwindow, hlast, hseen, hfresh⟩ := h.rest τ hτ
        exact ⟨hfeed, hwindow, hlast, hseen, hfresh⟩
      explained := h.explained
      window_eq := hrest.window_eq
      acc := ⟨rfl, rfl, rfl, rfl, fun hne => absurd rfl hne⟩
      count := by simp
      tradable := ⟨by simp [Validator.totalSize], by simp, by simp⟩
      lastTrade := by intro h2; omega
      opening := fun _ hw => hrest.lastTrade (hstarted.mpr hw)
      tradeSeen := by intro h0; omega
      quoteSeen := by intro h0; omega
      fresh := by
        intro hw
        change st.window < symCount at hw
        have hnil := hrest.fresh (by rw [hstarted]; omega)
        exact congrArg List.length hnil }

/-- The window as far as there is room, from `len` records on. -/
structure Partway (d : Draws) (n symCount len : Nat) (st : State) (k since : Nat) : Prop where
  explained : AllExplained d symCount st.records
  length_eq : st.records.length = min n (len + k + since)
  inWindow : st.records.length < n → ∃ trades, InWindow d symCount st k since trades

theorem Partway.trade (hfew : symCount ≤ 4096) {len k : Nat}
    (h : Partway d n symCount len st k 0) (hk : k < 12) :
    Partway d n symCount len (whenRoom n (emitTrade d symCount) st k) (k + 1) 0 := by
  have hlength := h.length_eq
  unfold whenRoom
  split
  next hroom =>
    obtain ⟨trades, hin⟩ := h.inWindow hroom
    obtain ⟨trades', hnext⟩ := hin.trade hfew hk
    refine ⟨hnext.explained, ?_, fun _ => ⟨trades', hnext⟩⟩
    rw [(emitTrade_emits d hin.lt k).1.records_eq, List.length_append, List.length_singleton]
    omega
  next hfull => exact ⟨h.explained, by omega, fun hroom => absurd hroom hfull⟩

theorem Partway.quote (hfew : symCount ≤ 4096) {len k since : Nat}
    (h : Partway d n symCount len st k since) (hk : 2 ≤ k) (hshort : k + since < 15) (qk : Nat) :
    Partway d n symCount len (whenRoom n (emitQuote d symCount) st qk) k (since + 1) := by
  have hlength := h.length_eq
  unfold whenRoom
  split
  next hroom =>
    obtain ⟨trades, hin⟩ := h.inWindow hroom
    have hnext := hin.quote hfew hk hshort qk
    refine ⟨hnext.explained, ?_, fun _ => ⟨trades, hnext⟩⟩
    rw [(emitQuote_emits d hin.lt qk).1.records_eq, List.length_append, List.length_singleton]
    omega
  next hfull => exact ⟨h.explained, by omega, fun hroom => absurd hroom hfull⟩

theorem Partway.trades (hfew : symCount ≤ 4096) {len : Nat} (h : Partway d n symCount len st 0 0)
    {m : Nat} (hm : m ≤ 12) :
    Partway d n symCount len ((List.range m).foldl (whenRoom n (emitTrade d symCount)) st) m 0 := by
  induction m with
  | zero => exact h
  | succ m ih =>
    rw [List.range_succ, List.foldl_append]
    exact (ih (by omega)).trade hfew (by omega)

/-- The window closes and the next turn begins. -/
theorem Steady.close (h : Steady d symCount st) (hrest : Rest d st.s True st) :
    Between d symCount { st with window := st.window + 1 } := by
  have hturn := h.turn
  have hlt := h.lt
  have hstarted : ∀ {σ : Nat} {P Q : Prop}, (Q ↔ P) → Rest d σ P st →
      Rest d σ Q { st with window := st.window + 1 } := by
    intro σ P Q hPQ hr
    obtain ⟨hfeed, hwindow, hlast, hseen, hfresh⟩ := hr
    exact ⟨hfeed, hwindow, fun hq => hlast (hPQ.mp hq), fun hq => hseen (hPQ.mp hq),
      fun hq => hfresh fun hp => hq (hPQ.mpr hp)⟩
  refine ⟨?_, ?_, h.explained⟩
  · change (st.s + 1) % symCount = (st.window + 1) % symCount
    rw [← hturn, Nat.mod_add_mod]
  · intro τ hτ
    change Rest d τ (τ < st.window + 1) _
    by_cases hs : τ = st.s
    · subst hs
      have hle : st.s ≤ st.window := hturn ▸ Nat.mod_le _ _
      exact hstarted (iff_of_true (by omega) trivial) hrest
    · refine hstarted ?_ (h.rest τ hτ hs)
      -- Were it this window's number, it would be the symbol whose turn it is.
      have hne : τ ≠ st.window := by
        intro heq
        rw [heq] at hτ hs
        rw [Nat.mod_eq_of_lt hτ] at hturn
        exact hs hturn
      omega

/-- The generator's main loop: there is never more than `n`, and before that the
symbols' windows are complete. -/
structure Round (d : Draws) (n symCount : Nat) (st : State) : Prop where
  explained : AllExplained d symCount st.records
  length_le : st.records.length ≤ n
  between : st.records.length < n → Between d symCount st

theorem Round.window (hpos : 1 ≤ symCount) (hfew : symCount ≤ 4096) (h : Round d n symCount st)
    (hroom : st.records.length < n) :
    Round d n symCount (genWindow d symCount n st) ∧
      st.records.length < (genWindow d symCount n st).records.length := by
  obtain ⟨hlow, hhigh⟩ := d.count_mem st.window
  have hbegin := (h.between hroom).begin hpos
  have hstart : Partway d n symCount st.records.length (beginWindow d symCount st) 0 0 :=
    ⟨h.explained, by change st.records.length = _; omega, fun _ => ⟨[], hbegin⟩⟩
  have htrades := hstart.trades hfew hhigh
  have hquotes := (htrades.quote hfew (by omega) (by omega) 0).quote hfew
    (by omega) (by omega) 1
  have hform : genWindow d symCount n st =
      let last := whenRoom n (emitQuote d symCount) (whenRoom n (emitQuote d symCount)
        ((List.range (d.count st.window)).foldl (whenRoom n (emitTrade d symCount))
          (beginWindow d symCount st)) 0) 1
      if n ≤ last.records.length then last
      else { emitBar symCount last with window := last.window + 1 } := rfl
  rw [hform]
  generalize whenRoom n (emitQuote d symCount) _ 1 = last at hquotes
  have hlength := hquotes.length_eq
  dsimp only
  split
  next hfull => exact ⟨⟨hquotes.explained, by omega, fun hlt => by omega⟩, by omega⟩
  next hleft =>
    obtain ⟨trades, hin⟩ := hquotes.inWindow (by omega)
    obtain ⟨hsteady, hrest⟩ := hin.bar hfew hlow hhigh
    have he := emitBar_emits hin.lt
    have hbetween := hsteady.close (by rw [he.s_eq]; exact hrest)
    rw [he.window_eq] at hbetween
    have hrecords : (emitBar symCount last).records.length = last.records.length + 1 := by
      rw [he.records_eq, List.length_append, List.length_singleton]
    exact ⟨⟨hbetween.explained, by change (emitBar symCount last).records.length ≤ n; omega,
      fun _ => hbetween⟩, by change _ < (emitBar symCount last).records.length; omega⟩

/-- The generator returns the records asked for, every one of them explained by those
before it. -/
theorem generate_explained (d : Draws) (n : Nat) (hpos : 1 ≤ symCount) (hfew : symCount ≤ 4096) :
    ∃ recs, generate d n symCount = some recs ∧ recs.length = n ∧ AllExplained d symCount recs := by
  have hround : Round d n symCount (init symCount) :=
    ⟨(between_init hpos).explained, Nat.zero_le n, fun _ => between_init hpos⟩
  have hstep : ∀ st, Round d n symCount st → decide (st.records.length < n) = true →
      ∃ next, some (genWindow d symCount n st) = some next ∧ Round d n symCount next ∧
        n - next.records.length < n - st.records.length := by
    intro st hst hcond
    have hroom : st.records.length < n := by simpa using hcond
    obtain ⟨hnext, hmore⟩ := hst.window hpos hfew hroom
    exact ⟨_, rfl, hnext, by omega⟩
  obtain ⟨st, hloop, hst, hexit⟩ := whileLoop_total hstep hround (Nat.sub_le n _)
  have hclamp : (if symCount < 1 then 1 else symCount) = symCount := if_neg (by omega)
  have hfull : ¬st.records.length < n := by simpa using hexit
  refine ⟨st.records, ?_, ?_, hst.explained⟩
  · unfold generate
    dsimp only
    rw [hclamp, hloop, Option.map_some]
  · have hle := hst.length_le
    omega

end Run

end GenDataset

end OhlcvValidator
