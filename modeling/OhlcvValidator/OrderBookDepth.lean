import OhlcvValidator.OrderBookHistory

namespace OhlcvValidator

variable {P : Type} [LinearOrder P] {m : Nat}

/-- Removing this price would uncover a level beyond the best `m` of the full side. -/
def Uncovers (m : Nat) (side : Side) (calls : List (BookCall P)) (price : P) : Prop :=
  m < (fullSide side calls).length ∧ ∃ l ∈ (fullSide side calls).take m, l.price = price

instance (m : Nat) (side : Side) (calls : List (BookCall P)) (price : P) :
    Decidable (Uncovers m side calls price) := by
  unfold Uncovers
  infer_instance

theorem updateLevels_take {descending : Bool} {xs : List (Level P)} {price : P} {newSize : UInt64}
    (hord : Ordered (OrderBook.before descending) Level.price xs)
    (h : newSize = 0 → xs.length ≤ m ∨ ∀ l ∈ xs.take m, l.price ≠ price) :
    (updateLevels descending price newSize (xs.take m)).take m =
      (updateLevels descending price newSize xs).take m := by
  unfold updateLevels
  split
  next hz =>
    rw [take_removeKey (h hz), List.take_of_length_le]
    have := length_removeKey_le Level.price price (xs.take m)
    rw [List.length_take] at this
    omega
  next => rw [hord.take_putEntry m]

namespace Depth

/-- One call keeps a side at the best `m` levels unless it uncovers a hidden one. -/
theorem tracks_call {side : Side} {calls : List (BookCall P)} {c : BookCall P}
    (htrack : (run m calls side).levels = (fullSide side calls).take m)
    (hc : ∀ price, c = .apply side price 0 → ¬Uncovers m side calls price) :
    (run m (calls ++ [c]) side).levels = (fullSide side (calls ++ [c])).take m := by
  rw [run_concat]
  cases c with
  | clear =>
    rw [fullSide_clear, List.take_nil]
    rfl
  | apply s price newSize =>
    by_cases hs : s = side
    · subst hs
      rw [call, apply_self, Ladder.levels_update, htrack, fullSide_apply]
      apply updateLevels_take (ordered_fullSide s calls)
      intro hz
      have hun := hc price (by rw [hz])
      unfold Uncovers at hun
      push Not at hun
      rcases Nat.lt_or_ge m (fullSide s calls).length with hlt | hle
      · exact Or.inr (hun hlt)
      · exact Or.inl hle
    · rw [call, apply_other _ (Ne.symm hs), htrack, fullSide_apply_other hs]

/-- A call that uncovers a hidden level leaves the side one level short. -/
theorem not_tracks_uncovered {side : Side} {calls : List (BookCall P)} {price : P}
    (htrack : (run m calls side).levels = (fullSide side calls).take m)
    (hun : Uncovers m side calls price) :
    (run m (calls ++ [.apply side price 0]) side).levels ≠
      (fullSide side (calls ++ [.apply side price 0])).take m := by
  obtain ⟨hlen, l, hl, rfl⟩ := hun
  rw [run_concat, call, apply_self, Ladder.levels_update, htrack, fullSide_apply]
  intro he
  apply (ordered_fullSide side calls).take_removeKey_ne hl hlen
  have hle := length_removeKey_le Level.price l.price ((fullSide side calls).take m)
  rw [List.length_take] at hle
  unfold updateLevels at he
  rw [if_pos rfl, if_pos rfl, List.take_of_length_le (by omega)] at he
  exact he.symm

theorem tracks_run_iff {side : Side} {calls : List (BookCall P)} :
    (∀ pre, pre <+: calls → (run m pre side).levels = (fullSide side pre).take m) ↔
      ∀ pre price, pre ++ [.apply side price 0] <+: calls → ¬Uncovers m side pre price := by
  constructor
  · intro htrack pre price hpre hun
    exact not_tracks_uncovered (htrack pre ((List.prefix_append _ _).trans hpre)) hun
      (htrack _ hpre)
  · intro hnone pre
    induction pre using List.reverseRecOn with
    | nil =>
      intro _
      rw [fullSide_nil, List.take_nil]
      rfl
    | append_singleton pre c ih =>
      intro hpre
      apply tracks_call (ih ((List.prefix_append _ _).trans hpre))
      intro price hc
      subst hc
      exact hnone pre price hpre

/-- Nothing on a ladder is stale: it is a part of the full side. -/
theorem levels_run_subset (side : Side) (calls : List (BookCall P)) :
    ∀ l ∈ (run m calls side).levels, l ∈ fullSide side calls := by
  induction calls using List.reverseRecOn with
  | nil =>
    intro l hl
    exact absurd hl List.not_mem_nil
  | append_singleton calls c ih =>
    intro l hl
    rw [run_concat] at hl
    cases c with
    | clear => exact absurd hl List.not_mem_nil
    | apply s price newSize =>
      by_cases hs : s = side
      · subst hs
        rw [call, apply_self, Ladder.levels_update] at hl
        rw [fullSide_apply, mem_updateLevels]
        exact (mem_updateLevels.mp (List.mem_of_mem_take hl)).imp_right
          fun h => ⟨ih l h.1, h.2⟩
      · rw [call, apply_other _ (Ne.symm hs)] at hl
        rw [fullSide_apply_other hs]
        exact ih l hl

/-- A side that never had more than `m` live prices shows all of them. -/
theorem levels_run_of_fits {side : Side} {calls : List (BookCall P)}
    (h : ∀ pre, pre <+: calls → (livePrices side pre).card ≤ m) :
    (run m calls side).levels = fullSide side calls := by
  have hlen : ∀ pre, pre <+: calls → (fullSide side pre).length ≤ m := by
    intro pre hpre
    rw [length_fullSide]
    exact h pre hpre
  have hnone : ∀ pre price, pre ++ [.apply side price 0] <+: calls →
      ¬Uncovers m side pre price := by
    intro pre price hpre hun
    have := hlen pre ((List.prefix_append _ _).trans hpre)
    have := hun.1
    omega
  rw [tracks_run_iff.mpr hnone calls List.prefix_rfl,
    List.take_of_length_le (hlen calls List.prefix_rfl)]

end Depth

namespace OrderBook

variable [Zero P]

/-- A side of the book holds the best `m` levels of the full side, and its best price is the
true one, after every call of a history exactly if no call of the history removes one of the
best `m` prices while the full side has more than `m`. -/
theorem tracks_best_iff {m : Nat} (hm : 0 < m) (side : Side) (calls : List (BookCall P)) :
    (∀ pre, pre <+: calls → ∃ b, run m pre = some b ∧
      b.levels side = (fullSide side pre).take m ∧
      ∀ l, (fullSide side pre).head? = some l → b.best side = some l.price) ↔
    ∀ pre price, pre ++ [.apply side price 0] <+: calls → ¬Uncovers m side pre price := by
  rw [← Depth.tracks_run_iff]
  constructor
  · intro h pre hpre
    obtain ⟨b, hb, hlevels, _⟩ := h pre hpre
    obtain ⟨b', hb', hshows⟩ := shows_run m pre
    obtain rfl : b = b' := Option.some.inj (hb.symm.trans hb')
    rw [← hshows.levels_eq, hlevels]
  · intro h pre hpre
    obtain ⟨b, hb, hshows⟩ := shows_run m pre
    have hlevels : b.levels side = (fullSide side pre).take m := by
      rw [hshows.levels_eq, h pre hpre]
    refine ⟨b, hb, hlevels, ?_⟩
    intro l hl
    apply best_of_head
    rw [hlevels, List.head?_take, if_neg (by omega), hl]

/-- The level hidden behind 99 is removed, which uncovers nothing. -/
theorem tracks_best_hiddenRemoved :
    0 < 1 ∧ ∃ b, run 1 [.apply .bid (99 : ℤ) 10, .apply .bid 98 5, .apply .bid 98 0] = some b ∧
      b.levels .bid =
        (fullSide .bid [.apply .bid (99 : ℤ) 10, .apply .bid 98 5, .apply .bid 98 0]).take 1 := by
  have hnone : ∀ pre (price : ℤ), pre ++ [.apply .bid price 0] <+:
      [.apply .bid (99 : ℤ) 10, .apply .bid 98 5, .apply .bid 98 0] →
      ¬Uncovers 1 .bid pre price := by
    intro pre price hpre
    have hlen : pre.length < 3 := by simpa using hpre.length_le
    have htake := List.prefix_iff_eq_take.mp hpre
    rw [List.length_append, List.length_singleton] at htake
    have hlast := congrArg List.getLast? htake
    have hinit := congrArg List.dropLast htake
    interval_cases pre.length
    · simp at hlast
    · simp at hlast
    · simp at hlast hinit
      subst hlast hinit
      have hfull : fullSide .bid ([] ++ [.apply .bid (99 : ℤ) 10] ++ [.apply .bid 98 5]) =
          [⟨99, 10⟩, ⟨98, 5⟩] := by
        rw [fullSide_apply, fullSide_apply, fullSide_nil]
        decide
      unfold Uncovers
      rw [show [BookCall.apply .bid (99 : ℤ) 10, .apply .bid 98 5] =
        [] ++ [.apply .bid (99 : ℤ) 10] ++ [.apply .bid 98 5] from rfl, hfull]
      decide
  obtain ⟨b, hb, hlevels, _⟩ :=
    (tracks_best_iff (by decide) .bid _).mpr hnone _ List.prefix_rfl
  exact ⟨by decide, b, hb, hlevels⟩

/-- With one level kept, 100 evicts 99, and removing 100 leaves the bids empty although
99 is still live. -/
theorem best_lost_after_eviction :
    (run 1 [.apply .bid (99 : ℤ) 10, .apply .bid 100 5, .apply .bid 100 0]).map
        (fun b => b.levels .bid) = some [] ∧
      (fullSide .bid [.apply .bid (99 : ℤ) 10, .apply .bid 100 5, .apply .bid 100 0]).take 1 =
        [⟨99, 10⟩] := by
  decide +kernel

/-- Every level held has exactly the last size applied to its price. A side that never
had more than `m` live prices holds all of them, so that any other history with the same last
sizes gives the same side. -/
theorem levels_never_stale (m : Nat) (calls : List (BookCall P)) :
    ∃ b, run m calls = some b ∧ ∀ side,
      (∀ l ∈ b.levels side, l.size ≠ 0 ∧ lastSize side l.price calls = l.size) ∧
      ((∀ pre, pre <+: calls → (livePrices side pre).card ≤ m) →
        b.levels side = fullSide side calls ∧
        ∀ calls' : List (BookCall P),
          (∀ pre, pre <+: calls' → (livePrices side pre).card ≤ m) →
          (∀ price, lastSize side price calls' = lastSize side price calls) →
          ∃ b', run m calls' = some b' ∧ b'.levels side = b.levels side) := by
  obtain ⟨b, hb, hshows⟩ := shows_run m calls
  refine ⟨b, hb, ?_⟩
  intro side
  refine ⟨?_, ?_⟩
  · intro l hl
    rw [hshows.levels_eq] at hl
    exact mem_fullSide.mp (Depth.levels_run_subset side calls l hl)
  · intro hfits
    have hfull : b.levels side = fullSide side calls := by
      rw [hshows.levels_eq, Depth.levels_run_of_fits hfits]
    refine ⟨hfull, ?_⟩
    intro calls' hfits' hsizes
    obtain ⟨b', hb', hshows'⟩ := shows_run m calls'
    refine ⟨b', hb', ?_⟩
    rw [hshows'.levels_eq, Depth.levels_run_of_fits hfits', hfull, fullSide_congr hsizes]

end OrderBook

end OhlcvValidator
