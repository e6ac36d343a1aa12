import OhlcvValidator.LinearProbing
import OhlcvValidator.Validator

namespace OhlcvValidator

namespace Validator

variable {F : Type} [PriceArith F]

/-- The stateless result of a record. -/
def statelessFlags : WireRecord F → Result
  | .trade t => tradeFlags t
  | .bar b => barFlags b
  | .quote q => quoteFlags q

/-- What a record does to its symbol's state. -/
def stateful : WireRecord F → Slot F → Result → Slot F × Result
  | .trade t => tradeState t
  | .bar b => barState b
  | .quote q => quoteState q

theorem check_eq (v : Validator F) (rec : WireRecord F) :
    v.check rec = v.withSlot rec.symbol (statelessFlags rec) (stateful rec) := by
  cases rec <;> rfl

theorem checkPriceBand_fst (s : Slot F) (price : F) (out : Result) :
    (checkPriceBand s price out).1.key = s.key ∧ (checkPriceBand s price out).1.seen = s.seen := by
  unfold checkPriceBand
  split
  next => exact ⟨rfl, rfl⟩
  next =>
    split
    next =>
      dsimp only
      split <;> exact ⟨rfl, rfl⟩
    next => exact ⟨rfl, rfl⟩

theorem accumulate_key (s : Slot F) (price : F) (size : UInt64) :
    (accumulate s price size).key = s.key ∧ (accumulate s price size).seen = s.seen := by
  unfold accumulate
  dsimp only
  split <;> exact ⟨rfl, rfl⟩

theorem reconcile_fst (s : Slot F) (b : WireBar F) (out : Result) :
    (reconcile s b out).1.key = s.key ∧ (reconcile s b out).1.seen = s.seen := by
  unfold reconcile
  split <;> exact ⟨rfl, rfl⟩

/-- A record marks its slot as seen and leaves it to its symbol. -/
theorem stateful_fst (rec : WireRecord F) (s : Slot F) (r : Result) :
    (stateful rec s r).1.key = s.key ∧ (stateful rec s r).1.seen = true := by
  cases rec with
  | trade t =>
    unfold stateful tradeState
    dsimp only
    split
    next =>
      have hband := checkPriceBand_fst (accumulate (checkSequencing s .trade t.tsNs t.seq r).1
        t.price t.size) t.price (checkSequencing s .trade t.tsNs t.seq r).2
      have hacc := accumulate_key (checkSequencing s .trade t.tsNs t.seq r).1 t.price t.size
      exact ⟨hband.1.trans hacc.1, hband.2.trans hacc.2⟩
    next => exact ⟨rfl, rfl⟩
  | bar b => exact reconcile_fst (checkSequencing s .bar b.startNs b.seq r).1 b _
  | quote q =>
    unfold stateful quoteState
    dsimp only
    split <;> exact ⟨rfl, rfl⟩

/-- The key that a slot is taken by. -/
def held (table : Fin kCapacity → Slot F) (i : Fin kCapacity) : Option UInt64 :=
  if (table i).seen then some (table i).key else none

theorem held_eq_some {table : Fin kCapacity → Slot F} {i : Fin kCapacity} {k : UInt64} :
    held table i = some k ↔ (table i).seen = true ∧ (table i).key = k := by
  unfold held
  split
  next h => simp [h]
  next h => simp [h]

theorem held_eq_none {table : Fin kCapacity → Slot F} {i : Fin kCapacity} :
    held table i = none ↔ (table i).seen = false := by
  unfold held
  split
  next h => simp [h]
  next h => simp [h]

theorem held_update (table : Fin kCapacity → Slot F) (j : Fin kCapacity) {s : Slot F}
    (hs : s.seen = true) :
    held (Function.update table j s) = Function.update (held table) j (some s.key) := by
  funext i
  by_cases hi : i = j
  · subst hi
    rw [held_eq_some.mpr, Function.update_self]
    rw [Function.update_self]
    exact ⟨hs, rfl⟩
  · rw [Function.update_of_ne hi]
    unfold held
    rw [Function.update_of_ne hi]

theorem nextSlot_eq (i : Fin kCapacity) : nextSlot i = LinearProbing.ahead i 1 :=
  Fin.ext (Nat.and_two_pow_sub_one_eq_mod (i.val + 1) 12)

/-- The loop in the code is the linear probe of the keys, and claims an empty slot. -/
theorem probe_eq (table : Fin kCapacity → Slot F) (key : UInt64) (probes : Nat)
    (idx : Fin kCapacity) :
    probe table key probes idx = (LinearProbing.probe (held table) key probes idx).map
      fun j => (j, if (table j).seen then table
        else Function.update table j { table j with key := key }) := by
  induction probes generalizing idx with
  | zero => rfl
  | succ probes ih =>
    unfold probe
    dsimp only
    by_cases hseen : (table idx).seen = true
    · have hheld : held table idx = some (table idx).key := held_eq_some.mpr ⟨hseen, rfl⟩
      by_cases hkey : (table idx).key = key
      · simp [LinearProbing.probe, hheld, hseen, hkey]
      · simp [LinearProbing.probe, hheld, hseen, hkey, ih, nextSlot_eq]
    · have hseen : (table idx).seen = false := by simpa using hseen
      simp [LinearProbing.probe, held_eq_none.mpr hseen, hseen]

/-- What the table stands for: the symbols that have a state, in order of arrival, and the
state of each symbol. -/
structure Roster (F : Type) [PriceArith F] where
  keys : List UInt64 := []
  slots : UInt64 → Slot F := fun k => { key := k }

def Roster.Accepts (a : Roster F) (k : UInt64) : Prop :=
  k ∈ a.keys ∨ a.keys.length < kCapacity

instance (a : Roster F) (k : UInt64) : Decidable (a.Accepts k) :=
  inferInstanceAs (Decidable (_ ∨ _))

def Roster.check (a : Roster F) (rec : WireRecord F) : Roster F × Result :=
  let k := symbolKey rec.symbol
  if a.Accepts k then
    let (s, r) := stateful rec (a.slots k) (statelessFlags rec)
    ({ keys := if k ∈ a.keys then a.keys else a.keys ++ [k]
       slots := Function.update a.slots k s }, r)
  else (a, statelessFlags rec)

theorem Roster.keys_check (a : Roster F) (rec : WireRecord F) :
    (a.check rec).1.keys =
      if symbolKey rec.symbol ∈ a.keys ∨ a.keys.length < kCapacity then
        if symbolKey rec.symbol ∈ a.keys then a.keys else a.keys ++ [symbolKey rec.symbol]
      else a.keys := by
  unfold check
  dsimp only
  by_cases hacc : a.Accepts (symbolKey rec.symbol)
  · rw [if_pos hacc, if_pos (show _ ∨ _ from hacc)]
  · rw [if_neg hacc, if_neg (show ¬(_ ∨ _) from hacc)]

/-- The table holds exactly the states of the roster. -/
structure Holds (table : Fin kCapacity → Slot F) (a : Roster F) : Prop where
  findable : LinearProbing.Findable (held table) homeSlot
  unseen : ∀ i, (table i).seen = false → table i = {}
  nodup : a.keys.Nodup
  mem_keys : ∀ k, k ∈ a.keys ↔ ∃ i, held table i = some k
  slots_eq : ∀ i, (table i).seen = true → a.slots (table i).key = table i
  fresh : ∀ k, k ∉ a.keys → a.slots k = { key := k }

theorem holds_fresh : Holds ({} : Validator F).table {} where
  findable := LinearProbing.findable_empty
  unseen := fun _ _ => rfl
  nodup := List.nodup_nil
  mem_keys := by
    intro k
    simp [held]
  slots_eq := fun _ h => absurd h (by simp)
  fresh := fun _ _ => rfl

section Step

variable {table : Fin kCapacity → Slot F} {a : Roster F} {k : UInt64}

theorem Holds.exists_empty_iff (h : Holds table a) :
    (∃ i, held table i = none) ↔ a.keys.length < kCapacity :=
  h.findable.exists_empty_iff h.nodup h.mem_keys

theorem Holds.slots_key (h : Holds table a) (k : UInt64) : (a.slots k).key = k := by
  by_cases hk : k ∈ a.keys
  · obtain ⟨i, hi⟩ := (h.mem_keys k).mp hk
    obtain ⟨hseen, hkey⟩ := held_eq_some.mp hi
    rw [← hkey, h.slots_eq i hseen]
  · rw [h.fresh k hk]

/-- An accepted symbol gets its own slot or an empty one, with its own state in it. -/
theorem Holds.probe_accepts (h : Holds table a) (hacc : a.Accepts k) :
    ∃ j, LinearProbing.probe (held table) k kCapacity (homeSlot k) = some j ∧
      { table j with key := k } = a.slots k ∧
      (held table j = some k ∨ held table j = none ∧ k ∉ a.keys) := by
  by_cases hk : k ∈ a.keys
  · obtain ⟨j, hj⟩ := (h.mem_keys k).mp hk
    obtain ⟨hseen, hkey⟩ := held_eq_some.mp hj
    refine ⟨j, h.findable j k hj, ?_, Or.inl hj⟩
    rw [← hkey, h.slots_eq j hseen]
  · have habs : ∀ i, held table i ≠ some k := fun i hi => hk ((h.mem_keys k).mpr ⟨i, hi⟩)
    obtain ⟨e, he⟩ := h.exists_empty_iff.mpr (hacc.resolve_left hk)
    obtain ⟨j, hj⟩ := Option.ne_none_iff_exists'.mp
      (LinearProbing.probe_ne_none (k := k) (i := homeSlot k) he)
    have hnone := LinearProbing.probe_absent habs hj
    refine ⟨j, hj, ?_, Or.inr ⟨hnone, hk⟩⟩
    rw [h.unseen j (held_eq_none.mp hnone), h.fresh k hk]

theorem Holds.probe_rejects (h : Holds table a) (hrej : ¬a.Accepts k) :
    LinearProbing.probe (held table) k kCapacity (homeSlot k) = none := by
  unfold Roster.Accepts at hrej
  push Not at hrej
  obtain ⟨hk, hlen⟩ := hrej
  apply LinearProbing.probe_full
  · exact fun i hi => hk ((h.mem_keys k).mpr ⟨i, hi⟩)
  · intro i hi
    exact absurd (h.exists_empty_iff.mp ⟨i, hi⟩) (Nat.not_lt.mpr hlen)

theorem mem_addKey {keys : List UInt64} {q : UInt64} :
    (q ∈ if k ∈ keys then keys else keys ++ [k]) ↔ q ∈ keys ∨ q = k := by
  split
  next hk =>
    refine ⟨Or.inl, ?_⟩
    intro hq
    rcases hq with hq | rfl
    · exact hq
    · exact hk
  next => simp

theorem nodup_addKey {keys : List UInt64} (h : keys.Nodup) :
    (if k ∈ keys then keys else keys ++ [k]).Nodup := by
  split
  next => exact h
  next hk => exact List.nodup_append.mpr ⟨h, by simp, by
      intro x hx y hy
      rw [List.mem_singleton.mp hy]
      exact fun he => hk (he ▸ hx)⟩

/-- Writing a symbol's new state into its slot. -/
theorem Holds.store (h : Holds table a) {j : Fin kCapacity}
    (hprobe : LinearProbing.probe (held table) k kCapacity (homeSlot k) = some j)
    (hj : held table j = some k ∨ held table j = none ∧ k ∉ a.keys) {s : Slot F}
    (hkey : s.key = k) (hseen : s.seen = true) :
    Holds (Function.update table j s)
      { keys := if k ∈ a.keys then a.keys else a.keys ++ [k]
        slots := Function.update a.slots k s } := by
  have hheld := held_update table j hseen
  rw [hkey] at hheld
  refine ⟨?_, ?_, ?_, ?_, ?_, ?_⟩
  · rw [hheld]
    rcases hj with hj | ⟨hj, _⟩
    · rw [← hj, Function.update_eq_self]
      exact h.findable
    · exact h.findable.insert hprobe hj
  · intro i hi
    by_cases hij : i = j
    · subst hij
      rw [Function.update_self, hseen] at hi
      simp at hi
    · rw [Function.update_of_ne hij] at hi ⊢
      exact h.unseen i hi
  · exact nodup_addKey h.nodup
  · intro q
    refine mem_addKey.trans ?_
    rw [hheld, h.mem_keys, LinearProbing.exists_update_iff (hj.imp_right And.left)]
  · intro i hi
    by_cases hij : i = j
    · subst hij
      rw [Function.update_self, hkey]
      exact Function.update_self ..
    · rw [Function.update_of_ne hij] at hi ⊢
      have hne : (table i).key ≠ k := by
        intro he
        have hik : held table i = some k := held_eq_some.mpr ⟨hi, he⟩
        rcases hj with hj | ⟨_, hk⟩
        · exact hij (h.findable.unique hik hj)
        · exact hk ((h.mem_keys k).mpr ⟨i, hik⟩)
      exact (Function.update_of_ne hne ..).trans (h.slots_eq i hi)
  · intro q hq
    have hq := mt mem_addKey.mpr hq
    push Not at hq
    show Function.update a.slots k s q = _
    rw [Function.update_of_ne hq.2]
    exact h.fresh q hq.1

/-- The slot the code works on reads as the symbol's state, and writing it back leaves the
rest of the table alone. -/
theorem Holds.slotFor_accepts (h : Holds table a) (hacc : a.Accepts k) :
    ∃ j table', probe table k kCapacity (homeSlot k) = some (j, table') ∧
      table' j = a.slots k ∧ ∀ s : Slot F, s.key = k → s.seen = true →
        Holds (Function.update table' j s)
          { keys := if k ∈ a.keys then a.keys else a.keys ++ [k]
            slots := Function.update a.slots k s } := by
  obtain ⟨j, hj, hslot, hheld⟩ := h.probe_accepts hacc
  have hprobe := probe_eq table k kCapacity (homeSlot k)
  rw [hj, Option.map_some] at hprobe
  refine ⟨j, _, hprobe, ?_, ?_⟩
  · rcases hheld with hheld | ⟨hheld, _⟩
    · obtain ⟨hseen, hkey⟩ := held_eq_some.mp hheld
      rw [if_pos hseen, ← hslot, ← hkey]
    · rw [if_neg (by simp [held_eq_none.mp hheld]), Function.update_self, hslot]
  · intro s hkey hseen
    split
    next => exact h.store hj hheld hkey hseen
    next =>
      rw [Function.update_idem]
      exact h.store hj hheld hkey hseen

/-- A symbol without a place in the full table leaves no trace. -/
theorem Holds.check_rejects {v : Validator F} (h : Holds v.table a) {rec : WireRecord F}
    (hrej : ¬a.Accepts (symbolKey rec.symbol)) : v.check rec = (v, statelessFlags rec) := by
  have hprobe := probe_eq v.table (symbolKey rec.symbol) kCapacity (homeSlot (symbolKey rec.symbol))
  rw [h.probe_rejects hrej] at hprobe
  rw [check_eq]
  unfold withSlot slotFor
  rw [hprobe]
  rfl

/-- One record through the table is one record through the roster. -/
theorem Holds.check {v : Validator F} (h : Holds v.table a) (rec : WireRecord F) :
    Holds (v.check rec).1.table (a.check rec).1 ∧ (v.check rec).2 = (a.check rec).2 := by
  by_cases hacc : a.Accepts (symbolKey rec.symbol)
  · rw [check_eq]
    unfold withSlot slotFor Roster.check
    dsimp only
    obtain ⟨j, table', hprobe, hread, hstore⟩ := h.slotFor_accepts hacc
    obtain ⟨hkey, hseen⟩ := stateful_fst rec (table' j) (statelessFlags rec)
    have hown : (table' j).key = symbolKey rec.symbol := by
      rw [hread]
      exact h.slots_key _
    rw [hprobe, if_pos hacc]
    dsimp only
    rw [hread] at hkey hseen hown ⊢
    exact ⟨hstore _ (hkey.trans hown) hseen, rfl⟩
  · rw [h.check_rejects hacc, Roster.check, if_neg hacc]
    exact ⟨h, rfl⟩

end Step

end Validator

end OhlcvValidator
