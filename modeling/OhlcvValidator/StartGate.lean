import OhlcvValidator.BenchPasses
import OhlcvValidator.BoundedLoop
import OhlcvValidator.Interleaving
import OhlcvValidator.MaskIndex
import OhlcvValidator.ShardedReplay

namespace OhlcvValidator

namespace Replay

/-- Where a worker thread is: not spawned, spawned, spinning at the gate, between two passes, in
a pass with the records still to check, or through with its checksum written. -/
inductive Worker (F : Type) [PriceArith F]
  | absent
  | born
  | parked
  | looping (pass sum : UInt64)
  | validating (pass : UInt64) (v : Validator F) (rest : List WireRecord) (sum : UInt64)
  | finished

/-- Where the main thread is: spawning, waiting for the workers, about to open the gate after it
has read the clock, joining the workers in order, or through with both readings. -/
inductive MainThread
  | spawning (t : Nat)
  | waiting
  | opening (t0 : UInt64)
  | joining (t0 : UInt64) (t : Nat)
  | done (t0 t1 : UInt64)
  deriving DecidableEq, Repr

/-- All threads of a timed run, the two atomics of the gate and the slots for the checksums. -/
structure Gate (F : Type) [PriceArith F] where
  main : MainThread := .spawning 0
  ready : Nat := 0
  go : Bool := false
  workers : Nat → Worker F := fun _ => .absent
  checksums : Nat → UInt64 := fun _ => 0

/-- Who takes the next step; the main thread may read the clock in it. -/
inductive Turn
  | main (clock : UInt64)
  | worker (t : Nat)
  deriving DecidableEq, Repr

section Model

variable {F : Type} [PriceArith F] (ofBits : DoubleBits → F) (bufs : Nat → List WireRecord)
  (threads : Nat) (passes : UInt64)

def Gate.mainTurn (g : Gate F) (clock : UInt64) : Option (Gate F) :=
  match g.main with
  | .spawning t =>
    if t < threads then
      some { g with main := .spawning (t + 1), workers := Function.update g.workers t .born }
    else some { g with main := .waiting }
  | .waiting => if g.ready < threads then none else some { g with main := .opening clock }
  | .opening t0 => some { g with main := .joining t0 0, go := true }
  | .joining t0 t =>
    if t < threads then
      match g.workers t with
      | .finished => some { g with main := .joining t0 (t + 1) }
      | _ => none
    else some { g with main := .done t0 clock }
  | .done .. => none

def Gate.workerTurn (g : Gate F) (t : Nat) : Option (Gate F) :=
  match g.workers t with
  | .absent | .finished => none
  | .born => some { g with ready := g.ready + 1, workers := Function.update g.workers t .parked }
  | .parked =>
    if g.go then some { g with workers := Function.update g.workers t (.looping 0 0) } else none
  | .looping pass sum =>
    if pass < passes then
      some { g with workers := Function.update g.workers t (.validating pass {} (bufs t) sum) }
    else
      some { g with
        workers := Function.update g.workers t .finished
        checksums := Function.update g.checksums t sum }
  | .validating pass _ [] sum =>
    some { g with workers := Function.update g.workers t (.looping (pass + 1) sum) }
  | .validating pass v (rec :: rest) sum =>
    let c := checkRecord ofBits addFlags (v, sum) rec
    some { g with workers := Function.update g.workers t (.validating pass c.1 rest c.2) }

def Gate.turn (g : Gate F) : Turn → Option (Gate F)
  | .main clock => g.mainTurn threads clock
  | .worker t => g.workerTurn ofBits bufs passes t

/-- An interleaving of the main thread and the workers. A thread that spins takes no turn. -/
def runGate (turns : List Turn) : Option (Gate F) :=
  turns.foldlM (fun g => g.turn ofBits bufs threads passes) {}

end Model

section Phases

variable {F : Type} [PriceArith F]

/-- The worker has announced that it is at the gate. -/
def Worker.arrived : Worker F → Bool
  | .absent | .born => false
  | _ => true

/-- The worker has passed the gate. -/
def Worker.started : Worker F → Bool
  | .absent | .born | .parked => false
  | _ => true

/-- How many workers there are. -/
def MainThread.spawned (threads : Nat) : MainThread → Nat
  | .spawning t => t
  | _ => threads

/-- The first reading of the clock, once it is taken. -/
def MainThread.startTime : MainThread → Option UInt64
  | .spawning _ | .waiting => none
  | .opening t0 | .joining t0 _ | .done t0 _ => some t0

def MainThread.opened : MainThread → Bool
  | .joining .. | .done .. => true
  | _ => false

def MainThread.joined (threads : Nat) : MainThread → Nat
  | .joining _ t => t
  | .done .. => threads
  | _ => 0

end Phases

/-- The checksum of so many passes over a buffer, each with a fresh validator. -/
def passSum {F : Type} [PriceArith F] (ofBits : DoubleBits → F) (buf : List WireRecord) (n : Nat) :
    UInt64 :=
  (collect ofBits addFlags buf)^[n] 0

/-- What a worker has summed up where it is. -/
def Worker.Sound {F : Type} [PriceArith F] (ofBits : DoubleBits → F) (buf : List WireRecord)
    (passes checksum : UInt64) : Worker F → Prop
  | .absent | .born | .parked => True
  | .looping pass sum => pass.toNat ≤ passes.toNat ∧ sum = passSum ofBits buf pass.toNat
  | .validating pass v rest sum => pass.toNat < passes.toNat ∧ ∃ seen, buf = seen ++ rest ∧
      (v, sum) = seen.foldl (checkRecord ofBits addFlags) ({}, passSum ofBits buf pass.toNat)
  | .finished => checksum = passSum ofBits buf passes.toNat

/-- What holds between the turns. -/
structure Gated {F : Type} [PriceArith F] (ofBits : DoubleBits → F) (bufs : Nat → List WireRecord)
    (threads : Nat) (passes : UInt64) (g : Gate F) : Prop where
  sound : ∀ t, (g.workers t).Sound ofBits (bufs t) passes (g.checksums t)
  spawned_le : g.main.spawned threads ≤ threads
  absent : ∀ t, g.main.spawned threads ≤ t ↔ g.workers t = .absent
  ready_eq : g.ready = ((Finset.range threads).filter fun t => (g.workers t).arrived).card
  opening : g.main.startTime.isSome → g.ready = threads
  go_eq : g.go = g.main.opened
  started : ∀ t, (g.workers t).started → g.go = true
  joined_le : g.main.joined threads ≤ threads
  joined : ∀ t < g.main.joined threads, g.workers t = .finished

section Invariant

variable {F : Type} [PriceArith F] {ofBits : DoubleBits → F} {bufs : Nat → List WireRecord}
  {threads : Nat} {passes : UInt64} {g g' : Gate F}

theorem gated_start : Gated ofBits bufs threads passes ({} : Gate F) where
  sound := fun _ => trivial
  spawned_le := Nat.zero_le _
  absent := fun _ => ⟨fun _ => rfl, fun _ => Nat.zero_le _⟩
  ready_eq := by simp [Worker.arrived]
  opening := by simp [MainThread.startTime]
  go_eq := rfl
  started := by simp [Worker.started]
  joined_le := Nat.zero_le _
  joined := by simp [MainThread.joined]

theorem Gated.lt_of_spawned (h : Gated ofBits bufs threads passes g) {t : Nat}
    (ht : g.workers t ≠ .absent) : t < threads :=
  (Nat.lt_of_not_le fun hle => ht ((h.absent t).mp hle)).trans_le h.spawned_le

/-- A worker that is past its announcement and not yet through takes a turn that concerns nobody
else. -/
theorem Gated.update (h : Gated ofBits bufs threads passes g) {t : Nat} {x : Worker F}
    {checksums : Nat → UInt64} (hothers : ∀ u ≠ t, checksums u = g.checksums u)
    (hsound : x.Sound ofBits (bufs t) passes (checksums t))
    (harrived : (g.workers t).arrived = true) (hx : x.arrived = true)
    (hopen : g.workers t ≠ .finished) (hgo : g.go = true) :
    Gated ofBits bufs threads passes
      { g with workers := Function.update g.workers t x, checksums := checksums } := by
  have hspawned : g.workers t ≠ .absent := by
    intro he
    simp [he, Worker.arrived] at harrived
  have hx' : x ≠ .absent := by
    rintro rfl
    simp [Worker.arrived] at hx
  refine { h with sound := ?_, absent := ?_, ready_eq := ?_, started := fun _ _ => hgo, joined := ?_ }
  · intro u
    by_cases hu : u = t
    · subst hu
      simpa using hsound
    · simpa [hu, hothers u hu] using h.sound u
  · intro u
    by_cases hu : u = t
    · subst hu
      simp [h.absent, hspawned, hx']
    · simpa [hu] using h.absent u
  · rw [h.ready_eq]
    congr 2
    funext u
    by_cases hu : u = t
    · subst hu
      simp [harrived, hx]
    · simp [hu]
  · intro u hu
    have hfin := h.joined u hu
    by_cases hut : u = t
    · subst hut
      exact absurd hfin hopen
    · simpa [hut] using hfin

/-- A worker arrives at the gate. -/
theorem Gated.arrive (h : Gated ofBits bufs threads passes g) {t : Nat} (hborn : g.workers t = .born) :
    Gated ofBits bufs threads passes
      { g with ready := g.ready + 1, workers := Function.update g.workers t .parked } := by
  have hlt : t < threads := h.lt_of_spawned (by simp [hborn])
  have hcount : g.ready + 1 =
      ((Finset.range threads).filter fun u => (Function.update g.workers t .parked u).arrived).card := by
    rw [h.ready_eq, ← card_filter_update (f := fun u => (g.workers u).arrived) hlt (by simp [hborn, Worker.arrived])]
    congr 2
    funext u
    by_cases hu : u = t
    · subst hu
      simp [Worker.arrived]
    · simp [hu]
  have hfew : g.ready + 1 ≤ threads := by
    rw [hcount]
    exact (Finset.card_filter_le _ _).trans (Finset.card_range _).le
  refine { h with
    sound := ?_, absent := ?_, ready_eq := hcount, opening := ?_, started := ?_, joined := ?_ }
  · intro u
    by_cases hu : u = t
    · subst hu
      simp [Worker.Sound]
    · simpa [hu] using h.sound u
  · intro u
    by_cases hu : u = t
    · subst hu
      simp [h.absent, hborn]
    · simpa [hu] using h.absent u
  · intro hopen
    have := h.opening hopen
    omega
  · intro u hu
    by_cases hut : u = t
    · subst hut
      simp [Worker.started] at hu
    · exact h.started u (by simpa [hut] using hu)
  · intro u hu
    have hfin := h.joined u hu
    by_cases hut : u = t
    · subst hut
      simp [hborn] at hfin
    · simpa [hut] using hfin

theorem Gated.workerTurn (h : Gated ofBits bufs threads passes g) {t : Nat}
    (hturn : g.workerTurn ofBits bufs passes t = some g') : Gated ofBits bufs threads passes g' := by
  have hsound := h.sound t
  have hstarted := h.started t
  unfold Gate.workerTurn at hturn
  split at hturn
  next => simp at hturn
  next => simp at hturn
  next hw =>
    obtain rfl := Option.some.inj hturn
    exact h.arrive hw
  next hw =>
    split at hturn
    next hgo =>
      obtain rfl := Option.some.inj hturn
      exact h.update (fun _ _ => rfl) ⟨Nat.zero_le _, rfl⟩ (by simp [hw, Worker.arrived]) rfl
        (by simp [hw]) hgo
    next => simp at hturn
  next pass sum hw =>
    rw [hw] at hsound hstarted
    obtain ⟨hle, hsum⟩ := hsound
    split at hturn
    next hlt =>
      obtain rfl := Option.some.inj hturn
      refine h.update (fun _ _ => rfl) ⟨UInt64.lt_iff_toNat_lt.mp hlt, [], rfl, ?_⟩
        (by simp [hw, Worker.arrived]) rfl (by simp [hw]) (hstarted rfl)
      rw [hsum]
      rfl
    next hge =>
      obtain rfl := Option.some.inj hturn
      refine h.update (fun u hu => Function.update_of_ne hu _ _) ?_ (by simp [hw, Worker.arrived])
        rfl (by simp [hw]) (hstarted rfl)
      rw [UInt64.lt_iff_toNat_lt] at hge
      show Function.update g.checksums t sum t = _
      rw [Function.update_self, hsum, Nat.le_antisymm hle (Nat.le_of_not_lt hge)]
  next pass v sum hw =>
    rw [hw] at hsound hstarted
    obtain ⟨hlt, seen, hbuf, hchecks⟩ := hsound
    obtain rfl := Option.some.inj hturn
    have hsucc : (pass + 1).toNat = pass.toNat + 1 := by
      have := passes.toNat_lt
      exact toNat_succ (by omega)
    refine h.update (fun _ _ => rfl) ⟨by rw [hsucc]; exact hlt, ?_⟩ (by simp [hw, Worker.arrived]) rfl
      (by simp [hw]) (hstarted rfl)
    rw [List.append_nil] at hbuf
    rw [← hbuf, foldl_checkRecord] at hchecks
    rw [hsucc, passSum, Function.iterate_succ_apply']
    exact congrArg Prod.snd hchecks
  next pass v rec rest sum hw =>
    rw [hw] at hsound hstarted
    obtain ⟨hlt, seen, hbuf, hchecks⟩ := hsound
    obtain rfl := Option.some.inj hturn
    refine h.update (fun _ _ => rfl) ⟨hlt, seen ++ [rec], by simp [hbuf], ?_⟩
      (by simp [hw, Worker.arrived]) rfl (by simp [hw]) (hstarted rfl)
    rw [List.foldl_append, ← hchecks]
    rfl

theorem Gated.spawn (h : Gated ofBits bufs threads passes g) {t : Nat}
    (hmain : g.main = .spawning t) (ht : t < threads) :
    Gated ofBits bufs threads passes
      { g with main := .spawning (t + 1), workers := Function.update g.workers t .born } := by
  have hnew : g.workers t = .absent := (h.absent t).mp (by simp [hmain, MainThread.spawned])
  refine {
    sound := ?_, spawned_le := ht, absent := ?_, ready_eq := ?_,
    opening := by simp [MainThread.startTime], go_eq := ?_, started := ?_,
    joined_le := Nat.zero_le _, joined := by simp [MainThread.joined] }
  · intro u
    by_cases hu : u = t
    · subst hu
      simp [Worker.Sound]
    · simpa [hu] using h.sound u
  · intro u
    have habsent := h.absent u
    simp only [hmain, MainThread.spawned] at habsent ⊢
    by_cases hu : u = t
    · subst hu
      simp
    · rw [Function.update_of_ne hu, ← habsent]
      omega
  · rw [h.ready_eq]
    congr 2
    funext u
    by_cases hu : u = t
    · subst hu
      simp [hnew, Worker.arrived]
    · simp [hu]
  · rw [h.go_eq, hmain]
    rfl
  · intro u hu
    by_cases hut : u = t
    · subst hut
      simp [Worker.started] at hu
    · exact h.started u (by simpa [hut] using hu)

/-- The main thread goes on with all workers spawned. -/
theorem Gated.setMain (h : Gated ofBits bufs threads passes g) {m : MainThread} {go : Bool}
    (hall : g.main.spawned threads = threads) (hm : m.spawned threads = threads)
    (hopening : m.startTime.isSome → g.ready = threads) (hgo : go = m.opened)
    (hstarted : g.go = true → go = true) (hjoined_le : m.joined threads ≤ threads)
    (hjoined : ∀ t < m.joined threads, g.workers t = .finished) :
    Gated ofBits bufs threads passes { g with main := m, go := go } := by
  have habsent := h.absent
  rw [hall, ← hm] at habsent
  exact { h with
    spawned_le := hm.le, absent := habsent, opening := hopening, go_eq := hgo,
    started := fun t ht => hstarted (h.started t ht), joined_le := hjoined_le, joined := hjoined }

theorem Gated.ready_le (h : Gated ofBits bufs threads passes g) : g.ready ≤ threads := by
  rw [h.ready_eq]
  exact (Finset.card_filter_le _ _).trans (Finset.card_range _).le

theorem Gated.mainTurn (h : Gated ofBits bufs threads passes g) {clock : UInt64}
    (hturn : g.mainTurn threads clock = some g') : Gated ofBits bufs threads passes g' := by
  have hgo := h.go_eq
  have hjoined := h.joined
  have hopening := h.opening
  unfold Gate.mainTurn at hturn
  split at hturn
  next t hmain =>
    split at hturn
    next ht =>
      obtain rfl := Option.some.inj hturn
      exact h.spawn hmain ht
    next ht =>
      obtain rfl := Option.some.inj hturn
      have hle := h.spawned_le
      have hall : g.main.spawned threads = threads := by
        rw [hmain, MainThread.spawned] at hle ⊢
        omega
      exact h.setMain (m := .waiting) hall rfl (by simp [MainThread.startTime])
        (by rw [hgo, hmain]; rfl) id (Nat.zero_le _) (by simp [MainThread.joined])
  next hmain =>
    split at hturn
    next => simp at hturn
    next hready =>
      obtain rfl := Option.some.inj hturn
      have heq : g.ready = threads := Nat.le_antisymm h.ready_le (Nat.le_of_not_lt hready)
      exact h.setMain (m := .opening clock) (by rw [hmain]; rfl) rfl (fun _ => heq)
        (by rw [hgo, hmain]; rfl) id (Nat.zero_le _) (by simp [MainThread.joined])
  next t0 hmain =>
    obtain rfl := Option.some.inj hturn
    have heq : g.ready = threads := hopening (by simp [hmain, MainThread.startTime])
    exact h.setMain (m := .joining t0 0) (by rw [hmain]; rfl) rfl (fun _ => heq) rfl
      (fun _ => rfl) (Nat.zero_le _) (by simp [MainThread.joined])
  next t0 t hmain =>
    have heq : g.ready = threads := hopening (by simp [hmain, MainThread.startTime])
    simp only [hmain, MainThread.joined] at hjoined
    split at hturn
    next ht =>
      split at hturn
      next hfin =>
        obtain rfl := Option.some.inj hturn
        refine h.setMain (m := .joining t0 (t + 1)) (by rw [hmain]; rfl) rfl (fun _ => heq)
          (by rw [hgo, hmain]; rfl) id ht fun u hu => ?_
        rcases Nat.lt_succ_iff_lt_or_eq.mp hu with hu | rfl
        · exact hjoined u hu
        · exact hfin
      next => simp at hturn
    next ht =>
      obtain rfl := Option.some.inj hturn
      refine h.setMain (m := .done t0 clock) (by rw [hmain]; rfl) rfl (fun _ => heq)
        (by rw [hgo, hmain]; rfl) id le_rfl fun u hu => ?_
      exact hjoined u (by simp only [MainThread.joined] at hu; omega)
  next => simp at hturn

theorem Gated.turn (h : Gated ofBits bufs threads passes g) {x : Turn}
    (hturn : g.turn ofBits bufs threads passes x = some g') :
    Gated ofBits bufs threads passes g' := by
  cases x with
  | main clock => exact h.mainTurn hturn
  | worker t => exact h.workerTurn hturn

theorem gated_run {turns : List Turn} (hrun : runGate ofBits bufs threads passes turns = some g) :
    Gated ofBits bufs threads passes g :=
  foldlM_invariant (I := Gated ofBits bufs threads passes) (fun _ _ _ h hturn => h.turn hturn)
    gated_start hrun

end Invariant

/-- How many turns a worker has before it, with a buffer of `n` records. -/
def Worker.turnsLeft {F : Type} [PriceArith F] (n passes : Nat) : Worker F → Nat
  | .absent => passes * (n + 2) + 4
  | .born => passes * (n + 2) + 3
  | .parked => passes * (n + 2) + 2
  | .looping pass _ => (passes - pass.toNat) * (n + 2) + 1
  | .validating pass _ rest _ => (passes - pass.toNat - 1) * (n + 2) + rest.length + 2
  | .finished => 0

def MainThread.turnsLeft (threads : Nat) : MainThread → Nat
  | .spawning t => threads - t + threads + 5
  | .waiting => threads + 4
  | .opening _ => threads + 3
  | .joining _ t => threads - t + 1
  | .done .. => 0

def Gate.turnsLeft {F : Type} [PriceArith F] (bufs : Nat → List WireRecord) (threads : Nat)
    (passes : UInt64) (g : Gate F) : Nat :=
  g.main.turnsLeft threads +
    ∑ t ∈ Finset.range threads, (g.workers t).turnsLeft (bufs t).length passes.toNat

section Progress

variable {F : Type} [PriceArith F] {ofBits : DoubleBits → F} {bufs : Nat → List WireRecord}
  {threads : Nat} {passes : UInt64} {g : Gate F}

theorem sum_turnsLeft_update {t : Nat} {x : Worker F} (ht : t < threads)
    (hx : x.turnsLeft (bufs t).length passes.toNat <
      (g.workers t).turnsLeft (bufs t).length passes.toNat) :
    ∑ u ∈ Finset.range threads,
        (Function.update g.workers t x u).turnsLeft (bufs u).length passes.toNat <
      ∑ u ∈ Finset.range threads, (g.workers u).turnsLeft (bufs u).length passes.toNat := by
  refine Finset.sum_lt_sum (fun u _ => ?_) ⟨t, Finset.mem_range.mpr ht, by simpa using hx⟩
  by_cases hu : u = t
  · subst hu
    simpa using hx.le
  · simp [hu]

/-- Somebody has a turn after which less is left to do. -/
def Gate.Progresses (ofBits : DoubleBits → F) (bufs : Nat → List WireRecord) (threads : Nat)
    (passes : UInt64) (g : Gate F) : Prop :=
  ∃ x g', g.turn ofBits bufs threads passes x = some g' ∧
    g'.turnsLeft bufs threads passes < g.turnsLeft bufs threads passes

/-- A worker that can move has less to do afterwards. -/
theorem Gated.progress_worker (h : Gated ofBits bufs threads passes g) {t : Nat}
    (habsent : g.workers t ≠ .absent) (hfin : g.workers t ≠ .finished)
    (hparked : g.workers t = .parked → g.go = true) :
    g.Progresses ofBits bufs threads passes := by
  have ht := h.lt_of_spawned habsent
  have hsound := h.sound t
  suffices hmove : ∃ x c r, g.workerTurn ofBits bufs passes t =
      some { g with workers := Function.update g.workers t x, checksums := c, ready := r } ∧
      x.turnsLeft (bufs t).length passes.toNat <
        (g.workers t).turnsLeft (bufs t).length passes.toNat by
    obtain ⟨x, c, r, hturn, hless⟩ := hmove
    refine ⟨.worker t, _, hturn, ?_⟩
    exact Nat.add_lt_add_left (sum_turnsLeft_update ht hless) _
  unfold Gate.workerTurn
  cases hw : g.workers t with
  | absent => exact absurd hw habsent
  | finished => exact absurd hw hfin
  | born => exact ⟨.parked, g.checksums, g.ready + 1, rfl, by simp [Worker.turnsLeft]⟩
  | parked =>
    rw [hparked hw]
    exact ⟨.looping 0 0, g.checksums, g.ready, rfl, by simp [Worker.turnsLeft]⟩
  | looping pass sum =>
    by_cases hlt : pass < passes
    · refine ⟨.validating pass {} (bufs t) sum, g.checksums, g.ready, by simp [hlt], ?_⟩
      have hpass := UInt64.lt_iff_toNat_lt.mp hlt
      obtain ⟨k, hk⟩ : ∃ k, passes.toNat - pass.toNat = k + 1 := ⟨passes.toNat - pass.toNat - 1, by omega⟩
      simp only [Worker.turnsLeft, hk, Nat.succ_mul, Nat.add_sub_cancel]
      omega
    · refine ⟨.finished, Function.update g.checksums t sum, g.ready, by simp [hlt], ?_⟩
      simp [Worker.turnsLeft]
  | validating pass v rest sum =>
    rw [hw] at hsound
    obtain ⟨hlt, _⟩ := hsound
    have hsucc : (pass + 1).toNat = pass.toNat + 1 := by
      have := passes.toNat_lt
      exact toNat_succ (by omega)
    cases rest with
    | nil =>
      refine ⟨.looping (pass + 1) sum, g.checksums, g.ready, rfl, ?_⟩
      simp only [Worker.turnsLeft, hsucc, Nat.sub_sub]
      omega
    | cons rec rest =>
      refine ⟨_, g.checksums, g.ready, rfl, ?_⟩
      simp [Worker.turnsLeft]

theorem progresses_of_main {m : MainThread} {go : Bool}
    (hturn : g.mainTurn threads 0 = some { g with main := m, go := go })
    (hless : m.turnsLeft threads < g.main.turnsLeft threads) :
    g.Progresses ofBits bufs threads passes :=
  ⟨.main 0, _, hturn, Nat.add_lt_add_right hless _⟩

/-- The main thread spawns the next worker. -/
theorem Gated.progress_spawn (h : Gated ofBits bufs threads passes g) {t : Nat}
    (hmain : g.main = .spawning t) (ht : t < threads) : g.Progresses ofBits bufs threads passes := by
  have hturn : g.mainTurn threads 0 = some
      { g with main := .spawning (t + 1), workers := Function.update g.workers t .born } := by
    simp [Gate.mainTurn, hmain, ht]
  have hnew : g.workers t = .absent := (h.absent t).mp (by simp [hmain, MainThread.spawned])
  have hborn : (Worker.born : Worker F).turnsLeft (bufs t).length passes.toNat <
      (g.workers t).turnsLeft (bufs t).length passes.toNat := by
    simp [hnew, Worker.turnsLeft]
  have hless := sum_turnsLeft_update ht hborn
  refine ⟨.main 0, _, hturn, ?_⟩
  simp only [Gate.turnsLeft, hmain, MainThread.turnsLeft]
  omega

/-- Where no worker can move, the spawned ones are all at the closed gate or through. -/
theorem Gated.idle_workers (h : Gated ofBits bufs threads passes g)
    (hidle : ¬∃ t, g.workers t ≠ .absent ∧ g.workers t ≠ .finished ∧
      (g.workers t = .parked → g.go = true)) (hall : g.main.spawned threads = threads) :
    ∀ t < threads, g.workers t = .finished ∨ g.workers t = .parked ∧ g.go = false := by
  intro t ht
  have habsent : g.workers t ≠ .absent := by
    intro habsent
    have := (h.absent t).mpr habsent
    omega
  by_contra! hno
  obtain ⟨hfin, hpark⟩ := hno
  exact hidle ⟨t, habsent, hfin, fun hp => by simpa using hpark hp⟩

/-- Somebody can always move until the main thread has its second reading. -/
theorem Gated.progress (h : Gated ofBits bufs threads passes g)
    (hmore : ¬∃ t0 t1, g.main = .done t0 t1) : g.Progresses ofBits bufs threads passes := by
  by_cases hwork : ∃ t, g.workers t ≠ .absent ∧ g.workers t ≠ .finished ∧
      (g.workers t = .parked → g.go = true)
  · obtain ⟨t, habsent, hfin, hparked⟩ := hwork
    exact h.progress_worker habsent hfin hparked
  have hidle := h.idle_workers hwork
  cases hmain : g.main with
  | spawning t =>
    by_cases ht : t < threads
    · exact h.progress_spawn hmain ht
    · refine progresses_of_main (m := .waiting) (by simp [Gate.mainTurn, hmain, ht]; rfl) ?_
      simp only [hmain, MainThread.turnsLeft]
      omega
  | waiting =>
    have harrived : g.ready = threads := by
      rw [h.ready_eq, Finset.filter_true_of_mem, Finset.card_range]
      intro t ht
      rcases hidle (by rw [hmain]; rfl) t (Finset.mem_range.mp ht) with hw | ⟨hw, _⟩ <;>
        simp [hw, Worker.arrived]
    refine progresses_of_main (m := .opening 0) (by simp [Gate.mainTurn, hmain, harrived]; rfl) ?_
    simp [hmain, MainThread.turnsLeft]
  | opening t0 =>
    refine progresses_of_main (m := .joining t0 0) (by simp [Gate.mainTurn, hmain]; rfl) ?_
    simp [hmain, MainThread.turnsLeft]
  | joining t0 t =>
    have hgo : g.go = true := by
      rw [h.go_eq, hmain]
      rfl
    by_cases ht : t < threads
    · have hfin : g.workers t = .finished := by
        rcases hidle (by rw [hmain]; rfl) t ht with hw | ⟨_, hclosed⟩
        · exact hw
        · simp [hgo] at hclosed
      refine progresses_of_main (m := .joining t0 (t + 1))
        (by simp [Gate.mainTurn, hmain, ht, hfin]; rfl) ?_
      simp only [hmain, MainThread.turnsLeft]
      omega
    · refine progresses_of_main (m := .done t0 0) (by simp [Gate.mainTurn, hmain, ht]; rfl) ?_
      simp [hmain, MainThread.turnsLeft]
  | done t0 t1 => exact absurd ⟨t0, t1, hmain⟩ hmore

theorem exists_done {turns : List Turn} (hrun : runGate ofBits bufs threads passes turns = some g) :
    ∃ more g', runGate ofBits bufs threads passes (turns ++ more) = some g' ∧
      ∃ t0 t1, g'.main = .done t0 t1 := by
  obtain ⟨more, g', _, hmore, hdone⟩ := exists_foldlM_final
    (I := Gated ofBits bufs threads passes) (Gate.turnsLeft bufs threads passes)
    (fun _ _ _ h hturn => h.turn hturn) (fun _ h hmore => h.progress hmore) (gated_run hrun)
  refine ⟨more, g', ?_, hdone⟩
  rw [runGate, List.foldlM_append]
  exact (congrArg (· >>= _) hrun).trans hmore

/-- The start gate: in every interleaving no worker checks a record before all workers are at
the gate and the clock has been read; when the clock is read again, every worker is through and
has left the checksum of its passes; and the run can always be brought to that point. -/
theorem startGate_safe {turns : List Turn}
    (hrun : runGate ofBits bufs threads passes turns = some g) :
    (∀ t, (g.workers t).started = true →
      g.main.startTime.isSome = true ∧ ∀ u < threads, (g.workers u).arrived = true) ∧
    (∀ t0 t1, g.main = .done t0 t1 → ∀ t < threads, g.workers t = .finished ∧
      g.checksums t = passSum ofBits (bufs t) passes.toNat) ∧
    ∃ more g', runGate ofBits bufs threads passes (turns ++ more) = some g' ∧
      ∃ t0 t1, g'.main = .done t0 t1 := by
  have h := gated_run hrun
  refine ⟨?_, ?_, exists_done hrun⟩
  · intro t ht
    have hopened : g.main.opened = true := by rw [← h.go_eq, h.started t ht]
    have htime : g.main.startTime.isSome = true := by
      cases hmain : g.main <;> simp_all [MainThread.opened, MainThread.startTime]
    refine ⟨htime, forall_of_card_filter ?_⟩
    rw [← h.ready_eq, h.opening htime]
  · intro t0 t1 hdone t ht
    have hfin := h.joined t (by simpa [hdone, MainThread.joined] using ht)
    have hsound := h.sound t
    rw [hfin] at hsound
    exact ⟨hfin, hsound⟩

/-- A thread that has checked its only record and not yet gone on to the next pass. -/
theorem startGate_safe_oneThread :
    ∃ g : Gate ℚ, runGate (fun x => (x.toNat : ℚ)) (fun _ => [fill 0]) 1 2
        [.main 0, .main 0, .worker 0, .main 5, .main 6, .worker 0, .worker 0, .worker 0] = some g ∧
      (g.workers 0).started = true ∧ g.main.startTime.isSome = true ∧
      (g.workers 0).arrived = true := by
  have hstarted : (runGate (fun x => (x.toNat : ℚ)) (fun _ => [fill 0]) 1 2
      [.main 0, .main 0, .worker 0, .main 5, .main 6, .worker 0, .worker 0, .worker 0]).map
        (fun g => (g.workers 0).started) = some true := by decide +kernel
  obtain ⟨g, hrun, hs⟩ := Option.map_eq_some_iff.mp hstarted
  obtain ⟨htime, harrived⟩ := (startGate_safe hrun).1 0 hs
  exact ⟨g, hrun, hs, htime, harrived 0 (by decide)⟩

end Progress

section Totals

variable {F : Type} [PriceArith F] (ofBits : DoubleBits → F) {recs : List WireRecord}
  {threads : Nat}

/-- All flags of a pass, added up. -/
def flagSum (recs : List WireRecord) : UInt64 :=
  ((benchPass ofBits recs).2.map fun r => r.flags.toUInt64).sum

theorem benchPass_concat (recs : List WireRecord) (rec : WireRecord) :
    benchPass ofBits (recs ++ [rec]) =
      (((benchPass ofBits recs).1.check (rec.dispatch ofBits)).1,
        (benchPass ofBits recs).2 ++ [((benchPass ofBits recs).1.check (rec.dispatch ofBits)).2]) := by
  rw [benchPass, List.map_append, List.map_singleton, Validator.run_concat]
  rfl

theorem flagSum_concat (recs : List WireRecord) (rec : WireRecord) :
    flagSum ofBits (recs ++ [rec]) = flagSum ofBits recs +
      ((benchPass ofBits recs).1.check (rec.dispatch ofBits)).2.flags.toUInt64 := by
  simp [flagSum, benchPass_concat]

theorem collect_addFlags (recs : List WireRecord) (s : UInt64) :
    collect ofBits addFlags recs s = s + flagSum ofBits recs := by
  have hfold := foldl_checkRecord ofBits addFlags recs s
  induction recs using List.reverseRecOn with
  | nil => simp [collect, flagSum, benchPass, Validator.run]
  | append_singleton recs rec ih =>
    rw [List.foldl_append, foldl_checkRecord, ih (foldl_checkRecord ofBits addFlags recs s)] at hfold
    rw [flagSum_concat, ← add_assoc]
    exact (congrArg Prod.snd hfold).symm

theorem passSum_eq (recs : List WireRecord) (n : Nat) :
    passSum ofBits recs n = n • flagSum ofBits recs := by
  induction n with
  | zero => simp [passSum]
  | succ n ih =>
    rw [passSum, Function.iterate_succ_apply', collect_addFlags, succ_nsmul, ← ih]
    rfl

/-- A record gets the same flags from its shard's validator as from one for all records. -/
theorem check_shard {rec : WireRecord}
    (hfew : ((recs ++ [rec]).map recordSymbol).toFinset.card ≤ 4096) :
    ((benchPass ofBits (shards threads recs (owner threads rec))).1.check (rec.dispatch ofBits)).2 =
      ((benchPass ofBits recs).1.check (rec.dispatch ofBits)).2 := by
  let own := shards threads recs (owner threads rec)
  have hown : own = recs.filter fun r => owner threads r = owner threads rec :=
    shards_eq_filter ..
  have hfewAll : ((recs.map (WireRecord.dispatch ofBits) ++ [rec.dispatch ofBits]).map
      OhlcvValidator.WireRecord.symbol).toFinset.card ≤ 4096 := by
    rw [← List.map_singleton, ← List.map_append, map_dispatch_symbol]
    exact hfew
  have hfewOwn : ((own.map (WireRecord.dispatch ofBits) ++ [rec.dispatch ofBits]).map
      OhlcvValidator.WireRecord.symbol).toFinset.card ≤ 4096 := by
    rw [← List.map_singleton, ← List.map_append, map_dispatch_symbol]
    refine (Finset.card_le_card ?_).trans hfew
    intro symbol hsymbol
    rw [List.mem_toFinset, List.mem_map] at hsymbol ⊢
    obtain ⟨r, hr, rfl⟩ := hsymbol
    refine ⟨r, ?_, rfl⟩
    rw [hown, List.mem_append] at hr
    exact List.mem_append.mpr (hr.imp_left fun h => (List.mem_filter.mp h).1)
  have hsame : (own.map (WireRecord.dispatch ofBits)).filter
        (fun r => r.symbol = (rec.dispatch ofBits).symbol) =
      (recs.map (WireRecord.dispatch ofBits)).filter
        fun r => r.symbol = (rec.dispatch ofBits).symbol := by
    have hself : symbolOwner threads (recordSymbol rec) = owner threads rec := rfl
    rw [dispatch_symbol, filter_dispatch_symbol, filter_dispatch_symbol, hown, filter_shard,
      if_pos hself]
  have hresult := Validator.results_eq_of_same_symbol hfewOwn hfewAll hsame
  simpa [benchPass, Validator.run_concat, Validator.length_run] using hresult

theorem sum_flagSum_shards (hT : 0 < threads)
    (hfew : (recs.map recordSymbol).toFinset.card ≤ 4096) :
    ∑ t ∈ Finset.range threads, flagSum ofBits (shards threads recs t) = flagSum ofBits recs := by
  induction recs using List.reverseRecOn with
  | nil => simp [flagSum, shards, benchPass, Validator.run]
  | append_singleton recs rec ih =>
    have hmem : owner threads rec ∈ Finset.range threads := Finset.mem_range.mpr (Nat.mod_lt _ hT)
    have hbefore : (recs.map recordSymbol).toFinset.card ≤ 4096 := by
      refine (Finset.card_le_card ?_).trans hfew
      rw [List.map_append, List.toFinset_append]
      exact Finset.subset_union_left
    have hstep : shards threads (recs ++ [rec]) = Function.update (shards threads recs)
        (owner threads rec) (shards threads recs (owner threads rec) ++ [rec]) := by
      simp [shards]
    rw [flagSum_concat, ← ih hbefore, ← Finset.add_sum_erase _ _ hmem,
      ← Finset.add_sum_erase _ _ hmem, hstep, Function.update_self, flagSum_concat,
      check_shard ofBits hfew, add_right_comm]
    congr 1
    refine congrArg _ (Finset.sum_congr rfl fun t ht => ?_)
    rw [Function.update_of_ne (Finset.ne_of_mem_erase ht)]

/-- The checksums of the threads add up to the checksum of as many passes on one thread, for
every thread count and every interleaving. -/
theorem sharded_checksums_sum (hT : 0 < threads)
    (hfew : (recs.map recordSymbol).toFinset.card ≤ 4096) {passes : UInt64} {turns : List Turn}
    {g : Gate F} (hrun : runGate ofBits (shards threads recs) threads passes turns = some g)
    {t0 t1 : UInt64} (hdone : g.main = .done t0 t1) :
    ∑ t ∈ Finset.range threads, g.checksums t =
      (collect ofBits addFlags recs)^[passes.toNat] 0 := by
  have h := gated_run hrun
  have hsum : ∀ t ∈ Finset.range threads,
      g.checksums t = passes.toNat • flagSum ofBits (shards threads recs t) := by
    intro t ht
    have hfin := h.joined t (by simpa [hdone, MainThread.joined] using ht)
    have hsound := h.sound t
    rw [hfin] at hsound
    rw [← passSum_eq]
    exact hsound
  rw [Finset.sum_congr rfl hsum, ← Finset.smul_sum, sum_flagSum_shards ofBits hT hfew, ← passSum_eq]
  rfl

/-- Two threads and three passes, scheduled to the end. -/
theorem sharded_checksums_sum_twoThreads :
    ∃ turns g t0 t1, runGate (fun x => (x.toNat : ℚ)) (shards 2 [fill 0, fill 1, fill 7]) 2 3 turns =
        some g ∧ g.main = .done t0 t1 ∧
      ∑ t ∈ Finset.range 2, g.checksums t =
        (collect (fun x => (x.toNat : ℚ)) addFlags [fill 0, fill 1, fill 7])^[3] 0 := by
  have hstart : runGate (fun x => (x.toNat : ℚ)) (shards 2 [fill 0, fill 1, fill 7]) 2 3 [] =
      some {} := rfl
  obtain ⟨turns, g, hrun, t0, t1, hdone⟩ := exists_done hstart
  exact ⟨_, g, t0, t1, hrun, hdone,
    sharded_checksums_sum _ (by decide) (by decide) hrun hdone⟩

end Totals

end Replay

end OhlcvValidator
