import OhlcvValidator.AlpacaClient

namespace OhlcvValidator

namespace Ingest

/-- Doubled for each attempt, up to the cap. The shift is of 64 bits. -/
def backoffCeiling (attempt : UInt32) (base cap : Int) : Int :=
  if 32 ≤ attempt then cap
  else
    let shifted := (base * 2 ^ attempt.toNat).bmod (2 ^ 64)
    if shifted ≤ 0 ∨ cap < shifted then cap else shifted

def kBase : Int := 250

def kCap : Int := 30000

/-- A draw from the integers between two bounds. -/
def uniformInt (lo hi : Int) (draw : Nat) : Int :=
  lo + draw % (hi - lo + 1)

/-- The session with the loop variable of `establish` and the delays it has slept for, in the
last call and in the calls before. -/
structure Timed where
  session : AlpacaClient × Phase
  attempt : UInt32 := 0
  delays : List Int := []
  past : List (List Int) := []

namespace Timed

/-- The delays of each call of `establish`. -/
def outages (s : Timed) : List (List Int) :=
  s.past ++ [s.delays]

/-- The handler of a failed attempt: sleep between half the ceiling and the ceiling. -/
def sleep (s : Timed) (draw : Nat) : Timed :=
  let ceil := backoffCeiling s.attempt kBase kCap
  { s with
    attempt := s.attempt + 1
    delays := s.delays ++ [uniformInt (ceil / 2) ceil draw] }

/-- One operation on the stream; where it calls `establish`, the attempts start over. -/
def step (symbols : List (List UInt8)) (s : Timed) (e : Outcome × Nat) : Timed :=
  let next := ingestStep symbols s.session e.1
  match s.session.2, e.1, next.2 with
  | .establishing .., .failed, _ => sleep { s with session := next } e.2
  | .main _, .failed, .establishing .. => { session := next, past := s.outages }
  | _, _, _ => { s with session := next }

def run (config : AlpacaConfig) (symbols : List (List UInt8)) (events : List (Outcome × Nat)) :
    Timed :=
  events.foldl (step symbols) { session := ({ config := config }, .main .connect) }

end Timed

/-- An operation of `establish` fails, and with it the attempt. -/
def failsAttempt : Phase → Outcome → Bool
  | .establishing .., .failed => true
  | _, _ => false

/-- The attempts of `establish` that fail in a session. -/
def failedAttempts (config : AlpacaConfig) (symbols : List (List UInt8)) (outcomes : List Outcome) :
    Nat :=
  (List.range outcomes.length).countP fun i =>
    outcomes[i]?.any (failsAttempt (ingest config symbols (outcomes.take i)).2)

/-- The longest delay after as many failed attempts. -/
def longest (k : Nat) : Int :=
  min (250 * 2 ^ k) 30000

theorem backoffCeiling_eq {base cap : Int} (hbase : 0 < base) (hsmall : base < 2 ^ 32)
    (hcap : cap ≤ base * 2 ^ 32) (attempt : UInt32) :
    backoffCeiling attempt base cap = min (base * 2 ^ attempt.toNat) cap := by
  unfold backoffCeiling
  split
  next h32 =>
    have hle : (2 : Int) ^ 32 ≤ 2 ^ attempt.toNat :=
      pow_le_pow_right₀ (by decide) (UInt32.le_iff_toNat_le.mp h32)
    have hcap : cap ≤ base * 2 ^ attempt.toNat :=
      hcap.trans (mul_le_mul_of_nonneg_left hle hbase.le)
    exact (min_eq_right hcap).symm
  next h32 =>
    have hlt : attempt.toNat ≤ 31 := by
      have := UInt32.le_iff_toNat_le.not.mp h32
      have h : (32 : UInt32).toNat = 32 := rfl
      omega
    have hpow : (2 : Int) ^ attempt.toNat ≤ 2 ^ 31 := pow_le_pow_right₀ (by decide) hlt
    have hpos : 0 < base * 2 ^ attempt.toNat := mul_pos hbase (by positivity)
    have hfits : base * 2 ^ attempt.toNat < 2 ^ 63 := by
      have := mul_le_mul_of_nonneg_left hpow hbase.le
      omega
    have hshift : (base * 2 ^ attempt.toNat).bmod (2 ^ 64) = base * 2 ^ attempt.toNat := by
      rw [Int.bmod_eq_of_le] <;> omega
    dsimp only
    rw [hshift]
    split
    next h => omega
    next h => omega

theorem backoffCeiling_establish (attempt : UInt32) :
    backoffCeiling attempt kBase kCap = longest attempt.toNat :=
  backoffCeiling_eq (by decide) (by decide) (by decide) attempt

theorem longest_pos (k : Nat) : 0 < longest k := by
  have : (0 : Int) < 2 ^ k := by positivity
  unfold longest
  omega

theorem even_longest (k : Nat) : longest k / 2 * 2 = longest k := by
  unfold longest
  omega

theorem uniformInt_bounds {lo hi : Int} (h : lo ≤ hi) (draw : Nat) :
    lo ≤ uniformInt lo hi draw ∧ uniformInt lo hi draw ≤ hi := by
  have hpos : 0 < hi - lo + 1 := by omega
  have hge := Int.emod_nonneg draw hpos.ne'
  have hlt := Int.emod_lt_of_pos draw hpos
  unfold uniformInt
  omega

/-- The delays of one call keep between half the longest ones and the longest ones. -/
def Spaced (delays : List Int) : Prop :=
  ∀ (k : Nat) d, delays[k]? = some d → k < 2 ^ 32 → longest k ≤ 2 * d ∧ d ≤ longest k

theorem spaced_nil : Spaced [] := by
  intro k d hd
  simp at hd

theorem Spaced.concat {delays : List Int} (h : Spaced delays) {d : Int}
    (hd : delays.length < 2 ^ 32 → longest delays.length ≤ 2 * d ∧ d ≤ longest delays.length) :
    Spaced (delays ++ [d]) := by
  intro k x hx hk
  rcases Nat.lt_or_ge k delays.length with hlt | hge
  · rw [List.getElem?_append_left hlt] at hx
    exact h k x hx hk
  · have hlen := (List.getElem?_eq_some_iff.mp hx).1
    rw [List.length_append, List.length_singleton] at hlen
    obtain rfl : k = delays.length := by omega
    obtain rfl : d = x := by simpa using hx
    exact hd hk

/-- The longest total delay of as many failed attempts, in milliseconds. -/
def longestTotal (n : Nat) : Int :=
  if n ≤ 7 then 250 * (2 ^ n - 1) else 31750 + 30000 * (n - 7)

theorem longestTotal_succ (n : Nat) : longestTotal (n + 1) = longestTotal n + longest n := by
  rcases Nat.lt_or_ge n 7 with hlt | hge
  · interval_cases n <;> decide
  · have hpow : (2 : Int) ^ 7 ≤ 2 ^ n := pow_le_pow_right₀ (by decide) hge
    have hcap : longest n = 30000 := min_eq_right (by omega)
    rw [hcap, longestTotal, longestTotal, if_neg (by omega)]
    split
    next hle =>
      obtain rfl : n = 7 := by omega
      rfl
    next =>
      push_cast
      omega

theorem Spaced.total {delays : List Int} (h : Spaced delays) (hlen : delays.length ≤ 2 ^ 32) :
    longestTotal delays.length ≤ 2 * delays.sum ∧ delays.sum ≤ longestTotal delays.length := by
  induction delays using List.reverseRecOn with
  | nil => exact ⟨le_rfl, le_rfl⟩
  | append_singleton delays d ih =>
    rw [List.length_append, List.length_singleton] at hlen ⊢
    have hlast := h delays.length d (by simp) (by omega)
    have hinit := ih (fun k x hx hk => h k x (by
      rw [List.getElem?_append_left (List.getElem?_eq_some_iff.mp hx).1, hx]) hk) (by omega)
    rw [longestTotal_succ, List.sum_append, List.sum_singleton]
    omega

namespace Timed

variable {config : AlpacaConfig} {symbols : List (List UInt8)} {s : Timed}

/-- Every call's delays are spaced, and the loop variable counts those of the last call. -/
structure Paced (s : Timed) : Prop where
  spaced : ∀ delays ∈ s.outages, Spaced delays
  attempt : s.attempt = UInt32.ofNat s.delays.length

theorem Paced.sleep (h : s.Paced) (draw : Nat) : (s.sleep draw).Paced := by
  have hceil := backoffCeiling_establish s.attempt
  have hdelays : Spaced (s.sleep draw).delays := by
    refine (h.spaced s.delays (by simp [outages])).concat fun hlen => ?_
    have hk : s.attempt.toNat = s.delays.length := by
      rw [h.attempt, UInt32.toNat_ofNat_of_lt' hlen]
    rw [hceil, hk]
    have hpos := longest_pos s.delays.length
    have heven := even_longest s.delays.length
    have hhalf : longest s.delays.length / 2 ≤ longest s.delays.length := by omega
    have hbounds := uniformInt_bounds hhalf draw
    omega
  refine ⟨?_, ?_⟩
  · intro delays hmem
    rcases List.mem_append.mp hmem with hold | hlast
    · exact h.spaced delays (List.mem_append_left _ hold)
    · rw [List.mem_singleton.mp hlast]
      exact hdelays
  · change s.attempt + 1 = _
    rw [h.attempt, Timed.sleep, List.length_append, UInt32.ofNat_add]
    rfl

theorem Paced.step (h : s.Paced) (e : Outcome × Nat) : (s.step symbols e).Paced := by
  unfold Timed.step
  dsimp only
  split
  next =>
    have hsame : Paced { s with session := ingestStep symbols s.session e.1 } :=
      ⟨h.spaced, h.attempt⟩
    exact hsame.sleep e.2
  next =>
    refine ⟨fun delays hmem => ?_, rfl⟩
    rcases List.mem_append.mp hmem with hold | hlast
    · exact h.spaced delays hold
    · rw [List.mem_singleton.mp hlast]
      exact spaced_nil
  next => exact ⟨h.spaced, h.attempt⟩

theorem session_step (s : Timed) (e : Outcome × Nat) :
    (s.step symbols e).session = ingestStep symbols s.session e.1 := by
  unfold Timed.step
  dsimp only
  split <;> rfl

/-- A step sleeps once if it fails an attempt, and otherwise not. -/
theorem slept_step (s : Timed) (e : Outcome × Nat) :
    ((s.step symbols e).outages.map List.length).sum =
      (s.outages.map List.length).sum + (failsAttempt s.session.2 e.1).toNat := by
  unfold Timed.step
  dsimp only
  split
  next hphase ho => simp [hphase, ho, failsAttempt, sleep, outages, Nat.add_assoc]
  next hphase ho _ => simp [hphase, ho, failsAttempt, outages]
  next hnone _ =>
    have hno : failsAttempt s.session.2 e.1 = false := by
      unfold failsAttempt
      split
      next hphase ho => exact absurd ho (hnone _ _ hphase)
      next => rfl
    simp [hno, outages]

theorem run_concat (events : List (Outcome × Nat)) (e : Outcome × Nat) :
    run config symbols (events ++ [e]) = (run config symbols events).step symbols e := by
  simp [run]

theorem session_run (events : List (Outcome × Nat)) :
    (run config symbols events).session = ingest config symbols (events.map Prod.fst) := by
  induction events using List.reverseRecOn with
  | nil => rfl
  | append_singleton events e ih =>
    rw [run_concat, session_step, ih, List.map_append, ingest, ingest, List.foldl_append]
    rfl

theorem paced_run (events : List (Outcome × Nat)) : (run config symbols events).Paced := by
  induction events using List.reverseRecOn with
  | nil =>
    refine ⟨fun delays hmem => ?_, rfl⟩
    rw [List.mem_singleton.mp hmem]
    exact spaced_nil
  | append_singleton events e ih =>
    rw [run_concat]
    exact ih.step e

end Timed

theorem failedAttempts_concat (config : AlpacaConfig) (symbols : List (List UInt8))
    (outcomes : List Outcome) (o : Outcome) :
    failedAttempts config symbols (outcomes ++ [o]) = failedAttempts config symbols outcomes +
      (failsAttempt (ingest config symbols outcomes).2 o).toNat := by
  have hinit : ∀ i ∈ List.range outcomes.length,
      ((outcomes ++ [o])[i]?.any
        (failsAttempt (ingest config symbols ((outcomes ++ [o]).take i)).2)) =
      outcomes[i]?.any (failsAttempt (ingest config symbols (outcomes.take i)).2) := by
    intro i hi
    have hlt := List.mem_range.mp hi
    rw [List.getElem?_append_left hlt, List.take_append_of_le_length hlt.le]
  rw [failedAttempts, List.length_append, List.length_singleton, List.range_succ,
    List.countP_append, List.countP_congr fun i hi => by rw [hinit i hi]]
  simp only [failedAttempts, List.countP_singleton, List.getElem?_concat_length, Option.any_some,
    List.take_left']
  cases failsAttempt (ingest config symbols outcomes).2 o <;> simp

/-- Reconnecting is paced. The delays change nothing of the session, each failed attempt is
followed by one of them, and within one call of `establish` the `k`-th is between half of
`min (250 * 2 ^ k) 30000` milliseconds and all of it; so after `n` failed attempts the client has
slept for at least half of the longest total delay, which grows by 30 s for each attempt after
the seventh. -/
theorem reconnect_paced (config : AlpacaConfig) (symbols : List (List UInt8))
    (events : List (Outcome × Nat)) :
    (Timed.run config symbols events).session = ingest config symbols (events.map Prod.fst) ∧
    ((Timed.run config symbols events).outages.map List.length).sum =
      failedAttempts config symbols (events.map Prod.fst) ∧
    ∀ delays ∈ (Timed.run config symbols events).outages,
      (∀ (k : Nat) d, delays[k]? = some d → k < 2 ^ 32 →
        min (250 * 2 ^ k) 30000 ≤ 2 * d ∧ d ≤ min (250 * 2 ^ k) 30000) ∧
      (delays.length ≤ 2 ^ 32 → longestTotal delays.length ≤ 2 * delays.sum ∧
        delays.sum ≤ longestTotal delays.length) := by
  refine ⟨Timed.session_run events, ?_, fun delays hmem => ?_⟩
  · induction events using List.reverseRecOn with
    | nil => rfl
    | append_singleton events e ih =>
      rw [Timed.run_concat, Timed.slept_step, ih, List.map_append, List.map_singleton,
        failedAttempts_concat, Timed.session_run]
  · have hspaced := (Timed.paced_run events).spaced delays hmem
    exact ⟨hspaced, hspaced.total⟩

end Ingest

end OhlcvValidator
