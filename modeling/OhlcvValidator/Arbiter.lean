import OhlcvValidator.FeedArbitrator
import OhlcvValidator.InOrderRelease

namespace OhlcvValidator

/-- What arbitration is for, without ring or machine words: a frontier, the
messages held ahead of it, and everything released or declared lost behind it. -/
structure Arbiter (ρ : Type) where
  started : Bool
  frontier : Nat
  pending : Nat → Option ρ
  sent : List (Nat × ρ)
  gaps : Nat
  duplicates : Fin 2 → Nat
  maxReorder : Nat
  rejected : Nat

namespace Arbiter

variable {ρ : Type}

def fresh : Arbiter ρ where
  started := false
  frontier := 0
  pending := fun _ => none
  sent := []
  gaps := 0
  duplicates := fun _ => 0
  maxReorder := 0
  rejected := 0

/-- Move the frontier up to `g`: what is held below `g` is sent in order, and
every other index passed is a gap. -/
def passTo (a : Arbiter ρ) (g : Nat) : Arbiter ρ :=
  { a with
    frontier := g
    pending := fun s => if s < g then none else a.pending s
    sent := a.sent ++ entriesBetween a.pending a.frontier g
    gaps := a.gaps + (g - a.frontier - (entriesBetween a.pending a.frontier g).length) }

noncomputable def release (a : Arbiter ρ) : Arbiter ρ :=
  a.passTo (firstHole a.pending a.frontier)

def anchor (s : Nat) (a : Arbiter ρ) : Arbiter ρ :=
  if a.started then a else { a with frontier := s, started := true }

noncomputable def makeRoom (window s : Nat) (a : Arbiter ρ) : Arbiter ρ :=
  if a.frontier + window ≤ s then a.passTo (firstHole a.pending (s + 1 - window)) else a

def noteDepth (s : Nat) (a : Arbiter ρ) : Arbiter ρ :=
  { a with maxReorder := max a.maxReorder (s - a.frontier) }

def addDuplicate (ln : Fin 2) (a : Arbiter ρ) : Arbiter ρ :=
  { a with duplicates := Function.update a.duplicates ln (a.duplicates ln + 1) }

def addRejected (a : Arbiter ρ) : Arbiter ρ :=
  { a with rejected := a.rejected + 1 }

def hold (s : Nat) (r : ρ) (a : Arbiter ρ) : Arbiter ρ :=
  { a with pending := Function.update a.pending s (some r) }

noncomputable def place (s : Nat) (ln : Fin 2) (r : ρ) (a : Arbiter ρ) : Arbiter ρ :=
  if a.pending s = none then (a.hold s r).release else a.addDuplicate ln

/-- How far ahead of the frontier a sequence is still believed. -/
def maxGap : Nat := FeedArbitrator.kMaxGap.toNat

theorem maxGap_eq : maxGap = 2 ^ 20 := rfl

noncomputable def offer (window s : Nat) (ln : Fin 2) (r : ρ) (a : Arbiter ρ) : Arbiter ρ :=
  let a := a.anchor s
  if s < a.frontier then a.addDuplicate ln
  else if a.frontier + maxGap < s then a.addRejected
  else ((a.makeRoom window s).noteDepth s).place s ln r

noncomputable def flush (a : Arbiter ρ) : Arbiter ρ :=
  a.passTo (pendingEnd a.pending a.frontier)

noncomputable def call (window : Nat) (a : Arbiter ρ) : FeedCall ρ → Arbiter ρ
  | .offer pkt => a.offer window pkt.seq.toNat (FeedArbitrator.lineIndex pkt) pkt.record
  | .flush => a.flush

noncomputable def run (window : Nat) (calls : List (FeedCall ρ)) : Arbiter ρ :=
  calls.foldl (call window) fresh

/-- Everything held lies in the window that starts at the frontier. -/
def Within (window : Nat) (a : Arbiter ρ) : Prop :=
  ∀ s, a.pending s ≠ none → a.frontier ≤ s ∧ s < a.frontier + window

theorem Within.finiteBelow {window : Nat} {a : Arbiter ρ} (h : a.Within window) :
    FiniteBelow a.pending (a.frontier + window) := by
  intro s hs
  by_contra hn
  have := (h s hn).2
  omega

theorem Within.none_of_lt {window : Nat} {a : Arbiter ρ} (h : a.Within window) {s : Nat}
    (hs : s < a.frontier) : a.pending s = none := by
  by_contra hn
  have := (h s hn).1
  omega

/-- Passing to where the frontier already is changes nothing. -/
theorem passTo_self {window : Nat} {a : Arbiter ρ} (h : a.Within window) :
    a.passTo a.frontier = a := by
  have hp : (fun s => if s < a.frontier then none else a.pending s) = a.pending := by
    funext s
    by_cases hs : s < a.frontier
    · simp [hs, h.none_of_lt hs]
    · simp [hs]
  simp [passTo, hp, entriesBetween_self]

/-- Two passes make one pass. -/
theorem passTo_passTo (a : Arbiter ρ) {g h : Nat} (hg : a.frontier ≤ g) (hh : g ≤ h) :
    (a.passTo g).passTo h = a.passTo h := by
  have hentries : entriesBetween (a.passTo g).pending g h = entriesBetween a.pending g h :=
    entriesBetween_congr fun s hs _ => by simp [passTo, not_lt.mpr hs]
  have happ := entriesBetween_append a.pending hg hh
  have hlen := congrArg List.length happ
  have hl₁ := entriesBetween_length_le a.pending a.frontier g
  have hl₂ := entriesBetween_length_le a.pending g h
  have hpend : (fun s => if s < h then none else (a.passTo g).pending s) =
      fun s => if s < h then none else a.pending s := by
    funext s
    by_cases hs : s < h
    · simp [hs]
    · simp [passTo, hs, show ¬s < g by omega]
  have hgaps : a.gaps + (g - a.frontier - (entriesBetween a.pending a.frontier g).length) +
      (h - g - (entriesBetween a.pending g h).length) =
      a.gaps + (h - a.frontier - (entriesBetween a.pending a.frontier h).length) := by
    rw [List.length_append] at hlen
    omega
  have hsent : a.sent ++ entriesBetween a.pending a.frontier g ++ entriesBetween a.pending g h =
      a.sent ++ entriesBetween a.pending a.frontier h := by
    rw [List.append_assoc, happ]
  change Arbiter.mk _ h (fun s => if s < h then none else (a.passTo g).pending s)
    (a.sent ++ _ ++ entriesBetween (a.passTo g).pending g h)
    (a.gaps + _ + (h - g - (entriesBetween (a.passTo g).pending g h).length)) _ _ _ = _
  rw [hpend, hentries, hsent, hgaps]
  rfl

theorem passTo_pending {a : Arbiter ρ} {g s : Nat} (hs : g ≤ s) :
    (a.passTo g).pending s = a.pending s := by
  simp [passTo, not_lt.mpr hs]

theorem Within.passTo_succ_pending {window : Nat} {a : Arbiter ρ} (h : a.Within window) (s : Nat) :
    (a.passTo (a.frontier + 1)).pending s = if s = a.frontier then none else a.pending s := by
  rcases Nat.lt_trichotomy s a.frontier with hlt | rfl | hgt
  · simp [Arbiter.passTo, h.none_of_lt hlt]
  · simp [Arbiter.passTo]
  · rw [passTo_pending (by omega), if_neg (by omega)]

theorem firstHole_passTo (a : Arbiter ρ) {g q : Nat} (hq : g ≤ q) :
    firstHole (a.passTo g).pending q = firstHole a.pending q :=
  firstHole_congr fun _ hs => passTo_pending (hq.trans hs)

theorem Within.passTo {window : Nat} {a : Arbiter ρ} (h : a.Within window) {g : Nat}
    (hg : a.frontier ≤ g) : (a.passTo g).Within window := by
  intro s hs
  by_cases hlt : s < g
  · simp [Arbiter.passTo, hlt] at hs
  · simp only [Arbiter.passTo, hlt, if_false] at hs
    have := (h s hs).2
    exact ⟨not_lt.mp hlt, by simp only [Arbiter.passTo]; omega⟩

/-- The next hole behind the frontier is where one forced step leads. -/
theorem passTo_succ_release {window : Nat} {a : Arbiter ρ} (h : a.Within window) :
    (a.passTo (a.frontier + 1)).release = a.passTo (firstHole a.pending (a.frontier + 1)) := by
  have hle := le_firstHole h.finiteBelow (a.frontier + 1)
  have hhole : firstHole (a.passTo (a.frontier + 1)).pending (a.frontier + 1) =
      firstHole a.pending (a.frontier + 1) := a.firstHole_passTo le_rfl
  change (a.passTo (a.frontier + 1)).passTo
    (firstHole (a.passTo (a.frontier + 1)).pending (a.frontier + 1)) = _
  rw [hhole, passTo_passTo a (by omega) hle]

theorem anchor_started (a : Arbiter ρ) (s : Nat) : (a.anchor s).started = true := by
  cases h : a.started <;> simp [anchor, h]

theorem makeRoom_started (a : Arbiter ρ) (window s : Nat) :
    (a.makeRoom window s).started = a.started := by
  rw [makeRoom]
  split <;> rfl

/-- Sequences a whole window ahead are not held, so forced passes stop short of them. -/
theorem makeRoom_target_le {window s : Nat} {a : Arbiter ρ} (h : a.Within window)
    (hw : 0 < window) (hs : a.frontier + window ≤ s) :
    firstHole a.pending (s + 1 - window) ≤ s :=
  firstHole_le (by omega) (h.finiteBelow s hs)

theorem makeRoom_frontier {window s : Nat} {a : Arbiter ρ} (h : a.Within window)
    (hw : 0 < window) (hs : a.frontier ≤ s) :
    a.frontier ≤ (a.makeRoom window s).frontier ∧ (a.makeRoom window s).frontier ≤ s ∧
      s < (a.makeRoom window s).frontier + window := by
  by_cases hfar : a.frontier + window ≤ s
  · rw [makeRoom, if_pos hfar]
    have hle := makeRoom_target_le h hw hfar
    have hge := le_firstHole h.finiteBelow (s + 1 - window)
    exact ⟨by simp only [passTo]; omega, hle, by simp only [passTo]; omega⟩
  · rw [makeRoom, if_neg hfar]
    omega

theorem Within.hold {window s : Nat} {r : ρ} {a : Arbiter ρ} (h : a.Within window)
    (hs : a.frontier ≤ s) (hs' : s < a.frontier + window) : (a.hold s r).Within window := by
  intro t ht
  by_cases hts : t = s
  · subst hts
    exact ⟨hs, hs'⟩
  · exact h t (by simpa [Arbiter.hold, hts] using ht)

end Arbiter

end OhlcvValidator
