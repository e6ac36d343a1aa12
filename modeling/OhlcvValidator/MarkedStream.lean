import OhlcvValidator.Transducer

namespace OhlcvValidator

/-! A stream with some of its inputs marked stands for two streams: with the marked inputs, and
without them. -/

namespace Marked

variable {σ α β : Type}

/-- All inputs. -/
def whole (ws : List (Bool × α)) : List α :=
  ws.map Prod.snd

/-- The inputs that are not marked. -/
def kept (ws : List (Bool × α)) : List α :=
  (ws.filter fun w => !w.1).map Prod.snd

/-- Of a list with one entry for each input, the entries of the inputs that are not marked. -/
def keptOf (ws : List (Bool × α)) (ys : List β) : List β :=
  ((ws.zip ys).filter fun p => !p.1.1).map Prod.snd

/-- A stream with nothing marked. -/
def plain (xs : List α) : List (Bool × α) :=
  xs.map fun x => (false, x)

@[simp] theorem length_whole (ws : List (Bool × α)) : (whole ws).length = ws.length :=
  List.length_map _

@[simp] theorem whole_append (ws us : List (Bool × α)) : whole (ws ++ us) = whole ws ++ whole us :=
  List.map_append

@[simp] theorem kept_append (ws us : List (Bool × α)) : kept (ws ++ us) = kept ws ++ kept us := by
  simp [kept]

@[simp] theorem whole_plain (xs : List α) : whole (plain xs) = xs := by
  simp [whole, plain, Function.comp_def]

@[simp] theorem kept_plain (xs : List α) : kept (plain xs) = xs := by
  simp [kept, plain, Function.comp_def, List.filter_map]

theorem whole_filter (ws : List (Bool × α)) (p : α → Bool) :
    (whole ws).filter p = whole (ws.filter fun w => p w.2) := by
  simp [whole, List.filter_map, Function.comp_def]

theorem kept_filter (ws : List (Bool × α)) (p : α → Bool) :
    (kept ws).filter p = kept (ws.filter fun w => p w.2) := by
  simp [kept, List.filter_map, Function.comp_def, Bool.and_comm]

theorem keptOf_append {ws us : List (Bool × α)} {ys zs : List β} (h : ys.length = ws.length) :
    keptOf (ws ++ us) (ys ++ zs) = keptOf ws ys ++ keptOf us zs := by
  simp [keptOf, List.zip_append h.symm]

theorem keptOf_plain {xs : List α} {ys : List β} (h : ys.length = xs.length) :
    keptOf (plain xs) ys = ys := by
  have hall : ∀ p ∈ (plain xs).zip ys, (!p.1.1) = true := by
    intro p hp
    obtain ⟨x, _, hx⟩ := List.mem_map.mp (List.of_mem_zip hp).1
    simp [← hx]
  rw [keptOf, List.filter_eq_self.mpr hall, List.map_snd_zip (by simp [plain, h])]

theorem keptOf_transduce_append (f : σ → α → σ × β) (s : σ) (ws us : List (Bool × α)) :
    keptOf (ws ++ us) (transduce f s (whole (ws ++ us))).2 =
      keptOf ws (transduce f s (whole ws)).2 ++
        keptOf us (transduce f (transduce f s (whole ws)).1 (whole us)).2 := by
  rw [whole_append, transduce_append]
  exact keptOf_append (by simp [length_transduce])

theorem keptOf_transduce_plain (f : σ → α → σ × β) (s : σ) (xs : List α) :
    keptOf (plain xs) (transduce f s (whole (plain xs))).2 = (transduce f s xs).2 := by
  rw [whole_plain]
  exact keptOf_plain (length_transduce f s xs)

/-- Marked inputs between two parts of a stream go unnoticed if the inputs around them are
answered alike and what is left answers the second part alike. -/
theorem transduce_between {f : σ → α → σ × β} {s : σ} {pre post : List α}
    {mid : List (Bool × α)}
    (hmid : keptOf mid (transduce f (transduce f s pre).1 (whole mid)).2 =
      (transduce f (transduce f s pre).1 (kept mid)).2)
    (hpost : transduce f (transduce f (transduce f s pre).1 (whole mid)).1 post =
      transduce f (transduce f (transduce f s pre).1 (kept mid)).1 post) :
    keptOf (plain pre ++ (mid ++ plain post))
        (transduce f s (whole (plain pre ++ (mid ++ plain post)))).2 =
      (transduce f s (kept (plain pre ++ (mid ++ plain post)))).2 ∧
    (transduce f s (whole (plain pre ++ (mid ++ plain post)))).1 =
      (transduce f s (kept (plain pre ++ (mid ++ plain post)))).1 := by
  constructor
  · rw [keptOf_transduce_append, keptOf_transduce_append, keptOf_transduce_plain,
      keptOf_transduce_plain, whole_plain, hmid, hpost]
    simp only [kept_append, kept_plain, transduce_append]
  · simp only [whole_append, kept_append, whole_plain, kept_plain, transduce_append, hpost]

theorem kept_subset (ws : List (Bool × α)) : kept ws ⊆ whole ws :=
  List.map_subset _ (List.filter_subset_self _)

end Marked

end OhlcvValidator
