import Mathlib.Tactic

/-!
# What holds throughout a run

A step that may fail is run by `List.foldlM`. What every step keeps, or fails with, every run does
(`ends_foldlM_of_step`), and what every step that meets a condition keeps, a run of such steps does
(`ends_foldlM`). What some steps break and others mend holds at the end of a run in which every
break is followed by a mend (`ends_of_mended`).
-/

namespace Cruller

open List

universe u

variable {σ ι : Type*} {ε : Type*} {step : σ → ι → Except ε σ} {I P : σ → Prop} {E : ε → Prop}
  {C : σ → ι → Prop}

/-- A result that `I` holds of, or an error that is one of `E`. -/
def Ends (I : σ → Prop) (E : ε → Prop) : Except ε σ → Prop
  | .ok s => I s
  | .error e => E e

instance [DecidablePred I] [DecidablePred E] : DecidablePred (Ends I E : Except ε σ → Prop)
  | .ok s => inferInstanceAs (Decidable (I s))
  | .error e => inferInstanceAs (Decidable (E e))

/-- Every step that is reached meets `C`. -/
def Meets (step : σ → ι → Except ε σ) (C : σ → ι → Prop) : σ → List ι → Prop
  | _, [] => True
  | s, i :: is => C s i ∧
    match step s i with
    | .ok s' => Meets step C s' is
    | .error _ => True

instance Meets.decidable [∀ s, DecidablePred (C s)] :
    ∀ (s : σ) (is : List ι), Decidable (Meets step C s is)
  | _, [] => isTrue trivial
  | s, i :: is =>
    @instDecidableAnd _ _ _ <|
      match step s i with
      | .ok s' => Meets.decidable s' is
      | .error _ => isTrue trivial

theorem Ends.imp {J : σ → Prop} (hIJ : ∀ s, I s → J s) {r : Except ε σ} (h : Ends I E r) :
    Ends J E r := by
  cases r with
  | ok s => exact hIJ s h
  | error e => exact h

theorem Ends.bind {α β : Type u} {I : α → Prop} {J : β → Prop} {r : Except ε α}
    {f : α → Except ε β} (h : Ends I E r) (hf : ∀ a, I a → Ends J E (f a)) :
    Ends J E (r >>= f) := by
  cases r with
  | ok a => exact hf a h
  | error e => exact h

theorem Ends.map {α β : Type u} {I : α → Prop} {J : β → Prop} {r : Except ε α} {f : α → β}
    (h : Ends I E r) (hf : ∀ a, I a → J (f a)) : Ends J E (f <$> r) := by
  cases r with
  | ok a => exact hf a h
  | error e => exact h

variable {s : σ}

theorem ends_foldlM (hst : ∀ s i, I s → C s i → Ends I E (step s i)) {is : List ι}
    (hI : I s) (hC : Meets step C s is) : Ends I E (is.foldlM step s) := by
  induction is generalizing s with
  | nil => exact hI
  | cons i is ih =>
    obtain ⟨hi, hrs⟩ := hC
    have hnx := hst s i hI hi
    rw [foldlM_cons]
    cases hs : step s i with
    | error e =>
      rw [hs] at hnx
      exact hnx
    | ok s' =>
      rw [hs] at hnx hrs
      exact ih hnx hrs

/-- What each step keeps or ends with, a run keeps or ends with. -/
theorem ends_foldlM_of_step (hst : ∀ s i, I s → Ends I E (step s i)) (hI : I s)
    (is : List ι) : Ends I E (is.foldlM step s) := by
  induction is generalizing s with
  | nil => exact hI
  | cons i is ih =>
    rw [foldlM_cons]
    have hnx := hst s i hI
    cases hs : step s i with
    | error e =>
      rw [hs] at hnx
      exact hnx
    | ok s' =>
      rw [hs] at hnx
      exact ih hnx

/-- A run in which whatever breaks the invariant is followed by something that mends it. -/
def Mended (step : σ → ι → Except ε σ) (breaks : σ → ι → Prop) (mends : ι → Prop) :
    σ → List ι → Prop
  | _, [] => True
  | s, i :: is => (breaks s i → ∃ j ∈ is, mends j) ∧
    match step s i with
    | .ok s' => Mended step breaks mends s' is
    | .error _ => True

instance Mended.decidable {breaks : σ → ι → Prop} {mends : ι → Prop}
    [∀ s, DecidablePred (breaks s)] [DecidablePred mends] :
    ∀ (s : σ) (is : List ι), Decidable (Mended step breaks mends s is)
  | _, [] => isTrue trivial
  | s, i :: is =>
    @instDecidableAnd _ _ _ <|
      match step s i with
      | .ok s' => Mended.decidable s' is
      | .error _ => isTrue trivial

theorem ends_of_mended {breaks : σ → ι → Prop} {mends : ι → Prop}
    (hinv : ∀ s i, I s → Ends I E (step s i))
    (hkp : ∀ s i s', I s → P s → ¬ breaks s i → step s i = .ok s' → P s')
    (hmd : ∀ s i s', I s → mends i → step s i = .ok s' → P s') {is : List ι}
    (hI : I s) (hP : P s ∨ ∃ j ∈ is, mends j) (hm : Mended step breaks mends s is) :
    Ends (fun t => I t ∧ P t) E (is.foldlM step s) := by
  induction is generalizing s with
  | nil => exact ⟨hI, hP.resolve_right (by simp)⟩
  | cons i is ih =>
    obtain ⟨hi, hrs⟩ := hm
    have hnx := hinv s i hI
    rw [foldlM_cons]
    cases hs : step s i with
    | error e =>
      rw [hs] at hnx
      exact hnx
    | ok s' =>
      rw [hs] at hnx hrs
      refine ih hnx ?_ hrs
      by_cases hmn : mends i
      · exact Or.inl (hmd s i s' hI hmn hs)
      by_cases hbr : breaks s i
      · exact Or.inr (hi hbr)
      rcases hP with hP | ⟨j, hj, hj'⟩
      · exact Or.inl (hkp s i s' hI hP hbr hs)
      · rcases mem_cons.1 hj with rfl | hj
        · exact absurd hj' hmn
        · exact Or.inr ⟨j, hj, hj'⟩

end Cruller
