import Mathlib.Tactic

/-!
# Sending in pieces, on a budget

A list goes out in pieces; the piece that empties it is marked, and no other. `Pieces` relates the
list, the pieces and what is left, and what is left may go on later (`Pieces.append`). `Affords` says
that a budget, which every item reduces, admits each item of a list at its turn.
-/

namespace Cruller

open List

variable {α β φ : Type*}

/-- The list goes out in these pieces, each with its mark, but for what is left. -/
inductive Pieces : List α → List (List α × Bool) → List α → Prop
  | stop {l : List α} (h : l ≠ []) : Pieces l [] l
  | last (l : List α) : Pieces l [(l, true)] []
  | more (piece : List α) {rest left : List α} {ps : List (List α × Bool)}
      (h : Pieces rest ps left) : Pieces (piece ++ rest) ((piece, false) :: ps) left

namespace Pieces

variable {l left left' : List α} {ps qs : List (List α × Bool)}

/-- What was left goes on. -/
theorem append (h : Pieces l ps left) (hne : left ≠ []) (h' : Pieces left qs left') :
    Pieces l (ps ++ qs) left' := by
  induction h with
  | stop _ => exact h'
  | last l => exact absurd rfl hne
  | more piece _ ih => exact .more piece (ih hne h')

theorem flatMap_append (h : Pieces l ps left) : ps.flatMap Prod.fst ++ left = l := by
  induction h with
  | stop _ => rfl
  | last l => simp
  | more piece _ ih => rw [flatMap_cons, append_assoc, ih]

theorem drop_eq (h : Pieces l ps left) : l.drop (ps.map fun p => p.1.length).sum = left := by
  have hlen : (ps.map fun p => p.1.length).sum = (ps.flatMap Prod.fst).length := by
    rw [length_flatMap]
  conv_lhs => rw [← h.flatMap_append, hlen, drop_left]

theorem unmarked (h : Pieces l ps left) (hne : left ≠ []) : ∀ p ∈ ps, p.2 = false := by
  induction h with
  | stop _ => simp
  | last l => exact absurd rfl hne
  | more piece _ ih =>
    intro p hp
    rcases mem_cons.1 hp with rfl | hp
    · rfl
    · exact ih hne p hp

theorem marked (h : Pieces l ps []) :
    ∃ qs piece, ps = qs ++ [(piece, true)] ∧ ∀ q ∈ qs, q.2 = false := by
  generalize hnil : ([] : List α) = left at h
  induction h with
  | stop hne => exact absurd hnil.symm hne
  | last l => exact ⟨[], l, rfl, by simp⟩
  | more piece _ ih =>
    obtain ⟨qs, last, rfl, hqs⟩ := ih hnil
    exact ⟨(piece, false) :: qs, last, rfl, forall_mem_cons.2 ⟨rfl, hqs⟩⟩

end Pieces

variable (admits : β → φ → Prop) (spend : β → φ → β)

/-- Each item is admitted by what the ones before it leave of the budget. -/
def Affords : β → List φ → Prop
  | _, [] => True
  | b, f :: fs => admits b f ∧ Affords (spend b f) fs

variable {admits spend}

theorem affords_append {b : β} {fs gs : List φ} : Affords admits spend b (fs ++ gs) ↔
    Affords admits spend b fs ∧ Affords admits spend (fs.foldl spend b) gs := by
  induction fs generalizing b with
  | nil => simp [Affords]
  | cons f fs ih => simp [Affords, ih, and_assoc]

theorem affords_of_forall {b : β} {fs : List φ} (h : ∀ f ∈ fs, ∀ b, admits b f) :
    Affords admits spend b fs := by
  induction fs generalizing b with
  | nil => trivial
  | cons f fs ih =>
    exact ⟨h f mem_cons_self b, ih fun g hg => h g (mem_cons_of_mem _ hg)⟩

end Cruller
