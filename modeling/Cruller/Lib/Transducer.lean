import Mathlib.Tactic

/-!
# Transducers

A transducer reads a list item by item and emits items as it goes, and some more at the end. What
it emits over a list that is cut in two is what it emits over the first part and then, from the
state it has reached, over the second (`out_append`, `text_append`).
-/

namespace Cruller

/-- A machine that reads letters and writes words, the last one at the end. -/
structure Transducer (σ α β : Type*) where
  init : σ
  step : σ → α → σ × List β
  finish : σ → List β

namespace Transducer

variable {σ α β : Type*} (T : Transducer σ α β)

/-- The state behind `xs`. -/
def after (s : σ) (xs : List α) : σ := xs.foldl (fun s x => (T.step s x).1) s

/-- What is written while `xs` is read. -/
def out : σ → List α → List β
  | _, [] => []
  | s, x :: xs => (T.step s x).2 ++ out (T.step s x).1 xs

/-- All that is emitted when `xs` are the last items. -/
def text (s : σ) (xs : List α) : List β := T.out s xs ++ T.finish (T.after s xs)

/-- What is emitted over `xs`, with the end behind it or without. -/
def emitted (flush : Bool) (s : σ) (xs : List α) : List β :=
  if flush then T.text s xs else T.out s xs

variable {T} {s : σ} {x : α} {xs ys : List α}

@[simp] theorem after_nil : T.after s [] = s := rfl

@[simp] theorem after_cons : T.after s (x :: xs) = T.after (T.step s x).1 xs := rfl

@[simp] theorem out_nil : T.out s [] = [] := rfl

@[simp] theorem out_cons : T.out s (x :: xs) = (T.step s x).2 ++ T.out (T.step s x).1 xs := rfl

@[simp] theorem text_nil : T.text s [] = T.finish s := rfl

@[simp] theorem text_cons : T.text s (x :: xs) = (T.step s x).2 ++ T.text (T.step s x).1 xs := by
  simp [text]

theorem after_append : T.after s (xs ++ ys) = T.after (T.after s xs) ys := List.foldl_append

theorem out_append : T.out s (xs ++ ys) = T.out s xs ++ T.out (T.after s xs) ys := by
  induction xs generalizing s with
  | nil => rfl
  | cons x xs ih => simp [ih]

theorem text_append : T.text s (xs ++ ys) = T.out s xs ++ T.text (T.after s xs) ys := by
  simp [text, out_append, after_append]

theorem emitted_append {flush : Bool} :
    T.emitted flush s (xs ++ ys) = T.out s xs ++ T.emitted flush (T.after s xs) ys := by
  rcases flush
  · exact out_append
  · exact text_append

end Transducer

end Cruller
