import Mathlib.Tactic

/-!
# Computations that fail or get stuck

`Fallible ε` is a computation that gives a result, fails with an error, or gets stuck, as code does
at a read out of bounds. `drain` is a loop that reads a list to its end; where every round shortens
the list, its length is enough rounds (`drain_congr`), and the loop unfolds round by round
(`drainAll_round`).
-/

namespace Cruller

open List

/-- `none` is being stuck. -/
abbrev Fallible (ε : Type) := ExceptT ε Option

namespace Fallible

variable {ε α β σ : Type}

section

variable {x : Fallible ε α} {f : α → Fallible ε β} {a : α} {b : β}

theorem run_bind : (x >>= f).run =
    match x.run with
    | none => none
    | some (.error e) => some (.error e)
    | some (.ok a) => (f a).run := by
  change Option.bind x.run _ = _
  rcases x.run with _ | _ | _ <;> rfl

theorem bind_eq_ok : (x >>= f).run = some (.ok b) ↔
    ∃ a, x.run = some (.ok a) ∧ (f a).run = some (.ok b) := by
  rw [run_bind]
  rcases x.run with _ | _ | a <;> simp

theorem bind_of_ok (h : x.run = some (.ok a)) : (x >>= f).run = (f a).run := by
  rw [run_bind, h]

theorem bind_congr {g : α → Fallible ε β} (h : ∀ a, x.run = some (.ok a) → f a = g a) :
    x >>= f = x >>= g := by
  apply ExceptT.ext
  rw [run_bind, run_bind]
  rcases hx : x.run with _ | _ | a
  · rfl
  · rfl
  · exact congrArg ExceptT.run (h a hx)

theorem isSome_bind : (x >>= f).run.isSome ↔
    x.run.isSome ∧ ∀ a, x.run = some (.ok a) → (f a).run.isSome := by
  rw [run_bind]
  rcases x.run with _ | _ | a <;> simp

theorem isSome_bind_pure {g : α → β} :
    (x >>= fun a => pure (g a)).run.isSome ↔ x.run.isSome := by
  rw [isSome_bind]
  exact and_iff_left fun _ _ => rfl

theorem bind_pure_error {g : α → β} {e : ε}
    (h : (x >>= fun a => pure (g a)).run = some (.error e)) : x.run = some (.error e) := by
  rw [run_bind] at h
  rcases hx : x.run with _ | e' | a <;> rw [hx] at h <;> simp_all

variable (o : Option α)

@[simp] theorem run_lift : (ExceptT.lift o : Fallible ε α).run = o.map .ok := by
  rcases o with _ | a <;> rfl

@[simp] theorem run_liftM : (liftM o : Fallible ε α).run = o.map .ok := run_lift o

theorem run_liftM_bind :
    ((liftM o : Fallible ε α) >>= f).run = o.bind fun a => (f a).run := by
  rw [run_bind, run_liftM]
  rcases o with _ | a <;> rfl

@[simp] theorem run_pure (a : α) : (pure a : Fallible ε α).run = some (.ok a) := rfl

end

section

variable (rest : σ → List β) (body : σ → Fallible ε σ)

/-- While there is something left, a round; stuck where the rounds do not suffice. -/
def drain : ℕ → σ → Fallible ε σ
  | 0, s => if (rest s).isEmpty then pure s else ExceptT.lift none
  | n + 1, s =>
    if (rest s).isEmpty then pure s
    else do
      let s ← body s
      drain n s

/-- The loop, with as much fuel as there is left to do. -/
def drainAll (s : σ) : Fallible ε σ := drain rest body (rest s).length s

/-- Each turn of the loop leaves less to do. -/
def Shortens : Prop :=
  ∀ s s', rest s ≠ [] → (body s).run = some (.ok s') → (rest s').length < (rest s).length

variable {rest body} {s : σ} {n m : ℕ}

theorem drain_nil (h : rest s = []) : drain rest body n s = pure s := by
  rcases n with _ | n <;> simp [drain, h]

theorem drain_succ (h : rest s ≠ []) :
    drain rest body (n + 1) s = body s >>= drain rest body n := by
  rw [drain, if_neg (by simpa using h)]

/-- The rounds are enough. -/
theorem drain_congr (hsh : Shortens rest body) (hn : (rest s).length ≤ n)
    (hm : (rest s).length ≤ m) : drain rest body n s = drain rest body m s := by
  induction n generalizing m s with
  | zero =>
    have hnil : rest s = [] := length_eq_zero_iff.1 (Nat.le_zero.1 hn)
    rw [drain_nil hnil, drain_nil hnil]
  | succ n ih =>
    by_cases hnil : rest s = []
    · rw [drain_nil hnil, drain_nil hnil]
    · have hpos := length_pos_iff.2 hnil
      obtain ⟨m, rfl⟩ : ∃ k, m = k + 1 := ⟨m - 1, by omega⟩
      rw [drain_succ hnil, drain_succ hnil]
      refine bind_congr fun s1 h1 => ?_
      have := hsh s s1 hnil h1
      exact ih (by omega) (by omega)

theorem drainAll_nil (h : rest s = []) : drainAll rest body s = pure s := drain_nil h

theorem drainAll_round (hsh : Shortens rest body) (h : rest s ≠ []) :
    drainAll rest body s = body s >>= drainAll rest body := by
  have hpos := length_pos_iff.2 h
  obtain ⟨n, hn⟩ : ∃ k, (rest s).length = k + 1 := ⟨(rest s).length - 1, by omega⟩
  rw [drainAll, hn, drain_succ h]
  refine bind_congr fun s1 h1 => ?_
  have := hsh s s1 h h1
  exact drain_congr hsh (by omega) le_rfl

end

end Fallible

end Cruller
