import Mathlib.Tactic.Common

/-!
# Steps that may fail

What a chain of steps of `Except` returns, and with which error it ends, from what each of its
steps does.
-/

namespace Cruller.Checked

universe u

variable {ε : Type*} {α β : Type u} {x : Except ε α} {f : α → Except ε β} {a : α} {b : β}
  {e e' : ε} {c : Prop} [Decidable c]

theorem bind_eq_ok_iff : (x >>= f) = .ok b ↔ ∃ a, x = .ok a ∧ f a = .ok b := by
  cases x with
  | error e => exact ⟨nofun, fun ⟨_, h, _⟩ => nomatch h⟩
  | ok a => exact ⟨fun h => ⟨a, rfl, h⟩, fun ⟨_, ha, h⟩ => by cases ha; exact h⟩

theorem bind_eq_error_iff :
    (x >>= f) = .error e ↔ x = .error e ∨ ∃ a, x = .ok a ∧ f a = .error e := by
  cases x with
  | error e' =>
    constructor
    · intro h
      cases h
      exact .inl rfl
    · rintro (h | ⟨a, h, -⟩)
      · cases h
        rfl
      · cases h
  | ok a =>
    constructor
    · exact fun h => .inr ⟨a, rfl, h⟩
    · rintro (h | ⟨a', ha, h⟩)
      · cases h
      · cases ha
        exact h

theorem pure_eq_ok_iff {a' : α} : (pure a : Except ε α) = .ok a' ↔ a = a' :=
  ⟨fun h => Except.ok.inj h, fun h => congrArg _ h⟩

theorem map_eq_ok_iff {g : α → β} : g <$> x = .ok b ↔ ∃ a, x = .ok a ∧ g a = b := by
  cases x with
  | error e => exact ⟨nofun, fun ⟨_, h, _⟩ => nomatch h⟩
  | ok a =>
    constructor
    · simp
    · rintro ⟨_, ha, rfl⟩
      cases ha
      rfl

theorem map_eq_error_iff {g : α → β} : g <$> x = .error e ↔ x = .error e := by
  cases x with
  | error e' => exact ⟨fun h => by cases h; rfl, fun h => by cases h; rfl⟩
  | ok a => exact ⟨nofun, nofun⟩

theorem ite_throw_eq_ok_iff : (if c then throw e else x) = .ok a ↔ ¬ c ∧ x = .ok a := by
  split_ifs with h
  · exact ⟨nofun, fun h' => absurd h h'.1⟩
  · exact ⟨fun hx => ⟨h, hx⟩, fun hx => hx.2⟩

theorem ite_throw_eq_error_iff :
    (if c then throw e else x) = .error e' ↔ c ∧ e = e' ∨ ¬ c ∧ x = .error e' := by
  split_ifs with h
  · exact ⟨fun he => .inl ⟨h, by cases he; rfl⟩, by
      rintro (⟨-, rfl⟩ | ⟨h', -⟩)
      · rfl
      · exact absurd h h'⟩
  · exact ⟨fun hx => .inr ⟨h, hx⟩, by
      rintro (⟨h', -⟩ | ⟨-, hx⟩)
      · exact absurd h' h
      · exact hx⟩

end Cruller.Checked
