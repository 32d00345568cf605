import Cruller.Lib.Utf16

/-!
# UTF-8

The decoder knows from the first byte of a character how many follow and between which bounds the
second one lies. A byte that cannot follow ends the character with an error and is looked at again
as a first one.
-/

namespace Cruller

namespace Utf8

/-- The beginning of a character: its bits so far, how many bytes are missing, and the bounds of
the next one. -/
structure Partial where
  code_point : ℕ
  left : ℕ
  lower : ℕ
  upper : ℕ
deriving DecidableEq

/-- What a first byte promises, and where the second may lie. -/
def lead (byte : UInt8) : Option Partial :=
  let b := byte.toNat
  if b < 0xC2 then none
  else if b < 0xE0 then some ⟨b % 32, 1, 0x80, 0xBF⟩
  else if b < 0xF0 then
    some ⟨b % 16, 2, if b = 0xE0 then 0xA0 else 0x80, if b = 0xED then 0x9F else 0xBF⟩
  else if b < 0xF5 then
    some ⟨b % 8, 3, if b = 0xF0 then 0x90 else 0x80, if b = 0xF4 then 0x8F else 0xBF⟩
  else none

/-- A byte at the beginning of a character. -/
def first (byte : UInt8) : Option Partial × List (Option ℕ) :=
  if byte.toNat < 0x80 then (none, [some byte.toNat])
  else
    match lead byte with
    | none => (none, [none])
    | some p => (some p, [])

namespace Partial

/-- The byte may come next. -/
def Follows (p : Partial) (byte : UInt8) : Prop :=
  p.lower ≤ byte.toNat ∧ byte.toNat ≤ p.upper

instance (p : Partial) (byte : UInt8) : Decidable (p.Follows byte) :=
  inferInstanceAs (Decidable (_ ∧ _))

/-- The character with one byte more. -/
def next (p : Partial) (byte : UInt8) : Partial :=
  ⟨p.code_point * 64 + byte.toNat % 64, p.left - 1, 0x80, 0xBF⟩

end Partial

/-- From bytes to characters, `none` for an error. -/
def decoder : Transducer (Option Partial) UInt8 (Option ℕ) where
  init := none
  step s byte :=
    match s with
    | none => first byte
    | some p =>
      if p.Follows byte then
        if (p.next byte).left = 0 then (none, [some (p.next byte).code_point])
        else (some (p.next byte), [])
      else ((first byte).1, none :: (first byte).2)
  finish s := if s = none then [] else [none]

@[simp] theorem finish_none : decoder.finish none = [] := rfl

@[simp] theorem finish_some (p : Partial) : decoder.finish (some p) = [none] := rfl

theorem first_snd_eq_nil {byte : UInt8} (h : (first byte).2 = []) : (first byte).1 ≠ none := by
  unfold first at h ⊢
  split_ifs at h ⊢
  rcases hld : lead byte with _ | p
  · simp [hld] at h
  · simp

theorem text_ne_nil {s : Option Partial} {xs : List UInt8} (h : s ≠ none ∨ xs ≠ []) :
    decoder.text s xs ≠ [] := by
  induction xs generalizing s with
  | nil =>
    obtain ⟨p, rfl⟩ := Option.ne_none_iff_exists'.1 (h.resolve_right (by simp))
    simp
  | cons byte xs ih =>
    rw [Transducer.text_cons]
    by_cases hout : (decoder.step s byte).2 = []
    · refine List.append_ne_nil_of_right_ne_nil _ (ih (Or.inl ?_))
      rcases s with _ | p
      · exact first_snd_eq_nil hout
      · simp only [decoder] at hout ⊢
        split_ifs at hout ⊢
        simp
    · exact List.append_ne_nil_of_left_ne_nil hout _

/-- The bytes of a character. -/
def encode (c : ℕ) : List UInt8 :=
  if c < 0x80 then [.ofNat c]
  else if c < 0x800 then [.ofNat (0xC0 + c / 64), .ofNat (0x80 + c % 64)]
  else if c < 0x10000 then
    [.ofNat (0xE0 + c / 4096), .ofNat (0x80 + c / 64 % 64), .ofNat (0x80 + c % 64)]
  else
    [.ofNat (0xF0 + c / 262144), .ofNat (0x80 + c / 4096 % 64), .ofNat (0x80 + c / 64 % 64),
      .ofNat (0x80 + c % 64)]

/-- The bytes of a text, an error standing for the replacement character. -/
def bytes (text : List (Option ℕ)) : List UInt8 :=
  text.flatMap fun item => encode (item.getD Utf16.replacement)

@[simp] theorem bytes_nil : bytes [] = [] := rfl

@[simp] theorem bytes_some (c : ℕ) (text : List (Option ℕ)) :
    bytes (some c :: text) = encode c ++ bytes text := rfl

@[simp] theorem bytes_none (text : List (Option ℕ)) :
    bytes (none :: text) = encode Utf16.replacement ++ bytes text := rfl

@[simp] theorem bytes_append (xs ys : List (Option ℕ)) : bytes (xs ++ ys) = bytes xs ++ bytes ys :=
  List.flatMap_append

end Utf8

end Cruller
