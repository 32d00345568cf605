import Cruller.Lib.Transducer

/-!
# UTF-16

A code point is one unit or a surrogate pair. The decoder puts two bytes together to a unit and a
lead surrogate and a trail surrogate to a code point; a surrogate that is alone is an error, and so
is what the end cuts off.
-/

namespace Cruller

/-- The character of a surrogate pair. -/
def pairCodePoint (lead trail : UInt16) : ℕ :=
  0x10000 + (lead.toNat - 0xD800) * 0x400 + (trail.toNat - 0xDC00)

namespace Utf16

/-- U+FFFD. -/
def replacement : ℕ := 0xFFFD

/-- The units of a character. -/
def encode (c : ℕ) : List UInt16 :=
  if c < 0x10000 then [.ofNat c]
  else [.ofNat (0xD800 + (c - 0x10000) / 0x400), .ofNat (0xDC00 + (c - 0x10000) % 0x400)]

/-- The units of decoded text, an error standing for the replacement character. -/
def units (text : List (Option ℕ)) : List UInt16 :=
  text.flatMap fun item => encode (item.getD replacement)

@[simp] theorem units_nil : units [] = [] := rfl

theorem units_cons (item : Option ℕ) (text : List (Option ℕ)) :
    units (item :: text) = encode (item.getD replacement) ++ units text := rfl

@[simp] theorem units_some (c : ℕ) (text : List (Option ℕ)) :
    units (some c :: text) = encode c ++ units text := by
  rw [units_cons, Option.getD_some]

@[simp] theorem units_none (text : List (Option ℕ)) :
    units (none :: text) = encode replacement ++ units text := by
  rw [units_cons, Option.getD_none]

@[simp] theorem units_append (xs ys : List (Option ℕ)) : units (xs ++ ys) = units xs ++ units ys :=
  List.flatMap_append

theorem units_ne_nil {text : List (Option ℕ)} (h : text ≠ []) : units text ≠ [] := by
  obtain ⟨item, text, rfl⟩ := List.exists_cons_of_ne_nil h
  rw [units_cons, encode]
  split_ifs <;> simp

def IsLead (unit : UInt16) : Prop := 0xD800 ≤ unit.toNat ∧ unit.toNat < 0xDC00

def IsTrail (unit : UInt16) : Prop := 0xDC00 ≤ unit.toNat ∧ unit.toNat < 0xE000

instance (unit : UInt16) : Decidable (IsLead unit) :=
  inferInstanceAs (Decidable (_ ∧ _))

instance (unit : UInt16) : Decidable (IsTrail unit) :=
  inferInstanceAs (Decidable (_ ∧ _))

theorem encode_unit (unit : UInt16) : encode unit.toNat = [unit] := by
  rw [encode, if_pos unit.toNat_lt, UInt16.ofNat_toNat]

theorem encode_pair {lead trail : UInt16} (hl : IsLead lead) (ht : IsTrail trail) :
    encode (pairCodePoint lead trail) = [lead, trail] := by
  obtain ⟨hl, hl'⟩ := hl
  obtain ⟨ht, ht'⟩ := ht
  have hld : 0xD800 + (pairCodePoint lead trail - 0x10000) / 0x400 = lead.toNat := by
    unfold pairCodePoint
    omega
  have htr : 0xDC00 + (pairCodePoint lead trail - 0x10000) % 0x400 = trail.toNat := by
    unfold pairCodePoint
    omega
  have hlr : ¬ pairCodePoint lead trail < 0x10000 := by
    unfold pairCodePoint
    omega
  rw [encode, if_neg hlr, hld, htr, UInt16.ofNat_toNat, UInt16.ofNat_toNat]

/-- The byte and the surrogate that wait for what comes after them. -/
structure State where
  lead_byte : Option UInt8
  lead_surrogate : Option UInt16
deriving DecidableEq

/-- A unit of two bytes, in the order of the encoding. -/
def unitOfBytes (big_endian : Bool) (first second : UInt8) : UInt16 :=
  if big_endian then .ofNat (first.toNat * 256 + second.toNat)
  else .ofNat (second.toNat * 256 + first.toNat)

/-- A unit with no lead surrogate before it. -/
def single (unit : UInt16) : State × List (Option ℕ) :=
  if IsLead unit then (⟨none, some unit⟩, [])
  else if IsTrail unit then (⟨none, none⟩, [none])
  else (⟨none, none⟩, [some unit.toNat])

/-- A unit behind a lead surrogate, or behind none. -/
def stepUnit (lead_surrogate : Option UInt16) (unit : UInt16) : State × List (Option ℕ) :=
  match lead_surrogate with
  | none => single unit
  | some lead =>
    if IsTrail unit then (⟨none, none⟩, [some (pairCodePoint lead unit)])
    else ((single unit).1, none :: (single unit).2)

/-- From bytes to characters, `none` for an error. -/
def decoder (big_endian : Bool) : Transducer State UInt8 (Option ℕ) where
  init := ⟨none, none⟩
  step s byte :=
    match s.lead_byte with
    | none => ({ s with lead_byte := some byte }, [])
    | some first => stepUnit s.lead_surrogate (unitOfBytes big_endian first byte)
  finish s := if s.lead_byte = none ∧ s.lead_surrogate = none then [] else [none]

/-- From units to characters, `none` for an error. -/
def unitDecoder : Transducer (Option UInt16) UInt16 (Option ℕ) where
  init := none
  step l unit := ((stepUnit l unit).1.lead_surrogate, (stepUnit l unit).2)
  finish l := if l = none then [] else [none]

end Utf16

end Cruller
