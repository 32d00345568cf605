import Cruller.Text.Streams

/-!
# Marks in a text

The bytes of a byte order mark, where a decoder of an encoding meets them. Between two characters
they give the mark; behind the beginning of a character they end it with an error first. Removing
them makes the text shorter (`length_textAfter_bom`), but in UTF-16BE, where they are all there is
left and the byte before them and theirs are a surrogate that the end cuts off (`LostAt`).
-/

namespace Cruller.Text

open List Transducer

def mark : UInt16 := 0xFEFF

theorem encode_mark : Utf16.encode 0xFEFF = [mark] := rfl

theorem head_units_none {text : List (Option ℕ)} :
    (Utf16.units (none :: text)).head? ≠ some mark := by
  have hne : UInt16.ofNat unicode_replacement ≠ mark := by decide
  rw [Utf16.units_none, TextDecoder.encode_replacement]
  simpa using hne

theorem head_units_some {c : ℕ} {text : List (Option ℕ)} (hc : c < 0x110000)
    (h : (Utf16.units (some c :: text)).head? = some mark) : c = 0xFEFF := by
  have hmr : mark.toNat = 0xFEFF := rfl
  rw [Utf16.units_some, Utf16.encode] at h
  split_ifs at h with hlt
  · simp only [singleton_append, head?_cons, Option.some.injEq] at h
    rw [← h, UInt16.toNat_ofNat'] at hmr
    omega
  · simp only [cons_append, head?_cons, Option.some.injEq] at h
    rw [← h, UInt16.toNat_ofNat'] at hmr
    omega

theorem length_encode_le (c : ℕ) : (Utf16.encode c).length ≤ 2 := by
  rw [Utf16.encode]
  split_ifs <;> simp

theorem length_encode_replacement : (Utf16.encode Utf16.replacement).length = 1 := rfl

section

open Utf8

/-- A byte that follows in a character is a continuation byte. -/
def Bounded (p : Partial) : Prop := 0x80 ≤ p.lower ∧ p.upper ≤ 0xBF

variable {b : UInt8} {p : Partial}

theorem bounded_lead (h : lead b = some p) : Bounded p := by
  simp only [lead] at h
  split_ifs at h <;> cases h <;> simp [Bounded]

theorem bounded_first (h : (first b).1 = some p) : Bounded p := by
  rw [first] at h
  split_ifs at h
  split at h
  · cases h
  · rename_i hl
    cases h
    exact bounded_lead hl

theorem bounded_step {s : Option Partial}
    (h : (decoder.step s b).1 = some p) : Bounded p := by
  rcases s with _ | q
  · exact bounded_first h
  · rw [step_some] at h
    split_ifs at h
    · cases h
      exact ⟨Nat.le_refl _, Nat.le_refl _⟩
    · exact bounded_first h

theorem bounded_after {bytes : List UInt8} (h : decoder.after none bytes = some p) :
    Bounded p := by
  induction bytes using List.reverseRecOn with
  | nil => cases h
  | append_singleton bytes b _ =>
    rw [after_append] at h
    exact bounded_step h

theorem step_continuation (hp : Bounded p) (hb : p.Follows b) :
    decoder.step none b = (none, [none]) := by
  have h1 := hp.1
  have h2 := hp.2
  obtain ⟨hlow, hup⟩ := hb
  have hl : lead b = none := by
    simp only [lead]
    rw [if_pos (by omega)]
  change first b = _
  rw [first, if_neg (by omega), hl]

theorem length_text_some_le (hp : Bounded p) (bytes : List UInt8) :
    (Utf16.units (decoder.text (some p) bytes)).length ≤
      1 + (Utf16.units (decoder.text none bytes)).length := by
  induction bytes generalizing p with
  | nil => simp [length_encode_replacement]
  | cons b bytes ih =>
    rw [text_cons, step_some]
    split_ifs with hb hls
    · have := length_encode_le (p.next b).code_point
      rw [text_cons, step_continuation hp hb]
      simp [length_encode_replacement]
      omega
    · have hrs := @ih (p.next b) ⟨Nat.le_refl _, Nat.le_refl _⟩
      rw [text_cons, step_continuation hp hb]
      simp [length_encode_replacement]
      omega
    · simp [length_encode_replacement]

theorem text_some_bom (hp : Bounded p) (bytes : List UInt8) :
    decoder.text (some p) ([0xEF, 0xBB, 0xBF] ++ bytes) =
      none :: some 0xFEFF :: decoder.text none bytes := by
  have hnot : ¬ p.Follows 0xEF := fun h => by
    have h1 := hp.2
    have h2 := h.2
    simp at h2
    omega
  rw [cons_append, text_cons, step_some, if_neg hnot]
  rfl

theorem head_text_some {bytes : List UInt8}
    (h : (Utf16.units (decoder.text (some p) bytes)).head? = some mark) :
    ∃ b bs, bytes = b :: bs ∧ p.Follows b ∧
      if (p.next b).left = 0 then
        (Utf16.units (some (p.next b).code_point :: decoder.text none bs)).head? = some mark
      else (Utf16.units (decoder.text (some (p.next b)) bs)).head? = some mark := by
  rcases bytes with _ | ⟨b, bs⟩
  · exact absurd h head_units_none
  · rw [text_cons, step_some] at h
    split_ifs at h with hb hls
    · exact ⟨b, bs, rfl, hb, by rwa [if_pos hls]⟩
    · exact ⟨b, bs, rfl, hb, by rwa [if_neg hls]⟩
    · exact absurd h head_units_none

/-- Text that begins with a mark begins with the bytes of one. -/
theorem bom_of_head {bytes : List UInt8}
    (h : (Utf16.units (decoder.text none bytes)).head? = some mark) :
    [0xEF, 0xBB, 0xBF] <+: bytes := by
  rcases bytes with _ | ⟨b, bs⟩
  · cases h
  have hb := b.toNat_lt
  have hst : decoder.step none b = first b := rfl
  rw [text_cons, hst, first] at h
  split_ifs at h with hac
  · have := head_units_some (by omega) h
    omega
  rcases hl : lead b with _ | p
  · rw [hl] at h
    exact absurd h head_units_none
  rw [hl] at h
  have hp := bounded_lead hl
  have hwd : (p.left = 1 ∧ p.code_point < 32)
      ∨ (p.left = 2 ∧ p.code_point = b.toNat % 16 ∧ 0xE0 ≤ b.toNat ∧ b.toNat < 0xF0)
      ∨ (p.left = 3 ∧ p.code_point = b.toNat % 8 ∧ 0xF0 ≤ b.toNat ∧ b.toNat < 0xF5
        ∧ (b.toNat = 0xF0 → p.lower = 0x90) ∧ (b.toNat = 0xF4 → p.upper = 0x8F)) := by
    simp only [lead] at hl
    split_ifs at hl <;> cases hl <;> simp <;> omega
  obtain ⟨hlw, hup⟩ := hp
  obtain ⟨b1, bs, rfl, ⟨hlow1, hup1⟩, h⟩ := head_text_some h
  have hlf1 : (p.next b1).left = p.left - 1 := rfl
  have hcd1 : (p.next b1).code_point = p.code_point * 64 + b1.toNat % 64 := rfl
  rcases hwd with ⟨hlf, hcd⟩ | ⟨hlf, hcd, hld⟩ | ⟨hlf, hcd, hld⟩
  · rw [if_pos (by omega)] at h
    have := head_units_some (by omega) h
    omega
  · rw [if_neg (by omega)] at h
    obtain ⟨b2, bs, rfl, ⟨hlow2, hup2⟩, h⟩ := head_text_some h
    have hlf2 : ((p.next b1).next b2).left = (p.next b1).left - 1 := rfl
    have hcd2 : ((p.next b1).next b2).code_point =
      (p.next b1).code_point * 64 + b2.toNat % 64 := rfl
    have hb2 := b2.toNat_lt
    rw [if_pos (by omega)] at h
    have hc := head_units_some (by omega) h
    have hbs : 0x80 ≤ b2.toNat ∧ b2.toNat ≤ 0xBF := ⟨hlow2, hup2⟩
    have h0 : b = 0xEF := UInt8.toNat_inj.1 (by simp; omega)
    have h1 : b1 = 0xBB := UInt8.toNat_inj.1 (by simp; omega)
    have h2 : b2 = 0xBF := UInt8.toNat_inj.1 (by simp; omega)
    rw [h0, h1, h2]
    exact ⟨bs, rfl⟩
  · rw [if_neg (by omega)] at h
    obtain ⟨b2, bs, rfl, -, h⟩ := head_text_some h
    have hlf2 : ((p.next b1).next b2).left = (p.next b1).left - 1 := rfl
    have hcd2 : ((p.next b1).next b2).code_point =
      (p.next b1).code_point * 64 + b2.toNat % 64 := rfl
    rw [if_neg (by omega)] at h
    obtain ⟨b3, bs, rfl, -, h⟩ := head_text_some h
    have hlf3 : (((p.next b1).next b2).next b3).left = ((p.next b1).next b2).left - 1 := rfl
    have hcd3 : (((p.next b1).next b2).next b3).code_point =
      ((p.next b1).next b2).code_point * 64 + b3.toNat % 64 := rfl
    rw [if_pos (by omega)] at h
    have hc := head_units_some (by omega) h
    omega

theorem step_utf8_ne (s : Option Partial) (b : UInt8) :
    (decoder.step s b).2 ≠ [] ∨ (decoder.step s b).1 ≠ none := by
  have hfr : (first b).2 ≠ [] ∨ (first b).1 ≠ none := by
    rw [first]
    split_ifs
    · simp
    · split <;> simp
  rcases s with _ | p
  · exact hfr
  · rw [step_some]
    split_ifs <;> simp

end

section

open Utf16 TextDecoder

variable {big_endian : Bool}

theorem paired_after (bytes : List UInt8) :
    Paired ((decoder big_endian).after ⟨none, none⟩ bytes) :=
  (@decodeBytes_eq {} ⟨none, none⟩ big_endian bytes (by rintro l ⟨⟩)).2

theorem step_utf16_ne (s : State) (b : UInt8) :
    ((decoder big_endian).step s b).2 ≠ [] ∨ ((decoder big_endian).step s b).1 ≠ ⟨none, none⟩ := by
  obtain ⟨_ | a, l⟩ := s
  · exact Or.inr (by simp [decoder])
  · change (stepUnit l (unitOfBytes big_endian a b)).2 ≠ [] ∨
      (stepUnit l (unitOfBytes big_endian a b)).1 ≠ ⟨none, none⟩
    rcases l with _ | l
    · rw [stepUnit, single]
      split_ifs <;> simp
    · rw [stepUnit]
      split_ifs <;> simp

theorem text_lead (l : Option UInt16) (a b : UInt8) (bytes : List UInt8) :
    (decoder big_endian).text ⟨some a, l⟩ (b :: bytes) =
      (stepUnit l (unitOfBytes big_endian a b)).2 ++
        (decoder big_endian).text (stepUnit l (unitOfBytes big_endian a b)).1 bytes := text_cons

theorem length_encode_pair (l u : UInt16) : (encode (pairCodePoint l u)).length = 2 := by
  have hlr : ¬ pairCodePoint l u < 0x10000 := by
    unfold pairCodePoint
    omega
  rw [encode, if_neg hlr]
  rfl

theorem length_text_surrogate (lead_byte : Option UInt8) (l : UInt16) (bytes : List UInt8) :
    (units ((decoder big_endian).text ⟨lead_byte, some l⟩ bytes)).length ≤
      1 + (units ((decoder big_endian).text ⟨lead_byte, none⟩ bytes)).length := by
  have hld : ∀ a bytes, (units ((decoder big_endian).text ⟨some a, some l⟩ bytes)).length ≤
      1 + (units ((decoder big_endian).text ⟨some a, none⟩ bytes)).length := by
    intro a bytes
    rcases bytes with _ | ⟨b, bytes⟩
    · simp [decoder, length_encode_replacement]
    · rw [text_lead, text_lead, stepUnit, stepUnit]
      split_ifs with htr
      · have hnot : ¬ IsLead (unitOfBytes big_endian a b) := fun h => by
          have := h.2
          have := htr.1
          omega
        simp [single, hnot, htr, length_encode_pair, length_encode_replacement]
        omega
      · simp [length_encode_replacement]
  rcases lead_byte with _ | a
  · rcases bytes with _ | ⟨a, bytes⟩
    · simp [decoder, length_encode_replacement]
    · exact hld a bytes
  · exact hld a bytes

theorem length_text_surrogate_eq (lead_byte : Option UInt8) (l l' : UInt16) (bytes : List UInt8) :
    (units ((decoder big_endian).text ⟨lead_byte, some l⟩ bytes)).length =
      (units ((decoder big_endian).text ⟨lead_byte, some l'⟩ bytes)).length := by
  have hld : ∀ a bytes, (units ((decoder big_endian).text ⟨some a, some l⟩ bytes)).length =
      (units ((decoder big_endian).text ⟨some a, some l'⟩ bytes)).length := by
    intro a bytes
    rcases bytes with _ | ⟨b, bytes⟩
    · simp [decoder]
    · rw [text_lead, text_lead, stepUnit, stepUnit]
      split_ifs
      · simp [length_encode_pair]
      · rfl
  rcases lead_byte with _ | a
  · rcases bytes with _ | ⟨a, bytes⟩
    · simp [decoder]
    · exact hld a bytes
  · exact hld a bytes

theorem toNat_unitOfBytes (a b : UInt8) : (unitOfBytes big_endian a b).toNat =
    if big_endian then a.toNat * 256 + b.toNat else b.toNat * 256 + a.toNat := by
  have ha := a.toNat_lt
  have hb := b.toNat_lt
  rw [unitOfBytes]
  split_ifs
  · rw [UInt16.toNat_ofNat']
    omega
  · rw [UInt16.toNat_ofNat']
    omega

theorem length_stepUnit {l : Option UInt16} {u : UInt16} (hu : ¬ IsLead u) :
    (stepUnit l u).1 = ⟨none, none⟩
      ∧ (units (stepUnit l u).2).length = 1 + if l = none then 0 else 1 := by
  have hsn : (single u).1 = ⟨none, none⟩ ∧ (units (single u).2).length = 1 := by
    rw [single, if_neg hu]
    split_ifs
    · simp [length_encode_replacement]
    · simp [encode_unit]
  rcases l with _ | l
  · exact hsn
  · by_cases htr : IsTrail u
    · simp [stepUnit, htr, length_encode_pair]
    · simp [stepUnit, htr, hsn.1, hsn.2, length_encode_replacement]

theorem stepUnit_lead {l : Option UInt16} {u : UInt16} (hu : IsLead u) :
    stepUnit l u = (⟨none, some u⟩, if l = none then [] else [none]) := by
  have hnot : ¬ IsTrail u := fun h => by
    have := h.1
    have := hu.2
    omega
  rcases l with _ | l
  · simp [stepUnit, single, hu]
  · simp [stepUnit, single, hu, hnot]

theorem length_text_low (a a' : UInt8) (bytes : List UInt8) :
    (units ((decoder false).text ⟨some a, none⟩ bytes)).length ≤
      (units ((decoder false).text ⟨some a', none⟩ bytes)).length := by
  have ha := a.toNat_lt
  have ha' := a'.toNat_lt
  rcases bytes with _ | ⟨b, bytes⟩
  · simp [decoder]
  · have hu := @toNat_unitOfBytes false a b
    have hu' := @toNat_unitOfBytes false a' b
    simp only [Bool.false_eq_true, if_false] at hu hu'
    rw [text_lead, text_lead]
    by_cases hld : IsLead (unitOfBytes false a b)
    · have hld' : IsLead (unitOfBytes false a' b) := by
        obtain ⟨h1, h2⟩ := hld
        exact ⟨by omega, by omega⟩
      rw [stepUnit_lead hld, stepUnit_lead hld']
      exact (length_text_surrogate_eq none _ _ bytes).le
    · have hld' : ¬ IsLead (unitOfBytes false a' b) := fun h => by
        obtain ⟨h1, h2⟩ := h
        exact hld ⟨by omega, by omega⟩
      have h1 := @length_stepUnit none _ hld
      have h2 := @length_stepUnit none _ hld'
      rw [units_append, units_append, length_append, length_append, h1.1, h1.2, h2.1,
        h2.2]

def bom16 (big_endian : Bool) : List UInt8 := if big_endian then [0xFE, 0xFF] else [0xFF, 0xFE]

theorem text_bom16 (l : Option UInt16) (bytes : List UInt8) :
    (decoder big_endian).text ⟨none, l⟩ (bom16 big_endian ++ bytes) =
      (if l = none then [] else [none])
        ++ some 0xFEFF :: (decoder big_endian).text ⟨none, none⟩ bytes := by
  rcases l with _ | l <;> rcases big_endian <;> rfl

theorem length_text_bom_le (s : State) (bytes : List UInt8) :
    (units ((decoder false).text s bytes)).length + 1 ≤
      (units ((decoder false).text s (bom16 false ++ bytes))).length := by
  obtain ⟨_ | a, l⟩ := s
  · have hsur := @length_text_surrogate false none
    rw [text_bom16]
    rcases l with _ | l
    · simp [encode_mark]
    · have := hsur l bytes
      simp [encode_mark, length_encode_replacement]
      omega
  · have ha := a.toNat_lt
    have hu := @toNat_unitOfBytes false a 0xFF
    simp at hu
    have hnot : ¬ IsLead (unitOfBytes false a 0xFF) := fun h => by
      have := h.2
      omega
    obtain ⟨hst, hlen⟩ := @length_stepUnit l _ hnot
    change _ ≤ (units ((decoder false).text ⟨some a, l⟩ (0xFF :: 0xFE :: bytes))).length
    rw [text_lead, hst, units_append, length_append, hlen]
    change _ ≤ _ + (units ((decoder false).text ⟨some 0xFE, none⟩ bytes)).length
    have hlow := length_text_low a 0xFE bytes
    rcases l with _ | l
    · simp
      omega
    · have := @length_text_surrogate false (some a) l bytes
      simp
      omega

/-- A mark that is all there is left, behind a byte with which it is a lead surrogate. -/
def Lost (s : State) (bytes : List UInt8) : Prop :=
  bytes = [] ∧ s.lead_surrogate = none
    ∧ ∃ a, s.lead_byte = some a ∧ IsLead (unitOfBytes true a 0xFE)

/-- In big endian it does so unless the end takes the mark with the byte before it. -/
theorem length_text_bom_be {s : State} {bytes : List UInt8} (h : ¬ Lost s bytes) :
    (units ((decoder true).text s bytes)).length + 1 ≤
      (units ((decoder true).text s (bom16 true ++ bytes))).length := by
  obtain ⟨_ | a, l⟩ := s
  · have hsur := @length_text_surrogate true none
    rw [text_bom16]
    rcases l with _ | l
    · simp [encode_mark]
    · have := hsur l bytes
      simp [encode_mark, length_encode_replacement]
      omega
  · have ha := a.toNat_lt
    have hsur : (units ((decoder true).text ⟨some a, l⟩ bytes)).length ≤ (if l = none then 0 else 1)
        + (units ((decoder true).text ⟨some a, none⟩ bytes)).length := by
      rcases l with _ | l
      · simp
      · exact length_text_surrogate _ l bytes
    change _ ≤ (units ((decoder true).text ⟨some a, l⟩ (0xFE :: 0xFF :: bytes))).length
    have hu := @toNat_unitOfBytes true a 0xFE
    simp at hu
    by_cases hld : IsLead (unitOfBytes true a 0xFE)
    · rw [text_lead, stepUnit_lead hld]
      change _ ≤ (units ((if l = none then [] else [none]) ++ (decoder true).text
        ⟨some 0xFF, some (unitOfBytes true a 0xFE)⟩ bytes)).length
      rcases bytes with _ | ⟨b, bytes⟩
      · rcases l with _ | l
        · exact absurd ⟨rfl, rfl, a, rfl, hld⟩ h
        · simp [decoder, length_encode_replacement]
      · have hb := b.toNat_lt
        have hv := @toNat_unitOfBytes true a b
        have hw := @toNat_unitOfBytes true 0xFF b
        simp at hv hw
        obtain ⟨h1, h2⟩ := hld
        have hld' : IsLead (unitOfBytes true a b) := ⟨by omega, by omega⟩
        have hnot : ¬ IsLead (unitOfBytes true 0xFF b) := fun h => by
          have := h.2
          omega
        have hnt : ¬ IsTrail (unitOfBytes true 0xFF b) := fun h => by
          have := h.2
          omega
        have hln := @length_text_surrogate true none (unitOfBytes true a b) bytes
        have hst : stepUnit none (unitOfBytes true a b) =
            (⟨none, some (unitOfBytes true a b)⟩, []) := stepUnit_lead hld'
        rw [text_lead none a, hst, nil_append] at hsur
        rw [text_lead (some _) 0xFF b, stepUnit, if_neg hnt, single, if_neg hnot,
          if_neg hnt]
        rcases l with _ | l <;> simp [length_encode_replacement, encode_unit] at hsur ⊢ <;> omega
    · obtain ⟨hsa, hlen⟩ := @length_stepUnit l _ hld
      rw [text_lead, hsa, units_append, length_append, hlen]
      change _ ≤ _ + (units ((decoder true).text ⟨some 0xFF, none⟩ bytes)).length
      have hhg : (units ((decoder true).text ⟨some a, none⟩ bytes)).length ≤
          (units ((decoder true).text ⟨some 0xFF, none⟩ bytes)).length := by
        rcases bytes with _ | ⟨b, bytes⟩
        · simp [decoder]
        · have hb := b.toNat_lt
          have hv := @toNat_unitOfBytes true a b
          have hw := @toNat_unitOfBytes true 0xFF b
          simp at hv hw
          have hnot : ¬ IsLead (unitOfBytes true a b) := fun h => by
            obtain ⟨h1, h2⟩ := h
            exact hld ⟨by omega, by omega⟩
          have hnot' : ¬ IsLead (unitOfBytes true 0xFF b) := fun h => by
            have := h.2
            omega
          have h1 := @length_stepUnit none _ hnot
          have h2 := @length_stepUnit none _ hnot'
          rw [text_lead, text_lead, units_append, units_append, length_append,
            length_append, h1.1, h1.2, h2.1, h2.2]
      rcases l with _ | l <;> simp at hsur ⊢ <;> omega

theorem head_pair {l u : UInt16} {text : List (Option ℕ)} (hl : IsLead l) (hu : IsTrail u) :
    (units (some (pairCodePoint l u) :: text)).head? ≠ some mark := by
  intro h
  obtain ⟨h1, h2⟩ := hl
  obtain ⟨h3, h4⟩ := hu
  have hc := head_units_some (by unfold pairCodePoint; omega) h
  unfold pairCodePoint at hc
  omega

theorem head_surrogate {l : UInt16} (hl : IsLead l) (lead_byte : Option UInt8)
    (bytes : List UInt8) :
    (units ((decoder big_endian).text ⟨lead_byte, some l⟩ bytes)).head? ≠ some mark := by
  have hld : ∀ a bytes,
      (units ((decoder big_endian).text ⟨some a, some l⟩ bytes)).head? ≠ some mark := by
    intro a bytes
    rcases bytes with _ | ⟨b, bytes⟩
    · exact head_units_none
    · rw [text_lead, stepUnit]
      split_ifs with htr
      · exact head_pair hl htr
      · exact head_units_none
  rcases lead_byte with _ | a
  · rcases bytes with _ | ⟨a, bytes⟩
    · exact head_units_none
    · exact hld a bytes
  · exact hld a bytes

theorem head_unit {a b : UInt8} {bytes : List UInt8}
    (h : (units ((decoder big_endian).text ⟨some a, none⟩ (b :: bytes))).head? = some mark) :
    (unitOfBytes big_endian a b).toNat = 0xFEFF := by
  have hlt := (unitOfBytes big_endian a b).toNat_lt
  rw [text_lead, stepUnit, single] at h
  split_ifs at h with hld htr
  · exact absurd h (head_surrogate hld none bytes)
  · exact absurd h head_units_none
  · exact head_units_some (by omega) h

theorem bom16_of_head {bytes : List UInt8}
    (h : (units ((decoder big_endian).text ⟨none, none⟩ bytes)).head? = some mark) :
    bom16 big_endian <+: bytes := by
  rcases bytes with _ | ⟨a, _ | ⟨b, bytes⟩⟩
  · cases h
  · exact absurd h head_units_none
  · have hu := @head_unit big_endian a b bytes h
    have ha := a.toNat_lt
    have hb := b.toNat_lt
    rw [toNat_unitOfBytes] at hu
    rcases big_endian
    · simp only [Bool.false_eq_true, if_false] at hu
      have h1 : a = 0xFF := UInt8.toNat_inj.1 (by simp; omega)
      have h2 : b = 0xFE := UInt8.toNat_inj.1 (by simp; omega)
      rw [h1, h2]
      exact ⟨bytes, rfl⟩
    · simp only [if_true] at hu
      have h1 : a = 0xFE := UInt8.toNat_inj.1 (by simp; omega)
      have h2 : b = 0xFF := UInt8.toNat_inj.1 (by simp; omega)
      rw [h1, h2]
      exact ⟨bytes, rfl⟩

theorem head_bom16 {s : State} (hs : Paired s) (hne : s ≠ ⟨none, none⟩) (bytes : List UInt8) :
    (units ((decoder big_endian).text s (bom16 big_endian ++ bytes))).head? ≠ some mark := by
  obtain ⟨lead_byte, _ | l⟩ := s
  · rcases lead_byte with _ | a
    · exact absurd rfl hne
    · intro h
      have ha := a.toNat_lt
      rcases big_endian
      · have hu := @head_unit false a 0xFF (0xFE :: bytes) h
        rw [toNat_unitOfBytes] at hu
        simp at hu
        omega
      · have hu := @head_unit true a 0xFE (0xFF :: bytes) h
        rw [toNat_unitOfBytes] at hu
        simp at hu
        omega
  · exact head_surrogate (hs l rfl) lead_byte _

end

namespace EncodingLabel

variable {enc : EncodingLabel} {before rest bytes : List UInt8}

/-- Where the decoder stands behind `before`. -/
def stateAfter (enc : EncodingLabel) (before : List UInt8) : enc.State :=
  enc.decoder.after enc.decoder.init before

/-- What is emitted for `rest`, behind `before`. -/
def textAfter (enc : EncodingLabel) (before rest : List UInt8) : List (Option ℕ) :=
  enc.decoder.text (enc.stateAfter before) rest

def LostAt : (enc : EncodingLabel) → enc.State → List UInt8 → Prop
  | .utf8, _, _ => False
  | .utf16le, _, _ => False
  | .utf16be, s, rest => Lost s rest

theorem out_bom : enc.decoder.out enc.decoder.init enc.bom = [some 0xFEFF]
    ∧ enc.decoder.after enc.decoder.init enc.bom = enc.decoder.init := by
  cases enc <;> exact ⟨rfl, rfl⟩

theorem length_textAfter_bom (h : ¬ enc.LostAt (enc.stateAfter before) rest) :
    (Utf16.units (enc.textAfter before rest)).length + 1 ≤
      (Utf16.units (enc.textAfter before (enc.bom ++ rest))).length := by
  cases enc with
  | utf8 =>
    change (Utf16.units (Utf8.decoder.text (Utf8.decoder.after none before) rest)).length + 1 ≤
      (Utf16.units (Utf8.decoder.text (Utf8.decoder.after none before)
        ([0xEF, 0xBB, 0xBF] ++ rest))).length
    rcases hs : Utf8.decoder.after none before with _ | p
    · have hbom := @out_bom .utf8
      have htx : Utf8.decoder.text none ([0xEF, 0xBB, 0xBF] ++ rest) =
          some 0xFEFF :: Utf8.decoder.text none rest := by
        rw [text_append]
        rfl
      rw [htx, Utf16.units_some, encode_mark, length_append]
      exact (Nat.add_comm _ _).le
    · have hp := bounded_after hs
      have := length_text_some_le hp rest
      rw [text_some_bom hp]
      simp [encode_mark, length_encode_replacement]
      omega
  | utf16le => exact length_text_bom_le _ rest
  | utf16be => exact length_text_bom_be h

theorem text_lost {s : enc.State} (h : enc.LostAt s rest) :
    rest = [] ∧ enc.decoder.text s (enc.bom ++ rest) = enc.decoder.text s rest := by
  cases enc with
  | utf8 => exact h.elim
  | utf16le => exact h.elim
  | utf16be =>
    obtain ⟨lead_byte, lead_surrogate⟩ := s
    obtain ⟨rfl, hno, a, hsm, hld⟩ := h
    cases hno
    cases hsm
    refine ⟨rfl, ?_⟩
    change (Utf16.decoder true).text ⟨some a, none⟩ [0xFE, 0xFF] = _
    have hst : Utf16.stepUnit none (Utf16.unitOfBytes true a 0xFE) =
        (⟨none, some (Utf16.unitOfBytes true a 0xFE)⟩, []) := stepUnit_lead hld
    rw [text_lead, hst]
    rfl

theorem head_textAfter_bom (h : enc.stateAfter before ≠ enc.decoder.init) (rest : List UInt8) :
    (Utf16.units (enc.textAfter before (enc.bom ++ rest))).head? ≠ some mark := by
  cases enc with
  | utf8 =>
    change (Utf16.units (Utf8.decoder.text (Utf8.decoder.after none before)
      ([0xEF, 0xBB, 0xBF] ++ rest))).head? ≠ some mark
    rcases hs : Utf8.decoder.after none before with _ | p
    · exact absurd hs h
    · rw [text_some_bom (bounded_after hs)]
      exact head_units_none
  | utf16le => exact head_bom16 (paired_after before) h rest
  | utf16be => exact head_bom16 (paired_after before) h rest

theorem bom_of_head_text (h : (enc.text bytes).head? = some mark) : enc.bom <+: bytes := by
  cases enc with
  | utf8 => exact bom_of_head h
  | utf16le => exact bom16_of_head h
  | utf16be => exact bom16_of_head h

theorem step_ne (s : enc.State) (b : UInt8) :
    (enc.decoder.step s b).2 ≠ [] ∨ (enc.decoder.step s b).1 ≠ enc.decoder.init := by
  cases enc with
  | utf8 => exact step_utf8_ne s b
  | utf16le => exact step_utf16_ne s b
  | utf16be => exact step_utf16_ne s b

theorem finish_ne {s : enc.State} (h : s ≠ enc.decoder.init) : enc.decoder.finish s ≠ [] := by
  have h16 : ∀ {big_endian : Bool} {s : Utf16.State}, s ≠ ⟨none, none⟩ →
      (Utf16.decoder big_endian).finish s ≠ [] := by
    intro big_endian s hs
    obtain ⟨_ | a, _ | l⟩ := s <;> simp_all [Utf16.decoder]
  cases enc with
  | utf8 =>
    rcases s with _ | p
    · exact absurd rfl h
    · exact cons_ne_nil _ _
  | utf16le => exact h16 h
  | utf16be => exact h16 h

end EncodingLabel

end Cruller.Text
