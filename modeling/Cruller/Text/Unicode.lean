import Cruller.Lib.Utf8

/-!
# UTF-8 text to UTF-16

`toUTF16AllocMaybeBuffered` decodes a piece of UTF-8 text: all of it by simdutf where that succeeds,
and else character by character, by table and bounds; at the end of a piece that more is to follow,
the beginning of a character is handed back.
-/

namespace Cruller.Text

open Utf8

/-- The functions of simdutf; a conversion says whether it succeeded and what it has written. -/
structure Simdutf where
  validate_ascii_with_errors : List UInt8 → Option ℕ
  utf16_length_from_utf8 : List UInt8 → ℕ
  convert_utf8_to_utf16le_with_errors : List UInt8 → Bool × List UInt16

def copyU8IntoU16 (bytes : List UInt8) : List UInt16 := bytes.map UInt8.toUInt16

def Valid (bytes : List UInt8) : Prop := none ∉ decoder.text none bytes

instance (bytes : List UInt8) : Decidable (Valid bytes) := inferInstanceAs (Decidable (_ ∉ _))

def isASCII (byte : UInt8) : Bool := byte.toNat < 0x80

/-- What simdutf documents: the position of the first byte that is not ASCII; a length for text that
is not empty; and a conversion of valid text, and of text that is not, at least as far as it is
ASCII. -/
structure Simdutf.Lawful (S : Simdutf) : Prop where
  ascii : ∀ bytes, S.validate_ascii_with_errors bytes = bytes.findIdx? fun byte => !isASCII byte
  length_pos : ∀ byte bytes, isASCII byte → S.utf16_length_from_utf8 (byte :: bytes) ≠ 0
  success : ∀ bytes, (S.convert_utf8_to_utf16le_with_errors bytes).1 = true ↔ Valid bytes
  converted : ∀ bytes, Valid bytes → (S.convert_utf8_to_utf16le_with_errors bytes).2 =
    Utf16.units (decoder.text none bytes)
  written : ∀ front rest, front.all isASCII →
    copyU8IntoU16 front <+: (S.convert_utf8_to_utf16le_with_errors (front ++ rest)).2

variable (S : Simdutf)

/-- The position is a `u32`. -/
def firstNonASCII (slice : List UInt8) : Option ℕ :=
  (S.validate_ascii_with_errors slice).map (· % 2 ^ 32)

def unicode_replacement : ℕ := 0xFFFD

def u16Lead (supplementary : ℕ) : UInt16 := .ofNat ((supplementary >>> 10) + 0xd7c0)

def u16Trail (supplementary : ℕ) : UInt16 := .ofNat ((supplementary &&& 0x3ff) ||| 0xdc00)

def u16IsTrail (supplementary : UInt16) : Bool := supplementary.toNat &&& 0xfffffc00 == 0xdc00

def u16IsLead (supplementary : UInt16) : Bool := supplementary.toNat &&& 0xfffffc00 == 0xd800

/-- A character, how long it is, and whether it is one. -/
structure UTF16Replacement where
  code_point : ℕ := unicode_replacement
  len : ℕ := 0
  fail : Bool := false
  can_buffer : Bool := true
  is_lead : Bool := false
deriving DecidableEq

/-- The length that a first byte announces, and 0 of one that announces none. -/
def nonASCIISequenceLength (first_byte : UInt8) : ℕ :=
  let b := first_byte.toNat
  if b ≤ 193 then 0
  else if b ≤ 223 then 2
  else if b ≤ 239 then 3
  else if b ≤ 244 then 4
  else 0

local instance neZero_four : NeZero 4 := ⟨by decide⟩

/-- A character out of `len` bytes, of which `remaining_len` are there. -/
def convertUTF8BytesIntoUTF16WithLength (sequence : Fin 4 → UInt8) (len remaining_len : ℕ) :
    UTF16Replacement :=
  let s0 := (sequence 0).toNat
  let s1 := (sequence 1).toNat
  let s2 := (sequence 2).toNat
  let s3 := (sequence 3).toNat
  if len = 2 then
    if s1 < 0x80 ∨ 0xBF < s1 then { len := 1, fail := true, can_buffer := remaining_len < 2 }
    else { len := len, code_point := (s0 <<< 6) + s1 - 0x00003080 }
  else if len = 3 then
    let second :=
      if s0 = 0xE0 then s1 < 0xA0 ∨ 0xBF < s1
      else if s0 = 0xED then s1 < 0x80 ∨ 0x9F < s1
      else s1 < 0x80 ∨ 0xBF < s1
    if second then { len := 1, fail := true, can_buffer := remaining_len < 2 }
    else if s2 < 0x80 ∨ 0xBF < s2 then { len := 2, fail := true, can_buffer := remaining_len < 3 }
    else { len := len, code_point := (s0 <<< 12) + (s1 <<< 6) + s2 - 0x000E2080 }
  else if len = 4 then
    if s0 < 0xF0 ∨ 0xF4 < s0 then { len := 1, fail := true, can_buffer := false }
    else
      let second :=
        if s0 = 0xF0 then s1 < 0x90 ∨ 0xBF < s1
        else if s0 = 0xF4 then s1 < 0x80 ∨ 0x8F < s1
        else s1 < 0x80 ∨ 0xBF < s1
      if second then { len := 1, fail := true, can_buffer := remaining_len < 2 }
      else if s2 < 0x80 ∨ 0xBF < s2 then
        { len := 2, fail := true, can_buffer := remaining_len < 3 }
      else if s3 < 0x80 ∨ 0xBF < s3 then
        { len := 3, fail := true, can_buffer := remaining_len < 4 }
      else { len := len, code_point := (s0 <<< 18) + (s1 <<< 12) + (s2 <<< 6) + s3 - 0x03C82080 }
  else { len := 1, fail := true }

inductive DecodeError where
  | InvalidByteSequence
deriving DecidableEq

/-- A character as one unit or two. -/
def appendCodePoint (output : List UInt16) (code_point : ℕ) : List UInt16 :=
  if code_point ≤ 0xffff then output ++ [.ofNat code_point]
  else output ++ [u16Lead code_point, u16Trail code_point]

/-- From `non_ascii` on, character by character; `n` bounds the rounds. The bytes that are handed
back come second. -/
def convertFrom (fail_if_invalid flush : Bool) : ℕ → Option ℕ → List UInt16 → List UInt8 →
    Except DecodeError (List UInt16 × List UInt8)
  | _, none, output, remaining => .ok (output ++ copyU8IntoU16 remaining, [])
  | 0, some _, output, _ => .ok (output, [])
  | n + 1, some i, output, remaining =>
    let output := output ++ copyU8IntoU16 (remaining.take i)
    let remaining := remaining.drop i
    let sequence : Fin 4 → UInt8 := fun k => remaining.getD k 0
    let converted_length := nonASCIISequenceLength (sequence 0)
    let converted :=
      convertUTF8BytesIntoUTF16WithLength sequence converted_length remaining.length
    if flush = false ∧ converted.fail ∧ converted.can_buffer ∧
        converted_length > remaining.length then
      .ok (output, remaining)
    else if fail_if_invalid ∧ converted.fail then .error .InvalidByteSequence
    else
      let remaining := remaining.drop (max converted.len 1)
      convertFrom fail_if_invalid flush n (firstNonASCII S remaining)
        (appendCodePoint output converted.code_point) remaining

/-- `none` where all is ASCII. -/
def toUTF16AllocMaybeBuffered (bytes : List UInt8) (fail_if_invalid flush : Bool) :
    Except DecodeError (Option (List UInt16 × List UInt8)) :=
  match firstNonASCII S bytes with
  | none => .ok none
  | some first_non_ascii =>
    let out_length := S.utf16_length_from_utf8 bytes
    let res := S.convert_utf8_to_utf16le_with_errors bytes
    if out_length ≠ 0 ∧ res.1 then .ok (some (res.2, []))
    else
      let output := if out_length = 0 then [] else res.2.take first_non_ascii
      let start := if 0 < output.length then first_non_ascii else 0
      (convertFrom S fail_if_invalid flush (bytes.length + 1) (some 0) output
        (bytes.drop start)).map some

end Cruller.Text
