import Cruller.Text.Unicode

/-!
# `TextEncoderStreamEncoder`

The encoder of a stream of strings. A string is Latin-1 or UTF-16; between the calls the encoder
keeps a lead surrogate that the last string ended in.
-/

namespace Cruller.Text

open Utf8

/-- `std.array_list.Managed`: what it makes of a capacity when more is needed. -/
structure Allocator where
  grow : ℕ → ℕ → ℕ
  le_grow : ∀ capacity needed, needed ≤ grow capacity needed

def latin1ToCodepointBytesAssumeNotASCII (char : UInt8) : List UInt8 :=
  [.ofNat (0xC0 ||| (char.toNat >>> 6)), .ofNat (0x80 ||| (char.toNat &&& 0x3F))]

/-- How much was read and how much written. -/
structure EncodeIntoResult where
  read : ℕ
  written : ℕ
deriving DecidableEq

/-- The bytes that are written into a buffer with `room` and how many are read, up to the first
character that does not fit. -/
def copyInto : ℕ → List UInt8 → List UInt8 × ℕ
  | _, [] => ([], 0)
  | room, char :: latin1 =>
    if char.toNat ≤ 127 then
      if room = 0 then ([], 0)
      else
        let (out, read) := copyInto (room - 1) latin1
        (char :: out, read + 1)
    else if room < 2 then ([], 0)
    else
      let (out, read) := copyInto (room - 2) latin1
      (latin1ToCodepointBytesAssumeNotASCII char ++ out, read + 1)

/-- What is written comes first; the counts are `u32`. -/
def copyLatin1IntoUTF8 (room : ℕ) (latin1 : List UInt8) : List UInt8 × EncodeIntoResult :=
  let (out, read) := copyInto room latin1
  (out, ⟨read % 2 ^ 32, out.length % 2 ^ 32⟩)

/-- The loop over what remains; `n` bounds the rounds. -/
def encodeRemain (A : Allocator) : ℕ → ℕ → List UInt8 → List UInt8 → List UInt8
  | 0, _, items, _ => items
  | n + 1, capacity, items, remain =>
    if remain = [] then items
    else
      let (out, result) := copyLatin1IntoUTF8 (capacity - items.length) remain
      let items := items ++ out.take result.written
      let remain := remain.drop result.read
      if result.written = 0 ∧ result.read = 0 then
        encodeRemain A n (A.grow capacity (items.length + 2)) items remain
      else if items.length = capacity ∧ 0 < remain.length then
        encodeRemain A n (A.grow capacity (items.length + remain.length + 1)) items remain
      else encodeRemain A n capacity items remain

structure SimdutfUTF16 where
  convert_utf16le_to_utf8_with_errors : List UInt16 → Bool × List UInt8

def ValidUnits (units : List UInt16) : Prop := none ∉ Utf16.unitDecoder.text none units

instance (units : List UInt16) : Decidable (ValidUnits units) :=
  inferInstanceAs (Decidable (_ ∉ _))

/-- What simdutf documents: it succeeds on valid text, and converts it. -/
structure SimdutfUTF16.Lawful (S : SimdutfUTF16) : Prop where
  success : ∀ units, (S.convert_utf16le_to_utf8_with_errors units).1 = true ↔ ValidUnits units
  converted : ∀ units, ValidUnits units → (S.convert_utf16le_to_utf8_with_errors units).2 =
    Utf8.bytes (Utf16.unitDecoder.text none units)

/-- The position is a `u32`. -/
def firstNonASCII16 (slice : List UInt16) : Option ℕ :=
  (slice.findIdx? fun char => decide (127 < char.toNat)).map (· % 2 ^ 32)

/-- The character at the front, and how many units it takes. -/
def utf16CodepointWithFFFDAndFirstInputChar (char : UInt16) (input : List UInt16) :
    UTF16Replacement :=
  let c0 := char.toNat
  -- `~0x03ff` of a `u21`
  if c0 &&& 0x1ffc00 = 0xd800 then
    if input.length = 1 then { len := 1, is_lead := true }
    else
      let c1 := (input.getD 1 0).toNat
      if c1 &&& 0x1ffc00 ≠ 0xdc00 then
        { fail := true, len := 1, code_point := unicode_replacement, is_lead := true }
      else { len := 2, code_point := 0x10000 + (((c0 &&& 0x03ff) <<< 10) ||| (c1 &&& 0x03ff)) }
  else if c0 &&& 0x1ffc00 = 0xdc00 then
    { fail := true, len := 1, code_point := unicode_replacement }
  else { code_point := c0, len := 1 }

def utf16CodepointWithFFFD (input : List UInt16) : UTF16Replacement :=
  utf16CodepointWithFFFDAndFirstInputChar (input.getD 0 0) input

def UTF16Replacement.utf8Width (replacement : UTF16Replacement) : ℕ :=
  if replacement.code_point ≤ 0x7F then 1
  else if replacement.code_point ≤ 0x7FF then 2
  else if replacement.code_point ≤ 0xFFFF then 3
  else 4

/-- The four bytes of `wtf8Sequence` and of `encodeWTF8RuneT`, of which `utf8Width` are used. -/
def wtf8Sequence (code_point : ℕ) : List UInt8 :=
  if code_point ≤ 0x7f then [.ofNat code_point, 0, 0, 0]
  else if code_point ≤ 0x7ff then
    [.ofNat (0xc0 ||| (code_point >>> 6)), .ofNat (0x80 ||| (code_point &&& 0x3f)), 0, 0]
  else if code_point ≤ 0xffff then
    [.ofNat (0xe0 ||| (code_point >>> 12)), .ofNat (0x80 ||| ((code_point >>> 6) &&& 0x3f)),
      .ofNat (0x80 ||| (code_point &&& 0x3f)), 0]
  else
    [.ofNat (0xf0 ||| (code_point >>> 18)), .ofNat (0x80 ||| ((code_point >>> 12) &&& 0x3f)),
      .ofNat (0x80 ||| ((code_point >>> 6) &&& 0x3f)), .ofNat (0x80 ||| (code_point &&& 0x3f))]

def copyU16IntoU8 (input : List UInt16) : List UInt8 := input.map UInt16.toUInt8

/-- With `skip_trailing_replacement`: the list and the lead surrogate that the text ends in; `n`
bounds the rounds. -/
def toUTF8ListWithTypeBun : ℕ → List UInt8 → List UInt16 → List UInt8 × Option UInt16
  | 0, list, _ => (list, none)
  | n + 1, list, utf16_remaining =>
    match firstNonASCII16 utf16_remaining with
    | some i =>
      let to_copy := utf16_remaining.take i
      let utf16_remaining := utf16_remaining.drop i
      let token := utf16_remaining.getD 0 0
      let replacement := utf16CodepointWithFFFDAndFirstInputChar token utf16_remaining
      let utf16_remaining := utf16_remaining.drop replacement.len
      let list := list ++ copyU16IntoU8 to_copy
      if replacement.is_lead ∧ utf16_remaining.length = 0 then (list, some token)
      else
        toUTF8ListWithTypeBun n
          (list ++ (wtf8Sequence replacement.code_point).take replacement.utf8Width)
          utf16_remaining
    | none => (list ++ copyU16IntoU8 utf16_remaining, none)

/-- A string of the engine, whose strings have at most `2 ^ 31 - 1` units. -/
inductive ZigString where
  | latin1 (slice : List UInt8) (le_max_length : slice.length ≤ 2 ^ 31 - 1)
  | utf16 (slice : List UInt16) (le_max_length : slice.length ≤ 2 ^ 31 - 1)

def ZigString.units : ZigString → List UInt16
  | latin1 slice _ => copyU8IntoU16 slice
  | utf16 slice _ => slice

/-- The encoder, with a surrogate that waits for its other half. -/
structure TextEncoderStreamEncoder where
  pending_lead_surrogate : Option UInt16 := none
deriving DecidableEq

namespace TextEncoderStreamEncoder

variable (this : TextEncoderStreamEncoder) (A : Allocator) (S : SimdutfUTF16)

/-- A string of Latin-1. -/
def encodeLatin1 (input : List UInt8) : TextEncoderStreamEncoder × List UInt8 :=
  if input.length = 0 then (this, [])
  else
    let prepend_replacement_len := if this.pending_lead_surrogate ≠ none then 3 else 0
    let this := { this with pending_lead_surrogate := none }
    let buffer : List UInt8 := if 0 < prepend_replacement_len then [0xef, 0xbf, 0xbd] else []
    (this, encodeRemain A (2 * input.length + 1) (input.length + prepend_replacement_len) buffer
      input)

/-- What comes before the conversion of `remain`. -/
def encodePrepended (prepend : List UInt8) (remain : List UInt16) :
    TextEncoderStreamEncoder × List UInt8 :=
  let result := S.convert_utf16le_to_utf8_with_errors remain
  if result.1 then (this, prepend ++ result.2)
  else
    match toUTF8ListWithTypeBun (remain.length + 1) prepend remain with
    | (buf, some pending_lead) => ({ this with pending_lead_surrogate := some pending_lead }, buf)
    | (buf, none) => (this, buf)

/-- A string of UTF-16. -/
def encodeUTF16 (input : List UInt16) : TextEncoderStreamEncoder × List UInt8 :=
  match input with
  | [] => (this, [])
  | maybe_trail :: rest =>
    match this.pending_lead_surrogate with
    | some lead =>
      let this := { this with pending_lead_surrogate := none }
      if u16IsTrail maybe_trail then
        let converted := utf16CodepointWithFFFD [lead, maybe_trail]
        let sequence := (wtf8Sequence converted.code_point).take converted.utf8Width
        if rest.length = 0 then (this, sequence) else encodePrepended this S sequence rest
      else encodePrepended this S [0xef, 0xbf, 0xbd] input
    | none => encodePrepended this S [] input

def encode (str : ZigString) : TextEncoderStreamEncoder × List UInt8 :=
  match str with
  | .utf16 slice _ => this.encodeUTF16 S slice
  | .latin1 slice _ => this.encodeLatin1 A slice

/-- A surrogate that waits in vain. -/
def flush : List UInt8 := if this.pending_lead_surrogate = none then [] else [0xef, 0xbf, 0xbd]

/-- What the strings of a stream give and the flush at its end. -/
def encodeStream : TextEncoderStreamEncoder → List ZigString → List (List UInt8)
  | this, [] => [this.flush]
  | this, str :: strs =>
    let (this, chunk) := this.encode A S str
    chunk :: encodeStream this strs

end TextEncoderStreamEncoder

end Cruller.Text
