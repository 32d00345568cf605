import Cruller.Text.Unicode

/-!
# `TextDecoder`

A decoder of one of the Unicode encodings. Between the calls it keeps the beginning of a character
that the last one ended in: bytes of UTF-8, or a byte and a surrogate of UTF-16.
-/

namespace Cruller.Text

/-- The encodings. -/
inductive EncodingLabel where
  | utf8
  | utf16le
  | utf16be
deriving DecidableEq

def EncodingLabel.name : EncodingLabel → String
  | utf8 => "UTF-8"
  | utf16le => "UTF-16LE"
  | utf16be => "UTF-16BE"

def EncodingLabel.bom : EncodingLabel → List UInt8
  | utf8 => [0xEF, 0xBB, 0xBF]
  | utf16le => [0xFF, 0xFE]
  | utf16be => [0xFE, 0xFF]

/-- The decoder, with what it remembers from call to call. -/
structure TextDecoder where
  /-- `buffered.slice()`. -/
  buffered : List UInt8 := []
  lead_byte : Option UInt8 := none
  lead_surrogate : Option UInt16 := none
  ignore_bom : Bool := false
  fatal : Bool := false
  encoding : EncodingLabel := .utf8
deriving DecidableEq

/-- What `asArrayBuffer` gives. -/
structure ArrayBuffer where
  slice : List UInt8
  le_max_size : slice.length ≤ 2 ^ 32 - 1

inductive JSError where
  | ENCODING_INVALID_ENCODED_DATA (message : String)
deriving DecidableEq

namespace TextDecoder

variable (this : TextDecoder)

/-- The decoder, the output and whether an error has been seen. -/
abbrev UTF16Output := TextDecoder × List UInt16 × Bool

/-- A unit is written, or kept as a lead surrogate, or replaced. -/
def processCodeUnitUTF16 (output : List UInt16) (saw_error : Bool) (code_unit : UInt16) :
    UTF16Output :=
  let single (this : TextDecoder) (output : List UInt16) (saw_error : Bool) : UTF16Output :=
    if u16IsLead code_unit then ({ this with lead_surrogate := some code_unit }, output, saw_error)
    else if u16IsTrail code_unit then (this, output ++ [.ofNat unicode_replacement], true)
    else (this, output ++ [code_unit], saw_error)
  match this.lead_surrogate with
  | some lead_surrogate =>
    let this := { this with lead_surrogate := none }
    if u16IsTrail code_unit then (this, output ++ [lead_surrogate, code_unit], saw_error)
    else single this (output ++ [.ofNat unicode_replacement]) true
  | none => single this output saw_error

def codeUnitFromBytesUTF16 (first second : UInt16) (big_endian : Bool) : UInt16 :=
  if big_endian then (first <<< 8) ||| second else first ||| (second <<< 8)

/-- The loop over the bytes, two at a time; a byte that is left over is the lead byte. -/
def decodeUnits (big_endian : Bool) : TextDecoder → List UInt16 → Bool → List UInt8 → UTF16Output
  | this, output, saw_error, first :: second :: remain =>
    let (this, output, saw_error) := this.processCodeUnitUTF16 output saw_error
      (codeUnitFromBytesUTF16 first.toUInt16 second.toUInt16 big_endian)
    decodeUnits big_endian this output saw_error remain
  | this, output, saw_error, [byte] => ({ this with lead_byte := some byte }, output, saw_error)
  | this, output, saw_error, [] => (this, output, saw_error)

/-- What `decodeUTF16` does before it looks at `flush`. -/
def decodeBytes (bytes : List UInt8) (big_endian : Bool) : UTF16Output :=
  match this.lead_byte, bytes with
  | some lead_byte, byte :: remain =>
    let (this, output, saw_error) := { this with lead_byte := none }.processCodeUnitUTF16 [] false
      (codeUnitFromBytesUTF16 lead_byte.toUInt16 byte.toUInt16 big_endian)
    decodeUnits big_endian this output saw_error remain
  | _, _ => decodeUnits big_endian this [] false bytes

/-- A chunk in UTF-16. -/
def decodeUTF16 (bytes : List UInt8) (big_endian flush : Bool) : UTF16Output :=
  let (this, output, saw_error) := this.decodeBytes bytes big_endian
  if flush ∧ (this.lead_byte ≠ none ∨ this.lead_surrogate ≠ none) then
    ({ this with lead_byte := none, lead_surrogate := none },
      output ++ [.ofNat unicode_replacement], true)
  else (this, output, saw_error)

variable (S : Simdutf)

/-- The slice without the byte order mark that it begins with. -/
def withoutBOM (buffer_slice : List UInt8) : List UInt8 :=
  if this.ignore_bom = false ∧ this.encoding.bom <+: buffer_slice then
    buffer_slice.drop this.encoding.bom.length
  else buffer_slice

/-- A chunk, behind what was buffered. -/
def decodeSlice (buffer_slice : List UInt8) (flush : Bool) :
    TextDecoder × Except JSError (List UInt16) :=
  match this.encoding with
  | .utf8 =>
    let input := this.buffered ++ this.withoutBOM buffer_slice
    let this := { this with buffered := [] }
    match toUTF16AllocMaybeBuffered S input this.fatal flush with
    | .error _ => (this, .error (.ENCODING_INVALID_ENCODED_DATA "Invalid byte sequence"))
    | .ok (some (decoded, leftover)) =>
      (if flush = false ∧ leftover.length ≠ 0 then { this with buffered := leftover } else this,
        .ok decoded)
    | .ok none => (this, .ok (copyU8IntoU16 input))
  | encoding =>
    let (this, decoded, saw_error) :=
      this.decodeUTF16 (this.withoutBOM buffer_slice) (encoding = .utf16be) flush
    if saw_error ∧ this.fatal then
      (this, .error (.ENCODING_INVALID_ENCODED_DATA
        ("The encoded data was not valid " ++ encoding.name ++ " data")))
    else (this, .ok decoded)

/-- Without an input, or with `undefined`, there are no bytes. -/
def decode (input : Option ArrayBuffer) (stream : Bool) :
    TextDecoder × Except JSError (List UInt16) :=
  this.decodeSlice S ((input.map ArrayBuffer.slice).getD []) !stream

/-- The chunks of a stream, each with a call of its own, and the call that flushes. -/
def decodeStream : TextDecoder → List ArrayBuffer → Option ArrayBuffer →
    TextDecoder × List (Except JSError (List UInt16))
  | this, [], last =>
    let (this, result) := this.decode S last false
    (this, [result])
  | this, chunk :: chunks, last =>
    let (this, result) := this.decode S (some chunk) true
    let (this, results) := decodeStream this chunks last
    (this, result :: results)

/-- What the calls give together; `none` when one of them throws. -/
def joined (results : List (Except JSError (List UInt16))) : Option (List UInt16) :=
  (results.mapM Except.toOption).map List.flatten

/-- `constructor`. -/
def ofOptions (encoding : EncodingLabel) (fatal ignore_bom : Bool) : TextDecoder where
  ignore_bom := ignore_bom
  fatal := fatal
  encoding := encoding

def afterStreams (streams : List (List ArrayBuffer × Option ArrayBuffer)) : TextDecoder :=
  streams.foldl (fun this s => (this.decodeStream S s.1 s.2).1) this

end TextDecoder

end Cruller.Text
