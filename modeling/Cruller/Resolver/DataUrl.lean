import Cruller.Resolver.Base64

/-!
# Data URLs

Reading a data URL, and writing a text as the shorter one of two. What the encoder writes is the
bytes that it appends; the counter that it tries them on first is their number. The buffer that is
printed to where base64 is the shorter one has the length of the encoded text, and what is printed
to it is the text.
-/

namespace Cruller.Resolver

inductive DataURLError where
  | InvalidCharacter
  | InvalidDataURL
  | Base64DecodeError
  deriving DecidableEq

abbrev percent : UInt8 := 0x25

def isHex (c : UInt8) : Bool :=
  0x30 ≤ c ∧ c ≤ 0x39 ∨ 0x61 ≤ c ∧ c ≤ 0x66 ∨ 0x41 ≤ c ∧ c ≤ 0x46

/-- `std.fmt.charToDigit`, for what is a digit -/
def charToDigit (c : UInt8) : UInt8 :=
  if c ≤ 0x39 then c - 0x30 else if 0x61 ≤ c then c - 0x61 + 10 else c - 0x41 + 10

/-- `-._~!$&'()*+,;=:@` -/
def pcharMarks : List UInt8 :=
  [0x2D, 0x2E, 0x5F, 0x7E, 0x21, 0x24, 0x26, 0x27, 0x28, 0x29, 0x2A, 0x2B, 0x2C, 0x3B, 0x3D, 0x3A,
    0x40]

/-- A valid path character or a percent encoded octet comes first. -/
def isPchar : List UInt8 → Bool
  | [] => false
  | c :: str =>
    0x61 ≤ c ∧ c ≤ 0x7A ∨ 0x41 ≤ c ∧ c ≤ 0x5A ∨ 0x30 ≤ c ∧ c ≤ 0x39 ∨ pcharMarks.contains c ∨
      c = percent ∧ 2 ≤ str.length ∧ (str.take 2).all isHex

/-- A byte that is no escape; once something was decoded, it is written behind that. -/
def keep (strict : Bool) (path : List UInt8) (c : UInt8) (ret : Option (List UInt8)) :
    Except DataURLError (Option (List UInt8)) :=
  if c ≠ 0x2F ∧ isPchar path = false ∧ strict then .error .InvalidCharacter
  else .ok (ret.map (· ++ [c]))

/-- The loop of `_decode`, behind `read`. -/
def decodeFrom (strict : Bool) :
    List UInt8 → List UInt8 → Option (List UInt8) → Except DataURLError (Option (List UInt8))
  | _, [], ret => .ok ret
  | read, c :: a :: b :: path, ret =>
    if c = percent ∧ isHex a ∧ isHex b then
      decodeFrom strict (read ++ [c, a, b]) path
        (some (ret.getD read ++ [charToDigit a <<< 4 ||| charToDigit b]))
    else
      (keep strict (c :: a :: b :: path) c ret).bind (decodeFrom strict (read ++ [c]) (a :: b :: path))
  | read, c :: path, ret =>
    (keep strict (c :: path) c ret).bind (decodeFrom strict (read ++ [c]) path)

/-- `PercentEncoding._decode`: what was decoded, if anything was. -/
def decode (strict : Bool) (path : List UInt8) : Except DataURLError (Option (List UInt8)) :=
  decodeFrom strict [] path none

def decodeUnstrict (path : List UInt8) : Except DataURLError (Option (List UInt8)) :=
  decode false path

/-- `"data:"` -/
def dataPrefix : List UInt8 := [0x64, 0x61, 0x74, 0x61, 0x3A]

/-- `";base64"` -/
def base64Suffix : List UInt8 := [0x3B, 0x62, 0x61, 0x73, 0x65, 0x36, 0x34]

/-- A data URL, still encoded. -/
structure DataURL where
  mime_type : List UInt8
  data : List UInt8
  is_base64 : Bool
  deriving DecidableEq

/-- `url["data:".len..comma]` panics in the source when the comma stands before index 5; `parse`
looks for `data:` first, so it never does. -/
def parseWithoutCheck (url : List UInt8) : Except DataURLError DataURL :=
  match url.idxOf? 0x2C with
  | none => .error .InvalidDataURL
  | some comma =>
    let mime_type := (url.take comma).drop dataPrefix.length
    let data := url.drop (comma + 1)
    if base64Suffix.isSuffixOf mime_type then
      .ok ⟨mime_type.take (mime_type.length - base64Suffix.length), data, true⟩
    else .ok ⟨mime_type, data, false⟩

/-- `DataURL.parse` -/
def parse (url : List UInt8) : Except DataURLError (Option DataURL) :=
  if dataPrefix.isPrefixOf url then (parseWithoutCheck url).map some else .ok none

/-- The bytes of the URL. -/
def decodeData (simdutf : Simdutf) (url : DataURL) : Except DataURLError (List UInt8) :=
  (decodeUnstrict url.data).bind fun percent_decoded_owned =>
    let percent_decoded := percent_decoded_owned.getD url.data
    if url.is_base64 then
      let len := decodeLen percent_decoded
      match simdutf.decodeBase64 percent_decoded len with
      | some buf => if buf.length ≠ len then .error .Base64DecodeError else .ok buf
      | none => .error .Base64DecodeError
    else .ok percent_decoded

/-- `"0123456789ABCDEF"[n]` -/
def hex (n : UInt8) : UInt8 := if n < 10 then 0x30 + n else 0x41 + (n - 10)

def escape (byte : UInt8) : List UInt8 := [percent, hex (byte >>> 4), hex (byte &&& 15)]

/-- Where the trailing characters that need to be escaped start, before `n`. -/
def trailingStart (text : List UInt8) : ℕ → ℕ
  | 0 => 0
  | n + 1 =>
    if (text[n]?).any fun c => decide (0x20 < c) || c == 0x09 || c == 0x0A || c == 0x0D then n + 1
    else trailingStart text n

/-- Whether the character at `i` needs to be escaped. -/
def needsEscape (text : List UInt8) (i : ℕ) (first_byte : UInt8) : Bool :=
  first_byte == 0x09 || first_byte == 0x0A || first_byte == 0x0D || first_byte == 0x23 ||
    decide (trailingStart text text.length ≤ i) ||
    (first_byte == percent && decide (i + 2 < text.length) && (text[i + 1]?).any isHex &&
      (text[i + 2]?).any isHex)

/-- The length that a first byte announces, and 0 of one that announces none. -/
def utf8ByteSequenceLength (first_byte : UInt8) : ℕ :=
  if first_byte ≤ 0x7F then 1
  else if 0xC0 ≤ first_byte ∧ first_byte ≤ 0xDF then 2
  else if 0xE0 ≤ first_byte ∧ first_byte ≤ 0xEF then 3
  else if 0xF0 ≤ first_byte ∧ first_byte ≤ 0xF7 then 4
  else 0

/-- The loop over the text: where the last run starts, and what was appended; every round moves `i`
where the text is valid. -/
def escapeLoop (text : List UInt8) : ℕ → ℕ → ℕ → List UInt8 → ℕ × List UInt8
  | 0, _, run_start, buf => (run_start, buf)
  | n + 1, i, run_start, buf =>
    match text[i]? with
    | none => (run_start, buf)
    | some first_byte =>
      if needsEscape text i first_byte then
        escapeLoop text n (i + utf8ByteSequenceLength first_byte) (i + 1)
          (buf ++ (text.drop run_start).take (i - run_start) ++ escape first_byte)
      else escapeLoop text n (i + utf8ByteSequenceLength first_byte) run_start buf

/-- What is appended to the buffer; `none` is `false`. -/
def encodeStringAsPercentEscapedDataURL (simdutf : Simdutf) (mime_type text : List UInt8) :
    Option (List UInt8) :=
  if simdutf.utf8 text then
    let (run_start, buf) := escapeLoop text (text.length + 1) 0 0 (dataPrefix ++ mime_type ++ [0x2C])
    some (buf ++ text.drop run_start)
  else none

/-- `data:{s};base64,{s}` is printed where there is room for the text in base64; `none` is a text
that does not fit. -/
def printBase64 (mime_type text : List UInt8) (total_base64_encode_len : ℕ) :
    Option (List UInt8) :=
  let url := dataPrefix ++ mime_type ++ base64Suffix ++ [0x2C] ++ text
  if url.length ≤ total_base64_encode_len then some url else none

def totalBase64EncodeLen (mime_type text : List UInt8) : ℕ :=
  dataPrefix.length + mime_type.length + (base64Suffix.length + 1) + encodeLen text

/-- The shorter of either a base64-encoded or percent-escaped data URL. -/
def encodeStringAsShortestDataURL (simdutf : Simdutf) (mime_type text : List UInt8) :
    Option (List UInt8) :=
  let total_base64_encode_len := totalBase64EncodeLen mime_type text
  match encodeStringAsPercentEscapedDataURL simdutf mime_type text with
  | some buf =>
    if total_base64_encode_len < buf.length then printBase64 mime_type text total_base64_encode_len
    else some buf
  | none => printBase64 mime_type text total_base64_encode_len

end Cruller.Resolver
