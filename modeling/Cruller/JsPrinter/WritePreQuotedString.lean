import Mathlib.Tactic

/-!
# `writePreQuotedString`

`js_printer/js_printer.zig`: the inside of a string literal, of a template or of a JSON string. In
UTF-8 and in ASCII everything up to the next byte that needs an escape is copied at once; a Latin-1
or UTF-16 text is written unit by unit.

The text is a list of the units it is made of, bytes or, in UTF-16, code units.
-/

namespace Cruller.JsPrinter

/-- How a text is encoded. -/
inductive Encoding where
  | ascii
  | utf8
  | latin1
  | utf16
deriving DecidableEq

inductive Quote where
  | single
  | double
  | backtick
deriving DecidableEq

def Quote.char : Quote → ℕ
  | single => 0x27
  | double => 0x22
  | backtick => 0x60

/-- The parameters of the function; it compiles for JSON in double quotes only. -/
structure Options where
  quote_char : Quote
  ascii_only : Bool
  json : Bool
  json_quote : json = true → quote_char = .double

def first_ascii : ℕ := 0x20

def last_ascii : ℕ := 0x7E

def first_high_surrogate : ℕ := 0xD800

def first_low_surrogate : ℕ := 0xDC00

def last_low_surrogate : ℕ := 0xDFFF

/-- The character stands for itself in any literal. -/
def canPrintWithoutEscape (c : ℕ) (ascii_only : Bool) : Bool :=
  if c ≤ last_ascii then
    first_ascii ≤ c ∧ c ≠ 0x5C ∧ c ≠ 0x22 ∧ c ≠ 0x27 ∧ c ≠ 0x60 ∧ c ≠ 0x24
  else
    ¬ ascii_only ∧ c ≠ 0xFEFF ∧ c ≠ 0x2028 ∧ c ≠ 0x2029
      ∧ (c < first_high_surrogate ∨ last_low_surrogate < c)

/-- A control, a byte that is not ASCII, a backslash, the quote, and in a template a dollar. -/
def needsEscape (quote_char : Quote) (char : ℕ) : Bool :=
  127 ≤ char ∨ char < 0x20 ∨ char = 0x5C ∨ char = quote_char.char
    ∨ quote_char = .backtick ∧ char = 0x24

/-- The position is truncated to a `u32`. -/
def indexOfNeedsEscapeForJavaScriptString (slice : List ℕ) (quote_char : Quote) : Option ℕ :=
  (slice.findIdx? (needsEscape quote_char)).map (· % 2 ^ 32)

/-- The length that a first byte announces, and 1 of one that is invalid. -/
def wtf8ByteSequenceLengthWithInvalid (first_byte : ℕ) : ℕ :=
  if first_byte < 0x80 then 1
  else if first_byte &&& 0xE0 = 0xC0 then 2
  else if first_byte &&& 0xF0 = 0xE0 then 3
  else if first_byte &&& 0xF8 = 0xF0 then 4
  else 1

/-- The character of two to four bytes; surrogates are let through. -/
def decodeWTF8RuneTMultibyte (p : Fin 4 → ℕ) (len invalid : ℕ) : ℕ :=
  if p 1 &&& 0xC0 ≠ 0x80 then invalid
  else if len = 2 then
    let cp := (p 0 &&& 0x1F) <<< 6 ||| (p 1 &&& 0x3F)
    if cp < 0x80 then invalid else cp
  else if p 2 &&& 0xC0 ≠ 0x80 then invalid
  else if len = 3 then
    let cp := (p 0 &&& 0x0F) <<< 12 ||| (p 1 &&& 0x3F) <<< 6 ||| (p 2 &&& 0x3F)
    if cp < 0x800 then invalid else cp
  else if p 3 &&& 0xC0 ≠ 0x80 then invalid
  else
    let cp := (p 0 &&& 0x07) <<< 18 ||| (p 1 &&& 0x3F) <<< 12 ||| (p 2 &&& 0x3F) <<< 6
      ||| (p 3 &&& 0x3F)
    if cp < 0x10000 ∨ 0x10FFFF < cp then invalid else cp

def decodeWTF8RuneT (p : Fin 4 → ℕ) (len invalid : ℕ) : ℕ :=
  if len = 0 then invalid
  else if len = 1 then p 0
  else decodeWTF8RuneTMultibyte p len invalid

/-- The bytes of a code point, surrogates too. -/
def encodeWTF8Rune (r : ℕ) : List UInt8 :=
  if r ≤ 0x7F then [.ofNat r]
  else if r ≤ 0x7FF then [.ofNat (0xC0 ||| r >>> 6), .ofNat (0x80 ||| (r &&& 0x3F))]
  else if r ≤ 0xFFFF then
    [.ofNat (0xE0 ||| r >>> 12), .ofNat (0x80 ||| (r >>> 6 &&& 0x3F)), .ofNat (0x80 ||| (r &&& 0x3F))]
  else
    [.ofNat (0xF0 ||| r >>> 18), .ofNat (0x80 ||| (r >>> 12 &&& 0x3F)),
      .ofNat (0x80 ||| (r >>> 6 &&& 0x3F)), .ofNat (0x80 ||| (r &&& 0x3F))]

/-- How many units the first character of a text has, and how many of them are there. -/
def widthOf (encoding : Encoding) (text : List ℕ) : ℕ :=
  match encoding with
  | .utf8 => wtf8ByteSequenceLengthWithInvalid (text.headD 0)
  | _ => 1

/-- The character at the front. -/
def codePoint (encoding : Encoding) (text : List ℕ) : ℕ :=
  match encoding with
  | .utf8 =>
    let width := widthOf .utf8 text
    decodeWTF8RuneT (fun k => (text.take (min width text.length)).getD k 0) width 0
  | _ => text.headD 0

def byte (c : Char) : UInt8 := .ofNat c.toNat

def backslash : UInt8 := 0x5C

def hex_char (k : ℕ) : UInt8 :=
  .ofNat (if k < 10 then 0x30 + k else 0x37 + k)

def hexEscape (k : ℕ) : List UInt8 :=
  [backslash, byte 'u', hex_char (k >>> 12 &&& 0xF), hex_char (k >>> 8 &&& 0xF),
    hex_char (k >>> 4 &&& 0xF), hex_char (k &&& 0xF)]

/-- What is written for a character that cannot be printed as it is, and how far to go; `next` is
the unit behind it. -/
def writeEscape (o : Options) (c width : ℕ) (next : Option ℕ) : List UInt8 × ℕ :=
  match c with
  | 0x07 => ([backslash, byte 'x', byte '0', byte '7'], 1)
  | 0x08 => ([backslash, byte 'b'], 1)
  | 0x0C => ([backslash, byte 'f'], 1)
  | 0x0A => (if o.quote_char = .backtick then [0x0A] else [backslash, byte 'n'], 1)
  | 0x0D => ([backslash, byte 'r'], 1)
  | 0x0B => ([backslash, byte 'v'], 1)
  | 0x5C => ([backslash, backslash], 1)
  | 0x22 => (if o.quote_char = .double then [backslash, 0x22] else [0x22], 1)
  | 0x27 => (if o.quote_char = .single then [backslash, 0x27] else [0x27], 1)
  | 0x60 => (if o.quote_char = .backtick then [backslash, 0x60] else [0x60], 1)
  | 0x24 =>
    (if o.quote_char = .backtick ∧ next = some 0x7B then [backslash, byte '$'] else [byte '$'], 1)
  | 0x09 => (if o.quote_char = .backtick then [0x09] else [backslash, byte 't'], 1)
  | c =>
    (if c ≤ 0xFF ∧ ¬ o.json then [backslash, byte 'x', hex_char (c >>> 4 &&& 0xF), hex_char (c &&& 0xF)]
    else if c ≤ 0xFFFF then hexEscape c
    else
      let k := c - 0x10000
      hexEscape (first_high_surrogate + (k >>> 10 &&& 0x3FF)) ++
        hexEscape (first_low_surrogate + (k &&& 0x3FF)), width)

/-- What is written for the rest of the text; `n` bounds the rounds. -/
def writeFrom (encoding : Encoding) (o : Options) : ℕ → List ℕ → List UInt8
  | 0, _ => []
  | _ + 1, [] => []
  | n + 1, unit :: units =>
    let text := unit :: units
    let width := widthOf encoding text
    let clamped_width := min width text.length
    let c := codePoint encoding text
    let remain := text.drop clamped_width
    if canPrintWithoutEscape c o.ascii_only then
      match encoding with
      | .ascii | .utf8 =>
        match indexOfNeedsEscapeForJavaScriptString remain o.quote_char with
        | some j =>
          (text.take clamped_width).map .ofNat ++ (remain.take j).map .ofNat ++
            writeFrom encoding o n (remain.drop j)
        | none => text.map .ofNat
      | .latin1 | .utf16 => encodeWTF8Rune c ++ writeFrom encoding o n remain
    else
      let (escape, advance) := writeEscape o c width remain.head?
      escape ++ writeFrom encoding o n (text.drop advance)

/-- A text in its encoding. -/
inductive Text where
  | ascii (bytes : List UInt8)
  | utf8 (bytes : List UInt8)
  | latin1 (bytes : List UInt8)
  | utf16 (units : List UInt16)
deriving DecidableEq

namespace Text

def encoding : Text → Encoding
  | ascii _ => .ascii
  | utf8 _ => .utf8
  | latin1 _ => .latin1
  | utf16 _ => .utf16

def items : Text → List ℕ
  | ascii bytes | utf8 bytes | latin1 bytes => bytes.map UInt8.toNat
  | utf16 units => units.map UInt16.toNat

end Text

/-- The text between the quotes. -/
def writePreQuotedString (o : Options) (text : Text) : List UInt8 :=
  writeFrom text.encoding o (text.items.length + 1) text.items

/-- What JSON is written with. -/
def Options.ofJSON (ascii_only : Bool) : Options := ⟨.double, ascii_only, true, fun _ => rfl⟩

end Cruller.JsPrinter
