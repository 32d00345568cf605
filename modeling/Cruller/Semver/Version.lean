import Cruller.InstallTypes.SemverString
import Cruller.Lib.Decimal

/-!
# Semantic versions

`Version.parse` over bytes. The core numbers are read one part after the other, and what a `-` or a
`+` begins is scanned as a tag, whose prerelease and build lie in the buffer. What a version is to
say is its grammar (`SemVer`). The scanner takes every `-` outside a prerelease for the start of one,
so a build is kept when it has none (`parse_iff`).
-/

namespace Cruller.Semver

open InstallTypes Decimal

structure ExternalString where
  value : SemverString := .empty
  hash : UInt64 := 0

structure SlicedString where
  start : ℕ
  slice : List UInt8

namespace SlicedString

/-- `sliced_string.sub(input[start..stop])` -/
def sub (this : SlicedString) (start stop : ℕ) : SlicedString :=
  ⟨this.start + start, (this.slice.take stop).drop start⟩

/-- `String.init` of a slice of the buffer. -/
def value (this : SlicedString) : SemverString :=
  if h : SemverString.CanInline this.slice then .ofInline this.slice h.length_le
  else .ofPointer (.init this.start this.slice)

def external (this : SlicedString) : ExternalString := ⟨this.value, stringHash this.slice⟩

end SlicedString

structure Tag where
  pre : ExternalString := {}
  build : ExternalString := {}

inductive State where
  | none
  | pre
  | build
  deriving DecidableEq

def isLetter (c : UInt8) : Bool := 97 ≤ c && c ≤ 122 || 65 ≤ c && c ≤ 90

/-- A character of a tag other than `-`. -/
def isTagCharacter (c : UInt8) : Bool := isLetter c || decide (IsDigit c) || c == 46

namespace Tag

structure TagResult where
  tag : Tag := {}
  len : ℕ := 0

structure Scan where
  i : ℕ := 0
  state : State := .none
  start : ℕ := 0
  tag : Tag := {}

variable (sliced_string : SlicedString) (initial_pre_count : ℕ)

/-- A `+` closes the prerelease and begins the build. -/
def scanPlus (s : Scan) : Scan :=
  let s := if s.state = .pre ∨ s.state = .none ∧ 0 < initial_pre_count then
      { s with tag := { s.tag with pre := (sliced_string.sub s.start s.i).external } }
    else s
  { s with
    i := s.i + 1
    state := .build
    start := if s.state ≠ .build then s.i + 1 else s.start }

def scanMinus (s : Scan) : Scan :=
  { s with i := s.i + 1, state := .pre, start := if s.state ≠ .pre then s.i + 1 else s.start }

/-- At the end of the input the part that is open is closed. -/
def scanEnd (s : Scan) : Scan :=
  match s.state with
  | .none => s
  | .pre =>
    { s with
      tag := { s.tag with pre := (sliced_string.sub s.start s.i).external }, state := .none }
  | .build =>
    { s with
      tag := { s.tag with build := (sliced_string.sub s.start s.i).external }, state := .none }

/-- Character by character, up to the first that is none of a tag's. -/
def scan : List UInt8 → Scan → Scan
  | [], s => s
  | c :: input, s =>
    if c = 43 then scan input (scanPlus sliced_string initial_pre_count s)
    else if c = 45 then scan input (scanMinus s)
    -- only continue if character is a valid pre/build tag character
    else if isTagCharacter c then scan input { s with i := s.i + 1 }
    else scanEnd sliced_string s

/-- Without a sign of a prerelease or a build there is nothing to scan. -/
def parseWithPreCount : TagResult :=
  let input := sliced_string.slice
  let counted := input.takeWhile (· ≠ 32)
  if counted.count 43 = 0 ∧ initial_pre_count + counted.count 45 = 0 then {}
  else
    let s := scan sliced_string initial_pre_count input {}
    let s := if s.state = .none ∧ 0 < initial_pre_count then { s with state := .pre, start := 0 }
      else s
    ⟨(scanEnd sliced_string s).tag, s.i % 2 ^ 32⟩

def parse : TagResult := parseWithPreCount sliced_string 0

end Tag

/-- The first part of a version that a wildcard stands for. -/
inductive Wildcard where
  | none
  | major
  | minor
  | patch
  deriving DecidableEq

structure Partial where
  major : Option ℕ := none
  minor : Option ℕ := none
  patch : Option ℕ := none
  tag : Tag := {}

structure Version where
  major : ℕ := 0
  minor : ℕ := 0
  patch : ℕ := 0
  tag : Tag := {}

def Partial.min (this : Partial) : Version :=
  ⟨this.major.getD 0, this.minor.getD 0, this.patch.getD 0, this.tag⟩

structure ParseResult where
  wildcard : Wildcard := .none
  valid : Bool := true
  version : Partial := {}
  len : ℕ := 0

/-- The digits up to a dot or a space; `none` is a wildcard among them, or more digits than fit. -/
def collectDigits : List UInt8 → List UInt8 → Option (List UInt8)
  | [], bytes => some bytes
  | char :: input, bytes =>
    if char = 88 ∨ char = 120 ∨ char = 42 then none
    else if IsDigit char then
      -- out of bounds
      if 20 < bytes.length + 1 then none else collectDigits input (bytes ++ [char])
    else if char = 32 ∨ char = 46 then some bytes
    -- ignore invalid characters
    else collectDigits input bytes

def parseVersionNumber (input : List UInt8) : Option ℕ :=
  (collectDigits input []).bind fun bytes =>
    if bytes = [] then none else some ((parseInt 64 bytes).getD 0)

structure Cursor where
  i : ℕ
  part_i : ℕ := 0
  result : ParseResult := {}

namespace Cursor

def invalid (s : Cursor) : Cursor := { s with result := { s.result with valid := false } }

/-- The number is that of the part the cursor is at. -/
def number (s : Cursor) (digits : List UInt8) : Cursor :=
  let n := parseVersionNumber digits
  let version := s.result.version
  match s.part_i with
  | 0 => { s with part_i := 1, result := { s.result with version := { version with major := n } } }
  | 1 => { s with part_i := 2, result := { s.result with version := { version with minor := n } } }
  | 2 => { s with part_i := 3, result := { s.result with version := { version with patch := n } } }
  | _ => s

def missing (part_i : ℕ) : Wildcard :=
  match part_i with
  | 0 => .major
  | 1 => .minor
  | 2 => .patch
  | _ => .none

/-- Only the first wildcard of a version counts. -/
def wild (s : Cursor) : Cursor :=
  if s.result.wildcard = .none then
    { s with
      part_i := if s.part_i ≤ 2 then s.part_i + 1 else s.part_i
      result := { s.result with wildcard := missing s.part_i } }
  else s

def tagged (s : Cursor) (tag_result : Tag.TagResult) : Cursor :=
  { s with
    i := s.i + tag_result.len
    result := { s.result with version := { s.result.version with tag := tag_result.tag } } }

end Cursor

section Parse

variable (sliced_string : SlicedString)

def rest (s : Cursor) : SlicedString :=
  sliced_string.sub s.i sliced_string.slice.length

/-- The second pass. -/
def parseLoop : ℕ → Cursor → Cursor
  | 0, s => s
  | fuel + 1, s =>
    match sliced_string.slice.drop s.i with
    | [] => s
    | c :: input =>
      if c = 32 then s
      -- `|`, `^`, `#`, `&`, `%` and `!`
      else if c ∈ [124, 94, 35, 38, 37, 33] then { s with i := s.i - 1 }
      else if IsDigit c then
        let digits := (c :: input).takeWhile fun c => decide (IsDigit c)
        let i := s.i + digits.length
        let s := s.number digits
        -- `.` is expected only if there are remaining core version numbers
        parseLoop fuel { s with
          i := if sliced_string.slice[i]? = some 46 ∧ s.part_i ≠ 3 then i + 1 else i }
      else if c = 46 then s.invalid
      else if c = 45 ∨ c = 43 then
        if s.part_i < 2 ∧ s.result.wildcard = .none then s.invalid
        else s.tagged (Tag.parse (rest sliced_string s))
      else if c ∈ [120, 42, 88] then
        let i := s.i + ((c :: input).takeWhile fun c => c ∈ [120, 42, 88]).length
        parseLoop fuel { s.wild with
          i := if sliced_string.slice[i]? = some 46 then i + 1 else i }
      else if s.result.wildcard = .none ∧ 2 ≤ s.part_i ∧ isLetter c then
        -- like "1.0.0rc.1"
        s.tagged (Tag.parseWithPreCount (rest sliced_string s) 1)
      else s.invalid

/-- Newlines, whitespace and version separators. -/
def isSkipped (c : UInt8) : Bool := c ∈ [32, 9, 10, 13, 11, 12, 118, 61]

/-- `none` where the length does not fit a `u32`. -/
def parse : Option ParseResult :=
  let input := sliced_string.slice
  if input = [] then some { valid := false }
  else
    let s := parseLoop sliced_string (input.length + 1)
      { i := (input.findIdx? fun c => !isSkipped c).getD 0 }
    let wildcard := if s.result.wildcard = .none then Cursor.missing s.part_i
      else s.result.wildcard
    if s.i < 2 ^ 32 then some { s.result with wildcard := wildcard, len := s.i } else none

end Parse

/-- The buffer is the slice. -/
def parseUTF8 (slice : List UInt8) : Option ParseResult := parse ⟨0, slice⟩

/-- `isEmpty`: all bits are zero. -/
def isEmpty (this : ExternalString) : Bool := leValue this.value.bytes = 0

/-- `Formatter.format` -/
def format (self : Version) (input : List UInt8) : Option (List UInt8) :=
  let core := print self.major ++ 46 :: (print self.minor ++ 46 :: print self.patch)
  (if isEmpty self.tag.pre then some core
    else (self.tag.pre.value.slice input).map fun pre => core ++ 45 :: pre).bind fun text =>
  if isEmpty self.tag.build then some text
  else (self.tag.build.value.slice input).map fun build => text ++ 43 :: build

end Cruller.Semver
