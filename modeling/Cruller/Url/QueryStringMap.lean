import Mathlib.Algebra.Group.Nat.Defs
import Mathlib.Data.List.Basic

/-!
# Query string maps

The scanner of query strings, and the map `QueryStringMap.init` makes of one: string pointers into
the query string where nothing needs decoding, else into a buffer that the decoded names and values
are written to one after the other. A hash is a parameter; a slice outside its buffer is `none`.
-/

namespace Cruller.Url

def u32 (n : ℕ) : ℕ := n % 2 ^ 32

/-- `api.StringPointer` -/
structure StringPointer where
  offset : ℕ
  length : ℕ
  deriving DecidableEq

/-- `buffer[ptr.offset..][0..ptr.length]` -/
def StringPointer.slice (ptr : StringPointer) (buffer : List UInt8) : Option (List UInt8) :=
  if ptr.offset + ptr.length ≤ buffer.length then
    some ((buffer.drop ptr.offset).take ptr.length)
  else none

/-- `Scanner.Result` -/
structure Result where
  name_needs_decoding : Bool
  value_needs_decoding : Bool
  name : StringPointer
  value : StringPointer

def Result.rawName (r : Result) (query_string : List UInt8) : Option (List UInt8) :=
  if r.name.length > 0 then r.name.slice query_string else some []

/-- Where the loop over a name stops, with `name_needs_decoding`. -/
inductive NameEnd where
  | equals (relative_i : ℕ) (name_needs_decoding : Bool) (rest : List UInt8)
  | ampersand (relative_i : ℕ) (name_needs_decoding : Bool)
  | done (relative_i : ℕ) (name_needs_decoding : Bool)

/-- How the name ends, and whether it has something to decode. -/
def scanName : List UInt8 → ℕ → Bool → NameEnd
  | [], relative_i, name_needs_decoding => .done relative_i name_needs_decoding
  | char :: rest, relative_i, name_needs_decoding =>
    match char with
    | 0x3D => .equals relative_i name_needs_decoding rest
    | 0x26 => .ampersand relative_i name_needs_decoding
    | 0x25 | 0x2B => scanName rest (relative_i + 1) true
    | _ => scanName rest (relative_i + 1) name_needs_decoding

/-- Get the next query string parameter, and the index to go on from. It goes on behind ampersands
`n` times at most. -/
def next (query_string : List UInt8) : ℕ → ℕ → Option Result × ℕ
  | 0, i => (none, i)
  | n + 1, i =>
    let slice := query_string.drop i
    match scanName slice 0 false with
    | .equals relative_i name_needs_decoding rest =>
      let value := rest.takeWhile (· ≠ 0x26)
      let end_ := i + (relative_i + 1 + value.length)
      -- If the name is empty and it's just a value, skip it.
      if u32 relative_i = 0 then (none, end_)
      else
        (some
          { name_needs_decoding := name_needs_decoding
            value_needs_decoding := value.any fun c => c == 0x25 || c == 0x2B
            name := ⟨u32 i, u32 relative_i⟩
            value := ⟨u32 (relative_i + 1 + i), u32 value.length⟩ }, end_)
    | .ampersand relative_i name_needs_decoding =>
      if relative_i > 0 then
        (some ⟨name_needs_decoding, false, ⟨u32 i, u32 relative_i⟩, ⟨0, 0⟩⟩, i + relative_i)
      else next query_string n (i + (slice.takeWhile (· = 0x26)).length)
    | .done relative_i name_needs_decoding =>
      if relative_i = 0 then (none, i)
      else (some ⟨name_needs_decoding, false, ⟨u32 i, u32 relative_i⟩, ⟨0, 0⟩⟩, i + relative_i)

/-- `Scanner.init` -/
def start (query_string : List UInt8) : ℕ := if query_string.head? = some 0x3F then 1 else 0

/-- `while (scanner.next()) |result|`, for `n` results at most. -/
def scan (query_string : List UInt8) : ℕ → ℕ → List Result
  | 0, _ => []
  | n + 1, i =>
    match next query_string (query_string.length + 1) i with
    | (some result, i) => result :: scan query_string n i
    | (none, _) => []

/-- All results of the scanner. -/
def results (query_string : List UInt8) : List Result :=
  scan query_string (query_string.length + 1) (start query_string)

def isASCIIHexDigit (c : UInt8) : Bool :=
  0x30 ≤ c ∧ c ≤ 0x39 ∨ 0x61 ≤ c ∧ c ≤ 0x66 ∨ 0x41 ≤ c ∧ c ≤ 0x46

def toASCIIHexValue (c : UInt8) : UInt8 :=
  if c ≤ 0x39 then c - 0x30 else if 0x61 ≤ c then c - 0x61 + 10 else c - 0x41 + 10

/-- `PercentEncoding.decode`: what is written, and whether that is all (else `DecodingError`). -/
def decode : List UInt8 → List UInt8 × Bool
  | [] => ([], true)
  | 0x25 :: a :: b :: input =>
    if isASCIIHexDigit a ∧ isASCIIHexDigit b then
      let (bytes, ok) := decode input
      ((toASCIIHexValue a <<< 4 ||| toASCIIHexValue b) :: bytes, ok)
    else ([], false)
  | c :: input =>
    if c = 0x25 then ([], false)
    else
      let (bytes, ok) := decode input
      (c :: bytes, ok)

/-- A parameter, by places of the buffer. -/
structure Param where
  name : StringPointer
  name_hash : ℕ
  value : StringPointer

/-- The parameters, and the text they lie in. -/
structure QueryStringMap where
  list : List Param
  slice : List UInt8

/-- Where nothing needs decoding the pointers are the scanner's. -/
def initRaw (hash : List UInt8 → ℕ) (query_string : List UInt8) : Option QueryStringMap :=
  ((results query_string).mapM fun result : Result =>
    (result.rawName query_string).map fun name =>
      (⟨result.name, hash name, result.value⟩ : Param)).map
        fun list => ⟨list, query_string⟩

/-- The state of the second loop. -/
structure Decoding where
  list : List Param
  buf : List UInt8
  buf_writer_pos : ℕ

/-- What is written to the buffer counts only if all could be decoded. -/
def Decoding.write (s : Decoding) (input : List UInt8) : Decoding × Option StringPointer :=
  let (bytes, ok) := decode input
  let buf := s.buf ++ bytes
  if ok then
    ({ s with buf := buf, buf_writer_pos := s.buf_writer_pos + u32 bytes.length },
      some ⟨s.buf_writer_pos, u32 bytes.length⟩)
  else ({ s with buf := buf }, none)

/-- The name's pointer and hash, or none where it cannot be decoded. `list_slice` was taken before
the loop. -/
def Decoding.name (hash : List UInt8 → ℕ) (query_string : List UInt8) (list_slice : List Param)
    (result : Result) (s : Decoding) : Option (Decoding × Option (StringPointer × ℕ)) :=
  (result.name.slice query_string).bind fun raw =>
    if result.name_needs_decoding then
      match s.write raw with
      | (s, none) => some (s, none)
      | (s, some name) => (name.slice s.buf).map fun text => (s, some (name, hash text))
    else
      (result.rawName query_string).map fun text =>
        match list_slice.find? (·.name_hash = hash text) with
        | some param => (s, some (param.name, hash text))
        | none =>
          match s.write raw with
          | (s, none) => (s, none)
          | (s, some name) => (s, some (name, hash text))

/-- One result is decoded into the buffer. -/
def Decoding.step (hash : List UInt8 → ℕ) (query_string : List UInt8) (list_slice : List Param)
    (s : Decoding) (result : Result) : Option Decoding :=
  (s.name hash query_string list_slice result).bind fun
    | (s, none) => some s
    | (s, some (name, name_hash)) =>
      (result.value.slice query_string).map fun raw =>
        match s.write raw with
        | (s, none) => s
        | (s, some value) => { s with list := s.list ++ [⟨name, name_hash, value⟩] }

/-- The map, when something has to be decoded. -/
def initDecoded (hash : List UInt8 → ℕ) (query_string : List UInt8) : Option QueryStringMap :=
  ((results query_string).foldlM (Decoding.step hash query_string []) ⟨[], [], 0⟩).map
    fun s => ⟨s.list, s.buf.take s.buf_writer_pos⟩

def nothingNeedsDecoding (query_string : List UInt8) : Bool :=
  (results query_string).all fun result =>
    !(result.name_needs_decoding || result.value_needs_decoding)

/-- `QueryStringMap.init`; the inner `none` is null. -/
def init (hash : List UInt8 → ℕ) (query_string : List UInt8) : Option (Option QueryStringMap) :=
  if results query_string = [] then some none
  else if nothingNeedsDecoding query_string then (initRaw hash query_string).map some
  else (initDecoded hash query_string).map some

/-- `str` -/
def QueryStringMap.str (map : QueryStringMap) (ptr : StringPointer) : Option (List UInt8) :=
  ptr.slice map.slice

/-- A parameter, as it is read. -/
structure Entry where
  name : List UInt8
  name_hash : ℕ
  value : List UInt8
  deriving DecidableEq

/-- What the map yields, in order. -/
def QueryStringMap.entries (map : QueryStringMap) : Option (List Entry) :=
  map.list.mapM fun param =>
    (map.str param.name).bind fun name =>
      (map.str param.value).map fun value => ⟨name, param.name_hash, value⟩

end Cruller.Url
