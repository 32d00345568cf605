import Cruller.Lib.Bytes

/-!
# Route patterns

The parts of a URL pattern, the byte format they are kept in (`EncodedPattern`), and matching a
request path against it. A slice outside its buffer, a failed cast and a panic are `none`.
-/

namespace Cruller.Bake.FrameworkRouter

/-- A component of a route's pattern. -/
inductive Part where
  | text (text : List UInt8)
  | param (name : List UInt8)
  | catch_all_optional (name : List UInt8)
  | catch_all (name : List UInt8)
  | group (label : List UInt8)
  deriving DecidableEq

namespace Part

/-- The number of the kind, by which parts are compared first. -/
def tag : Part → ℕ
  | text _ => 0
  | param _ => 1
  | catch_all_optional _ => 2
  | catch_all _ => 3
  | group _ => 4

/-- The text or the name. -/
def payload : Part → List UInt8
  | text t | param t | catch_all_optional t | catch_all t | group t => t

/-- `@unionInit(Part, @tagName(tag), payload)` -/
def ofTag (tag : ℕ) (payload : List UInt8) : Option Part :=
  match tag with
  | 0 => some (text payload)
  | 1 => some (param payload)
  | 2 => some (catch_all_optional payload)
  | 3 => some (catch_all payload)
  | 4 => some (group payload)
  | _ => none

def isGroup : Part → Bool
  | group _ => true
  | _ => false

def isCatchAll : Part → Bool
  | catch_all _ | catch_all_optional _ => true
  | _ => false

/-- The part stands for something in the path. -/
def isParam : Part → Bool
  | param _ | catch_all _ | catch_all_optional _ => true
  | _ => false

/-- What `writeAsSerialized` asserts. -/
def asserted : Part → Bool
  | text t => t ≠ [] ∧ 0x2F ∉ t
  | _ => true

/-- A `SerializedHeader`, its tag in the low 3 bits and its length in the 29 above, and the
payload. -/
def writeAsSerialized (part : Part) : Option (List UInt8) :=
  if part.asserted ∧ part.payload.length < 2 ^ 29 then
    some (leBytes 4 (part.tag + 8 * part.payload.length) ++ part.payload)
  else none

end Part

/-- The parts, serialized one behind the other. -/
def initFromParts : List Part → Option (List UInt8)
  | [] => some []
  | part :: parts =>
    part.writeAsSerialized.bind fun bytes => (initFromParts parts).map fun rest => bytes ++ rest

/-- A part, and how many bytes it takes. -/
def readWithSize (data : List UInt8) (offset : ℕ) : Option (Part × ℕ) :=
  if offset + 4 ≤ data.length then
    let header := leValue ((data.drop offset).take 4)
    let len := header / 8
    if offset + 4 + len ≤ data.length then
      (Part.ofTag (header % 8) ((data.drop (offset + 4)).take len)).map fun part => (part, 4 + len)
    else none
  else none

/-- The next part and the offset behind it; the inner `none` is null. -/
def next (data : List UInt8) (offset : ℕ) : Option (Option (Part × ℕ)) :=
  if data.length ≤ offset then some none
  else (readWithSize data offset).map fun (part, len) => some (part, offset + len)

/-- All parts from an offset on, for `n` of them at most. -/
def partsFrom (data : List UInt8) : ℕ → ℕ → Option (List Part)
  | 0, _ => none
  | n + 1, offset =>
    (next data offset).bind fun
      | none => some []
      | some (part, offset) => (partsFrom data n offset).map fun parts => part :: parts

/-- A parameter and its value. -/
structure Entry where
  key : List UInt8
  value : List UInt8
  deriving DecidableEq

abbrev max_count : ℕ := 64

/-- What the loop keeps, with the slice of `params` that is in use. -/
structure MatchState where
  param_num : ℕ
  i : ℕ
  params : List Entry

/-- The next place of a character. -/
def indexOfCharPos (slice : List UInt8) (char : UInt8) (start_index : ℕ) : Option ℕ :=
  if slice.length ≤ start_index then none
  else ((slice.drop start_index).findIdx? (· == char)).map fun result => result + start_index

/-- `path[start..end_]` -/
def slice (path : List UInt8) (start end_ : ℕ) : Option (List UInt8) :=
  if start ≤ end_ ∧ end_ ≤ path.length then some ((path.drop start).take (end_ - start)) else none

/-- Keeps a parameter, or panics where there is no room for it. -/
def capture (key : List UInt8) (path : List UInt8) (start end_ : ℕ) (s : MatchState) :
    Option MatchState :=
  if max_count ≤ s.param_num then none
  else
    (slice path start end_).map fun value =>
      { s with
        params := s.params.take s.param_num ++ [⟨key, value⟩]
        param_num := s.param_num + 1 }

/-- Capture remaining path segments as individual parameters, for `n` segments at most. -/
def captureRest (name path : List UInt8) : ℕ → ℕ → MatchState → Option MatchState
  | 0, _, _ => none
  | n + 1, segment_start, s =>
    if segment_start < path.length then
      let segment_end := (indexOfCharPos path 0x2F segment_start).getD path.length
      (if segment_start < segment_end then capture name path segment_start segment_end s
      else some s).bind
        (captureRest name path n
          (if segment_end = path.length then segment_end else segment_end + 1))
    else some s

/-- What a part says: no match, a match of the whole path, or to go on. -/
inductive Outcome where
  | no
  | yes (s : MatchState)
  | go (s : MatchState)

/-- The text is the segment at `i`. -/
def textAt (expect path : List UInt8) (i : ℕ) : Bool :=
  !(decide (path.length < i + expect.length) ||
      !(decide (path.length = i + expect.length) || path[i + expect.length]? == some 0x2F)) &&
    (path.drop i).take expect.length == expect

/-- One turn of the loop over the parts. -/
def matchPart (path : List UInt8) (s : MatchState) : Part → Option Outcome
  | .text expect =>
    if textAt expect path s.i then some (.go { s with i := s.i + (1 + expect.length) })
    else some .no
  | .param name =>
    let end_ := (indexOfCharPos path 0x2F s.i).getD path.length
    (capture name path s.i end_ s).map fun s =>
      .go { s with i := if end_ = path.length then end_ else end_ + 1 }
  | .catch_all_optional name | .catch_all name =>
    if s.i < path.length then (captureRest name path (path.length + 1) s.i s).map .yes
    else some (.yes s)
  | .group _ => some (.go s)

/-- `while (it.next()) |part|`, for `n` parts at most. -/
def matchLoop (data path : List UInt8) : ℕ → ℕ → MatchState → Option (Bool × List Entry)
  | 0, _, _ => none
  | n + 1, offset, s =>
    (next data offset).bind fun
      | none => some (s.i == path.length, s.params)
      | some (part, offset) =>
        (matchPart path s part).bind fun
          | .no => some (false, s.params)
          | .yes s => some (true, s.params)
          | .go s => matchLoop data path n offset s

/-- Whether the pattern matches, and what `params` is left as. -/
def patternMatches (data path : List UInt8) (params : List Entry) : Option (Bool × List Entry) :=
  matchLoop data path (data.length + 1) 0 ⟨0, 1, params⟩

end Cruller.Bake.FrameworkRouter
