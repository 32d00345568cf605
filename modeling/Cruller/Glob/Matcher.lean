import Mathlib.Data.UInt

/-!
# The glob matcher

`match` walks over the pattern and the path side by side. It remembers one `*` and one `**` from
which to try again (`State.wildcard`, `State.globstar`), and for the braces around it the branch it
is in. A group is not expanded: each of its branches is matched with what follows the group, and at
the end of the branch the rest of the group is skipped. Paths are separated by `/` alone, as
everywhere but on Windows.
-/

namespace Cruller.Glob

/-- A pointer and a length. Four bytes of a code point are read also where it ends before. -/
structure Slice where
  ptr : ℕ → UInt8
  len : ℕ

namespace Slice

/-- `n` bytes from `i` on. -/
def bytes (s : Slice) (i n : ℕ) : List UInt8 := (List.range n).map fun k => s.ptr (i + k)

end Slice

/-- The length that a first byte announces, and 1 of one that announces none. -/
def wtf8ByteSequenceLength (first_byte : UInt8) : ℕ :=
  if first_byte < 0x80 then 1
  else if first_byte &&& 0xE0 = 0xC0 then 2
  else if first_byte &&& 0xF0 = 0xE0 then 3
  else if first_byte &&& 0xF8 = 0xF0 then 4
  else 1

def replacement : ℕ := 0xFFFD

/-- The code point at `p`, or the replacement character where there is none. -/
def decodeWTF8RuneT (p : ℕ → UInt8) (len : ℕ) : ℕ :=
  if len = 0 then replacement
  else if len = 1 then (p 0).toNat
  else if p 1 &&& 0xC0 ≠ 0x80 then replacement
  else if len = 2 then
    let cp := (p 0).toNat % 0x20 * 0x40 + (p 1).toNat % 0x40
    if cp < 0x80 then replacement else cp
  else if p 2 &&& 0xC0 ≠ 0x80 then replacement
  else if len = 3 then
    let cp := (p 0).toNat % 0x10 * 0x1000 + (p 1).toNat % 0x40 * 0x40 + (p 2).toNat % 0x40
    if cp < 0x800 then replacement else cp
  else if p 3 &&& 0xC0 ≠ 0x80 then replacement
  else
    let cp := (p 0).toNat % 8 * 0x40000 + (p 1).toNat % 0x40 * 0x1000 + (p 2).toNat % 0x40 * 0x40
      + (p 3).toNat % 0x40
    if cp < 0x10000 ∨ cp > 0x10FFFF then replacement else cp

def isSeparator (c : UInt8) : Bool := c = '/'.toUInt8

/-- The letter that an escape stands for. -/
def escaped (cc : UInt8) : UInt8 :=
  if cc = 'a'.toUInt8 then 0x61
  else if cc = 'b'.toUInt8 then 0x08
  else if cc = 'n'.toUInt8 then 0x0A
  else if cc = 'r'.toUInt8 then 0x0D
  else if cc = 't'.toUInt8 then 0x09
  else cc

/-- With the byte comes where it stands; `none` is a pattern that ends in a backslash. -/
def unescape (c : UInt8) (glob : Slice) (glob_index : ℕ) : Option (UInt8 × ℕ) :=
  if c = '\\'.toUInt8 then
    if glob_index + 1 ≥ glob.len then none
    else some (escaped (glob.ptr (glob_index + 1)), glob_index + 1)
  else some (c, glob_index)

/-- The code point, its length and where it stands. -/
def getUnicode (glob : Slice) (glob_index : ℕ) : Option (ℕ × ℕ × ℕ) :=
  let c := glob.ptr glob_index
  if c = '\\'.toUInt8 then
    if glob_index + 1 ≥ glob.len then none
    else
      let cc := glob.ptr (glob_index + 1)
      if escaped cc ≠ cc then some ((escaped cc).toNat, 1, glob_index + 1)
      else
        let len := wtf8ByteSequenceLength cc
        if len = 1 then some (cc.toNat, len, glob_index + 1)
        else
          some (decodeWTF8RuneT (fun k => glob.ptr (glob_index + 1 + k)) len, len, glob_index + 1)
  else if c < 0x80 then some (c.toNat, 1, glob_index)
  else
    let len := wtf8ByteSequenceLength c
    some (decodeWTF8RuneT (fun k => glob.ptr (glob_index + k)) len, len, glob_index)

/-- Where to go on when a star has to take more. -/
structure Wildcard where
  glob_index : ℕ := 0
  path_index : ℕ := 0
  brace_depth : UInt8 := 0
deriving DecidableEq

/-- Where the matcher is. -/
structure State where
  path_index : ℕ := 0
  glob_index : ℕ := 0
  wildcard : Wildcard := {}
  globstar : Wildcard := {}
  brace_depth : UInt8 := 0
deriving DecidableEq

/-- A brace that is open, and its branch. -/
structure Brace where
  open_brace_idx : ℕ
  branch_idx : ℕ
deriving DecidableEq

namespace State

/-- The star takes more. -/
def backtrack (self : State) : State :=
  { self with
    path_index := self.wildcard.path_index
    glob_index := self.wildcard.glob_index
    brace_depth := self.wildcard.brace_depth }

/-- The next separator, or the end; `n` bytes are left. -/
def separatorFrom (path : Slice) : ℕ → ℕ → ℕ
  | 0, path_index => path_index
  | n + 1, path_index =>
    if path_index < path.len ∧ !isSeparator (path.ptr path_index) then
      separatorFrom path n (path_index + 1)
    else path_index

/-- A double star takes a whole name. -/
def skipToSeparator (self : State) (path : Slice) (is_end_invalid : Bool) : State :=
  if self.path_index = path.len then
    { self with wildcard := { self.wildcard with path_index := self.wildcard.path_index + 1 } }
  else
    let path_index := separatorFrom path (path.len - self.path_index) self.path_index
    let path_index := if is_end_invalid ∨ path_index ≠ path.len then path_index + 1 else path_index
    let wildcard := { self.wildcard with path_index := path_index }
    { self with wildcard := wildcard, globstar := wildcard }

end State

/-- `n` bytes of the pattern are left. -/
def skipGlobstarsLoop (glob : Slice) : ℕ → ℕ → ℕ
  | 0, glob_index => glob_index
  | n + 1, glob_index =>
    if glob_index + 4 ≤ glob.len
        ∧ glob.bytes glob_index 4 = ['/', '*', '*', '/'].map Char.toUInt8 then
      skipGlobstarsLoop glob n (glob_index + 3)
    else glob_index

/-- To the last one of `**` segments that follow each other. -/
def skipGlobstars (glob : Slice) (glob_index : ℕ) : ℕ :=
  let glob_index := skipGlobstarsLoop glob glob.len (glob_index + 2)
  let glob_index :=
    if glob_index + 3 = glob.len
        ∧ glob.bytes glob_index 3 = ['/', '*', '*'].map Char.toUInt8 then glob_index + 3
    else glob_index
  glob_index - 2

/-- To behind the brace that closes the group; `n` bytes of the pattern are left. -/
def skipBranchLoop (glob : Slice) (end_brace_depth : UInt8) :
    ℕ → ℕ → UInt8 → Bool → ℕ × UInt8
  | 0, glob_index, brace_depth, _ => (glob_index, brace_depth)
  | n + 1, glob_index, brace_depth, in_brackets =>
    if glob.len ≤ glob_index then (glob_index, brace_depth)
    else
      let char := glob.ptr glob_index
      if char = '{'.toUInt8 ∧ !in_brackets then
        skipBranchLoop glob end_brace_depth n (glob_index + 1) (brace_depth + 1) in_brackets
      else if char = '}'.toUInt8 ∧ !in_brackets then
        if brace_depth - 1 = end_brace_depth then (glob_index + 1, brace_depth - 1)
        else skipBranchLoop glob end_brace_depth n (glob_index + 1) (brace_depth - 1) in_brackets
      else if char = '['.toUInt8 then
        skipBranchLoop glob end_brace_depth n (glob_index + 1) brace_depth true
      else if char = ']'.toUInt8 then
        skipBranchLoop glob end_brace_depth n (glob_index + 1) brace_depth false
      else if char = '\\'.toUInt8 then
        skipBranchLoop glob end_brace_depth n (glob_index + 2) brace_depth in_brackets
      else skipBranchLoop glob end_brace_depth n (glob_index + 1) brace_depth in_brackets

/-- To the end of the braces. -/
def skipBranch (state : State) (glob : Slice) : State :=
  let (glob_index, brace_depth) := skipBranchLoop glob (state.brace_depth - 1)
    (glob.len - state.glob_index) state.glob_index state.brace_depth false
  { state with glob_index := glob_index, brace_depth := brace_depth }

/-- What one turn of the loop does. -/
inductive Turn where
  | continue (state : State)
  | return (matched : Bool)
  | matchBrace (state : State)
deriving DecidableEq

namespace State

variable (glob path : Slice) (glob_start : ℕ) (state : State)

/-- The end of the loop: once more from a wildcard that can take more. -/
def fallthrough : Turn :=
  if 0 < state.wildcard.path_index ∧ state.wildcard.path_index ≤ path.len then
    .continue state.backtrack
  else .return false

/-- A wildcard other than a globstar does not go beyond a separator. -/
def atSeparator : State :=
  if state.path_index < path.len ∧ isSeparator (path.ptr state.path_index) then
    { state with wildcard := state.globstar }
  else state

/-- The case of `*`. -/
def star : State :=
  let is_globstar :=
    state.glob_index + 1 < glob.len ∧ glob.ptr (state.glob_index + 1) = '*'.toUInt8
  let glob_index := if is_globstar then skipGlobstars glob state.glob_index else state.glob_index
  let state := { state with
    glob_index := glob_index
    wildcard := {
      glob_index := glob_index
      path_index := state.path_index +
        if state.path_index < path.len then wtf8ByteSequenceLength (path.ptr state.path_index)
        else 1
      brace_depth := state.brace_depth } }
  if is_globstar then
    let state := { state with glob_index := state.glob_index + 2 }
    let is_end_invalid := state.glob_index < glob.len
    if is_end_invalid ∧ state.path_index = path.len ∧ glob.len - state.glob_index = 2
        ∧ isSeparator (glob.ptr state.glob_index)
        ∧ glob.ptr (state.glob_index + 1) = '*'.toUInt8 then state
    else if (state.glob_index - glob_start < 3 ∨ glob.ptr (state.glob_index - 3) = '/'.toUInt8)
        ∧ (¬ is_end_invalid ∨ glob.ptr state.glob_index = '/'.toUInt8) then
      let state :=
        if is_end_invalid then { state with glob_index := state.glob_index + 1 } else state
      state.skipToSeparator path is_end_invalid
    else state.atSeparator path
  else { state with glob_index := state.glob_index + 1 }.atSeparator path

/-- Whether a class is negated, and where its characters begin. -/
def classStart (glob : Slice) (glob_index : ℕ) : Bool × ℕ :=
  if glob_index < glob.len
      ∧ (glob.ptr glob_index = '^'.toUInt8 ∨ glob.ptr glob_index = '!'.toUInt8) then
    (true, glob_index + 1)
  else (false, glob_index)

/-- The upper end of a range, or `low` where none follows. -/
def classHigh (glob : Slice) (low glob_index : ℕ) : Option (ℕ × ℕ) :=
  if glob_index + 1 < glob.len ∧ glob.ptr glob_index = '-'.toUInt8
      ∧ glob.ptr (glob_index + 1) ≠ ']'.toUInt8 then
    (getUnicode glob (glob_index + 1)).map fun (high, high_len, glob_index) =>
      (high, glob_index + high_len)
  else some (low, glob_index)

/-- The characters of a class up to behind its `]`; `n` bytes of the pattern are left. -/
def classLoop (glob : Slice) (c : ℕ) : ℕ → ℕ → Bool → Bool → Option (ℕ × Bool)
  | 0, _, _, _ => none
  | n + 1, glob_index, first, is_match =>
    if glob_index < glob.len ∧ (first ∨ glob.ptr glob_index ≠ ']'.toUInt8) then do
      let (low, low_len, glob_index) ← getUnicode glob glob_index
      let (high, glob_index) ← classHigh glob low (glob_index + low_len)
      classLoop glob c n glob_index false (is_match || (low ≤ c && c ≤ high))
    else if glob_index ≥ glob.len then none
    else some (glob_index + 1, is_match)

/-- The case of `[` before a character. -/
def «class» : Turn :=
  let (negated, glob_index) := classStart glob (state.glob_index + 1)
  let len := wtf8ByteSequenceLength (path.ptr state.path_index)
  let c := decodeWTF8RuneT (fun k => path.ptr (state.path_index + k)) len
  match classLoop glob c (glob.len - glob_index) glob_index true false with
  | none => .return false
  | some (glob_index, is_match) =>
    let state := { state with glob_index := glob_index }
    if is_match ≠ negated then .continue { state with path_index := state.path_index + len }
    else state.fallthrough path

/-- The character `cc`, which stands at `glob_index`, against the path. -/
def isMatch (cc : UInt8) (glob_index path_index : ℕ) : Bool :=
  let cc_len := wtf8ByteSequenceLength cc
  if cc = '/'.toUInt8 then isSeparator (path.ptr path_index)
  else if cc_len > 1 then
    path_index + cc_len ≤ path.len ∧ path.bytes path_index cc_len = glob.bytes glob_index cc_len
  else path.ptr path_index = cc

/-- What has no other meaning matches itself. -/
def literal : Turn :=
  if state.path_index < path.len then
    match unescape (glob.ptr state.glob_index) glob state.glob_index with
    | none => .return false
    | some (cc, glob_index) =>
      let state := { state with glob_index := glob_index }
      let cc_len := wtf8ByteSequenceLength cc
      if isMatch glob path cc state.glob_index state.path_index then
        .continue { state with
          glob_index := state.glob_index + cc_len
          path_index := state.path_index + cc_len
          wildcard := if cc = '/'.toUInt8 then state.globstar else state.wildcard }
      else state.fallthrough path
  else state.fallthrough path

/-- The case of `{`: on in the branch, if the group is open. -/
def brace (brace_stack : List Brace) : Turn :=
  match brace_stack.find? fun brace => brace.open_brace_idx = state.glob_index with
  | some brace =>
    .continue { state with glob_index := brace.branch_idx, brace_depth := state.brace_depth + 1 }
  | none => .matchBrace state

/-- One turn of the loop. -/
def turn (brace_stack : List Brace) : Turn :=
  if state.glob_index < glob.len then
    let char := glob.ptr state.glob_index
    if char = '*'.toUInt8 then .continue (state.star glob path glob_start)
    else if char = '?'.toUInt8 then
      if state.path_index < path.len then
        if !isSeparator (path.ptr state.path_index) then
          .continue { state with
            glob_index := state.glob_index + 1
            path_index := state.path_index + wtf8ByteSequenceLength (path.ptr state.path_index) }
        else state.fallthrough path
      else state.literal glob path
    else if char = '['.toUInt8 then
      if state.path_index < path.len then state.class glob path else state.literal glob path
    else if char = '{'.toUInt8 then state.brace brace_stack
    else if (char = ','.toUInt8 ∨ char = '}'.toUInt8) ∧ state.brace_depth > 0 then
      .continue (skipBranch state glob)
    else state.literal glob path
  else state.fallthrough path

end State

/-- `impl` matches what the branch begins with; `none` is its. -/
def matchBraceBranch (impl : ℕ → State → List Brace → Option Bool) (state : State)
    (open_brace_index branch_index : ℕ) (brace_stack : List Brace) : Option Bool :=
  if brace_stack.length < 10 then
    let brace_stack := brace_stack ++ [⟨open_brace_index, branch_index⟩]
    impl branch_index
      { state with glob_index := branch_index, brace_depth := .ofNat brace_stack.length }
      brace_stack
  else some false

/-- One branch after the other; `n` bytes of the pattern are left. -/
def matchBraceLoop (matchBraceBranch : ℕ → Option Bool) (glob : Slice) :
    ℕ → ℕ → Int16 → Bool → ℕ → Option Bool
  | 0, _, _, _, _ => some false
  | n + 1, glob_index, brace_depth, in_brackets, branch_index =>
    if glob.len ≤ glob_index then some false
    else
      let char := glob.ptr glob_index
      if char = '{'.toUInt8 ∧ !in_brackets then
        matchBraceLoop matchBraceBranch glob n (glob_index + 1) (brace_depth + 1) in_brackets
          (if brace_depth + 1 = 1 then glob_index + 1 else branch_index)
      else if char = '}'.toUInt8 ∧ !in_brackets then
        if brace_depth - 1 = 0 then matchBraceBranch branch_index
        else
          matchBraceLoop matchBraceBranch glob n (glob_index + 1) (brace_depth - 1) in_brackets
            branch_index
      else if char = ','.toUInt8 ∧ brace_depth = 1 then do
        if ← matchBraceBranch branch_index then return true
        else
          matchBraceLoop matchBraceBranch glob n (glob_index + 1) brace_depth in_brackets
            (glob_index + 1)
      else if char = '['.toUInt8 then
        matchBraceLoop matchBraceBranch glob n (glob_index + 1) brace_depth true branch_index
      else if char = ']'.toUInt8 then
        matchBraceLoop matchBraceBranch glob n (glob_index + 1) brace_depth false branch_index
      else if char = '\\'.toUInt8 then
        matchBraceLoop matchBraceBranch glob n (glob_index + 2) brace_depth in_brackets branch_index
      else
        matchBraceLoop matchBraceBranch glob n (glob_index + 1) brace_depth in_brackets branch_index

/-- Each branch is tried with what is behind the braces. -/
def matchBrace (impl : ℕ → State → List Brace → Option Bool) (state : State) (glob : Slice)
    (brace_stack : List Brace) : Option Bool :=
  matchBraceLoop
    (fun branch_index => matchBraceBranch impl state state.glob_index branch_index brace_stack)
    glob (glob.len - state.glob_index) state.glob_index 0 false 0

/-- `n` bounds the turns, those of the branches included. -/
def globMatchImpl (glob path : Slice) : ℕ → ℕ → State → List Brace → Option Bool
  | 0, _, _, _ => none
  | n + 1, glob_start, state, brace_stack =>
    if state.glob_index < glob.len ∨ state.path_index < path.len then
      match state.turn glob path glob_start brace_stack with
      | .continue state => globMatchImpl glob path n glob_start state brace_stack
      | .return matched => some matched
      | .matchBrace state => matchBrace (globMatchImpl glob path n) state glob brace_stack
    else some true

/-- Whether the path matches, and whether the pattern was negated. -/
inductive MatchResult where
  | no_match
  | match
  | negate_no_match
  | negate_match
deriving DecidableEq

def MatchResult.matches (this : MatchResult) : Bool := this = .match ∨ this = .negate_match

/-- How many `!` a pattern begins with; `n` bytes are left. -/
def negations (glob : Slice) : ℕ → ℕ → ℕ
  | 0, glob_index => glob_index
  | n + 1, glob_index =>
    if glob_index < glob.len ∧ glob.ptr glob_index = '!'.toUInt8 then
      negations glob n (glob_index + 1)
    else glob_index

def turns (glob path : Slice) : ℕ := 11 * (glob.len + 2 * path.len + 6) ^ 6

/-- The match, with the exclamation marks before it. -/
def «match» (glob path : Slice) : Option MatchResult := do
  let glob_index := negations glob glob.len 0
  let matched ←
    globMatchImpl glob path (turns glob path) 0 { glob_index := glob_index } []
  return if glob_index % 2 = 1 then
      if matched then .negate_no_match else .negate_match
    else if matched then .match else .no_match

end Cruller.Glob
