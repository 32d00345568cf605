import Cruller.Lib.Components

/-!
# Normalizing a path

`normalizeStringGenericTZ` over bytes, with posix separators: one pass over the path that writes
into a buffer, going back in it to the separator before the last name on a double dot. `dotdot` is
how far back it may go. A write or a read outside its slice is `none`.

The branches that only a Windows separator compiles in are left out; without them the volume name
is empty, and reading and writing start at 0 (`buf_start`).
-/

namespace Cruller.Paths

abbrev sep_posix : UInt8 := 0x2F

abbrev dot : UInt8 := 0x2E

abbrev sep_windows : UInt8 := 0x5C

def isSepPosix (char : UInt8) : Bool := char == sep_posix

def isSepWin32 (char : UInt8) : Bool := char == sep_windows

def isSepAny (char : UInt8) : Bool := isSepPosix char || isSepWin32 char

def isDotDot (slice : List UInt8) : Bool := slice.take 2 == [dot, dot]

structure NormalizeOptions where
  allow_above_root : Bool := false
  preserve_trailing_slash : Bool := false
  zero_terminate : Bool := false

/-- `@memcpy(buf[i..][0..src.len], src)` -/
def memcpy (buf : List UInt8) (i : ℕ) (src : List UInt8) : Option (List UInt8) :=
  if i + src.length ≤ buf.length then
    some (buf.take i ++ src ++ buf.drop (i + src.length))
  else none

/-- The state of the loop: read up to `r`, written up to `buf_i`. -/
structure Pass where
  r : ℕ
  buf_i : ℕ
  dotdot : ℕ
  buf : List UInt8

/-- `while (buf_i > dotdot and !isSeparator(buf[buf_i])) buf_i -= 1` -/
def backtrack (buf : List UInt8) (dotdot : ℕ) : ℕ → Option ℕ
  | 0 => some 0
  | i + 1 =>
    if dotdot < i + 1 then
      (buf[i + 1]?).bind fun c => if isSepPosix c then some (i + 1) else backtrack buf dotdot i
    else some (i + 1)

/-- `path[i]` ends the component before it. -/
def endsAt (path : List UInt8) (i : ℕ) : Bool :=
  i == path.length || (path[i]?).any isSepPosix

/-- A `..` element: remove to the last separator. -/
def dotDotElement (options : NormalizeOptions) (s : Pass) : Option Pass :=
  if s.dotdot < s.buf_i then
    (backtrack s.buf s.dotdot (s.buf_i - 1)).map fun i => { s with buf_i := i }
  else if options.allow_above_root then
    if 0 < s.buf_i then
      (memcpy s.buf s.buf_i [sep_posix, dot, dot]).map fun buf =>
        { s with buf, buf_i := s.buf_i + 3, dotdot := s.buf_i + 3 }
    else
      (memcpy s.buf s.buf_i [dot, dot]).map fun buf =>
        { s with buf, buf_i := s.buf_i + 2, dotdot := s.buf_i + 2 }
  else some s

/-- A slash behind what is written, unless one is there. -/
def addSlash (s : Pass) : Option Pass :=
  if s.buf_i = 0 then some s
  else
    (s.buf[s.buf_i - 1]?).bind fun c =>
      if isSepPosix c then some s
      else (memcpy s.buf s.buf_i [sep_posix]).map fun buf => { s with buf, buf_i := s.buf_i + 1 }

/-- A name is copied. -/
def element (path : List UInt8) (s : Pass) : Option Pass :=
  (addSlash s).bind fun s =>
    let name := (path.drop s.r).takeWhile fun c => !isSepPosix c
    (memcpy s.buf s.buf_i name).map fun buf =>
      { s with buf, r := s.r + name.length, buf_i := s.buf_i + name.length }

/-- One turn of the loop. -/
def passStep (options : NormalizeOptions) (path : List UInt8) (s : Pass) : Option Pass :=
  (path[s.r]?).bind fun c =>
    if isSepPosix c then some { s with r := s.r + 1 }
    else if c = dot ∧ endsAt path (s.r + 1) then some { s with r := s.r + 1 }
    else if isDotDot (path.drop s.r) ∧ endsAt path (s.r + 2) then
      dotDotElement options { s with r := s.r + 2 }
    else element path s

/-- `while (r < n)`; every round moves `r`. -/
def pass (options : NormalizeOptions) (path : List UInt8) : ℕ → Pass → Option Pass
  | 0, _ => none
  | n + 1, s =>
    if s.r < path.length then (passStep options path s).bind (pass options path n) else some s

/-- The slash at the end of the path, where it is to be preserved. -/
def trailingSlash (options : NormalizeOptions) (path : List UInt8) (s : Pass) : Option Pass :=
  if options.preserve_trailing_slash ∧ 0 < s.buf_i then
    (path[path.length - 1]?).bind fun last =>
      (s.buf[s.buf_i - 1]?).bind fun c =>
        if last = sep_posix ∧ c ≠ sep_posix then
          (memcpy s.buf s.buf_i [sep_posix]).map fun buf => { s with buf, buf_i := s.buf_i + 1 }
        else some s
  else some s

def zeroTerminate (options : NormalizeOptions) (s : Pass) : Option Pass :=
  if options.zero_terminate then (memcpy s.buf s.buf_i [0]).map fun buf => { s with buf }
  else some s

/-- The result, and the buffer it lies at the front of. -/
def normalizeStringGenericTZ (options : NormalizeOptions) (path buf : List UInt8) :
    Option (List UInt8 × List UInt8) :=
  (pass options path (path.length + 1) ⟨0, 0, 0, buf⟩).bind fun s =>
    (trailingSlash options path s).bind fun s =>
      (zeroTerminate options s).map fun s => (s.buf.take s.buf_i, s.buf)

end Cruller.Paths
