import Mathlib.Tactic

/-!
# Coverage reports

`generateReportFromBlocks` turns the basic blocks and the functions of a file, ranges of byte
offsets that ran or did not, into lines. Without a source map a byte offset's line is its index in
the table of line starts, and with one it is the line that the source map's cursor finds for it; the
rest is the same but for a function that maps to no line, which only the second way passes over.

Bits and slices are checked where they are touched, as in a safe build, and so is a count that
leaves its `u32`: what is out of bounds is `none`.
-/

namespace Cruller.Coverage

/-- The byte offsets that lines start at, no more than an `i32` can number. -/
structure LineStarts where
  offsets : List ℕ
  length_le : offsets.length ≤ 2 ^ 31

/-- A block of the engine, by bytes of the generated source. -/
structure BasicBlockRange where
  startOffset : Int32 := 0
  endOffset : Int32 := 0
  hasExecuted : Bool := false
  executionCount : ℕ := 0

structure Block where
  start_line : ℕ
  end_line : ℕ
  deriving DecidableEq

namespace BasicBlockRange

variable (block : BasicBlockRange)

def executed : Bool := block.hasExecuted || decide (0 < block.executionCount)

def unmapped : Bool := decide (block.endOffset < 0) || decide (block.startOffset < 0)

/-- `for (min..max)` -/
def offsets : List ℕ :=
  let lo := min block.startOffset.toInt.toNat block.endOffset.toInt.toNat
  let hi := max block.startOffset.toInt.toNat block.endOffset.toInt.toNat
  List.range' lo (hi - lo)

end BasicBlockRange

/-- `while (count > 0)`, which `count` rounds are enough for. -/
def findIndexLoop (starts : List ℕ) (loc : ℕ) : ℕ → ℕ → ℕ → Option ℕ
  | 0, _, _ => none
  | n + 1, original_line, count =>
    if count = 0 then none
    else
      let i := original_line + count / 2
      match starts[i]? with
      | none => none
      | some byte_offset =>
        if byte_offset = loc then some i
        else if (starts[i + 1]?).any fun next => byte_offset < loc && loc < next then some i
        else if byte_offset < loc then findIndexLoop starts loc n (i + 1) (count - count / 2 - 1)
        else findIndexLoop starts loc n original_line (count / 2)

/-- `LineOffsetTable.findIndex` -/
def findIndex (starts : List ℕ) (loc : ℕ) : Option ℕ :=
  findIndexLoop starts loc (starts.length + 1) 0 starts.length

/-- A source map, as far as a report asks it: from where its cursor is, the original line of a
generated line and column. -/
structure SourceMap (σ : Type) where
  input_line_count : ℕ
  cursor : σ
  moveTo : σ → ℕ → ℕ → Option Int32 × σ

/-- The line that a generated line and column map to. -/
abbrev Lookup (σ : Type) := σ → ℕ → ℕ → Option ℕ × σ

def generatedLine : Lookup Unit := fun cursor line _ => (some line, cursor)

/-- The line of the original that a place maps to. -/
def originalLine {σ : Type} (parsed_mapping : SourceMap σ) : Lookup σ := fun cursor line column =>
  match parsed_mapping.moveTo cursor line column with
  | (none, cursor) => (none, cursor)
  | (some original, cursor) =>
    if original < 0 then (none, cursor) else (some original.toInt.toNat, cursor)

/-- The line of a byte. -/
def byteLine {σ : Type} (starts : LineStarts) (lookup : Lookup σ) (cursor : σ) (byte_offset : ℕ) :
    Option ℕ × σ :=
  match findIndex starts.offsets byte_offset with
  | none => (none, cursor)
  | some new_line_index =>
    match starts.offsets[new_line_index]? with
    | none => (none, cursor)
    | some line_start_byte_offset =>
      if byte_offset ≤ line_start_byte_offset then (none, cursor)
      else lookup cursor new_line_index (byte_offset - line_start_byte_offset)

/-- A bit is set; the index must be in bounds. -/
def setBit (bits : List Bool) (i : ℕ) (value : Bool) : Option (List Bool) :=
  if i < bits.length then some (bits.set i value) else none

/-- `line_hits_slice[line] += 1` -/
def increment (line_hits : List ℕ) (line : ℕ) : Option (List ℕ) :=
  (line_hits[line]?).bind fun hits =>
    if hits + 1 < 2 ^ 32 then some (line_hits.set line (hits + 1)) else none

/-- What is known of each line. -/
structure Marks where
  executable_lines : List Bool
  lines_which_have_executed : List Bool
  line_hits : List ℕ
  deriving DecidableEq

namespace Marks

def empty (line_count : ℕ) : Marks :=
  ⟨List.replicate line_count false, List.replicate line_count false, List.replicate line_count 0⟩

/-- A block has a byte on the line. -/
def hit (s : Marks) (has_executed : Bool) (line : ℕ) : Option Marks :=
  (setBit s.executable_lines line true).bind fun executable_lines =>
    if has_executed then
      (setBit s.lines_which_have_executed line true).bind fun lines_which_have_executed =>
        (increment s.line_hits line).map fun line_hits =>
          ⟨executable_lines, lines_which_have_executed, line_hits⟩
    else some { s with executable_lines }

/-- The line is one of a function that never ran. -/
def clearLine (s : Marks) (line : ℕ) : Option Marks :=
  (setBit s.executable_lines line true).bind fun executable_lines =>
    (setBit s.lines_which_have_executed line false).bind fun lines_which_have_executed =>
      if line < s.line_hits.length then
        some ⟨executable_lines, lines_which_have_executed, s.line_hits.set line 0⟩
      else none

/-- The lines from `min_line` to before `stop` are executable, and have not executed. The hits are
cleared all at once or with their line. -/
def clear (s : Marks) (min_line stop : ℕ) : Option Marks :=
  if min_line ≤ stop then (List.range' min_line (stop - min_line)).foldlM clearLine s else none

end Marks

def maxInt : ℕ := 2 ^ 32 - 1

/-- A report on its way: `items` are the statements or the functions so far. -/
structure Progress (σ : Type) where
  cursor : σ
  marks : Marks
  items : List Block
  which_have_executed : List Bool

/-- The marks, and the lines that a block reaches. -/
structure Reach (σ : Type) where
  cursor : σ
  marks : Marks
  min_line : ℕ := maxInt
  max_line : ℕ := 0

variable {σ : Type}

section Ranges

variable (starts : LineStarts) (lookup : Lookup σ)

/-- One byte of a block. -/
def blockOffset (has_executed : Bool) (s : Reach σ) (byte_offset : ℕ) : Option (Reach σ) :=
  match byteLine starts lookup s.cursor byte_offset with
  | (none, cursor) => some { s with cursor }
  | (some line, cursor) =>
    (s.marks.hit has_executed line).map fun marks =>
      ⟨cursor, marks, min s.min_line line, max s.max_line line⟩

/-- One block. -/
def blockStep (s : Progress σ) (block : BasicBlockRange × ℕ) : Option (Progress σ) :=
  if block.1.unmapped then some s
  else
    (block.1.offsets.foldlM (blockOffset starts lookup block.1.executed)
        { cursor := s.cursor, marks := s.marks }).bind fun r =>
      if r.min_line = maxInt then some { s with cursor := r.cursor, marks := r.marks }
      else
        (if block.1.executed then setBit s.which_have_executed block.2 true
          else some s.which_have_executed).map fun which_have_executed =>
          ⟨r.cursor, r.marks, s.items ++ [⟨r.min_line, r.max_line⟩], which_have_executed⟩

/-- One byte of a function. -/
def functionOffset (s : Reach σ) (byte_offset : ℕ) : Reach σ :=
  match byteLine starts lookup s.cursor byte_offset with
  | (none, cursor) => { s with cursor }
  | (some line, cursor) =>
    { s with cursor, min_line := min s.min_line line, max_line := max s.max_line line }

/-- `ignore_unmapped`: no sourcemaps? ignore it. -/
def functionStep (line_count : ℕ) (ignore_unmapped : Bool) (s : Progress σ)
    (function : BasicBlockRange × ℕ) : Option (Progress σ) :=
  if function.1.unmapped then some s
  else
    let r := function.1.offsets.foldl (functionOffset starts lookup)
      { cursor := s.cursor, marks := s.marks }
    if ignore_unmapped ∧ r.min_line = maxInt ∧ r.max_line = 0 then
      some { s with cursor := r.cursor }
    else
      -- only mark the lines as executable if the function has not executed
      (if function.1.executed then some s.marks
        else s.marks.clear r.min_line (min r.max_line line_count)).bind fun marks =>
        (if function.1.executed then setBit s.which_have_executed function.2 true
          else some s.which_have_executed).map fun which_have_executed =>
          ⟨r.cursor, marks, s.items ++ [⟨r.min_line, r.max_line⟩], which_have_executed⟩

end Ranges

/-- The coverage of a file. -/
structure Report where
  executable_lines : List Bool
  lines_which_have_executed : List Bool
  line_hits : List ℕ
  functions : List Block
  functions_which_have_executed : List Bool
  stmts : List Block
  stmts_which_have_executed : List Bool
  total_lines : ℕ
  deriving DecidableEq

/-- What the two ways of generating a report share. -/
def report (starts : LineStarts) (lookup : Lookup σ) (cursor : σ) (line_count : ℕ)
    (ignore_unmapped : Bool) (blocks function_blocks : List BasicBlockRange) : Option Report :=
  (blocks.zipIdx.foldlM (blockStep starts lookup)
      ⟨cursor, .empty line_count, [], List.replicate blocks.length false⟩).bind fun s =>
    (function_blocks.zipIdx.foldlM (functionStep starts lookup line_count ignore_unmapped)
        ⟨s.cursor, s.marks, [], List.replicate function_blocks.length false⟩).map fun f =>
      { executable_lines := f.marks.executable_lines
        lines_which_have_executed := f.marks.lines_which_have_executed
        line_hits := f.marks.line_hits
        functions := f.items
        functions_which_have_executed := f.which_have_executed
        stmts := s.items
        stmts_which_have_executed := s.which_have_executed
        total_lines := line_count }

/-- The coverage, in the lines of the source or of what was generated. -/
def generateReportFromBlocks (starts : LineStarts) (source_mapping : Option (SourceMap σ))
    (ignore_sourcemap : Bool) (blocks function_blocks : List BasicBlockRange) : Option Report :=
  match if ignore_sourcemap then none else source_mapping with
  | none =>
    report starts generatedLine () (starts.offsets.length % 2 ^ 32) false blocks function_blocks
  | some parsed_mapping =>
    if parsed_mapping.input_line_count % 2 ^ 32 + 1 < 2 ^ 32 then
      report starts (originalLine parsed_mapping) parsed_mapping.cursor
        (parsed_mapping.input_line_count % 2 ^ 32 + 1) true blocks function_blocks
    else none

end Cruller.Coverage
