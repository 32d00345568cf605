import Cruller.Coverage.Report

/-!
# A report, row by row

All that a report has of a block or a function is whether it ran and which lines its bytes lie on,
in their order (`Row`). The rows can be read off first (`rowsOf`), and then the report is made of
them: the lines are marked for the hits of the blocks, one after the other, and for the functions
that did not run; the statements and the functions are the rows that are kept; and the flags are
those of all the rows, kept or not (`report_eq`).
-/

namespace Cruller.Coverage

open List Option

variable {σ : Type}

/-- A block, by the lines it has. -/
structure Row where
  executed : Bool
  unmapped : Bool
  lines : List ℕ

namespace Row

def first (row : Row) : ℕ := row.lines.foldl min maxInt

def last (row : Row) : ℕ := row.lines.foldl max 0

def block (row : Row) : Block := ⟨row.first, row.last⟩

def isStmt (row : Row) : Bool := !row.lines.isEmpty

def isFunction (ignore_unmapped : Bool) (row : Row) : Bool :=
  !row.unmapped && !(ignore_unmapped && row.lines.isEmpty)

def hits (row : Row) : List (Bool × ℕ) := row.lines.map fun line => (row.executed, line)

end Row

section Ranges

variable (starts : LineStarts) (lookup : Lookup σ)

/-- The lines of some bytes. -/
def linesOf : σ → List ℕ → List ℕ × σ
  | cursor, [] => ([], cursor)
  | cursor, byte_offset :: offsets =>
    let (line, cursor) := byteLine starts lookup cursor byte_offset
    let (lines, cursor) := linesOf cursor offsets
    (line.toList ++ lines, cursor)

/-- The row of a block. -/
def rowOf (cursor : σ) (block : BasicBlockRange) : Row × σ :=
  if block.unmapped then (⟨block.executed, true, []⟩, cursor)
  else
    let (lines, cursor) := linesOf starts lookup cursor block.offsets
    (⟨block.executed, false, lines⟩, cursor)

/-- The rows of the blocks, one after the other with the cursor between them. -/
def rowsOf : σ → List BasicBlockRange → List Row × σ
  | cursor, [] => ([], cursor)
  | cursor, block :: blocks =>
    let (row, cursor) := rowOf starts lookup cursor block
    let (rows, cursor) := rowsOf cursor blocks
    (row :: rows, cursor)

/-- The lines that are found are below the bound. -/
def Lookup.Within (bound : ℕ) : Prop := ∀ cursor i column line, i < starts.offsets.length →
  (lookup cursor i column).1 = some line → line < bound

end Ranges

theorem generatedLine_within (starts : LineStarts) :
    generatedLine.Within starts starts.offsets.length := by
  intro cursor i column line hi hln
  obtain rfl : i = line := some.inj hln
  exact hi

theorem originalLine_within (starts : LineStarts) (parsed_mapping : SourceMap σ) :
    (originalLine parsed_mapping).Within starts maxInt := by
  intro cursor i column line _ hln
  rw [originalLine] at hln
  split at hln
  · cases hln
  · split_ifs at hln
    rename_i original _ _ _
    obtain rfl := some.inj hln
    have := original.toInt_lt
    simp only [maxInt]
    omega

section Within

variable {starts : LineStarts} {lookup : Lookup σ} {bound : ℕ}

theorem byteLine_lt (h : lookup.Within starts bound) {cursor : σ} {byte_offset line : ℕ}
    (hln : (byteLine starts lookup cursor byte_offset).1 = some line) : line < bound := by
  rw [byteLine] at hln
  split at hln
  · cases hln
  · split at hln
    · cases hln
    · rename_i hget
      split_ifs at hln
      exact h _ _ _ _ (List.getElem?_eq_some_iff.1 hget).1 hln

theorem linesOf_lt (h : lookup.Within starts bound) : ∀ {offsets : List ℕ} {cursor : σ},
    ∀ line ∈ (linesOf starts lookup cursor offsets).1, line < bound
  | [], _, line, hln => by cases hln
  | byte_offset :: offsets, cursor, line, hln => by
    rw [linesOf] at hln
    rcases mem_append.1 hln with hln | hln
    · exact byteLine_lt h (mem_toList.1 hln)
    · exact linesOf_lt h line hln

theorem rowOf_lt (h : lookup.Within starts bound) {cursor : σ} {block : BasicBlockRange} :
    ∀ line ∈ (rowOf starts lookup cursor block).1.lines, line < bound := by
  rw [rowOf]
  split_ifs
  · simp
  · exact linesOf_lt h

end Within

theorem foldl_min_le {lines : List ℕ} : ∀ {a : ℕ}, lines.foldl min a ≤ a ∧
    ∀ line ∈ lines, lines.foldl min a ≤ line := by
  induction lines with
  | nil => simp
  | cons l lines ih =>
    intro a
    obtain ⟨ha, hmem⟩ := ih (a := min a l)
    refine ⟨ha.trans (min_le_left _ _), fun line hln => ?_⟩
    rcases mem_cons.1 hln with rfl | hln
    · exact ha.trans (min_le_right _ _)
    · exact hmem line hln

theorem Row.first_eq_maxInt {row : Row} (h : ∀ line ∈ row.lines, line < maxInt) :
    row.first = maxInt ↔ row.lines = [] := by
  refine ⟨fun hfr => ?_, fun hnil => by rw [first, hnil]; rfl⟩
  rcases hl : row.lines with _ | ⟨l, lines⟩
  · rfl
  · have hle := (@foldl_min_le row.lines maxInt).2 l (by simp [hl])
    have hlt := h l (by simp [hl])
    rw [first] at hfr
    omega

section Ranges

variable {starts : LineStarts} {lookup : Lookup σ}

def Marks.hitAll (hits : List (Bool × ℕ)) (s : Marks) : Option Marks :=
  hits.foldlM (fun s e => s.hit e.1 e.2) s

theorem hitAll_append (hits hits' : List (Bool × ℕ)) (s : Marks) :
    s.hitAll (hits ++ hits') = (s.hitAll hits).bind (Marks.hitAll hits') :=
  foldlM_append

theorem foldlM_blockOffset (has_executed : Bool) : ∀ (offsets : List ℕ) (s : Reach σ),
    offsets.foldlM (blockOffset starts lookup has_executed) s =
      (s.marks.hitAll ((linesOf starts lookup s.cursor offsets).1.map fun line =>
        (has_executed, line))).map fun marks =>
        ⟨(linesOf starts lookup s.cursor offsets).2, marks,
          (linesOf starts lookup s.cursor offsets).1.foldl min s.min_line,
          (linesOf starts lookup s.cursor offsets).1.foldl max s.max_line⟩
  | [], s => rfl
  | byte_offset :: offsets, s => by
    rw [foldlM_cons, blockOffset]
    rcases hln : byteLine starts lookup s.cursor byte_offset with ⟨_ | line, cursor⟩
    · simpa [linesOf, hln] using foldlM_blockOffset has_executed offsets { s with cursor }
    · simp only [linesOf, hln, toList_some, singleton_append, map_cons,
        Marks.hitAll, foldlM_cons, foldl_cons]
      rcases s.marks.hit has_executed line with _ | marks
      · rfl
      · exact foldlM_blockOffset has_executed offsets
          ⟨cursor, marks, min s.min_line line, max s.max_line line⟩

theorem foldl_functionOffset : ∀ (offsets : List ℕ) (s : Reach σ),
    offsets.foldl (functionOffset starts lookup) s =
      ⟨(linesOf starts lookup s.cursor offsets).2, s.marks,
        (linesOf starts lookup s.cursor offsets).1.foldl min s.min_line,
        (linesOf starts lookup s.cursor offsets).1.foldl max s.max_line⟩
  | [], s => rfl
  | byte_offset :: offsets, s => by
    rw [foldl_cons, foldl_functionOffset offsets, functionOffset]
    rcases hln : byteLine starts lookup s.cursor byte_offset with ⟨_ | line, cursor⟩
    · simp [linesOf, hln]
    · simp [linesOf, hln]

/-- The flags that are set, from the `k`-th bit on. -/
def setFrom (bits : List Bool) : ℕ → List Bool → List Bool
  | _, [] => bits
  | k, flag :: flags => setFrom (if flag then bits.set k true else bits) (k + 1) flags

theorem setFrom_eq : ∀ (flags front : List Bool),
    setFrom (front ++ List.replicate flags.length false) front.length flags = front ++ flags
  | [], front => by simp [setFrom]
  | flag :: flags, front => by
    have hset : (if flag then
        (front ++ List.replicate (flags.length + 1) false).set front.length true
        else front ++ List.replicate (flags.length + 1) false) =
        (front ++ [flag]) ++ List.replicate flags.length false := by
      cases flag <;> simp [replicate_succ]
    have ih := setFrom_eq flags (front ++ [flag])
    rw [length_append, length_singleton] at ih
    rw [length_cons, setFrom, hset, ih]
    simp

/-- A step over a block is its row, marked: a statement where the row is one. -/
theorem blockStep_eq (h : lookup.Within starts maxInt) (s : Progress σ) (block : BasicBlockRange)
    {k : ℕ} (hk : k < s.which_have_executed.length) {row : Row} {cursor : σ}
    (hrow : rowOf starts lookup s.cursor block = (row, cursor)) :
    blockStep starts lookup s (block, k) = (s.marks.hitAll row.hits).map fun marks =>
      ⟨cursor, marks, s.items ++ if row.isStmt then [row.block] else [],
        if row.isStmt && row.executed then s.which_have_executed.set k true
        else s.which_have_executed⟩ := by
  have hlt : ∀ line ∈ row.lines, line < maxInt := by
    have := @rowOf_lt σ starts lookup maxInt h s.cursor block
    rwa [hrow] at this
  rw [rowOf] at hrow
  rw [blockStep]
  by_cases hun : block.unmapped = true
  · rw [if_pos hun] at hrow ⊢
    obtain ⟨rfl, rfl⟩ := Prod.mk.inj hrow
    simp [Row.hits, Row.isStmt, Marks.hitAll]
  · rw [if_neg hun] at hrow ⊢
    obtain ⟨rfl, rfl⟩ := Prod.mk.inj hrow
    rw [foldlM_blockOffset]
    dsimp only [Row.hits]
    rcases Marks.hitAll _ s.marks with _ | marks
    · rfl
    · rw [map_some, map_some, bind_some]
      have hfr := Row.first_eq_maxInt hlt
      simp only [Row.first] at hfr
      simp only [hfr, Row.isStmt, Row.block, Row.first, Row.last]
      by_cases hnil : (linesOf starts lookup s.cursor block.offsets).1 = []
      · simp [hnil]
      · by_cases hec : block.executed = true
        · simp [hnil, hec, setBit, hk]
        · simp [hnil, hec]

/-- The loop over the blocks does with the bytes what the rows say. -/
theorem blockSteps_eq (h : lookup.Within starts maxInt) :
    ∀ (blocks : List BasicBlockRange) (s : Progress σ) (k : ℕ),
    k + blocks.length ≤ s.which_have_executed.length → ∀ {rows : List Row} {cursor : σ},
    rowsOf starts lookup s.cursor blocks = (rows, cursor) →
    (blocks.zipIdx k).foldlM (blockStep starts lookup) s =
      (s.marks.hitAll (rows.flatMap Row.hits)).map fun marks =>
        ⟨cursor, marks, s.items ++ (rows.filter Row.isStmt).map Row.block,
          setFrom s.which_have_executed k (rows.map fun row => row.isStmt && row.executed)⟩
  | [], s, k, _, rows, cursor, hrw => by
    obtain ⟨rfl, rfl⟩ := Prod.mk.inj hrw
    simp [Marks.hitAll, setFrom]
  | block :: blocks, s, k, hk, rows, cursor, hrw => by
    rcases hrow : rowOf starts lookup s.cursor block with ⟨row, cursor₁⟩
    rcases hrs : rowsOf starts lookup cursor₁ blocks with ⟨rest, cursor₂⟩
    rw [rowsOf, hrow] at hrw
    dsimp only at hrw
    rw [hrs] at hrw
    obtain ⟨rfl, rfl⟩ := Prod.mk.inj hrw
    rw [length_cons] at hk
    rw [zipIdx_cons, foldlM_cons, blockStep_eq h s block (by omega) hrow,
      flatMap_cons, hitAll_append]
    rcases s.marks.hitAll row.hits with _ | marks
    · rfl
    · rw [map_some, bind_some]
      refine (blockSteps_eq h blocks _ (k + 1) ?_ hrs).trans ?_
      · dsimp only
        split_ifs
        · rw [length_set]
          omega
        · omega
      · congr 1
        funext marks
        rw [map_cons, setFrom, List.filter_cons]
        split_ifs <;> simp

def Marks.function (line_count : ℕ) (ignore_unmapped : Bool) (s : Marks) (row : Row) :
    Option Marks :=
  if row.isFunction ignore_unmapped && !row.executed then
    s.clear row.first (min row.last line_count)
  else some s

/-- A step over a function is its row, marked: a function where the row is one. -/
theorem functionStep_eq (h : lookup.Within starts maxInt) (line_count : ℕ) (ignore_unmapped : Bool)
    (s : Progress σ) (function : BasicBlockRange) {k : ℕ} (hk : k < s.which_have_executed.length)
    {row : Row} {cursor : σ} (hrow : rowOf starts lookup s.cursor function = (row, cursor)) :
    functionStep starts lookup line_count ignore_unmapped s (function, k) =
      (s.marks.function line_count ignore_unmapped row).map fun marks =>
        ⟨cursor, marks, s.items ++ if row.isFunction ignore_unmapped then [row.block] else [],
          if row.isFunction ignore_unmapped && row.executed then
            s.which_have_executed.set k true
          else s.which_have_executed⟩ := by
  have hlt : ∀ line ∈ row.lines, line < maxInt := by
    have := @rowOf_lt σ starts lookup maxInt h s.cursor function
    rwa [hrow] at this
  rw [rowOf] at hrow
  rw [functionStep]
  by_cases hun : function.unmapped = true
  · rw [if_pos hun] at hrow ⊢
    obtain ⟨rfl, rfl⟩ := Prod.mk.inj hrow
    simp [Row.isFunction, Marks.function]
  · rw [if_neg hun] at hrow ⊢
    obtain ⟨rfl, rfl⟩ := Prod.mk.inj hrow
    rw [foldl_functionOffset]
    dsimp only
    have hfr := Row.first_eq_maxInt hlt
    simp only [Row.first] at hfr
    have hno : ((linesOf starts lookup s.cursor function.offsets).1.foldl min maxInt = maxInt ∧
        (linesOf starts lookup s.cursor function.offsets).1.foldl max 0 = 0) ↔
        (linesOf starts lookup s.cursor function.offsets).1 = [] := by
      rw [hfr]
      exact ⟨fun h => h.1, fun h => ⟨h, by rw [h]; rfl⟩⟩
    simp only [hno, Marks.function, Row.isFunction, Row.block, Row.first, Row.last]
    by_cases hsk : ignore_unmapped = true ∧
        (linesOf starts lookup s.cursor function.offsets).1 = []
    · simp [hsk]
    · have hkp : (ignore_unmapped &&
          (linesOf starts lookup s.cursor function.offsets).1.isEmpty) = false := by
        rw [Bool.eq_false_iff]
        simpa using hsk
      simp only [if_neg hsk, hkp]
      by_cases hec : function.executed = true
      · simp [hec, setBit, hk]
      · simp only [hec, Bool.false_eq_true, if_false, Bool.not_false, Bool.and_self, if_true,
          map_some, Bool.and_false]
        rcases s.marks.clear _ _ with _ | marks <;> rfl

/-- The loop over the functions does too. -/
theorem functionSteps_eq (h : lookup.Within starts maxInt) (line_count : ℕ)
    (ignore_unmapped : Bool) : ∀ (functions : List BasicBlockRange) (s : Progress σ) (k : ℕ),
    k + functions.length ≤ s.which_have_executed.length → ∀ {rows : List Row} {cursor : σ},
    rowsOf starts lookup s.cursor functions = (rows, cursor) →
    (functions.zipIdx k).foldlM (functionStep starts lookup line_count ignore_unmapped) s =
      (rows.foldlM (Marks.function line_count ignore_unmapped) s.marks).map fun marks =>
        ⟨cursor, marks,
          s.items ++ (rows.filter (Row.isFunction ignore_unmapped)).map Row.block,
          setFrom s.which_have_executed k
            (rows.map fun row => row.isFunction ignore_unmapped && row.executed)⟩
  | [], s, k, _, rows, cursor, hrw => by
    obtain ⟨rfl, rfl⟩ := Prod.mk.inj hrw
    simp [setFrom]
  | function :: functions, s, k, hk, rows, cursor, hrw => by
    rcases hrow : rowOf starts lookup s.cursor function with ⟨row, cursor₁⟩
    rcases hrs : rowsOf starts lookup cursor₁ functions with ⟨rest, cursor₂⟩
    rw [rowsOf, hrow] at hrw
    dsimp only at hrw
    rw [hrs] at hrw
    obtain ⟨rfl, rfl⟩ := Prod.mk.inj hrw
    rw [length_cons] at hk
    rw [zipIdx_cons, foldlM_cons,
      functionStep_eq h line_count ignore_unmapped s function (by omega) hrow, foldlM_cons]
    rcases s.marks.function line_count ignore_unmapped row with _ | marks
    · rfl
    · rw [map_some]
      refine (functionSteps_eq h line_count ignore_unmapped functions _ (k + 1) ?_ hrs).trans ?_
      · dsimp only
        split_ifs
        · rw [length_set]
          omega
        · omega
      · congr 1
        funext marks
        rw [map_cons, setFrom, List.filter_cons]
        split_ifs <;> simp

end Ranges

/-- All blocks of a file, by their lines. -/
structure Rows where
  line_count : ℕ
  ignore_unmapped : Bool
  blocks : List Row
  functions : List Row

namespace Rows

variable (rows : Rows)

def marks : Option Marks :=
  ((Marks.empty rows.line_count).hitAll (rows.blocks.flatMap Row.hits)).bind fun marks =>
    rows.functions.foldlM (Marks.function rows.line_count rows.ignore_unmapped) marks

/-- The report that the rows make. -/
def report : Option Report :=
  rows.marks.map fun marks =>
    { executable_lines := marks.executable_lines
      lines_which_have_executed := marks.lines_which_have_executed
      line_hits := marks.line_hits
      functions := (rows.functions.filter (Row.isFunction rows.ignore_unmapped)).map Row.block
      functions_which_have_executed :=
        rows.functions.map fun row => row.isFunction rows.ignore_unmapped && row.executed
      stmts := (rows.blocks.filter Row.isStmt).map Row.block
      stmts_which_have_executed := rows.blocks.map fun row => row.isStmt && row.executed
      total_lines := rows.line_count }

end Rows

theorem length_rowsOf (starts : LineStarts) (lookup : Lookup σ) :
    ∀ (blocks : List BasicBlockRange) (cursor : σ),
      (rowsOf starts lookup cursor blocks).1.length = blocks.length
  | [], _ => rfl
  | block :: blocks, cursor => by
    rw [rowsOf]
    exact congrArg (· + 1) (length_rowsOf starts lookup blocks _)

def rowsFrom (starts : LineStarts) (lookup : Lookup σ) (cursor : σ) (line_count : ℕ)
    (ignore_unmapped : Bool) (blocks function_blocks : List BasicBlockRange) : Rows :=
  let (rows, cursor) := rowsOf starts lookup cursor blocks
  ⟨line_count, ignore_unmapped, rows, (rowsOf starts lookup cursor function_blocks).1⟩

/-- The report is made of the rows. -/
theorem report_eq {starts : LineStarts} {lookup : Lookup σ} (h : lookup.Within starts maxInt)
    (cursor : σ) (line_count : ℕ) (ignore_unmapped : Bool)
    (blocks function_blocks : List BasicBlockRange) :
    report starts lookup cursor line_count ignore_unmapped blocks function_blocks =
      (rowsFrom starts lookup cursor line_count ignore_unmapped blocks function_blocks).report := by
  rcases hrw : rowsOf starts lookup cursor blocks with ⟨rows, cursor₁⟩
  rcases hfn : rowsOf starts lookup cursor₁ function_blocks with ⟨functions, cursor₂⟩
  have hlen : rows.length = blocks.length := by
    rw [← length_rowsOf starts lookup blocks cursor, hrw]
  have hlen' : functions.length = function_blocks.length := by
    rw [← length_rowsOf starts lookup function_blocks cursor₁, hfn]
  have hset : ∀ (flag : Row → Bool) (rows : List Row) (n : ℕ), rows.length = n →
      setFrom (List.replicate n false) 0 (rows.map flag) = rows.map flag := by
    rintro flag rows n rfl
    simpa using setFrom_eq (rows.map flag) []
  rw [report, blockSteps_eq h blocks ⟨cursor, .empty line_count, [], _⟩ 0 (by simp) hrw,
    rowsFrom, hrw]
  dsimp only
  rw [hfn, Rows.report, Rows.marks]
  rcases (Marks.empty line_count).hitAll (rows.flatMap Row.hits) with _ | marks
  · rfl
  · simp only [map_some, bind_some]
    rw [functionSteps_eq h line_count ignore_unmapped function_blocks ⟨cursor₁, marks, [], _⟩ 0
      (by simp) hfn]
    dsimp only
    rcases functions.foldlM (Marks.function line_count ignore_unmapped) marks with _ | marks'
    · rfl
    · simp [hset _ _ _ hlen, hset _ _ _ hlen']

/-- The rows that `generateReportFromBlocks` makes its report of. -/
def rowsFor (starts : LineStarts) (source_mapping : Option (SourceMap σ)) (ignore_sourcemap : Bool)
    (blocks function_blocks : List BasicBlockRange) : Rows :=
  match if ignore_sourcemap then none else source_mapping with
  | none =>
    rowsFrom starts generatedLine () (starts.offsets.length % 2 ^ 32) false blocks function_blocks
  | some parsed_mapping =>
    rowsFrom starts (originalLine parsed_mapping) parsed_mapping.cursor
      (parsed_mapping.input_line_count % 2 ^ 32 + 1) true blocks function_blocks

theorem generateReportFromBlocks_eq (starts : LineStarts) (source_mapping : Option (SourceMap σ))
    (ignore_sourcemap : Bool) (blocks function_blocks : List BasicBlockRange) :
    generateReportFromBlocks starts source_mapping ignore_sourcemap blocks function_blocks =
      if (rowsFor starts source_mapping ignore_sourcemap blocks function_blocks).line_count < 2 ^ 32
      then (rowsFor starts source_mapping ignore_sourcemap blocks function_blocks).report
      else none := by
  rw [generateReportFromBlocks, rowsFor]
  rcases if ignore_sourcemap then none else source_mapping with _ | parsed_mapping
  · have hwt : generatedLine.Within starts maxInt := by
      intro cursor i column line hi hln
      have hle := starts.length_le
      have hlt := generatedLine_within starts cursor i column line hi hln
      simp only [maxInt]
      omega
    exact (report_eq hwt _ _ _ _ _).trans (if_pos (Nat.mod_lt _ (by decide))).symm
  · exact congrArg (fun r => if parsed_mapping.input_line_count % 2 ^ 32 + 1 < 2 ^ 32 then r
      else none) (report_eq (originalLine_within starts parsed_mapping) _ _ _ _ _)

end Cruller.Coverage
