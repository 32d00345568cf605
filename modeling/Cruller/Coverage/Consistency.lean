import Cruller.Coverage.Rows

/-!
# Consistent reports

What the loops leave is said line by line: a line is executable when a block maps to it or a
function that did not run clears it, it has executed when a block that ran maps to it and no
function clears it, and its hits are the bytes of the blocks that ran (`marks_eq_some`). So a report
always has its executed lines among the executable ones, and hits on just those. What else it should
be depends on its rows: on the last line of a function, which is not among those that are cleared,
and on the rows that are passed over, as the flags are not (`generateReportFromBlocks_iff`).
-/

namespace Cruller.Coverage

open List Option

section Flags

variable {α : Type} {keep executed : α → Bool}

theorem exists_getElem?_filter : ∀ {rows : List α} {k : ℕ} {row : α}, rows[k]? = some row →
    keep row = true → ∃ i ≤ k, (rows.filter keep)[i]? = some row
  | [], _, _, hrow, _ => by cases hrow
  | first :: rows, 0, row, hrow, hkp => by
    obtain rfl : first = row := some.inj hrow
    exact ⟨0, le_rfl, by rw [filter_cons_of_pos hkp]; rfl⟩
  | first :: rows, k + 1, row, hrow, hkp => by
    obtain ⟨i, hi, hget⟩ := @exists_getElem?_filter rows k row hrow hkp
    by_cases hfr : keep first = true
    · exact ⟨i + 1, by omega, by rw [filter_cons_of_pos hfr]; exact hget⟩
    · exact ⟨i, by omega, by rw [filter_cons_of_neg hfr]; exact hget⟩

/-- Once the flags are behind what is kept, a flag that is set for one that is kept belongs to one
that is kept before it. -/
theorem executed_eq_false {rows : List α}
    (h : ∀ (i : ℕ) (row : α), (rows.filter keep)[i]? = some row →
      (false :: rows.map fun row => keep row && executed row)[i]? = some (executed row)) (i : ℕ) :
    ∀ row, (rows.filter keep)[i]? = some row → executed row = false := by
  induction i using Nat.strong_induction_on with
  | _ i ih =>
    intro row hrow
    by_contra hec
    have hfl := h i row hrow
    rw [Bool.not_eq_false] at hec
    rw [hec] at hfl
    cases i with
    | zero => simp at hfl
    | succ k =>
      rw [getElem?_cons_succ, getElem?_map] at hfl
      obtain ⟨row', hrow', hset⟩ := map_eq_some_iff.1 hfl
      rw [Bool.and_eq_true] at hset
      obtain ⟨j, hj, hkp⟩ := exists_getElem?_filter hrow' hset.1
      have := ih j (by omega) row' hkp
      rw [hset.2] at this
      cases this

/-- The flags of all the rows are those of the rows that are kept, when no row that is kept and ran
comes after one that is passed over. -/
theorem flags_iff : ∀ {rows : List α},
    (∀ (i : ℕ) (row : α), (rows.filter keep)[i]? = some row →
      (rows.map fun row => keep row && executed row)[i]? = some (executed row)) ↔
    rows.Pairwise fun before row => keep row = true → executed row = true → keep before = true
  | [] => by simp
  | first :: rows => by
    rw [pairwise_cons, map_cons]
    by_cases hfr : keep first = true
    · rw [filter_cons_of_pos hfr, ← flags_iff]
      refine ⟨fun h => ⟨fun _ _ _ _ => hfr, fun i row hrow => ?_⟩, fun h i row hrow => ?_⟩
      · exact h (i + 1) row hrow
      · cases i with
        | zero =>
          obtain rfl : first = row := some.inj hrow
          simp [hfr]
        | succ i => exact h.2 i row hrow
    · rw [filter_cons_of_neg hfr]
      simp only [hfr, Bool.false_and, Bool.false_eq_true, imp_false]
      have hno : (∀ row ∈ rows, keep row = true → ¬executed row = true) →
          (rows.map fun row => keep row && executed row) = List.replicate rows.length false := by
        intro h
        refine eq_replicate_iff.2 ⟨length_map _, fun flag hfl => ?_⟩
        obtain ⟨row, hrow, rfl⟩ := List.mem_map.1 hfl
        by_cases hkp : keep row = true
        · simp [h row hrow hkp]
        · simp [hkp]
      constructor
      · intro h
        have hrw : ∀ row ∈ rows, keep row = true → ¬executed row = true := by
          intro row hrow hkp
          obtain ⟨i, hi⟩ := getElem?_of_mem (mem_filter.2 ⟨hrow, hkp⟩)
          rw [executed_eq_false h i row hi]
          exact Bool.false_ne_true
        refine ⟨hrw, pairwise_of_forall_mem_list fun before _ row hrow hkp hec => ?_⟩
        exact absurd hec (hrw row hrow hkp)
      · rintro ⟨h, -⟩ i row hrow
        obtain ⟨hmem, hkp⟩ := mem_filter.1 (mem_of_getElem? hrow)
        have hlen := (List.getElem?_eq_some_iff.1 hrow).1.trans_le (length_filter_le _ _)
        rw [hno h, ← replicate_succ, getElem?_replicate, if_pos (by omega),
          Bool.eq_false_iff.2 (h row hmem hkp)]

end Flags

namespace Marks

/-- The bits and counts that these predicates say. -/
def ofLines (line_count : ℕ) (executable executed : ℕ → Bool) (hits : ℕ → ℕ) : Marks :=
  ⟨(List.range line_count).map executable, (List.range line_count).map executed,
    (List.range line_count).map hits⟩

/-- The marks that are left once some lines are cleared. -/
def clearedOf (line_count : ℕ) (executable executed : ℕ → Bool) (hits : ℕ → ℕ)
    (clears : ℕ → Bool) : Marks :=
  ofLines line_count (fun l => executable l || clears l) (fun l => executed l && !clears l)
    fun l => if clears l then 0 else hits l

theorem empty_eq (n : ℕ) :
    Marks.empty n = ofLines n (fun _ => false) (fun _ => false) fun _ => 0 := by
  simp [Marks.empty, ofLines]

section Lines

variable {n : ℕ} {f g : ℕ → Bool} {h : ℕ → ℕ}

theorem set_map {β : Type} (f : ℕ → β) (i : ℕ) (a : β) :
    ((List.range n).map f).set i a = (List.range n).map fun l => if i = l then a else f l := by
  refine ext_getElem (by simp) fun l _ _ => ?_
  simp [getElem_set]

theorem setBit_map (i : ℕ) (value : Bool) : setBit ((List.range n).map f) i value =
    if i < n then some ((List.range n).map fun l => if i = l then value else f l) else none := by
  rw [setBit, set_map]
  simp

theorem increment_map (i : ℕ) : increment ((List.range n).map h) i =
    if i < n ∧ h i + 1 < 2 ^ 32 then
      some ((List.range n).map fun l => h l + if i = l then 1 else 0)
    else none := by
  rw [increment]
  by_cases hi : i < n
  · rw [getElem?_map, List.getElem?_range hi, map_some, bind_some, set_map]
    have hset : (fun l => if i = l then h i + 1 else h l) =
        fun l => h l + if i = l then 1 else 0 := by
      funext l
      split_ifs with hl
      · rw [hl]
      · rfl
    simp only [hi, true_and, hset]
  · rw [getElem?_eq_none (by simpa using hi), if_neg fun h => hi h.1]
    rfl

theorem hit_eq_some {e : Bool × ℕ} {s : Marks} : (ofLines n f g h).hit e.1 e.2 = some s ↔
    e.2 < n ∧ (e.1 = true → h e.2 + 1 < 2 ^ 32) ∧
      s = ofLines n (fun l => f l || e.2 == l) (fun l => g l || e == (true, l))
        fun l => h l + if e == (true, l) then 1 else 0 := by
  obtain ⟨has_executed, line⟩ := e
  have hor (f : ℕ → Bool) : (fun l => if line = l then true else f l) =
      fun l => f l || line == l := by
    funext l
    by_cases hl : line = l <;> simp [hl]
  have hpr (l : ℕ) : ((has_executed, line) == (true, l)) = (has_executed && line == l) := by
    cases has_executed <;> rfl
  simp only [hit, ofLines, setBit_map, increment_map, hor, hpr]
  generalize 2 ^ 32 = limit
  by_cases hln : line < n
  · cases has_executed
    · simp [hln, eq_comm]
    · by_cases hcn : h line + 1 < limit
      · simpa [hln, hcn] using eq_comm
      · simp [hln, hcn]
  · simp [hln]

/-- A row's hits mark their lines and add to the counts, unless one is beyond the file or a count
overflows. -/
theorem hitAll_eq_some {hits : List (Bool × ℕ)} {s : Marks} (hh : ∀ l, h l < 2 ^ 32) :
    (ofLines n f g h).hitAll hits = some s ↔
      (∀ e ∈ hits, e.2 < n) ∧ (∀ l, h l + hits.count (true, l) < 2 ^ 32) ∧
        s = ofLines n (fun l => f l || hits.any (·.2 == l))
          (fun l => g l || hits.any (· == (true, l))) fun l => h l + hits.count (true, l) := by
  induction hits generalizing f g h with
  | nil =>
    generalize 2 ^ 32 = limit at hh
    simp [hitAll, hh, eq_comm]
  | cons e hits ih =>
    have hcn (l : ℕ) : (h l + if e == (true, l) then 1 else 0) + hits.count (true, l) =
        h l + (e :: hits).count (true, l) := by
      rw [count_cons]
      omega
    rw [hitAll, foldlM_cons, bind_eq_bind, bind_eq_some_iff]
    simp only [hit_eq_some, and_assoc, exists_and_left, exists_eq_left, forall_mem_cons,
      any_cons, ← Bool.or_assoc]
    refine and_congr_right fun hli => ?_
    constructor
    · rintro ⟨hsm, hs⟩
      have hh' : ∀ l, (h l + if e == (true, l) then 1 else 0) < 2 ^ 32 := by
        intro l
        split_ifs with he
        · rw [beq_iff_eq] at he
          subst he
          exact hsm rfl
        · exact hh l
      have := (ih hh').1 hs
      simpa only [hcn] using this
    · rintro ⟨hln, hct, hs⟩
      have hh' : ∀ l, (h l + if e == (true, l) then 1 else 0) < 2 ^ 32 := by
        intro l
        have := hct l
        rw [← hcn] at this
        omega
      refine ⟨fun he => ?_, (ih hh').2 ⟨hln, ?_, ?_⟩⟩
      · have heq : e = (true, e.2) := Prod.ext he rfl
        have := hh' e.2
        rwa [if_pos (beq_iff_eq.2 heq)] at this
      · simpa only [hcn] using hct
      · simpa only [hcn] using hs

theorem clearLine_eq {line : ℕ} (hln : line < n) : (ofLines n f g h).clearLine line =
    some (clearedOf n f g h fun l => line == l) := by
  simp only [clearLine, clearedOf, ofLines, setBit_map, hln, if_true, bind_some,
    length_map, length_range, set_map]
  congr 2 <;> refine map_congr_left fun l _ => ?_ <;> by_cases hl : line = l <;> simp [hl]

theorem clearedOf_none : clearedOf n f g h (fun _ => false) = ofLines n f g h := by
  simp [clearedOf]

theorem clearedOf_clearedOf (c d : ℕ → Bool) :
    clearedOf n (fun l => f l || c l) (fun l => g l && !c l) (fun l => if c l then 0 else h l) d =
      clearedOf n f g h fun l => c l || d l := by
  simp only [clearedOf, ofLines]
  congr 2 <;> funext l <;> by_cases hc : c l = true <;> by_cases hd : d l = true <;> simp [hc, hd]

theorem clear_eq {min_line stop : ℕ} (hmin : min_line ≤ stop) (hst : stop ≤ n) :
    (ofLines n f g h).clear min_line stop =
      some (clearedOf n f g h fun l => decide (min_line ≤ l ∧ l < stop)) := by
  obtain ⟨k, rfl⟩ := Nat.exists_eq_add_of_le hmin
  rw [clear, if_pos hmin, Nat.add_sub_cancel_left]
  clear hmin
  induction k generalizing min_line f g h with
  | zero =>
    have hno : (fun l => decide (min_line ≤ l ∧ l < min_line + 0)) = fun _ => false := by
      funext l
      rw [decide_eq_false_iff_not]
      omega
    rw [hno, clearedOf_none]
    rfl
  | succ k ih =>
    rw [range'_succ, foldlM_cons, clearLine_eq (by omega)]
    refine (ih (by omega)).trans ?_
    rw [clearedOf_clearedOf]
    congr 2
    funext l
    rw [Bool.eq_iff_iff]
    simp only [Bool.or_eq_true, beq_iff_eq, decide_eq_true_eq]
    omega

end Lines

end Marks

/-- The function never ran, so its lines did not. -/
def Row.clears (line_count : ℕ) (ignore_unmapped : Bool) (row : Row) (line : ℕ) : Bool :=
  row.isFunction ignore_unmapped && !row.executed &&
    decide (row.first ≤ line ∧ line < min row.last line_count)

namespace Marks

variable {n : ℕ} {f g : ℕ → Bool} {h : ℕ → ℕ} {ignore_unmapped : Bool}

theorem function_eq_some {row : Row} {s : Marks} :
    (ofLines n f g h).function n ignore_unmapped row = some s ↔
      (row.isFunction ignore_unmapped = true → row.executed = false →
        row.first ≤ min row.last n) ∧
      s = clearedOf n f g h (row.clears n ignore_unmapped) := by
  rw [Marks.function]
  by_cases hrow : (row.isFunction ignore_unmapped && !row.executed) = true
  · rw [if_pos hrow]
    have hkp := hrow
    rw [Bool.and_eq_true, Bool.not_eq_true'] at hkp
    by_cases hmin : row.first ≤ min row.last n
    · have hcl : row.clears n ignore_unmapped =
          fun l => decide (row.first ≤ l ∧ l < min row.last n) := by
        funext l
        rw [Row.clears, hrow, Bool.true_and]
      rw [clear_eq hmin (min_le_right _ _), hcl, some.injEq]
      exact ⟨fun h => ⟨fun _ _ => hmin, h.symm⟩, fun h => h.2.symm⟩
    · simp [Marks.clear, hkp, hmin]
  · have hcl : row.clears n ignore_unmapped = fun _ => false := by
      funext l
      rw [Row.clears, Bool.eq_false_iff.2 hrow, Bool.false_and]
    have hkp : row.isFunction ignore_unmapped = true → row.executed ≠ false := by
      simpa using hrow
    rw [if_neg hrow, hcl, clearedOf_none, some.injEq]
    exact ⟨fun h => ⟨fun h1 h2 => absurd h2 (hkp h1), h.symm⟩, fun h => h.2.symm⟩

theorem functions_eq_some {rows : List Row} {s : Marks} :
    rows.foldlM (Marks.function n ignore_unmapped) (ofLines n f g h) = some s ↔
      (∀ row ∈ rows, row.isFunction ignore_unmapped = true → row.executed = false →
        row.first ≤ min row.last n) ∧
      s = clearedOf n f g h fun l => rows.any (·.clears n ignore_unmapped l) := by
  induction rows generalizing f g h with
  | nil => simpa [clearedOf_none] using eq_comm
  | cons row rows ih =>
    rw [foldlM_cons, bind_eq_bind, bind_eq_some_iff]
    simp only [function_eq_some, and_assoc, exists_and_left, exists_eq_left, forall_mem_cons,
      any_cons]
    rw [clearedOf, ih, clearedOf_clearedOf]

end Marks

def Row.covers (row : Row) (line : ℕ) : Prop := row.first ≤ line ∧ line ≤ row.last

namespace Rows

variable (rows : Rows)

/-- The blocks that are statements. -/
def stmts : List Row := rows.blocks.filter Row.isStmt

def keptFunctions : List Row := rows.functions.filter (Row.isFunction rows.ignore_unmapped)

/-- A block has the line. -/
def mapped (line : ℕ) : Bool := (rows.blocks.flatMap Row.hits).any (·.2 == line)

/-- A block that was executed has the line. -/
def ran (line : ℕ) : Bool := (rows.blocks.flatMap Row.hits).any (· == (true, line))

/-- A function that never ran has the line. -/
def cleared (line : ℕ) : Bool :=
  rows.functions.any (·.clears rows.line_count rows.ignore_unmapped line)

/-- How often a line was hit. -/
def hitCount (line : ℕ) : ℕ := (rows.blocks.flatMap Row.hits).count (true, line)

theorem ran_eq_true {line : ℕ} : rows.ran line = true ↔ 0 < rows.hitCount line := by
  simp [ran, hitCount]

theorem mapped_of_ran {line : ℕ} (h : rows.ran line = true) : rows.mapped line = true := by
  rw [ran, List.any_eq_true] at h
  obtain ⟨e, he, heq⟩ := h
  obtain rfl := beq_iff_eq.1 heq
  exact List.any_eq_true.2 ⟨_, he, beq_self_eq_true _⟩

theorem marks_eq_some {s : Marks} : rows.marks = some s ↔
    (∀ row ∈ rows.blocks, ∀ line ∈ row.lines, line < rows.line_count) ∧
    (∀ line, rows.hitCount line < 2 ^ 32) ∧
    (∀ row ∈ rows.functions, row.isFunction rows.ignore_unmapped = true → row.executed = false →
      row.first ≤ min row.last rows.line_count) ∧
    s = Marks.ofLines rows.line_count (fun l => rows.mapped l || rows.cleared l)
      (fun l => rows.ran l && !rows.cleared l)
      fun l => if rows.cleared l then 0 else rows.hitCount l := by
  have hls : (∀ e ∈ rows.blocks.flatMap Row.hits, e.2 < rows.line_count) ↔
      ∀ row ∈ rows.blocks, ∀ line ∈ row.lines, line < rows.line_count := by
    simp only [mem_flatMap, Row.hits, List.mem_map]
    constructor
    · intro h row hrow line hln
      exact h _ ⟨row, hrow, line, hln, rfl⟩
    · rintro h _ ⟨row, hrow, line, hln, rfl⟩
      exact h row hrow line hln
  have hzr : ∀ l : ℕ, (fun _ => 0 : ℕ → ℕ) l < 2 ^ 32 := fun _ => Nat.two_pow_pos 32
  rw [marks, Marks.empty_eq, bind_eq_some_iff]
  simp only [Marks.hitAll_eq_some hzr, and_assoc, exists_and_left, exists_eq_left, hls,
    Marks.functions_eq_some, Bool.false_or, Nat.zero_add]
  rfl

end Rows

/-- The report says the same of a line wherever it says something of it, what it says of a function
that did not run holds of all its lines, and a flag is about the entry with its index. -/
structure Report.Consistent (rows : Rows) (report : Report) : Prop where
  executable : ∀ line : ℕ, report.lines_which_have_executed[line]? = some true →
    report.executable_lines[line]? = some true
  hits : ∀ line : ℕ, report.executable_lines[line]? = some true →
    ((∃ hits, report.line_hits[line]? = some hits ∧ 0 < hits) ↔
      report.lines_which_have_executed[line]? = some true)
  unexecuted : ∀ before row after, rows.keptFunctions = before ++ row :: after →
    row.executed = false → ∀ line, row.covers line →
      (∃ later ∈ after, later.executed = true ∧ later.covers line) ∨
        report.executable_lines[line]? = some true ∧
          report.lines_which_have_executed[line]? = some false
  stmts : ∀ (i : ℕ) (block : Block), report.stmts[i]? = some block →
    ∃ row, rows.stmts[i]? = some row ∧ row.block = block ∧
      report.stmts_which_have_executed[i]? = some row.executed
  functions : ∀ (i : ℕ) (block : Block), report.functions[i]? = some block →
    ∃ row, rows.keptFunctions[i]? = some row ∧ row.block = block ∧
      report.functions_which_have_executed[i]? = some row.executed

/-- The rows are about the lines of the file. -/
structure Rows.Reportable (rows : Rows) : Prop where
  line_count_lt : rows.line_count < 2 ^ 32
  in_range : ∀ row ∈ rows.blocks, ∀ line ∈ row.lines, line < rows.line_count
  hitCount_lt : ∀ line, rows.hitCount line < 2 ^ 32
  /-- A function that did not run is not after the lines there are, nor without any of its own. -/
  first_le : ∀ row ∈ rows.functions, row.isFunction rows.ignore_unmapped = true →
    row.executed = false → row.first ≤ min row.last rows.line_count
  /-- On the last line of a function that did not run, there is a later one that ran, or it is
  cleared for another function, or it has blocks and none of them ran. -/
  last_line : ∀ before row after, rows.keptFunctions = before ++ row :: after →
    row.executed = false → ∀ line, min row.last rows.line_count ≤ line → line ≤ row.last →
      (∃ later ∈ after, later.executed = true ∧ later.covers line) ∨ rows.cleared line = true ∨
        rows.mapped line = true ∧ rows.ran line = false
  /-- What ran and is in the report does not come after what is left out. -/
  stmts_kept : rows.blocks.Pairwise fun before row =>
    row.isStmt = true → row.executed = true → before.isStmt = true
  functions_kept : rows.functions.Pairwise fun before row =>
    row.isFunction rows.ignore_unmapped = true → row.executed = true →
      before.isFunction rows.ignore_unmapped = true

namespace Rows

variable {rows : Rows}

theorem entries_iff (keep : Row → Bool) (all : List Row) :
    (∀ (i : ℕ) (block : Block), ((all.filter keep).map Row.block)[i]? = some block →
      ∃ row, (all.filter keep)[i]? = some row ∧ row.block = block ∧
        (all.map fun row => keep row && row.executed)[i]? = some row.executed) ↔
    all.Pairwise fun before row =>
      keep row = true → row.executed = true → keep before = true := by
  rw [← flags_iff]
  constructor
  · intro h i row hrow
    obtain ⟨row', hrow', -, hfl⟩ := h i row.block (by rw [getElem?_map, hrow]; rfl)
    obtain rfl : row = row' := some.inj (hrow.symm.trans hrow')
    exact hfl
  · intro h i block hbl
    rw [getElem?_map] at hbl
    obtain ⟨row, hrow, rfl⟩ := map_eq_some_iff.1 hbl
    exact ⟨row, hrow, rfl, h i row hrow⟩

variable {line : ℕ}

theorem getElem?_range {β : Type} {n : ℕ} {f : ℕ → β} {b : β} :
    ((List.range n).map f)[line]? = some b ↔ line < n ∧ f line = b := by
  by_cases hln : line < n
  · simp [hln]
  · simp [hln]

theorem cleared_lt (h : rows.cleared line = true) : line < rows.line_count := by
  obtain ⟨row, -, hcl⟩ := List.any_eq_true.1 h
  rw [Row.clears, Bool.and_eq_true, decide_eq_true_eq] at hcl
  exact hcl.2.2.trans_le (min_le_right _ _)

theorem mapped_lt (hrn : ∀ row ∈ rows.blocks, ∀ line ∈ row.lines, line < rows.line_count)
    (h : rows.mapped line = true) : line < rows.line_count := by
  obtain ⟨e, he, heq⟩ := List.any_eq_true.1 h
  obtain ⟨row, hrow, he⟩ := mem_flatMap.1 he
  obtain ⟨l, hl, rfl⟩ := List.mem_map.1 he
  obtain rfl : l = line := beq_iff_eq.1 heq
  exact hrn row hrow l hl

/-- A function that did not run clears its lines but for the last, so these are as they should be,
and the last one is when something else makes it so. -/
theorem unexecuted_iff
    (hrn : ∀ row ∈ rows.blocks, ∀ line ∈ row.lines, line < rows.line_count)
    {row : Row} (hrow : row ∈ rows.keptFunctions) (hec : row.executed = false)
    (hfr : row.first ≤ min row.last rows.line_count) (other : ℕ → Prop) :
    (∀ line, row.covers line → other line ∨
      (line < rows.line_count ∧ (rows.mapped line || rows.cleared line) = true) ∧
        line < rows.line_count ∧ (rows.ran line && !rows.cleared line) = false) ↔
    ∀ line, min row.last rows.line_count ≤ line → line ≤ row.last → other line ∨
      rows.cleared line = true ∨ rows.mapped line = true ∧ rows.ran line = false := by
  obtain ⟨hmem, hkp⟩ := mem_filter.1 hrow
  constructor
  · intro h line hmin hls
    rcases h line ⟨hfr.trans hmin, hls⟩ with ho | ⟨⟨-, hmp⟩, -, hran⟩
    · exact .inl ho
    · right
      by_cases hcl : rows.cleared line = true
      · exact .inl hcl
      · rw [Bool.not_eq_true] at hcl
        rw [hcl, Bool.or_false] at hmp
        rw [hcl, Bool.not_false, Bool.and_true] at hran
        exact .inr ⟨hmp, hran⟩
  · intro h line ⟨hle, hls⟩
    have hcr (hcl : rows.cleared line = true) :
        (line < rows.line_count ∧ (rows.mapped line || rows.cleared line) = true) ∧
          line < rows.line_count ∧ (rows.ran line && !rows.cleared line) = false := by
      have hlt := cleared_lt hcl
      rw [hcl]
      simp [hlt]
    rcases lt_or_ge line (min row.last rows.line_count) with hlt | hge
    · right
      refine hcr (List.any_eq_true.2 ⟨row, hmem, ?_⟩)
      simp only [Row.clears, hkp, hec, hle, hlt, Bool.not_false, Bool.and_self, and_self,
        decide_true]
    · rcases h line hge hls with ho | hcl | ⟨hmp, hran⟩
      · exact .inl ho
      · exact .inr (hcr hcl)
      · have hlt := mapped_lt hrn hmp
        exact .inr ⟨⟨hlt, by rw [hmp, Bool.true_or]⟩, hlt, by rw [hran, Bool.false_and]⟩

/-- The report says what the rows say, just when it can be made. -/
theorem report_consistent_iff (hcn : rows.line_count < 2 ^ 32) :
    (∃ report, rows.report = some report ∧ report.Consistent rows) ↔ rows.Reportable := by
  constructor
  · rintro ⟨report, hrp, h⟩
    obtain ⟨marks, hmr, rfl⟩ := map_eq_some_iff.1 hrp
    obtain ⟨hrn, hht, hfr, rfl⟩ := rows.marks_eq_some.1 hmr
    refine ⟨hcn, hrn, hht, hfr, fun before row after hsp hec => ?_,
      (entries_iff _ _).1 h.stmts, (entries_iff _ _).1 h.functions⟩
    have hrow : row ∈ rows.keptFunctions := by simp [hsp]
    obtain ⟨hmem, hkp⟩ := mem_filter.1 hrow
    refine (unexecuted_iff hrn hrow hec (hfr row hmem hkp hec) _).1 ?_
    intro line hln
    have := h.unexecuted before row after hsp hec line hln
    simpa only [Marks.ofLines, getElem?_range] using this
  · intro h
    refine ⟨_, map_eq_some_iff.2 ⟨_, rows.marks_eq_some.2
      ⟨h.in_range, h.hitCount_lt, h.first_le, rfl⟩, rfl⟩, ?_, ?_, ?_,
      (entries_iff _ _).2 h.stmts_kept, (entries_iff _ _).2 h.functions_kept⟩
    · intro line hln
      simp only [Marks.ofLines, getElem?_range, Bool.and_eq_true] at hln ⊢
      exact ⟨hln.1, by rw [rows.mapped_of_ran hln.2.1, Bool.true_or]⟩
    · intro line hln
      simp only [Marks.ofLines, getElem?_range, Bool.and_eq_true] at hln ⊢
      by_cases hcl : rows.cleared line = true
      · simp [hcl]
      · simp [hcl, hln.1, ran_eq_true]
    · intro before row after hsp hec
      have hrow : row ∈ rows.keptFunctions := by simp [hsp]
      obtain ⟨hmem, hkp⟩ := mem_filter.1 hrow
      simp only [Marks.ofLines, getElem?_range]
      exact (unexecuted_iff h.in_range hrow hec (h.first_le row hmem hkp hec) _).2
        (h.last_line before row after hsp hec)

end Rows

variable {σ : Type}

/-- `generateReportFromBlocks` makes a consistent report just when the rows are reportable. -/
theorem generateReportFromBlocks_iff (starts : LineStarts)
    (source_mapping : Option (SourceMap σ)) (ignore_sourcemap : Bool)
    (blocks function_blocks : List BasicBlockRange) :
    (∃ report, generateReportFromBlocks starts source_mapping ignore_sourcemap blocks
        function_blocks = some report ∧
      report.Consistent (rowsFor starts source_mapping ignore_sourcemap blocks function_blocks)) ↔
    (rowsFor starts source_mapping ignore_sourcemap blocks function_blocks).Reportable := by
  rw [generateReportFromBlocks_eq]
  split_ifs with hcount
  · exact Rows.report_consistent_iff hcount
  · constructor
    · rintro ⟨report, hreport, -⟩
      cases hreport
    · intro h
      exact absurd h.line_count_lt hcount

/-- A function that did not run and maps to no line slices from behind the last line. -/
theorem generateReportFromBlocks_empty :
    ¬∃ report, generateReportFromBlocks ⟨[0, 10, 20], by decide⟩ (none : Option (SourceMap Unit))
        false [] [{ startOffset := 5, endOffset := 5 }] = some report ∧
      report.Consistent (rowsFor ⟨[0, 10, 20], by decide⟩ (none : Option (SourceMap Unit)) false []
        [{ startOffset := 5, endOffset := 5 }]) := by
  have hnone : generateReportFromBlocks ⟨[0, 10, 20], by decide⟩ (none : Option (SourceMap Unit))
      false [] [{ startOffset := 5, endOffset := 5 }] = none := by decide
  rintro ⟨report, hreport, -⟩
  rw [hnone] at hreport
  cases hreport

/-- The flag of the one statement is behind that of the block that does not map to anything. -/
example : (generateReportFromBlocks ⟨[0, 10, 20], by decide⟩ (none : Option (SourceMap Unit)) false
      [{ startOffset := -1 }, { startOffset := 3, endOffset := 5, hasExecuted := true }] []).map
        (fun report => (report.stmts, report.stmts_which_have_executed)) =
    some ([⟨0, 0⟩], [false, true]) := by decide

end Cruller.Coverage
