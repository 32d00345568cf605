import Cruller.SourceMap.Relocate

/-!
# Joining chunks

`appendSourceMapChunk` of `sourcemap/sourcemap.zig`, and `joinVLQ` and `renderMappings` of
`bake/DevServer/SourceMapStore.zig`: the texts of many files, each written from the zero state, as one
text. Only the first mapping of a chunk is written anew; what comes after it is read where it
stands (`Shifted.parseFrom`), and so the mappings of the joined text are those of its files, moved
(`parse_renderMappings`).
-/

namespace Cruller.SourceMap

open List ParseConfig

/-! ## The code -/

def u32 (v : ℕ) : Option ℕ := if v < 2 ^ 32 then some v else none

/-- The first index is a `u32`; `none` where it overflows. -/
def indexOfNotChar (slice : List UInt8) (char : UInt8) : Option (Option ℕ) :=
  match slice.findIdx? (· ≠ char) with
  | none => some none
  | some i => (u32 i).map some

/-- `StringJoiner.lastByte`; an empty slice is not pushed, so it is the last byte of the text. -/
def lastByte (j : List UInt8) : UInt8 := j.getLast?.getD 0

/-- `j` is the text pushed so far. -/
def appendSourceMapChunk (allowAssert : Bool) (j : List UInt8) (prevEndState startState : SourceMapState)
    (sourceMap : List UInt8) : Option (List UInt8) := do
  -- line breaks in between this mapping and the previous one
  let (j, prevEndState) ← (
    if startState.generatedLine = 0 then some (j, prevEndState)
    else if 0 ≤ startState.generatedLine then
      some (j ++ List.replicate startState.generatedLine.toNat semicolon,
        { prevEndState with generatedColumn := 0 })
    else none)
  let semicolons ← indexOfNotChar sourceMap semicolon
  let semicolons := semicolons.getD 0
  let (j, prevEndState, startState) :=
    if 0 < semicolons then (j ++ sourceMap.take semicolons, { prevEndState with generatedColumn := 0 },
      { startState with generatedColumn := 0 })
    else (j, prevEndState, startState)
  let sourceMap := sourceMap.drop semicolons
  let generatedColumn ← decodeAssumeValid allowAssert sourceMap 0
  let sourceIndex ← decodeAssumeValid allowAssert sourceMap generatedColumn.start
  let originalLine ← decodeAssumeValid allowAssert sourceMap sourceIndex.start
  let originalColumn ← decodeAssumeValid allowAssert sourceMap originalLine.start
  let source ← i32 (startState.sourceIndex + sourceIndex.value)
  let column ← i32 (startState.generatedColumn + generatedColumn.value)
  let line ← i32 (startState.originalLine + originalLine.value)
  let column' ← i32 (startState.originalColumn + originalColumn.value)
  let startState :=
    { startState with
      sourceIndex := source, generatedColumn := column
      originalLine := line, originalColumn := column' }
  let str ← appendMappingToBuffer [] (lastByte j) prevEndState startState
  some (j ++ str ++ sourceMap.drop originalColumn.start)

/-- What the join reads of a file's map: its text and the end of `end_state`. -/
structure PackedMap where
  vlq : List UInt8
  originalLine : ℤ
  originalColumn : ℤ
  deriving DecidableEq, Repr

/-- `PackedMap.Shared` -/
inductive Shared
  | some (sourceMap : PackedMap)
  | none
  | lineCount (count : ℕ)
  deriving DecidableEq, Repr

/-- The joined text, and where its last mapping was. -/
structure JoinState where
  j : List UInt8
  prevEndState : SourceMapState := {}
  linesBetween : ℕ

/-- A round of the loop, at file `i`. -/
def joinFile (allowAssert : Bool) (s : JoinState) (i : ℕ) : Shared → Option JoinState
  | .some content => do
    let sourceIndex ← i32 (i + 1)
    let generatedLine ← i32 s.linesBetween
    let j ← appendSourceMapChunk allowAssert s.j s.prevEndState { sourceIndex, generatedLine }
      content.vlq
    some {
      j, linesBetween := 0
      prevEndState :=
        { sourceIndex, originalLine := content.originalLine
          originalColumn := content.originalColumn } }
  | .lineCount count => do
    let linesBetween ← u32 (s.linesBetween + count)
    some { s with linesBetween }
  | .none => some s

/-- The loop from file `i` on. -/
def joinFiles (allowAssert : Bool) : JoinState → ℕ → List Shared → Option JoinState
  | s, _, [] => some s
  | s, i, file :: files => do
    let s ← joinFile allowAssert s i file
    joinFiles allowAssert s (i + 1) files

/-- `lineCount` is that of the runtime. -/
def joinVLQ (allowAssert : Bool) (lineCount : ℕ) (files : List Shared) (j : List UInt8) :
    Option (List UInt8) :=
  (joinFiles allowAssert { j, linesBetween := lineCount } 0 files).map JoinState.j

/-- The text starts with `AAAA`. -/
def renderMappings (allowAssert : Bool) (lineCount : ℕ) (files : List Shared) :
    Option (List UInt8) :=
  joinVLQ allowAssert lineCount files [0x41, 0x41, 0x41, 0x41]

/-! ## What is joined -/

/-- The mappings of a chunk. -/
def PackedMap.mappings (allowAssert : Bool) (map : PackedMap) : List MappingWithoutName :=
  match parse allowAssert map.vlq 1 0 {} with
  | some (.success { mappings := .withoutNames ms, .. }) => ms
  | _ => []

/-- The lines that a file takes in the bundle, as far as they are known. -/
def Shared.lines : Shared → ℤ
  | .some map => lineEnds (items .generatedColumn map.vlq)
  | .none => 0
  | .lineCount count => count

/-- The mappings of the files, from a line of the bundle and a source index on. -/
def joined (allowAssert : Bool) : ℤ → ℤ → List Shared → List MappingWithoutName
  | _, _, [] => []
  | line, sourceIndex, file :: files =>
    (match file with
      | .some map => (map.mappings allowAssert).map (MappingWithoutName.shift line sourceIndex)
      | _ => [])
      ++ joined allowAssert (line + file.lines) (sourceIndex + 1) files

/-- The first segment of the text has more fields than its generated column. -/
def StartsWithMapping (text : List UInt8) : Prop :=
  ∃ d, decode text 0 = some d ∧ ¬EndsSegment (text.drop d.start)

/-- A file's map as the printer makes it. -/
structure PackedMap.Whole (allowAssert : Bool) (map : PackedMap) : Prop where
  parses : ∃ ms, parse allowAssert map.vlq 1 0 {} =
    some (.success { mappings := .withoutNames ms, inputLineCount := 0 })
  written : Written .generatedColumn map.vlq
  starts : StartsWithMapping (map.vlq.dropWhile (· = semicolon))
  ends : map.vlq.getLast? = some semicolon
  endState : ((map.mappings allowAssert).getLast?.map MappingWithoutName.original) =
    some ⟨map.originalLine, map.originalColumn⟩

/-! ## The first mapping -/

section

variable {c : ParseConfig} {s s' t : ParseState} {field : Field} {a b d e tail : List UInt8}
  {va vb vd ve : ℤ}

theorem isOrdinal_of_addScalar {allowAssert : Bool} {ord inc v : ℤ}
    (h : addScalar allowAssert ord inc = some v) (h0 : 0 ≤ v) : IsOrdinal allowAssert v := by
  obtain ⟨-, hv, ha⟩ := addScalar_eq_some.1 h
  exact ⟨h0, hv.2, fun har => (ha har).2⟩

/-- A number of base 64. -/
structure Numeral (text : List UInt8) (v : ℤ) : Prop extends Number text v where
  base64 : ∀ byte ∈ text, byte ∈ base64

theorem Numeral.decodeAssumeValid {allowAssert : Bool} {text before rest : List UInt8} {start : ℕ}
    (h : Numeral a va) (htx : text = before ++ (a ++ rest)) (hst : start = before.length) :
    decodeAssumeValid allowAssert text start = some { value := va, start := start + a.length } := by
  rw [htx, hst]
  exact decodeAssumeValid_append allowAssert h.decode h.base64

theorem Numeral.getLast? {before rest : List UInt8} (h : Numeral a va)
    (hls : (before ++ (a ++ rest)).getLast? = some semicolon) :
    rest.getLast? = some semicolon := by
  obtain ⟨char, more, hcn, -⟩ := h.exists_cons
  rw [getLast?_append, getLast?_append] at hls
  rcases hrs : rest.getLast? with _ | byte
  · obtain ⟨byte, hby⟩ : ∃ byte, a.getLast? = some byte :=
      ⟨_, getLast?_eq_some_getLast (by rw [hcn]; exact cons_ne_nil _ _)⟩
    rw [hrs, hby, Option.none_or, Option.some_or, Option.some.injEq] at hls
    exact absurd hls (ne_separator_of_mem_base64 (h.base64 _ (mem_of_getLast? hby))).2.1
  · rwa [hrs, Option.some_or, Option.some_or] at hls

theorem Written.step (h : Written field s.remain) (hnil : ¬(field = .generatedColumn ∧ s.remain = []))
    (hln : ¬(field = .generatedColumn ∧ s.remain.head? = some semicolon))
    (hs : (c.parseFrom field s).run = some (.ok s')) :
    ∃ text rest v s1, s.remain = text ++ rest ∧ Numeral text v
      ∧ decode s.remain 0 = some { value := v, start := text.length }
      ∧ Written (following field rest).1 (following field rest).2
      ∧ (c.read field s).run = some (.ok s1) ∧ s1.remain = rest
      ∧ (c.parseFrom (following field rest).1 (advance field s1)).run = some (.ok s') := by
  obtain ⟨r, hr, hbs, hw⟩ := h.number hnil hln
  obtain ⟨hpos, hle⟩ := decodeWith_start hr
  have hlen : (s.remain.take r.start).length = r.start := by
    rw [List.length_take]
    omega
  have hfr : field = .generatedColumn →
      ∃ char rest, s.remain = char :: rest ∧ char ≠ semicolon := by
    rintro rfl
    rcases hrem : s.remain with _ | ⟨char, rest⟩
    · exact absurd ⟨rfl, hrem⟩ hnil
    · exact ⟨char, rest, rfl, fun hc => hln ⟨rfl, by rw [hrem, hc]; rfl⟩⟩
  rw [parseFrom_eq hfr, Fallible.bind_eq_ok] at hs
  obtain ⟨s1, hs1, hs⟩ := hs
  obtain ⟨r', hr', -, hrem, -⟩ := read_ok hs1
  obtain rfl : r = r' := Option.some.inj (hr.symm.trans hr')
  rw [hrem] at hs
  refine ⟨s.remain.take r.start, s.remain.drop r.start, r.value, s1,
    (take_append_drop _ _).symm, ⟨⟨?_, fun hc => ?_, fun hc => ?_⟩, hbs⟩, ?_, hw, hs1, hrem, hs⟩
  · rw [decode_take hr, hlen]
  · exact (ne_separator_of_mem_base64 (hbs _ (mem_of_mem_head? hc))).1 rfl
  · exact (ne_separator_of_mem_base64 (hbs _ (mem_of_mem_head? hc))).2.1 rfl
  · rw [hr, hlen]

theorem parseFrom_of_read (hfr : field = .generatedColumn →
      ∃ char rest, s.remain = char :: rest ∧ char ≠ semicolon)
    (h : (c.read field s).run = some (.ok s')) :
    c.parseFrom field s = c.parseFrom (following field s'.remain).1 (advance field s') := by
  rw [parseFrom_eq hfr]
  exact ExceptT.ext (Fallible.bind_of_ok h)

theorem following_generatedColumn (h : ¬EndsSegment tail) :
    following .generatedColumn tail = (.sourceIndex, tail) := if_neg h

theorem following_of_endsSegment (h : EndsSegment tail) :
    following .originalColumn tail = (.generatedColumn, dropComma tail) := if_pos h

theorem following_sourceIndex : following .sourceIndex tail = (.originalLine, tail) := rfl

theorem following_originalLine : following .originalLine tail = (.originalColumn, tail) := rfl

theorem Number.not_endsSegment (h : Number a va) : ¬EndsSegment (a ++ tail) := by
  obtain ⟨char, rest, rfl, hne, hne'⟩ := h.exists_cons
  rintro (h | h | h)
  · simp at h
  · exact hne (Option.some.inj h)
  · exact hne' (Option.some.inj h)

theorem Number.items (h : Number a va) : items field (a ++ tail) =
    .number field (a ++ tail) :: items (following field tail).1 (following field tail).2 := by
  obtain ⟨char, rest, hcn, -, hne⟩ := h.exists_cons
  have hnil : ¬(field = .generatedColumn ∧ a ++ tail = []) := fun hc => by simp [hcn] at hc
  have hln : ¬(field = .generatedColumn ∧ (a ++ tail).head? = some semicolon) := fun hc => by
    simp [hcn, hne] at hc
  rw [items_number hnil hln h.decode_append, drop_left]

variable {columns : ℤ}

theorem parseFrom_generatedColumn (ha : Number a va) (hb : Number b vb)
    (hs : s.remain = a ++ (b ++ tail))
    (hsum : addScalar c.allowAssert s.generated.columns va = some columns) (h0 : 0 ≤ columns) :
    c.parseFrom .generatedColumn s = c.parseFrom .sourceIndex
      { s with
        needsSort := s.needsSort || va < 0
        generated := { s.generated with columns }
        remain := b ++ tail } := by
  obtain ⟨char, rest, hcn, -, hne⟩ := ha.exists_cons
  have hrd : (c.read .generatedColumn s).run = some (.ok _) := readGeneratedColumn_eq_ok.2
    ⟨_, columns, by rw [hs]; exact ha.decode_append, hsum, h0, rfl⟩
  rw [hs, drop_left] at hrd
  rw [parseFrom_of_read (fun _ => ⟨char, rest ++ (b ++ tail), by rw [hs, hcn]; rfl, hne⟩) hrd]
  simp only [advance, following, if_neg hb.not_endsSegment]

theorem parseFrom_sourceIndex {sourceIndex : ℤ} (hb : Number b vb) (hs : s.remain = b ++ tail)
    (hsum : i32 (s.sourceIndex + vb) = some sourceIndex) (h0 : 0 ≤ sourceIndex)
    (hlt : sourceIndex < c.sourcesCount) :
    c.parseFrom .sourceIndex s = c.parseFrom .originalLine { s with sourceIndex, remain := tail } := by
  have hrd : (c.read .sourceIndex s).run = some (.ok _) := readSourceIndex_eq_ok.2
    ⟨_, sourceIndex, by rw [hs]; exact hb.decode_append, hsum, h0, hlt, rfl⟩
  rw [hs, drop_left] at hrd
  exact parseFrom_of_read (by simp) hrd

theorem parseFrom_originalLine {lines : ℤ} (hd : Number d vd) (hs : s.remain = d ++ tail)
    (hsum : addScalar c.allowAssert s.original.lines vd = some lines) (h0 : 0 ≤ lines) :
    c.parseFrom .originalLine s = c.parseFrom .originalColumn
      { s with original := { s.original with lines }, remain := tail } := by
  have hrd : (c.read .originalLine s).run = some (.ok _) := readOriginalLine_eq_ok.2
    ⟨_, lines, by rw [hs]; exact hd.decode_append, hsum, h0, rfl⟩
  rw [hs, drop_left] at hrd
  exact parseFrom_of_read (by simp) hrd

theorem parseFrom_originalColumn (he : Number e ve) (hs : s.remain = e ++ tail)
    (hsum : addScalar c.allowAssert s.original.columns ve = some columns) (h0 : 0 ≤ columns) :
    c.parseFrom .originalColumn s = c.parseFrom (following .originalColumn tail).1
      (advance .originalColumn { s with original := { s.original with columns }, remain := tail }) := by
  have hrd : (c.read .originalColumn s).run = some (.ok _) := readOriginalColumn_eq_ok.2
    ⟨_, columns, by rw [hs]; exact he.decode_append, hsum, h0, rfl⟩
  rw [hs, drop_left] at hrd
  exact parseFrom_of_read (by simp) hrd

theorem parseAll_of_numbers {sourceIndex lines originalColumns : ℤ}
    (ha : Number a va) (hb : Number b vb) (hd : Number d vd) (he : Number e ve)
    (hs : s.remain = a ++ (b ++ (d ++ (e ++ tail))))
    (h1 : addScalar c.allowAssert s.generated.columns va = some columns) (h1' : 0 ≤ columns)
    (h2 : i32 (s.sourceIndex + vb) = some sourceIndex) (h2' : 0 ≤ sourceIndex)
    (h2'' : sourceIndex < c.sourcesCount)
    (h3 : addScalar c.allowAssert s.original.lines vd = some lines) (h3' : 0 ≤ lines)
    (h4 : addScalar c.allowAssert s.original.columns ve = some originalColumns)
    (h4' : 0 ≤ originalColumns) :
    c.parseAll s = c.parseFrom (following .originalColumn tail).1 (advance .originalColumn
      { s with
        needsSort := s.needsSort || va < 0
        generated := { s.generated with columns }
        original := { lines, columns := originalColumns }
        sourceIndex, remain := tail }) := by
  refine Eq.trans (parseFrom_generatedColumn ha hb hs h1 h1') ?_
  refine Eq.trans (parseFrom_sourceIndex hb rfl h2 h2' h2'') ?_
  refine Eq.trans (parseFrom_originalLine hd rfl h3 h3') ?_
  exact parseFrom_originalColumn he rfl h4 h4'

end

/-! ## A file alone -/

section

variable {allowAssert : Bool} {map : PackedMap} {k : ℕ} {text : List UInt8}

theorem items_lineEnds : items .generatedColumn (List.replicate k semicolon ++ text) =
    List.replicate k .lineEnd ++ items .generatedColumn text := by
  induction k with
  | zero => rfl
  | succ k ih => rw [replicate_succ, cons_append, items_lineEnd, ih]; rfl

theorem Written.lineEnds (h : Written .generatedColumn (List.replicate k semicolon ++ text)) :
    Written .generatedColumn text := by
  induction k with
  | zero => exact h
  | succ k ih => exact ih h.lineEnd

/-- What holds along the text of a single source, at its next number. -/
structure Single (allowAssert : Bool) (field : Field) (s : ParseState) : Prop where
  source : s.sourceIndex = 0
  lines : IsOrdinal allowAssert s.original.lines
  columns : IsOrdinal allowAssert s.original.columns
  mapping : ∃ ms, s.mapping = .withoutNames ms ∧ (field = .generatedColumn →
    ms.getLast?.map MappingWithoutName.original = some s.original)

/-- The parser behind the four numbers of the first mapping. -/
def behindFirst (k : ℕ) (first : SourceMapState) (tail : List UInt8) : ParseState where
  needsSort := false || first.generatedColumn < 0
  generated := ⟨k, first.generatedColumn⟩
  original := ⟨first.originalLine, first.originalColumn⟩
  remain := tail

/-- The text of a file, taken apart at its first mapping, and the parser behind that. -/
structure PackedMap.Head (allowAssert : Bool) (map : PackedMap) (k : ℕ) (a b d e tail : List UInt8)
    (first : SourceMapState) (s' : ParseState) : Prop where
  vlq : map.vlq = List.replicate k semicolon ++ (a ++ (b ++ (d ++ (e ++ tail))))
  column : Numeral a first.generatedColumn
  source : Numeral b 0
  line : Numeral d first.originalLine
  originalColumn : Numeral e first.originalColumn
  nonNeg : IsOrdinal allowAssert first.generatedColumn ∧ IsOrdinal allowAssert first.originalLine
    ∧ IsOrdinal allowAssert first.originalColumn
  last : tail.getLast? = some semicolon
  ends : EndsWithLine (following .originalColumn tail).1 (following .originalColumn tail).2
  run : ((ParseConfig.of allowAssert map.vlq 1 {}).parseFrom (following .originalColumn tail).1
    (advance .originalColumn (behindFirst k first tail))).run = some (.ok s')
  mapping : s'.mapping = .withoutNames (map.mappings allowAssert)

/-- The first segment of a chunk has no line before it and four numbers. -/
theorem PackedMap.Whole.head (h : map.Whole allowAssert)
    (hls : IsOrdinal allowAssert (lineEnds (items .generatedColumn map.vlq))) :
    ∃ k a b d e tail first s', map.Head allowAssert k a b d e tail first s' := by
  obtain ⟨ms, hms⟩ := h.parses
  have hmp : map.mappings allowAssert = ms := by rw [PackedMap.mappings, hms]
  simp only [parse, Option.map_eq_some_iff] at hms
  obtain ⟨_ | s', hrun, hmap⟩ := hms
  · simp at hmap
  simp only [Bool.and_false, Bool.false_eq_true, if_false, ParseResult.success.injEq,
    ParsedSourceMap.mk.injEq, and_true] at hmap
  -- the line ends before the first segment
  obtain ⟨k, text, hvlq, htx⟩ : ∃ k text, map.vlq = List.replicate k semicolon ++ text
      ∧ text = map.vlq.dropWhile (· = semicolon) := by
    refine ⟨(map.vlq.takeWhile (· = semicolon)).length, _, ?_, rfl⟩
    have htk : map.vlq.takeWhile (· = semicolon) =
        List.replicate (map.vlq.takeWhile (· = semicolon)).length semicolon :=
      eq_replicate_iff.2 ⟨rfl, fun b hb => by
        simpa using all_eq_true.1 all_takeWhile b hb⟩
    rw [← htk, takeWhile_append_dropWhile]
  obtain ⟨r, hr, hmr⟩ := h.starts
  rw [← htx] at hr hmr
  have hne : text ≠ [] := by
    rintro rfl
    have := decodeWith_start hr
    simp at this
    omega
  have hhd : text.head? ≠ some semicolon := by
    intro hc
    have := head?_dropWhile_not (fun b => decide (b = semicolon)) map.vlq
    rw [← htx, hc] at this
    simp at this
  have hw : Written .generatedColumn text := (hvlq ▸ h.written).lineEnds
  rw [hvlq, items_lineEnds] at hls
  have hk : lineEnds (List.replicate k .lineEnd ++ items .generatedColumn text) =
      k + lineEnds (items .generatedColumn text) := by
    simp [lineEnds, count_append]
  rw [hk] at hls
  have hrs := lineEnds_nonneg (items .generatedColumn text)
  have hst : (ParseConfig.of allowAssert map.vlq 1 {}).parseAll { remain := map.vlq } =
      (ParseConfig.of allowAssert map.vlq 1 {}).parseFrom .generatedColumn
        { generated := ⟨k, 0⟩, remain := text } := by
    rcases Nat.eq_zero_or_pos k with rfl | hpos
    · rw [hvlq]
      rfl
    · exact parseAll_newlines le_rfl hvlq (zero_add _).symm (hls.mono (by omega) (by omega)) hpos
  have hpr : ((ParseConfig.of allowAssert map.vlq 1 {}).parseAll { remain := map.vlq }).run =
      some (.ok s') := hrun
  rw [hst] at hpr
  -- the four numbers of the first segment
  obtain ⟨a, r1, va, s1, htx1, ha, hda, hw1, hs1, hrem1, hpr⟩ := hw.step
    (s := { generated := ⟨k, 0⟩, remain := text }) (fun hc => hne hc.2) (fun hc => hhd hc.2) hpr
  obtain ⟨_, column, hda', hcol, hcol0, rfl⟩ := readGeneratedColumn_eq_ok.1 hs1
  obtain rfl := Option.some.inj (hda.symm.trans hda')
  obtain rfl := Option.some.inj (hda.symm.trans hr)
  have hdr1 : text.drop a.length = r1 := hrem1
  simp only [hdr1] at hmr hcol hpr
  simp only [following, advance, if_neg hmr] at hw1 hpr
  obtain ⟨b, r2, vb, s2, htx2, hb, hdb, hw2, hs2, hrem2, hpr⟩ := hw1.step (by simp) (by simp) hpr
  obtain ⟨_, source, hdb', hsr, hsr0, hsr1, rfl⟩ := readSourceIndex_eq_ok.1 hs2
  obtain rfl := Option.some.inj (hdb.symm.trans hdb')
  have hdr2 : r1.drop b.length = r2 := hrem2
  simp only [following, advance, hdr2] at hw2 hsr hpr
  obtain ⟨d, r3, vd, s3, htx3, hd, hdd, hw3, hs3, hrem3, hpr⟩ := hw2.step (by simp) (by simp) hpr
  obtain ⟨_, line, hdd', hln, hln0, rfl⟩ := readOriginalLine_eq_ok.1 hs3
  obtain rfl := Option.some.inj (hdd.symm.trans hdd')
  have hdr3 : r2.drop d.length = r3 := hrem3
  simp only [following, advance, hdr3] at hw3 hln hpr
  obtain ⟨e, r4, ve, s4, htx4, he, hde, hw4, hs4, hrem4, hpr⟩ := hw3.step (by simp) (by simp) hpr
  obtain ⟨_, column', hde', hcol', hcol0', rfl⟩ := readOriginalColumn_eq_ok.1 hs4
  obtain rfl := Option.some.inj (hde.symm.trans hde')
  have hdr4 : r3.drop e.length = r4 := hrem4
  simp only [hdr4] at hcol' hpr
  -- each sum starts at zero
  obtain ⟨rfl, -⟩ := addScalar_eq_some.1 hcol
  obtain ⟨rfl, -⟩ := addScalar_eq_some.1 hln
  obtain ⟨rfl, -⟩ := addScalar_eq_some.1 hcol'
  obtain ⟨-, rfl⟩ := i32_eq_some.1 hsr
  simp only [zero_add] at *
  obtain rfl : vb = 0 := by
    have : vb < 1 := hsr1
    omega
  have htx : text = a ++ (b ++ (d ++ (e ++ r4))) := by
    rw [← htx4, ← htx3, ← htx2]
    exact htx1
  have hlt : r4.getLast? = some semicolon := by
    have hen := h.ends
    rw [hvlq, htx] at hen
    simp only [← append_assoc] at hen
    rw [append_assoc] at hen
    exact he.getLast? hen
  exact ⟨k, a, b, d, e, r4, { generatedColumn := va, originalLine := vd, originalColumn := ve }, s',
    hvlq.trans (by rw [htx]), ha, hb, hd, he, ⟨isOrdinal_of_addScalar hcol hcol0,
      isOrdinal_of_addScalar hln hln0, isOrdinal_of_addScalar hcol' hcol0'⟩, hlt,
    hw4.endsWithLine (getLast?_following hlt), hpr, hmap.trans (by rw [hmp])⟩

/-! ### The state at the end -/

variable {field : Field} {s s' : ParseState} {a b d e tail : List UInt8} {first : SourceMapState}

theorem Single.appendMapping (h : Single allowAssert field s) (field' : Field) :
    Single allowAssert field' (appendMapping (skipComma s)) := by
  obtain ⟨ms, hms, -⟩ := h.mapping
  refine ⟨h.source, h.lines, h.columns, ms ++ [⟨s.generated, s.original, s.sourceIndex⟩], ?_,
    fun _ => ?_⟩
  · simp only [ParseConfig.appendMapping, skipComma, hms]
    rfl
  · rw [getLast?_concat]
    rfl

theorem Single.advance (h : Single allowAssert .originalColumn s) (hs : s.remain = tail) :
    Single allowAssert (following .originalColumn tail).1 (advance .originalColumn s) := by
  obtain ⟨ms, hms, -⟩ := h.mapping
  subst hs
  simp only [following, ParseConfig.advance]
  split
  · exact h.appendMapping _
  · exact ⟨h.source, h.lines, h.columns, ms, hms, fun hf => by simp at hf⟩

theorem Single.read {vlq : List UInt8} (h : Single allowAssert field s)
    (hs : ((ParseConfig.of allowAssert vlq 1 {}).read field s).run = some (.ok s')) :
    Single allowAssert (following field s'.remain).1 (ParseConfig.advance field s') := by
  obtain ⟨hsr, hln, hcl, ms, hms, hls⟩ := h
  cases field with
  | generatedColumn =>
    obtain ⟨d, _, -, -, -, rfl⟩ := readGeneratedColumn_eq_ok.1 hs
    simp only [following, ParseConfig.advance]
    split
    · exact ⟨hsr, hln, hcl, ms, hms, hls⟩
    · exact ⟨hsr, hln, hcl, ms, hms, fun hf => by simp at hf⟩
  | sourceIndex =>
    obtain ⟨d, source, -, -, h0, h1, rfl⟩ := readSourceIndex_eq_ok.1 hs
    have hone : source < 1 := h1
    exact ⟨show source = 0 by omega, hln, hcl, ms, hms, fun hf => by simp [following] at hf⟩
  | originalLine =>
    obtain ⟨d, line, -, hadd, h0, rfl⟩ := readOriginalLine_eq_ok.1 hs
    exact ⟨hsr, isOrdinal_of_addScalar hadd h0, hcl, ms, hms,
      fun hf => by simp [following] at hf⟩
  | originalColumn =>
    obtain ⟨d, column, -, hadd, h0, rfl⟩ := readOriginalColumn_eq_ok.1 hs
    have hsn : Single allowAssert .originalColumn
        { s with original := { s.original with columns := column }, remain := s.remain.drop d.start } :=
      ⟨hsr, hln, isOrdinal_of_addScalar hadd h0, ms, hms, fun hf => by simp at hf⟩
    exact hsn.advance rfl
  | nameIndex =>
    obtain ⟨d, nameIndex, -, -, rfl⟩ := readNameIndex_eq_ok.1 hs
    have hsn : Single allowAssert .nameIndex
        (withName (ParseConfig.of allowAssert vlq 1 {}) s nameIndex (s.remain.drop d.start)) :=
      ⟨hsr, hln, hcl, ms, hms, fun hf => by simp at hf⟩
    exact hsn.appendMapping _

theorem PackedMap.Head.single (h : map.Head allowAssert k a b d e tail first s') :
    Single allowAssert .generatedColumn s' := by
  refine parseFrom_invariant (fun s lines rest hs => ?_) (fun field s s' hs hrd => hs.read hrd)
    ?_ ?_ h.run
  · exact ⟨hs.source, hs.lines, hs.columns, hs.mapping⟩
  · refine Single.advance ?_ rfl
    exact ⟨rfl, h.nonNeg.2.1, h.nonNeg.2.2, [], rfl, fun hf => by simp at hf⟩
  · rw [(advance_spec _ _).2.1]
    exact Int.natCast_nonneg k

/-! ## What is written for a file -/

theorem indexOfNotChar_replicate {char : UInt8} {rest : List UInt8} (hk : k < 2 ^ 32)
    (hne : char ≠ semicolon) :
    indexOfNotChar (List.replicate k semicolon ++ char :: rest) semicolon = some (some k) := by
  have hfn : (List.replicate k semicolon ++ char :: rest).findIdx? (· ≠ semicolon) = some k := by
    induction k with
    | zero => rw [replicate_zero, nil_append, findIdx?_cons, if_pos (by simpa using hne)]
    | succ k ih =>
      rw [replicate_succ, cons_append, findIdx?_cons, if_neg (by simp),
        ih (by omega)]
      rfl
  simp only [indexOfNotChar, hfn, u32, if_pos hk, Option.map_some]

theorem lastByte_lineEnds (j : List UInt8) (n : ℕ) :
    NeedsComma (lastByte (j ++ List.replicate n semicolon)) ↔ n = 0 ∧ NeedsComma (lastByte j) := by
  rcases n with _ | n
  · simp
  · rw [replicate_succ', ← append_assoc, lastByte, getLast?_concat]
    simp [NeedsComma]

/-- The first mapping is written anew, from where the last file ends. -/
theorem PackedMap.Head.append (h : map.Head allowAssert k a b d e tail first s') {j : List UInt8}
    {prev : SourceMapState} {source : ℤ} {n : ℕ} (hk : k < 2 ^ 32) (hpr : prev.NonNeg)
    (hcl : prev.generatedColumn = 0) (hsr : 0 ≤ source ∧ source < 2 ^ 31) :
    ∃ a' b' d' e', Number a' first.generatedColumn ∧ Number b' (source - prev.sourceIndex)
      ∧ Number d' (first.originalLine - prev.originalLine)
      ∧ Number e' (first.originalColumn - prev.originalColumn)
      ∧ appendSourceMapChunk allowAssert j prev { sourceIndex := source, generatedLine := n }
          map.vlq =
        some (j ++ (List.replicate (n + k) semicolon
          ++ ((if n + k = 0 ∧ NeedsComma (lastByte j) then [comma] else [])
            ++ (a' ++ (b' ++ (d' ++ (e' ++ tail))))))) := by
  obtain ⟨hvlq, ha, hb, hd, he, ⟨h1, h2, h3⟩, -, -, -, -⟩ := h
  obtain ⟨a', b', d', e', ha', hb', hd', he', -, hbf⟩ := @appendMappingToBuffer_eq []
    (lastByte (j ++ List.replicate (n + k) semicolon)) prev
    { generatedLine := n, sourceIndex := source, generatedColumn := first.generatedColumn
      originalLine := first.originalLine, originalColumn := first.originalColumn } hpr
    ⟨⟨h1.nonneg, h1.lt⟩, hsr, ⟨h2.nonneg, h2.lt⟩, ⟨h3.nonneg, h3.lt⟩⟩
  rw [hcl, sub_zero] at ha'
  refine ⟨a', b', d', e', ha', hb', hd', he', ?_⟩
  have hsm : indexOfNotChar map.vlq semicolon = some (some k) := by
    obtain ⟨char, rest, hcn, -, hne⟩ := ha.exists_cons
    rw [hvlq, hcn]
    exact indexOfNotChar_replicate hk hne
  have htk : map.vlq.take k = List.replicate k semicolon := by
    rw [hvlq]
    exact take_left' length_replicate
  have hdr : map.vlq.drop k = a ++ (b ++ (d ++ (e ++ tail))) := by
    rw [hvlq]
    exact drop_left' length_replicate
  have hpr0 : { prev with generatedColumn := 0 } = prev := by rw [← hcl]
  have hln : (if (n : ℤ) = 0 then some (j, prev)
      else if 0 ≤ (n : ℤ) then some (j ++ List.replicate (n : ℤ).toNat semicolon, prev)
      else none) = some (j ++ List.replicate n semicolon, prev) := by
    rcases n with _ | n
    · simp
    · rw [if_neg (by omega), if_pos (by omega), Int.toNat_natCast]
  have hmr : (if 0 < k then (j ++ List.replicate n semicolon ++ List.replicate k semicolon, prev,
        ({ sourceIndex := source, generatedLine := n } : SourceMapState))
      else (j ++ List.replicate n semicolon, prev, { sourceIndex := source, generatedLine := n })) =
      (j ++ List.replicate (n + k) semicolon, prev,
        { sourceIndex := source, generatedLine := n }) := by
    rcases k with _ | k
    · simp
    · rw [if_pos (Nat.succ_pos k), append_assoc, replicate_append_replicate]
  have hd1 : decodeAssumeValid allowAssert (a ++ (b ++ (d ++ (e ++ tail)))) 0 = _ :=
    ha.decodeAssumeValid (nil_append _).symm rfl
  have hd2 : decodeAssumeValid allowAssert (a ++ (b ++ (d ++ (e ++ tail)))) (0 + a.length) = _ :=
    hb.decodeAssumeValid rfl (Nat.zero_add _)
  have hd3 : decodeAssumeValid allowAssert (a ++ (b ++ (d ++ (e ++ tail))))
      (0 + a.length + b.length) = _ :=
    hd.decodeAssumeValid (append_assoc ..).symm (by rw [length_append, Nat.zero_add])
  have hd4 : decodeAssumeValid allowAssert (a ++ (b ++ (d ++ (e ++ tail))))
      (0 + a.length + b.length + d.length) = _ :=
    he.decodeAssumeValid (show _ = (a ++ (b ++ d)) ++ (e ++ tail) by simp only [append_assoc])
      (by simp only [length_append]; omega)
  have htl : (a ++ (b ++ (d ++ (e ++ tail)))).drop
      (0 + a.length + b.length + d.length + e.length) = tail := by
    simp only [← append_assoc]
    exact drop_left' (by simp only [length_append]; omega)
  have h32 : i32 (0 + first.generatedColumn) = some first.generatedColumn
      ∧ i32 (source + 0) = some source ∧ i32 (0 + first.originalLine) = some first.originalLine
      ∧ i32 (0 + first.originalColumn) = some first.originalColumn := by
    have := h1.nonneg
    have := h1.lt
    have := h2.nonneg
    have := h2.lt
    have := h3.nonneg
    have := h3.lt
    simp only [zero_add, add_zero]
    exact ⟨i32_of_isI32 ⟨by omega, by omega⟩, i32_of_isI32 ⟨by omega, by omega⟩,
      i32_of_isI32 ⟨by omega, by omega⟩, i32_of_isI32 ⟨by omega, by omega⟩⟩
  simp only [appendSourceMapChunk, hpr0, hln, Option.bind_eq_bind, Option.bind_some, hsm,
    Option.getD_some, htk, hmr, hdr, hd1, hd2, hd3, hd4, h32, hbf, htl,
    lastByte_lineEnds]
  simp only [append_assoc, nil_append]

/-! ## What is read of it -/

theorem PackedMap.Head.lineEnds (h : map.Head allowAssert k a b d e tail first s') :
    lineEnds (items .generatedColumn map.vlq) = k
      + lineEnds (items (following .originalColumn tail).1 (following .originalColumn tail).2) := by
  rw [h.vlq, items_lineEnds, h.column.items, following_generatedColumn h.source.not_endsSegment,
    h.source.items, following_sourceIndex, h.line.items, following_originalLine,
    h.originalColumn.items]
  simp [Cruller.SourceMap.lineEnds, count_append]

/-- The parser between two files: what was written last ends where it stands. -/
structure Between (prev : SourceMapState) (line : ℤ) (list : List MappingWithoutName)
    (t : ParseState) : Prop where
  generated : t.generated = ⟨line, 0⟩
  original : t.original = ⟨prev.originalLine, prev.originalColumn⟩
  source : t.sourceIndex = prev.sourceIndex
  mapping : t.mapping = .withoutNames list

variable {c : ParseConfig} {t : ParseState} {prev : SourceMapState} {line : ℤ}
  {list : List MappingWithoutName} {n : ℕ} {rest : List UInt8} {v : ℤ}

theorem Between.lineEnds (h : Between prev line list t) (h0 : 0 ≤ line) (ha : Number a v)
    {comma? : List UInt8} (hcm : comma? = [] ∨ comma? = [comma]) (hcm0 : 0 < n → comma? = [])
    (hbn : IsOrdinal c.allowAssert (line + n))
    (hr : t.remain = dropComma (List.replicate n semicolon ++ (comma? ++ (a ++ rest)))) :
    c.parseAll t = c.parseAll { t with generated := ⟨line + n, 0⟩, remain := a ++ rest } := by
  rcases Nat.eq_zero_or_pos n with rfl | hn
  · have hrm : t.remain = a ++ rest := by
      rw [hr, replicate_zero, nil_append]
      rcases hcm with rfl | rfl
      · rw [nil_append]
        exact dropComma_number ha
      · rfl
    have hgen : t.generated = ⟨line + (0 : ℕ), 0⟩ := by
      rw [h.generated, Nat.cast_zero, add_zero]
    rw [← hrm, ← hgen]
  · rw [hcm0 hn, nil_append] at hr
    have hsm : dropComma (List.replicate n semicolon ++ (a ++ rest)) =
        List.replicate n semicolon ++ (a ++ rest) := by
      obtain ⟨n, rfl⟩ := Nat.exists_eq_succ_of_ne_zero hn.ne'
      rw [replicate_succ, cons_append, dropComma, if_neg (by decide)]
    rw [hsm] at hr
    rw [parseAll_newlines (by rw [h.generated]; exact h0) hr (by rw [h.generated]) hbn hn]
    rfl

/-- A file's text in the joined text: its mappings are read, moved to where it stands. -/
theorem PackedMap.Head.parse (h : map.Head c.allowAssert k a b d e tail first s')
    (hnm : c.allowNames = false) (ht : Between prev line list t) (h0 : 0 ≤ line) {source : ℤ}
    (hsr : 0 ≤ source ∧ source < c.sourcesCount ∧ source < 2 ^ 31)
    (hbn : IsOrdinal c.allowAssert
      (line + n + Cruller.SourceMap.lineEnds (items .generatedColumn map.vlq)))
    {a' b' d' e' comma? more : List UInt8} (ha : Number a' first.generatedColumn)
    (hb : Number b' (source - prev.sourceIndex))
    (hd : Number d' (first.originalLine - prev.originalLine))
    (he : Number e' (first.originalColumn - prev.originalColumn))
    (hcm : comma? = [] ∨ comma? = [comma]) (hcm0 : 0 < n + k → comma? = [])
    (hr : t.remain = dropComma (List.replicate (n + k) semicolon
      ++ (comma? ++ (a' ++ (b' ++ (d' ++ (e' ++ (tail ++ more)))))))) :
    ∃ t', c.parseAll t = c.parseAll t' ∧ t'.remain = more
      ∧ t'.generated =
        ⟨line + n + Cruller.SourceMap.lineEnds (items .generatedColumn map.vlq), 0⟩
      ∧ t'.original = s'.original ∧ t'.sourceIndex = s'.sourceIndex + source
      ∧ t'.mapping = .withoutNames (list
        ++ (map.mappings c.allowAssert).map (MappingWithoutName.shift (line + n) source)) := by
  have hne : tail ≠ [] := fun hc => by
    have := h.last
    rw [hc] at this
    simp at this
  rw [h.lineEnds] at hbn ⊢
  have hen := lineEnds_nonneg
    (items (following .originalColumn tail).1 (following .originalColumn tail).2)
  obtain ⟨h1, h2, h3⟩ := h.nonNeg
  rw [ht.lineEnds h0 ha hcm hcm0 (hbn.mono (by omega) (by push_cast; omega)) hr]
  have hcl : addScalar c.allowAssert 0 first.generatedColumn = some first.generatedColumn := by
    convert addScalar_of_isOrdinal h1 using 2
    exact (sub_zero _).symm
  have hln : addScalar c.allowAssert t.original.lines (first.originalLine - prev.originalLine) =
      some first.originalLine := by
    rw [ht.original]
    exact addScalar_of_isOrdinal h2
  have hor : addScalar c.allowAssert t.original.columns
      (first.originalColumn - prev.originalColumn) = some first.originalColumn := by
    rw [ht.original]
    exact addScalar_of_isOrdinal h3
  have hsr' : i32 (t.sourceIndex + (source - prev.sourceIndex)) = some source := by
    rw [ht.source, add_sub_cancel]
    exact i32_of_isI32 ⟨by omega, hsr.2.2⟩
  have hrd := parseAll_of_numbers (c := c) (s := { t with
      generated := ⟨line + (n + k : ℕ), 0⟩
      remain := a' ++ (b' ++ (d' ++ (e' ++ (tail ++ more)))) })
    ha hb hd he rfl hcl h1.nonneg hsr' hsr.1 hsr.2.1 hln h2.nonneg hor
    h3.nonneg
  rw [hrd, following_append hne]
  -- from here on the text is the file's own
  have hsh : Shifted (line + n) source more list (behindFirst k first tail)
      { t with
        needsSort := t.needsSort || first.generatedColumn < 0
        generated := ⟨line + (n + k : ℕ), first.generatedColumn⟩
        original := ⟨first.originalLine, first.originalColumn⟩
        sourceIndex := source, remain := tail ++ more } := by
    refine ⟨rfl, ?_, rfl, (zero_add source).symm, [], rfl, ?_⟩
    · simp only [behindFirst, LineColumnOffset.mk.injEq, and_true]
      push_cast
      ring
    · rw [map_nil, append_nil]
      exact ht.mapping
  have had : Shifted (line + n) source more list
      (advance .originalColumn (behindFirst k first tail)) (advance .originalColumn _) :=
    hsh.advance hne
  have hin : Inside (ParseConfig.of c.allowAssert map.vlq 1 {}) c source :=
    ⟨rfl, ⟨rfl, hnm⟩, rfl, hsr⟩
  obtain ⟨hrem, hgen, -⟩ := advance_spec .originalColumn (behindFirst k first tail)
  have hgen' : (advance .originalColumn (behindFirst k first tail)).generated.lines = k := by
    rw [hgen]
    rfl
  have hbn' : IsOrdinal c.allowAssert (k + Cruller.SourceMap.lineEnds
      (items (following .originalColumn tail).1 (following .originalColumn tail).2)
        + (line + n)) := by
    convert hbn using 1
    ring
  obtain ⟨t', hrun, hend, hnil, hcol, hls⟩ := had.parseFrom hin
    (by rw [hrem]; exact h.ends) h.run (by omega) (by omega) (by rw [hgen', hrem]; exact hbn')
  obtain ⟨ms, hms, hmp⟩ := hend.mapping
  obtain rfl : map.mappings c.allowAssert = ms := by
    have := h.mapping.symm.trans hms
    rwa [MappingList.withoutNames.injEq] at this
  refine ⟨t', hrun, ?_, ?_, hend.original, hend.source, hmp⟩
  · rw [hend.remain, hnil, nil_append]
  · rw [hend.generated, hcol, hls, hgen', hrem]
    simp only [LineColumnOffset.mk.injEq, and_true]
    change _ + Cruller.SourceMap.lineEnds (items _ (following .originalColumn tail).2) + _ = _
    ring

/-! ## The joined text -/

variable {u : JoinState} {files : List Shared} {i : ℕ}

theorem Shared.lines_nonneg (file : Shared) : 0 ≤ file.lines := by
  cases file with
  | some map => exact lineEnds_nonneg _
  | none => exact le_rfl
  | lineCount count => exact Int.natCast_nonneg count

theorem sum_lines_nonneg (files : List Shared) : 0 ≤ (files.map Shared.lines).sum :=
  sum_nonneg fun _ hx => by
    obtain ⟨file, -, rfl⟩ := mem_map.1 hx
    exact file.lines_nonneg

theorem separated (ha : Number a v) {byte : UInt8} :
    (NeedsComma byte → EndsSegment (List.replicate n semicolon
      ++ ((if n = 0 ∧ NeedsComma byte then [comma] else []) ++ (a ++ rest))))
      ∧ (¬NeedsComma byte → dropComma (List.replicate n semicolon
          ++ ((if n = 0 ∧ NeedsComma byte then [comma] else []) ++ (a ++ rest))) =
        List.replicate n semicolon
          ++ ((if n = 0 ∧ NeedsComma byte then [comma] else []) ++ (a ++ rest))) := by
  rcases n with _ | n
  · refine ⟨fun h => ?_, fun h => ?_⟩
    · rw [if_pos ⟨rfl, h⟩]
      exact Or.inr (Or.inl rfl)
    · rw [if_neg fun hc => h hc.2, replicate_zero, nil_append, nil_append]
      exact dropComma_number ha
  · refine ⟨fun _ => Or.inr (Or.inr rfl), fun _ => ?_⟩
    rw [replicate_succ, cons_append, dropComma, if_neg (by decide)]

/-- Where the last mapping of a chunk is, in the whole. -/
def PackedMap.endState (map : PackedMap) (i : ℕ) : SourceMapState where
  sourceIndex := i + 1
  originalLine := map.originalLine
  originalColumn := map.originalColumn

/-- A file is joined, and its text is read as its own mappings, moved. -/
theorem PackedMap.Whole.join (h : map.Whole c.allowAssert) (hnm : c.allowNames = false)
    (hpr : u.prevEndState.NonNeg) (hcl : u.prevEndState.generatedColumn = 0) (h0 : 0 ≤ line)
    (hln : IsOrdinal c.allowAssert
      (line + u.linesBetween + Cruller.SourceMap.lineEnds (items .generatedColumn map.vlq)))
    (hsr : (i + 1 : ℤ) < c.sourcesCount ∧ (i + 1 : ℤ) < 2 ^ 31) :
    ∃ text, joinFile c.allowAssert u i (.some map) =
        some { j := u.j ++ text, prevEndState := map.endState i, linesBetween := 0 }
      ∧ (map.endState i).NonNeg ∧ ¬NeedsComma (lastByte (u.j ++ text)) ∧ ∀ more,
        (NeedsComma (lastByte u.j) → EndsSegment (text ++ more))
        ∧ (¬NeedsComma (lastByte u.j) → dropComma (text ++ more) = text ++ more)
        ∧ ∀ t list, Between u.prevEndState line list t → t.remain = dropComma (text ++ more) →
          ∃ t', c.parseAll t = c.parseAll t' ∧ t'.remain = more ∧ Between (map.endState i)
            (line + u.linesBetween + Cruller.SourceMap.lineEnds (items .generatedColumn map.vlq))
            (list ++ (map.mappings c.allowAssert).map
              (MappingWithoutName.shift (line + u.linesBetween) (i + 1))) t' := by
  have hen0 := lineEnds_nonneg (items .generatedColumn map.vlq)
  obtain ⟨k, a, b, d, e, tail, first, s', hhd⟩ := h.head (hln.mono hen0 (by omega))
  have hk : (k : ℤ) < 2 ^ 31 := by
    have := lineEnds_nonneg
      (items (following .originalColumn tail).1 (following .originalColumn tail).2)
    have := hln.lt
    have := hhd.lineEnds
    omega
  have hsr' : 0 ≤ (i + 1 : ℤ) ∧ (i + 1 : ℤ) < 2 ^ 31 := ⟨by omega, hsr.2⟩
  obtain ⟨a', b', d', e', ha, hb, hd, he, hap⟩ := hhd.append (j := u.j) (n := u.linesBetween)
    (by omega) hpr hcl hsr'
  obtain ⟨hzr, horiginalLine, horiginalColumn, ms, hms, hls⟩ := hhd.single
  -- the file ends with its last mapping, where `end_state` says
  have hor : s'.original = ⟨map.originalLine, map.originalColumn⟩ := by
    obtain rfl : map.mappings c.allowAssert = ms := by
      have := hhd.mapping.symm.trans hms
      rwa [MappingList.withoutNames.injEq] at this
    have := (hls rfl).symm.trans h.endState
    rwa [Option.some.injEq] at this
  rw [hor] at horiginalLine horiginalColumn
  have hcol0 : 0 ≤ (map.endState i).generatedColumn ∧ (map.endState i).generatedColumn < 2 ^ 31 :=
    ⟨le_rfl, by change (0 : ℤ) < 2 ^ 31; norm_num⟩
  refine ⟨List.replicate (u.linesBetween + k) semicolon
      ++ ((if u.linesBetween + k = 0 ∧ NeedsComma (lastByte u.j) then [comma] else [])
        ++ (a' ++ (b' ++ (d' ++ (e' ++ tail))))), ?_,
    ⟨hcol0, hsr', ⟨horiginalLine.nonneg, horiginalLine.lt⟩,
      ⟨horiginalColumn.nonneg, horiginalColumn.lt⟩⟩, ?_, fun more => ?_⟩
  · have h1 : i32 (i + 1 : ℤ) = some (i + 1 : ℤ) := i32_of_isI32 ⟨by omega, hsr.2⟩
    have h2 : i32 (u.linesBetween : ℤ) = some (u.linesBetween : ℤ) :=
      i32_of_isI32 ⟨by omega, by have := hln.lt; omega⟩
    simp only [joinFile, h1, h2, hap, Option.bind_eq_bind, Option.bind_some]
    rfl
  · simp only [← append_assoc]
    rw [lastByte, getLast?_append, hhd.last, Option.some_or]
    simp [NeedsComma]
  · simp only [append_assoc]
    refine ⟨(separated ha).1, (separated ha).2, fun t list ht hr => ?_⟩
    obtain ⟨t', hrun, hrm, hgen, hog, hsrc, hmp⟩ := hhd.parse hnm ht h0
      ⟨hsr'.1, hsr⟩ hln ha hb hd he (by split <;> simp) (fun hn => if_neg (by omega)) hr
    refine ⟨t', hrun, hrm, hgen, ?_, ?_, hmp⟩
    · rw [hog, hor]
      rfl
    · rw [hsrc, hzr, zero_add]
      rfl

/-- The text of the joined chunks parses to their mappings, shifted. -/
theorem joinFiles_parse (hnm : c.allowNames = false) (hcn : c.sourcesCount < 2 ^ 31)
    (hfl : ∀ map, .some map ∈ files → map.Whole c.allowAssert)
    (hpr : u.prevEndState.NonNeg) (hcl : u.prevEndState.generatedColumn = 0) (h0 : 0 ≤ line)
    (hln : IsOrdinal c.allowAssert
      (line + u.linesBetween + (files.map Shared.lines).sum))
    (hi : (i + files.length : ℤ) < c.sourcesCount) :
    ∃ u' text, joinFiles c.allowAssert u i files = some u' ∧ u'.j = u.j ++ text
      ∧ (NeedsComma (lastByte u.j) → EndsSegment text)
      ∧ (¬NeedsComma (lastByte u.j) → dropComma text = text)
      ∧ ∀ t list, Between u.prevEndState line list t → t.remain = dropComma text →
        ∃ t', (c.parseAll t).run = some (.ok t') ∧ t'.mapping = .withoutNames
          (list ++ joined c.allowAssert (line + u.linesBetween) (i + 1) files) := by
  induction files generalizing u i line with
  | nil =>
    refine ⟨u, [], rfl, (append_nil _).symm, fun _ => Or.inl rfl, fun _ => rfl,
      fun t list ht hr => ⟨t, ?_, ?_⟩⟩
    · rw [parseAll_nil hr]
      rfl
    · rw [ht.mapping, joined, append_nil]
  | cons file files ih =>
    have hfl' : ∀ map, .some map ∈ files → map.Whole c.allowAssert := fun map hmap =>
      hfl map (mem_cons_of_mem _ hmap)
    rw [map_cons, sum_cons] at hln
    have hsum := sum_lines_nonneg files
    have hi' : ((i + 1 : ℕ) + files.length : ℤ) < c.sourcesCount := by
      rw [length_cons] at hi
      push_cast at hi ⊢
      omega
    cases file with
    | none =>
      obtain ⟨u', text, hjn, hj, hen, hdr, hps⟩ := ih hfl' hpr hcl h0
        (by simpa [Shared.lines] using hln) hi'
      refine ⟨u', text, hjn, hj, hen, hdr, fun t list ht hr => ?_⟩
      obtain ⟨t', hrun, hmp⟩ := hps t list ht hr
      refine ⟨t', hrun, hmp.trans ?_⟩
      simp only [joined, Shared.lines, nil_append, add_zero]
      push_cast
      rfl
    | lineCount count =>
      have hlt : u.linesBetween + count < 2 ^ 32 := by
        have := hln.lt
        simp only [Shared.lines] at this
        omega
      obtain ⟨u', text, hjn, hj, hen, hdr, hps⟩ := ih
        (u := { u with linesBetween := u.linesBetween + count }) hfl' hpr hcl h0
        (by
          simp only [Shared.lines] at hln
          push_cast
          convert hln using 1
          ring) hi'
      refine ⟨u', text, ?_, hj, hen, hdr, fun t list ht hr => ?_⟩
      · rw [joinFiles, joinFile, u32, if_pos hlt]
        exact hjn
      · obtain ⟨t', hrun, hmp⟩ := hps t list ht hr
        refine ⟨t', hrun, hmp.trans ?_⟩
        simp only [joined, Shared.lines, nil_append]
        push_cast
        simp only [add_assoc]
    | some map =>
      simp only [Shared.lines] at hln
      have hen0 := lineEnds_nonneg (items .generatedColumn map.vlq)
      obtain ⟨text, hjn, hpr', hcm, hmr⟩ := (hfl map mem_cons_self).join hnm hpr
        hcl h0 (hln.mono (by omega) (by omega)) (i := i) (by push_cast at hi'; omega)
      obtain ⟨u', text', hjn', hj, -, hdr, hps⟩ := ih
        (u := { j := u.j ++ text, prevEndState := map.endState i, linesBetween := 0 }) (i := i + 1)
        hfl' hpr' rfl (show 0 ≤ line + u.linesBetween + lineEnds (items .generatedColumn map.vlq)
          by omega)
        (by
          convert hln using 1
          push_cast
          ring) hi'
      obtain ⟨hen, hdr', hfi⟩ := hmr text'
      refine ⟨u', text ++ text', ?_, by rw [hj, append_assoc], hen, hdr',
        fun t list ht hr => ?_⟩
      · rw [joinFiles, hjn]
        exact hjn'
      · obtain ⟨t₁, hrun, hrm, ht₁⟩ := hfi t list ht hr
        rw [hrun]
        obtain ⟨t', hrun', hmp⟩ := hps t₁ _ ht₁ (hrm.trans (hdr hcm).symm)
        refine ⟨t', hrun', hmp.trans ?_⟩
        simp only [joined, Shared.lines, append_assoc]
        push_cast
        rw [add_zero]

theorem number_zero : Number [0x41] 0 := ⟨by decide, by decide, by decide⟩

/-- The joined text is parsed to the runtime's mapping and those of the files, each moved by the
lines and the sources before it. -/
theorem parse_renderMappings (allowAssert : Bool) (lineCount inputLineCount : ℕ)
    {sourcesCount : ℤ} (hcount : files.length < sourcesCount) (hcount' : sourcesCount < 2 ^ 31)
    (hfiles : ∀ map, .some map ∈ files → map.Whole allowAssert)
    (hlines : IsOrdinal allowAssert (lineCount + (files.map Shared.lines).sum)) :
    ∃ text, renderMappings allowAssert lineCount files = some text
      ∧ parse allowAssert text sourcesCount inputLineCount {} = some (.success
        { mappings := .withoutNames
            (⟨⟨0, 0⟩, ⟨0, 0⟩, 0⟩ :: joined allowAssert lineCount 1 files)
          inputLineCount }) := by
  have hzero : ({} : SourceMapState).NonNeg :=
    ⟨by decide, by decide, by decide, by decide⟩
  have hjoin := fun n => joinFiles_parse
    (c := { allowAssert, sourcesCount, allowNames := false, len := n })
    (u := { j := [0x41, 0x41, 0x41, 0x41], linesBetween := lineCount }) (i := 0) rfl hcount' hfiles
    hzero rfl le_rfl (by simpa using hlines) (by simpa using hcount)
  obtain ⟨u, text, hu, hj, -⟩ := hjoin 0
  refine ⟨u.j, by rw [renderMappings, joinVLQ, hu]; rfl, ?_⟩
  obtain ⟨u', text', hu', hj', hends, -, hparse⟩ := hjoin u.j.length
  obtain rfl : u = u' := Option.some.inj (hu.symm.trans hu')
  have htext : u.j = [0x41] ++ ([0x41] ++ ([0x41] ++ ([0x41] ++ text'))) := hj'
  have h0 : addScalar allowAssert 0 0 = some 0 := by cases allowAssert <;> rfl
  have hfirst := parseAll_of_numbers
    (c := { allowAssert, sourcesCount, allowNames := false, len := u.j.length })
    (s := { remain := u.j }) number_zero number_zero number_zero number_zero htext h0 le_rfl
    (show i32 (0 + 0) = some 0 from rfl) le_rfl (lt_of_le_of_lt (Int.natCast_nonneg _) hcount) h0
    le_rfl h0 le_rfl
  have hcomma : NeedsComma (lastByte [0x41, 0x41, 0x41, 0x41]) := by decide
  rw [following_of_endsSegment (hends hcomma)] at hfirst
  simp only [advance, if_pos (hends hcomma)] at hfirst
  obtain ⟨s', hrun, hmapping⟩ := hparse
    (appendMapping (skipComma { needsSort := false || (0 : ℤ) < 0, remain := text' }))
    [⟨⟨0, 0⟩, ⟨0, 0⟩, 0⟩] ⟨rfl, rfl, rfl, rfl⟩ rfl
  have hloop : (ParseConfig.parseLoop _ u.j.length { remain := u.j }).run = some (.ok s') :=
    (congrArg ExceptT.run hfirst).trans hrun
  simp only [parse, hloop, Option.map_some, hmapping, Bool.and_false, Bool.false_eq_true, if_false]
  simp

/-- `AAAA;`, three lines and `AAAA;` once more, behind a runtime of one line. -/
theorem parse_renderMappings_lines :
    ∃ text, renderMappings true 1 [.some ⟨[0x41, 0x41, 0x41, 0x41, 0x3b], 0, 0⟩, .lineCount 3,
        .some ⟨[0x41, 0x41, 0x41, 0x41, 0x3b], 0, 0⟩] = some text
      ∧ parse true text 4 0 {} = some (.success
        { mappings := .withoutNames (⟨⟨0, 0⟩, ⟨0, 0⟩, 0⟩ :: joined true (1 : ℕ) 1
            [.some ⟨[0x41, 0x41, 0x41, 0x41, 0x3b], 0, 0⟩, .lineCount 3,
              .some ⟨[0x41, 0x41, 0x41, 0x41, 0x3b], 0, 0⟩])
          inputLineCount := 0 }) := by
  have hends : EndsSegment [0x3b] := by decide
  have h1 : items .originalColumn ([0x41] ++ [0x3b]) = _ := number_zero.items
  have h2 : items .originalLine ([0x41] ++ [0x41, 0x3b]) = _ := number_zero.items
  have h3 : items .sourceIndex ([0x41] ++ [0x41, 0x41, 0x3b]) = _ := number_zero.items
  have h4 : items .generatedColumn ([0x41] ++ [0x41, 0x41, 0x41, 0x3b]) = _ := number_zero.items
  have h0 : items .generatedColumn [0x3b] = [.lineEnd] :=
    (items_lineEnd []).trans (congrArg _ items_nil)
  rw [following_of_endsSegment hends, dropComma, if_neg (by decide)] at h1
  rw [following_originalLine] at h2
  rw [following_sourceIndex] at h3
  rw [following_generatedColumn (by decide)] at h4
  have hitems : items .generatedColumn [0x41, 0x41, 0x41, 0x41, 0x3b] =
      [.number .generatedColumn [0x41, 0x41, 0x41, 0x41, 0x3b],
        .number .sourceIndex [0x41, 0x41, 0x41, 0x3b], .number .originalLine [0x41, 0x41, 0x3b],
        .number .originalColumn [0x41, 0x3b], .lineEnd] :=
    h4.trans (congrArg _ (h3.trans (congrArg _ (h2.trans (congrArg _ (h1.trans (congrArg _ h0)))))))
  refine parse_renderMappings true 1 0 (by decide) (by norm_num) ?_ ?_
  · have hwhole : PackedMap.Whole true ⟨[0x41, 0x41, 0x41, 0x41, 0x3b], 0, 0⟩ := by
      refine ⟨⟨[⟨⟨0, 0⟩, ⟨0, 0⟩, 0⟩], by decide +kernel⟩, fun f t ht => ?_, ⟨⟨0, 1⟩, by decide,
        by decide⟩, by decide, by decide +kernel⟩
      refine ⟨⟨0, 1⟩, ?_⟩
      simp only [hitems, mem_cons, Item.number.injEq, reduceCtorEq, not_mem_nil,
        or_false] at ht
      rcases ht with ⟨-, rfl⟩ | ⟨-, rfl⟩ | ⟨-, rfl⟩ | ⟨-, rfl⟩ <;> decide +kernel
    intro map hmap
    simp only [mem_cons, Shared.some.injEq, reduceCtorEq, not_mem_nil, or_false,
      false_or, or_self] at hmap
    rw [hmap]
    exact hwhole
  · simp only [map_cons, map_nil, Shared.lines, hitems]
    exact ⟨by decide, by decide, by decide⟩

/-- `A,AAAA;` has a mapping, but its first segment has only a column; and `2 ^ 31` lines are no
`i32`. -/
theorem parse_renderMappings_refuted :
    ((PackedMap.mk [0x41, 0x2c, 0x41, 0x41, 0x41, 0x41, 0x3b] 0 0).mappings false =
        [⟨⟨0, 0⟩, ⟨0, 0⟩, 0⟩]
      ∧ (renderMappings false 1
          [.some ⟨[0x41, 0x2c, 0x41, 0x41, 0x41, 0x41, 0x3b], 0, 0⟩]).bind
          (fun text => parse false text 2 0 {}) ≠
        some (.success { mappings := .withoutNames [⟨⟨0, 0⟩, ⟨0, 0⟩, 0⟩, ⟨⟨1, 0⟩, ⟨0, 0⟩, 1⟩]
                         inputLineCount := 0 }))
      ∧ renderMappings false 0 [.lineCount (2 ^ 31),
          .some ⟨[0x41, 0x41, 0x41, 0x41, 0x3b], 0, 0⟩] = none := by
  decide +kernel

end

end Cruller.SourceMap
