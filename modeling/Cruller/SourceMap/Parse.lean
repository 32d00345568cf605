import Cruller.Lib.Drain
import Cruller.SourceMap.Mapping
import Cruller.SourceMap.VlqDecode

/-!
# Parsing mappings

`Mapping.parse` of `sourcemap/Mapping.zig`. A failure is a result of its own; `none` is a read out
of bounds, an overflow or a failed assertion. The loop reads a line end or a segment at a time
(`parseAll_newline`, `parseAll_segment`).
-/

namespace Cruller.SourceMap

open List

/-- `allowAssert` is `Environment.allow_assert`. -/
def fromZeroBased (allowAssert : Bool) (int : ℤ) : Option ℤ :=
  if allowAssert = true ∧ ¬(0 ≤ int ∧ int ≠ 2 ^ 31 - 1) then none else some int

/-- A number is added; what overflows or gets negative may panic. -/
def addScalar (allowAssert : Bool) (ord inc : ℤ) : Option ℤ :=
  (i32 (ord + inc)).bind (fromZeroBased allowAssert)

/-- A value that `bun.Ordinal` takes. -/
structure IsOrdinal (allowAssert : Bool) (v : ℤ) : Prop where
  nonneg : 0 ≤ v
  lt : v < 2 ^ 31
  ne : allowAssert = true → v ≠ 2 ^ 31 - 1

theorem IsOrdinal.mono {allowAssert : Bool} {v w : ℤ} (h : IsOrdinal allowAssert w) (h0 : 0 ≤ v)
    (hle : v ≤ w) : IsOrdinal allowAssert v :=
  ⟨h0, lt_of_le_of_lt hle h.lt, fun ha => by have := h.ne ha; have := h.lt; omega⟩

/-- Which field could not be read, or had a value out of range. -/
inductive ParseError
  | missingGeneratedColumnValue
  | invalidGeneratedColumnValue
  | invalidSourceIndexDelta
  | invalidSourceIndexValue
  | missingOriginalLine
  | invalidOriginalLineValue
  | missingOriginalColumnValue
  | invalidOriginalColumnValue
  | invalidNameIndexDelta
  deriving DecidableEq, Repr

/-- Where parsing stopped, and why. -/
structure ParseFail where
  loc : ℤ
  err : ParseError
  value : ℤ := 0
  msg : String := ""
  deriving DecidableEq, Repr

/-- The mappings that were parsed. -/
structure ParsedSourceMap where
  mappings : MappingList
  inputLineCount : ℕ
  deriving DecidableEq

inductive ParseResult
  | fail (fail : ParseFail)
  | success (map : ParsedSourceMap)
  deriving DecidableEq

structure ParseOptions where
  allowNames : Bool := false
  sort : Bool := false

/-- What does not change while a text is parsed; `len` is its length. -/
structure ParseConfig where
  allowAssert : Bool
  sourcesCount : ℤ
  allowNames : Bool
  len : ℕ

/-- The state of the loop. -/
structure ParseState where
  mapping : MappingList := .withoutNames []
  generated : LineColumnOffset := ⟨0, 0⟩
  original : LineColumnOffset := ⟨0, 0⟩
  nameIndex : ℤ := 0
  sourceIndex : ℤ := 0
  needsSort : Bool := false
  hasNames : Bool := false
  remain : List UInt8

/-- A panic is `none`. -/
abbrev Parse := Fallible ParseFail

namespace ParseConfig

variable (c : ParseConfig)

/-- Parsing stops here. -/
def fail {α : Type} (remain : List UInt8) (err : ParseError) (value : ℤ) (msg : String) :
    Parse α := do
  let loc ← i32 (c.len - remain.length)
  throw { loc, err, value, msg }

/-- A number, which is added to a running value; how far the text is read after it. -/
def readField (remain : List UInt8) (missing : Parse VLQResult) (add : ℤ → Option ℤ)
    (bad : ℤ → Bool) (invalid : ℤ → Parse ℤ) : Parse (ℤ × ℤ × List UInt8) := do
  let delta ← decode remain 0
  let delta ← (if delta.start = 0 then missing else pure delta)
  let value ← add delta.value
  let value ← (if bad value then invalid value else pure value)
  pure (delta.value, value, remain.drop delta.start)

/-- The first number of a segment. -/
def readGeneratedColumn (s : ParseState) : Parse ParseState := do
  let (delta, columns, remain) ← readField s.remain
    (c.fail s.remain .missingGeneratedColumnValue s.generated.columns
      "Missing generated column value")
    (addScalar c.allowAssert s.generated.columns) (· < 0)
    (fun value => c.fail s.remain .invalidGeneratedColumnValue value
      "Invalid generated column value")
  pure { s with
    needsSort := s.needsSort || delta < 0
    generated := { s.generated with columns }
    remain }

/-- The second number. -/
def readSourceIndex (s : ParseState) : Parse ParseState := do
  let (_, sourceIndex, remain) ← readField s.remain
    (c.fail s.remain .invalidSourceIndexDelta 0 "Invalid source index delta")
    (fun delta => i32 (s.sourceIndex + delta)) (fun value => value < 0 || c.sourcesCount ≤ value)
    (fun value => c.fail s.remain .invalidSourceIndexValue value "Invalid source index value")
  pure { s with sourceIndex, remain }

/-- The third number. -/
def readOriginalLine (s : ParseState) : Parse ParseState := do
  let (_, lines, remain) ← readField s.remain
    (c.fail s.remain .missingOriginalLine 0 "Missing original line")
    (addScalar c.allowAssert s.original.lines) (· < 0)
    (fun value => c.fail s.remain .invalidOriginalLineValue value "Invalid original line value")
  pure { s with original := { s.original with lines }, remain }

/-- The fourth number. -/
def readOriginalColumn (s : ParseState) : Parse ParseState := do
  let (_, columns, remain) ← readField s.remain
    (c.fail s.remain .missingOriginalColumnValue s.original.columns
      "Missing original column value")
    (addScalar c.allowAssert s.original.columns) (· < 0)
    (fun value => c.fail s.remain .invalidOriginalColumnValue value
      "Invalid original column value")
  pure { s with original := { s.original with columns }, remain }

/-- The fifth column; `char` is its first byte. -/
def readNameIndex (char : UInt8) (s : ParseState) : Parse ParseState := do
  let (_, nameIndex, remain) ← readField s.remain
    (c.fail s.remain .invalidNameIndexDelta char.toNat "Invalid name index delta")
    (fun delta => if c.allowNames then i32 (s.nameIndex + delta) else some s.nameIndex)
    (fun _ => false) pure
  if c.allowNames then
    pure { s with
      nameIndex, remain, hasNames := true
      mapping := if s.hasNames then s.mapping else s.mapping.ensureWithNames }
  else pure { s with remain }

/-- The segment has been read. -/
def appendMapping (s : ParseState) : ParseState :=
  { s with mapping := s.mapping.append
            { generated := s.generated, original := s.original
              sourceIndex := s.sourceIndex, nameIndex := s.nameIndex } }

/-- A comma between two mappings of a line. -/
def dropComma : List UInt8 → List UInt8
  | [] => []
  | char :: remain => if char = comma then remain else char :: remain

def skipComma (s : ParseState) : ParseState := { s with remain := dropComma s.remain }

/-- The numbers about the source. -/
def readOriginal (s : ParseState) : Parse ParseState := do
  let s ← c.readSourceIndex s
  let s ← c.readOriginalLine s
  let s ← c.readOriginalColumn s
  let s ← (match s.remain with
    | [] => pure s
    | char :: _ =>
      if char = comma ∨ char = semicolon then pure (skipComma s)
      else do
        let s ← c.readNameIndex char s
        pure (skipComma s))
  pure (appendMapping s)

/-- A segment; one field alone says nothing and is dropped. -/
def readSegment (s : ParseState) : Parse ParseState := do
  let s ← c.readGeneratedColumn s
  match s.remain with
  | [] => pure s
  | char :: _ =>
    if char = comma then pure (skipComma s)
    else if char = semicolon then pure s
    else c.readOriginal s

/-- Four line ends at a time. -/
def skipFours : ℤ → List UInt8 → Option (ℤ × List UInt8)
  | lines, b0 :: b1 :: b2 :: b3 :: remain =>
    if b0 = semicolon ∧ b1 = semicolon ∧ b2 = semicolon ∧ b3 = semicolon then do
      let lines ← addScalar c.allowAssert lines 4
      skipFours lines remain
    else some (lines, b0 :: b1 :: b2 :: b3 :: remain)
  | lines, remain => some (lines, remain)

/-- One line end at a time. -/
def skipOnes : ℤ → List UInt8 → Option (ℤ × List UInt8)
  | lines, char :: remain =>
    if char = semicolon then do
      let lines ← addScalar c.allowAssert lines 1
      skipOnes lines remain
    else some (lines, char :: remain)
  | lines, [] => some (lines, [])

/-- The line ends that stand here. -/
def readLineEnds (s : ParseState) : Option ParseState := do
  let (lines, remain) ← c.skipFours s.generated.lines s.remain
  let (lines, remain) ← c.skipOnes lines remain
  some { s with generated := { lines, columns := 0 }, remain }

/-- One turn of the loop: line ends and a segment. -/
def parseRound (s : ParseState) : Parse ParseState := do
  let s ← (if s.remain.head? = some semicolon then c.readLineEnds s else pure s)
  if s.remain = [] then pure s else c.readSegment s

/-- Every round reads a byte, so the length of the text is enough rounds. -/
def parseLoop : ℕ → ParseState → Parse ParseState := Fallible.drain ParseState.remain c.parseRound

end ParseConfig

/-- The list is grown as it is needed; running out of memory is not modelled. -/
def parse (allowAssert : Bool) (bytes : List UInt8) (sourcesCount : ℤ) (inputLineCount : ℕ)
    (options : ParseOptions) : Option ParseResult :=
  let c : ParseConfig :=
    { allowAssert, sourcesCount, allowNames := options.allowNames, len := bytes.length }
  (c.parseLoop bytes.length { remain := bytes }).run.map fun
    | .error fail => .fail fail
    | .ok s => .success
      { mappings := if s.needsSort && options.sort then s.mapping.sort else s.mapping
        inputLineCount }

namespace ParseConfig

variable {c : ParseConfig} {remain : List UInt8} {missing : Parse VLQResult} {add : ℤ → Option ℤ}
  {bad : ℤ → Bool} {invalid : ℤ → Parse ℤ} {s s' : ParseState}

variable {value ord lines : ℤ} {allowAssert : Bool}

theorem fail_run {α : Type} {err : ParseError} {msg : String} :
    (c.fail remain err value msg : Parse α).run =
      (i32 (c.len - remain.length)).map fun loc => .error { loc, err, value, msg } := by
  unfold fail
  rw [Fallible.run_bind, Fallible.run_liftM]
  rcases i32 (c.len - remain.length) with _ | loc <;> rfl

theorem fail_ne_ok {α : Type} {err : ParseError} {msg : String} {a : α} :
    (c.fail remain err value msg : Parse α).run ≠ some (.ok a) := by
  rw [fail_run]
  rcases i32 (c.len - remain.length) with _ | loc <;> simp

theorem readField_run : (readField remain missing add bad invalid).run =
    match decode remain 0 with
    | none => none
    | some delta =>
      match add delta.value with
      | none => none
      | some value =>
        if bad value then (invalid value >>= fun value =>
          pure (delta.value, value, remain.drop delta.start) : Parse _).run
        else some (.ok (delta.value, value, remain.drop delta.start)) := by
  unfold readField
  rw [Fallible.run_bind, Fallible.run_liftM]
  rcases hd : decode remain 0 with _ | delta
  · rfl
  · have hs := (decodeWith_start hd).1
    simp only [Option.map_some, if_neg (show delta.start ≠ 0 by omega)]
    rw [Fallible.bind_of_ok (Fallible.run_pure delta), Fallible.run_bind, Fallible.run_liftM]
    rcases add delta.value with _ | value
    · rfl
    · simp only [Option.map_some]
      split
      · rfl
      · rfl

theorem readField_eq_ok {delta : ℤ} {rest : List UInt8}
    (hin : ∀ v w, bad v = true → (invalid v).run ≠ some (.ok w)) :
    (readField remain missing add bad invalid).run = some (.ok (delta, value, rest)) ↔
      ∃ d, decode remain 0 = some d ∧ d.value = delta ∧ add delta = some value
        ∧ bad value = false ∧ rest = remain.drop d.start := by
  rw [readField_run]
  rcases decode remain 0 with _ | d
  · simp
  · simp only [Option.some.injEq, exists_eq_left']
    rcases ha : add d.value with _ | v
    · simp only [reduceCtorEq, false_iff]
      rintro ⟨rfl, h, -⟩
      rw [ha] at h
      cases h
    · by_cases hb : bad v
      · simp only [hb, if_true, Fallible.bind_eq_ok]
        refine ⟨fun ⟨w, hw, _⟩ => absurd hw (hin v w hb), ?_⟩
        rintro ⟨rfl, h, hb', -⟩
        rw [ha, Option.some.injEq] at h
        subst h
        simp [hb] at hb'
      · simp only [hb, Bool.false_eq_true, if_false, Option.some.injEq, Except.ok.injEq,
          Prod.mk.injEq]
        constructor
        · rintro ⟨rfl, rfl, rfl⟩
          exact ⟨rfl, ha, by simpa using hb, rfl⟩
        · rintro ⟨rfl, h, -, rfl⟩
          rw [ha, Option.some.injEq] at h
          exact ⟨rfl, h, rfl⟩

theorem readGeneratedColumn_eq_ok : (c.readGeneratedColumn s).run = some (.ok s') ↔
    ∃ d columns, decode s.remain 0 = some d
      ∧ addScalar c.allowAssert s.generated.columns d.value = some columns ∧ 0 ≤ columns
      ∧ s' = { s with
          needsSort := s.needsSort || d.value < 0
          generated := { s.generated with columns }
          remain := s.remain.drop d.start } := by
  unfold readGeneratedColumn
  simp only [Fallible.bind_eq_ok, Prod.exists,
    readField_eq_ok fun _ _ _ => fail_ne_ok, Fallible.run_pure, Option.some.injEq, Except.ok.injEq]
  constructor
  · rintro ⟨delta, columns, remain, ⟨d, hd, rfl, hadd, hbad, rfl⟩, rfl⟩
    exact ⟨d, columns, hd, hadd, by simpa using hbad, rfl⟩
  · rintro ⟨d, columns, hd, hadd, hbad, rfl⟩
    exact ⟨_, columns, _, ⟨d, hd, rfl, hadd, by simpa using hbad, rfl⟩, rfl⟩

theorem readSourceIndex_eq_ok : (c.readSourceIndex s).run = some (.ok s') ↔
    ∃ d sourceIndex, decode s.remain 0 = some d ∧ i32 (s.sourceIndex + d.value) = some sourceIndex
      ∧ 0 ≤ sourceIndex ∧ sourceIndex < c.sourcesCount
      ∧ s' = { s with sourceIndex, remain := s.remain.drop d.start } := by
  unfold readSourceIndex
  simp only [Fallible.bind_eq_ok, Prod.exists,
    readField_eq_ok fun _ _ _ => fail_ne_ok, Fallible.run_pure, Option.some.injEq, Except.ok.injEq]
  constructor
  · rintro ⟨delta, sourceIndex, remain, ⟨d, hd, rfl, hadd, hbad, rfl⟩, rfl⟩
    simp only [Bool.or_eq_false_iff, decide_eq_false_iff_not, not_lt, not_le] at hbad
    exact ⟨d, sourceIndex, hd, hadd, hbad.1, hbad.2, rfl⟩
  · rintro ⟨d, sourceIndex, hd, hadd, hlow, hhg, rfl⟩
    exact ⟨_, sourceIndex, _, ⟨d, hd, rfl, hadd, by simp [hlow, hhg], rfl⟩, rfl⟩

theorem readOriginalLine_eq_ok : (c.readOriginalLine s).run = some (.ok s') ↔
    ∃ d lines, decode s.remain 0 = some d
      ∧ addScalar c.allowAssert s.original.lines d.value = some lines ∧ 0 ≤ lines
      ∧ s' = { s with
          original := { s.original with lines }, remain := s.remain.drop d.start } := by
  unfold readOriginalLine
  simp only [Fallible.bind_eq_ok, Prod.exists,
    readField_eq_ok fun _ _ _ => fail_ne_ok, Fallible.run_pure, Option.some.injEq, Except.ok.injEq]
  constructor
  · rintro ⟨delta, lines, remain, ⟨d, hd, rfl, hadd, hbad, rfl⟩, rfl⟩
    exact ⟨d, lines, hd, hadd, by simpa using hbad, rfl⟩
  · rintro ⟨d, lines, hd, hadd, hbad, rfl⟩
    exact ⟨_, lines, _, ⟨d, hd, rfl, hadd, by simpa using hbad, rfl⟩, rfl⟩

theorem readOriginalColumn_eq_ok : (c.readOriginalColumn s).run = some (.ok s') ↔
    ∃ d columns, decode s.remain 0 = some d
      ∧ addScalar c.allowAssert s.original.columns d.value = some columns ∧ 0 ≤ columns
      ∧ s' = { s with
          original := { s.original with columns }, remain := s.remain.drop d.start } := by
  unfold readOriginalColumn
  simp only [Fallible.bind_eq_ok, Prod.exists,
    readField_eq_ok fun _ _ _ => fail_ne_ok, Fallible.run_pure, Option.some.injEq, Except.ok.injEq]
  constructor
  · rintro ⟨delta, columns, remain, ⟨d, hd, rfl, hadd, hbad, rfl⟩, rfl⟩
    exact ⟨d, columns, hd, hadd, by simpa using hbad, rfl⟩
  · rintro ⟨d, columns, hd, hadd, hbad, rfl⟩
    exact ⟨_, columns, _, ⟨d, hd, rfl, hadd, by simpa using hbad, rfl⟩, rfl⟩

/-- With names the number counts, without them it is only skipped. -/
def withName (c : ParseConfig) (s : ParseState) (nameIndex : ℤ) (remain : List UInt8) : ParseState :=
  if c.allowNames then
    { s with
      nameIndex, remain, hasNames := true
      mapping := if s.hasNames then s.mapping else s.mapping.ensureWithNames }
  else { s with remain }

theorem readNameIndex_eq_ok {char : UInt8} : (c.readNameIndex char s).run = some (.ok s') ↔
    ∃ d nameIndex, decode s.remain 0 = some d
      ∧ (if c.allowNames then i32 (s.nameIndex + d.value) else some s.nameIndex) = some nameIndex
      ∧ s' = c.withName s nameIndex (s.remain.drop d.start) := by
  unfold readNameIndex
  simp only [Fallible.bind_eq_ok, Prod.exists, @readField_eq_ok _ _ _ (fun _ => false)
    _ _ _ _ (fun _ _ h => absurd h Bool.false_ne_true)]
  constructor
  · rintro ⟨delta, nameIndex, remain, ⟨d, hd, rfl, hadd, -, rfl⟩, h⟩
    refine ⟨d, nameIndex, hd, hadd, ?_⟩
    unfold withName
    split_ifs at h ⊢ <;> simpa using h.symm
  · rintro ⟨d, nameIndex, hd, hadd, rfl⟩
    refine ⟨_, nameIndex, _, ⟨d, hd, rfl, hadd, trivial, rfl⟩, ?_⟩
    unfold withName
    split_ifs <;> rfl

/-- The end of a mapping: a name, which may be missing, and a comma, which may be missing too. -/
def readName (c : ParseConfig) (s : ParseState) : Parse ParseState :=
  match s.remain with
  | [] => pure s
  | char :: _ =>
    if char = comma ∨ char = semicolon then pure (skipComma s)
    else do
      let s ← c.readNameIndex char s
      pure (skipComma s)

theorem readOriginal_eq : c.readOriginal s = (do
    let s ← c.readSourceIndex s
    let s ← c.readOriginalLine s
    let s ← c.readOriginalColumn s
    let s ← c.readName s
    pure (appendMapping s)) := rfl

theorem length_dropComma : (dropComma remain).length ≤ remain.length := by
  rcases remain with _ | ⟨char, remain⟩
  · exact le_rfl
  · rw [dropComma]
    split
    · exact Nat.le_succ _
    · exact le_rfl

theorem length_skipComma : (skipComma s).remain.length ≤ s.remain.length := length_dropComma

theorem length_withName {nameIndex : ℤ} {rest : List UInt8} :
    (c.withName s nameIndex rest).remain = rest := by
  unfold withName
  split <;> rfl

theorem length_readName (h : (c.readName s).run = some (.ok s')) :
    s'.remain.length ≤ s.remain.length := by
  unfold readName at h
  split at h
  · simp only [Fallible.run_pure, Option.some.injEq, Except.ok.injEq] at h
    rw [← h]
  · split at h
    · simp only [Fallible.run_pure, Option.some.injEq, Except.ok.injEq] at h
      rw [← h]
      exact length_skipComma
    · simp only [Fallible.bind_eq_ok, readNameIndex_eq_ok, Fallible.run_pure, Option.some.injEq,
        Except.ok.injEq] at h
      obtain ⟨s1, ⟨d, nameIndex, -, -, rfl⟩, rfl⟩ := h
      refine length_skipComma.trans ?_
      rw [length_withName, length_drop]
      omega

theorem length_readSegment (h : (c.readSegment s).run = some (.ok s')) :
    s'.remain.length < s.remain.length := by
  unfold readSegment at h
  rw [Fallible.bind_eq_ok] at h
  obtain ⟨s1, h1, h⟩ := h
  rw [readGeneratedColumn_eq_ok] at h1
  obtain ⟨d, columns, hd, -, -, rfl⟩ := h1
  obtain ⟨hpos, hle⟩ := decodeWith_start hd
  have hlt : (s.remain.drop d.start).length < s.remain.length := by
    rw [length_drop]
    omega
  split at h
  · rename_i hnil
    simp only [Fallible.run_pure, Option.some.injEq, Except.ok.injEq] at h
    rw [← h]
    exact hlt
  · split_ifs at h
    · simp only [Fallible.run_pure, Option.some.injEq, Except.ok.injEq] at h
      rw [← h]
      exact lt_of_le_of_lt length_skipComma hlt
    · simp only [Fallible.run_pure, Option.some.injEq, Except.ok.injEq] at h
      rw [← h]
      exact hlt
    · simp only [readOriginal_eq, Fallible.bind_eq_ok, readSourceIndex_eq_ok, readOriginalLine_eq_ok,
        readOriginalColumn_eq_ok, Fallible.run_pure, Option.some.injEq, Except.ok.injEq] at h
      obtain ⟨_, ⟨d2, _, -, -, -, -, rfl⟩, _, ⟨d3, _, -, -, -, rfl⟩, _, ⟨d4, _, -, -, -, rfl⟩,
        s5, h5, rfl⟩ := h
      have h5 := length_readName h5
      simp only [length_drop] at h5 hlt
      change s5.remain.length < _
      omega

theorem addScalar_eq_some {inc v : ℤ} :
    addScalar allowAssert ord inc = some v ↔
      v = ord + inc ∧ IsI32 v ∧ (allowAssert = true → 0 ≤ v ∧ v ≠ 2 ^ 31 - 1) := by
  simp only [addScalar, fromZeroBased, Option.bind_eq_some_iff, i32_eq_some]
  constructor
  · rintro ⟨w, ⟨hw, rfl⟩, h⟩
    split_ifs at h with hc
    rw [Option.some.injEq] at h
    subst h
    exact ⟨rfl, hw, fun ha => by_contra fun hn => hc ⟨ha, hn⟩⟩
  · rintro ⟨rfl, hv, ha⟩
    exact ⟨_, ⟨hv, rfl⟩, if_neg fun hc => hc.2 (ha hc.1)⟩

theorem addScalar_of_isOrdinal {v : ℤ} (h : IsOrdinal allowAssert v) :
    addScalar allowAssert ord (v - ord) = some v :=
  addScalar_eq_some.2 ⟨by ring, ⟨by have := h.nonneg; omega, h.lt⟩, fun ha => ⟨h.nonneg, h.ne ha⟩⟩

theorem addScalar_four (h : 0 ≤ ord) :
    addScalar allowAssert ord 4 = (addScalar allowAssert ord 1).bind fun a =>
      (addScalar allowAssert a 1).bind fun b => (addScalar allowAssert b 1).bind fun d =>
        addScalar allowAssert d 1 := by
  apply Option.ext
  intro v
  simp only [Option.bind_eq_some_iff, addScalar_eq_some]
  constructor
  · rintro ⟨rfl, ⟨hlow, hhg⟩, ha⟩
    refine ⟨ord + 1, ⟨rfl, ⟨by omega, by omega⟩, fun h => by have := ha h; omega⟩, ord + 1 + 1,
      ⟨rfl, ⟨by omega, by omega⟩, fun h => by have := ha h; omega⟩, ord + 1 + 1 + 1,
      ⟨rfl, ⟨by omega, by omega⟩, fun h => by have := ha h; omega⟩, by ring, ⟨hlow, hhg⟩, ha⟩
  · rintro ⟨_, ⟨rfl, -⟩, _, ⟨rfl, -⟩, _, ⟨rfl, -⟩, rfl, hv, ha⟩
    exact ⟨by ring, hv, ha⟩

theorem skipFours_skipOnes (h : 0 ≤ lines) :
    ((c.skipFours lines remain).bind fun p => c.skipOnes p.1 p.2) = c.skipOnes lines remain := by
  fun_induction skipFours c lines remain with
  | case1 lines b0 b1 b2 b3 remain hb ih =>
    obtain ⟨rfl, rfl, rfl, rfl⟩ := hb
    have hon : ∀ l r, c.skipOnes l (semicolon :: r) =
        (addScalar c.allowAssert l 1).bind fun l => c.skipOnes l r := fun l r => by
      rw [skipOnes, if_pos rfl]
      rfl
    have hfr : c.skipOnes lines (semicolon :: semicolon :: semicolon :: semicolon :: remain) =
        (addScalar c.allowAssert lines 4).bind fun l => c.skipOnes l remain := by
      rw [addScalar_four h]
      simp only [hon, Option.bind_assoc]
    rw [hfr, Option.bind_eq_bind, Option.bind_assoc]
    rcases hl : addScalar c.allowAssert lines 4 with _ | l
    · rfl
    · rw [addScalar_eq_some] at hl
      exact ih l (by omega)
  | case2 => rfl
  | case3 => rfl

theorem length_skipFours {p : ℤ × List UInt8} (h : c.skipFours lines remain = some p) :
    p = (lines, remain) ∨ p.2.length < remain.length := by
  fun_induction skipFours c lines remain with
  | case1 lines b0 b1 b2 b3 remain hb ih =>
    simp only [Option.bind_eq_bind, Option.bind_eq_some_iff] at h
    obtain ⟨l, -, h⟩ := h
    refine Or.inr ?_
    simp only [length_cons]
    rcases ih l h with rfl | hlt
    · simp only
      omega
    · omega
  | case2 => exact Or.inl (Option.some.inj h).symm
  | case3 => exact Or.inl (Option.some.inj h).symm

theorem length_skipOnes {p : ℤ × List UInt8} (h : c.skipOnes lines remain = some p) :
    p.2.length ≤ remain.length
      ∧ (remain.head? = some semicolon → p.2.length < remain.length) := by
  fun_induction skipOnes c lines remain with
  | case1 lines remain ih =>
    simp only [Option.bind_eq_bind, Option.bind_eq_some_iff] at h
    obtain ⟨l, -, h⟩ := h
    have hle := (ih l h).1
    exact ⟨by rw [length_cons]; omega, fun _ => by rw [length_cons]; omega⟩
  | case2 lines char remain hne =>
    rw [← Option.some.inj h]
    exact ⟨le_rfl, fun hh => absurd (Option.some.inj hh) hne⟩
  | case3 =>
    rw [← Option.some.inj h]
    exact ⟨le_rfl, fun hh => by simp at hh⟩

theorem length_readLineEnds (h : c.readLineEnds s = some s') (hs : s.remain.head? = some semicolon) :
    s'.remain.length < s.remain.length := by
  simp only [readLineEnds, Option.bind_eq_bind, Option.bind_eq_some_iff, Prod.exists] at h
  obtain ⟨l1, r1, h1, l2, r2, h2, h⟩ := h
  rw [← Option.some.inj h]
  obtain ⟨hle, hlt⟩ := length_skipOnes h2
  rcases length_skipFours h1 with h1 | h1
  · rw [Prod.mk.injEq] at h1
    obtain ⟨rfl, rfl⟩ := h1
    exact hlt hs
  · exact lt_of_le_of_lt hle h1

theorem readLineEnds_eq (h : 0 ≤ s.generated.lines) :
    c.readLineEnds s = (c.skipOnes s.generated.lines s.remain).map fun p =>
      { s with generated := { lines := p.1, columns := 0 }, remain := p.2 } := by
  rw [← skipFours_skipOnes h, readLineEnds]
  rcases c.skipFours s.generated.lines s.remain with _ | p
  · rfl
  · change (c.skipOnes p.1 p.2).bind _ = (c.skipOnes p.1 p.2).map _
    rcases c.skipOnes p.1 p.2 with _ | q <;> rfl

theorem length_parseRound (h : (c.parseRound s).run = some (.ok s')) (hs : s.remain ≠ []) :
    s'.remain.length < s.remain.length := by
  unfold parseRound at h
  rw [Fallible.bind_eq_ok] at h
  obtain ⟨s1, h1, h⟩ := h
  have hend : s'.remain.length < s1.remain.length ∨ s' = s1 ∧ s1.remain = [] := by
    split_ifs at h with hnil
    · simp only [Fallible.run_pure, Option.some.injEq, Except.ok.injEq] at h
      exact Or.inr ⟨h.symm, hnil⟩
    · exact Or.inl (length_readSegment h)
  split_ifs at h1 with hsm
  · simp only [Fallible.run_liftM, Option.map_eq_some_iff, Except.ok.injEq, exists_eq_right] at h1
    have := length_readLineEnds h1 hsm
    rcases hend with hend | ⟨rfl, -⟩ <;> omega
  · simp only [Fallible.run_pure, Option.some.injEq, Except.ok.injEq] at h1
    subst h1
    rcases hend with hend | ⟨-, hnil⟩
    · exact hend
    · exact absurd hnil hs

theorem shortens : Fallible.Shortens ParseState.remain c.parseRound := fun _ _ hs h =>
  length_parseRound h hs

/-- All turns. -/
def parseAll (c : ParseConfig) : ParseState → Parse ParseState :=
  Fallible.drainAll ParseState.remain c.parseRound

theorem parseAll_nil (h : s.remain = []) : c.parseAll s = pure s := Fallible.drainAll_nil h

theorem parseAll_round (h : s.remain ≠ []) : c.parseAll s = c.parseRound s >>= c.parseAll :=
  Fallible.drainAll_round shortens h

theorem parseAll_segment {char : UInt8} (hs : s.remain = char :: remain) (hc : char ≠ semicolon) :
    c.parseAll s = c.readSegment s >>= c.parseAll := by
  have hhd : s.remain.head? ≠ some semicolon := by
    rw [hs]
    simpa using hc
  have hnil : s.remain ≠ [] := by
    rw [hs]
    exact cons_ne_nil _ _
  rw [parseAll_round hnil, parseRound, if_neg hhd, pure_bind, if_neg hnil]

/-- The beginning of a line. -/
def newline (s : ParseState) (lines : ℤ) (remain : List UInt8) : ParseState :=
  { s with generated := { lines, columns := 0 }, remain }

theorem parseRound_newline (h : 0 ≤ s.generated.lines) (hs : s.remain = semicolon :: remain) :
    c.parseRound s = (ExceptT.lift (addScalar c.allowAssert s.generated.lines 1) : Parse ℤ) >>=
      fun lines => c.parseRound (newline s lines remain) := by
  apply ExceptT.ext
  have hon : c.skipOnes s.generated.lines s.remain =
      (addScalar c.allowAssert s.generated.lines 1).bind fun l => c.skipOnes l remain := by
    rw [hs, skipOnes, if_pos rfl]
    rfl
  rw [parseRound, if_pos (by rw [hs]; rfl), readLineEnds_eq h, hon, Fallible.run_bind,
    Fallible.run_bind, Fallible.run_liftM, Fallible.run_lift]
  rcases hl : addScalar c.allowAssert s.generated.lines 1 with _ | lines
  · rfl
  · rw [addScalar_eq_some] at hl
    simp only [Option.bind_some, Option.map_some]
    rw [parseRound]
    by_cases hr : (newline s lines remain).remain.head? = some semicolon
    · rw [if_pos hr, readLineEnds_eq (by change 0 ≤ lines; omega), Fallible.run_bind,
        Fallible.run_liftM]
      rcases hk : c.skipOnes lines remain with _ | p
      · simp only [newline, hk, Option.map_none]
      · simp only [newline, hk, Option.map_some]
    · have hk : c.skipOnes lines remain = some (lines, remain) := by
        change remain.head? ≠ _ at hr
        rcases remain with _ | ⟨char, remain⟩
        · rfl
        · rw [skipOnes, if_neg fun hc => hr (by rw [hc]; rfl)]
      rw [if_neg hr, pure_bind, hk]
      rfl

theorem parseAll_newline (h : 0 ≤ s.generated.lines) (hs : s.remain = semicolon :: remain) :
    c.parseAll s = (ExceptT.lift (addScalar c.allowAssert s.generated.lines 1) : Parse ℤ) >>=
      fun lines => c.parseAll (newline s lines remain) := by
  have hnil : s.remain ≠ [] := by
    rw [hs]
    exact cons_ne_nil _ _
  rw [parseAll_round hnil, parseRound_newline h hs, bind_assoc]
  congr 1
  funext lines
  by_cases hr : remain = []
  · rw [parseAll_nil (s := newline s lines remain) hr, parseRound, if_neg (by simp [newline, hr]),
      pure_bind, if_pos (show (newline s lines remain).remain = [] from hr), pure_bind,
      parseAll_nil (s := newline s lines remain) hr]
  · exact (parseAll_round (s := newline s lines remain) hr).symm

end ParseConfig

/-- A number that is one as far as the text goes. -/
structure Number (text : List UInt8) (v : ℤ) : Prop where
  decode : decode text 0 = some { value := v, start := text.length }
  ne_comma : text.head? ≠ some comma
  ne_semicolon : text.head? ≠ some semicolon

variable {c : ParseConfig} {s s' : ParseState} {a b d e tail : List UInt8} {v va vb vd ve : ℤ}

theorem Number.exists_cons (h : Number a v) :
    ∃ char rest, a = char :: rest ∧ char ≠ comma ∧ char ≠ semicolon := by
  rcases a with _ | ⟨char, rest⟩
  · have := h.decode
    simp [Cruller.SourceMap.decode, decodeWith, decodeDigits] at this
  · exact ⟨char, rest, rfl, fun hc => h.ne_comma (by rw [hc]; rfl),
      fun hc => h.ne_semicolon (by rw [hc]; rfl)⟩

theorem Number.decode_append (h : Number a v) :
    Cruller.SourceMap.decode (a ++ tail) 0 = some { value := v, start := a.length } :=
  decodeWith_append h.decode

/-- The text after a mapping: nothing more on the line, or a comma. -/
def EndsSegment (tail : List UInt8) : Prop :=
  tail = [] ∨ tail.head? = some comma ∨ tail.head? = some semicolon

namespace ParseConfig

theorem readName_of_endsSegment (h : EndsSegment s.remain) : c.readName s = pure (skipComma s) := by
  unfold readName
  rcases hr : s.remain with _ | ⟨char, rest⟩
  · change pure s = pure { s with remain := dropComma s.remain }
    rw [hr]
    change _ = pure { s with remain := [] }
    rw [← hr]
  · rw [hr] at h
    rcases h with h | h | h
    · simp at h
    · simp only [head?_cons, Option.some.injEq] at h
      exact if_pos (Or.inl h)
    · simp only [head?_cons, Option.some.injEq] at h
      exact if_pos (Or.inr h)

theorem appendMapping_skipComma : appendMapping (skipComma s) = skipComma (appendMapping s) := rfl

/-- The state after a mapping whose fields are four numbers. -/
def withMapping (s : ParseState) (unsorted : Bool) (columns sourceIndex lines originalColumns : ℤ)
    (remain : List UInt8) : ParseState :=
  appendMapping { s with
    needsSort := s.needsSort || unsorted
    generated := { s.generated with columns }
    original := { lines, columns := originalColumns }
    sourceIndex, remain }

theorem readSegment_of_numbers {columns sourceIndex lines originalColumns : ℤ}
    (ha : Number a va) (hb : Number b vb) (hd : Number d vd) (he : Number e ve)
    (hs : s.remain = a ++ (b ++ (d ++ (e ++ tail)))) (htl : EndsSegment tail)
    (h1 : addScalar c.allowAssert s.generated.columns va = some columns) (h1' : 0 ≤ columns)
    (h2 : i32 (s.sourceIndex + vb) = some sourceIndex) (h2' : 0 ≤ sourceIndex)
    (h2'' : sourceIndex < c.sourcesCount)
    (h3 : addScalar c.allowAssert s.original.lines vd = some lines) (h3' : 0 ≤ lines)
    (h4 : addScalar c.allowAssert s.original.columns ve = some originalColumns)
    (h4' : 0 ≤ originalColumns) :
    (c.readSegment s).run = some (.ok (skipComma
      (withMapping s (va < 0) columns sourceIndex lines originalColumns tail))) := by
  have hcol := (readGeneratedColumn_eq_ok (c := c) (s := s)).2
    ⟨_, columns, by rw [hs]; exact ha.decode_append, h1, h1', rfl⟩
  rw [hs, drop_left] at hcol
  unfold readSegment
  rw [Fallible.bind_of_ok hcol]
  obtain ⟨char, rest, rfl, hne, hne'⟩ := hb.exists_cons
  simp only [cons_append, if_neg hne, if_neg hne']
  rw [readOriginal_eq]
  refine (Fallible.bind_of_ok (readSourceIndex_eq_ok.2
    ⟨_, sourceIndex, hb.decode_append, h2, h2', h2'', rfl⟩)).trans ?_
  simp only [← cons_append, drop_left]
  refine (Fallible.bind_of_ok (readOriginalLine_eq_ok.2
    ⟨_, lines, hd.decode_append, h3, h3', rfl⟩)).trans ?_
  simp only [drop_left]
  refine (Fallible.bind_of_ok (readOriginalColumn_eq_ok.2
    ⟨_, originalColumns, he.decode_append, h4, h4', rfl⟩)).trans ?_
  simp only [drop_left]
  rw [readName_of_endsSegment htl, pure_bind, appendMapping_skipComma]
  rfl

end ParseConfig

end Cruller.SourceMap
