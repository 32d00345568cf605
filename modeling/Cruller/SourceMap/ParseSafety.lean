import Cruller.SourceMap.Parse

/-!
# Where parsing is in bounds

A text is a sequence of line ends and numbers (`items`). The parser comes upon them in order, up to
the first number whose running sum it rejects, and it goes through exactly when each of these can be
read where it stands and no sum leaves its range (`Sound`).
-/

namespace Cruller.SourceMap

open List ParseConfig

/-- The numbers of a segment. -/
inductive Field
  | generatedColumn
  | sourceIndex
  | originalLine
  | originalColumn
  | nameIndex
  deriving DecidableEq, Repr

/-- A number comes with the text from its first byte on. -/
inductive Item
  | lineEnd
  | number (field : Field) (text : List UInt8)
  deriving DecidableEq, Repr

instance (tail : List UInt8) : Decidable (EndsSegment tail) :=
  inferInstanceAs (Decidable (_ ∨ _ ∨ _))

/-- The number that is due after one of a field, and where it starts. -/
def following : Field → List UInt8 → Field × List UInt8
  | .generatedColumn, text =>
    if EndsSegment text then (.generatedColumn, dropComma text) else (.sourceIndex, text)
  | .sourceIndex, text => (.originalLine, text)
  | .originalLine, text => (.originalColumn, text)
  | .originalColumn, text =>
    if EndsSegment text then (.generatedColumn, dropComma text) else (.nameIndex, text)
  | .nameIndex, text => (.generatedColumn, dropComma text)

theorem length_following (field : Field) (text : List UInt8) :
    (following field text).2.length ≤ text.length := by
  unfold following
  split <;> (try split) <;> first | exact le_rfl | exact length_dropComma

/-- The items from a number of `field` on; they end at a number that cannot be read. -/
def items (field : Field) (text : List UInt8) : List Item :=
  if field = .generatedColumn ∧ text = [] then []
  else if _h : field = .generatedColumn ∧ text.head? = some semicolon then
    .lineEnd :: items .generatedColumn text.tail
  else
    .number field text ::
      match _h : decode text 0 with
      | none => []
      | some d =>
        let next := following field (text.drop d.start)
        items next.1 next.2
termination_by text.length
decreasing_by
  · rcases text with _ | ⟨char, text⟩
    · simp at _h
    · simp
  · obtain ⟨hpos, hle⟩ := decodeWith_start _h
    have := length_following field (text.drop d.start)
    rw [List.length_drop] at this
    omega

theorem items_nil : items .generatedColumn [] = [] := by
  rw [items, if_pos ⟨rfl, rfl⟩]

theorem items_lineEnd (text : List UInt8) :
    items .generatedColumn (semicolon :: text) = .lineEnd :: items .generatedColumn text := by
  rw [items, if_neg (by simp), dif_pos ⟨rfl, rfl⟩, tail_cons]

section

variable {field : Field} {text : List UInt8}

theorem items_cut (hnil : ¬(field = .generatedColumn ∧ text = []))
    (hln : ¬(field = .generatedColumn ∧ text.head? = some semicolon))
    (hd : decode text 0 = none) : items field text = [.number field text] := by
  rw [items, if_neg hnil, dif_neg hln]
  congr 1
  split <;> rename_i hd'
  · rfl
  · rw [hd] at hd'
    cases hd'

theorem items_number {d : VLQResult} (hnil : ¬(field = .generatedColumn ∧ text = []))
    (hln : ¬(field = .generatedColumn ∧ text.head? = some semicolon))
    (hd : decode text 0 = some d) :
    items field text = .number field text ::
      items (following field (text.drop d.start)).1 (following field (text.drop d.start)).2 := by
  rw [items, if_neg hnil, dif_neg hln]
  congr 1
  split <;> rename_i hd'
  · rw [hd] at hd'
    cases hd'
  · rw [hd, Option.some.injEq] at hd'
    rw [hd']

end

/-- The value of a running sum after an item; a column starts anew on every line. -/
def Item.add (field : Field) (sum : ℤ) : Item → ℤ
  | .lineEnd => if field = .generatedColumn then 0 else sum
  | .number f text => if f = field then sum + ((decode text 0).map VLQResult.value).getD 0 else sum

/-- What the numbers of a field add up to. -/
def sum (field : Field) (before : List Item) : ℤ := before.foldl (Item.add field) 0

/-- How many lines have ended. -/
def lineEnds (before : List Item) : ℤ := before.count .lineEnd

variable (c : ParseConfig)

namespace ParseConfig

/-- The parser gives the text up at this value. -/
def Rejects : Field → ℤ → Prop
  | .sourceIndex, v => v < 0 ∨ c.sourcesCount ≤ v
  | .nameIndex, _ => False
  | _, v => v < 0

/-- The sum is one that the field can have. -/
def Fits : Field → ℤ → Prop
  | .sourceIndex, v => IsI32 v
  | .nameIndex, v => c.allowNames = true → IsI32 v
  | _, v => IsI32 v ∧ (c.allowAssert = true → 0 ≤ v ∧ v ≠ 2 ^ 31 - 1)

/-- An item can be read after others; the place of a number that is rejected must be an `i32`. -/
def Readable (before : List Item) : Item → Prop
  | .lineEnd => lineEnds before + 1 < 2 ^ 31
      ∧ (c.allowAssert = true → lineEnds before + 1 ≠ 2 ^ 31 - 1)
  | .number field text =>
    Decodable text ∧ c.Fits field (sum field (before ++ [.number field text]))
      ∧ (c.Rejects field (sum field (before ++ [.number field text])) →
        (c.len : ℤ) - text.length < 2 ^ 31)

/-- The item is one that the parser takes. -/
def Passes (before : List Item) : Item → Prop
  | .lineEnd => True
  | .number field text => ¬c.Rejects field (sum field (before ++ [.number field text]))

/-- Every item up to the first that is rejected can be read. -/
def Sound : List Item → List Item → Prop
  | _, [] => True
  | before, item :: after =>
    c.Readable before item ∧ (c.Passes before item → Sound (before ++ [item]) after)

end ParseConfig

namespace ParseConfig

/-- A number of a field is read. -/
def read : Field → ParseState → Parse ParseState
  | .generatedColumn, s => c.readGeneratedColumn s
  | .sourceIndex, s => c.readSourceIndex s
  | .originalLine, s => c.readOriginalLine s
  | .originalColumn, s => c.readOriginalColumn s
  | .nameIndex, s => c.readNameIndex (s.remain.headD 0) s

/-- What a field has been added up to. -/
def held : Field → ParseState → ℤ
  | .generatedColumn, s => s.generated.columns
  | .sourceIndex, s => s.sourceIndex
  | .originalLine, s => s.original.lines
  | .originalColumn, s => s.original.columns
  | .nameIndex, s => s.nameIndex

variable {c} {s s' : ParseState} {field : Field} {remain : List UInt8} {missing : Parse VLQResult}
  {add : ℤ → Option ℤ} {bad : ℤ → Bool} {invalid : ℤ → Parse ℤ}

theorem fail_isSome {α : Type} {err : ParseError} {value : ℤ} {msg : String}
    (h : remain.length ≤ c.len) :
    (c.fail remain err value msg : Parse α).run.isSome ↔ (c.len : ℤ) - remain.length < 2 ^ 31 := by
  rw [fail_run, Option.isSome_map, i32]
  split <;> rename_i hi
  · exact ⟨fun _ => hi.2, fun _ => rfl⟩
  · refine ⟨fun h => by simp at h, fun hlt => absurd ⟨by omega, hlt⟩ hi⟩

theorem addScalar_isSome {allowAssert : Bool} {ord inc : ℤ} :
    (addScalar allowAssert ord inc).isSome ↔
      IsI32 (ord + inc) ∧ (allowAssert = true → 0 ≤ ord + inc ∧ ord + inc ≠ 2 ^ 31 - 1) := by
  simp only [Option.isSome_iff_exists, addScalar_eq_some]
  exact ⟨fun ⟨_, rfl, h⟩ => h, fun h => ⟨_, rfl, h⟩⟩

/-- A field adds to a running value where the sum fits, and gives up where it is rejected. -/
structure Adds (add : ℤ → Option ℤ) (bad : ℤ → Bool) (value : ℤ) (fits rejects : ℤ → Prop) :
    Prop where
  add : ∀ delta v, add delta = some v ↔ v = value + delta ∧ fits v
  bad : ∀ v, bad v = true ↔ rejects v

theorem adds_ordinal (allowAssert : Bool) (ord : ℤ) :
    Adds (addScalar allowAssert ord) (· < 0) ord
      (fun v => IsI32 v ∧ (allowAssert = true → 0 ≤ v ∧ v ≠ 2 ^ 31 - 1)) (· < 0) :=
  ⟨fun _ _ => addScalar_eq_some, fun _ => decide_eq_true_iff⟩

theorem adds_sourceIndex (sourceIndex sourcesCount : ℤ) :
    Adds (fun delta => i32 (sourceIndex + delta)) (fun v => v < 0 || sourcesCount ≤ v) sourceIndex
      IsI32 (fun v => v < 0 ∨ sourcesCount ≤ v) := by
  refine ⟨fun delta v => ?_, fun v => by simp⟩
  rw [i32_eq_some]
  exact ⟨fun ⟨h, he⟩ => ⟨he.symm, he ▸ h⟩, fun ⟨he, h⟩ => ⟨he ▸ h, he.symm⟩⟩

variable {value : ℤ} {fits rejects : ℤ → Prop}

theorem Adds.isSome (h : Adds add bad value fits rejects) {fails : Prop}
    (hin : ∀ v, (invalid v).run.isSome ↔ fails) :
    (readField remain missing add bad invalid).run.isSome ↔
      ∃ d, decode remain 0 = some d ∧ fits (value + d.value)
        ∧ (rejects (value + d.value) → fails) := by
  rw [readField_run]
  rcases decode remain 0 with _ | d
  · simp
  · simp only [Option.some.injEq, exists_eq_left']
    rcases ha : add d.value with _ | v
    · refine iff_of_false (by simp) fun hfit => ?_
      rw [(h.add _ _).2 ⟨rfl, hfit.1⟩] at ha
      cases ha
    · obtain ⟨rfl, hfit⟩ := (h.add _ _).1 ha
      simp only [hfit, true_and, ← h.bad, ← hin (value + d.value)]
      split <;> rename_i hb <;> simp [hb]

theorem Adds.error (h : Adds add bad value fits rejects) {e : ParseFail}
    (he : (readField remain missing add bad invalid).run = some (.error e)) :
    ∃ d, decode remain 0 = some d ∧ rejects (value + d.value) := by
  rw [readField_run] at he
  rcases hd : decode remain 0 with _ | d
  · simp [hd] at he
  · rcases ha : add d.value with _ | v
    · simp [hd, ha] at he
    · obtain ⟨rfl, -⟩ := (h.add _ _).1 ha
      simp only [hd, ha] at he
      split at he <;> rename_i hb
      · exact ⟨d, rfl, (h.bad _).1 hb⟩
      · simp at he

theorem readNameIndex_run {char : UInt8} : (c.readNameIndex char s).run =
    match decode s.remain 0 with
    | none => none
    | some d => (if c.allowNames then i32 (s.nameIndex + d.value) else some s.nameIndex).map
        fun nameIndex => .ok (c.withName s nameIndex (s.remain.drop d.start)) := by
  unfold readNameIndex withName
  rw [Fallible.run_bind, readField_run]
  rcases decode s.remain 0 with _ | d
  · rfl
  · by_cases hn : c.allowNames
    · simp only [hn, if_true]
      rcases i32 (s.nameIndex + d.value) with _ | v <;> rfl
    · simp [hn]

/-- A number is read exactly when it can be decoded and the sum held, and the place of a rejected
number fits. -/
theorem read_isSome (hlen : s.remain.length ≤ c.len) :
    (c.read field s).run.isSome ↔ ∃ d, decode s.remain 0 = some d
      ∧ c.Fits field (held field s + d.value)
      ∧ (c.Rejects field (held field s + d.value) →
        (c.len : ℤ) - s.remain.length < 2 ^ 31) := by
  cases field with
  | generatedColumn =>
    exact Fallible.isSome_bind_pure.trans
      ((adds_ordinal c.allowAssert _).isSome fun _ => fail_isSome hlen)
  | sourceIndex =>
    exact Fallible.isSome_bind_pure.trans
      ((adds_sourceIndex _ c.sourcesCount).isSome fun _ => fail_isSome hlen)
  | originalLine =>
    exact Fallible.isSome_bind_pure.trans
      ((adds_ordinal c.allowAssert _).isSome fun _ => fail_isSome hlen)
  | originalColumn =>
    exact Fallible.isSome_bind_pure.trans
      ((adds_ordinal c.allowAssert _).isSome fun _ => fail_isSome hlen)
  | nameIndex =>
    rw [read, readNameIndex_run]
    rcases decode s.remain 0 with _ | d
    · simp
    · by_cases hn : c.allowNames
      · simp [Fits, Rejects, held, hn, i32]
      · simp [Fits, Rejects, held, hn]

theorem read_error {e : ParseFail} (h : (c.read field s).run = some (.error e)) :
    ∃ d, decode s.remain 0 = some d ∧ c.Rejects field (held field s + d.value) := by
  cases field with
  | generatedColumn => exact (adds_ordinal c.allowAssert _).error (Fallible.bind_pure_error h)
  | sourceIndex => exact (adds_sourceIndex _ c.sourcesCount).error (Fallible.bind_pure_error h)
  | originalLine => exact (adds_ordinal c.allowAssert _).error (Fallible.bind_pure_error h)
  | originalColumn => exact (adds_ordinal c.allowAssert _).error (Fallible.bind_pure_error h)
  | nameIndex =>
    rw [read, readNameIndex_run] at h
    rcases hd : decode s.remain 0 with _ | d
    · simp [hd] at h
    · simp [hd] at h

/-- A field that is read adds its number to the value before, and rejects nothing. -/
theorem read_ok (h : (c.read field s).run = some (.ok s')) :
    ∃ d, decode s.remain 0 = some d ∧ ¬c.Rejects field (held field s + d.value)
      ∧ s'.remain = s.remain.drop d.start ∧ s'.generated.lines = s.generated.lines
      ∧ ∀ f, (f = .nameIndex → c.allowNames = true) →
        held f s' = if f = field then held field s + d.value else held f s := by
  cases field with
  | generatedColumn =>
    obtain ⟨d, _, hd, hadd, h0, rfl⟩ := readGeneratedColumn_eq_ok.1 h
    obtain ⟨rfl, -⟩ := addScalar_eq_some.1 hadd
    exact ⟨d, hd, not_lt.2 h0, rfl, rfl, fun f _ => by cases f <;> rfl⟩
  | sourceIndex =>
    obtain ⟨d, _, hd, hadd, h0, hlt, rfl⟩ := readSourceIndex_eq_ok.1 h
    obtain ⟨-, rfl⟩ := i32_eq_some.1 hadd
    exact ⟨d, hd, not_or.2 ⟨not_lt.2 h0, not_le.2 hlt⟩, rfl, rfl, fun f _ => by cases f <;> rfl⟩
  | originalLine =>
    obtain ⟨d, _, hd, hadd, h0, rfl⟩ := readOriginalLine_eq_ok.1 h
    obtain ⟨rfl, -⟩ := addScalar_eq_some.1 hadd
    exact ⟨d, hd, not_lt.2 h0, rfl, rfl, fun f _ => by cases f <;> rfl⟩
  | originalColumn =>
    obtain ⟨d, _, hd, hadd, h0, rfl⟩ := readOriginalColumn_eq_ok.1 h
    obtain ⟨rfl, -⟩ := addScalar_eq_some.1 hadd
    exact ⟨d, hd, not_lt.2 h0, rfl, rfl, fun f _ => by cases f <;> rfl⟩
  | nameIndex =>
    obtain ⟨d, nameIndex, hd, hadd, rfl⟩ := readNameIndex_eq_ok.1 h
    refine ⟨d, hd, not_false, length_withName, ?_, fun f hf => ?_⟩
    · unfold withName
      split <;> rfl
    · by_cases hn : c.allowNames
      · rw [if_pos hn] at hadd
        obtain ⟨-, rfl⟩ := i32_eq_some.1 hadd
        rw [withName, if_pos hn]
        cases f <;> rfl
      · rw [withName, if_neg hn]
        cases f with
        | nameIndex => exact absurd (hf rfl) hn
        | _ => rfl

/-- The rest of a segment and of the text. -/
def parseFrom (c : ParseConfig) : Field → ParseState → Parse ParseState
  | .generatedColumn, s => c.parseAll s
  | .sourceIndex, s => do
    let s ← c.readOriginal s
    c.parseAll s
  | .originalLine, s => do
    let s ← c.readOriginalLine s
    let s ← c.readOriginalColumn s
    let s ← c.readName s
    c.parseAll (appendMapping s)
  | .originalColumn, s => do
    let s ← c.readOriginalColumn s
    let s ← c.readName s
    c.parseAll (appendMapping s)
  | .nameIndex, s => do
    let s ← c.readNameIndex (s.remain.headD 0) s
    c.parseAll (appendMapping (skipComma s))

/-- What follows a field that was read: the comma, and the mapping where it is whole. -/
def advance (field : Field) (s : ParseState) : ParseState :=
  match field with
  | .generatedColumn => if EndsSegment s.remain then skipComma s else s
  | .originalColumn => if EndsSegment s.remain then appendMapping (skipComma s) else s
  | .nameIndex => appendMapping (skipComma s)
  | _ => s

theorem advance_spec (field : Field) (s : ParseState) :
    (advance field s).remain = (following field s.remain).2
      ∧ (advance field s).generated = s.generated ∧ ∀ f, held f (advance field s) = held f s := by
  cases field with
  | generatedColumn =>
    simp only [advance, following]
    split <;> exact ⟨rfl, rfl, fun f => by cases f <;> rfl⟩
  | originalColumn =>
    simp only [advance, following]
    split <;> exact ⟨rfl, rfl, fun f => by cases f <;> rfl⟩
  | nameIndex => exact ⟨rfl, rfl, fun f => by cases f <;> rfl⟩
  | _ => exact ⟨rfl, rfl, fun _ => rfl⟩

theorem readName_of_not_endsSegment (h : ¬EndsSegment s.remain) :
    c.readName s = c.readNameIndex (s.remain.headD 0) s >>= fun s => pure (skipComma s) := by
  unfold readName
  rcases hr : s.remain with _ | ⟨char, rest⟩
  · exact absurd (Or.inl hr) h
  · have hc : ¬(char = comma ∨ char = semicolon) := by
      rintro (rfl | rfl)
      · exact h (Or.inr (Or.inl (by rw [hr]; rfl)))
      · exact h (Or.inr (Or.inr (by rw [hr]; rfl)))
    exact if_neg hc

theorem skipComma_of_ne (h : s.remain.head? ≠ some comma) : skipComma s = s := by
  have hdr : dropComma s.remain = s.remain := by
    rcases hr : s.remain with _ | ⟨char, rest⟩
    · rfl
    · rw [hr] at h
      exact if_neg fun hc => h (by rw [hc]; rfl)
  rw [skipComma, hdr]

theorem readSegment_eq : c.readSegment s = c.readGeneratedColumn s >>= fun s =>
    if EndsSegment s.remain then pure (skipComma s) else c.readOriginal s := by
  unfold readSegment
  congr 1
  funext s
  by_cases hcm : s.remain.head? = some comma
  · obtain ⟨rest, hr⟩ := head?_eq_some_iff.1 hcm
    rw [if_pos (show EndsSegment s.remain from Or.inr (Or.inl hcm)), hr]
    exact if_pos rfl
  · rw [skipComma_of_ne hcm]
    rcases hr : s.remain with _ | ⟨char, rest⟩
    · exact (if_pos (Or.inl rfl)).symm
    · have hne : char ≠ comma := fun hc => hcm (by rw [hr, hc]; rfl)
      simp only [if_neg hne]
      by_cases hsm : char = semicolon
      · rw [if_pos hsm]
        exact (if_pos (Or.inr (Or.inr (by rw [hsm]; rfl)))).symm
      · rw [if_neg hsm, if_neg]
        rintro (h | h | h)
        · simp at h
        · exact hne (Option.some.inj h)
        · exact hsm (Option.some.inj h)

/-- Parsing from a field is reading it, and then parsing from the field behind. -/
theorem parseFrom_eq (h : field = .generatedColumn →
    ∃ char rest, s.remain = char :: rest ∧ char ≠ semicolon) :
    c.parseFrom field s = c.read field s >>= fun s =>
      c.parseFrom (following field s.remain).1 (advance field s) := by
  cases field with
  | generatedColumn =>
    obtain ⟨char, rest, hs, hc⟩ := h rfl
    rw [parseFrom, parseAll_segment hs hc, readSegment_eq, bind_assoc]
    congr 1
    funext s
    unfold advance following
    simp only
    split
    · rw [pure_bind]
      rfl
    · rfl
  | sourceIndex =>
    simp only [parseFrom, readOriginal_eq, bind_assoc, pure_bind]
    rfl
  | originalLine => rfl
  | originalColumn =>
    rw [parseFrom, read]
    congr 1
    funext s
    unfold advance following
    simp only
    split <;> rename_i he
    · rw [readName_of_endsSegment he, pure_bind]
      rfl
    · rw [readName_of_not_endsSegment he, bind_assoc]
      simp only [pure_bind]
      rfl
  | nameIndex => rfl

/-- The state is what the items before add up to. -/
structure Holds (c : ParseConfig) (s : ParseState) (before : List Item) : Prop where
  lines : s.generated.lines = lineEnds before
  sums : ∀ f, (f = .nameIndex → c.allowNames = true) → held f s = sum f before
  len : s.remain.length ≤ c.len

theorem sum_concat (f : Field) (before : List Item) (item : Item) :
    sum f (before ++ [item]) = item.add f (sum f before) := by
  rw [sum, foldl_append]
  rfl

theorem lineEnds_nonneg (before : List Item) : 0 ≤ lineEnds before := Int.natCast_nonneg _

variable {before : List Item}

/-- What fits and what is rejected is the same for the state and for the sums; a name that is not
asked for always fits. -/
theorem Holds.congr (h : Holds c s before) {d : VLQResult} (hd : decode s.remain 0 = some d) :
    (c.Fits field (held field s + d.value) ↔
      c.Fits field (sum field (before ++ [.number field s.remain])))
      ∧ (c.Rejects field (held field s + d.value) ↔
        c.Rejects field (sum field (before ++ [.number field s.remain]))) := by
  rw [sum_concat, Item.add, if_pos rfl, hd]
  simp only [Option.map_some, Option.getD_some]
  by_cases hf : field = .nameIndex → c.allowNames = true
  · simp [h.sums field hf]
  · push Not at hf
    obtain ⟨rfl, hn⟩ := hf
    exact ⟨⟨fun _ h => absurd h hn, fun _ h => absurd h hn⟩, Iff.rfl⟩

theorem Holds.readable (h : Holds c s before) :
    (c.read field s).run.isSome ↔ c.Readable before (.number field s.remain) := by
  rw [read_isSome h.len, Readable, ← decode_isSome_iff, Option.isSome_iff_exists]
  constructor
  · rintro ⟨d, hd, hfits, hrej⟩
    obtain ⟨h1, h2⟩ : (c.Fits field _ ↔ _) ∧ (c.Rejects field _ ↔ _) := h.congr hd
    exact ⟨⟨d, hd⟩, h1.1 hfits, fun hr => hrej (h2.2 hr)⟩
  · rintro ⟨⟨d, hd⟩, hfits, hrej⟩
    obtain ⟨h1, h2⟩ : (c.Fits field _ ↔ _) ∧ (c.Rejects field _ ↔ _) := h.congr hd
    exact ⟨d, hd, h1.2 hfits, fun hr => hrej (h2.1 hr)⟩

theorem Holds.read (h : Holds c s before) (hs : (c.read field s).run = some (.ok s')) :
    c.Passes before (.number field s.remain)
      ∧ Holds c (advance field s') (before ++ [.number field s.remain]) := by
  obtain ⟨d, hd, hrej, hrem, hln, hhl⟩ := read_ok hs
  obtain ⟨hrem', hgen, hhl'⟩ := advance_spec field s'
  refine ⟨fun hr => hrej ((h.congr hd).2.2 hr), ⟨?_, fun f hf => ?_, ?_⟩⟩
  · simp [hgen, hln, h.lines, lineEnds]
  · rw [hhl', hhl f hf, sum_concat, Item.add, hd]
    by_cases hff : f = field
    · subst hff
      simp [h.sums f hf]
    · rw [if_neg hff, if_neg (Ne.symm hff), h.sums f hf]
  · rw [hrem', hrem]
    refine (length_following _ _).trans ?_
    rw [length_drop]
    have := h.len
    omega

theorem Holds.exists_read (h : Holds c s before)
    (hr : c.Readable before (.number field s.remain))
    (hp : c.Passes before (.number field s.remain)) :
    ∃ s', (c.read field s).run = some (.ok s') := by
  obtain ⟨out, hout⟩ := Option.isSome_iff_exists.1 (h.readable.2 hr)
  rcases out with e | s'
  · obtain ⟨d, hd, hrej⟩ := read_error hout
    exact absurd ((h.congr hd).2.1 hrej) hp
  · exact ⟨s', hout⟩

theorem Holds.newline (h : Holds c s before) {lines : ℤ}
    (hl : addScalar c.allowAssert s.generated.lines 1 = some lines)
    (hs : s.remain = semicolon :: remain) :
    Holds c (newline s lines remain) (before ++ [.lineEnd]) := by
  obtain ⟨rfl, -⟩ := addScalar_eq_some.1 hl
  refine ⟨?_, fun f hf => ?_, ?_⟩
  · change s.generated.lines + 1 = _
    rw [h.lines, lineEnds, lineEnds, count_append]
    simp
  · rw [sum_concat, Item.add]
    split <;> rename_i hg
    · subst hg
      rfl
    · rw [← h.sums f hf]
      cases f with
      | generatedColumn => exact absurd rfl hg
      | _ => rfl
  · have := h.len
    rw [hs, length_cons] at this
    exact Nat.le_of_succ_le this

/-- The parser goes through exactly when the items that are left can be read. -/
theorem Holds.sound (h : Holds c s before) :
    (c.parseFrom field s).run.isSome ↔ c.Sound before (items field s.remain) := by
  induction hn : s.remain.length using Nat.strong_induction_on generalizing s field before with
  | _ n ih =>
    subst hn
    by_cases hnil : field = .generatedColumn ∧ s.remain = []
    · obtain ⟨rfl, hnil⟩ := hnil
      rw [parseFrom, parseAll_nil hnil, hnil, items_nil]
      exact iff_of_true rfl trivial
    by_cases hln : field = .generatedColumn ∧ s.remain.head? = some semicolon
    · obtain ⟨rfl, hhd⟩ := hln
      obtain ⟨rest, hrs⟩ := head?_eq_some_iff.1 hhd
      have h0 : 0 ≤ s.generated.lines := h.lines ▸ lineEnds_nonneg before
      rw [parseFrom, parseAll_newline h0 hrs, Fallible.isSome_bind, Fallible.run_lift,
        Option.isSome_map, hrs, items_lineEnd, Sound]
      have hrd : (addScalar c.allowAssert s.generated.lines 1).isSome ↔
          c.Readable before .lineEnd := by
        rw [addScalar_isSome, Readable, ← h.lines]
        refine ⟨fun ⟨hi, ha⟩ => ⟨hi.2, fun har => (ha har).2⟩, fun ⟨hi, ha⟩ =>
          ⟨⟨by omega, hi⟩, fun har => ⟨by omega, ha har⟩⟩⟩
      rw [hrd]
      refine and_congr_right fun hr => ?_
      obtain ⟨lines, hl⟩ := Option.isSome_iff_exists.1 (hrd.2 hr)
      simp only [hl, Option.map_some, Option.some.injEq, Except.ok.injEq, forall_eq', Passes,
        true_implies]
      change (c.parseFrom .generatedColumn (ParseConfig.newline s lines rest)).run.isSome ↔ _
      exact ih rest.length (by rw [hrs]; exact Nat.lt_succ_self _) (h.newline hl hrs) rfl
    have hfr : field = .generatedColumn →
        ∃ char rest, s.remain = char :: rest ∧ char ≠ semicolon := by
      rintro rfl
      rcases hs : s.remain with _ | ⟨char, rest⟩
      · exact absurd ⟨rfl, hs⟩ hnil
      · exact ⟨char, rest, rfl, fun hc => hln ⟨rfl, by rw [hs, hc]; rfl⟩⟩
    rw [parseFrom_eq hfr, Fallible.isSome_bind, h.readable]
    rcases hd : decode s.remain 0 with _ | d
    · have hcut : ¬Decodable s.remain := by
        rw [← decode_isSome_iff, hd]
        simp
      rw [items_cut hnil hln hd, Sound]
      exact iff_of_false (fun hr => hcut hr.1.1) fun hr => hcut hr.1.1
    · rw [items_number hnil hln hd, Sound]
      refine and_congr_right fun hr => ?_
      -- where the read goes through, the rest is as sound as its items
      have hrs : ∀ s', (c.read field s).run = some (.ok s') →
          ((c.parseFrom (following field s'.remain).1 (advance field s')).run.isSome ↔
            c.Sound (before ++ [.number field s.remain])
              (items (following field (s.remain.drop d.start)).1
                (following field (s.remain.drop d.start)).2)) := by
        intro s' hs'
        obtain ⟨d', hd', -, hrem, -⟩ := read_ok hs'
        obtain rfl : d = d' := Option.some.inj (hd.symm.trans hd')
        have hadv := (advance_spec field s').1
        have hlt : (advance field s').remain.length < s.remain.length := by
          have := length_following field (s.remain.drop d.start)
          obtain ⟨hpos, hle⟩ := decodeWith_start hd
          rw [hadv, hrem]
          rw [length_drop] at this
          omega
        rw [ih _ hlt (h.read hs').2 rfl, hadv, hrem]
      constructor
      · intro hall hp
        obtain ⟨s', hs'⟩ := h.exists_read hr hp
        exact (hrs s' hs').1 (hall s' hs')
      · intro hsn s' hs'
        exact (hrs s' hs').2 (hsn (h.read hs').1)

end ParseConfig

def ParseConfig.of (allowAssert : Bool) (bytes : List UInt8) (sourcesCount : ℤ)
    (options : ParseOptions) : ParseConfig :=
  { allowAssert, sourcesCount, allowNames := options.allowNames, len := bytes.length }

/-- `parse` ends with a success or a failure exactly when every item of the text up to the first
rejected number can be read. -/
theorem parse_isSome_iff (allowAssert : Bool) (bytes : List UInt8) (sourcesCount : ℤ)
    (inputLineCount : ℕ) (options : ParseOptions) :
    (parse allowAssert bytes sourcesCount inputLineCount options).isSome ↔
      (ParseConfig.of allowAssert bytes sourcesCount options).Sound []
        (items .generatedColumn bytes) := by
  have hholds : Holds (ParseConfig.of allowAssert bytes sourcesCount options) { remain := bytes } [] :=
    ⟨rfl, fun f _ => by cases f <;> rfl, le_rfl⟩
  rw [parse, Option.isSome_map]
  change ((ParseConfig.of allowAssert bytes sourcesCount options).parseFrom .generatedColumn
    { remain := bytes }).run.isSome ↔ _
  exact hholds.sound

/-- A number cut off by the end of the text, a digit behind the end of the table, and a column that
overflows. -/
theorem parse_isSome_refuted :
    parse true [0x67] 1 0 {} = none
      ∧ parse false [0x67] 1 0 {} = none
      ∧ parse false [0x41, 0x7f] 1 0 {} = none
      ∧ parse false [0x2b, 0x2f, 0x2f, 0x2f, 0x2f, 0x2f, 0x44, 0x2c, 0x43] 1 0 {} = none := by
  decide +kernel

end Cruller.SourceMap
