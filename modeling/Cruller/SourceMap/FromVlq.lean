import Cruller.SourceMap.ParseSafety
import Cruller.SourceMap.RoundTrip

/-!
# Blobs from text

`fromVLQ` of `sourcemap/InternalSourceMap.zig`, a second reader of the text that `Mapping.parse`
reads. Where the parser accepts a text, this one makes the calls on its builder that record the
parser's mappings (`fromAll_eq`), so only the limits of the format can stop it.
-/

namespace Cruller.SourceMap

open List ParseConfig

inductive FromVLQError
  | invalidSourceMap
  deriving DecidableEq, Repr

/-- The state of the loop. -/
structure FromVLQ where
  builder : Builder := {}
  generatedColumn : ℤ := 0
  sourceIndex : ℤ := 0
  originalLine : ℤ := 0
  originalColumn : ℤ := 0
  maxOriginalLine : ℤ := 0
  remain : List UInt8

namespace FromVLQ

def number (remain : List UInt8) : Fallible FromVLQError VLQResult := do
  let d ← decode remain 0
  if d.start = 0 then throw .invalidSourceMap else pure d

/-- The line ends that stand here. -/
def readSeparators : Builder → List UInt8 → Option (Builder × List UInt8)
  | builder, char :: remain =>
    if char = semicolon then do
      let builder ← builder.appendLineSeparator
      readSeparators builder remain
    else some (builder, char :: remain)
  | builder, [] => some (builder, [])

/-- The numbers about the source. -/
def readMapping (s : FromVLQ) : Fallible FromVLQError FromVLQ := do
  let si ← number s.remain
  let sourceIndex ← i32 (s.sourceIndex + si.value)
  let remain := s.remain.drop si.start
  let ol ← number remain
  let originalLine ← i32 (s.originalLine + ol.value)
  let remain := remain.drop ol.start
  let oc ← number remain
  let originalColumn ← i32 (s.originalColumn + oc.value)
  let remain := remain.drop oc.start
  -- the name is dropped
  let remain ← (if EndsSegment remain then pure remain
    else do
      let ni ← number remain
      pure (remain.drop ni.start))
  let builder ← s.builder.appendMapping
    { generatedColumn := s.generatedColumn, sourceIndex, originalLine, originalColumn }
  pure { s with
    sourceIndex, originalLine, originalColumn, builder
    maxOriginalLine := max s.maxOriginalLine originalLine
    remain := dropComma remain }

/-- A segment. -/
def readSegment (s : FromVLQ) : Fallible FromVLQError FromVLQ := do
  let gc ← number s.remain
  let generatedColumn ← i32 (s.generatedColumn + gc.value)
  let remain := s.remain.drop gc.start
  if EndsSegment remain then pure { s with generatedColumn, remain := dropComma remain }
  else readMapping { s with generatedColumn, remain }

/-- One turn of the loop. -/
def round (s : FromVLQ) : Fallible FromVLQError FromVLQ := do
  let s ← (if s.remain.head? = some semicolon then do
      let (builder, remain) ← readSeparators s.builder s.remain
      pure { s with generatedColumn := 0, builder, remain }
    else pure s)
  if s.remain = [] then pure s else readSegment s

end FromVLQ

/-- The map of a text, in the runtime's own format. -/
def fromVLQ (vlq : List UInt8) (inputLineCountHint : ℕ) : Fallible FromVLQError (List UInt8) := do
  let s ← Fallible.drain FromVLQ.remain FromVLQ.round vlq.length { remain := vlq }
  let out ← s.builder.finalize
  let blob ← writeHeader out s.builder.count (max inputLineCountHint (s.maxOriginalLine.toNat + 1))
  pure blob

namespace FromVLQ

variable {t t' : FromVLQ} {remain : List UInt8}

theorem number_run : (number remain).run = (decode remain 0).map .ok := by
  unfold number
  rw [Fallible.run_bind, Fallible.run_liftM]
  rcases hd : decode remain 0 with _ | d
  · rfl
  · have := (decodeWith_start hd).1
    simp only [Option.map_some]
    rw [if_neg (by omega)]
    rfl

theorem number_bind {α : Type} {f : VLQResult → Fallible FromVLQError α} :
    (number remain >>= f).run = (decode remain 0).bind fun d => (f d).run := by
  rw [Fallible.run_bind, number_run]
  rcases decode remain 0 with _ | d <;> rfl

/-- The rest of a mapping after its four fields, past a name. -/
def skipName (remain : List UInt8) : Option (List UInt8) :=
  if EndsSegment remain then some remain
  else (decode remain 0).map fun ni => remain.drop ni.start

/-- Reading a mapping is four numbers, each added to the one before it, and a name passed over. -/
theorem readMapping_run : (readMapping t).run =
    (decode t.remain 0).bind fun si =>
      (i32 (t.sourceIndex + si.value)).bind fun sourceIndex =>
      (decode (t.remain.drop si.start) 0).bind fun ol =>
      (i32 (t.originalLine + ol.value)).bind fun originalLine =>
      (decode ((t.remain.drop si.start).drop ol.start) 0).bind fun oc =>
      (i32 (t.originalColumn + oc.value)).bind fun originalColumn =>
      (skipName (((t.remain.drop si.start).drop ol.start).drop oc.start)).bind fun remain =>
      (t.builder.appendMapping
        { generatedColumn := t.generatedColumn, sourceIndex, originalLine, originalColumn }).map
        fun builder => .ok
          { t with
            sourceIndex, originalLine, originalColumn, builder
            maxOriginalLine := max t.maxOriginalLine originalLine
            remain := dropComma remain } := by
  have hnm : ∀ (remain : List UInt8) (f : List UInt8 → Fallible FromVLQError FromVLQ),
      ((if EndsSegment remain then pure remain
        else do
          let ni ← number remain
          pure (remain.drop ni.start)) >>= f).run = (skipName remain).bind fun r => (f r).run := by
    intro remain f
    unfold skipName
    split
    · rw [pure_bind, Option.bind_some]
    · rw [bind_assoc, number_bind]
      rcases decode remain 0 with _ | d
      · rfl
      · simp
  have hpr : ∀ (o : Option Builder) (f : Builder → FromVLQ),
      ((liftM o : Fallible FromVLQError Builder) >>= fun b => pure (f b)).run =
        o.map fun b => .ok (f b) := by
    intro o f
    rw [Fallible.run_liftM_bind]
    rcases o with _ | b <;> rfl
  unfold readMapping
  simp only [number_bind, Fallible.run_liftM_bind, hnm, hpr]

theorem readSegment_run : (readSegment t).run =
    (decode t.remain 0).bind fun gc =>
      (i32 (t.generatedColumn + gc.value)).bind fun generatedColumn =>
      if EndsSegment (t.remain.drop gc.start) then
        some (.ok { t with generatedColumn, remain := dropComma (t.remain.drop gc.start) })
      else (readMapping { t with generatedColumn, remain := t.remain.drop gc.start }).run := by
  unfold readSegment
  rw [number_bind]
  congr 1
  funext gc
  rw [Fallible.run_liftM_bind]
  congr 1

theorem length_skipName {rest : List UInt8} (h : skipName remain = some rest) :
    rest.length ≤ remain.length := by
  unfold skipName at h
  split at h
  · rw [← Option.some.inj h]
  · obtain ⟨d, -, rfl⟩ := Option.map_eq_some_iff.1 h
    rw [length_drop]
    omega

theorem length_readSeparators {builder : Builder} {p : Builder × List UInt8}
    (h : readSeparators builder remain = some p) :
    p.2.length ≤ remain.length
      ∧ (remain.head? = some semicolon → p.2.length < remain.length) := by
  fun_induction readSeparators builder remain with
  | case1 builder remain ih =>
    simp only [Option.bind_eq_bind, Option.bind_eq_some_iff] at h
    obtain ⟨b, -, h⟩ := h
    have hle := (ih b h).1
    exact ⟨by rw [length_cons]; omega, fun _ => by rw [length_cons]; omega⟩
  | case2 builder char remain hne =>
    rw [← Option.some.inj h]
    exact ⟨le_rfl, fun hh => absurd (Option.some.inj hh) hne⟩
  | case3 =>
    rw [← Option.some.inj h]
    exact ⟨le_rfl, fun hh => by simp at hh⟩

theorem length_readSegment (h : (readSegment t).run = some (.ok t')) :
    t'.remain.length < t.remain.length := by
  rw [readSegment_run, Option.bind_eq_some_iff] at h
  obtain ⟨gc, hgc, h⟩ := h
  obtain ⟨column, -, h⟩ := Option.bind_eq_some_iff.1 h
  obtain ⟨hpos, hle⟩ := decodeWith_start hgc
  have hlt : (t.remain.drop gc.start).length < t.remain.length := by
    rw [length_drop]
    omega
  split at h
  · rw [Option.some.injEq, Except.ok.injEq] at h
    rw [← h]
    exact lt_of_le_of_lt length_dropComma hlt
  · simp only [readMapping_run, Option.bind_eq_some_iff, Option.map_eq_some_iff,
      Except.ok.injEq] at h
    obtain ⟨si, -, _, -, ol, -, _, -, oc, -, _, -, rest, hrs, b, -, rfl⟩ := h
    have hsk := length_skipName hrs
    simp only [length_drop] at hsk hlt
    exact lt_of_le_of_lt (b := rest.length) length_dropComma (by omega)

theorem length_round (hs : t.remain ≠ []) (h : (round t).run = some (.ok t')) :
    t'.remain.length < t.remain.length := by
  unfold round at h
  rw [Fallible.bind_eq_ok] at h
  obtain ⟨t1, h1, h⟩ := h
  have hend : t'.remain.length < t1.remain.length ∨ t' = t1 ∧ t1.remain = [] := by
    split_ifs at h with hnil
    · rw [Fallible.run_pure, Option.some.injEq, Except.ok.injEq] at h
      exact Or.inr ⟨h.symm, hnil⟩
    · exact Or.inl (length_readSegment h)
  split_ifs at h1 with hsm
  · rw [Fallible.run_liftM_bind, Option.bind_eq_some_iff] at h1
    obtain ⟨p, hp, h1⟩ := h1
    have hlt := (length_readSeparators hp).2 hsm
    rw [Fallible.run_pure, Option.some.injEq, Except.ok.injEq] at h1
    subst h1
    rcases hend with hend | ⟨rfl, -⟩
    · exact hend.trans hlt
    · exact hlt
  · rw [Fallible.run_pure, Option.some.injEq, Except.ok.injEq] at h1
    subst h1
    rcases hend with hend | ⟨-, hnil⟩
    · exact hend
    · exact absurd hnil hs

def fromAll : FromVLQ → Fallible FromVLQError FromVLQ := Fallible.drainAll FromVLQ.remain round

theorem fromAll_nil (h : t.remain = []) : fromAll t = pure t := Fallible.drainAll_nil h

theorem fromAll_round (h : t.remain ≠ []) : fromAll t = round t >>= fromAll :=
  Fallible.drainAll_round (fun _ _ hs h => length_round hs h) h

theorem fromAll_segment {char : UInt8} (hs : t.remain = char :: remain) (hc : char ≠ semicolon) :
    fromAll t = readSegment t >>= fromAll := by
  have hhd : t.remain.head? ≠ some semicolon := by
    rw [hs]
    simpa using hc
  have hnil : t.remain ≠ [] := by
    rw [hs]
    exact cons_ne_nil _ _
  rw [fromAll_round hnil, round, if_neg hhd, pure_bind, if_neg hnil]

/-- The state at the start of the next line. -/
def newline (t : FromVLQ) (builder : Builder) (remain : List UInt8) : FromVLQ :=
  { t with generatedColumn := 0, builder, remain }

theorem round_newline (hs : t.remain = semicolon :: remain) :
    (round t).run = t.builder.appendLineSeparator.bind fun builder =>
      (round (newline t builder remain)).run := by
  have hrd : readSeparators t.builder t.remain =
      t.builder.appendLineSeparator.bind fun b => readSeparators b remain := by
    rw [hs, readSeparators, if_pos rfl]
    rfl
  rw [round, if_pos (by rw [hs]; rfl), bind_assoc, Fallible.run_liftM_bind, hrd,
    Option.bind_assoc]
  congr 1
  funext builder
  rw [round]
  by_cases hr : (newline t builder remain).remain.head? = some semicolon
  · rw [if_pos hr, bind_assoc, Fallible.run_liftM_bind]
    rfl
  · have hk : readSeparators builder remain = some (builder, remain) := by
      change remain.head? ≠ _ at hr
      rcases remain with _ | ⟨char, remain⟩
      · rfl
      · rw [readSeparators, if_neg fun hc => hr (by rw [hc]; rfl)]
    rw [if_neg hr, pure_bind, hk]
    rfl

theorem fromAll_newline (hs : t.remain = semicolon :: remain) :
    (fromAll t).run = t.builder.appendLineSeparator.bind fun builder =>
      (fromAll (newline t builder remain)).run := by
  have hnil : t.remain ≠ [] := by
    rw [hs]
    exact cons_ne_nil _ _
  rw [fromAll_round hnil, Fallible.run_bind, round_newline hs]
  rcases t.builder.appendLineSeparator with _ | builder
  · rfl
  · simp only [Option.bind_some]
    by_cases hr : remain = []
    · subst hr
      rw [fromAll_nil (t := newline t builder []) rfl]
      have hrn : (round (newline t builder [])).run = some (.ok (newline t builder [])) := rfl
      rw [hrn]
      simp only
      rw [fromAll_nil (t := newline t builder []) rfl]
    · rw [fromAll_round (t := newline t builder remain) hr, Fallible.run_bind]

end FromVLQ

open FromVLQ

section

variable {c : ParseConfig} {s s' : ParseState} {t : FromVLQ} {list : List MappingWithoutName}

/-- Both readers stand at the same place with the same values. -/
structure Coupled (s : ParseState) (t : FromVLQ) : Prop where
  remain : t.remain = s.remain
  column : t.generatedColumn = s.generated.columns
  source : t.sourceIndex = s.sourceIndex
  originalLine : t.originalLine = s.original.lines
  originalColumn : t.originalColumn = s.original.columns

theorem i32_of_addScalar {allowAssert : Bool} {ord inc v : ℤ}
    (h : addScalar allowAssert ord inc = some v) : i32 (ord + inc) = some v := by
  obtain ⟨rfl, hi, -⟩ := addScalar_eq_some.1 h
  exact i32_of_isI32 hi

theorem readName_eq_ok (hn : c.allowNames = false) : (c.readName s).run = some (.ok s') ↔
    ∃ rest, skipName s.remain = some rest ∧ s' = { s with remain := dropComma rest } := by
  unfold skipName
  by_cases he : EndsSegment s.remain
  · rw [readName_of_endsSegment he, if_pos he, Fallible.run_pure]
    simp only [Option.some.injEq, Except.ok.injEq, exists_eq_left']
    exact eq_comm
  · rw [readName_of_not_endsSegment he, if_neg he, Fallible.bind_eq_ok]
    simp only [readNameIndex_eq_ok, Fallible.run_pure, Option.some.injEq, Except.ok.injEq,
      withName, hn, Bool.false_eq_true, if_false, Option.map_eq_some_iff]
    constructor
    · rintro ⟨_, ⟨d, _, hd, -, rfl⟩, rfl⟩
      exact ⟨_, ⟨d, hd, rfl⟩, rfl⟩
    · rintro ⟨_, ⟨d, hd, rfl⟩, rfl⟩
      exact ⟨_, ⟨d, _, hd, rfl, rfl⟩, rfl⟩

/-- What a reader records: the parser's mappings and the calls of the other. -/
structure Steps (line line' : ℤ) (es : List Event) (ms : List MappingWithoutName) : Prop where
  recorded : recorded line es = ms.map MappingWithoutName.toState
  nonNeg : ∀ c, .mapping c ∈ es → c.NonNeg
  line : line' = line + separators es

/-- Where the parser reads a segment the other reader reads the same. -/
theorem Coupled.segment (h : Coupled s t) (hn : c.allowNames = false)
    (hs : (c.readSegment s).run = some (.ok s')) (hls : s.mapping = .withoutNames list) :
    ∃ es ms t', Coupled s' t' ∧ s'.generated.lines = s.generated.lines
      ∧ s'.mapping = .withoutNames (list ++ ms)
      ∧ Steps s.generated.lines s'.generated.lines es ms
      ∧ ∀ b, (FromVLQ.readSegment { t with builder := b }).run =
        (es.foldlM Builder.record b).map fun b => .ok { t' with builder := b } := by
  obtain ⟨hrem, hcol, hsrc, hol, hoc⟩ := h
  rw [readSegment_eq, Fallible.bind_eq_ok] at hs
  obtain ⟨s1, h1, hs⟩ := hs
  obtain ⟨gc, column, hgc, hcl, hcl0, rfl⟩ := readGeneratedColumn_eq_ok.1 h1
  have hcol' := i32_of_addScalar hcl
  split at hs <;> rename_i he
  · rw [Fallible.run_pure, Option.some.injEq, Except.ok.injEq] at hs
    subst hs
    refine ⟨[], [], { t with
      generatedColumn := column, remain := dropComma (s.remain.drop gc.start) },
      ⟨rfl, rfl, hsrc, hol, hoc⟩, rfl, by rw [append_nil]; exact hls,
      ⟨rfl, by simp, by simp [separators, skipComma]⟩, fun b => ?_⟩
    have he' : EndsSegment (s.remain.drop gc.start) := he
    rw [readSegment_run]
    simp only [hrem, hgc, hcol, hcol', Option.bind_some, if_pos he']
    rfl
  · have he' : ¬EndsSegment (s.remain.drop gc.start) := he
    rw [readOriginal_eq] at hs
    simp only [Fallible.bind_eq_ok, readSourceIndex_eq_ok, readOriginalLine_eq_ok,
      readOriginalColumn_eq_ok, readName_eq_ok hn, Fallible.run_pure, Option.some.injEq,
      Except.ok.injEq] at hs
    obtain ⟨_, ⟨si, source, hsi, hsr, hsr0, -, rfl⟩, _, ⟨ol, line, hol', hln, hln0, rfl⟩,
      _, ⟨oc, ocolumn, hoc', hom, hom0, rfl⟩, _, ⟨rest, hrs, rfl⟩, rfl⟩ := hs
    have hln' := i32_of_addScalar hln
    have hom' := i32_of_addScalar hom
    have hlt : ∀ {x v : ℤ}, i32 x = some v → v < 2 ^ 31 := fun hx => by
      obtain ⟨hi, rfl⟩ := i32_eq_some.1 hx
      exact hi.2
    refine ⟨[.mapping { generatedColumn := column, sourceIndex := source, originalLine := line
                        originalColumn := ocolumn }],
      [⟨⟨s.generated.lines, column⟩, ⟨line, ocolumn⟩, source⟩],
      { t with
        generatedColumn := column, sourceIndex := source, originalLine := line
        originalColumn := ocolumn, maxOriginalLine := max t.maxOriginalLine line
        remain := dropComma rest },
      ⟨rfl, rfl, rfl, rfl, rfl⟩, rfl, by simp only [appendMapping, hls]; rfl,
      ⟨rfl, ?_, by simp [separators, appendMapping]⟩, fun b => ?_⟩
    · intro cur hcur
      simp only [mem_singleton, Event.mapping.injEq] at hcur
      subst hcur
      exact ⟨⟨hcl0, hlt hcol'⟩, ⟨hsr0, hlt hsr⟩, ⟨hln0, hlt hln'⟩,
        ⟨hom0, hlt hom'⟩⟩
    · rw [readSegment_run]
      simp only [hrem, hgc, hcol, hcol', Option.bind_some, if_neg he', readMapping_run, hsi, hsrc,
        hsr, hol', hol, hln', hoc', hoc, hom', hrs]
      simp only [foldlM_cons, foldlM_nil, Builder.record]
      rcases b.appendMapping _ with _ | b' <;> rfl

theorem recorded_steps {line line' line'' : ℤ} {es es' : List Event}
    {ms ms' : List MappingWithoutName} (h : Steps line line' es ms)
    (h' : Steps line' line'' es' ms') : Steps line line'' (es ++ es') (ms ++ ms') := by
  obtain ⟨h1, h2, h3⟩ := h
  obtain ⟨h1', h2', h3'⟩ := h'
  refine ⟨?_, fun c hc => ?_, ?_⟩
  · rw [recorded_append, h1, ← h3, h1', map_append]
  · rcases mem_append.1 hc with hc | hc
    · exact h2 c hc
    · exact h2' c hc
  · rw [h3', h3, separators, separators, separators, countP_append]
    push_cast
    ring

/-- Where the parser accepts the rest of a text, the other reader records its mappings, as far as
its builder goes. -/
theorem Coupled.fromAll (h : Coupled s t) (hn : c.allowNames = false)
    (hln : 0 ≤ s.generated.lines) (hlt : s.generated.lines < 2 ^ 31)
    (hs : (c.parseAll s).run = some (.ok s')) (hls : s.mapping = .withoutNames list) :
    ∃ es ms, ∃ t' : FromVLQ, s'.mapping = .withoutNames (list ++ ms)
      ∧ Steps s.generated.lines s'.generated.lines es ms ∧ s'.generated.lines < 2 ^ 31
      ∧ ∀ b, (FromVLQ.fromAll { t with builder := b }).run =
        (es.foldlM Builder.record b).map fun b => .ok { t' with builder := b } := by
  induction hlen : s.remain.length using Nat.strong_induction_on generalizing s t list with
  | _ n ih =>
    subst hlen
    rcases hr : s.remain with _ | ⟨char, rest⟩
    · rw [parseAll_nil hr, Fallible.run_pure, Option.some.injEq, Except.ok.injEq] at hs
      subst hs
      refine ⟨[], [], t, by rw [append_nil]; exact hls,
        ⟨rfl, by simp, by simp [separators]⟩, hlt, fun b => ?_⟩
      rw [fromAll_nil (t := { t with builder := b }) (h.remain.trans hr)]
      rfl
    · by_cases hc : char = semicolon
      · subst hc
        rw [parseAll_newline hln hr, Fallible.bind_eq_ok] at hs
        obtain ⟨lines, hl, hs⟩ := hs
        rw [Fallible.run_lift, Option.map_eq_some_iff] at hl
        obtain ⟨_, hl, ⟨⟩⟩ := hl
        obtain ⟨rfl, hi, -⟩ := addScalar_eq_some.1 hl
        obtain ⟨es, ms, t', hmap, hst, hlt', hfr⟩ := ih rest.length
          (by rw [hr]; exact Nat.lt_succ_self _)
          (s := ParseConfig.newline s (s.generated.lines + 1) rest)
          (t := FromVLQ.newline t t.builder rest)
          ⟨rfl, rfl, h.source, h.originalLine, h.originalColumn⟩
          (by change 0 ≤ s.generated.lines + 1; omega) hi.2 hs hls rfl
        refine ⟨.separator :: es, ms, t', hmap, ⟨hst.recorded, ?_, ?_⟩, hlt', fun b => ?_⟩
        · intro cur hcur
          exact hst.nonNeg cur (by simpa using hcur)
        · have hsep : separators (.separator :: es) = separators es + 1 :=
            countP_cons_of_pos rfl
          rw [hst.line, hsep]
          change s.generated.lines + 1 + _ = _
          push_cast
          ring
        · rw [fromAll_newline (t := { t with builder := b }) (h.remain.trans hr), foldlM_cons]
          change _ = ((b.appendLineSeparator).bind fun b => es.foldlM Builder.record b).map _
          change (b.appendLineSeparator).bind _ = _
          rcases b.appendLineSeparator with _ | b'
          · rfl
          · exact hfr b'
      · rw [parseAll_segment hr hc, Fallible.bind_eq_ok] at hs
        obtain ⟨s1, hs1, hs⟩ := hs
        obtain ⟨es, ms, t1, hc1, hln1, hmap, hst, hseg⟩ := h.segment hn hs1 hls
        obtain ⟨es', ms', t', hmap', hst', hlt', hfr⟩ := ih s1.remain.length
          (length_readSegment hs1) hc1 (by rw [hln1]; exact hln) (by rw [hln1]; exact hlt) hs
          hmap rfl
        refine ⟨es ++ es', ms ++ ms', t', by rw [hmap', append_assoc],
          recorded_steps hst hst', hlt', fun b => ?_⟩
        rw [fromAll_segment (t := { t with builder := b }) (h.remain.trans hr) hc,
          Fallible.run_bind, hseg, foldlM_append]
        rcases es.foldlM Builder.record b with _ | b'
        · rfl
        · exact hfr b'

theorem fromVLQ_run {vlq : List UInt8} {hint : ℕ} {es : List Event} {t' : FromVLQ}
    (h : ∀ b, (FromVLQ.fromAll { builder := b, remain := vlq }).run =
      (es.foldlM Builder.record b).map fun b => .ok { t' with builder := b }) :
    (fromVLQ vlq hint).run = ((Builder.run es).bind fun b => b.finalize.bind fun out =>
      writeHeader out b.count (max hint (t'.maxOriginalLine.toNat + 1))).map .ok := by
  have hall : (Fallible.drain FromVLQ.remain FromVLQ.round vlq.length { remain := vlq }).run = _ :=
    h {}
  unfold fromVLQ
  rw [Fallible.run_bind, hall, ← Builder.run]
  rcases Builder.run es with _ | b
  · rfl
  · simp only [Option.map_some, Option.bind_some, Fallible.run_liftM_bind]
    rcases b.finalize with _ | out
    · rfl
    · simp only [Option.bind_some]
      rcases writeHeader out b.count _ with _ | blob <;> rfl

theorem exists_events {allowAssert : Bool} {sourcesCount : ℤ} {inputLineCount : ℕ}
    {vlq : List UInt8} {map : ParsedSourceMap}
    (h : parse allowAssert vlq sourcesCount inputLineCount {} = some (.success map)) :
    ∃ es ms, ∃ t' : FromVLQ, map.mappings = .withoutNames ms
      ∧ recorded 0 es = ms.map MappingWithoutName.toState ∧ (∀ c, .mapping c ∈ es → c.NonNeg)
      ∧ separators es < 2 ^ 31
      ∧ ∀ hint, (fromVLQ vlq hint).run = ((Builder.run es).bind fun b => b.finalize.bind fun out =>
        writeHeader out b.count (max hint (t'.maxOriginalLine.toNat + 1))).map .ok := by
  simp only [parse, Option.map_eq_some_iff] at h
  obtain ⟨_ | s', hs, hmap⟩ := h
  · simp at hmap
  simp only [Bool.and_false, Bool.false_eq_true, if_false, ParseResult.success.injEq] at hmap
  subst hmap
  obtain ⟨es, ms, t', hmap, hst, hlt, hfr⟩ := Coupled.fromAll
    (s := { remain := vlq }) (t := { remain := vlq }) ⟨rfl, rfl, rfl, rfl, rfl⟩ rfl
    le_rfl (by norm_num) hs rfl
  have hln := hst.line
  simp only at hln
  exact ⟨es, ms, t', by rw [hmap]; rfl, hst.recorded, hst.nonNeg, by omega,
    fun _ => fromVLQ_run hfr⟩

/-- Where the parser accepts a text, the blob comes exactly when its mappings fit the format, and it
is decoded to them. -/
theorem fromVLQ_parse (allowAssert : Bool) (sourcesCount : ℤ) (inputLineCount hint : ℕ)
    (vlq : List UInt8) {map : ParsedSourceMap}
    (h : parse allowAssert vlq sourcesCount inputLineCount {} = some (.success map)) :
    ∃ ms, map.mappings = .withoutNames ms
      ∧ ((fromVLQ vlq hint).run.isSome ↔ FitsFormat (ms.map MappingWithoutName.toState))
      ∧ ∀ out, (fromVLQ vlq hint).run = some out → ∃ blob, out = .ok blob
        ∧ (InternalSourceMap.mk blob).states = some (ms.map MappingWithoutName.toState) := by
  obtain ⟨es, ms, t', hmap, hrecorded, hnn, hsep, hrun⟩ := exists_events h
  obtain ⟨hiff, hholds⟩ := run_finalize hnn hsep Builder.count
    (fun _ => max hint (t'.maxOriginalLine.toNat + 1)) rfl
  rw [hrecorded] at hiff hholds
  refine ⟨ms, hmap, ?_, fun out hout => ?_⟩
  · rw [hrun, Option.isSome_map]
    exact hiff
  · rw [hrun, Option.map_eq_some_iff] at hout
    obtain ⟨blob, hblob, rfl⟩ := hout
    obtain ⟨wins, hpieces, hwins⟩ := hholds blob hblob
    exact ⟨blob, rfl, by rw [InternalSourceMap.states, hwins.forEach, hpieces, foldlM_concat,
      nil_append]⟩

end

/-- `AAAA,CAAC;;AACA`: two lines, one of them with a comma. -/
theorem fromVLQ_parse_lines :
    ∃ ms, MappingList.withoutNames [⟨⟨0, 0⟩, ⟨0, 0⟩, 0⟩, ⟨⟨0, 1⟩, ⟨0, 1⟩, 0⟩, ⟨⟨2, 0⟩, ⟨1, 1⟩, 0⟩] =
        .withoutNames ms
      ∧ ((fromVLQ [65, 65, 65, 65, 44, 67, 65, 65, 67, 59, 59, 65, 65, 67, 65] 2).run.isSome ↔
        FitsFormat (ms.map MappingWithoutName.toState))
      ∧ ∀ out, (fromVLQ [65, 65, 65, 65, 44, 67, 65, 65, 67, 59, 59, 65, 65, 67, 65] 2).run =
          some out →
        ∃ blob, out = .ok blob
          ∧ (InternalSourceMap.mk blob).states = some (ms.map MappingWithoutName.toState) :=
  @fromVLQ_parse true (2 ^ 31 - 1) 2 2 [65, 65, 65, 65, 44, 67, 65, 65, 67, 59, 59, 65, 65, 67, 65]
    ⟨.withoutNames [⟨⟨0, 0⟩, ⟨0, 0⟩, 0⟩, ⟨⟨0, 1⟩, ⟨0, 1⟩, 0⟩, ⟨⟨2, 0⟩, ⟨1, 1⟩, 0⟩], 2⟩ (by decide +kernel)

/-- The parser accepts the text of `2 ^ 32` mappings, which no blob can hold. -/
theorem fromVLQ_parse_refuted :
    ∃ text, parse true text (2 ^ 31 - 1) 0 {} = some (.success
        ⟨.withoutNames (List.replicate (2 ^ 32) ⟨⟨0, 0⟩, ⟨0, 0⟩, 0⟩), 0⟩)
      ∧ (fromVLQ text 0).run = none := by
  obtain ⟨text, -, hparse⟩ := @plainText_parse
    (List.replicate (2 ^ 32) ⟨⟨0, 0⟩, ⟨0, 0⟩, 0⟩) true (2 ^ 31 - 1) (by norm_num) 0 {}
    (fun m hm => by
      obtain rfl := eq_of_mem_replicate hm
      exact ⟨⟨by decide, by decide, by decide⟩, ⟨by decide, by decide, by decide⟩, by decide,
        ⟨by decide, by decide, by decide⟩, ⟨by decide, by decide, by decide⟩⟩)
    (pairwise_replicate.2 (Or.inr (Or.inr ⟨rfl, le_rfl⟩)))
  refine ⟨text, hparse, ?_⟩
  obtain ⟨es, ms, t', hmap, hrecorded, hnn, hsep, hrun⟩ := exists_events hparse
  obtain ⟨hiff, -⟩ := run_finalize hnn hsep Builder.count
    (fun _ => max 0 (t'.maxOriginalLine.toNat + 1)) rfl
  rw [hrun, Option.map_eq_none_iff, ← Option.not_isSome_iff_eq_none]
  intro hblob
  have hlt := (hiff.1 hblob).length_lt (recorded_nonNeg hnn hsep)
  rw [MappingList.withoutNames.injEq] at hmap
  rw [hrecorded, ← hmap, length_map, length_replicate] at hlt
  exact absurd hlt (lt_irrefl _)

/-- Of a text whose mappings lie in order, every lookup in the blob finds what it finds in the list
that the parser makes of the text. -/
theorem fromVLQ_find {allowAssert : Bool} {sourcesCount : ℤ} {inputLineCount hint : ℕ}
    {vlq blob : List UInt8} {ms : List MappingWithoutName} {lines : ℕ}
    (h : parse allowAssert vlq sourcesCount inputLineCount {} =
      some (.success ⟨.withoutNames ms, lines⟩))
    (hs : ms.Pairwise fun a b => a.generated.Before b.generated)
    (hb : (fromVLQ vlq hint).run = some (.ok blob)) (line col : ℤ) :
    (InternalSourceMap.mk blob).find line col = (MappingList.withoutNames ms).find line col := by
  obtain ⟨es, ms', t', hmap, hrecorded, hnn, hsep, hrun⟩ := exists_events h
  obtain rfl := MappingList.withoutNames.inj hmap
  obtain ⟨-, hholds⟩ := run_finalize hnn hsep Builder.count
    (fun _ => max hint (t'.maxOriginalLine.toNat + 1)) rfl
  rw [hrun, Option.map_eq_some_iff] at hb
  obtain ⟨data, hdata, heq⟩ := hb
  obtain rfl := Except.ok.inj heq
  obtain ⟨wins, hpieces, hwins⟩ := hholds _ hdata
  rw [hrecorded] at hpieces
  rw [hwins.find (by rw [hpieces, pairwise_map]; exact hs), hpieces, lastOnLine_map,
    find_withoutNames hs]

/-- `AAAA,CAAC` and the second column. -/
theorem fromVLQ_find_column : ∃ blob, (fromVLQ [65, 65, 65, 65, 44, 67, 65, 65, 67] 1).run =
      some (.ok blob) ∧ (InternalSourceMap.mk blob).find 0 1 =
        (MappingList.withoutNames [⟨⟨0, 0⟩, ⟨0, 0⟩, 0⟩, ⟨⟨0, 1⟩, ⟨0, 1⟩, 0⟩]).find 0 1 := by
  have hrun : ((fromVLQ [65, 65, 65, 65, 44, 67, 65, 65, 67] 1).run.bind
      Except.toOption).isSome := by decide +kernel
  obtain ⟨blob, hb⟩ := Option.isSome_iff_exists.1 hrun
  obtain ⟨r, hr, hblob⟩ := Option.bind_eq_some_iff.1 hb
  cases r with
  | error e => cases hblob
  | ok data =>
    exact ⟨data, hr, @fromVLQ_find true (2 ^ 31 - 1) 1 1 _ _ _ 1 (by decide +kernel)
      (by simp [LineColumnOffset.Before]) hr 0 1⟩

end Cruller.SourceMap
