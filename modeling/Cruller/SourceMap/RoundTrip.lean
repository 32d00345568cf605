import Cruller.SourceMap.Lookup
import Cruller.SourceMap.Parse
import Cruller.SourceMap.Text

/-!
# The text round trip

What the printer writes for a sorted list of mappings is parsed to that list. The writer is ahead of
the reader by the text that is left (`Matches`): both hold the same line, column, source and original
position, and each mapping moves them alike (`Matches.mapping`).
-/

namespace Cruller.SourceMap

open List Option Nat InternalSourceMap ParseConfig

theorem ne_separator_of_mem_base64 {byte : UInt8} (h : byte ∈ base64) :
    byte ≠ comma ∧ byte ≠ semicolon ∧ byte ≠ quote ∧ byte ≠ 0 := by
  revert byte
  decide +kernel

theorem exists_number {v : ℤ} (h : -2 ^ 31 < v) (h' : v < 2 ^ 31) :
    ∃ text, encode v = some text ∧ Number text v ∧ ∀ byte ∈ text, byte ∈ base64 := by
  obtain ⟨text, ht⟩ := isSome_iff_exists.1 (encode_isSome h h')
  obtain ⟨-, hmem⟩ := mem_base64_of_encode h h' ht
  have hdc : decode ([] ++ text ++ []) 0 = _ := decode_encode h h' ht
  refine ⟨text, ht, ⟨by simpa using hdc, fun hc => ?_, fun hc => ?_⟩, hmem⟩
  · exact (ne_separator_of_mem_base64 (hmem _ (mem_of_mem_head? hc))).1 rfl
  · exact (ne_separator_of_mem_base64 (hmem _ (mem_of_mem_head? hc))).2.1 rfl

/-- A mapping that the parser takes. -/
structure MappingWithoutName.Parses (allowAssert : Bool) (sourcesCount : ℤ)
    (m : MappingWithoutName) : Prop where
  lines : IsOrdinal allowAssert m.generated.lines
  columns : IsOrdinal allowAssert m.generated.columns
  source : 0 ≤ m.sourceIndex ∧ m.sourceIndex < sourcesCount
  originalLines : IsOrdinal allowAssert m.original.lines
  originalColumns : IsOrdinal allowAssert m.original.columns

theorem subSaturating_eq {a b : ℤ} (ha : 0 ≤ a ∧ a < 2 ^ 31) (hb : 0 ≤ b ∧ b < 2 ^ 31) :
    subSaturating a b = a - b := by
  unfold subSaturating
  omega

theorem exists_number_sub {a b : ℤ} (ha : 0 ≤ a ∧ a < 2 ^ 31) (hb : 0 ≤ b ∧ b < 2 ^ 31) :
    ∃ text, encode (subSaturating a b) = some text ∧ Number text (a - b)
      ∧ ∀ byte ∈ text, byte ∈ base64 := by
  rw [subSaturating_eq ha hb]
  exact exists_number (by omega) (by omega)

/-- A segment follows one on its line. -/
def NeedsComma (lastByte : UInt8) : Prop := lastByte ≠ 0 ∧ lastByte ≠ semicolon ∧ lastByte ≠ quote

instance (lastByte : UInt8) : Decidable (NeedsComma lastByte) := inferInstanceAs (Decidable (_ ∧ _))

theorem appendMappingToBuffer_eq {buffer : List UInt8} {lastByte : UInt8}
    {prev cur : SourceMapState} (hp : prev.NonNeg) (hc : cur.NonNeg) :
    ∃ a b d f, Number a (cur.generatedColumn - prev.generatedColumn)
      ∧ Number b (cur.sourceIndex - prev.sourceIndex)
      ∧ Number d (cur.originalLine - prev.originalLine)
      ∧ Number f (cur.originalColumn - prev.originalColumn)
      ∧ (∀ byte ∈ f, byte ∈ base64)
      ∧ appendMappingToBuffer buffer lastByte prev cur =
        some (buffer ++ (if NeedsComma lastByte then [comma] else [])
          ++ (a ++ (b ++ (d ++ f)))) := by
  obtain ⟨a, ha, hna, -⟩ := exists_number_sub hc.generatedColumn hp.generatedColumn
  obtain ⟨b, hb, hnb, -⟩ := exists_number_sub hc.sourceIndex hp.sourceIndex
  obtain ⟨d, hd, hnd, -⟩ := exists_number_sub hc.originalLine hp.originalLine
  obtain ⟨f, hf, hnf, hmem⟩ := exists_number_sub hc.originalColumn hp.originalColumn
  refine ⟨a, b, d, f, hna, hnb, hnd, hnf, hmem, ?_⟩
  unfold appendMappingToBuffer NeedsComma
  simp only [ha, hb, hd, hf, bind_eq_bind, bind_some, append_assoc]
  rfl

theorem needsComma_of_number {buffer f : List UInt8} {v : ℤ} (hf : Number f v)
    (hmem : ∀ byte ∈ f, byte ∈ base64) : NeedsComma ((buffer ++ f).getLast?.getD 0) := by
  obtain ⟨char, rest, rfl, -⟩ := hf.exists_cons
  have hne : char :: rest ≠ [] := cons_ne_nil _ _
  rw [getLast?_append_of_ne_nil _ hne, getLast?_eq_some_getLast hne, getD_some]
  obtain ⟨-, h2, h3, h4⟩ := ne_separator_of_mem_base64 (hmem _ (getLast_mem hne))
  exact ⟨h4, h2, h3⟩

section

variable {c : ParseConfig} {s : ParseState} {e : Emitter} {m : MappingWithoutName}
  {ms : List MappingWithoutName} {text rest : List UInt8}

/-- Both stand at the same place with the same values. -/
structure Matches (e : Emitter) (s : ParseState) : Prop where
  lines : s.generated.lines = e.generatedLine
  columns : s.generated.columns = e.prev.generatedColumn
  source : s.sourceIndex = e.prev.sourceIndex
  originalLines : s.original.lines = e.prev.originalLine
  originalColumns : s.original.columns = e.prev.originalColumn

variable {n : ℕ}

theorem parseAll_newlines {line : ℤ} (h0 : 0 ≤ s.generated.lines)
    (hs : s.remain = List.replicate n semicolon ++ rest) (hl : line = s.generated.lines + n)
    (h : IsOrdinal c.allowAssert line) (hn : 0 < n) :
    c.parseAll s = c.parseAll (newline s line rest) := by
  induction n generalizing s with
  | zero => exact absurd hn (lt_irrefl 0)
  | succ n ih =>
    have hone : addScalar c.allowAssert s.generated.lines 1 = some (s.generated.lines + 1) := by
      refine addScalar_eq_some.2 ⟨rfl, ⟨by omega, ?_⟩, fun ha => ⟨by omega, ?_⟩⟩
      · have := h.lt
        omega
      · have := h.ne ha
        have := h.lt
        omega
    rw [replicate_succ, cons_append] at hs
    rw [parseAll_newline h0 hs, hone]
    change c.parseAll (newline s (s.generated.lines + 1) (List.replicate n semicolon ++ rest)) = _
    rcases n with _ | n
    · rw [hl]
      rfl
    · rw [ih (s := newline s (s.generated.lines + 1) _) (by change 0 ≤ s.generated.lines + 1; omega)
        rfl (by rw [hl]; simp only [newline]; push_cast; ring) (succ_pos n)]
      rfl

theorem dropComma_number {v : ℤ} (h : Number text v) : dropComma (text ++ rest) = text ++ rest := by
  obtain ⟨char, rest', rfl, hne, -⟩ := h.exists_cons
  rw [cons_append, dropComma, if_neg hne]

def InternalSourceMap.Emitter.position (e : Emitter) : LineColumnOffset :=
  ⟨e.generatedLine, e.prev.generatedColumn⟩

def InternalSourceMap.Emitter.lastByte (e : Emitter) : UInt8 := e.out.getLast?.getD 0

/-- The emitter can write the mapping. -/
structure InternalSourceMap.Emitter.Ready (e : Emitter) (m : MappingWithoutName) : Prop where
  line : 0 ≤ e.generatedLine
  prev : e.prev.NonNeg
  before : e.position.Before m.generated

variable {allowAssert : Bool} {sourcesCount : ℤ}

theorem MappingWithoutName.Parses.nonNeg (h : m.Parses allowAssert sourcesCount)
    (hcn : sourcesCount < 2 ^ 31) : m.current.NonNeg :=
  ⟨⟨h.columns.nonneg, h.columns.lt⟩, ⟨h.source.1, h.source.2.trans hcn⟩,
    ⟨h.originalLines.nonneg, h.originalLines.lt⟩, ⟨h.originalColumns.nonneg, h.originalColumns.lt⟩⟩

theorem InternalSourceMap.Emitter.Ready.separators (h : e.Ready m)
    (hcol : 0 ≤ m.generated.columns) (hn : (m.generated.lines - e.generatedLine).toNat = n) :
    (emitSeparators n e).generatedLine = m.generated.lines
      ∧ (emitSeparators n e).prev.NonNeg
      ∧ (emitSeparators n e).prev.generatedColumn ≤ m.generated.columns := by
  obtain ⟨-, hln, hpr⟩ := emitSeparators_spec n e
  obtain ⟨hl, hp, hb⟩ := h
  rw [hln, hpr]
  simp only [LineColumnOffset.Before, Emitter.position] at hb
  refine ⟨by rcases hb with hb | hb <;> omega, ?_, ?_⟩
  · split
    · exact hp
    · exact ⟨by simp, hp.sourceIndex, hp.originalLine, hp.originalColumn⟩
  · split
    · rcases hb with hb | hb <;> omega
    · exact hcol

/-- The emitter writes the four numbers of the mapping, and is ready behind it. -/
theorem InternalSourceMap.Emitter.Ready.emitVLQ (h : e.Ready m)
    (hm : m.Parses allowAssert sourcesCount) (hcn : sourcesCount < 2 ^ 31)
    (hn : (m.generated.lines - e.generatedLine).toNat = n) :
    ∃ a b d f, Number a (m.generated.columns - (emitSeparators n e).prev.generatedColumn)
      ∧ Number b (m.sourceIndex - e.prev.sourceIndex)
      ∧ Number d (m.original.lines - e.prev.originalLine)
      ∧ Number f (m.original.columns - e.prev.originalColumn)
      ∧ (∀ byte ∈ f, byte ∈ base64)
      ∧ InternalSourceMap.emitVLQ e m.toState = some
        { prev := m.current
          generatedLine := m.generated.lines
          out := e.out ++ (List.replicate n semicolon
            ++ (if n = 0 ∧ NeedsComma e.lastByte then [comma] else []) ++ (a ++ (b ++ (d ++ f)))) } := by
  obtain ⟨hout, -, hpr⟩ := emitSeparators_spec n e
  obtain ⟨hln, hnn, -⟩ := h.separators hm.columns.nonneg hn
  obtain ⟨a, b, d, f, ha, hb, hd, hf, hmem, hap⟩ := @appendMappingToBuffer_eq
    (emitSeparators n e).out ((emitSeparators n e).out.getLast?.getD 0) _ _ hnn (hm.nonNeg hcn)
  have hcm : NeedsComma ((emitSeparators n e).out.getLast?.getD 0) ↔
      n = 0 ∧ NeedsComma e.lastByte := by
    rw [hout]
    rcases n with _ | n
    · simp [Emitter.lastByte]
    · rw [replicate_succ', ← append_assoc, getLast?_concat]
      simp [NeedsComma]
  have hsm : (emitSeparators n e).prev.sourceIndex = e.prev.sourceIndex
      ∧ (emitSeparators n e).prev.originalLine = e.prev.originalLine
      ∧ (emitSeparators n e).prev.originalColumn = e.prev.originalColumn := by
    rw [hpr]
    split <;> exact ⟨rfl, rfl, rfl⟩
  rw [hsm.1] at hb
  rw [hsm.2.1] at hd
  rw [hsm.2.2] at hf
  refine ⟨a, b, d, f, ha, hb, hd, hf, hmem, ?_⟩
  have hap' : appendMappingToBuffer (emitSeparators n e).out
      ((emitSeparators n e).out.getLast?.getD 0) (emitSeparators n e).prev
      { generatedLine := m.generated.lines, generatedColumn := m.generated.columns
        sourceIndex := m.sourceIndex, originalLine := m.original.lines
        originalColumn := m.original.columns } = _ := hap
  simp only [InternalSourceMap.emitVLQ, MappingWithoutName.toState, hn, hap', hln, hcm,
    map_some]
  simp only [hout, MappingWithoutName.current, append_assoc]

theorem Matches.separators (h : Matches e s) (hr : e.Ready m)
    (hm : m.Parses c.allowAssert sourcesCount)
    (hn : (m.generated.lines - e.generatedLine).toNat = n) {a : List UInt8} {v : ℤ}
    (ha : Number a v)
    (hs : s.remain = dropComma (List.replicate n semicolon
      ++ ((if n = 0 ∧ NeedsComma e.lastByte then [comma] else []) ++ (a ++ rest)))) :
    c.parseAll s = c.parseAll { s with
      generated := { lines := m.generated.lines
                     columns := (emitSeparators n e).prev.generatedColumn }
      remain := a ++ rest } := by
  obtain ⟨-, hln, hpr⟩ := emitSeparators_spec n e
  have hl : (emitSeparators n e).generatedLine = m.generated.lines :=
    (hr.separators hm.columns.nonneg hn).1
  rcases n with _ | n
  · have hrm : s.remain = a ++ rest := by
      rw [hs]
      split
      · rfl
      · rw [replicate_zero, nil_append, nil_append]
        exact dropComma_number ha
    congr 1
    rw [hpr, if_pos rfl, ← h.columns, ← hl, hln, cast_zero, Int.add_zero, ← h.lines,
      ← hrm]
  · rw [if_neg (by simp), nil_append, replicate_succ, cons_append, dropComma,
      if_neg (by decide), ← cons_append, ← replicate_succ] at hs
    rw [parseAll_newlines (by rw [h.lines]; exact hr.line) hs
      (by rw [h.lines, ← hln, hl]) hm.lines (succ_pos n), hpr, if_neg (succ_ne_zero n)]
    rfl

/-- The reader reads a mapping. -/
theorem Matches.mapping (h : Matches e s) (hr : e.Ready m) (hm : m.Parses c.allowAssert c.sourcesCount)
    (hcn : c.sourcesCount < 2 ^ 31)
    (hn : (m.generated.lines - e.generatedLine).toNat = n) {a b d f tail : List UInt8}
    (ha : Number a (m.generated.columns - (emitSeparators n e).prev.generatedColumn))
    (hb : Number b (m.sourceIndex - e.prev.sourceIndex))
    (hd : Number d (m.original.lines - e.prev.originalLine))
    (hf : Number f (m.original.columns - e.prev.originalColumn)) (htl : EndsSegment tail)
    (hs : s.remain = dropComma (List.replicate n semicolon
      ++ ((if n = 0 ∧ NeedsComma e.lastByte then [comma] else [])
        ++ (a ++ (b ++ (d ++ (f ++ tail))))))) :
    c.parseAll s = c.parseAll (skipComma { s with
      generated := m.generated
      original := m.original
      sourceIndex := m.sourceIndex
      mapping := s.mapping.append
        { generated := m.generated, original := m.original, sourceIndex := m.sourceIndex
          nameIndex := s.nameIndex }
      remain := tail }) := by
  obtain ⟨char, rest', hcs, -, hne⟩ := ha.exists_cons
  obtain ⟨-, -, hle⟩ := hr.separators hm.columns.nonneg hn
  rw [h.separators hr hm hn ha hs]
  have hsr : i32 (s.sourceIndex + (m.sourceIndex - e.prev.sourceIndex)) =
      some m.sourceIndex := by
    rw [h.source, show e.prev.sourceIndex + (m.sourceIndex - e.prev.sourceIndex) = m.sourceIndex by
      ring]
    exact i32_of_isI32 ⟨by have := hm.source.1; omega, hm.source.2.trans hcn⟩
  have hln : addScalar c.allowAssert s.original.lines (m.original.lines - e.prev.originalLine) =
      some m.original.lines := by
    rw [← h.originalLines]
    exact addScalar_of_isOrdinal hm.originalLines
  have hcl : addScalar c.allowAssert s.original.columns
      (m.original.columns - e.prev.originalColumn) = some m.original.columns := by
    rw [← h.originalColumns]
    exact addScalar_of_isOrdinal hm.originalColumns
  have hrd := readSegment_of_numbers (c := c) (s := { s with
      generated := { lines := m.generated.lines
                     columns := (emitSeparators n e).prev.generatedColumn }
      remain := a ++ (b ++ (d ++ (f ++ tail))) })
    ha hb hd hf rfl htl (addScalar_of_isOrdinal hm.columns) hm.columns.nonneg hsr hm.source.1
    hm.source.2 hln hm.originalLines.nonneg hcl hm.originalColumns.nonneg
  have hst : (decide (m.generated.columns - (emitSeparators n e).prev.generatedColumn < 0)) =
      false := by
    simpa using hle
  have hfr : a ++ (b ++ (d ++ (f ++ tail))) = char :: (rest' ++ (b ++ (d ++ (f ++ tail)))) := by
    rw [hcs]
    rfl
  refine Eq.trans (parseAll_segment hfr hne) ?_
  apply ExceptT.ext
  rw [Fallible.bind_of_ok hrd, hst]
  simp only [withMapping, Bool.or_false]
  rfl

/-- The text of a sorted list, and how it is parsed from where the writer stands. -/
theorem emit_parse (hcn : c.sourcesCount < 2 ^ 31) (hln : 0 ≤ e.generatedLine)
    (hpr : e.prev.NonNeg) (hv : ∀ m ∈ ms, m.Parses c.allowAssert c.sourcesCount)
    (hbf : ∀ m ∈ ms, e.position.Before m.generated)
    (hs : ms.Pairwise fun a b => a.generated.Before b.generated) :
    ∃ e' text, (ms.map MappingWithoutName.toState).foldlM emitVLQ e = some e'
      ∧ e'.out = e.out ++ text ∧ (NeedsComma e.lastByte → EndsSegment text)
      ∧ (¬NeedsComma e.lastByte → dropComma text = text)
      ∧ ∀ s list, Matches e s → s.mapping = .withoutNames list → s.remain = dropComma text →
        ∃ s', (c.parseAll s).run = some (.ok s') ∧ s'.mapping = .withoutNames (list ++ ms)
          ∧ s'.needsSort = s.needsSort := by
  induction ms generalizing e with
  | nil =>
    refine ⟨e, [], rfl, by simp, fun _ => Or.inl rfl, fun _ => rfl,
      fun s list _ hls hr => ⟨s, ?_, ?_, rfl⟩⟩
    · rw [parseAll_nil hr]
      rfl
    · rw [hls, append_nil]
  | cons m ms ih =>
    obtain ⟨hm, hms⟩ := pairwise_cons.1 hs
    have hvm := hv m mem_cons_self
    have hrd : e.Ready m := ⟨hln, hpr, hbf m mem_cons_self⟩
    obtain ⟨a, b, d, f, ha, hb, hd, hf, hmem, hem⟩ := hrd.emitVLQ hvm hcn rfl
    obtain ⟨out, hwr⟩ : ∃ out, out = e.out
        ++ (List.replicate (m.generated.lines - e.generatedLine).toNat semicolon
          ++ (if (m.generated.lines - e.generatedLine).toNat = 0 ∧ NeedsComma e.lastByte
            then [comma] else []) ++ (a ++ (b ++ (d ++ f)))) := ⟨_, rfl⟩
    rw [← hwr] at hem
    obtain ⟨e', text, hrun, hout, hen, -, hps⟩ := ih
      (e := { prev := m.current, generatedLine := m.generated.lines, out })
      hvm.lines.nonneg (hvm.nonNeg hcn) (fun m' hm' => hv m' (mem_cons_of_mem _ hm')) hm hms
    have htl : EndsSegment text := hen (by
      rw [Emitter.lastByte, hwr]
      simp only [← append_assoc]
      exact needsComma_of_number hf hmem)
    refine ⟨e', List.replicate (m.generated.lines - e.generatedLine).toNat semicolon
      ++ ((if (m.generated.lines - e.generatedLine).toNat = 0 ∧ NeedsComma e.lastByte
        then [comma] else []) ++ (a ++ (b ++ (d ++ (f ++ text))))), ?_, ?_, ?_, ?_, ?_⟩
    · rw [map_cons, foldlM_cons, hem]
      exact hrun
    · rw [hout, hwr]
      simp only [append_assoc]
    · intro hcm
      rcases hn : (m.generated.lines - e.generatedLine).toNat with _ | n
      · rw [if_pos ⟨rfl, hcm⟩]
        exact Or.inr (Or.inl rfl)
      · exact Or.inr (Or.inr rfl)
    · intro hcm
      rcases (m.generated.lines - e.generatedLine).toNat with _ | n
      · rw [if_neg fun h => hcm h.2, replicate_zero, nil_append, nil_append]
        exact dropComma_number ha
      · rw [replicate_succ, cons_append, dropComma, if_neg (by decide)]
    · intro s list hmt hls hr
      rw [hmt.mapping hrd hvm hcn rfl ha hb hd hf htl hr]
      obtain ⟨s', hs', hls', hsr⟩ := hps
        (skipComma { s with
          generated := m.generated
          original := m.original
          sourceIndex := m.sourceIndex
          mapping := s.mapping.append
            { generated := m.generated, original := m.original, sourceIndex := m.sourceIndex
              nameIndex := s.nameIndex }
          remain := text }) (list ++ [m])
        ⟨rfl, rfl, rfl, rfl, rfl⟩ (by simp only [skipComma, hls]; rfl) rfl
      exact ⟨s', hs', by rw [hls', append_assoc]; rfl, hsr⟩

end

section

variable {ms : List MappingWithoutName}

theorem separators_eventsOf {line bound : ℤ} (hln : line ≤ bound)
    (hms : ∀ m ∈ ms, line ≤ m.generated.lines ∧ m.generated.lines ≤ bound)
    (hs : ms.Pairwise fun a b => a.generated.Before b.generated) :
    line + separators (eventsOf line ms) ≤ bound := by
  induction ms generalizing line with
  | nil => simpa [eventsOf, separators] using hln
  | cons m ms ih =>
    obtain ⟨hm, hms'⟩ := pairwise_cons.1 hs
    obtain ⟨hle, hle'⟩ := hms m mem_cons_self
    have hrs := ih hle' (fun m' hm' => ⟨by rcases hm m' hm' with h | h <;> omega,
      (hms m' (mem_cons_of_mem _ hm')).2⟩) hms'
    have hsep : separators (eventsOf line (m :: ms)) = (m.generated.lines - line).toNat
        + separators (eventsOf m.generated.lines ms) := by
      simp [eventsOf, separators, countP_append, countP_replicate]
    rw [hsep]
    push_cast
    omega

theorem trailingSeparators_eventsOf (line : ℤ) (ms : List MappingWithoutName) :
    trailingSeparators (eventsOf line ms) = 0 := by
  have hls : ∀ (ms : List MappingWithoutName) line m, ∃ es current,
      eventsOf line (m :: ms) = es ++ [.mapping current] := by
    intro ms
    induction ms with
    | nil => exact fun line m => ⟨_, m.current, rfl⟩
    | cons m' ms ih =>
      intro line m
      obtain ⟨es, current, he⟩ := ih m.generated.lines m'
      exact ⟨List.replicate (m.generated.lines - line).toNat .separator ++ .mapping m.current :: es,
        current, by rw [eventsOf, he, append_assoc, cons_append]⟩
  rcases ms with _ | ⟨m, ms⟩
  · rfl
  · obtain ⟨es, current, he⟩ := hls ms line m
    rw [he, trailingSeparators_mapping]

/-- The plain text of mappings that can be parsed and stand in order is parsed back to them. -/
theorem plainText_parse (allowAssert : Bool) {sourcesCount : ℤ} (hcn : sourcesCount < 2 ^ 31)
    (inputLineCount : ℕ) (options : ParseOptions) (hv : ∀ m ∈ ms, m.Parses allowAssert sourcesCount)
    (hs : ms.Pairwise fun a b => a.generated.Before b.generated) :
    ∃ text, plainText (eventsOf 0 ms) = some text
      ∧ parse allowAssert text sourcesCount inputLineCount options =
        some (.success { mappings := .withoutNames ms, inputLineCount }) := by
  have hf : ∀ c, .mapping c ∈ eventsOf 0 ms → c.NonNeg := by
    intro c hc
    obtain ⟨m, hm, rfl⟩ := mem_eventsOf hc
    exact (hv m hm).nonNeg hcn
  have hsep : (0 : ℤ) + separators (eventsOf 0 ms) ≤ 2 ^ 31 - 1 := separators_eventsOf (by norm_num)
    (fun m hm => ⟨(hv m hm).lines.nonneg, by have := (hv m hm).lines.lt; omega⟩) hs
  obtain ⟨b, e, hb, he, hah, -⟩ := run_plain hf (by omega)
  rw [recorded_eventsOf (fun m hm => (hv m hm).lines.nonneg) hs] at he
  have hpos : ∀ m ∈ ms, ({} : Emitter).position.Before m.generated := by
    intro m hm
    have h1 := (hv m hm).lines.nonneg
    have h2 := (hv m hm).columns.nonneg
    simp only [LineColumnOffset.Before, Emitter.position]
    omega
  obtain ⟨e', text, he', hout, -, hcm, hpr⟩ := emit_parse
    (c := { allowAssert, sourcesCount, allowNames := options.allowNames, len := e.out.length })
    (e := {}) hcn le_rfl ⟨by decide, by decide, by decide, by decide⟩ hv hpos hs
  obtain rfl : e' = e := some.inj (he'.symm.trans he)
  obtain rfl : e'.out = text := hout
  rw [trailingSeparators_eventsOf] at hah
  refine ⟨e'.out, ?_, ?_⟩
  · rw [plainText, hb, bind_some, hah.text, replicate_zero, append_nil]
  · obtain ⟨s', hs', hls, hsr⟩ := hpr { remain := e'.out } [] ⟨rfl, rfl, rfl, rfl, rfl⟩
      rfl (hcm (by decide)).symm
    have hrun : (ParseConfig.parseLoop _ e'.out.length { remain := e'.out }).run = _ := hs'
    simp only [parse, hrun, map_some, hls, hsr]
    rfl

/-- The text of a sorted list of mappings is parsed to the list, and a number that is written is
read back whatever follows. -/
theorem parse_text (allowAssert : Bool) {sourcesCount : ℤ} (hcount : sourcesCount < 2 ^ 31)
    (inputLineCount : ℕ) (options : ParseOptions) (hv : ∀ m ∈ ms, m.Parses allowAssert sourcesCount)
    (hs : ms.Pairwise fun a b => a.generated.Before b.generated) :
    (∃ text, plainText (eventsOf 0 ms) = some text
      ∧ parse allowAssert text sourcesCount inputLineCount options =
        some (.success { mappings := .withoutNames ms, inputLineCount }))
      ∧ ∀ v, -2 ^ 31 < v → v < 2 ^ 31 → ∃ bytes, encode v = some bytes
        ∧ encodeSlowPath v = some bytes
        ∧ ∀ before rest, decode (before ++ bytes ++ rest) before.length =
          some { value := v, start := before.length + bytes.length } := by
  refine ⟨plainText_parse allowAssert hcount inputLineCount options hv hs, fun v h h' => ?_⟩
  obtain ⟨bytes, hb⟩ := isSome_iff_exists.1 (encode_isSome h h')
  exact ⟨bytes, hb, by rw [← encode_eq_encodeSlowPath, hb], fun _ _ => decode_encode h h' hb⟩

/-- Three mappings on four lines, two of them empty. -/
theorem parse_text_lines :
    (∃ text, plainText (eventsOf 0 [⟨⟨0, 0⟩, ⟨0, 0⟩, 0⟩, ⟨⟨0, 4⟩, ⟨700, 2⟩, 1⟩,
        ⟨⟨3, 1⟩, ⟨1, 5⟩, 0⟩]) = some text
      ∧ parse true text 2 4 { sort := true } =
        some (.success ⟨.withoutNames [⟨⟨0, 0⟩, ⟨0, 0⟩, 0⟩, ⟨⟨0, 4⟩, ⟨700, 2⟩, 1⟩,
          ⟨⟨3, 1⟩, ⟨1, 5⟩, 0⟩], 4⟩))
      ∧ ∀ v, -2 ^ 31 < v → v < 2 ^ 31 → ∃ bytes, encode v = some bytes
        ∧ encodeSlowPath v = some bytes
        ∧ ∀ before rest, decode (before ++ bytes ++ rest) before.length =
          some { value := v, start := before.length + bytes.length } := by
  refine parse_text true (by norm_num) 4 { sort := true } ?_ ?_
  · intro m hm
    fin_cases hm <;> exact ⟨⟨by decide, by decide, by decide⟩, ⟨by decide, by decide, by decide⟩,
      by decide, ⟨by decide, by decide, by decide⟩, ⟨by decide, by decide, by decide⟩⟩
  · simp [LineColumnOffset.Before]

/-- The last source index is no index for any number of sources, and with assertions the last
`i32` is no ordinal. -/
theorem parse_text_refuted :
    (∃ text, plainText (eventsOf 0 [⟨⟨0, 0⟩, ⟨0, 0⟩, 2 ^ 31 - 1⟩]) = some text
      ∧ ∀ allowAssert, parse allowAssert text (2 ^ 31 - 1) 0 {} = some (.fail
        { loc := 1, err := .invalidSourceIndexValue, value := 2 ^ 31 - 1
          msg := "Invalid source index value" }))
      ∧ ∃ text, plainText (eventsOf 0 [⟨⟨0, 2 ^ 31 - 1⟩, ⟨0, 0⟩, 0⟩]) = some text
        ∧ parse true text 1 0 {} = none := by
  -- `A+/////DAA` and `+/////DAAA`
  refine ⟨⟨[0x41, 0x2b, 0x2f, 0x2f, 0x2f, 0x2f, 0x2f, 0x44, 0x41, 0x41], ?_, ?_⟩,
    [0x2b, 0x2f, 0x2f, 0x2f, 0x2f, 0x2f, 0x44, 0x41, 0x41, 0x41], ?_, ?_⟩ <;> decide +kernel

end

end Cruller.SourceMap
