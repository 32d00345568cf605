import Cruller.SourceMap.ParseSafety
import Cruller.SourceMap.RoundTrip

/-!
# Text inside other text

What the parser does with a text that ends with a line end, it does with the text as part of a longer
one, some lines further down and some sources further on (`Shifted.parseFrom`).
-/

namespace Cruller.SourceMap

open List Option ParseConfig

/-- A mapping some lines and sources further on. -/
def MappingWithoutName.shift (lines sources : ℤ) (m : MappingWithoutName) : MappingWithoutName where
  generated := { lines := m.generated.lines + lines, columns := m.generated.columns }
  original := m.original
  sourceIndex := m.sourceIndex + sources

/-- `t` is where `s` is, with `more` after its text and `list` before its mappings. -/
structure Shifted (lines sources : ℤ) (more : List UInt8) (list : List MappingWithoutName)
    (s t : ParseState) : Prop where
  remain : t.remain = s.remain ++ more
  generated : t.generated = ⟨s.generated.lines + lines, s.generated.columns⟩
  original : t.original = s.original
  source : t.sourceIndex = s.sourceIndex + sources
  mapping : ∃ ms, s.mapping = .withoutNames ms
    ∧ t.mapping = .withoutNames (list ++ ms.map (MappingWithoutName.shift lines sources))

section

variable {c c' : ParseConfig} {s s' t : ParseState} {field : Field} {text more : List UInt8}
  {lines sources : ℤ} {list : List MappingWithoutName}

/-- The text ends with the end of a line. -/
def EndsWithLine (field : Field) (text : List UInt8) : Prop :=
  (items field text).getLast? = some .lineEnd

theorem EndsWithLine.number {d : VLQResult} (h : EndsWithLine field text)
    (hnil : ¬(field = .generatedColumn ∧ text = []))
    (hln : ¬(field = .generatedColumn ∧ text.head? = some semicolon))
    (hd : decode text 0 = some d) :
    text.drop d.start ≠ [] ∧ EndsWithLine (following field (text.drop d.start)).1
      (following field (text.drop d.start)).2 := by
  rw [EndsWithLine, items_number hnil hln hd] at h
  have hne : items (following field (text.drop d.start)).1
      (following field (text.drop d.start)).2 ≠ [] := by
    intro he
    rw [he] at h
    simp at h
  refine ⟨fun hr => ?_, ?_⟩
  · -- a number that is cut off is no line end
    rw [hr] at h hne
    have hno : decode [] 0 = none := rfl
    cases field with
    | generatedColumn => exact hne items_nil
    | originalColumn => exact hne items_nil
    | nameIndex => exact hne items_nil
    | sourceIndex =>
      have hcut : items .originalLine [] = [.number .originalLine []] :=
        items_cut (by simp) (by simp) hno
      simp [following, hcut] at h
    | originalLine =>
      have hcut : items .originalColumn [] = [.number .originalColumn []] :=
        items_cut (by simp) (by simp) hno
      simp [following, hcut] at h
  · rw [EndsWithLine]
    rwa [getLast?_cons_of_ne_nil hne] at h

theorem lineEnds_lineEnd (l : List Item) : lineEnds (.lineEnd :: l) = lineEnds l + 1 := by
  simp [lineEnds]

theorem lineEnds_number (l : List Item) : lineEnds (.number field text :: l) = lineEnds l := by
  simp [lineEnds]

theorem EndsWithLine.decode (h : EndsWithLine field text)
    (hnil : ¬(field = .generatedColumn ∧ text = []))
    (hln : ¬(field = .generatedColumn ∧ text.head? = some semicolon)) :
    ∃ d, decode text 0 = some d := by
  rcases hd : Cruller.SourceMap.decode text 0 with _ | d
  · rw [EndsWithLine, items_cut hnil hln hd] at h
    simp at h
  · exact ⟨d, rfl⟩

/-- Every number of the text is there whole, in base64 digits. -/
def Written (field : Field) (text : List UInt8) : Prop :=
  ∀ f t, Item.number f t ∈ items field text →
    ∃ d, Cruller.SourceMap.decode t 0 = some d ∧ ∀ byte ∈ t.take d.start, byte ∈ base64

theorem Written.lineEnd (h : Written .generatedColumn (semicolon :: text)) :
    Written .generatedColumn text := by
  intro f t ht
  refine h f t ?_
  rw [items_lineEnd]
  exact mem_cons_of_mem _ ht

theorem Written.number (h : Written field text) (hnil : ¬(field = .generatedColumn ∧ text = []))
    (hln : ¬(field = .generatedColumn ∧ text.head? = some semicolon)) :
    ∃ d, Cruller.SourceMap.decode text 0 = some d ∧ (∀ byte ∈ text.take d.start, byte ∈ base64)
      ∧ Written (following field (text.drop d.start)).1
        (following field (text.drop d.start)).2 := by
  have hmem : Item.number field text ∈ items field text := by
    rw [items, if_neg hnil, dif_neg hln]
    exact mem_cons_self
  obtain ⟨d, hd, hbs⟩ := h field text hmem
  refine ⟨d, hd, hbs, fun f t ht => h f t ?_⟩
  rw [items_number hnil hln hd]
  exact mem_cons_of_mem _ ht

theorem getLast?_following (h : text.getLast? = some semicolon) :
    (following field text).2.getLast? = some semicolon := by
  have hdr : (dropComma text).getLast? = some semicolon := by
    rcases text with _ | ⟨char, text⟩
    · exact h
    · rw [dropComma]
      split <;> rename_i hc
      · rcases text with _ | ⟨char', text⟩
        · rw [hc] at h
          exact absurd h (by decide)
        · exact h
      · exact h
  cases field with
  | generatedColumn =>
    rw [following]
    split
    · exact hdr
    · exact h
  | originalColumn =>
    rw [following]
    split
    · exact hdr
    · exact h
  | nameIndex => exact hdr
  | _ => exact h

/-- A text in which every number is whole and that ends in a semicolon ends with a line. -/
theorem Written.endsWithLine (h : Written field text) (hls : text.getLast? = some semicolon) :
    EndsWithLine field text := by
  induction hn : text.length using Nat.strong_induction_on generalizing field text with
  | _ n ih =>
    subst hn
    have hne : text ≠ [] := by
      rintro rfl
      simp at hls
    have hnil : ¬(field = .generatedColumn ∧ text = []) := fun hc => hne hc.2
    by_cases hln : field = .generatedColumn ∧ text.head? = some semicolon
    · obtain ⟨rfl, hhd⟩ := hln
      obtain ⟨rest, rfl⟩ := head?_eq_some_iff.1 hhd
      rw [EndsWithLine, items_lineEnd]
      by_cases hrs : rest = []
      · rw [hrs, items_nil]
        rfl
      · have hl := ih rest.length (Nat.lt_succ_self _) h.lineEnd
          (by rwa [getLast?_cons_of_ne_nil hrs] at hls) rfl
        rw [getLast?_cons_of_ne_nil fun he => by rw [EndsWithLine, he] at hl; simp at hl]
        exact hl
    · obtain ⟨d, hd, hbs, hw⟩ := h.number hnil hln
      obtain ⟨hpos, hle⟩ := decodeWith_start hd
      have hdr : (text.drop d.start).getLast? = some semicolon := by
        rw [← take_append_drop d.start text, getLast?_append] at hls
        rcases hl : (text.drop d.start).getLast? with _ | byte
        · rw [hl, none_or] at hls
          exact absurd rfl (ne_separator_of_mem_base64 (hbs _ (mem_of_getLast? hls))).2.1
        · rwa [hl, some_or] at hls
      have hlt : (following field (text.drop d.start)).2.length < text.length := by
        have := length_following field (text.drop d.start)
        rw [length_drop] at this
        omega
      have hl := ih _ hlt hw (getLast?_following hdr) rfl
      rw [EndsWithLine, items_number hnil hln hd,
        getLast?_cons_of_ne_nil fun he => by rw [EndsWithLine, he] at hl; simp at hl]
      exact hl

theorem endsSegment_append (h : text ≠ []) : EndsSegment (text ++ more) ↔ EndsSegment text := by
  rcases text with _ | ⟨char, text⟩
  · exact absurd rfl h
  · simp [EndsSegment]

theorem dropComma_append (h : text ≠ []) : dropComma (text ++ more) = dropComma text ++ more := by
  rcases text with _ | ⟨char, text⟩
  · exact absurd rfl h
  · rw [cons_append, dropComma, dropComma]
    split
    · rfl
    · rw [cons_append]

theorem following_append (h : text ≠ []) :
    following field (text ++ more) = ((following field text).1, (following field text).2 ++ more) := by
  cases field with
  | generatedColumn =>
    simp only [following, endsSegment_append h, dropComma_append h]
    split <;> rfl
  | originalColumn =>
    simp only [following, endsSegment_append h, dropComma_append h]
    split <;> rfl
  | nameIndex => simp only [following, dropComma_append h]
  | _ => rfl

theorem Shifted.skipComma (h : Shifted lines sources more list s t) (hs : s.remain ≠ []) :
    Shifted lines sources more list (skipComma s) (skipComma t) := by
  obtain ⟨hr, hg, ho, hsrc, hm⟩ := h
  refine ⟨?_, hg, ho, hsrc, hm⟩
  change dropComma t.remain = dropComma s.remain ++ more
  rw [hr, dropComma_append hs]

theorem Shifted.appendMapping (h : Shifted lines sources more list s t) :
    Shifted lines sources more list (appendMapping s) (appendMapping t) := by
  obtain ⟨hr, hg, ho, hsrc, ms, hms, hmt⟩ := h
  refine ⟨hr, hg, ho, hsrc, ms ++ [⟨s.generated, s.original, s.sourceIndex⟩], ?_, ?_⟩
  · simp only [ParseConfig.appendMapping, hms]
    rfl
  · simp only [ParseConfig.appendMapping, hmt, hg, ho, hsrc, map_append]
    simp [MappingList.append, MappingWithoutName.shift]

theorem Shifted.advance (h : Shifted lines sources more list s t) (hs : s.remain ≠ []) :
    Shifted lines sources more list (advance field s) (advance field t) := by
  have he : EndsSegment t.remain ↔ EndsSegment s.remain := by
    rw [h.remain]
    exact endsSegment_append hs
  cases field with
  | generatedColumn =>
    simp only [ParseConfig.advance, he]
    split
    · exact h.skipComma hs
    · exact h
  | originalColumn =>
    simp only [ParseConfig.advance, he]
    split
    · exact (h.skipComma hs).appendMapping
    · exact h
  | nameIndex => exact (h.skipComma hs).appendMapping
  | _ => exact h

/-- A text of one source, read as part of a text of more. -/
structure Inside (c c' : ParseConfig) (sources : ℤ) : Prop where
  allowAssert : c'.allowAssert = c.allowAssert
  names : c.allowNames = false ∧ c'.allowNames = false
  count : c.sourcesCount = 1
  sources : 0 ≤ sources ∧ sources < c'.sourcesCount ∧ sources < 2 ^ 31

theorem Shifted.decode (h : Shifted lines sources more list s t) {d : VLQResult}
    (hd : Cruller.SourceMap.decode s.remain 0 = some d) :
    Cruller.SourceMap.decode t.remain 0 = some d
      ∧ t.remain.drop d.start = s.remain.drop d.start ++ more := by
  rw [h.remain]
  exact ⟨decodeWith_append hd, drop_append_of_le_length (decodeWith_start hd).2⟩

/-- A field read in one text is read in the other, as far ahead as before. -/
theorem Shifted.read (hc : Inside c c' sources) (h : Shifted lines sources more list s t)
    (hs : (c.read field s).run = some (.ok s')) :
    ∃ t', (c'.read field t).run = some (.ok t') ∧ Shifted lines sources more list s' t' := by
  obtain ⟨har, ⟨hn, hn'⟩, hcn, hsrc⟩ := hc
  cases field with
  | generatedColumn =>
    obtain ⟨d, column, hd, hadd, h0, rfl⟩ := readGeneratedColumn_eq_ok.1 hs
    obtain ⟨hd', hdr⟩ := h.decode hd
    have hcol : t.generated.columns = s.generated.columns := by rw [h.generated]
    refine ⟨_, readGeneratedColumn_eq_ok.2 ⟨d, column, hd', by rw [har, hcol]; exact hadd, h0,
      rfl⟩, hdr, ?_, h.original, h.source, h.mapping⟩
    rw [h.generated]
  | sourceIndex =>
    obtain ⟨d, v, hd, hadd, h0, hlt, rfl⟩ := readSourceIndex_eq_ok.1 hs
    obtain ⟨hd', hdr⟩ := h.decode hd
    obtain ⟨-, rfl⟩ := i32_eq_some.1 hadd
    have hsum : t.sourceIndex + d.value = s.sourceIndex + d.value + sources := by
      rw [h.source]
      ring
    refine ⟨_, readSourceIndex_eq_ok.2 ⟨d, s.sourceIndex + d.value + sources, hd', ?_, by omega,
      by omega, rfl⟩, hdr, h.generated, h.original, rfl, h.mapping⟩
    rw [hsum]
    exact i32_of_isI32 ⟨by omega, by omega⟩
  | originalLine =>
    obtain ⟨d, v, hd, hadd, h0, rfl⟩ := readOriginalLine_eq_ok.1 hs
    obtain ⟨hd', hdr⟩ := h.decode hd
    refine ⟨_, readOriginalLine_eq_ok.2 ⟨d, v, hd', by rw [har, h.original]; exact hadd, h0,
      rfl⟩, hdr, h.generated, ?_, h.source, h.mapping⟩
    rw [h.original]
  | originalColumn =>
    obtain ⟨d, v, hd, hadd, h0, rfl⟩ := readOriginalColumn_eq_ok.1 hs
    obtain ⟨hd', hdr⟩ := h.decode hd
    refine ⟨_, readOriginalColumn_eq_ok.2 ⟨d, v, hd', by rw [har, h.original]; exact hadd, h0,
      rfl⟩, hdr, h.generated, ?_, h.source, h.mapping⟩
    rw [h.original]
  | nameIndex =>
    obtain ⟨d, v, hd, hadd, rfl⟩ := readNameIndex_eq_ok.1 hs
    obtain ⟨hd', hdr⟩ := h.decode hd
    refine ⟨_, readNameIndex_eq_ok.2 ⟨d, t.nameIndex, hd', by rw [if_neg (by simp [hn'])], rfl⟩, ?_⟩
    rw [withName, withName, if_neg (by simp [hn]), if_neg (by simp [hn'])]
    exact ⟨hdr, h.generated, h.original, h.source, h.mapping⟩

/-- What a new line and a field that is read both keep holds at the end of the text. -/
theorem parseFrom_invariant {P : Field → ParseState → Prop}
    (hln : ∀ s lines rest, P .generatedColumn s → P .generatedColumn (newline s lines rest))
    (hrd : ∀ field s s', P field s → (c.read field s).run = some (.ok s') →
      P (following field s'.remain).1 (ParseConfig.advance field s'))
    (h : P field s) (h0 : 0 ≤ s.generated.lines)
    (hs : (c.parseFrom field s).run = some (.ok s')) : P .generatedColumn s' := by
  induction hn : s.remain.length using Nat.strong_induction_on generalizing s field with
  | _ n ih =>
    subst hn
    by_cases hnil : field = .generatedColumn ∧ s.remain = []
    · obtain ⟨rfl, hnil⟩ := hnil
      rw [parseFrom, parseAll_nil hnil, Fallible.run_pure, some.injEq,
        Except.ok.injEq] at hs
      rwa [← hs]
    by_cases hsm : field = .generatedColumn ∧ s.remain.head? = some semicolon
    · obtain ⟨rfl, hhd⟩ := hsm
      obtain ⟨rest, hr⟩ := head?_eq_some_iff.1 hhd
      rw [parseFrom, parseAll_newline h0 hr, Fallible.bind_eq_ok, Fallible.run_lift] at hs
      obtain ⟨lines, hl, hs⟩ := hs
      simp only [map_eq_some_iff, Except.ok.injEq, exists_eq_right] at hl
      obtain ⟨rfl, -⟩ := addScalar_eq_some.1 hl
      exact ih rest.length (by rw [hr]; exact Nat.lt_succ_self _) (hln s _ rest h)
        (by change 0 ≤ s.generated.lines + 1; omega) hs rfl
    · have hfr : field = .generatedColumn →
          ∃ char rest, s.remain = char :: rest ∧ char ≠ semicolon := by
        rintro rfl
        rcases hr : s.remain with _ | ⟨char, rest⟩
        · exact absurd ⟨rfl, hr⟩ hnil
        · exact ⟨char, rest, rfl, fun hc => hsm ⟨rfl, by rw [hr, hc]; rfl⟩⟩
      rw [parseFrom_eq hfr, Fallible.bind_eq_ok] at hs
      obtain ⟨s1, hs1, hs⟩ := hs
      obtain ⟨d, hd, -, hrem, hls, -⟩ := read_ok hs1
      obtain ⟨hadv, hgen, -⟩ := advance_spec field s1
      have hlt : (ParseConfig.advance field s1).remain.length < s.remain.length := by
        have := length_following field (s.remain.drop d.start)
        obtain ⟨hpos, hle⟩ := decodeWith_start hd
        rw [hadv, hrem]
        rw [length_drop] at this
        omega
      exact ih _ hlt (hrd field s s1 h hs1) (by rw [hgen, hls]; exact h0) hs rfl

/-- The parser comes to the end of the text, and goes on with what follows it. -/
theorem Shifted.parseFrom (hc : Inside c c' sources) (h : Shifted lines sources more list s t)
    (hen : EndsWithLine field s.remain) (hs : (c.parseFrom field s).run = some (.ok s'))
    (h0 : 0 ≤ s.generated.lines) (hln : 0 ≤ lines)
    (hbn : IsOrdinal c.allowAssert
      (s.generated.lines + lineEnds (items field s.remain) + lines)) :
    ∃ t', c'.parseFrom field t = c'.parseAll t' ∧ Shifted lines sources more list s' t'
      ∧ s'.remain = [] ∧ s'.generated.columns = 0
      ∧ s'.generated.lines = s.generated.lines + lineEnds (items field s.remain) := by
  induction hn : s.remain.length using Nat.strong_induction_on generalizing s t field with
  | _ n ih =>
    subst hn
    by_cases hnil : field = .generatedColumn ∧ s.remain = []
    · obtain ⟨rfl, hnil⟩ := hnil
      rw [EndsWithLine, hnil, items_nil] at hen
      simp at hen
    by_cases hli : field = .generatedColumn ∧ s.remain.head? = some semicolon
    · obtain ⟨rfl, hhd⟩ := hli
      obtain ⟨rest, hr⟩ := head?_eq_some_iff.1 hhd
      have hr' : t.remain = semicolon :: (rest ++ more) := by rw [h.remain, hr, cons_append]
      rw [hr, items_lineEnd, lineEnds_lineEnd] at hbn ⊢
      have hrs := lineEnds_nonneg (items .generatedColumn rest)
      have ht0 : t.generated.lines = s.generated.lines + lines := by rw [h.generated]
      have hone : addScalar c.allowAssert s.generated.lines 1 = some (s.generated.lines + 1) := by
        rw [show (1 : ℤ) = s.generated.lines + 1 - s.generated.lines by ring]
        convert addScalar_of_isOrdinal (hbn.mono (v := s.generated.lines + 1) (by omega) (by omega))
          using 2
        ring
      have hone' : addScalar c'.allowAssert t.generated.lines 1 =
          some (s.generated.lines + 1 + lines) := by
        rw [hc.allowAssert, ht0,
          show (1 : ℤ) = s.generated.lines + 1 + lines - (s.generated.lines + lines) by ring]
        convert addScalar_of_isOrdinal
          (hbn.mono (v := s.generated.lines + 1 + lines) (by omega) (by omega)) using 2
        ring
      rw [parseFrom, parseAll_newline h0 hr, hone] at hs
      rw [parseFrom, parseAll_newline (by omega) hr', hone']
      change (c.parseAll (newline s (s.generated.lines + 1) rest)).run = _ at hs
      have hnew : Shifted lines sources more list (newline s (s.generated.lines + 1) rest)
          (newline t (s.generated.lines + 1 + lines) (rest ++ more)) :=
        ⟨rfl, rfl, h.original, h.source, h.mapping⟩
      by_cases hls : items .generatedColumn rest = []
      · -- the last line end
        have hrs : rest = [] := by
          by_contra hne
          rw [items, if_neg (by simp [hne])] at hls
          split at hls <;> simp at hls
        subst hrs
        rw [parseAll_nil rfl, Fallible.run_pure, some.injEq, Except.ok.injEq] at hs
        subst hs
        exact ⟨_, rfl, hnew, rfl, rfl, by rw [items_nil]; rfl⟩
      · have hen' : EndsWithLine .generatedColumn rest := by
          rw [EndsWithLine, hr, items_lineEnd, getLast?_cons_of_ne_nil hls] at hen
          exact hen
        have hbn' : IsOrdinal c.allowAssert
            (s.generated.lines + 1 + lineEnds (items .generatedColumn rest) + lines) := by
          convert hbn using 1
          ring
        have h0' : 0 ≤ s.generated.lines + 1 := by omega
        obtain ⟨t', ht, hsh, hrem, hcol, hl⟩ := ih rest.length
          (by rw [hr]; exact Nat.lt_succ_self _) hnew hen' hs h0'
          hbn' rfl
        refine ⟨t', ht, hsh, hrem, hcol, hl.trans ?_⟩
        change s.generated.lines + 1 + lineEnds (items .generatedColumn rest) = _
        ring
    · obtain ⟨d, hd⟩ := hen.decode hnil hli
      obtain ⟨hne, hen'⟩ := hen.number hnil hli hd
      have hfr : ∀ {u : ParseState} {tail : List UInt8}, u.remain = s.remain ++ tail →
          field = .generatedColumn → ∃ char rest, u.remain = char :: rest ∧ char ≠ semicolon := by
        rintro u tail hu rfl
        rcases hr : s.remain with _ | ⟨char, rest⟩
        · exact absurd ⟨rfl, hr⟩ hnil
        · exact ⟨char, rest ++ tail, by rw [hu, hr, cons_append],
            fun hc => hli ⟨rfl, by rw [hr, hc]; rfl⟩⟩
      rw [items_number hnil hli hd, lineEnds_number] at hbn ⊢
      rw [parseFrom_eq (hfr (append_nil _).symm), Fallible.bind_eq_ok] at hs
      obtain ⟨s1, hs1, hs⟩ := hs
      obtain ⟨t1, ht1, hsh1⟩ := h.read hc hs1
      obtain ⟨d', hd', -, hrem1, hln1, -⟩ := read_ok hs1
      obtain rfl : d = d' := some.inj (hd.symm.trans hd')
      have hne1 : s1.remain ≠ [] := by rwa [hrem1]
      obtain ⟨hadv, hgen, -⟩ := advance_spec field s1
      have hlt : (ParseConfig.advance field s1).remain.length < s.remain.length := by
        have := length_following field (s.remain.drop d.start)
        obtain ⟨hpos, hle⟩ := decodeWith_start hd
        rw [hadv, hrem1]
        rw [length_drop] at this
        omega
      have hln : (ParseConfig.advance field s1).generated.lines = s.generated.lines := by
        rw [hgen, hln1]
      have hen1 : EndsWithLine (following field s1.remain).1
          (ParseConfig.advance field s1).remain := by rwa [hadv, hrem1]
      obtain ⟨t', ht, hsh, hrem, hcol, hl⟩ := ih _ hlt (hsh1.advance hne1) hen1 hs
        (by rw [hln]; exact h0)
        (by rw [hln, hadv, hrem1]; exact hbn) rfl
      refine ⟨t', ?_, hsh, hrem, hcol, by rw [hl, hln, hadv, hrem1]⟩
      rw [parseFrom_eq (hfr h.remain)]
      apply ExceptT.ext
      rw [Fallible.bind_of_ok ht1, hsh1.remain, following_append hne1]
      exact congrArg ExceptT.run ht

end

end Cruller.SourceMap
