import Cruller.Lib.Components
import Mathlib.Data.List.DropRight

/-!
# Entity tags

`ifNoneMatch` over bytes: the field value is split at commas, and every piece is read as `parse`
reads the entity tag itself. What the field value is to say is its grammar, a star or a list whose
elements may be empty (`FieldValue`); the code is right about it unless a comma lies inside a tag, or
an element is empty where the tag is (`ifNoneMatch_iff`).
-/

namespace Cruller.HttpTypes

open List Option

abbrev comma : UInt8 := 0x2C

abbrev quote : UInt8 := 0x22

/-- `" \t"` -/
def whitespace : List UInt8 := [0x20, 0x09]

/-- `"W/"` -/
def weakPrefix : List UInt8 := [0x57, 0x2F]

/-- `std.mem.trimStart` -/
def trimStart (slice values_to_strip : List UInt8) : List UInt8 :=
  slice.dropWhile values_to_strip.contains

/-- `std.mem.trim` -/
def trim (slice values_to_strip : List UInt8) : List UInt8 :=
  (trimStart slice values_to_strip).rdropWhile values_to_strip.contains

/-- A tag, and whether it is weak. -/
structure Parsed where
  tag : List UInt8
  is_weak : Bool
  deriving DecidableEq

def unquote (str : List UInt8) : List UInt8 :=
  if 2 ≤ str.length ∧ str.head? = some quote ∧ str.getLast? = some quote then str.tail.dropLast
  else str

/-- A tag with its quotes taken off. -/
def parse (tag_str : List UInt8) : Parsed :=
  let str := trim tag_str whitespace
  if weakPrefix.isPrefixOf str then
    ⟨unquote (trimStart (str.drop 2) whitespace), true⟩
  else ⟨unquote str, false⟩

def weakMatch (p q : Parsed) : Bool := p.tag == q.tag

/-- Whether the tag is one of a field. -/
def ifNoneMatch (etag if_none_match : List UInt8) : Bool :=
  let our_parsed := parse etag
  if trim if_none_match whitespace = [0x2A] then true
  else (if_none_match.splitOn comma).any fun tag_str => weakMatch our_parsed (parse tag_str)

/-- A character between the quotes of a tag: a visible one other than the quote, or no ASCII. -/
def IsTagChar (c : UInt8) : Prop := c = 0x21 ∨ 0x23 ≤ c ∧ c ≤ 0x7E ∨ 0x80 ≤ c

/-- An entity tag of the RFC. -/
structure EntityTag where
  weak : Bool
  chars : List UInt8
  valid : ∀ c ∈ chars, IsTagChar c

def EntityTag.quoted (t : EntityTag) : List UInt8 := quote :: (t.chars ++ [quote])

/-- The tag as it is written. -/
def EntityTag.text (t : EntityTag) : List UInt8 :=
  (if t.weak then weakPrefix else []) ++ t.quoted

/-- An element of a list, which may be empty, with the whitespace around it. -/
structure Element where
  before : List UInt8
  tag : Option EntityTag
  after : List UInt8
  optional : (∀ c ∈ before, c ∈ whitespace) ∧ ∀ c ∈ after, c ∈ whitespace

/-- An element with the blanks around it. -/
def Element.text (e : Element) : List UInt8 :=
  e.before ++ (e.tag.elim [] EntityTag.text ++ e.after)

/-- A star, or a list of one element at least. -/
inductive FieldValue where
  | star
  | list (first : Element) (rest : List Element)

namespace FieldValue

def text : FieldValue → List UInt8
  | star => [0x2A]
  | list first rest => [comma].intercalate ((first :: rest).map Element.text)

/-- The tag is in the list, as weak comparison has it. -/
def Lists (t : EntityTag) : FieldValue → Prop
  | star => False
  | list first rest =>
    ∃ e ∈ first :: rest, ∃ listed, e.tag = some listed ∧ listed.chars = t.chars

end FieldValue

def EntityTag.inner (t : EntityTag) : List (List UInt8) := (t.chars.splitOn comma).tail.dropLast

def withoutWeakPrefix (piece : List UInt8) : List UInt8 :=
  if weakPrefix.isPrefixOf piece then piece.drop 2 else piece

/-- The pieces of an element that are no tags of the list and are read as such. -/
def Element.strays (e : Element) : List (List UInt8) :=
  e.tag.elim [[]] fun t => t.inner.map withoutWeakPrefix

namespace FieldValue

/-- What the code takes for tags and is none. -/
def strays : FieldValue → List (List UInt8)
  | star => []
  | list first rest => (first :: rest).flatMap Element.strays

/-- A tag with a comma is not listed; one without is, or no stray piece is read as it. -/
def ReadsRight (t : EntityTag) (v : FieldValue) : Prop :=
  v = star ∨ if comma ∈ t.chars then ¬ v.Lists t else v.Lists t ∨ t.chars ∉ v.strays

end FieldValue

variable {s before after : List UInt8}

theorem trimStart_append (h : ∀ c ∈ before, c ∈ whitespace) :
    trimStart (before ++ s) whitespace = trimStart s whitespace := by
  rw [trimStart, trimStart, dropWhile_append_of_pos (by simpa using h)]

theorem trimStart_eq_self (h : ∀ c ∈ s, c ∉ whitespace) : trimStart s whitespace = s := by
  rcases s with _ | ⟨c, s⟩
  · rfl
  · rw [trimStart, dropWhile_cons_of_neg (by simpa using h c mem_cons_self)]

theorem rdropWhile_append (h : ∀ c ∈ after, c ∈ whitespace) :
    (s ++ after).rdropWhile whitespace.contains = s.rdropWhile whitespace.contains := by
  rw [List.rdropWhile, reverse_append, dropWhile_append_of_pos (by simpa using h)]
  rfl

theorem rdropWhile_eq_self (h : ∀ c ∈ s, c ∉ whitespace) :
    s.rdropWhile whitespace.contains = s := by
  have hrev : s.reverse.dropWhile whitespace.contains = s.reverse :=
    trimStart_eq_self fun c hc => h c (mem_reverse.1 hc)
  rw [List.rdropWhile, hrev, reverse_reverse]

theorem trim_framed (hbf : ∀ c ∈ before, c ∈ whitespace) (hs : ∀ c ∈ s, c ∉ whitespace)
    (haf : ∀ c ∈ after, c ∈ whitespace) : trim (before ++ (s ++ after)) whitespace = s := by
  rw [trim, trimStart_append hbf]
  rcases s with _ | ⟨c, s⟩
  · have hnil : trimStart after whitespace = [] := by
      rw [← append_nil after, trimStart_append haf]
      rfl
    rw [nil_append, hnil]
    rfl
  · have hc : ¬ whitespace.contains c = true := by simpa using hs c mem_cons_self
    rw [trimStart, cons_append, dropWhile_cons_of_neg hc, ← cons_append,
      rdropWhile_append haf, rdropWhile_eq_self hs]

theorem mem_trim {c : UInt8} (hc : c ∈ s) (hws : c ∉ whitespace) : c ∈ trim s whitespace := by
  have hdr : ∀ {l : List UInt8}, c ∈ l → c ∈ l.dropWhile whitespace.contains := by
    intro l hl
    rw [← takeWhile_append_dropWhile (p := whitespace.contains) (l := l)] at hl
    rcases mem_append.1 hl with h | h
    · exact absurd (mem_takeWhile_imp h) (by simpa using hws)
    · exact h
  rw [trim, List.rdropWhile, mem_reverse]
  exact hdr (mem_reverse.2 (hdr hc))

variable {t : EntityTag}

theorem tag_char_ne {c : UInt8} (hc : c ∈ t.chars) :
    c ≠ quote ∧ c ∉ whitespace := by
  have h := t.valid c hc
  refine ⟨?_, fun hws => ?_⟩
  · rintro rfl
    revert h
    simp [IsTagChar, quote]
  · rcases mem_pair.1 hws with rfl | rfl <;> revert h <;> simp [IsTagChar]

theorem parse_framed (hbf : ∀ c ∈ before, c ∈ whitespace) (hs : ∀ c ∈ s, c ∉ whitespace)
    (haf : ∀ c ∈ after, c ∈ whitespace) :
    (parse (before ++ (s ++ after))).tag = unquote (withoutWeakPrefix s) := by
  rw [parse, trim_framed hbf hs haf, withoutWeakPrefix]
  split_ifs
  · rw [trimStart_eq_self fun c hc => hs c (mem_of_mem_drop hc)]
  · rfl

theorem unquote_of_not_mem (h : quote ∉ s) : unquote s = s :=
  if_neg fun hq => h (mem_of_mem_head? hq.2.1)

theorem quote_mem_unquote {a b : List UInt8} (ha : quote ∉ a) (hb : quote ∉ b) :
    quote ∈ unquote (withoutWeakPrefix (a ++ quote :: b)) := by
  have hone : ∀ a : List UInt8, quote ∉ a → quote ∈ unquote (a ++ quote :: b) := by
    intro a ha
    rw [unquote, if_neg]
    · simp
    · rintro ⟨hlen, hhd, hls⟩
      have han : a = [] := by
        rcases a with _ | ⟨c, a⟩
        · rfl
        · rw [cons_append, head?_cons, some_inj] at hhd
          exact absurd (hhd ▸ mem_cons_self) ha
      have hbn : b = [] := by
        rcases eq_nil_or_concat' b with h | ⟨b', c, rfl⟩
        · exact h
        · rw [← cons_append, ← append_assoc, getLast?_concat,
            some_inj] at hls
          exact absurd (hls ▸ mem_concat_self) hb
      simp [han, hbn] at hlen
  rw [withoutWeakPrefix]
  split_ifs with hwk
  · obtain ⟨rest, hrs⟩ := isPrefixOf_iff_prefix.1 hwk
    rcases a with _ | ⟨x, _ | ⟨y, a⟩⟩
    · simp [weakPrefix, quote] at hrs
    · simp [weakPrefix, quote] at hrs
    · exact hone a fun h => ha (by simp [h])
  · exact hone a ha

theorem unquote_quoted (t : EntityTag) : unquote t.quoted = t.chars := by
  rw [unquote, EntityTag.quoted, if_pos]
  · simp
  · refine ⟨by simp, by simp, ?_⟩
    rw [← cons_append, getLast?_concat]

theorem withoutWeakPrefix_text (t : EntityTag) : withoutWeakPrefix t.text = t.quoted := by
  cases hwk : t.weak <;>
    simp [withoutWeakPrefix, EntityTag.text, EntityTag.quoted, hwk, weakPrefix, quote]

theorem text_not_whitespace (t : EntityTag) : ∀ c ∈ t.text, c ∉ whitespace := by
  intro c hc
  rcases mem_append.1 hc with h | h
  · split_ifs at h
    · rcases mem_pair.1 h with rfl | rfl <;> decide
    · cases h
  · rcases mem_cons.1 h with rfl | h
    · decide
    · rcases mem_append.1 h with h | h
      · exact (tag_char_ne h).2
      · rw [mem_singleton.1 h]
        decide

/-- A tag is read as its characters, with whitespace around it. -/
theorem parse_framed_text (t : EntityTag) (hbf : ∀ c ∈ before, c ∈ whitespace)
    (haf : ∀ c ∈ after, c ∈ whitespace) :
    (parse (before ++ (t.text ++ after))).tag = t.chars := by
  rw [parse_framed hbf (text_not_whitespace t) haf, withoutWeakPrefix_text, unquote_quoted]

theorem splitOn_intercalate_append : ∀ {ls : List (List UInt8)}, ls ≠ [] →
    ([comma].intercalate ls).splitOn comma = ls.flatMap (List.splitOn comma)
  | [], h => absurd rfl h
  | [l], _ => by simp
  | l :: m :: ls, _ => by
    have ih := @splitOn_intercalate_append (m :: ls) (by simp)
    rw [intercalate_cons_cons, append_assoc, singleton_append,
      splitOn_append_cons_self, ih, flatMap_cons (x := l)]

theorem comma_not_mem_optional (h : ∀ c ∈ s, c ∈ whitespace) : comma ∉ s := fun hc =>
  absurd (h comma hc) (by decide)

theorem comma_not_mem_head (t : EntityTag) :
    comma ∉ (if t.weak then weakPrefix else []) ++ [quote] := by
  cases t.weak <;> decide

theorem splitOn_append_right {inner : List (List UInt8)} {last : List UInt8}
    (h : s.splitOn comma = inner ++ [last]) (haf : comma ∉ after) :
    (s ++ after).splitOn comma = inner ++ [last ++ after] := by
  have hfr : ∀ l ∈ inner ++ [last], comma ∉ l := fun l hl => not_mem_of_mem_splitOn (h ▸ hl)
  have hls : comma ∉ last ++ after := by simp [hfr last (by simp), haf]
  rw [← show [comma].intercalate (s.splitOn comma) = s from intercalate_splitOn comma, h]
  by_cases hin : inner = []
  · rw [hin, nil_append, intercalate_singleton, splitOn_eq_singleton hls,
      nil_append]
  · rw [Trail.intercalate_concat comma last hin, append_assoc, cons_append,
      splitOn_append_cons_self, splitOn_eq_singleton hls,
      splitOn_intercalate comma (fun l hl => hfr l (mem_append_left _ hl)) hin]

theorem exists_pieces (ht : comma ∈ t.chars) (hbf : comma ∉ before)
    (haf : comma ∉ after) :
    ∃ first last, (∀ c ∈ first, c ∈ t.chars) ∧ (∀ c ∈ last, c ∈ t.chars) ∧
      (before ++ (t.text ++ after)).splitOn comma =
        (before ++ ((if t.weak then weakPrefix else []) ++ quote :: first)) ::
          (t.inner ++ [last ++ quote :: after]) := by
  obtain ⟨first, rest, hch, hfr⟩ := eq_append_cons_of_mem ht
  have hpc : t.chars.splitOn comma = first :: rest.splitOn comma := by
    rw [hch, splitOn_append_cons_self_of_not_mem hfr]
  obtain ⟨inner, last, hrs⟩ := (eq_nil_or_concat' (rest.splitOn comma)).resolve_left
    (splitOn_ne_nil _ _)
  have hin : t.inner = inner := by
    rw [EntityTag.inner, hpc, tail_cons, hrs, dropLast_concat]
  refine ⟨first, last, fun c hc => by simp [hch, hc], fun c hc => ?_, ?_⟩
  · have hmem : c ∈ rest := mem_of_mem_splitOn (show last ∈ rest.splitOn comma by simp [hrs]) hc
    simp [hch, hmem]
  · have htx : before ++ (t.text ++ after) =
        (before ++ ((if t.weak then weakPrefix else []) ++ quote :: first)) ++
          comma :: (rest ++ quote :: after) := by
      simp [EntityTag.text, EntityTag.quoted, hch]
    have hhd : comma ∉ before ++ ((if t.weak then weakPrefix else []) ++ quote :: first) := by
      have := comma_not_mem_head t
      simp_all
    rw [htx, splitOn_append_cons_self_of_not_mem hhd,
      splitOn_append_right hrs (by simpa [quote, comma] using haf), hin]

theorem mem_inner {piece : List UInt8} (h : piece ∈ t.inner) :
    comma ∉ piece ∧ ∀ c ∈ piece, c ∈ t.chars := by
  have hmem : piece ∈ t.chars.splitOn comma := mem_of_mem_tail (List.mem_of_mem_dropLast h)
  exact ⟨not_mem_of_mem_splitOn hmem, fun c hc => mem_of_mem_splitOn hmem hc⟩

theorem inner_of_not_mem (h : comma ∉ t.chars) : t.inner = [] := by
  rw [EntityTag.inner, splitOn_eq_singleton h]
  rfl

theorem parse_inner {piece : List UInt8} (h : piece ∈ t.inner) :
    (parse piece).tag = withoutWeakPrefix piece := by
  have hch := (mem_inner h).2
  have hpr := @parse_framed piece [] [] (by simp)
    (fun c hc => (tag_char_ne (hch c hc)).2) (by simp)
  rw [nil_append, append_nil] at hpr
  rw [hpr, unquote_of_not_mem]
  intro hqt
  refine absurd rfl (tag_char_ne (hch quote ?_)).1
  unfold withoutWeakPrefix at hqt
  split_ifs at hqt
  · exact mem_of_mem_drop hqt
  · exact hqt

theorem parse_quote {a b : List UInt8} (ha : quote ∉ a) (hb : quote ∉ b)
    (hwh : ∀ c ∈ a ++ quote :: b, c ∉ whitespace) (hbf : ∀ c ∈ before, c ∈ whitespace)
    (haf : ∀ c ∈ after, c ∈ whitespace) :
    t.chars ≠ (parse (before ++ ((a ++ quote :: b) ++ after))).tag := by
  rw [parse_framed hbf hwh haf]
  intro heq
  exact (tag_char_ne (heq ▸ quote_mem_unquote ha hb)).1 rfl

theorem weakPrefix_not_mem (t : EntityTag) : ∀ c ∈ (if t.weak then weakPrefix else []),
    c ≠ quote ∧ c ∉ whitespace := by
  cases t.weak <;> decide +kernel

/-- The answer for one element. -/
theorem any_pieces (t : EntityTag) (e : Element) :
    ((e.text.splitOn comma).any fun piece => t.chars == (parse piece).tag) = true ↔
      (comma ∉ t.chars ∧ ∃ listed, e.tag = some listed ∧ listed.chars = t.chars) ∨
        t.chars ∈ e.strays := by
  have hbf := comma_not_mem_optional e.optional.1
  have haf := comma_not_mem_optional e.optional.2
  rw [Element.text, Element.strays]
  cases htag : e.tag with
  | none =>
    have hsn : (e.before ++ ([] ++ e.after)).splitOn comma = [e.before ++ ([] ++ e.after)] :=
      splitOn_eq_singleton (by simp [hbf, haf])
    have hpr := parse_framed (s := []) e.optional.1 (by simp) e.optional.2
    simp only [elim_none, hsn, any_cons, any_nil, hpr]
    simp [withoutWeakPrefix, unquote, weakPrefix]
  | some listed =>
    simp only [elim_some, some_inj, exists_eq_left']
    by_cases hcm : comma ∈ listed.chars
    · obtain ⟨first, last, hfr, hls, hps⟩ := exists_pieces hcm hbf haf
      have hwk := weakPrefix_not_mem listed
      have hnf := @parse_quote e.before [] t (if listed.weak then weakPrefix else []) first
        (fun h => (hwk _ h).1 rfl) (fun h => (tag_char_ne (hfr _ h)).1 rfl)
        (by
          intro c hc
          rcases mem_append.1 hc with h | h
          · exact (hwk c h).2
          · rcases mem_cons.1 h with rfl | h
            · decide
            · exact (tag_char_ne (hfr c h)).2)
        e.optional.1 (by simp)
      have hnl := @parse_quote [] e.after t last []
        (fun h => (tag_char_ne (hls _ h)).1 rfl) (by simp)
        (by
          intro c hc
          rcases mem_append.1 hc with h | h
          · exact (tag_char_ne (hls c h)).2
          · rw [mem_singleton.1 h]
            decide)
        (by simp) e.optional.2
      have hne : comma ∉ t.chars → listed.chars ≠ t.chars := fun h heq => h (heq ▸ hcm)
      rw [append_nil] at hnf
      rw [nil_append, append_assoc, singleton_append] at hnl
      rw [hps, any_cons, any_append, any_cons, any_nil,
        beq_eq_false_iff_ne.2 hnf, beq_eq_false_iff_ne.2 hnl, Bool.false_or,
        Bool.or_false, Bool.or_false, or_iff_right fun h => hne h.1 h.2, List.any_eq_true,
        List.mem_map]
      constructor
      · rintro ⟨piece, hpc, heq⟩
        exact ⟨piece, hpc, by rw [← parse_inner hpc, ← beq_iff_eq.1 heq]⟩
      · rintro ⟨piece, hpc, heq⟩
        exact ⟨piece, hpc, by rw [parse_inner hpc, heq, beq_self_eq_true]⟩
    · have hsn : (e.before ++ (listed.text ++ e.after)).splitOn comma =
          [e.before ++ (listed.text ++ e.after)] := by
        refine splitOn_eq_singleton ?_
        have := comma_not_mem_head listed
        simp_all [EntityTag.text, EntityTag.quoted]
      rw [hsn, any_cons, any_nil, parse_framed_text listed e.optional.1 e.optional.2,
        inner_of_not_mem hcm]
      simp only [Bool.or_false, beq_iff_eq, map_nil, not_mem_nil, or_false]
      exact ⟨fun h => ⟨h ▸ hcm, h.symm⟩, fun h => h.2.symm⟩

theorem comma_not_mem_strays {v : FieldValue} (h : t.chars ∈ v.strays) :
    comma ∉ t.chars := by
  cases v with
  | star => cases h
  | list first rest =>
    obtain ⟨e, -, he⟩ := mem_flatMap.1 h
    rw [Element.strays] at he
    cases htag : e.tag with
    | none =>
      rw [htag, elim_none, mem_singleton] at he
      simp [he]
    | some listed =>
      rw [htag, elim_some, List.mem_map] at he
      obtain ⟨piece, hpc, heq⟩ := he
      rw [← heq, withoutWeakPrefix]
      split_ifs
      · exact fun hc => (mem_inner hpc).1 (mem_of_mem_drop hc)
      · exact (mem_inner hpc).1

theorem trim_list_ne (first : Element) (rest : List Element) :
    trim (FieldValue.list first rest).text whitespace ≠ [0x2A] := by
  intro htr
  have hst : (0x2A : UInt8) ∈ (FieldValue.list first rest).text := by
    have h : (0x2A : UInt8) ∈ trim (FieldValue.list first rest).text whitespace := by simp [htr]
    rw [trim, List.rdropWhile, mem_reverse] at h
    have := (dropWhile_sublist _).subset h
    rw [mem_reverse] at this
    exact (dropWhile_sublist _).subset this
  obtain ⟨text, htx, hmem⟩ := exists_of_mem_intercalate (by decide) hst
  obtain ⟨e, he, rfl⟩ := List.mem_map.1 htx
  have hqt : quote ∈ e.text := by
    rcases mem_append.1 hmem with h | h
    · exact absurd (e.optional.1 _ h) (by decide)
    · rcases mem_append.1 h with h | h
      · cases htag : e.tag with
        | none => simp [htag] at h
        | some listed => simp [Element.text, htag, EntityTag.text, EntityTag.quoted]
      · exact absurd (e.optional.2 _ h) (by decide)
  have hmem' : quote ∈ [comma].intercalate ((first :: rest).map Element.text) :=
    mem_intercalate_of_mem htx hqt
  have := mem_trim hmem' (by decide)
  rw [FieldValue.text] at htr
  rw [htr] at this
  exact absurd this (by decide)

theorem ifNoneMatch_list (t : EntityTag) (first : Element) (rest : List Element) :
    ifNoneMatch t.text (FieldValue.list first rest).text = true ↔
      (comma ∉ t.chars ∧ (FieldValue.list first rest).Lists t) ∨
        t.chars ∈ (FieldValue.list first rest).strays := by
  have hours : (parse t.text).tag = t.chars := by
    simpa using @parse_framed_text [] [] t (by simp) (by simp)
  have hany : ((FieldValue.list first rest).text.splitOn comma).any (fun piece =>
      t.chars == (parse piece).tag) = true ↔
        ∃ e ∈ first :: rest, ((e.text.splitOn comma).any fun piece =>
          t.chars == (parse piece).tag) = true := by
    rw [FieldValue.text, splitOn_intercalate_append (by simp), flatMap_map, any_flatMap,
      List.any_eq_true]
  rw [ifNoneMatch, if_neg (trim_list_ne first rest)]
  simp only [weakMatch, hours]
  rw [hany]
  simp only [any_pieces, FieldValue.Lists, FieldValue.strays, mem_flatMap]
  constructor
  · rintro ⟨e, he, ⟨hc, h⟩ | h⟩
    · exact .inl ⟨hc, e, he, h⟩
    · exact .inr ⟨e, he, h⟩
  · rintro (⟨hc, e, he, h⟩ | ⟨e, he, h⟩)
    · exact ⟨e, he, .inl ⟨hc, h⟩⟩
    · exact ⟨e, he, .inr h⟩

/-- `ifNoneMatch` answers as the field value says unless it overlooks a listed tag with a comma, or
takes for the tag what lies between two commas: an empty element, or a part of another tag. -/
theorem ifNoneMatch_iff (t : EntityTag) (v : FieldValue) :
    (ifNoneMatch t.text v.text = true ↔ v = .star ∨ v.Lists t) ↔ v.ReadsRight t := by
  cases v with
  | star =>
    have hstar : trim FieldValue.star.text whitespace = [0x2A] := by decide
    have hmatch : ifNoneMatch t.text FieldValue.star.text = true := by
      rw [ifNoneMatch, if_pos hstar]
    exact iff_of_true ⟨fun _ => .inl rfl, fun _ => hmatch⟩ (.inl rfl)
  | list first rest =>
    have hstray := comma_not_mem_strays (t := t) (v := .list first rest)
    have hne : FieldValue.list first rest ≠ .star := nofun
    simp only [ifNoneMatch_list, FieldValue.ReadsRight, hne, false_or]
    by_cases hcomma : comma ∈ t.chars
    · rw [if_pos hcomma]
      tauto
    · rw [if_neg hcomma]
      tauto

/-- `"a,b"` -/
def commaTag : EntityTag := ⟨false, [0x61, 0x2C, 0x62], by simp [IsTagChar]⟩

/-- The tag that was sent is not found in the list of itself. -/
theorem ifNoneMatch_comma :
    let v := FieldValue.list ⟨[], some commaTag, [], by simp⟩ []
    ¬ (ifNoneMatch commaTag.text v.text = true ↔ v = .star ∨ v.Lists commaTag) := by
  intro v h
  have hfound : ifNoneMatch commaTag.text v.text = true :=
    h.2 (.inr ⟨_, mem_cons_self, commaTag, rfl, rfl⟩)
  exact absurd hfound (by decide)

end Cruller.HttpTypes
