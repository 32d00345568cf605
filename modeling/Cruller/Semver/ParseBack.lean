import Cruller.Semver.Version

/-!
# Versions parsed back

A version by its grammar, and when `Version.parse` takes its text apart as the grammar does. A build
with a `-` in it is scanned as a prerelease behind that `-`; a text behind a pointer is read back
while its length fits 31 bits.
-/

namespace Cruller.Semver

open List Option InstallTypes Decimal

def IsIdentifierCharacter (c : UInt8) : Prop := isLetter c = true ∨ IsDigit c ∨ c = 45

instance : DecidablePred IsIdentifierCharacter := fun _ => inferInstanceAs (Decidable (_ ∨ _))

def IsIdentifier (s : List UInt8) : Prop := s ≠ [] ∧ ∀ c ∈ s, IsIdentifierCharacter c

instance : DecidablePred IsIdentifier := fun _ => inferInstanceAs (Decidable (_ ∧ _))

def NoLeadingZero (s : List UInt8) : Prop := (∀ c ∈ s, IsDigit c) → s.head? = some 48 → s = [48]

/-- A version: the numbers, and the identifiers of the prerelease and of the build. -/
structure SemVer where
  major : ℕ
  minor : ℕ
  patch : ℕ
  pre : List (List UInt8)
  build : List (List UInt8)
  numbers_lt : major < 2 ^ 64 ∧ minor < 2 ^ 64 ∧ patch < 2 ^ 64
  pre_valid : ∀ s ∈ pre, IsIdentifier s ∧ NoLeadingZero s
  build_valid : ∀ s ∈ build, IsIdentifier s

namespace SemVer

def preText (v : SemVer) : List UInt8 := [46].intercalate v.pre

def buildText (v : SemVer) : List UInt8 := [46].intercalate v.build

def coreText (v : SemVer) : List UInt8 :=
  print v.major ++ 46 :: (print v.minor ++ 46 :: print v.patch)

def tagText (v : SemVer) : List UInt8 :=
  (if v.pre = [] then [] else 45 :: v.preText) ++ if v.build = [] then [] else 43 :: v.buildText

def text (v : SemVer) : List UInt8 := v.coreText ++ v.tagText

end SemVer

/-- The result is what the version says, and formats to its text. -/
structure Answers (v : SemVer) (result : ParseResult) : Prop where
  valid : result.valid = true
  wildcard : result.wildcard = .none
  len : result.len = v.text.length
  major : result.version.major = some v.major
  minor : result.version.minor = some v.minor
  patch : result.version.patch = some v.patch
  pre : result.version.tag.pre.value.slice v.text = some v.preText
  build : result.version.tag.build.value.slice v.text = some v.buildText
  format : format result.version.min v.text = some v.text

def ParsesBack (v : SemVer) : Prop := ∃ result, parseUTF8 v.text = some result ∧ Answers v result

def IsTextCharacter (c : UInt8) : Prop := isTagCharacter c = true ∨ c = 45

variable {c : UInt8}

theorem mem_intercalate_iff {sep : UInt8} : ∀ {ls : List (List UInt8)},
    c ∈ [sep].intercalate ls → c = sep ∨ ∃ s ∈ ls, c ∈ s
  | [], h => by cases h
  | [s], h => by
    rw [intercalate_singleton] at h
    exact Or.inr ⟨s, mem_singleton_self s, h⟩
  | s :: t :: ls, h => by
    rw [intercalate_cons_cons, mem_append, mem_append] at h
    rcases h with (h | h) | h
    · exact Or.inr ⟨s, mem_cons_self, h⟩
    · exact Or.inl (mem_singleton.1 h)
    · rcases mem_intercalate_iff h with h | ⟨s', hs', hc⟩
      · exact Or.inl h
      · exact Or.inr ⟨s', mem_cons_of_mem _ hs', hc⟩

theorem isTextCharacter_of_mem {ls : List (List UInt8)} (h : ∀ s ∈ ls, IsIdentifier s)
    (hc : c ∈ [46].intercalate ls) : IsTextCharacter c := by
  rcases mem_intercalate_iff hc with rfl | ⟨s, hs, hc⟩
  · exact Or.inl (by decide)
  · rcases (h s hs).2 c hc with hc | hc | hc
    · exact Or.inl (by simp [isTagCharacter, hc])
    · exact Or.inl (by simp [isTagCharacter, hc])
    · exact Or.inr hc

theorem intercalate_ne_nil {ls : List (List UInt8)} (h : ∀ s ∈ ls, IsIdentifier s)
    (hne : ls ≠ []) : [46].intercalate ls ≠ [] := by
  rcases ls with _ | ⟨s, _ | ⟨t, ls⟩⟩
  · exact absurd rfl hne
  · simpa using (h s mem_cons_self).1
  · rw [intercalate_cons_cons]
    simp

theorem IsTextCharacter.lt (h : IsTextCharacter c) : c < 128 ∧ c ≠ 0 := by
  unfold IsTextCharacter isTagCharacter isLetter at h
  simp only [Bool.or_eq_true, Bool.and_eq_true, decide_eq_true_eq, beq_iff_eq] at h
  have hrn : ∀ {lo hi : UInt8}, 0 < lo.toNat → hi.toNat < 128 → lo ≤ c → c ≤ hi →
      c < 128 ∧ c ≠ 0 := by
    intro lo hi hlo hhi hle hge
    rw [UInt8.le_iff_toNat_le] at hle hge
    rw [UInt8.lt_iff_toNat_lt, ne_eq, ← UInt8.toNat_inj]
    exact ⟨lt_of_le_of_lt hge hhi, by simp only [UInt8.toNat_zero]; omega⟩
  rcases h with (((⟨h, h'⟩ | ⟨h, h'⟩) | h) | rfl) | rfl
  · exact hrn (by decide) (by decide) h h'
  · exact hrn (by decide) (by decide) h h'
  · exact hrn (by decide) (by decide) h.1 h.2
  · decide
  · decide

theorem slice_value {buf text : List UInt8} {start : ℕ} (hls : Lies buf start text)
    (htx : ∀ c ∈ text, IsTextCharacter c) (hbuf : buf.length < 2 ^ 32) (hne : text ≠ []) :
    (SlicedString.value ⟨start, text⟩).slice buf = some text ↔ text.length < 2 ^ 31 := by
  unfold SlicedString.value
  split_ifs with hin
  · have hle : text.length ≤ 8 := hin.length_le
    exact iff_of_true (SemverString.slice_ofInline hin (fun h => (htx 0 h).lt.2 rfl) buf)
      (by omega)
  · have hend := hls.length_le hne
    have hsl := hls.slice hne
    rw [SemverString.slice_ofPointer, Nat.mod_eq_of_lt (show start < 2 ^ 32 by omega)]
    constructor
    · intro h
      have hlength := congrArg List.length (slice_eq_some.1 h).2
      rw [List.length_take] at hlength
      omega
    · intro h
      rw [Nat.mod_eq_of_lt h, hsl]

theorem isEmpty_value {text : List UInt8} {start : ℕ} (htx : ∀ c ∈ text, IsTextCharacter c)
    (hne : text ≠ []) : isEmpty (SlicedString.external ⟨start, text⟩) = false := by
  rw [isEmpty, decide_eq_false_iff_not, SlicedString.external]
  simp only [SlicedString.value]
  split_ifs with hin
  · obtain ⟨c, text, rfl⟩ := exists_cons_of_ne_nil hne
    have hc := (htx c mem_cons_self).lt.2
    change ¬ leValue (c :: (text ++ List.replicate _ 0)) = 0
    rw [ne_eq, ← UInt8.toNat_inj, UInt8.toNat_zero] at hc
    rw [leValue]
    omega
  · rw [SemverString.ofPointer, SemverString.ofWord, leValue_leBytes (by norm_num; omega)]
    omega

theorem slice_default (buf : List UInt8) :
    ({} : ExternalString).value.slice buf = some [] := rfl

theorem isEmpty_default : isEmpty {} = true := rfl

theorem collectDigits_digits : ∀ {input bytes : List UInt8}, (∀ c ∈ input, IsDigit c) →
    bytes.length + input.length ≤ 20 → collectDigits input bytes = some (bytes ++ input)
  | [], bytes, _, _ => by rw [collectDigits, append_nil]
  | c :: input, bytes, h, hle => by
    have hc := h c mem_cons_self
    rw [length_cons] at hle
    rw [collectDigits, if_neg, if_pos hc, if_neg (by omega),
      collectDigits_digits (fun c' h' => h c' (mem_cons_of_mem _ h'))
        (by rw [length_append, length_singleton]; omega), append_assoc]
    · rfl
    · rintro (rfl | rfl | rfl) <;> exact absurd hc (by decide)

theorem length_printDigits_le : ∀ {k fuel n : ℕ}, n < 10 ^ (k + 1) →
    (printDigits fuel n).length ≤ k + 1
  | _, 0, _, _ => Nat.zero_le _
  | 0, fuel + 1, n, h => by
    rw [printDigits, if_pos (by omega)]
    simp
  | k + 1, fuel + 1, n, h => by
    rw [printDigits]
    split_ifs
    · simp
    · have hdiv : n / 10 < 10 ^ (k + 1) := by
        omega
      have := @length_printDigits_le k fuel _ hdiv
      rw [length_append, length_singleton]
      omega

theorem parseVersionNumber_print {n : ℕ} (h : n < 2 ^ 64) :
    parseVersionNumber (print n) = some n := by
  have hlength : (print n).length ≤ 20 :=
    length_printDigits_le (k := 19) (h.trans (by norm_num))
  rw [parseVersionNumber, collectDigits_digits (fun c hc => isDigit_of_mem_print hc)
    (by rw [length_nil]; omega), nil_append, bind_some, if_neg (print_ne_nil n),
    parseInt_print h, getD_some]

theorem parseLoop_number {sliced_string : SlicedString} {s : Cursor} {n : ℕ} {back : List UInt8}
    (hdr : sliced_string.slice.drop s.i = print n ++ back)
    (hbc : ∀ c ∈ back.head?, ¬ IsDigit c) (fuel : ℕ) :
    parseLoop sliced_string (fuel + 1) s = parseLoop sliced_string fuel { s.number (print n) with
      i := if back.head? = some 46 ∧ (s.number (print n)).part_i ≠ 3
        then s.i + (print n).length + 1 else s.i + (print n).length } := by
  have hdg : ∀ c ∈ print n, decide (IsDigit c) = true :=
    fun c hc => decide_eq_true (isDigit_of_mem_print hc)
  have htk : (print n ++ back).takeWhile (fun c => decide (IsDigit c)) = print n := by
    rw [takeWhile_append_of_pos hdg]
    rcases back with _ | ⟨c, back⟩
    · simp
    · rw [takeWhile_cons_of_neg (by simpa using hbc c rfl), append_nil]
  have hhd : sliced_string.slice[s.i + (print n).length]? = back.head? := by
    rw [← getElem?_drop, hdr, getElem?_append_right le_rfl, Nat.sub_self,
      head?_eq_getElem?]
  obtain ⟨c, digits, hpr⟩ := exists_cons_of_ne_nil (print_ne_nil n)
  have hc : IsDigit c := isDigit_of_mem_print (hpr ▸ mem_cons_self)
  rw [hpr, cons_append] at hdr htk
  rw [parseLoop, hdr]
  simp only
  rw [if_neg, if_neg, if_pos hc, htk, ← hpr, hhd]
  · intro h
    fin_cases h <;> exact absurd hc (by decide)
  · rintro rfl
    exact absurd hc (by decide)

theorem ne_of_isTagCharacter (h : isTagCharacter c = true) : c ≠ 43 ∧ c ≠ 45 := by
  constructor <;> rintro rfl <;> revert h <;> decide

section Scan

variable (sliced_string : SlicedString)

theorem scan_pre (rest : List UInt8) : ∀ (cs : List UInt8) (s : Tag.Scan),
    (∀ c ∈ cs, IsTextCharacter c) → s.state = .pre →
    Tag.scan sliced_string 0 (cs ++ rest) s =
      Tag.scan sliced_string 0 rest { s with i := s.i + cs.length }
  | [], s, _, _ => rfl
  | c :: cs, s, h, hs => by
    have hnx : Tag.scan sliced_string 0 (c :: (cs ++ rest)) s =
        Tag.scan sliced_string 0 (cs ++ rest) { s with i := s.i + 1 } := by
      rw [Tag.scan]
      rcases h c mem_cons_self with hc | rfl
      · obtain ⟨hpl, hmn⟩ := ne_of_isTagCharacter hc
        rw [if_neg hpl, if_neg hmn, if_pos hc]
      · simp [Tag.scanMinus, hs]
    rw [cons_append, hnx, scan_pre rest cs { s with i := s.i + 1 }
      (fun c' h' => h c' (mem_cons_of_mem _ h')) hs]
    simp only [length_cons, Nat.add_assoc, Nat.add_comm 1]

theorem scan_noHyphen : ∀ (cs : List UInt8) (s : Tag.Scan), (∀ c ∈ cs, isTagCharacter c = true) →
    Tag.scan sliced_string 0 cs s = { s with i := s.i + cs.length }
  | [], s, _ => rfl
  | c :: cs, s, h => by
    have hc := h c mem_cons_self
    obtain ⟨hpl, hmn⟩ := ne_of_isTagCharacter hc
    rw [Tag.scan, if_neg hpl, if_neg hmn, if_pos hc,
      scan_noHyphen cs _ fun c' h' => h c' (mem_cons_of_mem _ h')]
    simp only [length_cons, Nat.add_assoc, Nat.add_comm 1]

theorem scan_hyphen : ∀ (cs : List UInt8) (s : Tag.Scan), (∀ c ∈ cs, IsTextCharacter c) →
    (45 ∈ cs ∨ s.state = .pre) →
    (Tag.scan sliced_string 0 cs s).state = .pre
      ∧ (Tag.scan sliced_string 0 cs s).tag.build = s.tag.build
      ∧ (Tag.scan sliced_string 0 cs s).i = s.i + cs.length
  | [], s, _, h => ⟨h.resolve_left not_mem_nil, rfl, rfl⟩
  | c :: cs, s, h, hs => by
    have hcs : ∀ c' ∈ cs, IsTextCharacter c' := fun c' h' => h c' (mem_cons_of_mem _ h')
    rw [Tag.scan]
    by_cases hmn : c = 45
    · have ih := scan_hyphen cs (Tag.scanMinus s) hcs (Or.inr rfl)
      rw [if_neg (by rw [hmn]; decide), if_pos hmn, length_cons]
      refine ⟨ih.1, ih.2.1, ih.2.2.trans ?_⟩
      simp only [Tag.scanMinus]
      omega
    · have hc := (h c mem_cons_self).resolve_right hmn
      have hs' : 45 ∈ cs ∨ s.state = .pre :=
        hs.imp_left fun hmem => (mem_cons.1 hmem).resolve_left (Ne.symm hmn)
      have ih := scan_hyphen cs { s with i := s.i + 1 } hcs hs'
      rw [if_neg (ne_of_isTagCharacter hc).1, if_neg hmn, if_pos hc, length_cons]
      refine ⟨ih.1, ih.2.1, ih.2.2.trans ?_⟩
      simp only
      omega

end Scan

namespace SemVer

variable (v : SemVer)

def preTagText : List UInt8 := if v.pre = [] then [] else 45 :: v.preText

theorem tagText_eq : v.tagText =
    v.preTagText ++ if v.build = [] then [] else 43 :: v.buildText := rfl

theorem preText_char : ∀ c ∈ v.preText, IsTextCharacter c :=
  fun _ hc => isTextCharacter_of_mem (fun s hs => (v.pre_valid s hs).1) hc

theorem buildText_char : ∀ c ∈ v.buildText, IsTextCharacter c :=
  fun _ hc => isTextCharacter_of_mem v.build_valid hc

/-- The tag of the version where its text begins at `start`. -/
def tagAt (start : ℕ) : Tag where
  pre := if v.pre = [] then {} else SlicedString.external ⟨start + 1, v.preText⟩
  build := if v.build = [] then {}
    else SlicedString.external ⟨start + (v.preTagText.length + 1), v.buildText⟩

/-- What the scanner has when the prerelease ends. -/
def preScan : Tag.Scan :=
  if v.pre = [] then {} else { i := v.preTagText.length, state := .pre, start := 1 }

theorem scan_preTagText (sliced_string : SlicedString) (rest : List UInt8) :
    Tag.scan sliced_string 0 (v.preTagText ++ rest) {} =
      Tag.scan sliced_string 0 rest v.preScan := by
  unfold preTagText preScan
  by_cases hpre : v.pre = []
  · rw [if_pos hpre, if_pos hpre]
    rfl
  · rw [if_neg hpre, if_neg hpre, cons_append, Tag.scan, if_neg (by decide), if_pos rfl,
      scan_pre sliced_string rest v.preText _ v.preText_char rfl, preTagText, if_neg hpre,
      length_cons]
    simp only [Tag.scanMinus, Nat.zero_add, Nat.add_comm 1]
    rfl

variable (start : ℕ)

theorem sub_pre (hpre : v.pre ≠ []) :
    SlicedString.sub ⟨start, v.tagText⟩ 1 v.preTagText.length = ⟨start + 1, v.preText⟩ := by
  rw [SlicedString.sub, tagText_eq, take_left, preTagText, if_neg hpre, drop_one,
    tail_cons]

theorem sub_build (hbl : v.build ≠ []) :
    SlicedString.sub ⟨start, v.tagText⟩ (v.preTagText.length + 1) v.tagText.length =
      ⟨start + (v.preTagText.length + 1), v.buildText⟩ := by
  rw [SlicedString.sub, take_length, tagText_eq, if_neg hbl, ← drop_drop,
    drop_left, drop_one, tail_cons]

theorem parse_counts {c : UInt8} {input : List UInt8} (hc : c = 43 ∨ c = 45) :
    ¬ (((c :: input).takeWhile (· ≠ 32)).count 43 = 0
      ∧ 0 + ((c :: input).takeWhile (· ≠ 32)).count 45 = 0) := by
  rcases hc with rfl | rfl <;> rw [takeWhile_cons_of_pos (by decide)] <;> simp

theorem head_tagText (hne : v.tagText ≠ []) :
    ∃ c input, v.tagText = c :: input ∧ (c = 43 ∨ c = 45) := by
  rw [tagText_eq, preTagText] at hne ⊢
  by_cases hpre : v.pre = []
  · by_cases hbl : v.build = []
    · exact absurd (by rw [if_pos hpre, if_pos hbl]; rfl) hne
    · exact ⟨43, v.buildText, by rw [if_pos hpre, if_neg hbl]; rfl, Or.inl rfl⟩
  · exact ⟨45, _, by rw [if_neg hpre]; rfl, Or.inr rfl⟩

theorem parse_tag (hne : v.tagText ≠ []) :
    Tag.parse ⟨start, v.tagText⟩ =
      ⟨(Tag.scanEnd ⟨start, v.tagText⟩
          (Tag.scan ⟨start, v.tagText⟩ 0 (if v.build = [] then [] else 43 :: v.buildText)
            v.preScan)).tag,
        (Tag.scan ⟨start, v.tagText⟩ 0 (if v.build = [] then [] else 43 :: v.buildText)
            v.preScan).i % 2 ^ 32⟩ := by
  obtain ⟨c, input, htx, hc⟩ := v.head_tagText hne
  have hcn := @parse_counts c input hc
  rw [← htx] at hcn
  have hsc : Tag.scan ⟨start, v.tagText⟩ 0 v.tagText {} =
      Tag.scan ⟨start, v.tagText⟩ 0 (if v.build = [] then [] else 43 :: v.buildText) v.preScan :=
    (congrArg (fun input => Tag.scan ⟨start, v.tagText⟩ 0 input {}) v.tagText_eq).trans
      (v.scan_preTagText ⟨start, v.tagText⟩ _)
  rw [Tag.parse, Tag.parseWithPreCount]
  simp only
  rw [if_neg hcn, hsc]
  simp only [lt_irrefl, and_false, if_false]

theorem parse_tag_noHyphen (hne : v.tagText ≠ []) (hbl : 45 ∉ v.buildText) :
    Tag.parse ⟨start, v.tagText⟩ = ⟨v.tagAt start, v.tagText.length % 2 ^ 32⟩ := by
  rw [parse_tag v start hne]
  by_cases hnil : v.build = []
  · have hpre : v.pre ≠ [] := by
      intro hpre
      rw [tagText_eq, preTagText, if_pos hpre, if_pos hnil] at hne
      exact hne rfl
    have hlength : v.tagText.length = v.preTagText.length := by
      rw [tagText_eq, if_pos hnil, append_nil]
    rw [if_pos hnil, Tag.scan, preScan, if_neg hpre, tagAt, if_neg hpre, if_pos hnil, hlength]
    simp only [Tag.scanEnd, sub_pre v start hpre]
  · have hlength : v.tagText.length = v.preTagText.length + 1 + v.buildText.length := by
      rw [tagText_eq, if_neg hnil, length_append, length_cons]
      omega
    have hbl' : ∀ c ∈ v.buildText, isTagCharacter c = true := fun c hc =>
      (v.buildText_char c hc).resolve_right fun h => hbl (h ▸ hc)
    have hpl : Tag.scanPlus ⟨start, v.tagText⟩ 0 v.preScan =
        { i := v.preTagText.length + 1, state := .build, start := v.preTagText.length + 1
          tag := { pre := (v.tagAt start).pre } } := by
      unfold preScan tagAt
      by_cases hpre : v.pre = []
      · rw [if_pos hpre, if_pos hpre, preTagText, if_pos hpre]
        rfl
      · rw [if_neg hpre, if_neg hpre]
        simp [Tag.scanPlus, sub_pre v start hpre]
    rw [if_neg hnil, Tag.scan, if_pos rfl, hpl, scan_noHyphen _ _ _ hbl']
    simp only [Tag.scanEnd, ← hlength, sub_build v start hnil]
    rw [tagAt, if_neg hnil]

theorem parse_tag_hyphen (hbl : 45 ∈ v.buildText) :
    (Tag.parse ⟨start, v.tagText⟩).tag.build = {} := by
  have hnil : v.build ≠ [] := by
    intro h
    rw [buildText, h] at hbl
    cases hbl
  have hne : v.tagText ≠ [] := by
    rw [tagText_eq, if_neg hnil]
    simp
  rw [parse_tag v start hne, if_neg hnil, Tag.scan, if_pos rfl]
  obtain ⟨hst, htag, -⟩ := scan_hyphen ⟨start, v.tagText⟩ v.buildText
    (Tag.scanPlus ⟨start, v.tagText⟩ 0 v.preScan) v.buildText_char (Or.inl hbl)
  simp only [Tag.scanEnd, hst]
  rw [htag, Tag.scanPlus, preScan]
  by_cases hpre : v.pre = []
  · rw [if_pos hpre]
    rfl
  · rw [if_neg hpre]
    rfl

theorem length_coreText : v.coreText.length =
    (print v.major).length + 1 + ((print v.minor).length + 1 + (print v.patch).length) := by
  simp only [coreText, length_append, length_cons]
  omega

theorem head_tagText_not_digit : ∀ c ∈ v.tagText.head?, ¬ IsDigit c := by
  intro c hc
  by_cases hne : v.tagText = []
  · rw [hne] at hc
    cases hc
  · obtain ⟨c', input, htx, hc'⟩ := v.head_tagText hne
    rw [htx, head?_cons, mem_some_iff] at hc
    subst hc
    rcases hc' with rfl | rfl <;> decide

def coreCursor : Cursor where
  i := v.coreText.length
  part_i := 3
  result := { version := { major := some v.major, minor := some v.minor, patch := some v.patch } }

theorem text_eq : v.text =
    print v.major ++ 46 :: (print v.minor ++ 46 :: (print v.patch ++ v.tagText)) := by
  simp only [text, coreText, append_assoc, cons_append]

theorem parseLoop_core (fuel : ℕ) :
    parseLoop ⟨0, v.text⟩ (fuel + 3) { i := 0 } = parseLoop ⟨0, v.text⟩ fuel v.coreCursor := by
  obtain ⟨hmj, hmn, hpt⟩ := v.numbers_lt
  have hdot : ∀ {back : List UInt8}, ∀ c ∈ (46 :: back).head?, ¬ IsDigit c := by
    intro back c hc
    rw [head?_cons, mem_some_iff] at hc
    subst hc
    decide
  have hdr1 : v.text.drop ((print v.major).length + 1) =
      print v.minor ++ 46 :: (print v.patch ++ v.tagText) := by
    rw [text_eq, ← drop_drop, drop_left, drop_one, tail_cons]
  have hdr2 : v.text.drop ((print v.major).length + 1 + (print v.minor).length + 1) =
      print v.patch ++ v.tagText := by
    rw [Nat.add_assoc _ _ 1, ← drop_drop, hdr1, ← drop_drop, drop_left,
      drop_one, tail_cons]
  rw [parseLoop_number (n := v.major) (by exact v.text_eq) hdot]
  simp only [Cursor.number, parseVersionNumber_print hmj, head?_cons, Nat.zero_add]
  rw [parseLoop_number (n := v.minor) (by simpa using hdr1) hdot]
  simp only [Cursor.number, parseVersionNumber_print hmn, head?_cons]
  rw [parseLoop_number (n := v.patch) (by simpa using hdr2) v.head_tagText_not_digit]
  simp only [Cursor.number, parseVersionNumber_print hpt]
  rw [coreCursor, length_coreText]
  simp [Nat.add_assoc]

def tagResult : Tag.TagResult :=
  if v.tagText = [] then {} else Tag.parse ⟨v.coreText.length, v.tagText⟩

theorem parseLoop_tag (fuel : ℕ) :
    parseLoop ⟨0, v.text⟩ (fuel + 1) v.coreCursor = v.coreCursor.tagged v.tagResult := by
  have hdr : v.text.drop v.coreCursor.i = v.tagText := drop_left
  have hrs : rest ⟨0, v.text⟩ v.coreCursor = ⟨v.coreText.length, v.tagText⟩ := by
    rw [rest, SlicedString.sub, take_length, hdr, Nat.zero_add]
    rfl
  rw [parseLoop, hdr, tagResult]
  by_cases hne : v.tagText = []
  · rw [hne, if_pos rfl]
    rfl
  · obtain ⟨c, input, htx, hc⟩ := v.head_tagText hne
    rw [if_neg hne, hrs]
    rw [htx]
    rcases hc with rfl | rfl
    · rfl
    · rfl

theorem parseUTF8_text : parseUTF8 v.text =
    if v.coreText.length + v.tagResult.len < 2 ^ 32 then
      some { (v.coreCursor.tagged v.tagResult).result with
        len := v.coreText.length + v.tagResult.len }
    else none := by
  obtain ⟨c, digits, hpr⟩ := exists_cons_of_ne_nil (print_ne_nil v.major)
  have hc : IsDigit c := isDigit_of_mem_print (hpr ▸ mem_cons_self)
  have htx : v.text = c :: (digits ++
      46 :: (print v.minor ++ 46 :: (print v.patch ++ v.tagText))) := by
    rw [text_eq, hpr, cons_append]
  have hsk : isSkipped c = false := by
    rw [isSkipped, decide_eq_false_iff_not]
    intro h
    fin_cases h <;> exact absurd hc (by decide)
  have hfn : v.text.findIdx? (fun c => !isSkipped c) = some 0 := by
    rw [htx, findIdx?_cons, hsk]
    rfl
  obtain ⟨fuel, hfl⟩ : ∃ fuel, v.text.length + 1 = fuel + 1 + 3 := by
    refine ⟨v.text.length - 3, ?_⟩
    rw [text_eq]
    simp only [length_append, length_cons]
    have := length_pos_of_ne_nil (print_ne_nil v.major)
    omega
  rw [parseUTF8, parse]
  simp only
  rw [if_neg (by rw [htx]; exact cons_ne_nil _ _), hfn, getD_some, hfl,
    parseLoop_core, parseLoop_tag]
  rfl

theorem tagResult_noHyphen (hbl : 45 ∉ v.buildText) :
    v.tagResult = ⟨v.tagAt v.coreText.length, v.tagText.length % 2 ^ 32⟩ := by
  rw [tagResult]
  split_ifs with hnil
  · have hpre : v.pre = [] ∧ v.build = [] := by
      simpa [tagText_eq, preTagText] using hnil
    rw [tagAt, if_pos hpre.1, if_pos hpre.2, hnil]
    rfl
  · exact v.parse_tag_noHyphen _ hnil hbl

theorem tagResult_hyphen (hbl : 45 ∈ v.buildText) : v.tagResult.tag.build = {} := by
  rw [tagResult]
  split_ifs
  · rfl
  · exact v.parse_tag_hyphen _ hbl

theorem drop_coreText : v.text.drop v.coreText.length = v.tagText := drop_left

theorem lies_pre (hpre : v.pre ≠ []) : Lies v.text (v.coreText.length + 1) v.preText := by
  rw [Lies, ← drop_drop, drop_coreText, tagText_eq, preTagText, if_neg hpre,
    cons_append, drop_one, tail_cons]
  exact prefix_append _ _

theorem lies_build (hbl : v.build ≠ []) :
    Lies v.text (v.coreText.length + (v.preTagText.length + 1)) v.buildText := by
  rw [Lies, ← drop_drop, drop_coreText, tagText_eq, if_neg hbl, ← drop_drop,
    drop_left, drop_one, tail_cons]

theorem slice_pre (htx : v.text.length < 2 ^ 32) :
    (v.tagAt v.coreText.length).pre.value.slice v.text = some v.preText
      ↔ v.preText.length < 2 ^ 31 := by
  rw [tagAt]
  simp only
  split_ifs with hpre
  · have hnil : v.preText = [] := by rw [preText, hpre]; rfl
    rw [hnil]
    exact iff_of_true (slice_default _) (by norm_num)
  · exact slice_value (v.lies_pre hpre) v.preText_char htx
      (intercalate_ne_nil (fun s hs => (v.pre_valid s hs).1) hpre)

theorem slice_build (htx : v.text.length < 2 ^ 32) :
    (v.tagAt v.coreText.length).build.value.slice v.text = some v.buildText
      ↔ v.buildText.length < 2 ^ 31 := by
  rw [tagAt]
  simp only
  split_ifs with hbl
  · have hnil : v.buildText = [] := by rw [buildText, hbl]; rfl
    rw [hnil]
    exact iff_of_true (slice_default _) (by norm_num)
  · exact slice_value (v.lies_build hbl) v.buildText_char htx
      (intercalate_ne_nil v.build_valid hbl)

theorem isEmpty_tagAt :
    isEmpty (v.tagAt start).pre = decide (v.pre = [])
      ∧ isEmpty (v.tagAt start).build = decide (v.build = []) := by
  rw [tagAt]
  simp only
  constructor
  · split_ifs with hpre
    · rw [isEmpty_default, decide_eq_true hpre]
    · rw [isEmpty_value v.preText_char
        (intercalate_ne_nil (fun s hs => (v.pre_valid s hs).1) hpre), decide_eq_false hpre]
  · split_ifs with hbl
    · rw [isEmpty_default, decide_eq_true hbl]
    · rw [isEmpty_value v.buildText_char (intercalate_ne_nil v.build_valid hbl),
        decide_eq_false hbl]

theorem format_tagAt {start : ℕ}
    (hpre : (v.tagAt start).pre.value.slice v.text = some v.preText)
    (hbl : (v.tagAt start).build.value.slice v.text = some v.buildText) :
    format ⟨v.major, v.minor, v.patch, v.tagAt start⟩ v.text = some v.text := by
  rw [format]
  simp only
  rw [(v.isEmpty_tagAt start).1, (v.isEmpty_tagAt start).2, hpre, hbl]
  simp only [decide_eq_true_eq, map_some]
  conv_rhs => rw [text, tagText_eq, preTagText]
  split_ifs <;> simp [coreText]

end SemVer

/-- A version is parsed back when its build has no hyphen and the lengths fit. -/
theorem parse_iff (v : SemVer) : ParsesBack v ↔
    45 ∉ v.buildText ∧ v.text.length < 2 ^ 32 ∧ v.preText.length < 2 ^ 31
      ∧ v.buildText.length < 2 ^ 31 := by
  have hlength : v.text.length = v.coreText.length + v.tagText.length := length_append
  constructor
  · rintro ⟨result, hresult, h⟩
    rw [v.parseUTF8_text, ite_none_right_eq_some] at hresult
    obtain ⟨hlt, hresult⟩ := hresult
    rw [some.injEq] at hresult
    subst hresult
    have hbuild : 45 ∉ v.buildText := by
      intro hmem
      have hslice := h.build
      change v.tagResult.tag.build.value.slice v.text = _ at hslice
      rw [v.tagResult_hyphen hmem, slice_default, some.injEq] at hslice
      rw [← hslice] at hmem
      cases hmem
    have htext : v.text.length < 2 ^ 32 := by
      rw [← h.len]
      exact hlt
    have hpre := h.pre
    have hbuild' := h.build
    change v.tagResult.tag.pre.value.slice v.text = _ at hpre
    change v.tagResult.tag.build.value.slice v.text = _ at hbuild'
    rw [v.tagResult_noHyphen hbuild] at hpre hbuild'
    exact ⟨hbuild, htext, (v.slice_pre htext).1 hpre, (v.slice_build htext).1 hbuild'⟩
  · rintro ⟨hbuild, htext, hpre, hbuild'⟩
    have hresult := v.parseUTF8_text
    rw [v.tagResult_noHyphen hbuild, Nat.mod_eq_of_lt (by omega), ← hlength,
      if_pos htext] at hresult
    have hslice := (v.slice_pre htext).2 hpre
    have hslice' := (v.slice_build htext).2 hbuild'
    exact ⟨_, hresult, rfl, rfl, rfl, rfl, rfl, rfl, hslice, hslice', v.format_tagAt hslice hslice'⟩

theorem one_zero_zero_lt : 1 < 2 ^ 64 ∧ 0 < 2 ^ 64 ∧ 0 < 2 ^ 64 := by norm_num

theorem forall_mem_nil_valid : ∀ s ∈ ([] : List (List UInt8)), IsIdentifier s ∧ NoLeadingZero s :=
  fun _ hs => absurd hs List.not_mem_nil

/-- `1.0.0+build-1`, of which the scanner takes `1` for the prerelease. -/
def buildHyphen : SemVer where
  major := 1
  minor := 0
  patch := 0
  pre := []
  build := [[98, 117, 105, 108, 100, 45, 49]]
  numbers_lt := one_zero_zero_lt
  pre_valid := forall_mem_nil_valid
  build_valid := by decide +kernel

/-- The prerelease and the build of the text, as the parser answers them. -/
def tagSlices (text : List UInt8) : Option (Option (List UInt8) × Option (List UInt8)) :=
  (parseUTF8 text).map fun result =>
    (result.version.tag.pre.value.slice text, result.version.tag.build.value.slice text)

/-- `1.0.0+build-1` parses to the prerelease `1` and no build. -/
theorem parse_buildHyphen : ¬ ParsesBack buildHyphen
    ∧ tagSlices buildHyphen.text = some (some [49], some []) := by
  have hslices : tagSlices buildHyphen.text = some (some [49], some []) := by decide +kernel
  refine ⟨?_, hslices⟩
  rintro ⟨result, hresult, h⟩
  rw [tagSlices, hresult, map_some, h.build, some.injEq, Prod.mk.injEq] at hslices
  exact absurd hslices.2 (by decide)

end Cruller.Semver
