import Cruller.Dotenv.ExpandValue
import Mathlib.Data.List.DropRight

/-!
# Parsing `.env` texts

A parser stands before what is left of its text (`src[pos..]`). `definitions` is what the loop of
`_parse` reads of it, one key and value after the other, whatever it does with them.
-/

namespace Cruller.Dotenv

open List Option Nat

/-- `"\t\x0B\x0C \xA0\n\r"` -/
def whitespace_chars : List UInt8 := [0x09, 0x0B, 0x0C, 0x20, 0xA0, 0x0A, 0x0D]

def isWhitespace (c : UInt8) : Bool := whitespace_chars.contains c

def isNewline (c : UInt8) : Bool := c == 0x0A || c == 0x0D

def skipLine (src : List UInt8) : List UInt8 := (src.dropWhile fun c => !isNewline c).tail

def skipWhitespaces (src : List UInt8) : List UInt8 := src.dropWhile isWhitespace

/-- `'a'...'z', 'A'...'Z', '0'...'9', '_', '-', '.'` -/
def isKey (c : UInt8) : Bool := isName c || c == 0x2D || c == 0x2E

/-- What follows a key: `=`, or `:` and whitespace. -/
def parseSeparator (key : List UInt8) : List UInt8 → Option (List UInt8 × List UInt8)
  | [] => none
  | c :: src =>
    if c = 0x3D then some (key, src)
    else if c = 0x3A then
      match src with
      | [] => none
      | c :: src => if isWhitespace c then some (key, src) else none
    else none

/-- `"export"` -/
def exportWord : List UInt8 := [0x65, 0x78, 0x70, 0x6F, 0x72, 0x74]

/-- `parseKey(false)`, with what is left behind the separator. -/
def parsePlainKey (src : List UInt8) : Option (List UInt8 × List UInt8) :=
  let key := src.takeWhile isKey
  let tail := src.dropWhile isKey
  if key ≠ [] ∧ tail ≠ [] then parseSeparator key (skipWhitespaces tail) else none

/-- `parseKey(true)`, behind the whitespace that it skips in any case. -/
def parseKey (src : List UInt8) : Option (List UInt8 × List UInt8) :=
  let key := src.takeWhile isKey
  let tail := src.dropWhile isKey
  if key ≠ [] ∧ tail ≠ [] then
    let after := skipWhitespaces tail
    if after.length < tail.length ∧ key = exportWord then
      (parsePlainKey after).or (parseSeparator key after)
    else parseSeparator key after
  else none

/-- A quoted text up to a quote that ends its line, and what is left there. A quote that does not is
skipped with the byte behind it. -/
def findQuote (quote : UInt8) : List UInt8 → Option (List UInt8 × List UInt8)
  | [] => none
  | [c] => if c = quote then some ([c], []) else none
  | c :: b :: src =>
    if c = backslash then (findQuote quote src).map fun r => (c :: b :: r.1, r.2)
    else if c = quote then
      let after := skipWhitespaces (b :: src)
      if after = [] ∨ after.head? = some 0x23 ∨
          ((b :: src).takeWhile isWhitespace).any isNewline then
        some ([c], after)
      else (findQuote quote src).map fun r => (c :: b :: r.1, r.2)
    else (findQuote quote (b :: src)).map fun r => (c :: r.1, r.2)

/-- The bytes that the value buffer gets of a quoted text. -/
def unescape (quote : UInt8) : List UInt8 → List UInt8
  | [] => []
  | [c] => if c = 0x0D then [0x0A] else [c]
  | c :: b :: src =>
    if c = backslash then
      if quote = 0x22 then
        if b = 0x6E then 0x0A :: unescape quote src
        else if b = 0x72 then 0x0D :: unescape quote src
        else c :: b :: unescape quote src
      else c :: unescape quote (b :: src)
    else if c = 0x0D then
      if b = 0x0A then unescape quote (b :: src) else 0x0A :: unescape quote (b :: src)
    else c :: unescape quote (b :: src)

/-- The text up to the closing quote. -/
def parseQuoted (quote : UInt8) (src : List UInt8) : Option (List UInt8 × List UInt8) :=
  match src with
  | [] => none
  | c :: src => (findQuote quote src).map fun r => (unescape quote (c :: r.1), r.2)

/-- `std.mem.trim` -/
def trim (slice : List UInt8) : List UInt8 :=
  (slice.dropWhile isWhitespace).rdropWhile isWhitespace

/-- The text up to a comment or the end of the line. -/
def parseUnquoted (src : List UInt8) : List UInt8 × List UInt8 :=
  let inValue := fun c => !(c == 0x23 || isNewline c)
  (trim (src.takeWhile inValue), src.dropWhile inValue)

/-- What is behind the equals sign. -/
def parseValue (is_process : Bool) (src : List UInt8) : List UInt8 × List UInt8 :=
  match skipWhitespaces src with
  | [] => ([], [])
  | c :: rest =>
    if c = 0x60 ∨ c = 0x22 ∨ c = 0x27 then
      match parseQuoted c (c :: rest) with
      | some (value, left) => (if is_process then value else value.tail.dropLast, left)
      | none => parseUnquoted src
    else parseUnquoted src

lemma length_skipWhitespaces_le (src : List UInt8) : (skipWhitespaces src).length ≤ src.length :=
  (src.dropWhile_suffix _).length_le

variable {src : List UInt8} {r : List UInt8 × List UInt8}

lemma length_skipLine_lt (h : src ≠ []) :
    (skipLine (skipWhitespaces src)).length < src.length := by
  have hws := length_skipWhitespaces_le src
  have hpos := length_pos_of_ne_nil h
  have hln := ((skipWhitespaces src).dropWhile_suffix fun c => !isNewline c).length_le
  unfold skipLine
  rw [length_tail]
  omega

lemma length_parseSeparator_lt {key : List UInt8}
    (h : parseSeparator key src = some r) : r.2.length < src.length := by
  unfold parseSeparator at h
  split at h
  · simp at h
  · split_ifs at h
    · obtain rfl := some.inj h
      exact lt_succ_self _
    · split at h
      · simp at h
      · split_ifs at h
        obtain rfl := some.inj h
        simp only [length_cons]
        omega

lemma length_parsePlainKey_lt
    (h : parsePlainKey src = some r) : r.2.length < src.length := by
  unfold parsePlainKey at h
  dsimp only at h
  split_ifs at h
  have htl := (src.dropWhile_suffix isKey).length_le
  have hws := length_skipWhitespaces_le (src.dropWhile isKey)
  have hsep := length_parseSeparator_lt h
  omega

lemma length_parseKey_lt
    (h : parseKey src = some r) : r.2.length < src.length := by
  unfold parseKey at h
  dsimp only at h
  have htl := (src.dropWhile_suffix isKey).length_le
  have hws := length_skipWhitespaces_le (src.dropWhile isKey)
  split_ifs at h
  · rcases hpl : parsePlainKey (skipWhitespaces (src.dropWhile isKey)) with _ | r'
    · rw [hpl, none_or] at h
      have hsep := length_parseSeparator_lt h
      omega
    · rw [hpl, some_or] at h
      obtain rfl := some.inj h
      have hsep := length_parsePlainKey_lt hpl
      omega
  · have hsep := length_parseSeparator_lt h
    omega

lemma length_findQuote_le {quote : UInt8} : ∀ {src : List UInt8} {r : List UInt8 × List UInt8},
    findQuote quote src = some r → r.2.length ≤ src.length
  | [], _, h => by simp [findQuote] at h
  | [c], r, h => by
    unfold findQuote at h
    split_ifs at h
    obtain rfl := some.inj h
    simp
  | c :: b :: src, r, h => by
    have hws := length_skipWhitespaces_le (b :: src)
    unfold findQuote at h
    dsimp only at h
    simp only [length_cons] at hws ⊢
    split_ifs at h
    · obtain ⟨r', hr', rfl⟩ := map_eq_some_iff.1 h
      have hle := length_findQuote_le hr'
      dsimp only
      omega
    · obtain rfl := some.inj h
      exact le_succ_of_le hws
    · obtain ⟨r', hr', rfl⟩ := map_eq_some_iff.1 h
      have hle := length_findQuote_le hr'
      dsimp only
      omega
    · obtain ⟨r', hr', rfl⟩ := map_eq_some_iff.1 h
      exact le_succ_of_le (length_findQuote_le hr')

lemma length_parseValue_le (is_process : Bool) (src : List UInt8) :
    (parseValue is_process src).2.length ≤ src.length := by
  have hun : (parseUnquoted src).2.length ≤ src.length := (src.dropWhile_suffix _).length_le
  have hws := length_skipWhitespaces_le src
  unfold parseValue
  split
  · simp
  · rename_i c rest heq
    rw [heq] at hws
    split
    · split
      · rename_i value left hqt
        obtain ⟨r, hr, hlf⟩ := map_eq_some_iff.1 hqt
        obtain ⟨-, rfl⟩ := Prod.mk.inj hlf
        exact (length_findQuote_le hr).trans (le_of_succ_le hws)
      · exact hun
    · exact hun

/-- The keys and values of a text, in order. -/
def definitions (is_process : Bool) : List UInt8 → List (List UInt8 × List UInt8)
  | [] => []
  | c :: src =>
    match _h : parseKey (skipWhitespaces (c :: src)) with
    | none => definitions is_process (skipLine (skipWhitespaces (c :: src)))
    | some (key, rest) =>
      (key, (parseValue is_process rest).1) :: definitions is_process (parseValue is_process rest).2
termination_by src => src.length
decreasing_by
  · exact length_skipLine_lt (List.cons_ne_nil c src)
  · have hkey := length_parseKey_lt _h
    have hws := length_skipWhitespaces_le (c :: src)
    have hvalue := length_parseValue_le is_process rest
    dsimp only at hkey
    omega

end Cruller.Dotenv
