import Mathlib.Data.List.Forall2
import Mathlib.Data.List.TakeWhile
import Cruller.Url.QueryStringMap

/-!
# Query strings as forms

The reference: a query string is split at ampersands and each piece at its first equals sign, and
names and values are decoded, a plus to a space and an escape to its byte. The scanner gives the
parameters up to the first one without a name (`results_spec`). In the decoding path, what was
written before a malformed escape is left over in the buffer, and everything behind it is read too
early by that much (`yields`, `initDecoded_eq`).
-/

namespace Cruller.Url

open List Option Nat

/-- Escapes become bytes; others stay. -/
def percentDecode : List UInt8 → List UInt8
  | [] => []
  | c :: a :: b :: input =>
    if c = 0x25 ∧ isASCIIHexDigit a ∧ isASCIIHexDigit b then
      (toASCIIHexValue a <<< 4 ||| toASCIIHexValue b) :: percentDecode input
    else c :: percentDecode (a :: b :: input)
  | c :: input => c :: percentDecode input

/-- Every percent sign begins an escape. -/
def wellFormed : List UInt8 → Bool
  | [] => true
  | c :: a :: b :: input =>
    if c = 0x25 then isASCIIHexDigit a && isASCIIHexDigit b && wellFormed input
    else wellFormed (a :: b :: input)
  | c :: input => c ≠ 0x25 && wellFormed input

def plusToSpace (c : UInt8) : UInt8 := if c = 0x2B then 0x20 else c

def formDecode (bytes : List UInt8) : List UInt8 := percentDecode (bytes.map plusToSpace)

/-- A name and a value, before they are decoded. -/
abbrev Pair := List UInt8 × List UInt8

def pieces (bytes : List UInt8) : List (List UInt8) := (bytes.splitOn 0x26).filter (· ≠ [])

/-- The name before the first equals sign, and the value behind it. -/
def splitPiece (piece : List UInt8) : Pair :=
  (piece.takeWhile (· ≠ 0x3D), (piece.dropWhile (· ≠ 0x3D)).tail)

def pairs (bytes : List UInt8) : List Pair := (pieces bytes).map splitPiece

/-- The parameters of a query string, still encoded. -/
def parameters (query_string : List UInt8) : List Pair :=
  pairs (query_string.drop (start query_string))

def Pair.wellFormed (p : Pair) : Bool := Url.wellFormed p.1 && Url.wellFormed p.2

/-- The parameter that a pair stands for. -/
def Pair.decoded (p : Pair) : Pair := (formDecode p.1, formDecode p.2)

/-- The parameters are answered in order; one with a malformed escape in any way, or not at all. -/
inductive Answers : List Pair → List Pair → Prop
  | nil : Answers [] []
  | right {p ps out} (h : Answers ps out) : Answers (p :: ps) (p.decoded :: out)
  | dropped {p ps out} (hp : p.wellFormed = false) (h : Answers ps out) : Answers (p :: ps) out
  | any {p ps out} (hp : p.wellFormed = false) (e : Pair) (h : Answers ps out) :
      Answers (p :: ps) (e :: out)

theorem Answers.refl : ∀ ps : List Pair, Answers ps ((ps.filter Pair.wellFormed).map Pair.decoded)
  | [] => .nil
  | p :: ps => by
    cases hp : p.wellFormed with
    | true =>
      rw [filter_cons_of_pos hp]
      exact .right (Answers.refl ps)
    | false =>
      rw [filter_cons_of_neg (by rw [hp]; exact Bool.false_ne_true)]
      exact .dropped hp (Answers.refl ps)

/-- Every parameter that is well formed has an answer; where there is no other one, they are
these. -/
theorem Answers.length_le {ps out : List Pair} (h : Answers ps out) :
    (ps.filter Pair.wellFormed).length ≤ out.length ∧
      (out.length = (ps.filter Pair.wellFormed).length →
        out = (ps.filter Pair.wellFormed).map Pair.decoded) := by
  induction h with
  | nil => exact ⟨Nat.le_refl 0, fun _ => rfl⟩
  | @right p ps out h ih =>
    cases hp : p.wellFormed with
    | true =>
      rw [filter_cons_of_pos hp]
      refine ⟨succ_le_succ ih.1, fun hlen => ?_⟩
      rw [map_cons, ih.2 (succ_inj.1 hlen)]
    | false =>
      rw [filter_cons_of_neg (by rw [hp]; exact Bool.false_ne_true), length_cons]
      exact ⟨le_succ_of_le ih.1, fun hlen => absurd ih.1 (by omega)⟩
  | dropped hp h ih =>
    rw [filter_cons_of_neg (by rw [hp]; exact Bool.false_ne_true)]
    exact ih
  | any hp e h ih =>
    rw [filter_cons_of_neg (by rw [hp]; exact Bool.false_ne_true), length_cons]
    exact ⟨le_succ_of_le ih.1, fun hlen => absurd ih.1 (by omega)⟩

theorem wellFormed_cons {c : UInt8} (hc : c ≠ 0x25) (input : List UInt8) :
    wellFormed (c :: input) = wellFormed input := by
  have hfr : (decide (c ≠ 0x25) && wellFormed input) = wellFormed input := by
    rw [decide_eq_true hc, Bool.true_and]
  rcases input with _ | ⟨a, _ | ⟨b, input⟩⟩
  · exact hfr
  · exact hfr
  · exact if_neg hc

theorem percentDecode_cons {c : UInt8} (hc : c ≠ 0x25) (input : List UInt8) :
    percentDecode (c :: input) = c :: percentDecode input := by
  rcases input with _ | ⟨a, _ | ⟨b, input⟩⟩
  · rfl
  · rfl
  · exact if_neg fun h => hc h.1

/-- The code decodes what is well formed as the reference does. -/
theorem decode_spec (input : List UInt8) :
    (decode input).2 = wellFormed input ∧
      (wellFormed input = true → (decode input).1 = percentDecode input) ∧
      (decode input).1.length ≤ input.length := by
  fun_induction decode input with
  | case1 => exact ⟨rfl, fun _ => rfl, Nat.le_refl 0⟩
  | case2 a b input hhex bytes ok heq ih =>
    rw [heq] at ih
    simp only [wellFormed, percentDecode, hhex.1, hhex.2, Bool.and_self, Bool.true_and,
      and_self, if_true, length_cons]
    refine ⟨ih.1, fun h => by rw [← ih.2.1 h], ?_⟩
    have := ih.2.2
    simp only at this
    omega
  | case3 a b input hhex =>
    simp only [wellFormed, if_true, length_nil]
    have hfl : (isASCIIHexDigit a && isASCIIHexDigit b) = false := by
      simpa using hhex
    rw [hfl, Bool.false_and]
    exact ⟨rfl, nofun, Nat.zero_le _⟩
  | case4 input hsh =>
    have hml : wellFormed (0x25 :: input) = false := by
      rcases input with _ | ⟨a, _ | ⟨b, input⟩⟩
      · rfl
      · rfl
      · exact absurd rfl fun h => hsh a b input rfl h
    rw [hml]
    exact ⟨rfl, nofun, Nat.zero_le _⟩
  | case5 c input hsh hc bytes ok heq ih =>
    rw [heq] at ih
    rw [wellFormed_cons hc, percentDecode_cons hc]
    exact ⟨ih.1, fun h => congrArg (c :: ·) (ih.2.1 h), succ_le_succ ih.2.2⟩

theorem decode_raw : ∀ {input : List UInt8}, (input.any fun c => c == 0x25 || c == 0x2B) = false →
    wellFormed input = true ∧ percentDecode input = input ∧ formDecode input = input
  | [], _ => ⟨rfl, rfl, rfl⟩
  | c :: input, h => by
    rw [any_cons, Bool.or_eq_false_iff, Bool.or_eq_false_iff] at h
    obtain ⟨⟨hc, hpl⟩, hin⟩ := h
    obtain ⟨hwl, hdc, hfr⟩ := decode_raw hin
    have hc := beq_eq_false_iff_ne.1 hc
    have hsp : plusToSpace c = c := if_neg (beq_eq_false_iff_ne.1 hpl)
    rw [formDecode] at hfr ⊢
    rw [map_cons, hsp, wellFormed_cons hc, percentDecode_cons hc, percentDecode_cons hc,
      hdc, hfr]
    exact ⟨hwl, rfl, rfl⟩

theorem pieces_nil : pieces [] = [] := by
  rw [pieces, splitOn_nil]
  rfl

theorem pieces_cons_sep (rest : List UInt8) : pieces (0x26 :: rest) = pieces rest := by
  have hsep : (0x26 :: rest).splitOn (0x26 : UInt8) = [] :: rest.splitOn 0x26 := by
    simp [splitOn_cons_eq_if_modifyHead]
  rw [pieces, hsep]
  rfl

theorem pieces_append {piece rest : List UInt8} (hfr : 0x26 ∉ piece) (hne : piece ≠ [])
    (hrs : rest = [] ∨ rest.head? = some 0x26) : pieces (piece ++ rest) = piece :: pieces rest := by
  have hfl : ∀ l : List (List UInt8),
      (piece :: l).filter (· ≠ []) = piece :: l.filter (· ≠ []) := fun l =>
    filter_cons_of_pos (decide_eq_true hne)
  rcases hrs with rfl | hrs
  · rw [append_nil, pieces_nil, pieces, splitOn_eq_singleton hfr, hfl]
    rfl
  · obtain ⟨tail, rfl⟩ := head?_eq_some_iff.1 hrs
    rw [pieces_cons_sep, pieces, splitOn_append_cons_self_of_not_mem hfr, hfl]
    rfl

theorem splitPiece_append {name : List UInt8} (hnm : 0x3D ∉ name) (value : List UInt8) :
    splitPiece (name ++ 0x3D :: value) = (name, value) := by
  have hall : ∀ c ∈ name, decide (c ≠ 0x3D) = true := fun c hc =>
    decide_eq_true fun heq => hnm (heq ▸ hc)
  rw [splitPiece, takeWhile_append_of_pos hall, dropWhile_append_of_pos hall,
    takeWhile_cons_of_neg (by decide), dropWhile_cons_of_neg (by decide),
    append_nil]
  rfl

theorem splitPiece_self {name : List UInt8} (hnm : 0x3D ∉ name) :
    splitPiece name = (name, []) := by
  have hall : ∀ c ∈ name, decide (c ≠ 0x3D) = true := fun c hc =>
    decide_eq_true fun heq => hnm (heq ▸ hc)
  rw [splitPiece, takeWhile_eq_self_iff.2 hall, dropWhile_eq_nil_iff.2 hall]
  rfl

def needsDecoding (bytes : List UInt8) : Bool := bytes.any fun c => c == 0x25 || c == 0x2B

theorem name_cases (bytes : List UInt8) :
    ∃ name rest, bytes = name ++ rest ∧ 0x3D ∉ name ∧ 0x26 ∉ name ∧
      (rest = [] ∨ rest.head? = some 0x3D ∨ rest.head? = some 0x26) := by
  induction bytes with
  | nil => exact ⟨[], [], rfl, not_mem_nil, not_mem_nil, .inl rfl⟩
  | cons c bytes ih =>
    by_cases heq : c = 0x3D
    · exact ⟨[], c :: bytes, rfl, not_mem_nil, not_mem_nil, .inr (.inl (congrArg some heq))⟩
    by_cases hamp : c = 0x26
    · exact ⟨[], c :: bytes, rfl, not_mem_nil, not_mem_nil, .inr (.inr (congrArg some hamp))⟩
    obtain ⟨name, rest, rfl, hnm, hnm', hrs⟩ := ih
    refine ⟨c :: name, rest, rfl, ?_, ?_, hrs⟩
    · exact fun hmem => (mem_cons.1 hmem).elim (fun h => heq h.symm) hnm
    · exact fun hmem => (mem_cons.1 hmem).elim (fun h => hamp h.symm) hnm'

theorem scanName_append (rest : List UInt8) : ∀ {name : List UInt8} (relative_i : ℕ)
    (flag : Bool), 0x3D ∉ name → 0x26 ∉ name →
      scanName (name ++ rest) relative_i flag =
        scanName rest (relative_i + name.length) (flag || needsDecoding name)
  | [], relative_i, flag, _, _ => by
    simp [needsDecoding]
  | c :: name, relative_i, flag, heq, hamp => by
    rw [mem_cons, not_or] at heq hamp
    have hst : scanName (c :: (name ++ rest)) relative_i flag =
        scanName (name ++ rest) (relative_i + 1) (flag || (c == 0x25 || c == 0x2B)) := by
      conv_lhs => unfold scanName
      split
      · exact absurd rfl heq.1
      · exact absurd rfl hamp.1
      · simp
      · simp
      · rename_i h1 h2
        rw [beq_eq_false_iff_ne.2 h1, beq_eq_false_iff_ne.2 h2, Bool.or_false, Bool.or_false]
    rw [cons_append, hst, scanName_append rest _ _ heq.2 hamp.2, needsDecoding, needsDecoding,
      any_cons, Bool.or_assoc, length_cons, Nat.add_assoc, Nat.add_comm 1]

/-- The result is the pair, by places. -/
structure Scanned (query_string : List UInt8) (r : Result) (p : Pair) : Prop where
  name : r.name.slice query_string = some p.1
  rawName : r.rawName query_string = some p.1
  value : r.value.slice query_string = some p.2
  name_needs_decoding : r.name_needs_decoding = needsDecoding p.1
  value_needs_decoding : r.value_needs_decoding = needsDecoding p.2

theorem u32_eq {n : ℕ} (h : n < 2 ^ 32) : u32 n = n := mod_eq_of_lt h

theorem slice_eq (before : List UInt8) {query_string bytes rest : List UInt8} {i : ℕ}
    (hlen : query_string.length < 2 ^ 32) (hdr : query_string.drop i = before ++ (bytes ++ rest))
    (hi : i ≤ query_string.length) :
    (⟨u32 (i + before.length), u32 bytes.length⟩ : StringPointer).slice query_string =
      some bytes := by
  have hlength := congrArg List.length hdr
  simp only [length_drop, length_append] at hlength
  rw [u32_eq (by omega), u32_eq (by omega), StringPointer.slice]
  simp only
  rw [if_pos (by omega), ← drop_drop, hdr, drop_left, take_left]

theorem rawName_eq {query_string name : List UInt8} {r : Result}
    (h : r.name.slice query_string = some name) (hlength : r.name.length = name.length) :
    r.rawName query_string = some name := by
  rw [Result.rawName]
  split_ifs with hpos
  · exact h
  · rw [hlength, Nat.not_lt, le_zero, length_eq_zero_iff] at hpos
    rw [hpos]

section Next

variable {query_string name rest : List UInt8} {i n : ℕ}

theorem slice_name (hlen : query_string.length < 2 ^ 32) (hi : i ≤ query_string.length)
    (hdr : query_string.drop i = name ++ rest) :
    (⟨u32 i, u32 name.length⟩ : StringPointer).slice query_string = some name ∧
      u32 name.length = name.length ∧ i + name.length ≤ query_string.length := by
  have hlength := congrArg List.length hdr
  rw [length_drop, length_append] at hlength
  exact ⟨slice_eq [] hlen hdr hi, u32_eq (by omega), by omega⟩

theorem scanned_name (hlen : query_string.length < 2 ^ 32) (hi : i ≤ query_string.length)
    (hdr : query_string.drop i = name ++ rest) :
    Scanned query_string
      ⟨needsDecoding name, false, ⟨u32 i, u32 name.length⟩, ⟨0, 0⟩⟩ (name, []) := by
  obtain ⟨hsl, hlength, -⟩ := slice_name hlen hi hdr
  exact ⟨hsl, rawName_eq hsl hlength, if_pos (Nat.zero_le _), rfl, rfl⟩

theorem next_done (heq : 0x3D ∉ name) (hamp : 0x26 ∉ name) (hdr : query_string.drop i = name) :
    next query_string (n + 1) i =
      if name = [] then (none, i)
      else (some ⟨needsDecoding name, false, ⟨u32 i, u32 name.length⟩, ⟨0, 0⟩⟩,
        i + name.length) := by
  have hsc := scanName_append [] 0 false heq hamp
  rw [Bool.false_or, Nat.zero_add, append_nil, scanName] at hsc
  rw [next, hdr]
  simp only [hsc, length_eq_zero_iff]

theorem next_ampersand (heq : 0x3D ∉ name) (hamp : 0x26 ∉ name)
    (hdr : query_string.drop i = name ++ 0x26 :: rest) :
    next query_string (n + 1) i =
      if name = [] then
        next query_string n (i + ((0x26 :: rest).takeWhile (· = 0x26)).length)
      else (some ⟨needsDecoding name, false, ⟨u32 i, u32 name.length⟩, ⟨0, 0⟩⟩,
        i + name.length) := by
  have hsc := scanName_append (0x26 :: rest) 0 false heq hamp
  rw [Bool.false_or, Nat.zero_add, scanName] at hsc
  rw [next, hdr]
  simp only [hsc]
  by_cases hne : name = []
  · subst hne
    rfl
  · rw [if_pos (length_pos_iff.2 hne), if_neg hne]

theorem next_equals (heq : 0x3D ∉ name) (hamp : 0x26 ∉ name)
    (hdr : query_string.drop i = name ++ 0x3D :: rest) (hnm : u32 name.length = name.length) :
    next query_string (n + 1) i =
      if name = [] then
        (none, i + (name.length + 1 + (rest.takeWhile (· ≠ 0x26)).length))
      else
        (some ⟨needsDecoding name, needsDecoding (rest.takeWhile (· ≠ 0x26)),
          ⟨u32 i, u32 name.length⟩,
          ⟨u32 (name.length + 1 + i), u32 (rest.takeWhile (· ≠ 0x26)).length⟩⟩,
          i + (name.length + 1 + (rest.takeWhile (· ≠ 0x26)).length)) := by
  have hsc := scanName_append (0x3D :: rest) 0 false heq hamp
  rw [Bool.false_or, Nat.zero_add, scanName] at hsc
  rw [next, hdr]
  simp only [hsc]
  by_cases hne : name = []
  · subst hne
    rfl
  · rw [if_neg hne, if_neg (by rwa [hnm, length_eq_zero_iff])]
    rfl

end Next

theorem pairs_nil : pairs [] = [] := by
  rw [pairs, pieces_nil]
  rfl

theorem pairs_skip {seps : List UInt8} (rest : List UInt8) (hsp : ∀ c ∈ seps, c = 0x26) :
    pairs (seps ++ rest) = pairs rest := by
  induction seps with
  | nil => rfl
  | cons c seps ih =>
    obtain rfl := hsp c mem_cons_self
    rw [cons_append, pairs, pieces_cons_sep]
    exact ih fun d hd => hsp d (mem_cons_of_mem _ hd)

theorem pairs_append {piece rest : List UInt8} (hfr : 0x26 ∉ piece) (hne : piece ≠ [])
    (hrs : rest = [] ∨ rest.head? = some 0x26) :
    pairs (piece ++ rest) = splitPiece piece :: pairs rest := by
  rw [pairs, pieces_append hfr hne hrs]
  rfl

/-- `next` gives the next parameter, or null where there is none or it has no name. -/
theorem next_spec {query_string : List UInt8} (hlen : query_string.length < 2 ^ 32) : ∀ {n i : ℕ},
    i ≤ query_string.length → (query_string.drop i).length < n →
      (((pairs (query_string.drop i)).head?.all fun p => p.1 = []) = true →
        (next query_string n i).1 = none) ∧
      ∀ p ps, pairs (query_string.drop i) = p :: ps → p.1 ≠ [] →
        ∃ r j, next query_string n i = (some r, j) ∧ Scanned query_string r p ∧
          pairs (query_string.drop j) = ps ∧ i < j ∧ j ≤ query_string.length
  | 0, i, _, hn => absurd hn (Nat.not_lt_zero _)
  | n + 1, i, hi, hn => by
    obtain ⟨name, rest, hdr, heq, hamp, hrs⟩ := name_cases (query_string.drop i)
    obtain ⟨hsl, hnm, hend⟩ := slice_name hlen hi hdr
    have hdr' : query_string.drop (i + name.length) = rest := by
      rw [← drop_drop, hdr, drop_left]
    rcases hrs with rfl | hrs | hrs
    · rw [append_nil] at hdr
      rw [next_done heq hamp hdr, hdr]
      by_cases hne : name = []
      · subst hne
        rw [pairs_nil, if_pos rfl]
        exact ⟨fun _ => rfl, nofun⟩
      · have hpr : pairs name = [(name, [])] := by
          have := pairs_append hamp hne (.inl rfl)
          rwa [append_nil, splitPiece_self heq, pairs_nil] at this
        rw [hpr, if_neg hne]
        refine ⟨fun hno => absurd (of_decide_eq_true hno) hne, fun p ps hcn _ => ?_⟩
        obtain ⟨rfl, rfl⟩ := List.cons.inj hcn
        refine ⟨_, _, rfl, scanned_name hlen hi (hdr.trans (append_nil name).symm), ?_, ?_,
          hend⟩
        · rw [hdr', pairs_nil]
        · exact Nat.lt_add_of_pos_right (length_pos_iff.2 hne)
    · obtain ⟨tail, rfl⟩ := head?_eq_some_iff.1 hrs
      rw [next_equals heq hamp hdr hnm, hdr]
      obtain ⟨value, hvl⟩ : ∃ value, tail.takeWhile (· ≠ 0x26) = value := ⟨_, rfl⟩
      have hsp : tail = value ++ tail.dropWhile (· ≠ 0x26) := by
        simp [← hvl]
      have hfr : 0x26 ∉ value := fun hmem => by
        rw [← hvl] at hmem
        have hnot := mem_takeWhile_imp hmem
        exact of_decide_eq_true hnot rfl
      have hrs' : tail.dropWhile (· ≠ 0x26) = [] ∨
          (tail.dropWhile (· ≠ 0x26)).head? = some 0x26 := by
        cases hd : tail.dropWhile (· ≠ 0x26) with
        | nil => exact .inl rfl
        | cons c rest =>
          have hnot := head?_dropWhile_not (· ≠ (0x26 : UInt8)) tail
          rw [hd] at hnot
          exact .inr (congrArg some (by simpa using hnot))
      have hpr : pairs (name ++ 0x3D :: tail) =
          (name, value) :: pairs (tail.dropWhile (· ≠ 0x26)) := by
        have hpc : 0x26 ∉ name ++ 0x3D :: value := by
          rw [mem_append, not_or]
          exact ⟨hamp, fun hmem => (mem_cons.1 hmem).elim (by decide) hfr⟩
        have hcut := pairs_append hpc
          (append_ne_nil_of_right_ne_nil _ (cons_ne_nil _ _)) hrs'
        rw [splitPiece_append heq, append_assoc, cons_append, ← hsp] at hcut
        exact hcut
      rw [hvl, hpr]
      have hlength := congrArg List.length hdr
      have htl := congrArg List.length hsp
      simp only [length_drop, length_append, length_cons] at hlength htl
      refine ⟨fun hno => by rw [if_pos (of_decide_eq_true hno)], fun p ps hcn hne => ?_⟩
      obtain ⟨rfl, rfl⟩ := List.cons.inj hcn
      rw [if_neg hne]
      refine ⟨_, _, rfl, ⟨hsl, rawName_eq hsl hnm, ?_, rfl, rfl⟩, ?_, by omega, by omega⟩
      · have hcut : query_string.drop i =
            name ++ [0x3D] ++ (value ++ tail.dropWhile (· ≠ 0x26)) := by
          rw [hdr, ← hsp, append_assoc]
          rfl
        have hby := slice_eq (name ++ [0x3D]) hlen hcut hi
        rw [length_append, length_singleton, Nat.add_comm i] at hby
        exact hby
      · rw [show i + (name.length + 1 + value.length) = i + name.length + (1 + value.length) by omega,
          ← drop_drop, hdr', ← drop_drop, drop_one, tail_cons]
        conv_lhs => rw [hsp, drop_left]
    · obtain ⟨tail, rfl⟩ := head?_eq_some_iff.1 hrs
      rw [next_ampersand heq hamp hdr, hdr]
      by_cases hne : name = []
      · subst hne
        obtain ⟨skipped, hsk⟩ : ∃ skipped, (0x26 :: tail).takeWhile (· = 0x26) = skipped :=
          ⟨_, rfl⟩
        have hsp : 0x26 :: tail = skipped ++ (0x26 :: tail).dropWhile (· = 0x26) := by
          simp [← hsk]
        have hpos : 0 < skipped.length := by
          simp [← hsk]
        have hlength := congrArg List.length hsp
        have hlength' := congrArg List.length hdr
        simp only [length_append, length_drop, length_nil] at hlength hlength'
        have hrs : query_string.drop (i + skipped.length) =
            (0x26 :: tail).dropWhile (· = 0x26) := by
          rw [← drop_drop, hdr, nil_append]
          conv_lhs => rw [hsp, drop_left]
        have hpr : pairs ([] ++ 0x26 :: tail) =
            pairs (query_string.drop (i + skipped.length)) := by
          rw [nil_append, hrs]
          conv_lhs => rw [hsp]
          refine pairs_skip _ fun c hc => ?_
          rw [← hsk] at hc
          have hmem := mem_takeWhile_imp hc
          exact of_decide_eq_true hmem
        have hlt : (query_string.drop (i + skipped.length)).length < n := by
          rw [length_drop] at hn ⊢
          omega
        rw [if_pos rfl, hsk, hpr]
        obtain ⟨hno, hsm⟩ := next_spec hlen (by omega) hlt
        refine ⟨hno, fun p ps hcn hne => ?_⟩
        obtain ⟨r, j, hnx, hsc, hps, hij, hj⟩ := hsm p ps hcn hne
        exact ⟨r, j, hnx, hsc, hps, by omega, hj⟩
      · rw [pairs_append hamp hne (.inr rfl), splitPiece_self heq, if_neg hne]
        refine ⟨fun hno => absurd (of_decide_eq_true hno) hne, fun p ps hcn _ => ?_⟩
        obtain ⟨rfl, rfl⟩ := List.cons.inj hcn
        refine ⟨_, _, rfl, scanned_name hlen hi hdr, by rw [hdr'], ?_, hend⟩
        exact Nat.lt_add_of_pos_right (length_pos_iff.2 hne)

/-- The parameters up to the first one without a name. -/
def named (query_string : List UInt8) : List Pair :=
  (parameters query_string).takeWhile fun p => p.1 ≠ []

/-- The scanner finds the parameters up to the first without a name. -/
theorem scan_spec {query_string : List UInt8} (hlen : query_string.length < 2 ^ 32) : ∀ {n i : ℕ},
    i ≤ query_string.length → (query_string.drop i).length < n →
      List.Forall₂ (Scanned query_string) (scan query_string n i)
        ((pairs (query_string.drop i)).takeWhile fun p => p.1 ≠ [])
  | 0, _, _, hn => absurd hn (Nat.not_lt_zero _)
  | n + 1, i, hi, hn => by
    have hfl : (query_string.drop i).length < query_string.length + 1 := by
      rw [length_drop]
      omega
    obtain ⟨hno, hsm⟩ := next_spec hlen hi hfl
    cases hpr : pairs (query_string.drop i) with
    | nil =>
      rw [hpr] at hno
      rw [scan]
      rcases hnx : next query_string (query_string.length + 1) i with ⟨r, j⟩
      rw [hnx] at hno
      obtain rfl : r = none := hno rfl
      exact .nil
    | cons p ps =>
      by_cases hne : p.1 = []
      · rw [hpr] at hno
        rw [scan, takeWhile_cons_of_neg (by rw [decide_eq_true_iff]; exact not_not.2 hne)]
        rcases hnx : next query_string (query_string.length + 1) i with ⟨r, j⟩
        rw [hnx] at hno
        obtain rfl : r = none := hno (decide_eq_true hne)
        exact .nil
      · obtain ⟨r, j, hnx, hsc, hps, hij, hj⟩ := hsm p ps hpr hne
        have htk : (p :: ps).takeWhile (fun p => p.1 ≠ []) =
            p :: ps.takeWhile fun p => p.1 ≠ [] := takeWhile_cons_of_pos (decide_eq_true hne)
        rw [scan, hnx, htk, ← hps]
        refine .cons hsc (scan_spec hlen hj ?_)
        rw [length_drop] at hn ⊢
        omega

theorem results_spec {query_string : List UInt8} (hlen : query_string.length < 2 ^ 32) :
    List.Forall₂ (Scanned query_string) (results query_string) (named query_string) := by
  have hst : start query_string ≤ query_string.length := by
    rw [start]
    split_ifs with h
    · exact length_pos_iff.2 fun hnil => by rw [hnil] at h; exact nomatch h
    · exact Nat.zero_le _
  refine scan_spec hlen hst ?_
  rw [length_drop]
  omega

section Map

variable {hash : List UInt8 → ℕ} {query_string : List UInt8}

theorem nothingNeedsDecoding_iff {rs : List Result} {ps : List Pair}
    (h : List.Forall₂ (Scanned query_string) rs ps) :
    (rs.all fun r => !(r.name_needs_decoding || r.value_needs_decoding)) =
      ps.all fun p => !(needsDecoding p.1 || needsDecoding p.2) := by
  induction h with
  | nil => rfl
  | cons hr _ ih => rw [all_cons, all_cons, ih, hr.4, hr.5]

def rawEntries (hash : List UInt8 → ℕ) (ps : List Pair) : List Entry :=
  ps.map fun p => ⟨p.1, hash p.1, p.2⟩

/-- What is read through a map's pointers. -/
structure Shows (slice : List UInt8) (param : Param) (e : Entry) : Prop where
  name : param.name.slice slice = some e.name
  name_hash : param.name_hash = e.name_hash
  value : param.value.slice slice = some e.value

variable {es : List Entry}

theorem entries_eq {slice : List UInt8} {list : List Param}
    (h : List.Forall₂ (Shows slice) list es) :
    (⟨list, slice⟩ : QueryStringMap).entries = some es := by
  rw [QueryStringMap.entries]
  induction h with
  | nil => rfl
  | @cons param e list es hp _ ih =>
    simp only [QueryStringMap.str] at ih ⊢
    rw [mapM_cons, hp.name, bind_some, hp.value, ih, hp.name_hash]
    rfl

theorem initRaw_eq (hash : List UInt8 → ℕ) (hlen : query_string.length < 2 ^ 32) :
    (initRaw hash query_string).bind QueryStringMap.entries =
      some (rawEntries hash (named query_string)) := by
  have hmap : ∀ {rs : List Result} {ps : List Pair}, List.Forall₂ (Scanned query_string) rs ps →
      ∃ list, (rs.mapM fun r : Result => (r.rawName query_string).map fun name =>
          (⟨r.name, hash name, r.value⟩ : Param)) = some list ∧
        List.Forall₂ (Shows query_string) list (rawEntries hash ps) := by
    intro rs ps h
    induction h with
    | nil => exact ⟨[], rfl, .nil⟩
    | @cons r p rs ps hr _ ih =>
      obtain ⟨list, hls, hsh⟩ := ih
      refine ⟨⟨r.name, hash p.1, r.value⟩ :: list, ?_, .cons ⟨hr.name, rfl, hr.value⟩ hsh⟩
      rw [mapM_cons, hr.rawName, hls]
      rfl
  obtain ⟨list, hls, hsh⟩ := hmap (results_spec hlen)
  rw [initRaw, hls]
  exact entries_eq hsh

/-- What is read where `left` was left over and `bytes` are written. -/
def shown (left bytes : List UInt8) : List UInt8 := (left ++ bytes).take bytes.length

def shift (left bytes : List UInt8) : List UInt8 := (left ++ bytes).drop bytes.length

/-- The entry of a parameter, where `left` was left over. -/
def shownEntry (hash : List UInt8 → ℕ) (left : List UInt8) (p : Pair) : Entry where
  name := shown left (decode p.1).1
  name_hash := if needsDecoding p.1 then hash (shown left (decode p.1).1) else hash p.1
  value := shown (shift left (decode p.1).1) (decode p.2).1

/-- The parameters, with what the buffer still has behind them. -/
def yields (hash : List UInt8 → ℕ) : List UInt8 → List Pair → List Entry
  | _, [] => []
  | left, p :: ps =>
    if wellFormed p.1 then
      if wellFormed p.2 then
        shownEntry hash left p ::
          yields hash (shift (shift left (decode p.1).1) (decode p.2).1) ps
      else yields hash (shift left (decode p.1).1 ++ (decode p.2).1) ps
    else yields hash (left ++ (decode p.1).1) ps

/-- The pointer shows these bytes, which have been written. -/
structure Points (buf : List UInt8) (pos : ℕ) (ptr : StringPointer) (bytes : List UInt8) :
    Prop where
  le : ptr.offset + ptr.length ≤ pos
  slice : ptr.slice buf = some bytes

/-- The loop's state, with what is left over and the entries so far. -/
structure Decoding.Holds (s : Decoding) (left : List UInt8) (es : List Entry) : Prop where
  le : s.buf_writer_pos ≤ s.buf.length
  left : s.buf.drop s.buf_writer_pos = left
  entries : List.Forall₂ (fun param e => Points s.buf s.buf_writer_pos param.name e.name ∧
    param.name_hash = e.name_hash ∧ Points s.buf s.buf_writer_pos param.value e.value) s.list es

variable {ptr : StringPointer} {buf bytes : List UInt8}

theorem StringPointer.slice_append
    (more : List UInt8) (h : ptr.slice buf = some bytes) :
    ptr.slice (buf ++ more) = some bytes := by
  rw [StringPointer.slice] at h ⊢
  split_ifs at h with hle
  rw [if_pos (by rw [length_append]; omega), drop_append_of_le_length (by omega),
    take_append_of_le_length (by rw [length_drop]; omega), h]

theorem Points.mono {buf' : List UInt8} {pos pos' : ℕ} (h : Points buf pos ptr bytes)
    (hbuf : buf <+: buf') (hpos : pos ≤ pos') :
    Points buf' pos' ptr bytes := by
  obtain ⟨more, hmr⟩ := hbuf
  exact ⟨h.le.trans hpos, hmr ▸ StringPointer.slice_append more h.slice⟩

variable {s : Decoding} {left : List UInt8}

theorem Decoding.Holds.mono {s' : Decoding} {left' : List UInt8}
    (h : s.Holds left es) (hls : s'.list = s.list) (hbuf : s.buf <+: s'.buf)
    (hpos : s.buf_writer_pos ≤ s'.buf_writer_pos) (hle : s'.buf_writer_pos ≤ s'.buf.length)
    (hlf : s'.buf.drop s'.buf_writer_pos = left') : s'.Holds left' es := by
  refine ⟨hle, hlf, ?_⟩
  rw [hls]
  exact h.entries.imp fun param e he => ⟨he.1.mono hbuf hpos, he.2.1, he.2.2.mono hbuf hpos⟩

theorem Decoding.Holds.write {raw : List UInt8}
    (h : s.Holds left es) (hraw : raw.length < 2 ^ 32) (hwl : wellFormed raw = true) :
    ∃ s' ptr, s.write raw = (s', some ptr) ∧ s.buf <+: s'.buf ∧
      s.buf_writer_pos ≤ s'.buf_writer_pos ∧ s'.list = s.list ∧
      s'.Holds (shift left (decode raw).1) es ∧
      Points s'.buf s'.buf_writer_pos ptr (shown left (decode raw).1) := by
  obtain ⟨hok, -, hlength⟩ := decode_spec raw
  rw [hwl] at hok
  rcases hdc : decode raw with ⟨bytes, ok⟩
  rw [hdc] at hok hlength
  simp only at hok hlength
  have hdr : (s.buf ++ bytes).drop s.buf_writer_pos = left ++ bytes := by
    rw [drop_append_of_le_length h.le, h.left]
  have hu32 : u32 bytes.length = bytes.length := u32_eq (by omega)
  have hle := h.le
  have hpr := prefix_append s.buf bytes
  have hwr : s.write raw = (⟨s.list, s.buf ++ bytes, s.buf_writer_pos + bytes.length⟩,
      some ⟨s.buf_writer_pos, bytes.length⟩) := by
    rw [Decoding.write, hdc, hok]
    simp only [if_true, hu32]
  refine ⟨_, _, hwr, hpr, Nat.le_add_right _ _, rfl, ?_, le_rfl, ?_⟩
  · refine h.mono rfl hpr (Nat.le_add_right _ _) ?_ ?_
    · simp only [length_append]
      omega
    · rw [shift, ← hdr, drop_drop]
  · rw [StringPointer.slice]
    simp only
    rw [if_pos (by rw [length_append]; omega), hdr]
    rfl

theorem Decoding.Holds.write_malformed {raw : List UInt8}
    (h : s.Holds left es) (hwl : wellFormed raw = false) :
    ∃ s', s.write raw = (s', none) ∧ s'.list = s.list ∧ s'.Holds (left ++ (decode raw).1) es := by
  have hok := (decode_spec raw).1
  rw [hwl] at hok
  rcases hdc : decode raw with ⟨bytes, ok⟩
  rw [hdc] at hok
  simp only at hok
  have hle := h.le
  have hwr : s.write raw = (⟨s.list, s.buf ++ bytes, s.buf_writer_pos⟩, none) := by
    simp [Decoding.write, hdc, hok]
  refine ⟨_, hwr, rfl, h.mono rfl (prefix_append _ _) le_rfl ?_ ?_⟩
  · simp only [length_append]
    omega
  · rw [drop_append_of_le_length h.le, h.left]

theorem Decoding.Holds.name {s : Decoding} {left : List UInt8} {es : List Entry} {r : Result}
    {p : Pair} (hash : List UInt8 → ℕ) (h : s.Holds left es) (hr : Scanned query_string r p)
    (hnm : p.1.length < 2 ^ 32) (hwl : wellFormed p.1 = true) :
    ∃ s' ptr, s.name hash query_string [] r =
        some (s', some (ptr, (shownEntry hash left p).name_hash)) ∧
      s'.list = s.list ∧ s'.Holds (shift left (decode p.1).1) es ∧
      Points s'.buf s'.buf_writer_pos ptr (shown left (decode p.1).1) := by
  obtain ⟨s', ptr, hwr, -, -, hls, hhl, hpn⟩ := h.write hnm hwl
  refine ⟨s', ptr, ?_, hls, hhl, hpn⟩
  rw [Decoding.name, hr.name, bind_some, hr.name_needs_decoding, hwr, hr.rawName,
    shownEntry]
  cases needsDecoding p.1 with
  | true =>
    simp only [if_true]
    rw [hpn.slice]
    rfl
  | false => rfl

theorem Decoding.Holds.name_malformed
    {r : Result} {p : Pair} (hash : List UInt8 → ℕ) (h : s.Holds left es)
    (hr : Scanned query_string r p) (hwl : wellFormed p.1 = false) :
    ∃ s', s.name hash query_string [] r = some (s', none) ∧ s'.list = s.list ∧
      s'.Holds (left ++ (decode p.1).1) es := by
  obtain ⟨s', hwr, hls, hhl⟩ := h.write_malformed hwl
  refine ⟨s', ?_, hls, hhl⟩
  rw [Decoding.name, hr.name, bind_some, hwr, hr.rawName]
  cases r.name_needs_decoding with
  | true => rfl
  | false => rfl

/-- One result more is in the buffer, or is skipped. -/
theorem Decoding.Holds.step {r : Result}
    {p : Pair} (hash : List UInt8 → ℕ) (h : s.Holds left es) (hr : Scanned query_string r p)
    (hnm : p.1.length < 2 ^ 32) (hvl : p.2.length < 2 ^ 32) :
    ∃ s' left' more, s.step hash query_string [] r = some s' ∧ s'.Holds left' (es ++ more) ∧
      ∀ ps, yields hash left (p :: ps) = more ++ yields hash left' ps := by
  cases hwl : wellFormed p.1 with
  | false =>
    obtain ⟨s', hs', -, hhl⟩ := h.name_malformed hash hr hwl
    refine ⟨s', _, [], ?_, (append_nil es).symm ▸ hhl, fun ps => ?_⟩
    · rw [Decoding.step, hs']
      rfl
    · rw [yields, hwl]
      rfl
  | true =>
    obtain ⟨s₁, name, hs₁, -, hhl₁, hpn₁⟩ := h.name hash hr hnm hwl
    cases hwl' : wellFormed p.2 with
    | false =>
      obtain ⟨s₂, hwr, -, hhl₂⟩ := hhl₁.write_malformed hwl'
      refine ⟨s₂, _, [], ?_, (append_nil es).symm ▸ hhl₂, fun ps => ?_⟩
      · simp [Decoding.step, hs₁, hr.value, hwr]
      · rw [yields, hwl, hwl']
        rfl
    | true =>
      obtain ⟨s₂, value, hwr, hbuf, hpos, hls, hhl₂, hpn₂⟩ :=
        hhl₁.write hvl hwl'
      refine ⟨{ s₂ with list := s₂.list ++ [⟨name, (shownEntry hash left p).name_hash, value⟩] }, _,
        [shownEntry hash left p], ?_, ⟨hhl₂.le, hhl₂.left, ?_⟩, fun ps => ?_⟩
      · simp [Decoding.step, hs₁, hr.value, hwr]
      · exact rel_append hhl₂.entries
          (.cons ⟨hpn₁.mono hbuf hpos, rfl, hpn₂⟩ .nil)
      · rw [yields, hwl, hwl']
        rfl

theorem StringPointer.length_le
    (h : ptr.slice buf = some bytes) : bytes.length ≤ buf.length := by
  rw [StringPointer.slice] at h
  split_ifs at h
  rw [← some.inj h, List.length_take, length_drop]
  omega

theorem Decoding.Holds.foldlM (hash : List UInt8 → ℕ) (hlen : query_string.length < 2 ^ 32)
    {rs : List Result} {ps : List Pair} (hrs : List.Forall₂ (Scanned query_string) rs ps) :
    ∀ {s : Decoding} {left : List UInt8} {es : List Entry}, s.Holds left es →
      ∃ s' left', rs.foldlM (Decoding.step hash query_string []) s = some s' ∧
        s'.Holds left' (es ++ yields hash left ps) := by
  induction hrs with
  | nil =>
    intro s left es h
    exact ⟨s, left, rfl, (append_nil es).symm ▸ h⟩
  | @cons r p rs ps hr _ ih =>
    intro s left es h
    obtain ⟨s', left', more, hst, hhl, hyl⟩ := h.step hash hr
      ((StringPointer.length_le hr.name).trans_lt hlen)
      ((StringPointer.length_le hr.value).trans_lt hlen)
    obtain ⟨s'', left'', hfl, hhl'⟩ := ih hhl
    refine ⟨s'', left'', ?_, ?_⟩
    · rw [foldlM_cons, hst]
      exact hfl
    · rwa [hyl, ← append_assoc]

theorem Points.slice_take {pos : ℕ}
    (h : Points buf pos ptr bytes) (hpos : pos ≤ buf.length) :
    ptr.slice (buf.take pos) = some bytes := by
  obtain ⟨hle, hsl⟩ := h
  rw [StringPointer.slice] at hsl ⊢
  rw [if_pos (by omega)] at hsl
  rw [if_pos (by rw [List.length_take]; omega), drop_take, take_take, ← hsl,
    Nat.min_eq_left (by omega)]

/-- The decoding path reads each name and value too early by what was left over. -/
theorem initDecoded_eq (hash : List UInt8 → ℕ) (hlen : query_string.length < 2 ^ 32) :
    (initDecoded hash query_string).bind QueryStringMap.entries =
      some (yields hash [] (named query_string)) := by
  have hem : (⟨[], [], 0⟩ : Decoding).Holds [] [] := ⟨le_rfl, rfl, .nil⟩
  obtain ⟨s, left, hfl, hhl⟩ := hem.foldlM hash hlen (results_spec hlen)
  rw [initDecoded, hfl]
  refine entries_eq (hhl.entries.imp fun param e he => ⟨?_, he.2.1, ?_⟩)
  · exact he.1.slice_take hhl.le
  · exact he.2.2.slice_take hhl.le

end Map

end Cruller.Url
