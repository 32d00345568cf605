import Cruller.Text.EncodedStreams

/-!
# `copyUTF16IntoUTF8Impl`

When the buffer ends in a character, what is written of it has its first byte right and every other
one wrong.
-/

namespace Cruller.Text

open List Nat Transducer Utf8
open Utf16 (unitDecoder IsLead IsTrail)

structure SimdutfLength extends SimdutfUTF16 where
  utf8_length_from_utf16le : List UInt16 → ℕ
  trim_partial_utf16le : List UInt16 → List UInt16

/-- What simdutf documents: the length of a valid text, and that a trimmed text does not end in a
lead surrogate. -/
structure SimdutfLength.Lawful (S : SimdutfLength) : Prop extends S.toSimdutfUTF16.Lawful where
  length : ∀ units, ValidUnits units →
    S.utf8_length_from_utf16le units = (bytes (unitDecoder.text none units)).length
  trimmed : ∀ units, S.trim_partial_utf16le units =
    if ∃ u ∈ units.getLast?, IsLead u then units.dropLast else units

/-- What is written of a character of which only `room` bytes fit. In Zig `|` and `&` have one
precedence, from the left. -/
def truncatedSequence (code_point width room : ℕ) : List UInt8 :=
  match width with
  | 2 => if 0 < room then [.ofNat (0xC0 ||| (code_point >>> 6))] else []
  | 3 =>
    match room with
    | 1 => [.ofNat (0xE0 ||| (code_point >>> 12))]
    | 2 =>
      [.ofNat (0xE0 ||| (code_point >>> 12)), .ofNat ((0x80 ||| (code_point >>> 6)) &&& 0x3F)]
    | _ => []
  | 4 =>
    match room with
    | 1 => [.ofNat (0xF0 ||| (code_point >>> 18))]
    | 2 =>
      [.ofNat (0xF0 ||| (code_point >>> 18)), .ofNat ((0x80 ||| (code_point >>> 12)) &&& 0x3F)]
    | 3 =>
      [.ofNat (0xF0 ||| (code_point >>> 18)), .ofNat ((0x80 ||| (code_point >>> 12)) &&& 0x3F),
        .ofNat ((0x80 ||| (code_point >>> 6)) &&& 0x3F)]
    | _ => []
  | _ => []

/-- The loop and the copy after it: what is written and which units remain; `n` bounds the
rounds. -/
def copyUTF16Loop (allow_truncated_utf8_sequence : Bool) :
    ℕ → ℕ → List UInt16 → List UInt8 × List UInt16
  | 0, _, utf16_remaining => ([], utf16_remaining)
  | n + 1, room, utf16_remaining =>
    match firstNonASCII16 utf16_remaining with
    | none =>
      let len := min room utf16_remaining.length
      (copyU16IntoU8 (utf16_remaining.take len), utf16_remaining.drop len)
    | some i =>
      let stop := min i room
      let ascii := copyU16IntoU8 (utf16_remaining.take stop)
      let room := room - stop
      let utf16_remaining := utf16_remaining.drop stop
      if min utf16_remaining.length room = 0 then (ascii, utf16_remaining)
      else
        let replacement := utf16CodepointWithFFFD utf16_remaining
        let width := replacement.utf8Width
        if room < width then
          (ascii ++ if allow_truncated_utf8_sequence then
            truncatedSequence replacement.code_point width room else [], utf16_remaining)
        else
          let (out, rest) := copyUTF16Loop allow_truncated_utf8_sequence n (room - width)
            (utf16_remaining.drop replacement.len)
          (ascii ++ ((wtf8Sequence replacement.code_point).take width ++ out), rest)

variable (S : SimdutfLength)

/-- A text that fits is converted at once, any other character by character. -/
def copyUTF16IntoUTF8WithBufferImpl (room : ℕ) (utf16 : List UInt16) (out_len : ℕ)
    (allow_truncated_utf8_sequence : Bool) : List UInt8 × EncodeIntoResult :=
  let result := S.convert_utf16le_to_utf8_with_errors utf16
  if out_len ≤ room ∧ result.1 then
    (result.2, ⟨utf16.length % 2 ^ 32, result.2.length % 2 ^ 32⟩)
  else
    let (out, rest) := copyUTF16Loop allow_truncated_utf8_sequence (utf16.length + 1) room utf16
    (out, ⟨(utf16.length - rest.length) % 2 ^ 32, out.length % 2 ^ 32⟩)

/-- The length in UTF-8 is computed only where the room may be too small for it. -/
def copyUTF16IntoUTF8Impl (room : ℕ) (utf16 : List UInt16) (allow_truncated_utf8_sequence : Bool) :
    List UInt8 × EncodeIntoResult :=
  if utf16.length = 0 then ([], ⟨0, 0⟩)
  else
    let trimmed := S.trim_partial_utf16le utf16
    if trimmed.length = 0 then ([], ⟨0, 0⟩)
    else
      let out_len :=
        if room ≤ trimmed.length * 3 + 2 then S.utf8_length_from_utf16le trimmed else room
      copyUTF16IntoUTF8WithBufferImpl S room utf16 out_len allow_truncated_utf8_sequence

def widthOf (item : Option ℕ) : ℕ := (bytes [item]).length

/-- The characters that fit, and how the next one is cut. -/
def fitting : ℕ → List (Option ℕ) → List (Option ℕ)
  | _, [] => []
  | room, item :: items =>
    if widthOf item ≤ room then item :: fitting (room - widthOf item) items else []

def cut (f : Option ℕ → ℕ → List UInt8) : ℕ → List (Option ℕ) → List UInt8
  | _, [] => []
  | room, item :: items =>
    if widthOf item ≤ room then cut f (room - widthOf item) items else f item room

def unitsOf (items : List (Option ℕ)) : ℕ :=
  (items.map fun item => if 0x10000 ≤ item.getD Utf16.replacement then 2 else 1).sum

/-- The bytes of the text that fit are written, and the units of the whole characters among them
are read. -/
def CopiesText (room : ℕ) (utf16 : List UInt16) (result : List UInt8 × EncodeIntoResult) : Prop :=
  let items := unitDecoder.text none utf16
  result.1 = (bytes items).take room ∧ result.2.read = unitsOf (fitting room items)
    ∧ result.2.written = result.1.length

instance (room : ℕ) (utf16 : List UInt16) (result : List UInt8 × EncodeIntoResult) :
    Decidable (CopiesText room utf16 result) := inferInstanceAs (Decidable (_ ∧ _))

/-- The buffer has room for nothing or the text is no lone lead surrogate, at most one byte of a
character is written without the others, and the bytes that fit can be counted. -/
def CutSafely (room : ℕ) (utf16 : List UInt16) : Prop :=
  let items := unitDecoder.text none utf16
  (room = 0 ∨ ∀ u, utf16 = [u] → ¬ IsLead u)
    ∧ ((bytes items).take room).length ≤ (bytes (fitting room items)).length + 1
    ∧ ((bytes items).take room).length < 2 ^ 32

section Bytes

variable {c room : ℕ} {item : Option ℕ} {items : List (Option ℕ)}

theorem widthOf_pos (item : Option ℕ) : 0 < widthOf item := by
  rw [widthOf, bytes, flatMap_singleton, Utf8.encode]
  split_ifs <;> exact zero_lt_succ _

theorem length_bytes_cons : (bytes (item :: items)).length =
    widthOf item + (bytes items).length := by
  rw [← singleton_append, bytes_append, length_append, widthOf]

theorem fitting_zero (items : List (Option ℕ)) : fitting 0 items = [] := by
  rcases items with _ | ⟨item, items⟩
  · rfl
  · exact if_neg (widthOf_pos item).not_ge

theorem take_bytes (room : ℕ) (items : List (Option ℕ)) : (bytes items).take room =
    bytes (fitting room items) ++ cut (fun item room => (bytes [item]).take room) room items := by
  induction items generalizing room with
  | nil => simp [fitting, cut]
  | cons item items ih =>
    have hb : bytes (item :: items) = bytes [item] ++ bytes items := by
      rw [← singleton_append, bytes_append]
    rw [fitting, cut, hb, take_append]
    split_ifs with h
    · rw [take_of_length_le h, ← widthOf, ih, ← append_assoc, ← bytes_append, singleton_append]
    · rw [← widthOf, Nat.sub_eq_zero_of_le (not_le.1 h).le, take_zero, append_nil, bytes_nil,
        nil_append]

theorem units_fitting_le (room : ℕ) (items : List (Option ℕ)) :
    unitsOf (fitting room items) ≤ (bytes (fitting room items)).length := by
  generalize fitting room items = items
  induction items with
  | nil => exact le_rfl
  | cons item items ih =>
    have hw : (if 0x10000 ≤ item.getD Utf16.replacement then 2 else 1) ≤ widthOf item := by
      rw [widthOf, bytes, flatMap_singleton, Utf8.encode]
      split_ifs <;> first | exact le_refl _ | exact le_add_left _ _ | omega
    rw [length_bytes_cons, unitsOf, map_cons, sum_cons]
    exact Nat.add_le_add hw ih

/-- A byte other than the first loses its highest bit. -/
theorem follow_ne (x y : ℕ) :
    (.ofNat ((0x80 ||| x) &&& 0x3F) : UInt8) ≠ .ofNat (0x80 + y % 64) := by
  intro h
  have hle : (0x80 ||| x) &&& 0x3F ≤ 0x3F := and_le_right
  have := congrArg UInt8.toNat h
  simp only [UInt8.toNat_ofNat'] at this
  omega

theorem truncatedSequence_iff (hc : c < 0x110000) (h : room < (Utf8.encode c).length) :
    truncatedSequence c (Utf8.encode c).length room = (Utf8.encode c).take room ↔ room ≤ 1 := by
  rw [Utf8.encode] at h ⊢
  split_ifs at h ⊢ with h1 h2 h3
  · obtain rfl : room = 0 := by simpa using h
    simp [truncatedSequence]
  · obtain rfl | rfl : room = 0 ∨ room = 1 := by simp at h; omega
    · simp [truncatedSequence]
    · simp [truncatedSequence, shiftRight_eq_div_pow, or_c0 (n := c / 64) (by omega)]
  · obtain rfl | rfl | rfl : room = 0 ∨ room = 1 ∨ room = 2 := by simp at h; omega
    · simp [truncatedSequence]
    · simp [truncatedSequence, shiftRight_eq_div_pow, or_e0 (n := c / 4096) (by omega)]
    · exact iff_of_false (fun h => follow_ne _ _ (cons.inj (cons.inj h).2).1) (by decide)
  · obtain rfl | rfl | rfl | rfl : room = 0 ∨ room = 1 ∨ room = 2 ∨ room = 3 := by
      simp at h; omega
    · simp [truncatedSequence]
    · simp [truncatedSequence, shiftRight_eq_div_pow, or_f0 (n := c / 262144) (by omega)]
    · exact iff_of_false (fun h => follow_ne _ _ (cons.inj (cons.inj h).2).1) (by decide)
    · exact iff_of_false (fun h => follow_ne _ _ (cons.inj (cons.inj h).2).1) (by decide)

/-- What the code writes of a character that is cut. -/
def cutCode (item : Option ℕ) (room : ℕ) : List UInt8 :=
  truncatedSequence (item.getD Utf16.replacement) (widthOf item) room

/-- The two ways to cut a text agree where at most one byte is left over. -/
theorem cut_iff (hits : ∀ item ∈ items, item.getD Utf16.replacement < 0x110000) (room : ℕ) :
    cut cutCode room items = cut (fun item room => (bytes [item]).take room) room items ↔
      (cut (fun item room => (bytes [item]).take room) room items).length ≤ 1 := by
  induction items generalizing room with
  | nil => simp [cut]
  | cons item items ih =>
    obtain ⟨him, hits⟩ := forall_mem_cons.1 hits
    rw [cut, cut]
    split_ifs with h
    · exact ih hits _
    · rw [not_le] at h
      rw [length_take_of_le h.le]
      rw [cutCode]
      simp only [widthOf, bytes, flatMap_singleton] at h ⊢
      exact truncatedSequence_iff him h

end Bytes

section Loop

variable {n room i : ℕ} {u : UInt16} {us front rest : List UInt16} {out : List UInt8}

theorem unitsOf_some (c : ℕ) : unitsOf [some c] = if 0x10000 ≤ c then 2 else 1 := sum_singleton

theorem unitsOf_cons (item : Option ℕ) (items : List (Option ℕ)) :
    unitsOf (item :: items) = unitsOf [item] + unitsOf items := by
  simp [unitsOf]

theorem widthOf_le (item : Option ℕ) : widthOf item ≤ 3 * unitsOf [item] := by
  rw [widthOf, bytes, flatMap_singleton, Utf8.encode, unitsOf, map_singleton, sum_singleton]
  split_ifs <;> first | omega | simp

theorem le_pairCodePoint (u t : UInt16) : 0x10000 ≤ pairCodePoint u t := by
  unfold pairCodePoint
  omega

/-- The first character of a text, as the decoder and the code see it. -/
theorem next_character (hus : us ≠ []) : ∃ item, unitDecoder.text none us =
      item :: unitDecoder.text none (us.drop (utf16CodepointWithFFFD us).len)
    ∧ (utf16CodepointWithFFFD us).code_point = item.getD Utf16.replacement
    ∧ (utf16CodepointWithFFFD us).code_point < 0x110000
    ∧ (utf16CodepointWithFFFD us).len = unitsOf [item]
    ∧ (utf16CodepointWithFFFD us).len ≤ us.length := by
  obtain ⟨u, us, rfl⟩ := exists_cons_of_ne_nil hus
  rw [utf16CodepointWithFFFD, getD_cons_zero]
  by_cases hl : IsLead u
  · rcases us with _ | ⟨t, us⟩
    · rw [codepoint_dangling hl]
      refine ⟨none, ?_, rfl, by decide, rfl, le_rfl⟩
      rw [text_cons, step_lead hl]
      rfl
    by_cases ht : IsTrail t
    · have hge := le_pairCodePoint u t
      have hlt := pairCodePoint_lt hl ht
      have hst := step_pair u ht
      rw [codepoint_pair hl ht, text_cons, step_lead hl]
      -- `rfl` would unfold the sum
      obtain ⟨c, hc⟩ : ∃ c, pairCodePoint u t = c := ⟨_, rfl⟩
      rw [hc] at hge hlt hst ⊢
      refine ⟨some c, ?_, rfl, hlt, ((unitsOf_some c).trans (if_pos hge)).symm, by simp⟩
      rw [text_cons, hst]
      rfl
    · obtain ⟨hrun, hrun'⟩ := @run_unpaired t us u ht
      rw [codepoint_lead hl ht]
      refine ⟨none, ?_, rfl, by decide, rfl, by simp⟩
      rw [text_cons, step_lead hl, text, hrun, hrun']
      rfl
  by_cases ht : IsTrail u
  · rw [codepoint_trail ht]
    refine ⟨none, ?_, rfl, by decide, rfl, by simp⟩
    rw [text_cons, step_trail ht]
    rfl
  · have hlt := u.toNat_lt
    rw [codepoint_unit hl ht]
    refine ⟨some u.toNat, ?_, rfl, hlt.trans (by decide),
      ((unitsOf_some _).trans (if_neg hlt.not_ge)).symm, by simp⟩
    rw [text_cons, step_unit hl ht]
    rfl

theorem unitsOf_pos (item : Option ℕ) : 0 < unitsOf [item] := by
  rw [unitsOf, map_singleton, sum_singleton]
  split_ifs <;> decide

theorem decoded_lt (us : List UInt16) : ∀ item ∈ unitDecoder.text none us,
    item.getD Utf16.replacement < 0x110000 := by
  induction hn : us.length using Nat.strong_induction_on generalizing us with
  | _ n ih =>
    by_cases hus : us = []
    · rw [hus]
      exact fun _ h => nomatch h
    obtain ⟨item, hit, hcd, hlt, hlen, hle⟩ := next_character hus
    have := unitsOf_pos item
    rw [hit]
    refine forall_mem_cons.2 ⟨hcd ▸ hlt, ih _ ?_ _ rfl⟩
    rw [length_drop]
    omega

theorem unitsOf_text (us : List UInt16) :
    unitsOf (unitDecoder.text none us) = us.length
      ∧ (bytes (unitDecoder.text none us)).length ≤ 3 * us.length := by
  induction hn : us.length using Nat.strong_induction_on generalizing us with
  | _ n ih =>
    by_cases hus : us = []
    · subst hn hus
      exact ⟨rfl, le_rfl⟩
    obtain ⟨item, hit, -, -, hlen, hle⟩ := next_character hus
    have := unitsOf_pos item
    have hlt : (us.drop (utf16CodepointWithFFFD us).len).length < n := by
      rw [length_drop]
      omega
    obtain ⟨hun, hby⟩ := ih _ hlt _ rfl
    rw [length_drop] at hun hby
    rw [hit, unitsOf_cons, length_bytes_cons, hun]
    have := widthOf_le item
    omega

/-- What is written and what remains, against the characters of the text. -/
def Copied (room : ℕ) (us : List UInt16) (out : List UInt8) (rest : List UInt16) : Prop :=
  let items := unitDecoder.text none us
  out = bytes (fitting room items) ++ cut cutCode room items
    ∧ rest = us.drop (unitsOf (fitting room items)) ∧ unitsOf (fitting room items) ≤ us.length

theorem cutCode_zero (item : Option ℕ) : cutCode item 0 = [] := by
  unfold cutCode truncatedSequence
  split <;> rfl

theorem copied_zero (us : List UInt16) : Copied 0 us [] us := by
  rw [Copied, fitting_zero]
  refine ⟨?_, rfl, Nat.zero_le _⟩
  rcases unitDecoder.text none us with _ | ⟨item, items⟩
  · rfl
  · rw [cut, if_neg (widthOf_pos item).not_ge, cutCode_zero]
    rfl

theorem copied_nil (room : ℕ) : Copied room [] [] [] := ⟨rfl, rfl, le_rfl⟩

theorem length_wtf8Sequence (c : ℕ) : (wtf8Sequence c).length = 4 := by
  rw [wtf8Sequence]
  split_ifs <;> rfl

theorem width_character {item : Option ℕ}
    (h : (utf16CodepointWithFFFD us).code_point = item.getD Utf16.replacement)
    (hlt : (utf16CodepointWithFFFD us).code_point < 0x110000) :
    (wtf8Sequence (utf16CodepointWithFFFD us).code_point).take
        (utf16CodepointWithFFFD us).utf8Width = bytes [item]
      ∧ (utf16CodepointWithFFFD us).utf8Width = widthOf item := by
  generalize utf16CodepointWithFFFD us = r at h hlt ⊢
  have hsq : (wtf8Sequence r.code_point).take r.utf8Width = bytes [item] := by
    rw [wtf8Sequence_eq hlt, h, bytes, flatMap_singleton]
  have hle : r.utf8Width ≤ 4 := by
    rw [UTF16Replacement.utf8Width]
    split_ifs <;> decide
  refine ⟨hsq, ?_⟩
  rw [widthOf, ← hsq, length_take_of_le (by rwa [length_wtf8Sequence])]

/-- A character that fits is written before what the rest of the text gives. -/
theorem copied_character (hus : us ≠ []) (h : (utf16CodepointWithFFFD us).utf8Width ≤ room)
    (hcp : Copied (room - (utf16CodepointWithFFFD us).utf8Width)
      (us.drop (utf16CodepointWithFFFD us).len) out rest) :
    Copied room us ((wtf8Sequence (utf16CodepointWithFFFD us).code_point).take
      (utf16CodepointWithFFFD us).utf8Width ++ out) rest := by
  obtain ⟨item, hit, hcd, hlt, hlen, hle⟩ := next_character hus
  obtain ⟨hsq, hwd⟩ := width_character hcd hlt
  obtain ⟨hout, hrs, hrl⟩ := hcp
  rw [hwd] at h hout hrs hrl
  rw [hlen] at hout hrs hrl hle
  rw [Copied, hit, hsq, hlen, fitting, cut, if_pos h, if_pos h]
  rw [length_drop] at hrl
  refine ⟨?_, ?_, by rw [unitsOf_cons]; omega⟩
  · rw [hout, ← append_assoc, ← bytes_append, singleton_append]
  · rw [hrs, drop_drop]
    exact congrArg us.drop (unitsOf_cons _ _).symm

theorem copied_cut (hus : us ≠ []) (h : room < (utf16CodepointWithFFFD us).utf8Width) :
    Copied room us (truncatedSequence (utf16CodepointWithFFFD us).code_point
      (utf16CodepointWithFFFD us).utf8Width room) us := by
  obtain ⟨item, hit, hcd, hlt, -, -⟩ := next_character hus
  obtain ⟨-, hwd⟩ := width_character hcd hlt
  rw [hwd] at h ⊢
  rw [Copied, hit, fitting, cut, if_neg h.not_ge, if_neg h.not_ge, cutCode, hcd]
  exact ⟨rfl, rfl, Nat.zero_le _⟩

/-- Units of ASCII are copied one by one. -/
theorem copied_ascii (h : ∀ u ∈ front, u.toNat ≤ 127) (hle : front.length ≤ room)
    (hcp : Copied (room - front.length) us out rest) :
    Copied room (front ++ us) (copyU16IntoU8 front ++ out) rest := by
  induction front generalizing room with
  | nil => exact hcp
  | cons u front ih =>
    obtain ⟨hu, hfr⟩ := forall_mem_cons.1 h
    obtain ⟨hl, ht⟩ := not_surrogate_of_ascii hu
    have hcd : utf16CodepointWithFFFD (u :: front ++ us) = { code_point := u.toNat, len := 1 } :=
      codepoint_unit hl ht
    have hwd : (utf16CodepointWithFFFD (u :: front ++ us)).utf8Width = 1 := by
      rw [hcd]
      exact if_pos (by omega)
    have hsq : (wtf8Sequence (utf16CodepointWithFFFD (u :: front ++ us)).code_point).take 1 =
        [u.toUInt8] := by
      rw [hcd, wtf8Sequence, if_pos (by omega)]
      rfl
    have := @copied_character room (u :: front ++ us) rest (copyU16IntoU8 front ++ out)
      (by simp) (by rw [hwd]; exact le_trans (by simp) hle)
      (by
        rw [hwd, hcd]
        rw [length_cons] at hle hcp
        exact ih hfr (by omega) (by rwa [Nat.sub_sub, add_comm 1]))
    rwa [hwd, hsq] at this

theorem copied_take {k : ℕ} (h : ∀ u ∈ us.take k, u.toNat ≤ 127) (hk : k ≤ room)
    (hle : k ≤ us.length) (hcp : Copied (room - k) (us.drop k) out rest) :
    Copied room us (copyU16IntoU8 (us.take k) ++ out) rest := by
  have hlen : (us.take k).length = k := length_take_of_le hle
  have := @copied_ascii room (us.drop k) (us.take k) rest out h (hlen.trans_le hk)
    (by rwa [hlen])
  rwa [take_append_drop] at this

theorem copied_stop (h : min us.length room = 0) : Copied room us [] us := by
  rcases min_eq_zero_iff.1 h with h | h
  · rw [length_eq_zero_iff.1 h]
    exact copied_nil room
  · rw [h]
    exact copied_zero us

/-- Wherever the search for a unit beyond ASCII stops, what lies before is ASCII. -/
theorem ascii_before (h : firstNonASCII16 us = some i) :
    i ≤ us.length ∧ ∀ u ∈ us.take i, u.toNat ≤ 127 := by
  obtain ⟨j, hj, rfl⟩ := Option.map_eq_some_iff.1 h
  obtain ⟨hlt, -, hbf⟩ := findIdx?_eq_some_iff_getElem.1 hj
  have hle : j % 2 ^ 32 ≤ j := mod_le _ _
  refine ⟨hle.trans hlt.le, fun u hu => ?_⟩
  obtain ⟨k, hk, rfl⟩ := mem_take_iff_getElem.1 hu
  simpa using hbf k (by omega)

/-- The loop copies whole characters while they fit. -/
theorem copyUTF16Loop_copied (hn : us.length < n) :
    Copied room us (copyUTF16Loop true n room us).1 (copyUTF16Loop true n room us).2 := by
  induction n generalizing room us with
  | zero => omega
  | succ n ih =>
    rw [copyUTF16Loop]
    rcases hfn : firstNonASCII16 us with _ | i
    · have hall : ∀ u ∈ us, u.toNat ≤ 127 := by
        simpa using findIdx?_eq_none_iff.1 (Option.map_eq_none_iff.1 hfn)
      have hst : Copied (room - min room us.length) (us.drop (min room us.length)) []
          (us.drop (min room us.length)) := copied_stop (by rw [length_drop]; omega)
      have := copied_take (fun u hu => hall u (mem_of_mem_take hu)) (min_le_left _ _)
        (min_le_right _ _) hst
      rwa [append_nil] at this
    obtain ⟨hi, hall⟩ := ascii_before hfn
    have hst : ∀ {out rest}, Copied (room - min i room) (us.drop (min i room)) out rest →
        Copied room us (copyU16IntoU8 (us.take (min i room)) ++ out) rest :=
      copied_take (fun u hu => hall u (take_subset_take_left _ (min_le_left _ _) hu))
        (min_le_right _ _) ((min_le_left _ _).trans hi)
    simp only
    have hus : min (us.drop (min i room)).length (room - min i room) ≠ 0 →
        us.drop (min i room) ≠ [] := by
      rintro h hno
      simp [hno] at h
    split_ifs with hz hw
    · have := hst (copied_stop hz)
      rwa [append_nil] at this
    · exact hst (copied_cut (hus hz) hw)
    · rw [not_lt] at hw
      specialize hus hz
      obtain ⟨item, -, -, -, hlen, hle⟩ := next_character hus
      have := unitsOf_pos item
      refine hst (copied_character hus hw (ih ?_))
      rw [length_drop, length_drop]
      rw [length_drop] at hle
      omega

theorem fitting_of_le {items : List (Option ℕ)} (h : (bytes items).length ≤ room) :
    fitting room items = items ∧ cut cutCode room items = [] := by
  induction items generalizing room with
  | nil => exact ⟨rfl, rfl⟩
  | cons item items ih =>
    rw [length_bytes_cons] at h
    have hle : (bytes items).length ≤ room - widthOf item := by omega
    obtain ⟨hft, hct⟩ := ih hle
    rw [fitting, cut, if_pos (by omega), if_pos (by omega), hft]
    exact ⟨rfl, hct⟩

theorem copied_whole (h : (bytes (unitDecoder.text none us)).length ≤ room) :
    Copied room us (bytes (unitDecoder.text none us)) [] := by
  obtain ⟨hft, hct⟩ := fitting_of_le h
  have hun := (unitsOf_text us).1
  rw [Copied, hft, hct, hun]
  exact ⟨(append_nil _).symm, drop_length.symm, le_rfl⟩

/-- When the copy is right, of what is written and what remains. -/
theorem Copied.copiesText_iff (h : Copied room us out rest) :
    CopiesText room us (out, ⟨(us.length - rest.length) % 2 ^ 32, out.length % 2 ^ 32⟩) ↔
      ((bytes (unitDecoder.text none us)).take room).length ≤
          (bytes (fitting room (unitDecoder.text none us))).length + 1
        ∧ ((bytes (unitDecoder.text none us)).take room).length < 2 ^ 32 := by
  obtain ⟨hout, hrs, hle⟩ := h
  have hrd : us.length - rest.length = unitsOf (fitting room (unitDecoder.text none us)) := by
    rw [hrs, length_drop]
    omega
  have hct := cut_iff (decoded_lt us) room
  have htk := take_bytes room (unitDecoder.text none us)
  have hlen := congrArg length htk
  rw [length_append] at hlen
  rw [CopiesText, hrd]
  dsimp only
  constructor
  · rintro ⟨hcp, -, hwr⟩
    rw [hcp] at hout hwr
    have := hct.1 (append_cancel_left (hout.symm.trans htk))
    omega
  · rintro ⟨hone, hlt⟩
    have hcp : out = take room (bytes (unitDecoder.text none us)) := by
      rw [hout, htk, hct.2 (by omega)]
    have := units_fitting_le room (unitDecoder.text none us)
    rw [hcp]
    exact ⟨rfl, mod_eq_of_lt (by omega), mod_eq_of_lt hlt⟩

theorem after_lead (s : Option UInt16) (us : List UInt16) (hl : IsLead u) :
    unitDecoder.after s (us ++ [u]) = some u := by
  rw [after_append]
  rcases unitDecoder.after s us with _ | l
  · exact congrArg Prod.fst (step_lead hl)
  · rw [(@run_unpaired u [] l fun ht => not_lead_of_trail ht hl).2]
    exact congrArg Prod.fst (step_lead hl)

theorem not_lead_of_valid (h : ValidUnits us) : ¬ ∃ u ∈ us.getLast?, IsLead u := by
  rintro ⟨u, hu, hl⟩
  obtain ⟨front, rfl⟩ := getLast?_eq_some_iff.1 hu
  refine h (mem_append_right _ ?_)
  rw [after_lead none front hl]
  exact mem_singleton_self none

/-- Of a lone lead surrogate nothing is written. -/
theorem copiesText_lone (hl : IsLead u) (room : ℕ) :
    CopiesText room [u] ([], ⟨0, 0⟩) ↔ CutSafely room [u] := by
  have hit : unitDecoder.text none [u] = [none] := by
    rw [text_cons, step_lead hl]
    rfl
  rw [CopiesText, CutSafely, hit]
  rcases room with _ | room
  · simp [fitting_zero, unitsOf]
  · refine iff_of_false (fun h => ?_) (fun h => ?_)
    · have := congrArg length h.1
      simp [Utf8.encode, Utf16.replacement] at this
    · rcases h.1 with h | h
      · exact absurd h (succ_ne_zero room)
      · exact h u rfl hl

end Loop

/-- What the simdutf path and the loop write is right just when the text is no lone lead surrogate
with room for a byte, no character is cut after its second byte or a later one, and less than
`2 ^ 32` bytes fit. -/
theorem copyUTF16IntoUTF8Impl_iff {S : SimdutfLength} (hS : S.Lawful) (room : ℕ)
    (utf16 : List UInt16) :
    CopiesText room utf16 (copyUTF16IntoUTF8Impl S room utf16 true) ↔ CutSafely room utf16 := by
  have htr := hS.trimmed utf16
  rw [copyUTF16IntoUTF8Impl]
  dsimp only
  by_cases hno : utf16.length = 0
  · rw [if_pos hno, length_eq_zero_iff.1 hno]
    simp [CopiesText, CutSafely, unitDecoder, fitting, unitsOf]
  rw [if_neg hno]
  by_cases hlone : (S.trim_partial_utf16le utf16).length = 0
  · rw [if_pos hlone]
    have hld : ∃ u, utf16 = [u] ∧ IsLead u := by
      split_ifs at htr with hlast
      · obtain ⟨u, hu, hl⟩ := hlast
        obtain ⟨front, rfl⟩ := getLast?_eq_some_iff.1 hu
        rw [htr, dropLast_concat, length_eq_zero_iff] at hlone
        exact ⟨u, by rw [hlone, nil_append], hl⟩
      · exact absurd (htr ▸ hlone) hno
    obtain ⟨u, rfl, hl⟩ := hld
    exact copiesText_lone hl room
  rw [if_neg hlone]
  generalize hlen : (if room ≤ (S.trim_partial_utf16le utf16).length * 3 + 2 then
    S.utf8_length_from_utf16le (S.trim_partial_utf16le utf16) else room) = out_len
  have hfit : ValidUnits utf16 → out_len ≤ room →
      (bytes (unitDecoder.text none utf16)).length ≤ room := by
    intro hvl hle
    rw [htr, if_neg (not_lead_of_valid hvl), hS.length utf16 hvl] at hlen
    have := (unitsOf_text utf16).2
    split_ifs at hlen <;> omega
  have hlone : room = 0 ∨ ∀ u, utf16 = [u] → ¬ IsLead u := by
    refine Or.inr ?_
    rintro u rfl hl
    rw [htr, if_pos ⟨u, rfl, hl⟩] at hlone
    exact hlone rfl
  rw [CutSafely, and_iff_right hlone, copyUTF16IntoUTF8WithBufferImpl]
  dsimp only
  split_ifs with hok
  · have hvl := (hS.success utf16).1 hok.2
    rw [hS.converted utf16 hvl]
    exact (copied_whole (hfit hvl hok.1)).copiesText_iff
  · exact (copyUTF16Loop_copied (lt_succ_self _)).copiesText_iff

/-- A valid text that fits is converted as a whole. -/
theorem copyUTF16IntoUTF8Impl_valid {S : SimdutfLength} (hS : S.Lawful) {room : ℕ}
    {utf16 : List UInt16} (h : ValidUnits utf16)
    (hfit : (bytes (unitDecoder.text none utf16)).length ≤ room) :
    ∃ read, copyUTF16IntoUTF8Impl S room utf16 true = (bytes (unitDecoder.text none utf16),
      ⟨read, (bytes (unitDecoder.text none utf16)).length % 2 ^ 32⟩) := by
  have htr := (hS.trimmed utf16).trans (if_neg (not_lead_of_valid h))
  rw [copyUTF16IntoUTF8Impl, htr]
  dsimp only
  rw [hS.length utf16 h]
  by_cases hno : utf16.length = 0
  · rw [if_pos hno, length_eq_zero_iff.1 hno]
    exact ⟨0, rfl⟩
  rw [if_neg hno, if_neg hno, copyUTF16IntoUTF8WithBufferImpl, hS.converted utf16 h]
  exact ⟨_, if_pos ⟨by split_ifs <;> omega, (hS.success utf16).2 h⟩⟩

def referenceLength : SimdutfLength where
  toSimdutfUTF16 := referenceUTF16
  utf8_length_from_utf16le units := (bytes (unitDecoder.text none units)).length
  trim_partial_utf16le units :=
    if ∃ u ∈ units.getLast?, IsLead u then units.dropLast else units

theorem lawful_referenceLength : referenceLength.Lawful where
  toLawful := lawful_referenceUTF16
  length _ _ := rfl
  trimmed _ := rfl

/-- A letter and a surrogate pair fit, and one byte of the euro sign behind them. -/
theorem copiesText_pair :
    CopiesText 6 [0x61, 0xD83D, 0xDE00, 0x20AC]
      (copyUTF16IntoUTF8Impl referenceLength 6 [0x61, 0xD83D, 0xDE00, 0x20AC] true) := by
  refine (copyUTF16IntoUTF8Impl_iff lawful_referenceLength _ _).2 ⟨.inr fun u hu => ?_, ?_, ?_⟩
  · cases hu
  · decide +kernel
  · decide +kernel

/-- A euro sign cut after its second byte. -/
theorem not_copiesText_euro :
    ¬ ∀ (S : SimdutfLength) (room : ℕ) (utf16 : List UInt16), S.Lawful →
      CopiesText room utf16 (copyUTF16IntoUTF8Impl S room utf16 true) := by
  intro h
  have hno : ¬ CutSafely 3 [0x61, 0x20AC] := by
    rintro ⟨-, hone, -⟩
    exact absurd hone (by decide +kernel)
  exact hno ((copyUTF16IntoUTF8Impl_iff lawful_referenceLength _ _).1
    (h referenceLength 3 [0x61, 0x20AC] lawful_referenceLength))

end Cruller.Text
