import Cruller.Lib.Utf8Text
import Cruller.Text.EncodedStreams
import Cruller.JsPrinter.WritePreQuotedString

/-!
# What is printed, character by character

Copying everything up to the next byte that needs an escape prints the characters one by one
(`writePreQuotedString_eq`).
-/

namespace Cruller.JsPrinter

open List Utf8

/-- What is printed for a character before `next`. -/
def printed (o : Options) (c : ℕ) (next : Option ℕ) : List UInt8 :=
  if canPrintWithoutEscape c o.ascii_only then encode c else (writeEscape o c 1 next).1

/-- What a text is printed as. -/
def printedText (o : Options) : List ℕ → List UInt8
  | [] => []
  | c :: cs => printed o c cs.head? ++ printedText o cs

variable {c : ℕ} {p : Fin 4 → ℕ} {cs : List ℕ}

theorem canPrint_ascii {ascii_only : Bool} (h : c ≤ 0x7E) :
    canPrintWithoutEscape c ascii_only = true ↔
      0x20 ≤ c ∧ c ≠ 0x5C ∧ c ≠ 0x22 ∧ c ≠ 0x27 ∧ c ≠ 0x60 ∧ c ≠ 0x24 := by
  rw [canPrintWithoutEscape, if_pos (show c ≤ last_ascii from h), decide_eq_true_iff, first_ascii]

theorem canPrint_other {ascii_only : Bool} (h : 0x7E < c) :
    canPrintWithoutEscape c ascii_only = true ↔ ¬ ascii_only = true ∧ c ≠ 0xFEFF ∧ c ≠ 0x2028
      ∧ c ≠ 0x2029 ∧ (c < 0xD800 ∨ 0xDFFF < c) := by
  rw [canPrintWithoutEscape, if_neg (show ¬ c ≤ last_ascii from not_le.2 h), decide_eq_true_iff,
    first_high_surrogate, last_low_surrogate]

theorem encodeWTF8Rune_eq (h : c < 0x110000) : encodeWTF8Rune c = encode c := by
  have h7 : c < 0x80 ↔ c ≤ 0x7F := by omega
  have h11 : c < 0x800 ↔ c ≤ 0x7FF := by omega
  have h16 : c < 0x10000 ↔ c ≤ 0xFFFF := by omega
  rw [encodeWTF8Rune, encode]
  simp only [h7, h11, h16, Text.continuation, Nat.shiftRight_eq_div_pow]
  split_ifs with h1 h2 h3
  · rfl
  · rw [Text.or_c0 (by omega)]
  · rw [Text.or_e0 (by omega)]
  · rw [Text.or_f0 (by omega)]

/-- The bytes of a code point, as the units of a text. -/
def encodeItems (c : ℕ) : List ℕ := (encode c).map UInt8.toNat

theorem encodeItems_ascii (h : c < 0x80) : encodeItems c = [c] := by
  rw [encodeItems, encode, if_pos h, map_singleton, toNat_ofNat_lt (by omega)]

theorem flatMap_encodeItems_cons (c : ℕ) (cs : List ℕ) :
    (c :: cs).flatMap encodeItems = encodeItems c ++ cs.flatMap encodeItems := rfl

theorem length_encode_pos (c : ℕ) : 0 < (encode c).length := by
  unfold encode
  split_ifs <;> simp

/-- What the masks of the decoder leave of a byte, and the widths of the lead bytes. -/
theorem byte_masks : (∀ n < 64, (0x80 + n) &&& 0xC0 = 0x80 ∧ (0x80 + n) &&& 0x3F = n)
    ∧ ((∀ n < 32, (0xC0 + n) &&& 0x1F = n) ∧ (∀ n < 16, (0xE0 + n) &&& 0x0F = n)
      ∧ ∀ n < 8, (0xF0 + n) &&& 0x07 = n)
    ∧ ∀ b < 256, (0xC0 ≤ b → b < 0xE0 → wtf8ByteSequenceLengthWithInvalid b = 2)
      ∧ (0xE0 ≤ b → b < 0xF0 → wtf8ByteSequenceLengthWithInvalid b = 3)
      ∧ (0xF0 ≤ b → b < 0xF8 → wtf8ByteSequenceLengthWithInvalid b = 4) := by
  decide +kernel

theorem shiftLeft_or {a b i : ℕ} (h : b < 2 ^ i) : a <<< i ||| b = a * 2 ^ i + b := by
  rw [← Nat.shiftLeft_add_eq_or_of_lt h, Nat.shiftLeft_eq]

/-- The bytes of `p` are decoded to the code point that was encoded. -/
theorem decode_two (hlo : 0x80 ≤ c) (hhi : c < 0x800)
    (h0 : p 0 = 0xC0 + c / 64) (h1 : p 1 = 0x80 + c % 64) : decodeWTF8RuneT p 2 0 = c := by
  obtain ⟨hm, hb⟩ := byte_masks.1 (c % 64) (Nat.mod_lt _ (by norm_num))
  have hl := byte_masks.2.1.1 (c / 64) (by omega)
  have hcp : (c / 64) <<< 6 ||| c % 64 = c := by
    rw [shiftLeft_or (i := 6) (by norm_num; omega)]
    omega
  rw [decodeWTF8RuneT, if_neg (by norm_num), if_neg (by norm_num), decodeWTF8RuneTMultibyte, h0, h1,
    if_neg (by simp [hm]), if_pos rfl, hl, hb, hcp]
  exact if_neg (by omega)

theorem decode_three (hlo : 0x800 ≤ c) (hhi : c < 0x10000)
    (h0 : p 0 = 0xE0 + c / 4096) (h1 : p 1 = 0x80 + c / 64 % 64) (h2 : p 2 = 0x80 + c % 64) :
    decodeWTF8RuneT p 3 0 = c := by
  obtain ⟨hm1, hb1⟩ := byte_masks.1 (c / 64 % 64) (Nat.mod_lt _ (by norm_num))
  obtain ⟨hm2, hb2⟩ := byte_masks.1 (c % 64) (Nat.mod_lt _ (by norm_num))
  have hl := byte_masks.2.1.2.1 (c / 4096) (by omega)
  have hcp : (c / 4096) <<< 12 ||| (c / 64 % 64) <<< 6 ||| c % 64 = c := by
    rw [Nat.or_assoc, shiftLeft_or (i := 6) (by norm_num; omega),
      shiftLeft_or (by norm_num; omega)]
    norm_num
    omega
  rw [decodeWTF8RuneT, if_neg (by norm_num), if_neg (by norm_num), decodeWTF8RuneTMultibyte, h0, h1,
    h2, if_neg (by simp [hm1]), if_neg (by norm_num), if_neg (by simp [hm2]), if_pos rfl, hl, hb1,
    hb2, hcp]
  exact if_neg (by omega)

theorem decode_four (hlo : 0x10000 ≤ c) (hhi : c < 0x110000)
    (h0 : p 0 = 0xF0 + c / 262144) (h1 : p 1 = 0x80 + c / 4096 % 64)
    (h2 : p 2 = 0x80 + c / 64 % 64) (h3 : p 3 = 0x80 + c % 64) : decodeWTF8RuneT p 4 0 = c := by
  obtain ⟨hm1, hb1⟩ := byte_masks.1 (c / 4096 % 64) (Nat.mod_lt _ (by norm_num))
  obtain ⟨hm2, hb2⟩ := byte_masks.1 (c / 64 % 64) (Nat.mod_lt _ (by norm_num))
  obtain ⟨hm3, hb3⟩ := byte_masks.1 (c % 64) (Nat.mod_lt _ (by norm_num))
  have hl := byte_masks.2.1.2.2 (c / 262144) (by omega)
  have hcp : (c / 262144) <<< 18 ||| (c / 4096 % 64) <<< 12 ||| (c / 64 % 64) <<< 6 ||| c % 64 =
      c := by
    rw [Nat.or_assoc, Nat.or_assoc, shiftLeft_or (i := 6) (by norm_num; omega),
      shiftLeft_or (i := 12) (by norm_num; omega), shiftLeft_or (by norm_num; omega)]
    norm_num
    omega
  rw [decodeWTF8RuneT, if_neg (by norm_num), if_neg (by norm_num), decodeWTF8RuneTMultibyte, h0, h1,
    h2, h3, if_neg (by simp [hm1]), if_neg (by norm_num), if_neg (by simp [hm2]),
    if_neg (by norm_num), if_neg (by simp [hm3]), hl, hb1, hb2, hb3, hcp]
  exact if_neg (by omega)

/-- A character is read back from its UTF-8 form, with its width, whatever follows. -/
theorem decode_utf8 (hc : Scalar c) (rest : List ℕ) :
    widthOf .utf8 (encodeItems c ++ rest) = (encode c).length
      ∧ codePoint .utf8 (encodeItems c ++ rest) = c := by
  unfold Scalar at hc
  have hwd : widthOf .utf8 (encodeItems c ++ rest) = (encode c).length := by
    unfold widthOf encodeItems encode
    split_ifs with h1 h2 h3
    · simp [toNat_ofNat_lt (show c < 256 by omega), wtf8ByteSequenceLengthWithInvalid, h1]
    · have hlt : 0xC0 + c / 64 < 256 := by omega
      rw [map_cons, cons_append, headD_cons, toNat_ofNat_lt hlt]
      exact (byte_masks.2.2 _ hlt).1 (by omega) (by omega)
    · have hlt : 0xE0 + c / 4096 < 256 := by omega
      rw [map_cons, cons_append, headD_cons, toNat_ofNat_lt hlt]
      exact (byte_masks.2.2 _ hlt).2.1 (by omega) (by omega)
    · have hlt : 0xF0 + c / 262144 < 256 := by omega
      rw [map_cons, cons_append, headD_cons, toNat_ofNat_lt hlt]
      exact (byte_masks.2.2 _ hlt).2.2 (by omega) (by omega)
  refine ⟨hwd, ?_⟩
  have htk : (encodeItems c ++ rest).take
      (min (encode c).length (encodeItems c ++ rest).length) = encodeItems c := by
    have hlen : (encodeItems c).length = (encode c).length := length_map _
    rw [length_append, hlen, min_eq_left (by omega), ← hlen, take_left]
  simp only [codePoint, hwd, htk]
  unfold encodeItems encode
  split_ifs with h1 h2 h3
  · simp [decodeWTF8RuneT, toNat_ofNat_lt (show c < 256 by omega)]
  · refine decode_two (by omega) h2 ?_ ?_
    · exact toNat_ofNat_lt (by omega)
    · exact toNat_ofNat_lt (by omega)
  · refine decode_three (by omega) h3 ?_ ?_ ?_
    all_goals exact toNat_ofNat_lt (by omega)
  · refine decode_four (by omega) (by omega) ?_ ?_ ?_ ?_
    all_goals exact toNat_ofNat_lt (by omega)

variable (o : Options)

theorem writeEscape_fst (c width width' : ℕ) (next : Option ℕ) :
    (writeEscape o c width next).1 = (writeEscape o c width' next).1 := by
  unfold writeEscape
  split <;> rfl

theorem writeEscape_snd {width : ℕ} (h : c < 0x80 → width = 1) (next : Option ℕ) :
    (writeEscape o c width next).2 = width := by
  unfold writeEscape
  split
  all_goals first | rfl | exact (h (by norm_num)).symm

theorem writeEscape_next (c width : ℕ) {next next' : Option ℕ}
    (h : next = some 0x7B ↔ next' = some 0x7B) :
    (writeEscape o c width next).1 = (writeEscape o c width next').1 := by
  unfold writeEscape
  split
  all_goals first | rfl | simp only [h]

theorem head_encodeItems (hcs : ∀ c ∈ cs, c < 0x110000) :
    (cs.flatMap encodeItems).head? = some 0x7B ↔ cs.head? = some 0x7B := by
  cases cs with
  | nil => simp
  | cons c cs =>
    have hc := hcs c (by simp)
    rw [flatMap_encodeItems_cons, head?_cons, Option.some.injEq]
    by_cases hac : c < 0x80
    · simp [encodeItems_ascii hac]
    · -- the first byte of another character is not ASCII
      unfold encodeItems encode
      rw [if_neg hac]
      split_ifs <;> simp <;> omega

theorem printed_plain (h : needsEscape o.quote_char c = false) (next : Option ℕ) :
    c < 0x80 ∧ printed o c next = [.ofNat c] := by
  simp only [needsEscape, decide_eq_false_iff_not, not_or, not_and] at h
  obtain ⟨h1, h2, h3, h4, h5⟩ := h
  refine ⟨by omega, ?_⟩
  unfold printed
  split
  · rw [encode, if_pos (by omega)]
  · rename_i hpr
    have hsp : c = 0x22 ∨ c = 0x27 ∨ c = 0x60 ∨ c = 0x24 := by
      by_contra hno
      apply hpr
      rw [canPrint_ascii (by omega)]
      omega
    rcases hsp with rfl | rfl | rfl | rfl
    · have hq : o.quote_char ≠ .double := fun hq => h4 (by rw [hq]; rfl)
      simp [writeEscape, hq]
    · have hq : o.quote_char ≠ .single := fun hq => h4 (by rw [hq]; rfl)
      simp [writeEscape, hq]
    · have hq : o.quote_char ≠ .backtick := fun hq => h4 (by rw [hq]; rfl)
      simp [writeEscape, hq]
    · have hq : o.quote_char ≠ .backtick := fun hq => h5 hq rfl
      simp [writeEscape, hq, byte]

/-- Bytes that need no escape are printed as they are, and the text goes on behind them. -/
theorem copy_plain (m : ℕ) (hcs : ∀ c ∈ cs, c < 0x110000)
    (h : ∀ x ∈ (cs.flatMap encodeItems).take m, needsEscape o.quote_char x = false) :
    ∃ back, back <:+ cs ∧ (cs.flatMap encodeItems).drop m = back.flatMap encodeItems
      ∧ printedText o cs =
        ((cs.flatMap encodeItems).take m).map .ofNat ++ printedText o back := by
  induction m generalizing cs with
  | zero => exact ⟨cs, suffix_rfl, rfl, rfl⟩
  | succ m ih =>
    cases cs with
    | nil => exact ⟨[], suffix_rfl, rfl, rfl⟩
    | cons c cs =>
      have hc := hcs c (by simp)
      have hac : c < 0x80 := by
        by_contra hlr
        -- the first byte of a character that is not ASCII needs an escape
        have hfr : ∃ b bs, encodeItems c = b :: bs ∧ 127 ≤ b := by
          unfold encodeItems encode
          rw [if_neg hlr]
          split_ifs
          all_goals
            refine ⟨_, _, rfl, ?_⟩
            rw [UInt8.toNat_ofNat']
            omega
        obtain ⟨b, bs, hb, hlt⟩ := hfr
        rw [flatMap_encodeItems_cons, hb] at h
        have hpl := h b (by simp)
        simp [needsEscape, hlt] at hpl
      rw [flatMap_encodeItems_cons, encodeItems_ascii hac] at h ⊢
      have hpr := (printed_plain o (h c (by simp)) cs.head?).2
      obtain ⟨back, hbc, hdr, hrs⟩ :=
        ih (fun d hd => hcs d (mem_cons_of_mem _ hd)) fun x hx => h x (by simp [hx])
      refine ⟨back, hbc.trans (suffix_cons _ _), hdr, ?_⟩
      rw [printedText, hpr, hrs]
      rfl

theorem indexOfNeedsEscape_some {slice : List ℕ} {q : Quote} {j : ℕ}
    (h : indexOfNeedsEscapeForJavaScriptString slice q = some j) :
    ∀ x ∈ slice.take j, needsEscape q x = false := by
  obtain ⟨k, hk, rfl⟩ := Option.map_eq_some_iff.1 h
  obtain ⟨hlt, -, hbf⟩ := findIdx?_eq_some_iff_getElem.1 hk
  intro x hx
  obtain ⟨i, hi, rfl⟩ := mem_take_iff_getElem.1 hx
  have hmod := Nat.mod_le k (2 ^ 32)
  simpa using hbf i (by omega)

theorem indexOfNeedsEscape_none {slice : List ℕ} {q : Quote}
    (h : indexOfNeedsEscapeForJavaScriptString slice q = none) :
    ∀ x ∈ slice, needsEscape q x = false := by
  rw [indexOfNeedsEscapeForJavaScriptString, Option.map_eq_none_iff, findIdx?_eq_none_iff] at h
  exact h

section Rounds

variable {o} {encoding : Encoding} {n : ℕ} {text : List ℕ}

abbrev clampedWidth (encoding : Encoding) (text : List ℕ) : ℕ :=
  min (widthOf encoding text) text.length

theorem writeFrom_escape (hne : text ≠ [])
    (hpr : canPrintWithoutEscape (codePoint encoding text) o.ascii_only = false) :
    writeFrom encoding o (n + 1) text =
      (writeEscape o (codePoint encoding text) (widthOf encoding text)
        (text.drop (clampedWidth encoding text)).head?).1 ++
      writeFrom encoding o n (text.drop (writeEscape o (codePoint encoding text)
        (widthOf encoding text) (text.drop (clampedWidth encoding text)).head?).2) := by
  obtain ⟨unit, units, rfl⟩ := exists_cons_of_ne_nil hne
  rw [writeFrom.eq_def]
  dsimp only
  rw [if_neg (by simp [hpr])]

theorem writeFrom_unit (henc : encoding = .latin1 ∨ encoding = .utf16) (hne : text ≠ [])
    (hpr : canPrintWithoutEscape (codePoint encoding text) o.ascii_only = true) :
    writeFrom encoding o (n + 1) text = encodeWTF8Rune (codePoint encoding text) ++
      writeFrom encoding o n (text.drop (clampedWidth encoding text)) := by
  obtain ⟨unit, units, rfl⟩ := exists_cons_of_ne_nil hne
  rw [writeFrom.eq_def]
  dsimp only
  rw [if_pos hpr]
  rcases henc with rfl | rfl <;> rfl

theorem writeFrom_copy (henc : encoding = .ascii ∨ encoding = .utf8) (hne : text ≠ [])
    (hpr : canPrintWithoutEscape (codePoint encoding text) o.ascii_only = true) :
    writeFrom encoding o (n + 1) text =
      match indexOfNeedsEscapeForJavaScriptString (text.drop (clampedWidth encoding text))
          o.quote_char with
      | some j =>
        (text.take (clampedWidth encoding text)).map .ofNat ++
          ((text.drop (clampedWidth encoding text)).take j).map .ofNat ++
          writeFrom encoding o n ((text.drop (clampedWidth encoding text)).drop j)
      | none => text.map .ofNat := by
  obtain ⟨unit, units, rfl⟩ := exists_cons_of_ne_nil hne
  rw [writeFrom.eq_def]
  dsimp only
  rw [if_pos hpr]
  rcases henc with rfl | rfl <;> rfl

end Rounds

theorem writeFrom_units {encoding : Encoding} (henc : encoding = .latin1 ∨ encoding = .utf16)
    {n : ℕ} {units : List ℕ} (hun : ∀ u ∈ units, u < 0x10000) (hn : units.length < n) :
    writeFrom encoding o n units = printedText o units := by
  induction n generalizing units with
  | zero => omega
  | succ n ih =>
    cases units with
    | nil => rfl
    | cons u units =>
      have hu := hun u (by simp)
      have hwd : widthOf encoding (u :: units) = 1 := by rcases henc with rfl | rfl <;> rfl
      have hcl : clampedWidth encoding (u :: units) = 1 := by simp [hwd]
      have hc : codePoint encoding (u :: units) = u := by rcases henc with rfl | rfl <;> rfl
      have hrs := ih (fun v hv => hun v (mem_cons_of_mem _ hv))
        (Nat.lt_of_succ_lt_succ hn)
      rw [printedText, printed]
      by_cases hpr : canPrintWithoutEscape u o.ascii_only = true
      · rw [if_pos hpr, writeFrom_unit henc (by simp) (by rwa [hc]), hcl, hc,
          encodeWTF8Rune_eq (by omega), ← hrs]
        rfl
      · rw [if_neg hpr, writeFrom_escape (by simp) (by rwa [hc, ← Bool.not_eq_true]), hcl,
          hwd, hc, writeEscape_snd o (fun _ => rfl), ← hrs]
        rfl

/-- A text that is read character by character. -/
theorem writeFrom_bytes {encoding : Encoding} (henc : encoding = .ascii ∨ encoding = .utf8)
    {n : ℕ} (hsc : ∀ c ∈ cs, Scalar c)
    (hac : encoding = .ascii → ∀ c ∈ cs, c < 0x80) (hn : (cs.flatMap encodeItems).length < n) :
    writeFrom encoding o n (cs.flatMap encodeItems) = printedText o cs := by
  induction n generalizing cs with
  | zero => omega
  | succ n ih =>
    cases cs with
    | nil => rfl
    | cons c cs =>
      have hc := hsc c (by simp)
      have hlr : ∀ d ∈ c :: cs, d < 0x110000 := fun d hd => by
        have := hsc d hd
        unfold Scalar at this
        omega
      have hlr' : ∀ d ∈ cs, d < 0x110000 := fun d hd => hlr d (mem_cons_of_mem _ hd)
      have hlen : (encodeItems c).length = (encode c).length := length_map _
      have hpos := length_encode_pos c
      rw [flatMap_encodeItems_cons] at hn ⊢
      have hne : encodeItems c ++ cs.flatMap encodeItems ≠ [] := by
        refine append_ne_nil_of_left_ne_nil (ne_nil_of_length_pos ?_) _
        omega
      have hrd : widthOf encoding (encodeItems c ++ cs.flatMap encodeItems) = (encode c).length
          ∧ codePoint encoding (encodeItems c ++ cs.flatMap encodeItems) = c := by
        rcases henc with rfl | rfl
        · have hc' := hac rfl c (by simp)
          rw [encodeItems_ascii hc', encode, if_pos hc']
          exact ⟨rfl, rfl⟩
        · exact decode_utf8 hc _
      obtain ⟨hwd, hcd⟩ := hrd
      have hcl : clampedWidth encoding (encodeItems c ++ cs.flatMap encodeItems) =
          (encodeItems c).length := by
        rw [clampedWidth, hwd, length_append, hlen]
        omega
      rw [length_append] at hn
      have hbc {back : List ℕ} (h : back <:+ cs) (hlt : (back.flatMap encodeItems).length < n) :
          writeFrom encoding o n (back.flatMap encodeItems) = printedText o back :=
        ih (fun d hd => hsc d (mem_cons_of_mem _ (h.subset hd)))
          (fun he d hd => hac he d (mem_cons_of_mem _ (h.subset hd))) hlt
      have hown : (encodeItems c).map UInt8.ofNat = encode c := by
        simp [encodeItems, Function.comp_def]
      rw [printedText, printed]
      by_cases hpn : canPrintWithoutEscape c o.ascii_only = true
      · rw [if_pos hpn, writeFrom_copy henc hne (by rwa [hcd]), hcl, drop_left,
          take_left]
        rcases hidx : indexOfNeedsEscapeForJavaScriptString (cs.flatMap encodeItems) o.quote_char
          with _ | j
        · obtain ⟨back, hsf, hdr, hpr⟩ := copy_plain o (cs.flatMap encodeItems).length
            hlr' (by rw [take_length]; exact indexOfNeedsEscape_none hidx)
          rw [drop_length] at hdr
          have hnil : back = [] := by
            cases back with
            | nil => rfl
            | cons d back =>
              have hd := length_encode_pos d
              have := congrArg List.length hdr
              simp [encodeItems] at this
              omega
          rw [take_length] at hpr
          dsimp only
          rw [hpr, hnil, map_append, hown]
          simp [printedText]
        · obtain ⟨back, hsf, hdr, hpr⟩ := copy_plain o j hlr'
            (indexOfNeedsEscape_some hidx)
          have hlt : (back.flatMap encodeItems).length < n := by
            rw [← hdr, length_drop]
            omega
          dsimp only
          rw [hdr, hbc hsf hlt, hpr, hown, append_assoc]
      · have hsm : c < 0x80 → (encode c).length = 1 := fun h => by
          rw [encode, if_pos h]
          rfl
        rw [if_neg hpn, writeFrom_escape hne (by rwa [hcd, ← Bool.not_eq_true]), hcl,
          drop_left, hcd, hwd, writeEscape_snd o hsm, ← hlen, drop_left,
          hbc suffix_rfl (by omega)]
        rw [writeEscape_next o c _ (head_encodeItems hlr'), writeEscape_fst o c _ 1]

namespace Text

/-- The bytes are of the encoding. -/
def WellFormed : Text → Prop
  | ascii bytes => ∀ b ∈ bytes, b.toNat < 0x80
  | utf8 bytes => none ∉ decoder.text none bytes
  | latin1 _ => True
  | utf16 _ => True

/-- The text in UTF-16. -/
def units : Text → List UInt16
  | ascii bytes | latin1 bytes => bytes.map UInt8.toUInt16
  | utf8 bytes => Utf16.units (decoder.text none bytes)
  | utf16 units => units

/-- The characters of a text: code points, or the units that it is written by. -/
def characters : Text → List ℕ
  | utf8 bytes => (decoder.text none bytes).filterMap id
  | text => text.items

theorem flatMap_encode_units (us : List UInt16) :
    (us.map UInt16.toNat).flatMap Utf16.encode = us := by
  induction us with
  | nil => rfl
  | cons u us ih => rw [map_cons, flatMap_cons, Utf16.encode_unit, ih]; rfl

theorem flatMap_encode_bytes (bs : List UInt8) :
    (bs.map UInt8.toNat).flatMap Utf16.encode = bs.map UInt8.toUInt16 := by
  have h := flatMap_encode_units (bs.map UInt8.toUInt16)
  rwa [map_map] at h

theorem units_eq {text : Text} (h : text.WellFormed) :
    text.units = text.characters.flatMap Utf16.encode := by
  cases text with
  | ascii bytes | latin1 bytes => exact (flatMap_encode_bytes _).symm
  | utf16 units => exact (flatMap_encode_units _).symm
  | utf8 bytes =>
    obtain ⟨cs, hcs, rfl⟩ := exists_scalars_of_valid h
    simp [units, characters, text_flatMap_encode hcs, Utf16.units, flatMap_map]

theorem characters_lt {text : Text} (h : text.WellFormed) :
    ∀ c ∈ text.characters, c < 0x110000 := by
  cases text with
  | ascii bytes | latin1 bytes =>
    intro c hc
    obtain ⟨b, -, rfl⟩ := mem_map.1 hc
    have := b.toNat_lt
    omega
  | utf16 units =>
    intro c hc
    obtain ⟨u, -, rfl⟩ := mem_map.1 hc
    have := u.toNat_lt
    omega
  | utf8 bytes =>
    obtain ⟨cs, hcs, rfl⟩ := exists_scalars_of_valid h
    intro c hc
    have hsc : Scalar c := hcs c (by simpa [characters, text_flatMap_encode hcs] using hc)
    unfold Scalar at hsc
    omega

end Text

/-- The loop prints the characters of the text one by one. -/
theorem writePreQuotedString_eq {text : Text} (h : text.WellFormed) :
    writePreQuotedString o text = printedText o text.characters := by
  cases text with
  | latin1 bytes =>
    refine writeFrom_units o (Or.inl rfl) (fun u hu => ?_) (Nat.lt_succ_self _)
    obtain ⟨b, -, rfl⟩ := mem_map.1 hu
    have := b.toNat_lt
    omega
  | utf16 units =>
    refine writeFrom_units o (Or.inr rfl) (fun u hu => ?_) (Nat.lt_succ_self _)
    obtain ⟨v, -, rfl⟩ := mem_map.1 hu
    exact v.toNat_lt
  | ascii bytes =>
    have hac : ∀ c ∈ bytes.map UInt8.toNat, c < 0x80 := fun c hc => by
      obtain ⟨b, hb, rfl⟩ := mem_map.1 hc
      exact h b hb
    have hsm : (bytes.map UInt8.toNat).flatMap encodeItems = bytes.map UInt8.toNat := by
      induction bytes with
      | nil => rfl
      | cons b bs ih =>
        rw [map_cons, flatMap_encodeItems_cons, encodeItems_ascii (hac _ (by simp)),
          ih (fun b hb => h b (mem_cons_of_mem _ hb))
            fun c hc => hac c (mem_cons_of_mem _ hc)]
        rfl
    have hsc : ∀ c ∈ bytes.map UInt8.toNat, Scalar c := fun c hc =>
      Or.inl ((hac c hc).trans (by norm_num))
    have hwr := writeFrom_bytes o (Or.inl rfl) hsc (fun _ => hac) (Nat.lt_succ_self _)
    rw [hsm] at hwr
    exact hwr
  | utf8 bytes =>
    obtain ⟨cs, hcs, rfl⟩ := exists_scalars_of_valid h
    have him : (cs.flatMap encode).map UInt8.toNat = cs.flatMap encodeItems := by
      rw [map_flatMap]
      rfl
    have hch : (Text.utf8 (cs.flatMap encode)).characters = cs := by
      simp [Text.characters, text_flatMap_encode hcs]
    have hwr := writeFrom_bytes o (Or.inr rfl) (n := (cs.flatMap encodeItems).length + 1) hcs
      nofun (Nat.lt_succ_self _)
    rw [hch, writePreQuotedString, Text.items, him]
    exact hwr

end Cruller.JsPrinter
