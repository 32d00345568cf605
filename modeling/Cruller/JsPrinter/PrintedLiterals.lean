import Cruller.Lib.StringLiteral
import Cruller.JsPrinter.PrintedText

/-!
# What the printed literal means

Each character is printed as items of the literal that stand for it (`value_points`), but for U+0007
and U+000B in JSON, whose escapes JSON does not have. So the literal means the text exactly where
the text of a JSON string has neither of them (`writePreQuotedString_means_iff`).
-/

namespace Cruller.JsPrinter

open List Nat Utf8 Literal

variable (o : Options)

def Options.literal : Literal :=
  if o.json then .json
  else
    match o.quote_char with
    | .backtick => .template
    | quote => .string quote.char

/-- What one character is printed as. -/
def points (c : ℕ) (next : Option ℕ) : List ℕ :=
  if canPrintWithoutEscape c o.ascii_only then [c]
  else (writeEscape o c 1 next).1.map UInt8.toNat

def pointsOf : List ℕ → List ℕ
  | [] => []
  | c :: cs => points o c cs.head? ++ pointsOf cs

theorem hex_char_lt {k : ℕ} (hk : k < 16) : (hex_char k).toNat < 0x80 := by
  revert k
  decide

theorem and_0xF (n : ℕ) : n &&& 0xF = n % 16 := and_two_pow_sub_one_eq_mod n 4

theorem hexEscape_lt (k : ℕ) : ∀ b ∈ hexEscape k, b.toNat < 0x80 := by
  have hlt (n : ℕ) : (hex_char (n &&& 0xF)).toNat < 0x80 := hex_char_lt (by rw [and_0xF]; omega)
  simp only [hexEscape, forall_mem_cons]
  exact ⟨by decide, by decide, hlt _, hlt _, hlt _, hlt _, nofun⟩

theorem lt_of_all {bytes : List UInt8} (h : bytes.all (fun b => decide (b.toNat < 0x80)) = true) :
    ∀ b ∈ bytes, b.toNat < 0x80 :=
  fun b hb => of_decide_eq_true (all_eq_true.1 h b hb)

theorem writeEscape_lt (c width : ℕ) (next : Option ℕ) :
    ∀ b ∈ (writeEscape o c width next).1, b.toNat < 0x80 := by
  have hlt (n : ℕ) : (hex_char (n &&& 0xF)).toNat < 0x80 := hex_char_lt (by rw [and_0xF]; omega)
  unfold writeEscape
  split
  case h_13 =>
    dsimp only
    split_ifs
    · simp only [forall_mem_cons]
      exact ⟨by decide, by decide, hlt _, hlt _, nofun⟩
    · exact hexEscape_lt c
    · intro b hb
      rcases mem_append.1 hb with hb | hb
      · exact hexEscape_lt _ b hb
      · exact hexEscape_lt _ b hb
  all_goals
    dsimp only
    first | exact lt_of_all rfl | (split_ifs <;> exact lt_of_all rfl)

theorem flatMap_points (c : ℕ) (next : Option ℕ) :
    (points o c next).flatMap encode = printed o c next := by
  unfold points printed
  split_ifs
  · simp
  · have hac := writeEscape_lt o c 1 next
    generalize (writeEscape o c 1 next).1 = bs at hac
    induction bs with
    | nil => rfl
    | cons b bs ih =>
      rw [map_cons, flatMap_cons, ih fun d hd => hac d (mem_cons_of_mem _ hd),
        encode, if_pos (hac b (by simp)), UInt8.ofNat_toNat]
      rfl

theorem flatMap_pointsOf (cs : List ℕ) : (pointsOf o cs).flatMap encode = printedText o cs := by
  induction cs with
  | nil => rfl
  | cons c cs ih => rw [pointsOf, List.flatMap_append, flatMap_points, ih, printedText]

variable {c v : ℕ} {cs rest : List ℕ}

theorem scalar_points (hc : c < 0x110000) (next : Option ℕ) :
    ∀ p ∈ points o c next, Scalar p := by
  unfold points
  split_ifs with hpr
  · rintro p (_ | ⟨_, ⟨⟩⟩)
    unfold Scalar
    rcases le_or_gt c 0x7E with hac | hot
    · omega
    · obtain ⟨-, -, -, -, hsr⟩ := (canPrint_other hot).1 hpr
      omega
  · intro p hp
    obtain ⟨b, hb, rfl⟩ := mem_map.1 hp
    have := writeEscape_lt o c 1 next b hb
    exact Or.inl (by omega)

theorem scalar_pointsOf (hcs : ∀ c ∈ cs, c < 0x110000) :
    ∀ p ∈ pointsOf o cs, Scalar p := by
  induction cs with
  | nil => simp [pointsOf]
  | cons c cs ih =>
    intro p hp
    rcases mem_append.1 hp with hp | hp
    · exact scalar_points o (hcs c (by simp)) _ p hp
    · exact ih (fun d hd => hcs d (mem_cons_of_mem _ hd)) p hp

theorem meaning_printedText (hcs : ∀ c ∈ cs, c < 0x110000) :
    meaning o.literal (printedText o cs) = value o.literal (pointsOf o cs) := by
  rw [← flatMap_pointsOf, meaning_encode (scalar_pointsOf o hcs)]

/-- U+0007 and U+000B in JSON. -/
def Unprintable (c : ℕ) : Prop := o.json = true ∧ (c = 0x07 ∨ c = 0x0B)

instance (c : ℕ) : Decidable (Unprintable o c) := inferInstanceAs (Decidable (_ ∧ _))

theorem literal_cases : o.literal = .json ∧ o.json = true ∧ o.quote_char = .double
    ∨ o.literal = .template ∧ o.json = false ∧ o.quote_char = .backtick
    ∨ o.literal = .string o.quote_char.char ∧ o.json = false ∧ o.quote_char ≠ .backtick := by
  unfold Options.literal
  cases hj : o.json
  · cases hq : o.quote_char <;> simp
  · simp [o.json_quote hj]

theorem item_plain (h : canPrintWithoutEscape c o.ascii_only = true) (rest : List ℕ) :
    item o.literal c rest = some (Utf16.encode c, 0) := by
  have hc : 0x20 ≤ c ∧ c ≠ 0x5C ∧ c ≠ 0x22 ∧ c ≠ 0x27 ∧ c ≠ 0x60 ∧ c ≠ 0x24 := by
    rcases le_or_gt c 0x7E with hac | hot
    · exact (canPrint_ascii hac).1 h
    · omega
  obtain ⟨hlo, hsl, hdb, hsn, hbc, hdl⟩ := hc
  rcases literal_cases o with ⟨hl, -, -⟩ | ⟨hl, -, -⟩ | ⟨hl, -, hq⟩
  · rw [hl, item, if_neg (by omega), if_neg hsl]
  · rw [hl, item, if_neg (by omega), if_neg hsl, if_neg (by omega)]
  · have hqt : c ≠ o.quote_char.char := by
      cases h : o.quote_char
      · exact hsn
      · exact hdb
      · exact absurd h hq
    rw [hl, item, if_neg (by omega), if_neg hsl]

theorem hexDigit_hex_char {k : ℕ} (hk : k < 16) : hexDigit (hex_char k).toNat = some k := by
  revert k
  decide

theorem item_backslash (cs : List ℕ) :
    item o.literal 0x5C cs = if o.json then jsonEscape cs else Literal.escape cs := by
  rcases literal_cases o with ⟨hl, hj, -⟩ | ⟨hl, hj, -⟩ | ⟨hl, hj, -⟩
  · rw [hl, hj]
    rfl
  · rw [hl, hj, item, if_neg (by omega)]
    rfl
  · have hqt : (0x5C : ℕ) ≠ o.quote_char.char := by cases o.quote_char <;> decide
    rw [hl, hj, item, if_neg (by omega)]
    rfl

theorem value_letter {e : ℕ} (hes : ∀ es, Literal.escape (e :: es) = some (Utf16.encode v, 1))
    (hjs : o.json = true → ∀ es, jsonEscape (e :: es) = some (Utf16.encode v, 1))
    (rest : List ℕ) :
    value o.literal (0x5C :: e :: rest) = (value o.literal rest).map (Utf16.encode v ++ ·) := by
  refine value_item [e] ?_
  rw [item_backslash, cons_append]
  split_ifs with hj
  · exact hjs hj _
  · exact hes _

theorem hexDigit_and_0xF (n : ℕ) : hexDigit (hex_char (n &&& 0xF)).toNat = some (n % 16) := by
  rw [and_0xF]
  exact hexDigit_hex_char (mod_lt _ (by norm_num))

theorem value_hexEscape (hv : v < 0x10000) (rest : List ℕ) :
    value o.literal ((hexEscape v).map UInt8.toNat ++ rest) =
      (value o.literal rest).map ([.ofNat v] ++ ·) := by
  have hvl := hexDigits_four (hexDigit_and_0xF (v >>> 12)) (hexDigit_and_0xF (v >>> 8))
    (hexDigit_and_0xF (v >>> 4)) (hexDigit_and_0xF v) rest
  have hsum : (((v >>> 12) % 16 * 16 + (v >>> 8) % 16) * 16 + (v >>> 4) % 16) * 16 + v % 16 = v := by
    omega
  rw [hsum] at hvl
  refine value_item (c := 0x5C) [0x75, (hex_char (v >>> 12 &&& 0xF)).toNat,
    (hex_char (v >>> 8 &&& 0xF)).toNat, (hex_char (v >>> 4 &&& 0xF)).toNat,
    (hex_char (v &&& 0xF)).toNat] ?_
  have hbr : (hex_char (v >>> 12 &&& 0xF)).toNat ≠ 0x7B := by
    have : ∀ k < 16, (hex_char k).toNat ≠ 0x7B := by decide
    exact this _ (by rw [and_0xF]; omega)
  rw [item_backslash]
  split_ifs
  · simp [jsonEscape, hvl]
  · simp [Literal.escape, hvl, hbr]

theorem value_byteEscape (hj : o.json = false) (hv : v ≤ 0xFF) (rest : List ℕ) :
    value o.literal (0x5C :: 0x78 :: (hex_char (v >>> 4 &&& 0xF)).toNat ::
      (hex_char (v &&& 0xF)).toNat :: rest) =
        (value o.literal rest).map ([.ofNat v] ++ ·) := by
  have hvl := hexDigits_two (hexDigit_and_0xF (v >>> 4)) (hexDigit_and_0xF v) rest
  have hsum : (v >>> 4) % 16 * 16 + v % 16 = v := by
    omega
  rw [hsum] at hvl
  refine value_item [0x78, (hex_char (v >>> 4 &&& 0xF)).toNat,
    (hex_char (v &&& 0xF)).toNat] ?_
  rw [item_backslash, hj]
  simp [Literal.escape, hvl]

theorem Quote.char_ne {q q' : Quote} (h : ¬ q = q') : q'.char ≠ q.char := by
  cases q <;> cases q' <;> first | exact absurd rfl h | decide

theorem value_raw (hsl : c ≠ 0x5C)
    (hlow : 0x20 ≤ c ∨ o.quote_char = .backtick ∧ c ≠ 0x0D) (hqt : c ≠ o.quote_char.char)
    (hbr : o.quote_char = .backtick → c = 0x24 → rest.head? ≠ some 0x7B) :
    value o.literal (c :: rest) = (value o.literal rest).map (Utf16.encode c ++ ·) := by
  refine value_item [] ?_
  rcases literal_cases o with ⟨hl, -, hq⟩ | ⟨hl, -, hq⟩ | ⟨hl, -, hq⟩
  · rw [hq] at hlow hqt
    have hdb : c ≠ 0x22 := hqt
    have hlow' : 0x20 ≤ c := hlow.resolve_right (by simp)
    rw [hl, item, if_neg (by omega), if_neg hsl]
    rfl
  · rw [hq] at hqt
    have hbc : c ≠ 0x60 := hqt
    have hrt : c ≠ 0x0D := by omega
    rw [hl, item, if_neg (by
      rintro (h | ⟨h, h'⟩)
      · exact hbc h
      · exact hbr hq h h'), if_neg hsl, if_neg hrt]
    rfl
  · have hlow' : 0x20 ≤ c := hlow.resolve_right fun h => hq h.1
    rw [hl, item, if_neg (by omega), if_neg hsl]
    rfl

/-- What is printed for a character means the character. -/
theorem value_points {next : Option ℕ} (hc : c < 0x110000)
    (hgd : ¬ Unprintable o c) (hbr : next ≠ some 0x7B → rest.head? ≠ some 0x7B) :
    value o.literal (points o c next ++ rest) =
      (value o.literal rest).map (Utf16.encode c ++ ·) := by
  have hjs (h : c = 0x07 ∨ c = 0x0B) : o.json = false := by
    by_contra hj
    exact hgd ⟨by simpa using hj, h⟩
  have hjn (h : o.quote_char ≠ .double) : o.json = false := by
    by_contra hj
    exact h (o.json_quote (by simpa using hj))
  unfold points
  split_ifs with hpr
  · have hpl := item_plain o hpr rest
    exact value_item [] hpl
  · unfold writeEscape
    split
    · exact value_byteEscape o (hjs (Or.inl rfl)) (v := 0x07) (by norm_num) rest
    · exact value_letter o (v := 0x08) (fun _ => rfl) (fun _ _ => rfl) rest
    · exact value_letter o (v := 0x0C) (fun _ => rfl) (fun _ _ => rfl) rest
    · dsimp only
      split_ifs with hq
      · exact value_raw o (c := 0x0A) (by norm_num) (Or.inr ⟨hq, by norm_num⟩) (by rw [hq]; decide)
          (by norm_num)
      · exact value_letter o (v := 0x0A) (fun _ => rfl) (fun _ _ => rfl) rest
    · exact value_letter o (v := 0x0D) (fun _ => rfl) (fun _ _ => rfl) rest
    · have hj := hjs (Or.inr rfl)
      exact value_letter o (v := 0x0B) (fun _ => rfl) (fun h => by simp [hj] at h) rest
    · exact value_letter o (v := 0x5C) (fun _ => rfl) (fun _ _ => rfl) rest
    · dsimp only
      split_ifs with hq
      · exact value_letter o (v := 0x22) (fun _ => rfl) (fun _ _ => rfl) rest
      · exact value_raw o (c := 0x22) (by norm_num) (Or.inl (by norm_num)) (Quote.char_ne hq)
          (by norm_num)
    · dsimp only
      split_ifs with hq
      · have hj := hjn (by rw [hq]; decide)
        exact value_letter o (v := 0x27) (fun _ => rfl) (fun h => by simp [hj] at h) rest
      · exact value_raw o (c := 0x27) (by norm_num) (Or.inl (by norm_num)) (Quote.char_ne hq)
          (by norm_num)
    · dsimp only
      split_ifs with hq
      · have hj := hjn (by rw [hq]; decide)
        exact value_letter o (v := 0x60) (fun _ => rfl) (fun h => by simp [hj] at h) rest
      · exact value_raw o (c := 0x60) (by norm_num) (Or.inl (by norm_num)) (Quote.char_ne hq)
          (by norm_num)
    · dsimp only
      split_ifs with hq
      · have hj := hjn (by rw [hq.1]; decide)
        exact value_letter o (v := 0x24) (fun _ => rfl) (fun h => by simp [hj] at h) rest
      · exact value_raw o (c := 0x24) (by norm_num) (Or.inl (by norm_num))
          (by cases o.quote_char <;> decide) (fun hb _ => hbr fun hn => hq ⟨hb, hn⟩)
    · dsimp only
      split_ifs with hq
      · exact value_raw o (c := 0x09) (by norm_num) (Or.inr ⟨hq, by norm_num⟩) (by rw [hq]; decide)
          (by norm_num)
      · exact value_letter o (v := 0x09) (fun _ => rfl) (fun _ _ => rfl) rest
    · dsimp only
      split_ifs with hby hun
      · rw [Utf16.encode, if_pos (by omega)]
        exact value_byteEscape o (by simpa using hby.2) hby.1 rest
      · rw [Utf16.encode, if_pos (by omega)]
        exact value_hexEscape o (by omega) rest
      · have hpa : c - 0x10000 < 0x100000 := by omega
        have h10 : (c - 0x10000) >>> 10 &&& 0x3FF = (c - 0x10000) / 0x400 := by
          rw [show (0x3FF : ℕ) = 2 ^ 10 - 1 from rfl, and_two_pow_sub_one_eq_mod,
            shiftRight_eq_div_pow]
          omega
        have h0 : (c - 0x10000) &&& 0x3FF = (c - 0x10000) % 0x400 :=
          and_two_pow_sub_one_eq_mod _ 10
        rw [h10, h0, map_append, append_assoc,
          value_hexEscape o (by rw [first_high_surrogate]; omega),
          value_hexEscape o (by rw [first_low_surrogate]; omega), Utf16.encode, if_neg (by omega),
          Option.map_map]
        rfl

theorem value_points_unprintable (h : Unprintable o c) (next : Option ℕ) (rest : List ℕ) :
    value o.literal (points o c next ++ rest) = none := by
  obtain ⟨hj, hc⟩ := h
  have hpr : ¬ canPrintWithoutEscape c o.ascii_only = true := by
    rw [canPrint_ascii (by omega)]
    omega
  rw [points, if_neg hpr]
  rcases hc with rfl | rfl
  all_goals
    refine value_bad (c := 0x5C) ?_
    rw [item_backslash, if_pos hj]
    rfl

theorem head_points {next : Option ℕ}
    (h : (points o c next ++ rest).head? = some 0x7B) : c = 0x7B := by
  unfold points at h
  split_ifs at h
  · simpa using h
  · unfold writeEscape at h
    split at h
    case h_13 =>
      dsimp only at h
      split_ifs at h <;> simp [hexEscape, backslash] at h
    all_goals
      dsimp only at h
      first
      | (simp [backslash] at h; done)
      | (split_ifs at h <;> simp [backslash, byte] at h)

theorem head_pointsOf (h : (pointsOf o cs).head? = some 0x7B) :
    cs.head? = some 0x7B := by
  cases cs with
  | nil => simp [pointsOf] at h
  | cons c cs => rw [head_points o h, head?_cons]

theorem value_pointsOf (hcs : ∀ c ∈ cs, c < 0x110000)
    (hgd : ∀ c ∈ cs, ¬ Unprintable o c) :
    value o.literal (pointsOf o cs) = some (cs.flatMap Utf16.encode) := by
  induction cs with
  | nil => rfl
  | cons c cs ih =>
    rw [pointsOf, value_points o (hcs c (by simp)) (hgd c (by simp))
      (fun hn hb => hn (head_pointsOf o hb)), ih (fun d hd => hcs d (mem_cons_of_mem _ hd))
      fun d hd => hgd d (mem_cons_of_mem _ hd)]
    rfl

theorem value_pointsOf_unprintable (hcs : ∀ c ∈ cs, c < 0x110000)
    (hc : c ∈ cs) (hbad : Unprintable o c) : value o.literal (pointsOf o cs) = none := by
  induction cs with
  | nil => simp at hc
  | cons d cs ih =>
    by_cases hd : Unprintable o d
    · exact value_points_unprintable o hd _ _
    · have hmem : c ∈ cs := (mem_cons.1 hc).resolve_left fun h => hd (h ▸ hbad)
      rw [pointsOf, value_points o (hcs d (by simp)) hd (fun hn hb => hn (head_pointsOf o hb)),
        ih (fun e he => hcs e (mem_cons_of_mem _ he)) hmem]
      rfl

theorem mem_encode_iff (hv : v < 0xD800) (hc : c < 0x110000) :
    UInt16.ofNat v ∈ Utf16.encode c ↔ c = v := by
  have heq {n : ℕ} (hn : n < 0x10000) : UInt16.ofNat v = UInt16.ofNat n ↔ n = v := by
    rw [← UInt16.toNat_inj, UInt16.toNat_ofNat', UInt16.toNat_ofNat']
    omega
  unfold Utf16.encode
  split_ifs with h
  · rw [mem_singleton, heq h]
  · rw [mem_cons, mem_singleton, heq (by omega), heq (by omega)]
    omega

theorem mem_units_iff {text : Text} (h : text.WellFormed) (hv : v < 0xD800) :
    UInt16.ofNat v ∈ text.units ↔ v ∈ text.characters := by
  rw [Text.units_eq h, mem_flatMap]
  constructor
  · rintro ⟨c, hc, hmem⟩
    rwa [← (mem_encode_iff hv (Text.characters_lt h c hc)).1 hmem]
  · exact fun hmem => ⟨v, hmem, (mem_encode_iff hv (Text.characters_lt h v hmem)).2 rfl⟩

theorem printedText_ascii (h : o.ascii_only = true) (cs : List ℕ) :
    ∀ b ∈ printedText o cs, b.toNat < 0x80 := by
  induction cs with
  | nil => simp [printedText]
  | cons c cs ih =>
    intro b hb
    rcases mem_append.1 hb with hb | hb
    · unfold printed at hb
      split_ifs at hb with hpr
      · have hac : c ≤ 0x7E := by
          by_contra hot
          exact ((canPrint_other (not_le.1 hot)).1 hpr).1 h
        rw [encode, if_pos (by omega), mem_singleton] at hb
        rw [hb, toNat_ofNat_lt (by omega)]
        omega
      · exact writeEscape_lt o c 1 _ b hb
    · exact ih b hb

/-- The literal means the text, but for a JSON string with one of the two characters. -/
theorem writePreQuotedString_means_iff (text : Text) (h : text.WellFormed) :
    (meaning o.literal (writePreQuotedString o text) = some text.units
      ∧ (o.ascii_only = true → ∀ b ∈ writePreQuotedString o text, b.toNat < 0x80))
    ↔ ¬ (o.json = true ∧ (0x07 ∈ text.units ∨ 0x0B ∈ text.units)) := by
  have hcs := Text.characters_lt h
  have h7 := mem_units_iff h (v := 0x07) (by norm_num)
  have hB := mem_units_iff h (v := 0x0B) (by norm_num)
  rw [writePreQuotedString_eq o h, meaning_printedText o hcs]
  constructor
  · rintro ⟨hmeans, -⟩ ⟨hj, hbad⟩
    have hnone : value o.literal (pointsOf o text.characters) = none := by
      rcases hbad with hmem | hmem
      · exact value_pointsOf_unprintable o hcs (h7.1 hmem) ⟨hj, Or.inl rfl⟩
      · exact value_pointsOf_unprintable o hcs (hB.1 hmem) ⟨hj, Or.inr rfl⟩
    rw [hnone] at hmeans
    cases hmeans
  · intro hgood
    refine ⟨?_, fun hascii => printedText_ascii o hascii _⟩
    rw [Text.units_eq h]
    refine value_pointsOf o hcs fun c hc hbad => hgood ⟨hbad.1, ?_⟩
    rcases hbad.2 with rfl | rfl
    · exact Or.inl (h7.2 hc)
    · exact Or.inr (hB.2 hc)

/-- A bell is not printed as JSON. -/
theorem bell_not_json :
    writePreQuotedString (.ofJSON false) (.utf8 [0x07]) = [0x5C, 0x78, 0x30, 0x37]
    ∧ (Text.utf8 [0x07]).WellFormed
    ∧ meaning (Options.ofJSON false).literal (writePreQuotedString (.ofJSON false) (.utf8 [0x07])) = none
    ∧ (Text.utf8 [0x07]).units = [0x07] := by
  refine ⟨by decide, ?_, by decide, by decide⟩
  unfold Text.WellFormed
  decide

/-- A quote, a dollar and a character beyond the first plane, in JSON. -/
theorem writePreQuotedString_means_json :
    meaning (Options.ofJSON false).literal
      (writePreQuotedString (.ofJSON false) (.utf8 [0x22, 0x24, 0xF0, 0x9F, 0x98, 0x80])) =
        some [0x22, 0x24, 0xD83D, 0xDE00] := by
  have hwell : (Text.utf8 [0x22, 0x24, 0xF0, 0x9F, 0x98, 0x80]).WellFormed := by
    unfold Text.WellFormed
    decide
  exact ((writePreQuotedString_means_iff (.ofJSON false) _ hwell).2 (by decide)).1

end Cruller.JsPrinter
