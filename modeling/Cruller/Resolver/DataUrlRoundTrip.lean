import Cruller.Lib.Utf8Text
import Cruller.Resolver.DataUrl
import Cruller.Text.Unicode
import Cruller.Url.FormUrlencoded

/-!
# Data URLs, read back

The escaped text is the text with an escape for each byte that needs one (`escapedFrom`), and
decoding it gives the text again, since a percent sign that was left alone is followed by no two
digits (`percentDecode_escapedFrom`). Where base64 is the shorter form the text itself is printed,
and what is decoded of it is shorter than it. So data URLs are read back just where the text is
valid and its escaped form is not longer than base64 would be (`dataURL_roundTrips_iff`).
-/

namespace Cruller.Resolver

open List Option

open Cruller.Url (percentDecode)

variable {text : List UInt8}

variable (path : List UInt8)

theorem keep_unstrict (c : UInt8) (ret : Option (List UInt8)) :
    keep false path c ret = .ok (ret.map (· ++ [c])) :=
  if_neg (by simp)

theorem getD_keep (ret : Option (List UInt8)) (read : List UInt8) (c : UInt8) :
    (ret.map (· ++ [c])).getD (read ++ [c]) = ret.getD read ++ [c] := by
  cases ret <;> rfl

theorem decodeFrom_eq (read path : List UInt8) (ret : Option (List UInt8)) :
    ∃ ret', decodeFrom false read path ret = .ok ret' ∧
      ret'.getD (read ++ path) = ret.getD read ++ percentDecode path := by
  fun_induction percentDecode path generalizing read ret with
  | case1 => exact ⟨ret, by rw [decodeFrom], by simp⟩
  | case2 c a b path h ih =>
    change c = percent ∧ isHex a = true ∧ isHex b = true at h
    obtain ⟨ret', hret, heq⟩ := ih (read ++ [c, a, b])
      (some (ret.getD read ++ [charToDigit a <<< 4 ||| charToDigit b]))
    refine ⟨ret', ?_, ?_⟩
    · rw [decodeFrom, if_pos h, hret]
    · rw [append_assoc] at heq
      rw [cons_append, cons_append, cons_append, nil_append] at heq
      rw [heq, getD_some, append_assoc]
      rfl
  | case3 c a b path h ih =>
    change ¬ (c = percent ∧ isHex a = true ∧ isHex b = true) at h
    obtain ⟨ret', hret, heq⟩ := ih (read ++ [c]) (ret.map (· ++ [c]))
    refine ⟨ret', ?_, ?_⟩
    · rw [decodeFrom, if_neg h, keep_unstrict]
      exact hret
    · rw [getD_keep] at heq
      simpa using heq
  | case4 c path hsh ih =>
    obtain ⟨ret', hret, heq⟩ := ih (read ++ [c]) (ret.map (· ++ [c]))
    refine ⟨ret', ?_, ?_⟩
    · rw [decodeFrom, keep_unstrict]
      · exact hret
      · exact hsh
    · rw [getD_keep] at heq
      simpa using heq

theorem decodeUnstrict_eq :
    ∃ ret, decodeUnstrict path = .ok ret ∧ ret.getD path = percentDecode path := by
  obtain ⟨ret, hret, heq⟩ := decodeFrom_eq [] path none
  exact ⟨ret, hret, heq⟩

theorem length_percentDecode : (percentDecode path).length ≤ path.length := by
  fun_induction percentDecode path <;> simp_all
  omega

/-- What is written for the text that is left, behind `i` bytes. -/
def escapedFrom (text : List UInt8) : ℕ → List UInt8 → List UInt8
  | _, [] => []
  | i, c :: rest =>
    (if needsEscape text i c then escape c else [c]) ++ escapedFrom text (i + 1) rest

theorem escape_digits (c : UInt8) : isHex (hex (c >>> 4)) = true ∧ isHex (hex (c &&& 15)) = true ∧
    charToDigit (hex (c >>> 4)) <<< 4 ||| charToDigit (hex (c &&& 15)) = c := by
  have h : ∀ n : Fin 256, isHex (hex (UInt8.ofNat n >>> 4)) = true ∧
      isHex (hex (UInt8.ofNat n &&& 15)) = true ∧
      charToDigit (hex (UInt8.ofNat n >>> 4)) <<< 4 ||| charToDigit (hex (UInt8.ofNat n &&& 15)) =
        UInt8.ofNat n := by
    decide +kernel
  simpa using h ⟨c.toNat, c.toNat_lt⟩

theorem percentDecode_escape (c : UInt8) (rest : List UInt8) :
    percentDecode (escape c ++ rest) = c :: percentDecode rest := by
  obtain ⟨hhg, hlow, hvl⟩ := escape_digits c
  rw [escape, cons_append, cons_append, cons_append, nil_append,
    percentDecode, if_pos ⟨rfl, hhg, hlow⟩]
  congr 1

variable {rest : List UInt8} {c : UInt8}

theorem percentDecode_literal
    (h : c = percent → ∀ a b tail, rest = a :: b :: tail → ¬ (isHex a = true ∧ isHex b = true)) :
    percentDecode (c :: rest) = c :: percentDecode rest := by
  rcases rest with _ | ⟨a, _ | ⟨b, rest⟩⟩
  · rfl
  · rfl
  · rw [percentDecode, if_neg]
    rintro ⟨hc, ha, hb⟩
    exact h hc a b rest rfl ⟨ha, hb⟩

variable {i : ℕ}

theorem head_escapedFrom {a : UInt8} {tail : List UInt8}
    (h : escapedFrom text i (c :: rest) = a :: tail) : a = percent ∨
      a = c ∧ tail = escapedFrom text (i + 1) rest := by
  rw [escapedFrom] at h
  split_ifs at h
  · exact .inl (List.cons.inj h).1.symm
  · obtain ⟨rfl, rfl⟩ := List.cons.inj h
    exact .inr ⟨rfl, rfl⟩

theorem isHex_percent : isHex percent = false := by decide

/-- What was escaped is decoded again. -/
theorem percentDecode_escapedFrom : ∀ {rest : List UInt8} {i : ℕ}, text.drop i = rest →
    percentDecode (escapedFrom text i rest) = rest
  | [], i, _ => rfl
  | c :: rest, i, hdr => by
    have hrs : text.drop (i + 1) = rest := by
      rw [← drop_drop, hdr]
      rfl
    have ih := percentDecode_escapedFrom hrs
    rw [escapedFrom]
    split_ifs with hnd
    · rw [percentDecode_escape, ih]
    · rw [singleton_append, percentDecode_literal, ih]
      -- the two bytes behind it were looked at, and an escape starts with no digit
      rintro rfl a b tail hab ⟨ha, hb⟩
      rcases rest with _ | ⟨x, _ | ⟨y, rest⟩⟩
      · cases hab
      · rcases head_escapedFrom hab with rfl | ⟨-, htl⟩
        · rw [isHex_percent] at ha
          cases ha
        · cases htl
      · rcases head_escapedFrom hab with rfl | ⟨rfl, htl⟩
        · rw [isHex_percent] at ha
          cases ha
        · rcases head_escapedFrom htl.symm with rfl | ⟨rfl, -⟩
          · rw [isHex_percent] at hb
            cases hb
          · refine hnd ?_
            have hlen := congrArg List.length hrs
            have hget : ∀ j, text[i + 1 + j]? = (a :: b :: rest)[j]? := fun j => by
              rw [← hrs, getElem?_drop]
            have hx : text[i + 1]? = some a := hget 0
            have hy : text[i + 2]? = some b := hget 1
            rw [length_drop, length_cons, length_cons] at hlen
            have hlt : i + 2 < text.length := by omega
            rw [needsEscape, hx, hy]
            simp [ha, hb, hlt]

def escapes (text : List UInt8) : ℕ :=
  (text.zipIdx.filter fun (c, i) => needsEscape text i c).length

theorem length_escapedFrom : ∀ (rest : List UInt8) (i : ℕ),
    (escapedFrom text i rest).length =
      rest.length + 2 * ((rest.zipIdx i).filter fun (c, i) => needsEscape text i c).length
  | [], i => rfl
  | c :: rest, i => by
    rw [escapedFrom, length_append, length_escapedFrom rest (i + 1), zipIdx_cons]
    by_cases h : needsEscape text i c = true
    · rw [if_pos h, filter_cons_of_pos (by exact h)]
      simp [escape]
      omega
    · rw [if_neg h, filter_cons_of_neg (by exact h)]
      simp
      omega

theorem lt_trailingStart (hc : text[i]? = some c) (hlr : 0x20 < c) :
    ∀ {n : ℕ}, i < n → i < trailingStart text n
  | n + 1, hn => by
    rw [trailingStart]
    split_ifs with hst
    · exact hn
    · rcases Nat.lt_succ_iff_lt_or_eq.1 hn with hlt | rfl
      · exact lt_trailingStart hc hlr hlt
      · exact absurd (by simp [hc, hlr]) hst

theorem needsEscape_of_large (hc : text[i]? = some c) (hlr : 0x80 ≤ c) :
    needsEscape text i c = false := by
  have hlt : i < text.length := (List.getElem?_eq_some_iff.1 hc).1
  have htr := lt_trailingStart hc (UInt8.lt_of_lt_of_le (by decide) hlr) hlt
  have hne : ∀ d : UInt8, d < 0x80 → (c == d) = false := fun d hd =>
    beq_eq_false_iff_ne.2 (UInt8.ne_of_lt (UInt8.lt_of_lt_of_le hd hlr)).symm
  simp [needsEscape, hne 0x09 (by decide), hne 0x0A (by decide), hne 0x0D (by decide),
    hne 0x23 (by decide), hne percent (by decide), htr]

theorem utf8ByteSequenceLength_eq (b : UInt8) : utf8ByteSequenceLength b =
    if b.toNat ≤ 0x7F then 1
    else if 0xC0 ≤ b.toNat ∧ b.toNat ≤ 0xDF then 2
    else if 0xE0 ≤ b.toNat ∧ b.toNat ≤ 0xEF then 3
    else if 0xF0 ≤ b.toNat ∧ b.toNat ≤ 0xF7 then 4
    else 0 := by
  simp only [utf8ByteSequenceLength, UInt8.le_iff_toNat_le]
  rfl

theorem large_ofNat {n : ℕ} (h : n < 256) (hlr : 0x80 ≤ n) : (0x80 : UInt8) ≤ .ofNat n := by
  rw [UInt8.le_iff_toNat_le, Utf8.toNat_ofNat_lt h]
  exact hlr

/-- A character's first byte says its length; it is the only byte, or none of them is ASCII. -/
theorem utf8ByteSequenceLength_encode {c : ℕ} (hc : Utf8.Scalar c) :
    ∃ first rest, Utf8.encode c = first :: rest ∧
      utf8ByteSequenceLength first = (Utf8.encode c).length ∧
      (rest = [] ∨ ∀ b ∈ Utf8.encode c, 0x80 ≤ b) := by
  unfold Utf8.Scalar at hc
  unfold Utf8.encode
  split_ifs with h1 h2 h3
  · refine ⟨_, _, rfl, ?_, .inl rfl⟩
    rw [utf8ByteSequenceLength_eq, Utf8.toNat_ofNat_lt (by omega), if_pos (by omega)]
    rfl
  · refine ⟨_, _, rfl, ?_, .inr ?_⟩
    · rw [utf8ByteSequenceLength_eq, Utf8.toNat_ofNat_lt (by omega), if_neg (by omega),
        if_pos (by omega)]
      rfl
    · rintro b (_ | ⟨_, _ | ⟨_, hb⟩⟩)
      · exact large_ofNat (by omega) (by omega)
      · exact large_ofNat (by omega) (by omega)
      · cases hb
  · refine ⟨_, _, rfl, ?_, .inr ?_⟩
    · rw [utf8ByteSequenceLength_eq, Utf8.toNat_ofNat_lt (by omega), if_neg (by omega),
        if_neg (by omega), if_pos (by omega)]
      rfl
    · rintro b (_ | ⟨_, _ | ⟨_, _ | ⟨_, hb⟩⟩⟩)
      · exact large_ofNat (by omega) (by omega)
      · exact large_ofNat (by omega) (by omega)
      · exact large_ofNat (by omega) (by omega)
      · cases hb
  · refine ⟨_, _, rfl, ?_, .inr ?_⟩
    · rw [utf8ByteSequenceLength_eq, Utf8.toNat_ofNat_lt (by omega), if_neg (by omega),
        if_neg (by omega), if_neg (by omega), if_pos (by omega)]
      rfl
    · rintro b (_ | ⟨_, _ | ⟨_, _ | ⟨_, _ | ⟨_, hb⟩⟩⟩⟩)
      · exact large_ofNat (by omega) (by omega)
      · exact large_ofNat (by omega) (by omega)
      · exact large_ofNat (by omega) (by omega)
      · exact large_ofNat (by omega) (by omega)
      · cases hb

theorem escapedFrom_plain (rest : List UInt8) : ∀ {bytes : List UInt8} {i : ℕ},
    (∀ k b, bytes[k]? = some b → needsEscape text (i + k) b = false) →
      escapedFrom text i (bytes ++ rest) = bytes ++ escapedFrom text (i + bytes.length) rest
  | [], i, _ => rfl
  | b :: bytes, i, h => by
    have hb : needsEscape text i b = false := h 0 b rfl
    rw [cons_append, escapedFrom, hb,
      escapedFrom_plain rest fun k c hc => by
        rw [Nat.add_assoc, Nat.add_comm 1]
        exact h (k + 1) c hc]
    simp
    rw [Nat.add_assoc, Nat.add_comm 1]

theorem take_run {bytes : List UInt8} {run_start : ℕ} (hrun : run_start ≤ i)
    (hdr : text.drop i = bytes ++ rest) :
    (text.drop run_start).take (i + bytes.length - run_start) =
      (text.drop run_start).take (i - run_start) ++ bytes := by
  rw [show i + bytes.length - run_start = (i - run_start) + bytes.length by omega, take_add,
    drop_drop, show run_start + (i - run_start) = i by omega, hdr, take_left]

/-- What the loop has appended, with the run that it leaves, is the escaped text. -/
theorem escapeLoop_eq {cs : List ℕ} (hcs : ∀ c ∈ cs, Utf8.Scalar c) {n i run_start : ℕ}
    {buf : List UInt8} (hdr : text.drop i = cs.flatMap Utf8.encode) (hrun : run_start ≤ i)
    (hn : cs.length < n) :
    (escapeLoop text n i run_start buf).2 ++ text.drop (escapeLoop text n i run_start buf).1 =
      buf ++ (text.drop run_start).take (i - run_start) ++ escapedFrom text i (text.drop i) := by
  induction cs generalizing n i run_start buf with
  | nil =>
    obtain ⟨n, rfl⟩ : ∃ m, n = m + 1 := ⟨n - 1, by simp at hn; omega⟩
    have hno : text[i]? = none := by
      rw [← head?_drop, hdr]
      rfl
    rw [escapeLoop, hno, hdr]
    have hsp := take_append_drop (i - run_start) (text.drop run_start)
    rw [drop_drop, show run_start + (i - run_start) = i by omega, hdr] at hsp
    simp only [flatMap_nil, escapedFrom] at hsp ⊢
    rw [append_assoc, hsp]
  | cons c cs ih =>
    obtain ⟨n, rfl⟩ : ∃ m, n = m + 1 := ⟨n - 1, by omega⟩
    rw [flatMap_cons] at hdr
    obtain ⟨first, rest, hen, hlen, hlr⟩ := utf8ByteSequenceLength_encode
      (hcs c mem_cons_self)
    have hfr : text[i]? = some first := by
      rw [← head?_drop, hdr, hen]
      rfl
    have hnx : text.drop (i + (Utf8.encode c).length) = cs.flatMap Utf8.encode := by
      rw [← drop_drop, hdr, drop_left]
    have hcs' : ∀ d ∈ cs, Utf8.Scalar d := fun d hd => hcs d (mem_cons_of_mem _ hd)
    rw [length_cons] at hn
    rw [escapeLoop, hfr]
    simp only [hlen]
    split_ifs with hnd
    · -- an escape ends the run
      have hsn : rest = [] := by
        refine hlr.resolve_right fun hall => ?_
        rw [needsEscape_of_large hfr (hall first (by simp [hen]))] at hnd
        cases hnd
      have hone : (Utf8.encode c).length = 1 := by
        rw [hen, hsn]
        rfl
      rw [hone] at hnx ⊢
      rw [ih hcs' hnx le_rfl (by omega), hdr, hen, hsn, hnx]
      simp [escapedFrom, hnd]
    · have hpl : ∀ k b, (Utf8.encode c)[k]? = some b → needsEscape text (i + k) b = false := by
        intro k b hb
        have hby : text[i + k]? = some b := by
          rw [← getElem?_drop, hdr, getElem?_append_left
            (List.getElem?_eq_some_iff.1 hb).1, hb]
        rcases hlr with hsn | hall
        · rw [hen, hsn] at hb
          rcases k with _ | k
          · obtain rfl : first = b := by simpa using hb
            simpa using hnd
          · simp at hb
        · exact needsEscape_of_large hby (hall b (mem_of_getElem? hb))
      rw [ih hcs' hnx (by omega) (by omega), hdr, hnx, take_run hrun hdr,
        escapedFrom_plain _ hpl]
      simp

section Forms

variable {simdutf : Simdutf} {mime_type data : List UInt8}

theorem length_flatMap_encode (cs : List ℕ) :
    cs.length ≤ (cs.flatMap Utf8.encode).length := by
  have hpos : ∀ c, 1 ≤ (Utf8.encode c).length := by
    intro c
    unfold Utf8.encode
    split_ifs <;> simp
  induction cs with
  | nil => simp
  | cons c cs ih =>
    have := hpos c
    rw [flatMap_cons, length_append, length_cons]
    omega

theorem encode_percent (lawful : simdutf.Lawful Text.Valid) (hvl : Text.Valid text) :
    encodeStringAsPercentEscapedDataURL simdutf mime_type text =
      some (dataPrefix ++ mime_type ++ [0x2C] ++ escapedFrom text 0 text) := by
  obtain ⟨cs, hcs, htx⟩ := Utf8.exists_scalars_of_valid hvl
  have hcn := length_flatMap_encode cs
  rw [← htx] at hcn
  have hlp := @escapeLoop_eq text cs hcs (text.length + 1) 0 0 (dataPrefix ++ mime_type ++ [0x2C])
    htx le_rfl (by omega)
  rw [encodeStringAsPercentEscapedDataURL, if_pos ((lawful.utf8_iff text).2 hvl)]
  simpa using hlp

theorem encode_percent_none (lawful : simdutf.Lawful Text.Valid) (hvl : ¬ Text.Valid text) :
    encodeStringAsPercentEscapedDataURL simdutf mime_type text = none :=
  if_neg (mt (lawful.utf8_iff text).1 hvl)

theorem printBase64_eq (mime_type text : List UInt8) :
    printBase64 mime_type text (totalBase64EncodeLen mime_type text) =
      some (dataPrefix ++ (mime_type ++ base64Suffix) ++ [0x2C] ++ text) := by
  rw [printBase64, if_pos]
  · simp
  · simp only [totalBase64EncodeLen, encodeLen, length_append, length_singleton]
    omega

theorem idxOf?_comma {front : List UInt8} (h : 0x2C ∉ front) :
    (front ++ [0x2C] ++ data).idxOf? 0x2C = some front.length := by
  induction front with
  | nil => rfl
  | cons c front ih =>
    obtain ⟨hc, hfr⟩ := not_or.1 (mt mem_cons.2 h)
    rw [cons_append, cons_append, idxOf?_cons,
      if_neg (by simpa using Ne.symm hc), ih hfr]
    rfl

theorem parse_eq (hcm : 0x2C ∉ mime_type) :
    parse (dataPrefix ++ mime_type ++ [0x2C] ++ data) =
      .ok (some (if base64Suffix.isSuffixOf mime_type then
        ⟨mime_type.take (mime_type.length - base64Suffix.length), data, true⟩
      else ⟨mime_type, data, false⟩)) := by
  have hidx := @idxOf?_comma data (dataPrefix ++ mime_type)
    (by simpa [dataPrefix] using hcm)
  have hpr : dataPrefix.isPrefixOf (dataPrefix ++ mime_type ++ [0x2C] ++ data) = true := by
    rw [List.isPrefixOf_iff_prefix, append_assoc, append_assoc]
    exact prefix_append _ _
  have hmi : ((dataPrefix ++ mime_type ++ [0x2C] ++ data).take
      (dataPrefix ++ mime_type).length).drop dataPrefix.length = mime_type := by
    rw [append_assoc _ [_], take_left, drop_left]
  have hdt : (dataPrefix ++ mime_type ++ [0x2C] ++ data).drop
      ((dataPrefix ++ mime_type).length + 1) = data := by
    rw [← length_singleton (a := (0x2C : UInt8)), ← length_append, drop_left]
  rw [parse, if_pos hpr, parseWithoutCheck, hidx]
  simp only [hmi, hdt]
  split_ifs <;> rfl

theorem decodeData_escaped (text : List UInt8) :
    decodeData simdutf ⟨mime_type, escapedFrom text 0 text, false⟩ = .ok text := by
  obtain ⟨ret, hret, heq⟩ := decodeUnstrict_eq (escapedFrom text 0 text)
  rw [decodeData, hret]
  simp only [Except.bind, Bool.false_eq_true, if_false]
  rw [heq, percentDecode_escapedFrom drop_zero]

theorem decodeData_printed (lawful : simdutf.Lawful Text.Valid) (hne : text ≠ []) :
    decodeData simdutf ⟨mime_type, text, true⟩ ≠ .ok text := by
  obtain ⟨ret, hret, heq⟩ := decodeUnstrict_eq text
  have hsh := length_percentDecode text
  have hpos := length_pos_iff.2 hne
  rw [decodeData, hret]
  simp only [Except.bind, if_true]
  rw [heq]
  cases hdc : simdutf.decodeBase64 (percentDecode text) (decodeLen (percentDecode text)) with
  | none => nofun
  | some buf =>
    have hlen := lawful.length_decodeBase64 hdc
    simp only []
    split_ifs
    · nofun
    · intro h
      obtain rfl := Except.ok.inj h
      omega

/-- What is written is read back, and it is not longer than either form. -/
def RoundTrips (simdutf : Simdutf) (mime_type text : List UInt8) : Prop :=
  ∃ url, encodeStringAsShortestDataURL simdutf mime_type text = some url ∧
    (∃ d, parse url = .ok (some d) ∧ d.mime_type = mime_type ∧ decodeData simdutf d = .ok text) ∧
    url.length ≤ totalBase64EncodeLen mime_type text ∧
    ∀ escaped, encodeStringAsPercentEscapedDataURL simdutf mime_type text = some escaped →
      url.length ≤ escaped.length

theorem not_roundTrips_printed (lawful : simdutf.Lawful Text.Valid) (hcm : 0x2C ∉ mime_type)
    (hne : text ≠ [])
    (h : encodeStringAsShortestDataURL simdutf mime_type text =
      printBase64 mime_type text (totalBase64EncodeLen mime_type text)) :
    ¬ RoundTrips simdutf mime_type text := by
  rintro ⟨url, hurl, ⟨d, hpr, -, hdc⟩, -⟩
  have hsf : base64Suffix.isSuffixOf (mime_type ++ base64Suffix) = true := by
    rw [isSuffixOf_iff_suffix]
    exact suffix_append _ _
  rw [h, printBase64_eq] at hurl
  obtain rfl := some.inj hurl
  rw [parse_eq (by simpa [base64Suffix] using hcm), if_pos hsf] at hpr
  obtain rfl := some.inj (Except.ok.inj hpr)
  exact decodeData_printed lawful hne hdc

/-- A data URL is read back just where its text is valid UTF-8 and not longer escaped than in
base64: the other form holds the text itself, not its base64. -/
theorem dataURL_roundTrips_iff (lawful : simdutf.Lawful Text.Valid) (hcomma : 0x2C ∉ mime_type)
    (hbase64 : ¬ base64Suffix <:+ mime_type) :
    RoundTrips simdutf mime_type text ↔
      Text.Valid text ∧ text.length + 2 * escapes text ≤ encodeLen text + 7 := by
  by_cases hvalid : Text.Valid text
  · have hescaped := @encode_percent text simdutf mime_type lawful hvalid
    have hlength : (dataPrefix ++ mime_type ++ [0x2C] ++ escapedFrom text 0 text).length =
        dataPrefix.length + mime_type.length + 1 + (text.length + 2 * escapes text) := by
      rw [length_append, length_append, length_append, length_escapedFrom]
      rfl
    by_cases hshort : text.length + 2 * escapes text ≤ encodeLen text + 7
    · refine iff_of_true ?_ ⟨hvalid, hshort⟩
      have htotal : (dataPrefix ++ mime_type ++ [0x2C] ++ escapedFrom text 0 text).length ≤
          totalBase64EncodeLen mime_type text := by
        rw [hlength, totalBase64EncodeLen]
        simp only [base64Suffix, length_cons, length_nil]
        omega
      refine ⟨_, ?_, ⟨_, parse_eq hcomma, ?_, ?_⟩, htotal, fun escaped h => ?_⟩
      · rw [encodeStringAsShortestDataURL, hescaped]
        exact if_neg (not_lt.2 htotal)
      · rw [if_neg (by rwa [isSuffixOf_iff_suffix])]
      · rw [if_neg (by rwa [isSuffixOf_iff_suffix]), decodeData_escaped]
      · rw [hescaped] at h
        rw [some.inj h]
    · refine iff_of_false (not_roundTrips_printed lawful hcomma ?_ ?_) fun h => hshort h.2
      · rintro rfl
        exact hshort (by decide)
      · rw [encodeStringAsShortestDataURL, hescaped]
        refine if_pos ?_
        rw [hlength, totalBase64EncodeLen]
        simp only [base64Suffix, length_cons, length_nil]
        omega
  · refine iff_of_false (not_roundTrips_printed lawful hcomma ?_ ?_) fun h => hvalid h.1
    · rintro rfl
      exact hvalid (by decide)
    · rw [encodeStringAsShortestDataURL, encode_percent_none lawful hvalid]

end Forms

/-- The fallback decoder, and the text decoder. -/
def referenceSimdutf : Simdutf :=
  ⟨fun source dest_len => mixedDecode dest_len source, fun text => decide (Text.Valid text)⟩

theorem lawful_referenceSimdutf : referenceSimdutf.Lawful Text.Valid :=
  ⟨length_mixedDecode, fun _ => decide_eq_true_iff⟩

/-- `a#b` as `x/y` -/
theorem dataURL_roundTrips_hash :
    RoundTrips referenceSimdutf [0x78, 0x2F, 0x79] [0x61, 0x23, 0x62] :=
  (dataURL_roundTrips_iff lawful_referenceSimdutf (by decide) (by decide)).2 (by decide +kernel)

/-- Six number signs are shorter in base64. -/
theorem not_dataURL_roundTrips :
    ¬ RoundTrips referenceSimdutf [0x78, 0x2F, 0x79] (List.replicate 6 0x23) :=
  not_roundTrips_printed lawful_referenceSimdutf (by decide) (by decide) (by decide +kernel)

end Cruller.Resolver
