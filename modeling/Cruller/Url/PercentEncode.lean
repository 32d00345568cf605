import Cruller.Lib.Utf8Text
import Cruller.Text.Unicode
import Cruller.Url.FormUrlencoded

/-!
# Percent encoding

A byte to encode is searched with two notions of such a byte: the test of the first byte counts DEL
in, the loops do not. What is written is one pass over the bytes that knows how far the next find
is and whether the byte before was encoded (`written`).
-/

namespace Cruller.Url

open List
open Text (Valid)

def needsURLEncode (limit : UInt8) (char : UInt8) : Bool :=
  char > limit || char < 0x20
    || [0x25, 0x5C, 0x22, 0x23, 0x3F, 0x5B, 0x5D, 0x5E, 0x7C, 0x7E].contains char

/-- The test of the first byte. -/
abbrev mustEncode : UInt8 → Bool := needsURLEncode 126

/-- The test of the loops. -/
abbrev isFound : UInt8 → Bool := needsURLEncode 127

/-- Sixteen bytes at a time where the build has SIMD. -/
def indexOfNeedsURLEncodeLoop (enableSIMD : Bool) (offset : ℕ) : ℕ → List UInt8 → Option ℕ
  | 0, _ => none
  | n + 1, remaining =>
    if enableSIMD ∧ 16 ≤ remaining.length then
      let vec := remaining.take 16
      if vec.any isFound then some (vec.findIdx isFound + offset % 2 ^ 32)
      else indexOfNeedsURLEncodeLoop enableSIMD (offset + 16) n (remaining.drop 16)
    else (remaining.findIdx? isFound).map fun i => (offset + i) % 2 ^ 32

/-- The first byte that must be escaped. -/
def indexOfNeedsURLEncode (enableSIMD : Bool) : List UInt8 → Option ℕ
  | [] => none
  | c :: slice =>
    if mustEncode c then some 0
    else indexOfNeedsURLEncodeLoop enableSIMD 0 (slice.length + 2) (c :: slice)

def wtf8ByteSequenceLengthWithInvalid (first_byte : UInt8) : ℕ :=
  if first_byte < 0x80 then 1
  else if first_byte &&& 0xE0 = 0xC0 then 2
  else if first_byte &&& 0xF0 = 0xE0 then 3
  else if first_byte &&& 0xF8 = 0xF0 then 4
  else 1

def byte2hex (char : UInt8) : UInt8 := if char ≤ 9 then char + 0x30 else char - 10 + 0x61

def escape (byte : UInt8) : List UInt8 :=
  [0x25, byte2hex ((byte >>> 4) &&& 0xF), byte2hex (byte &&& 0xF)]

inductive EncodeError
  | IncompleteUTF8
deriving DecidableEq

/-- What needs no encoding is copied in runs, every other byte is escaped. -/
def percentEncodeLoop (enableSIMD : Bool) :
    ℕ → List UInt8 → List UInt8 → Except EncodeError (List UInt8)
  | 0, remaining, writer => .ok (writer ++ remaining)
  | n + 1, remaining, writer =>
    match indexOfNeedsURLEncode enableSIMD remaining with
    | none => .ok (writer ++ remaining)
    | some j =>
      let code_point_len := wtf8ByteSequenceLengthWithInvalid ((remaining.drop j).headD 0)
      if (remaining.drop j).length < code_point_len then .error .IncompleteUTF8
      else percentEncodeLoop enableSIMD n ((remaining.drop j).drop code_point_len)
        (writer ++ remaining.take j ++ ((remaining.drop j).take code_point_len).flatMap escape)

/-- What is written for a text. -/
def percentEncodeWrite (enableSIMD : Bool) (utf8_input writer : List UInt8) :
    Except EncodeError (List UInt8) :=
  percentEncodeLoop enableSIMD utf8_input.length utf8_input writer

/-- How far it is to the next byte that the loops find. -/
abbrev gap (s : List UInt8) : Option ℕ := s.findIdx? isFound

/-- The byte in front is encoded: the index of the next find is zero, as a number of 32 bits, or a
DEL is first in what remains. -/
def picked (behind : Bool) (s : List UInt8) : Bool :=
  (gap s).any (fun d => d % 2 ^ 32 = 0) || behind && s.head? = some 0x7F

/-- What the loop writes, byte by byte. -/
def written : Bool → List UInt8 → List UInt8
  | _, [] => []
  | behind, c :: s =>
    if picked behind (c :: s) then escape c ++ written true s else c :: written false s

theorem forall_byte {P : UInt8 → Prop} (h : ∀ n < 256, P (UInt8.ofNat n)) (b : UInt8) : P b :=
  UInt8.ofNat_toNat (x := b) ▸ h b.toNat b.toNat_lt

theorem class_spec : ∀ c : UInt8, (mustEncode c → c ≠ 0x7F → isFound c) ∧
    (0x80 ≤ c.toNat → isFound c) ∧
    (mustEncode c = false → c.toNat < 0x80 ∧ c ≠ 0x25 ∧ c ≠ 0x7F ∧ isFound c = false) ∧
    (isASCIIHexDigit c → mustEncode c = false) :=
  forall_byte (by decide +kernel)

variable (c : UInt8)

theorem isFound_of_mustEncode : mustEncode c → c ≠ 0x7F → isFound c := (class_spec c).1

theorem isFound_of_le : 0x80 ≤ c.toNat → isFound c := (class_spec c).2.1

theorem plain_of_not_mustEncode : mustEncode c = false →
    c.toNat < 0x80 ∧ c ≠ 0x25 ∧ c ≠ 0x7F ∧ isFound c = false := (class_spec c).2.2.1

theorem escape_spec : ∀ c : UInt8, isASCIIHexDigit (byte2hex ((c >>> 4) &&& 0xF)) ∧
    isASCIIHexDigit (byte2hex (c &&& 0xF)) ∧
    toASCIIHexValue (byte2hex ((c >>> 4) &&& 0xF)) <<< 4
      ||| toASCIIHexValue (byte2hex (c &&& 0xF)) = c :=
  forall_byte (by decide +kernel)

theorem mem_escape {c x : UInt8} (hx : x ∈ escape c) : x = 0x25 ∨ mustEncode x = false := by
  obtain ⟨hhg, hlow, -⟩ := escape_spec c
  simp only [escape, mem_cons, not_mem_nil, or_false] at hx
  rcases hx with rfl | rfl | rfl
  · exact Or.inl rfl
  · exact Or.inr ((class_spec _).2.2.2 hhg)
  · exact Or.inr ((class_spec _).2.2.2 hlow)

theorem sequenceLength_eq : ∀ b : UInt8, wtf8ByteSequenceLengthWithInvalid b =
    if b.toNat < 0xC0 then 1 else if b.toNat < 0xE0 then 2 else if b.toNat < 0xF0 then 3
    else if b.toNat < 0xF8 then 4 else 1 :=
  forall_byte (by decide +kernel)

variable {n : ℕ} {s : List UInt8}

theorem indexLoop_eq {enableSIMD : Bool} {offset : ℕ} (hof : 16 ∣ offset)
    (hn : s.length < n) : indexOfNeedsURLEncodeLoop enableSIMD offset n s =
      (gap s).map fun i => (offset + i) % 2 ^ 32 := by
  induction n generalizing offset s with
  | zero => omega
  | succ n ih =>
    rw [indexOfNeedsURLEncodeLoop]
    by_cases hbl : enableSIMD = true ∧ 16 ≤ s.length
    · rw [if_pos hbl]
      have hlen : (s.take 16).length = 16 := length_take_of_le hbl.2
      have hap : gap s = (gap (s.take 16)).or ((gap (s.drop 16)).map (· + 16)) := by
        rw [gap, ← take_append_drop 16 s, findIdx?_append, take_append_drop, hlen]
      by_cases hany : (s.take 16).any isFound = true
      · have hlt : (s.take 16).findIdx isFound < (s.take 16).length :=
          findIdx_lt_length.2 (by simpa using hany)
        have hfr : gap (s.take 16) = some ((s.take 16).findIdx isFound) :=
          findIdx?_eq_some_iff_findIdx_eq.2 ⟨hlt, rfl⟩
        rw [if_pos hany, hap, hfr, Option.some_or, Option.map_some]
        congr 1
        omega
      · have hfr : gap (s.take 16) = none :=
          findIdx?_eq_none_iff.2 (by simpa using hany)
        rw [if_neg hany, ih (by omega) (by rw [length_drop]; omega), hap, hfr,
          Option.none_or, Option.map_map]
        congr 1
        funext i
        rw [Function.comp_apply, Nat.add_assoc, Nat.add_comm 16]
    · rw [if_neg hbl]

variable (enableSIMD : Bool)

theorem index_eq (s : List UInt8) : indexOfNeedsURLEncode enableSIMD s =
    if s.head? = some 0x7F then some 0 else (gap s).map (· % 2 ^ 32) := by
  rcases s with _ | ⟨c, s⟩
  · rfl
  rw [indexOfNeedsURLEncode, indexLoop_eq (by simp) (by simp)]
  by_cases hdel : c = 0x7F
  · subst hdel
    rfl
  · rw [if_neg (show (c :: s).head? ≠ some 0x7F by simpa using hdel)]
    by_cases hms : mustEncode c = true
    · rw [if_pos hms, gap, findIdx?_cons, if_pos (isFound_of_mustEncode c hms hdel)]
      rfl
    · rw [if_neg hms]
      simp

variable {behind : Bool}

theorem written_none (hgap : gap s = none)
    (hhd : behind = true → s.head? ≠ some 0x7F) : written behind s = s := by
  induction s generalizing behind with
  | nil => rfl
  | cons c s ih =>
    have hpc : picked behind (c :: s) = false := by
      rw [picked, hgap]
      rcases behind <;> simp_all
    rw [written, hpc, if_neg Bool.false_ne_true]
    rw [gap, findIdx?_cons] at hgap
    split_ifs at hgap
    rw [ih (Option.map_eq_none_iff.1 hgap) fun h => absurd h Bool.false_ne_true]

/-- Up to the byte that is encoded, what is written is what was read. -/
theorem written_drop {d : ℕ} (hgap : gap s = some d)
    (hhd : behind = true → s.head? ≠ some 0x7F) :
    written behind s = s.take (d % 2 ^ 32) ++ written false (s.drop (d % 2 ^ 32))
      ∧ picked false (s.drop (d % 2 ^ 32)) = true
      ∧ ∀ b ∈ s.take (d % 2 ^ 32), isFound b = false := by
  induction s generalizing behind d with
  | nil => cases hgap
  | cons c s ih =>
    rcases hd : d % 2 ^ 32 with _ | j
    · have hpc : ∀ b, picked b (c :: s) = true := fun b => by
        simp only [picked, hgap, Option.any_some, hd, decide_true, Bool.true_or]
      simp only [take_zero, drop_zero, nil_append, written, hpc]
      simp
    · have hpc : picked behind (c :: s) = false := by
        rw [picked, hgap]
        rcases behind <;> simp_all
      rw [gap, findIdx?_cons] at hgap
      split_ifs at hgap with hc
      · cases hgap
        cases hd
      obtain ⟨e, he, rfl⟩ := Option.map_eq_some_iff.1 hgap
      have hj : e % 2 ^ 32 = j := by omega
      obtain ⟨hwr, hp, hpl⟩ := @ih false e he
        fun h => absurd h Bool.false_ne_true
      rw [hj] at hwr hp hpl
      rw [take_succ_cons, drop_succ_cons, written, hpc, if_neg Bool.false_ne_true, hwr]
      exact ⟨rfl, hp, forall_mem_cons.2 ⟨by simpa using hc, hpl⟩⟩

theorem written_found {bs : List UInt8} (hbs : ∀ b ∈ bs, 0x80 ≤ b.toNat) (rest : List UInt8) :
    written true (bs ++ rest) = bs.flatMap escape ++ written true rest := by
  induction bs with
  | nil => rfl
  | cons b bs ih =>
    obtain ⟨hb, hbs⟩ := forall_mem_cons.1 hbs
    have hpc : picked true (b :: (bs ++ rest)) = true := by
      simp [picked, gap, findIdx?_cons, isFound_of_le b hb]
    rw [cons_append, written, hpc, if_pos rfl, ih hbs, flatMap_cons, append_assoc]

theorem encode_cases {c : ℕ} (hc : Utf8.Scalar c) :
    (∃ b, Utf8.encode c = [b] ∧ b.toNat < 0x80) ∨ ∃ b bs, Utf8.encode c = b :: bs
      ∧ (∀ x ∈ b :: bs, 0x80 ≤ x.toNat) ∧ wtf8ByteSequenceLengthWithInvalid b = bs.length + 1 := by
  unfold Utf8.Scalar at hc
  unfold Utf8.encode
  split_ifs with h1 h2 h3
  · exact Or.inl ⟨_, rfl, by rwa [Utf8.toNat_ofNat_lt (by omega)]⟩
  all_goals
    refine Or.inr ⟨_, _, rfl, ?_, ?_⟩
    · simp only [forall_mem_cons, not_mem_nil, false_imp_iff, implies_true, and_true,
        UInt8.toNat_ofNat']
      omega
    · rw [sequenceLength_eq, Utf8.toNat_ofNat_lt (by omega)]
      split_ifs <;> first | rfl | omega

theorem valid_cons {b : UInt8} (hb : b.toNat < 0x80) :
    Valid (b :: s) ↔ Valid s := by
  have htx := Utf8.text_ascii hb s
  rw [UInt8.ofNat_toNat] at htx
  simp [Valid, htx]

theorem valid_drop (h : Valid s) (hs : ∀ b ∈ s.take n, isFound b = false) :
    Valid (s.drop n) := by
  induction n generalizing s with
  | zero => exact h
  | succ n ih =>
    rcases s with _ | ⟨b, s⟩
    · exact h
    obtain ⟨hb, hs⟩ := forall_mem_cons.1 hs
    have hac : b.toNat < 0x80 := by
      by_contra hle
      rw [isFound_of_le b (not_lt.1 hle)] at hb
      cases hb
    exact ih ((valid_cons hac).1 h) hs

/-- The character that begins with the byte found is written as a whole. -/
theorem written_character (hs : Valid s)
    (hpc : picked behind s = true) :
    let n := wtf8ByteSequenceLengthWithInvalid (s.headD 0)
    0 < n ∧ n ≤ s.length ∧ Valid (s.drop n)
      ∧ written behind s = (s.take n).flatMap escape ++ written true (s.drop n) := by
  have hne : s ≠ [] := by
    rintro rfl
    rcases behind <;> exact absurd hpc (by decide)
  obtain ⟨c, rest, hc, rfl, hrs⟩ := Utf8.exists_encode_of_valid hne hs
  rcases encode_cases hc with ⟨b, henc, hb⟩ | ⟨b, bs, henc, hby, hlen⟩
  · have hone : wtf8ByteSequenceLengthWithInvalid b = 1 := by
      rw [sequenceLength_eq, if_pos (by omega)]
    rw [henc] at hpc ⊢
    simp only [cons_append, nil_append] at hpc ⊢
    simp only [headD_cons, hone]
    refine ⟨one_pos, by simp, hrs, ?_⟩
    rw [written, if_pos hpc]
    simp
  · have htk : (b :: (bs ++ rest)).take (bs.length + 1) = b :: bs := by simp
    have hdr : (b :: (bs ++ rest)).drop (bs.length + 1) = rest := by simp
    rw [henc] at hpc ⊢
    rw [cons_append] at hpc ⊢
    simp only [headD_cons, hlen, htk, hdr]
    refine ⟨Nat.succ_pos _, by simp, hrs, ?_⟩
    obtain ⟨hb, hbs⟩ := forall_mem_cons.1 hby
    rw [written, if_pos hpc, written_found hbs, flatMap_cons, append_assoc]

/-- The loop writes the text it should behind what is written. -/
theorem percentEncodeLoop_eq (hs : Valid s)
    (hn : s.length ≤ n) (writer : List UInt8) :
    percentEncodeLoop enableSIMD n s writer = .ok (writer ++ written true s) := by
  induction n generalizing s writer with
  | zero =>
    rw [length_eq_zero_iff.1 (Nat.le_zero.1 hn)]
    rfl
  | succ n ih =>
    -- where the character found begins
    have hrn : ∀ j, indexOfNeedsURLEncode enableSIMD s = some j →
        (∀ b ∈ s.take j, isFound b = false) → (∃ behind, picked behind (s.drop j) = true
          ∧ written true s = s.take j ++ written behind (s.drop j)) →
        percentEncodeLoop enableSIMD (n + 1) s writer = .ok (writer ++ written true s) := by
      rintro j hj hpl ⟨behind, hpc, hwr⟩
      obtain ⟨hpos, hle, hvl, hch⟩ := written_character (valid_drop hs hpl) hpc
      rw [percentEncodeLoop, hj]
      simp only [if_neg (not_lt.2 hle)]
      rw [ih hvl (by simp only [length_drop] at hle ⊢; omega), hwr, hch]
      simp only [append_assoc]
    have hin := index_eq enableSIMD s
    by_cases hdel : s.head? = some 0x7F
    · rw [if_pos hdel] at hin
      refine hrn 0 hin (by simp) ⟨true, ?_, rfl⟩
      simp [picked, hdel]
    · rw [if_neg hdel] at hin
      rcases hgap : gap s with _ | d
      · rw [hgap] at hin
        rw [percentEncodeLoop, hin, written_none hgap fun _ => hdel]
        rfl
      · rw [hgap] at hin
        obtain ⟨hwr, hpc, hpl⟩ := written_drop hgap fun _ => hdel
        exact hrn _ hin hpl ⟨false, hpc, hwr⟩

theorem percentEncodeWrite_eq (hs : Valid s)
    (writer : List UInt8) :
    percentEncodeWrite enableSIMD s writer = .ok (writer ++ written true s) :=
  percentEncodeLoop_eq enableSIMD hs le_rfl writer

theorem written_decodes (behind : Bool) (s : List UInt8) :
    percentDecode (written behind s) = s ∧ wellFormed (written behind s) = true := by
  induction s generalizing behind with
  | nil => exact ⟨rfl, rfl⟩
  | cons c s ih =>
    obtain ⟨hhg, hlow, hvl⟩ := escape_spec c
    rw [written]
    split_ifs with hpc
    · simp [escape, percentDecode, wellFormed, hhg, hlow, hvl, ih]
    · have hc : c ≠ 0x25 := by
        rintro rfl
        exact hpc (by simp [picked, gap, findIdx?_cons, needsURLEncode])
      rw [percentDecode_cons hc, wellFormed_cons hc, (ih _).1]
      exact ⟨rfl, (ih _).2⟩

/-- What the writer is for: the text is read back from what is written, in which no byte stands as
it is that must be encoded, and it may as well be written in two parts. -/
structure EncodesWell (enableSIMD : Bool) (s : List UInt8) : Prop where
  decodes : ∃ out, (∀ writer, percentEncodeWrite enableSIMD s writer = .ok (writer ++ out))
    ∧ percentDecode out = s ∧ wellFormed out = true ∧ ∀ c ∈ out, c = 0x25 ∨ mustEncode c = false
  append : ∀ a b writer, s = a ++ b → Valid a → Valid b →
    (percentEncodeWrite enableSIMD a writer).bind (percentEncodeWrite enableSIMD b)
      = percentEncodeWrite enableSIMD s writer

/-- The first byte to be encoded behind others that are not is no DEL, and these are fewer than
`2 ^ 32`. -/
def Spaced (s : List UInt8) : Prop :=
  ∀ pre run t post, s = pre ++ run ++ t :: post → run ≠ [] → (∀ c ∈ run, mustEncode c = false) →
    mustEncode t = true → t ≠ 0x7F ∧ run.length < 2 ^ 32

theorem Spaced.tail {c : UInt8} (h : Spaced (c :: s)) : Spaced s :=
  fun pre run t post hs => h (c :: pre) run t post (by rw [hs]; rfl)

theorem gap_append {run : List UInt8} (hrun : ∀ c ∈ run, mustEncode c = false) (s : List UInt8) :
    gap (run ++ s) = (gap s).map (· + run.length) := by
  have hno : gap run = none :=
    findIdx?_eq_none_iff.2 fun c hc => (plain_of_not_mustEncode c (hrun c hc)).2.2.2
  rw [gap, findIdx?_append, show findIdx? isFound run = none from hno, Option.none_or]

/-- What the loop writes is right where the escapes have their distance. -/
theorem written_spaced (h : Spaced s)
    (hhd : behind = false → s.head? ≠ some 0x7F) :
    written behind s = s.flatMap fun c => if mustEncode c then escape c else [c] := by
  induction s generalizing behind with
  | nil => rfl
  | cons c s ih =>
    rw [flatMap_cons, written]
    by_cases hc : mustEncode c = true
    · have hpc : picked behind (c :: s) = true := by
        by_cases hdel : c = 0x7F
        · cases behind
          · exact absurd (congrArg some hdel) (hhd rfl)
          · simp [picked, hdel]
        · simp [picked, gap, findIdx?_cons, isFound_of_mustEncode c hc hdel]
      rw [if_pos hpc, if_pos hc, ih h.tail fun h => absurd h.symm Bool.false_ne_true]
    · rw [Bool.not_eq_true] at hc
      obtain ⟨-, -, hdel, hfn⟩ := plain_of_not_mustEncode c hc
      -- the bytes up to the next one that must be encoded
      have hgap : (gap (c :: s)).any (fun d => d % 2 ^ 32 = 0) = false := by
        have hsp := takeWhile_append_dropWhile (p := fun c => !mustEncode c) (l := c :: s)
        have hrun : ∀ b ∈ (c :: s).takeWhile fun c => !mustEncode c, mustEncode b = false :=
          fun b hb => by simpa using mem_takeWhile_imp hb
        rw [← hsp, gap_append hrun]
        rcases hrs : (c :: s).dropWhile fun c => !mustEncode c with _ | ⟨t, post⟩
        · rfl
        have ht : mustEncode t = true := by
          have := head_dropWhile_not (fun c => !mustEncode c) (l := c :: s) (by simp [hrs])
          simpa [hrs] using this
        have hne : (c :: s).takeWhile (fun c => !mustEncode c) ≠ [] := by simp [hc]
        have hsc := h [] _ t post (by rw [← hrs]; exact hsp.symm) hne hrun ht
        have hpos := length_pos_iff.2 hne
        rw [gap, findIdx?_cons, if_pos (isFound_of_mustEncode t ht hsc.1)]
        simp only [Option.map_some, Option.any_some, decide_eq_false_iff_not]
        omega
      have hpc : picked behind (c :: s) = false := by
        rw [picked, hgap]
        simp [hdel]
      rw [hpc, if_neg Bool.false_ne_true, hc, if_neg Bool.false_ne_true, ih h.tail]
      · rfl
      · rintro - hs
        obtain ⟨post, rfl⟩ := head?_eq_some_iff.1 hs
        exact (h [] [c] 0x7F post rfl (by simp) (by simpa using hc) (by decide)).1 rfl

theorem valid_append {a b : List UInt8} (ha : Valid a) (hb : Valid b) : Valid (a ++ b) := by
  obtain ⟨cs, hcs, rfl⟩ := Utf8.exists_scalars_of_valid ha
  obtain ⟨ds, hds, rfl⟩ := Utf8.exists_scalars_of_valid hb
  rw [← flatMap_append, Valid, Utf8.text_flatMap_encode (forall_mem_append.2 ⟨hcs, hds⟩)]
  simp

theorem valid_split {u v : List UInt8} {x : UInt8} (h : Valid (u ++ x :: v)) (hx : x.toNat < 0x80) :
    Valid u ∧ Valid (x :: v) := by
  induction hn : u.length using Nat.strong_induction_on generalizing u with
  | _ n ih =>
    rcases eq_or_ne u [] with rfl | hne
    · exact ⟨by decide, h⟩
    obtain ⟨c, rest, hc, hsp, hrs⟩ := Utf8.exists_encode_of_valid (by simp) h
    have hch : Valid (Utf8.encode c) := by
      have := Utf8.text_encode_append hc []
      rw [append_nil] at this
      simp [Valid, this]
    rcases append_eq_append_iff.1 hsp with ⟨w, henc, hw⟩ | ⟨w, rfl, hw⟩
    · rcases w with _ | ⟨y, w⟩
      · rw [append_nil] at henc
        rw [nil_append] at hw
        exact ⟨henc ▸ hch, hw ▸ hrs⟩
      · cases hw
        rcases encode_cases hc with ⟨b, hb, -⟩ | ⟨b, bs, hb, hby, -⟩
        · have hlen := congrArg length (henc.symm.trans hb)
          have := length_pos_iff.2 hne
          simp at hlen
          omega
        · have := hby x (hb ▸ henc ▸ by simp)
          omega
    · have hpos : 0 < (Utf8.encode c).length := by
        rcases encode_cases hc with ⟨b, hb, -⟩ | ⟨b, bs, hb, -⟩ <;> simp [hb]
      rw [length_append] at hn
      obtain ⟨hw', hv⟩ := ih w.length (by omega) (hw ▸ hrs) rfl
      exact ⟨valid_append hch hw', hv⟩

theorem written_append_plain {v : List UInt8} (hv : gap v = none) (hhd : v.head? ≠ some 0x7F)
    (u : List UInt8) (behind : Bool) : written behind (u ++ v) = written behind u ++ v := by
  induction u generalizing behind with
  | nil => exact written_none hv fun _ => hhd
  | cons c u ih =>
    have hpc : picked behind (c :: (u ++ v)) = picked behind (c :: u) := by
      have hgap : gap (c :: (u ++ v)) = gap (c :: u) := by
        rw [← cons_append, gap, findIdx?_append, show findIdx? isFound v = none from hv]
        simp
      rw [picked, picked, hgap]
      rfl
    rw [cons_append, written, written, hpc, ih, ih]
    split_ifs <;> simp

theorem written_picked {c : UInt8}
    (h : picked behind (c :: s) = true) : (written behind (c :: s)).head? = some 0x25 := by
  rw [written, if_pos h]
  rfl

/-- A text that is encoded piece by piece as it is in one is spaced. -/
theorem spaced_of_append (hs : Valid s) (hap : ∀ a b, s = a ++ b →
    Valid a → Valid b → written true s = written true a ++ written true b) : Spaced s := by
  rintro pre run t post rfl hne hrun ht
  -- no byte is kept at the end of one part and encoded at the beginning of another
  have hcut : ∀ u y v, pre ++ run ++ t :: post = u ++ y :: v → y.toNat < 0x80 → y ≠ 0x25 →
      picked true (y :: v) = true → written true (u ++ [y]) ≠ written true u ++ [y] := by
    intro u y v hsp hac hpr hpc hkp
    have hvl := valid_split (hsp ▸ hs) hac
    have hone : Valid [y] := (valid_cons hac).2 (by decide)
    have h1 := hap u (y :: v) hsp hvl.1 hvl.2
    have h2 := hap (u ++ [y]) v (by rw [hsp]; simp) (valid_append hvl.1 hone)
      ((valid_cons hac).1 hvl.2)
    rw [h1, hkp, append_assoc, append_cancel_left_eq] at h2
    have h3 := written_picked hpc
    rw [h2] at h3
    exact hpr (Option.some.inj h3)
  have hpl := fun c hc => plain_of_not_mustEncode c (hrun c hc)
  have hdel : t ≠ 0x7F := by
    rintro rfl
    rcases eq_nil_or_concat run with rfl | ⟨r, x, rfl⟩
    · exact hne rfl
    obtain ⟨-, -, hx, hfn⟩ := hpl x (by simp)
    refine hcut (pre ++ r ++ [x]) 0x7F post (by simp) (by decide) (by decide) (by simp [picked]) ?_
    have htwo : gap [x, 0x7F] = none := findIdx?_eq_none_iff.2 (by simpa using ⟨hfn, by decide⟩)
    rw [append_assoc, cons_append, nil_append, written_append_plain htwo (by simpa using hx),
      written_append_plain (v := [x]) (by simpa using hfn) (by simpa using hx), append_assoc]
    rfl
  refine ⟨hdel, not_le.1 fun hlen => ?_⟩
  obtain ⟨r₁, y, r₂, rfl, hr₂⟩ : ∃ r₁ y r₂, run = r₁ ++ y :: r₂ ∧ r₂.length + 1 = 2 ^ 32 := by
    have hlt : run.length - 2 ^ 32 < run.length := by omega
    refine ⟨run.take (run.length - 2 ^ 32), run[run.length - 2 ^ 32],
      run.drop (run.length - 2 ^ 32 + 1), ?_, by rw [length_drop]; omega⟩
    rw [← drop_eq_getElem_cons hlt, take_append_drop]
  obtain ⟨hac, hpr, hy, hfn⟩ := hpl y (by simp)
  refine hcut (pre ++ r₁) y (r₂ ++ t :: post) (by simp) hac hpr ?_
    (written_append_plain (by simpa using hfn) (by simpa using hy) _ _)
  have hgap := @gap_append (y :: r₂) (fun c hc => hrun c (by simp_all)) (t :: post)
  rw [gap, gap, findIdx?_cons, if_pos (isFound_of_mustEncode t ht hdel), Option.map_some,
    length_cons, hr₂] at hgap
  rw [picked, gap, ← cons_append, hgap]
  rfl

/-- Strings are encoded well just when no DEL and nothing behind `2 ^ 32` bytes must be encoded
after a byte that need not be. -/
theorem encodesWell_iff (enableSIMD : Bool) {s : List UInt8} (hs : Valid s) :
    EncodesWell enableSIMD s ↔ Spaced s := by
  have heq := percentEncodeWrite_eq enableSIMD hs
  constructor
  · intro h
    refine spaced_of_append hs fun a b hab ha hb => ?_
    have happend := h.append a b [] hab ha hb
    rw [heq, percentEncodeWrite_eq enableSIMD ha] at happend
    change percentEncodeWrite enableSIMD b _ = _ at happend
    rw [percentEncodeWrite_eq enableSIMD hb] at happend
    exact (Except.ok.inj happend).symm
  · intro h
    have hideal := written_spaced h (fun h => absurd h.symm Bool.false_ne_true)
    refine ⟨⟨written true s, heq, (written_decodes true s).1, (written_decodes true s).2, ?_⟩, ?_⟩
    · rw [hideal]
      intro x hx
      obtain ⟨c, -, hx⟩ := mem_flatMap.1 hx
      split_ifs at hx with hc
      · exact mem_escape hx
      · rw [mem_singleton.1 hx]
        exact Or.inr (Bool.not_eq_true _ ▸ hc)
    · rintro a b writer rfl ha hb
      have hspaced : Spaced a ∧ Spaced b := by
        constructor
        · rintro pre run t post rfl
          exact h pre run t (post ++ b) (by simp)
        · rintro pre run t post rfl
          exact h (a ++ pre) run t post (by simp)
      rw [heq, percentEncodeWrite_eq enableSIMD ha]
      change percentEncodeWrite enableSIMD b _ = _
      rw [percentEncodeWrite_eq enableSIMD hb, hideal, flatMap_append, append_assoc,
        written_spaced hspaced.1 fun h => absurd h.symm Bool.false_ne_true,
        written_spaced hspaced.2 fun h => absurd h.symm Bool.false_ne_true]

/-- `ab ü c`, where a space and the two bytes of the umlaut are encoded. -/
theorem encodesWell_umlaut : EncodesWell true [0x61, 0x62, 0x20, 0xC3, 0xBC, 0x20, 0x63] := by
  refine (encodesWell_iff true (by decide)).2 fun pre run t post hs _ _ _ => ⟨?_, ?_⟩
  · rintro rfl
    have hmem : (0x7F : UInt8) ∈ [0x61, 0x62, 0x20, 0xC3, 0xBC, 0x20, 0x63] := by
      rw [hs]
      simp
    exact absurd hmem (by decide)
  · have hlength := congrArg length hs
    simp only [length_append, length_cons, length_nil] at hlength
    omega

/-- The DEL of `"a\x7f"` is not encoded. -/
theorem not_encodesWell : ¬ ∀ enableSIMD s, Valid s → EncodesWell enableSIMD s := by
  intro h
  obtain ⟨out, hout, -, -, hplain⟩ := (h true [0x61, 0x7F] (by decide)).decodes
  have hout := Except.ok.inj ((hout []).symm.trans (show _ = Except.ok [0x61, 0x7F] from rfl))
  rw [nil_append] at hout
  exact absurd (hplain 0x7F (by simp [hout])) (by decide)

end Cruller.Url
