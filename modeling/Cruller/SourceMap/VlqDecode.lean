import Cruller.SourceMap.Vlq

/-!
# Reading base64 VLQ

`VLQ.decode` and `VLQ.decodeAssumeValid` of `sourcemap/VLQ.zig`. Every `i32` but the lowest is read
back from what `encode` writes, whatever follows (`decode_encode`).

The reader stops at a digit whose continuation bit is clear, or after eight digits; every other
byte counts as a digit that goes on. So a read is in bounds exactly where such a digit comes in time
and no byte before it is the one behind the end of the table (`decode_isSome_iff`).
-/

namespace Cruller.SourceMap

open List Option Nat

/-- A number, and where it ends. -/
structure VLQResult where
  value : ℤ := 0
  start : ℕ := 0
  deriving DecidableEq, Repr

/-- 127 places, not 128. -/
def base64Lut : List ℕ :=
  base64.zipIdx.foldl (fun bytes c => bytes.set c.1.toNat c.2) (List.replicate 127 127)

/-- The lowest bit is the sign. -/
def signed (vlq : ℕ) : ℤ := if vlq &&& 1 = 0 then ↑(vlq >>> 1) else -↑(vlq >>> 1)

/-- The loop over the digits, `n` of which are left to read: `encoded` is what is left of the slice,
`i` how much of it was read. `none` is a read out of bounds, or a byte that `valid` excludes. -/
def decodeDigits (valid : UInt8 → ℕ → Bool) (start : ℕ) :
    ℕ → List UInt8 → ℕ → ℕ → ℕ → Option VLQResult
  -- here the whole slice was read
  | 0, _, i, _, _ => some { value := 0, start := start + i }
  | _ + 1, [], _, _, _ => none
  | n + 1, byte :: encoded, i, shift, vlq => do
    let index ← base64Lut[(byte &&& 0x7f).toNat]?
    if valid byte index then
      let vlq := vlq ||| ((index &&& 31) <<< (shift % 32)) % 2 ^ 32
      let shift := shift + 5
      if index &&& 32 = 0 then some { value := signed vlq, start := start + (i + 1) }
      else decodeDigits valid start n encoded (i + 1) shift vlq
    else none

def decodeWith (valid : UInt8 → ℕ → Bool) (encoded : List UInt8) (start : ℕ) : Option VLQResult :=
  if start ≤ encoded.length then
    let slice := (encoded.drop start).take (min (encoded.length - start) (vlqMaxInBytes + 1))
    decodeDigits valid start (vlqMaxInBytes + 1) slice 0 0 0
  else none

/-- The number at a place; its letters are not checked. -/
def decode (encoded : List UInt8) (start : ℕ) : Option VLQResult :=
  decodeWith (fun _ _ => true) encoded start

/-- With assertions, a byte that is no base64 digit is a failed assertion. -/
def decodeAssumeValid (allowAssert : Bool) (encoded : List UInt8) (start : ℕ) : Option VLQResult :=
  decodeWith (fun byte index => !allowAssert || (byte < 127 && index ≠ 127)) encoded start

attribute [local simp] decodeDigits

section

variable {valid : UInt8 → ℕ → Bool} {start n i shift vlq : ℕ} {encoded more : List UInt8}
  {r : VLQResult}

theorem decodeDigits_take :
    decodeDigits valid start n (encoded.take n) i shift vlq =
      decodeDigits valid start n encoded i shift vlq := by
  induction n generalizing encoded i shift vlq with
  | zero => rfl
  | succ n ih =>
    rcases encoded with _ | ⟨byte, encoded⟩
    · rfl
    · simp [ih]

theorem decodeWith_eq (h : start ≤ encoded.length) :
    decodeWith valid encoded start =
      decodeDigits valid start (vlqMaxInBytes + 1) (encoded.drop start) 0 0 0 := by
  rw [decodeWith, if_pos h]
  refine Eq.trans ?_ (decodeDigits_take (n := vlqMaxInBytes + 1))
  simp only
  congr 1
  rcases Nat.le_total (encoded.length - start) (vlqMaxInBytes + 1) with hle | hle
  · simp [min_eq_left hle]
    omega
  · rw [min_eq_right hle]

theorem decodeDigits_append (h : decodeDigits valid start n encoded i shift vlq = some r) :
    decodeDigits valid start n (encoded ++ more) i shift vlq = some r := by
  induction n generalizing encoded i shift vlq with
  | zero => simpa only [decodeDigits] using h
  | succ n ih =>
    rcases encoded with _ | ⟨byte, encoded⟩
    · simp at h
    · simp only [cons_append, decodeDigits, bind_eq_bind,
        bind_eq_some_iff] at h ⊢
      obtain ⟨index, hin, h⟩ := h
      refine ⟨index, hin, ?_⟩
      split_ifs at h ⊢ with hv hend
      · exact h
      · exact ih h

theorem decodeWith_append (h : decodeWith valid encoded start = some r) :
    decodeWith valid (encoded ++ more) start = some r := by
  have hle : start ≤ encoded.length := by
    by_contra hlt
    simp [decodeWith, hlt] at h
  rw [decodeWith_eq hle] at h
  rw [decodeWith_eq (by rw [length_append]; omega), drop_append_of_le_length hle]
  exact decodeDigits_append h

theorem decodeDigits_start (h : decodeDigits valid start n encoded i shift vlq = some r) :
    start + i ≤ r.start ∧ (0 < n → start + i < r.start)
      ∧ r.start ≤ start + i + encoded.length := by
  induction n generalizing encoded i shift vlq with
  | zero =>
    simp only [decodeDigits, some.injEq] at h
    subst h
    exact ⟨le_rfl, fun h => absurd h (lt_irrefl 0), Nat.le_add_right ..⟩
  | succ n ih =>
    rcases encoded with _ | ⟨byte, encoded⟩
    · simp at h
    · simp only [decodeDigits, bind_eq_bind, bind_eq_some_iff] at h
      obtain ⟨index, -, h⟩ := h
      rw [length_cons]
      split_ifs at h with hv hend
      · rw [some.injEq] at h
        subst h
        exact ⟨by simp only; omega, fun _ => by simp only; omega, by simp only; omega⟩
      · obtain ⟨h1, -, h3⟩ := ih h
        exact ⟨by omega, fun _ => by omega, by omega⟩

theorem decodeWith_start (h : decodeWith valid encoded start = some r) :
    start < r.start ∧ r.start ≤ encoded.length := by
  have hle : start ≤ encoded.length := by
    by_contra hlt
    simp [decodeWith, hlt] at h
  rw [decodeWith_eq hle] at h
  obtain ⟨-, h2, h3⟩ := decodeDigits_start h
  have := h2 (by decide)
  rw [length_drop] at h3
  omega

end

theorem digit_spec :
    (∀ d < 64, ∃ byte, base64[d]? = some byte ∧ base64Lut[(byte &&& 0x7f).toNat]? = some d
      ∧ byte < 127)
    ∧ ∀ d < 32, (d &&& 31 = d ∧ d &&& 32 = 0) ∧ (d ||| 32) &&& 31 = d ∧ (d ||| 32) &&& 32 ≠ 0 := by
  decide +kernel

section

variable {valid : UInt8 → ℕ → Bool} {start n i v acc : ℕ} {bytes rest : List UInt8}

/-- A reader that lets every digit of the alphabet pass. -/
def Admits (valid : UInt8 → ℕ → Bool) : Prop := ∀ byte d, byte < 127 → d < 64 → valid byte d

/-- `acc` holds the digits before. -/
theorem decodeDigits_encodeDigits (hvl : Admits valid) (h : encodeDigits n v = some bytes)
    (hi : i + n = vlqMaxInBytes) (hacc : acc < 2 ^ (5 * i)) (hv : acc + v * 2 ^ (5 * i) < 2 ^ 32) :
    decodeDigits valid start (n + 1) (bytes ++ rest) i (5 * i) acc =
      some { value := signed (acc + v * 2 ^ (5 * i)), start := start + (i + bytes.length) } := by
  induction n generalizing i v acc bytes with
  | zero => simp [encodeDigits] at h
  | succ n ih =>
    have hlow : v &&& 31 = v % 32 := and_two_pow_sub_one_eq_mod v 5
    have hhg : v >>> 5 = v / 32 := shiftRight_eq_div_pow v 5
    have hd : v % 32 < 32 := mod_lt _ (by decide)
    have hdiv : v % 32 + 32 * (v / 32) = v := mod_add_div v 32
    have hpow : 2 ^ (5 * (i + 1)) = 32 * 2 ^ (5 * i) := by
      rw [show 5 * (i + 1) = 5 + 5 * i by ring, pow_add]
      norm_num
    have hsh : 5 * i % 32 = 5 * i := mod_eq_of_lt (by unfold vlqMaxInBytes at hi; omega)
    have hle : v % 32 * 2 ^ (5 * i) ≤ v * 2 ^ (5 * i) :=
      Nat.mul_le_mul_right _ (mod_le v 32)
    -- the digit goes above what was read
    have hor : acc ||| ((v % 32) <<< (5 * i % 32)) % 2 ^ 32 = acc + v % 32 * 2 ^ (5 * i) := by
      rw [hsh, shiftLeft_eq, mod_eq_of_lt (by omega), Nat.mul_comm, Nat.or_comm,
        ← two_pow_add_eq_or_of_lt hacc, Nat.add_comm]
    have hsum : acc + v % 32 * 2 ^ (5 * i) + v / 32 * 2 ^ (5 * (i + 1)) =
        acc + v * 2 ^ (5 * i) := by
      rw [hpow]
      conv_rhs => rw [← hdiv]
      ring
    simp only [encodeDigits, hlow, hhg, bind_eq_bind, bind_eq_some_iff] at h
    obtain ⟨byte, hby, h⟩ := h
    by_cases hz : v / 32 = 0
    · obtain ⟨b, hb, hlut, hlt⟩ := digit_spec.1 (v % 32) (by omega)
      rw [if_neg (not_not.2 hz)] at hby
      obtain rfl : b = byte := some.inj (hb.symm.trans hby)
      rw [if_pos hz, some.injEq] at h
      subst h
      obtain ⟨hend, hend'⟩ := (digit_spec.2 _ hd).1
      rw [singleton_append, decodeDigits, hlut]
      simp only [bind_eq_bind, bind_some, hvl b (v % 32) hlt (by omega), hend, hend', hor,
        if_true]
      rw [← hsum, hz, Nat.zero_mul, Nat.add_zero]
      rfl
    · have hd64 : v % 32 ||| 32 < 64 := or_lt_two_pow (n := 6) (by omega) (by decide)
      obtain ⟨b, hb, hlut, hlt⟩ := digit_spec.1 _ hd64
      rw [if_pos hz] at hby
      obtain rfl : b = byte := some.inj (hb.symm.trans hby)
      rw [if_neg hz, bind_eq_some_iff] at h
      obtain ⟨more, hmr, h⟩ := h
      rw [some.injEq] at h
      subst h
      obtain ⟨hgo, hgo'⟩ := (digit_spec.2 _ hd).2
      have hacc' : acc + v % 32 * 2 ^ (5 * i) < 2 ^ (5 * (i + 1)) := by
        rw [hpow]
        nlinarith [Nat.two_pow_pos (5 * i)]
      have hnx := ih (i := i + 1) hmr (by omega) hacc' (by rw [hsum]; exact hv)
      rw [hsum, show 5 * (i + 1) = 5 * i + 5 by ring] at hnx
      rw [cons_append, decodeDigits, hlut]
      simp only [bind_eq_bind, bind_some, hvl b _ hlt hd64, hgo, hgo', hor,
        if_true, if_false]
      rw [hnx, length_cons]
      congr 2
      omega

theorem encodeDigits_isSome (h : v < 32 ^ n) (hn : 0 < n) : (encodeDigits n v).isSome := by
  induction n generalizing v with
  | zero => exact absurd hn (lt_irrefl 0)
  | succ n ih =>
    have hlow : v &&& 31 = v % 32 := and_two_pow_sub_one_eq_mod v 5
    have hhg : v >>> 5 = v / 32 := shiftRight_eq_div_pow v 5
    have hd64 : (if v / 32 ≠ 0 then v % 32 ||| 32 else v % 32) < 64 := by
      split
      · exact or_lt_two_pow (n := 6) (by omega) (by decide)
      · omega
    obtain ⟨b, hb, -⟩ := digit_spec.1 _ hd64
    simp only [encodeDigits, hlow, hhg, hb, bind_eq_bind, bind_some]
    split
    · rfl
    · rename_i hz
      have hlt : v / 32 < 32 ^ n := by
        rw [pow_succ] at h
        omega
      have hn' : 0 < n := by
        by_contra h0
        obtain rfl : n = 0 := by omega
        simp at hlt
        omega
      obtain ⟨more, hmr⟩ := isSome_iff_exists.1 (ih hlt hn')
      rw [hmr]
      rfl

theorem mem_base64_of_encodeDigits (h : encodeDigits n v = some bytes) :
    bytes ≠ [] ∧ ∀ byte ∈ bytes, byte ∈ base64 := by
  induction n generalizing v bytes with
  | zero => simp [encodeDigits] at h
  | succ n ih =>
    simp only [encodeDigits, bind_eq_bind, bind_eq_some_iff] at h
    obtain ⟨byte, hby, h⟩ := h
    have hmem : byte ∈ base64 := mem_of_getElem? hby
    split at h
    · rw [some.injEq] at h
      subst h
      exact ⟨by simp, by simpa using hmem⟩
    · simp only [bind_eq_some_iff, some.injEq] at h
      obtain ⟨more, hmr, rfl⟩ := h
      refine ⟨by simp, fun b hb => ?_⟩
      rcases mem_cons.1 hb with rfl | hb
      · exact hmem
      · exact (ih hmr).2 b hb

end

section

variable {valid : UInt8 → ℕ → Bool} {v : ℤ} {before bytes rest : List UInt8}

theorem toNat_shiftLeft_one {v : ℤ} (h : 0 ≤ v) (h' : v < 2 ^ 31) :
    (BitVec.ofInt 32 v <<< 1).toNat = 2 * v.toNat := by
  obtain ⟨n, rfl⟩ := Int.eq_ofNat_of_zero_le h
  have hn : n < 2 ^ 31 := by omega
  rw [BitVec.ofInt_natCast, BitVec.toNat_shiftLeft, BitVec.toNat_ofNat, shiftLeft_eq,
    Int.toNat_natCast]
  omega

theorem signed_even (n : ℕ) : signed (2 * n) = n := by
  have h1 : 2 * n &&& 1 = 0 := by
    rw [and_one_is_mod]
    omega
  have h2 : (2 * n) >>> 1 = n := by
    rw [shiftRight_eq_div_pow]
    omega
  rw [signed, if_pos h1, h2]

theorem signed_odd (n : ℕ) : signed (2 * n + 1) = -n := by
  have h1 : (2 * n + 1) &&& 1 ≠ 0 := by
    rw [and_one_is_mod]
    omega
  have h2 : (2 * n + 1) >>> 1 = n := by
    rw [shiftRight_eq_div_pow]
    omega
  rw [signed, if_neg h1, h2]

theorem encodeSlowPath_eq (h : -2 ^ 31 < v) (h' : v < 2 ^ 31) :
    ∃ vlq < 2 ^ 32, encodeSlowPath v = encodeDigits vlqMaxInBytes vlq ∧ signed vlq = v := by
  have hdg : ∀ vlq < 2 ^ 32, some ((encodeDigits vlqMaxInBytes vlq).getD []) =
      encodeDigits vlqMaxInBytes vlq := by
    intro vlq hvlq
    obtain ⟨bytes, hb⟩ := isSome_iff_exists.1
      (encodeDigits_isSome (n := vlqMaxInBytes) (v := vlq)
        (hvlq.trans (by decide)) (by decide))
    rw [hb]
    rfl
  by_cases hv : 0 ≤ v
  · have hnat := toNat_shiftLeft_one hv h'
    refine ⟨2 * v.toNat, by omega, ?_, ?_⟩
    · rw [encodeSlowPath, if_pos hv]
      simp only [bind_eq_bind, bind_some]
      rw [hnat]
      exact hdg _ (by omega)
    · rw [signed_even]
      omega
  · have hnat := toNat_shiftLeft_one (v := -v) (by omega) (by omega)
    have hor : (BitVec.ofInt 32 (-v) <<< 1 ||| 1).toNat = 2 * (-v).toNat + 1 := by
      have hadd := two_pow_add_eq_or_of_lt (i := 1) (b := 1) (by decide) (-v).toNat
      rw [BitVec.toNat_or, hnat, show (1 : BitVec 32).toNat = 1 by decide]
      exact hadd.symm
    refine ⟨2 * (-v).toNat + 1, by omega, ?_, ?_⟩
    · rw [encodeSlowPath, if_neg hv, i32_of_isI32 ⟨by omega, by omega⟩]
      simp only [map_some, bind_eq_bind, bind_some]
      rw [hor]
      exact hdg _ (by omega)
    · rw [signed_odd]
      omega

theorem encode_eq_encodeSlowPath : encode v = encodeSlowPath v := by
  unfold encode
  split
  · rename_i hv
    have hi : v.toNat < 256 := by omega
    rw [vlqLookupTable, getElem?_map, List.getElem?_range hi, map_some,
      join_some, Int.toNat_of_nonneg hv.1]
  · rfl

theorem mem_base64_of_encode (h : -2 ^ 31 < v) (h' : v < 2 ^ 31) (he : encode v = some bytes) :
    bytes ≠ [] ∧ ∀ byte ∈ bytes, byte ∈ base64 := by
  obtain ⟨vlq, -, hsl, -⟩ := encodeSlowPath_eq h h'
  rw [encode_eq_encodeSlowPath, hsl] at he
  exact mem_base64_of_encodeDigits he

theorem decodeWith_encode (hvl : Admits valid) (h : -2 ^ 31 < v) (h' : v < 2 ^ 31)
    (he : encode v = some bytes) :
    decodeWith valid (before ++ bytes ++ rest) before.length =
      some { value := v, start := before.length + bytes.length } := by
  obtain ⟨vlq, hlt, hsl, hsg⟩ := encodeSlowPath_eq h h'
  rw [encode_eq_encodeSlowPath, hsl] at he
  have hdc : decodeDigits valid before.length (vlqMaxInBytes + 1) (bytes ++ rest) 0 (5 * 0) 0 =
      some { value := signed (0 + vlq * 2 ^ (5 * 0))
             start := before.length + (0 + bytes.length) } :=
    decodeDigits_encodeDigits hvl he (by decide) (by decide) (by simpa using hlt)
  rw [decodeWith_eq (by simp only [length_append]; omega), append_assoc,
    drop_left]
  simp only [Nat.mul_zero, Nat.pow_zero, Nat.mul_one, Nat.zero_add] at hdc
  rw [hdc, hsg]

theorem admits_decode : Admits fun _ _ => true := fun _ _ _ _ => rfl

theorem admits_decodeAssumeValid (allowAssert : Bool) :
    Admits fun byte index => !allowAssert || (byte < 127 && index ≠ 127) := by
  intro byte d hby hd
  simp [hby, show d ≠ 127 by omega]

/-- A number that was written is read back, and the cursor moves behind it. -/
theorem decode_encode (h : -2 ^ 31 < v) (h' : v < 2 ^ 31) (he : encode v = some bytes) :
    decode (before ++ bytes ++ rest) before.length =
      some { value := v, start := before.length + bytes.length } :=
  decodeWith_encode admits_decode h h' he

end

section

variable {valid : UInt8 → ℕ → Bool} {start n i shift vlq : ℕ} {encoded before rest : List UInt8}
  {r : VLQResult} {v : ℤ}

theorem decodeDigits_valid
    (hd : decodeDigits (fun _ _ => true) start n encoded i shift vlq = some r)
    (hv : ∀ byte ∈ encoded.take (r.start - (start + i)), ∀ index,
      base64Lut[(byte &&& 0x7f).toNat]? = some index → valid byte index = true) :
    decodeDigits valid start n (encoded.take (r.start - (start + i))) i shift vlq = some r := by
  induction n generalizing encoded i shift vlq with
  | zero => simpa only [decodeDigits] using hd
  | succ n ih =>
    obtain ⟨-, hlt, -⟩ := decodeDigits_start hd
    have hlt := hlt (succ_pos n)
    rcases encoded with _ | ⟨byte, encoded⟩
    · simp at hd
    · obtain ⟨k, hk⟩ := Nat.exists_eq_add_of_lt hlt
      obtain hk : r.start - (start + i) = k + 1 := by omega
      rw [hk, take_succ_cons] at hv ⊢
      simp only [decodeDigits, bind_eq_bind, bind_eq_some_iff, if_true] at hd ⊢
      obtain ⟨index, hin, hd⟩ := hd
      refine ⟨index, hin, ?_⟩
      rw [if_pos (hv byte mem_cons_self index hin)]
      split_ifs at hd ⊢ with hend
      · exact hd
      · have hrs : r.start - (start + (i + 1)) = k := by omega
        have := ih hd (by
          rw [hrs]
          exact fun b hb => hv b (mem_cons_of_mem _ hb))
        rwa [hrs] at this

theorem decodeDigits_map_start :
    decodeDigits valid start n encoded i shift vlq =
      (decodeDigits valid 0 n encoded i shift vlq).map fun r =>
        { r with start := start + r.start } := by
  induction n generalizing encoded i shift vlq with
  | zero => simp [decodeDigits]
  | succ n ih =>
    rcases encoded with _ | ⟨byte, encoded⟩
    · rfl
    · simp only [decodeDigits]
      rcases base64Lut[(byte &&& 0x7f).toNat]? with _ | index
      · rfl
      · simp only [bind_eq_bind, bind_some]
        split
        · split
          · simp
          · exact ih
        · rfl

theorem decode_take (h : decode encoded 0 = some r) : decode (encoded.take r.start) 0 = some r := by
  rw [decode, decodeWith_eq (Nat.zero_le _), drop_zero] at h ⊢
  simpa using decodeDigits_valid h fun _ _ _ _ => rfl

theorem decodeAssumeValid_append (allowAssert : Bool)
    (h : decode encoded 0 = some { value := v, start := encoded.length })
    (hmem : ∀ byte ∈ encoded, byte ∈ base64) :
    decodeAssumeValid allowAssert (before ++ (encoded ++ rest)) before.length =
      some { value := v, start := before.length + encoded.length } := by
  have hvl : ∀ byte ∈ encoded, ∀ index, base64Lut[(byte &&& 0x7f).toNat]? = some index →
      (!allowAssert || (byte < 127 && index ≠ 127)) = true := by
    intro byte hb index hin
    obtain ⟨d, hd, hget⟩ := getElem_of_mem (hmem byte hb)
    obtain ⟨b, hb', hlut, hlt⟩ := digit_spec.1 d hd
    rw [getElem?_eq_getElem hd, hget, some.injEq] at hb'
    subst hb'
    rw [hlut, some.injEq] at hin
    subst hin
    exact admits_decodeAssumeValid allowAssert byte d hlt hd
  rw [decode, decodeWith_eq (Nat.zero_le _), drop_zero] at h
  have hdg := decodeDigits_valid h fun b hb => hvl b (mem_of_mem_take hb)
  rw [Nat.add_zero, Nat.sub_zero, take_length] at hdg
  rw [decodeAssumeValid, decodeWith_eq (by simp), drop_left, decodeDigits_map_start,
    decodeDigits_append hdg]
  rfl

end

/-- `A` to `Z` and `a` to `f`: the digits without a continuation bit. Only seven bits of a byte are
looked at. -/
def Ends (byte : UInt8) : Prop :=
  65 ≤ byte.toNat % 128 ∧ byte.toNat % 128 ≤ 90 ∨ 97 ≤ byte.toNat % 128 ∧ byte.toNat % 128 ≤ 102

/-- The one place that the table lacks. -/
def OffTable (byte : UInt8) : Prop := byte.toNat % 128 = 127

instance (byte : UInt8) : Decidable (Ends byte) := inferInstanceAs (Decidable (_ ∨ _))

instance (byte : UInt8) : Decidable (OffTable byte) := inferInstanceAs (Decidable (_ = _))

/-- The text starts with at most `n` digits, the last of which ends them if they are fewer. -/
def DecodableIn (n : ℕ) (text : List UInt8) : Prop :=
  ∃ digits rest, text = digits ++ rest ∧ digits.length ≤ n ∧ (∀ byte ∈ digits, ¬OffTable byte)
    ∧ (digits.length = n ∨ ∃ byte, digits.getLast? = some byte ∧ Ends byte)

def Decodable : List UInt8 → Prop := DecodableIn 8

theorem lut_spec (byte : UInt8) :
    (OffTable byte → base64Lut[(byte &&& 0x7f).toNat]? = none)
      ∧ (¬OffTable byte → ∃ index, base64Lut[(byte &&& 0x7f).toNat]? = some index
        ∧ (index &&& 32 = 0 ↔ Ends byte)) := by
  have h : ∀ b < 256, (OffTable (UInt8.ofNat b) →
      base64Lut[(UInt8.ofNat b &&& 0x7f).toNat]? = none)
      ∧ (¬OffTable (UInt8.ofNat b) → (base64Lut[(UInt8.ofNat b &&& 0x7f).toNat]?).any
        fun index => decide (index &&& 32 = 0 ↔ Ends (UInt8.ofNat b))) := by decide +kernel
  obtain ⟨h1, h2⟩ := h byte.toNat byte.toNat_lt
  rw [UInt8.ofNat_toNat] at h1 h2
  refine ⟨h1, fun hoff => ?_⟩
  have h2 := h2 hoff
  rw [any_eq_true_iff_get] at h2
  obtain ⟨hs, h2⟩ := h2
  exact ⟨_, (some_get hs).symm, by simpa using h2⟩

variable {text : List UInt8}

/-- A number can be decoded if its byte is in the table, and ends it or goes on to more. -/
theorem decodableIn_cons {n : ℕ} {byte : UInt8} :
    DecodableIn (n + 1) (byte :: text) ↔
      ¬OffTable byte ∧ (Ends byte ∨ DecodableIn n text) := by
  constructor
  · rintro ⟨_ | ⟨b, digits⟩, rest, htx, hlen, hoff, hend⟩
    · rcases hend with hend | ⟨b, hb, -⟩
      · simp at hend
      · simp at hb
    · obtain ⟨rfl, rfl⟩ := cons_eq_cons.1 htx
      rw [length_cons] at hlen hend
      refine ⟨hoff _ mem_cons_self, ?_⟩
      rcases digits with _ | ⟨b', digits⟩
      · rcases hend with hend | ⟨b', hb', he⟩
        · exact Or.inr ⟨[], rest, rfl, Nat.zero_le n, by simp, Or.inl (Nat.add_right_cancel hend)⟩
        · exact Or.inl (by simp_all)
      · refine Or.inr ⟨b' :: digits, rest, rfl, by omega, fun x hx =>
          hoff x (mem_cons_of_mem _ hx), ?_⟩
        rcases hend with hend | ⟨x, hx, he⟩
        · exact Or.inl (by omega)
        · exact Or.inr ⟨x, by rwa [getLast?_cons_cons] at hx, he⟩
  · rintro ⟨hoff, hend | ⟨digits, rest, rfl, hlen, hoff', hend⟩⟩
    · exact ⟨[byte], text, rfl, by simp, by simpa using hoff, Or.inr ⟨byte, rfl, hend⟩⟩
    · refine ⟨byte :: digits, rest, rfl, by rw [length_cons]; omega, ?_, ?_⟩
      · intro b hb
        rcases mem_cons.1 hb with rfl | hb
        · exact hoff
        · exact hoff' b hb
      · rcases hend with hend | ⟨x, hx, he⟩
        · simp [hend]
        · refine Or.inr ⟨x, ?_, he⟩
          rw [getLast?_cons, hx]
          rfl

theorem decodeDigits_isSome_iff {start n i shift vlq : ℕ} :
    (decodeDigits (fun _ _ => true) start n text i shift vlq).isSome ↔ DecodableIn n text := by
  induction n generalizing text i shift vlq with
  | zero => exact ⟨fun _ => ⟨[], text, rfl, le_rfl, by simp, Or.inl rfl⟩, fun _ => rfl⟩
  | succ n ih =>
    rcases text with _ | ⟨byte, text⟩
    · refine ⟨fun h => by simp at h, ?_⟩
      rintro ⟨digits, rest, htx, -, -, hend⟩
      obtain ⟨rfl, rfl⟩ := append_eq_nil_iff.1 htx.symm
      simp at hend
    · rw [decodableIn_cons, decodeDigits]
      obtain ⟨hoff, hin⟩ := lut_spec byte
      by_cases h : OffTable byte
      · simp only [hoff h, bind_eq_bind, bind_none]
        simp [h]
      · obtain ⟨index, hid, hen⟩ := hin h
        simp only [hid, bind_eq_bind, bind_some, if_true]
        by_cases he : Ends byte
        · simp [hen.2 he, h, he]
        · rw [if_neg (fun h0 => he (hen.1 h0)), ih]
          simp [h, he]

/-- A number can be read at the start of a text. -/
theorem decode_isSome_iff : (decode text 0).isSome ↔ Decodable text := by
  rw [decode, decodeWith_eq (Nat.zero_le _), drop_zero]
  exact decodeDigits_isSome_iff

end Cruller.SourceMap
