import Cruller.Lib.Bytes

/-!
# Varints

`zigzagEncode`, `writeVarint` and their inverses of `sourcemap/InternalSourceMap.zig`. An `i32` is an
integer in range (`IsI32`); arithmetic on it is checked (`i32`), and `@bitCast` to `u32` is
`BitVec.ofInt 32`. A varint that lies at a position is read back, and the position moves to its end
(`readVarint_writeVarint`).
-/

namespace Cruller.SourceMap

open List Nat

/-- A number of 32 bits. -/
def IsI32 (v : ℤ) : Prop := -2 ^ 31 ≤ v ∧ v < 2 ^ 31

instance (v : ℤ) : Decidable (IsI32 v) := inferInstanceAs (Decidable (_ ∧ _))

/-- The result of an `i32` operation; `none` where it overflows. -/
def i32 (v : ℤ) : Option ℤ := if IsI32 v then some v else none

theorem i32_of_isI32 {v : ℤ} (h : IsI32 v) : i32 v = some v := if_pos h

theorem i32_eq_some {v w : ℤ} : i32 v = some w ↔ IsI32 v ∧ v = w := by
  unfold i32
  split <;> simp [*]

theorem toInt_ofInt {v : ℤ} (h : IsI32 v) : (BitVec.ofInt 32 v).toInt = v := by
  obtain ⟨h1, h2⟩ := h
  rw [BitVec.toInt_ofInt]
  exact Int.bmod_eq_of_le (by norm_num at *; omega) (by norm_num at *; omega)

/-- The sign goes to the lowest bit. -/
def zigzagEncode (value : ℤ) : BitVec 32 :=
  let value := BitVec.ofInt 32 value
  (value <<< 1) ^^^ value.sshiftRight 31

def zigzagDecode (value : BitVec 32) : ℤ := ((value >>> 1) ^^^ (-(value &&& 1))).toInt

theorem getLsbD_sign (v : BitVec 32) (i : ℕ) :
    (v.sshiftRight 31).getLsbD i = (decide (i < 32) && v.getLsbD 31) := by
  rw [BitVec.getLsbD_sshiftRight]
  by_cases hi : 32 ≤ i
  · simp [hi, show ¬i < 32 by omega]
  · by_cases h : 31 + i < 32
    · have : i = 0 := by omega
      subst this
      simp
    · simp [hi, h, show i < 32 by omega, BitVec.msb_eq_getLsbD_last]

theorem getLsbD_neg_bit (b : Bool) (i : ℕ) :
    (-(if b then 1 else 0 : BitVec 32)).getLsbD i = (decide (i < 32) && b) := by
  cases b
  · simp
  · rw [if_pos rfl, show -(1 : BitVec 32) = BitVec.allOnes 32 by decide, BitVec.getLsbD_allOnes,
      Bool.and_true]

theorem zigzagDecode_zigzagEncode {value : ℤ} (h : IsI32 value) :
    zigzagDecode (zigzagEncode value) = value := by
  unfold zigzagDecode zigzagEncode
  simp only
  conv_rhs => rw [← toInt_ofInt h]
  congr 1
  generalize BitVec.ofInt 32 value = v
  -- the lowest bit of the word is the sign of the value
  have hlow : (v <<< 1 ^^^ v.sshiftRight 31) &&& 1 = if v.getLsbD 31 then 1 else 0 := by
    apply BitVec.eq_of_getLsbD_eq
    intro i hi
    rw [BitVec.getLsbD_and, BitVec.getLsbD_xor, getLsbD_sign]
    rcases i with _ | i
    · cases v.getLsbD 31 <;> simp
    · cases v.getLsbD 31 <;> simp
  rw [hlow]
  apply BitVec.eq_of_getLsbD_eq
  intro i hi
  rw [BitVec.getLsbD_xor, BitVec.getLsbD_ushiftRight, BitVec.getLsbD_xor, getLsbD_sign,
    BitVec.getLsbD_shiftLeft]
  rw [getLsbD_neg_bit, decide_eq_true hi, Bool.true_and]
  by_cases hi' : i = 31
  · subst hi'
    simp
  · have hi1 : 1 + i < 32 := by omega
    simp [hi1]

/-- Five groups of seven bits hold a `u32`. -/
def maxVarintLen : ℕ := 5

/-- The loop of `writeVarint`; `n` is the room left. -/
def writeGroups : ℕ → ℕ → List UInt8
  | 0, _ => []
  | n + 1, v =>
    let byte := v &&& 0x7f
    let v := v >>> 7
    if v ≠ 0 then UInt8.ofNat (byte ||| 0x80) :: writeGroups n v else [UInt8.ofNat byte]

/-- Seven bits a byte. -/
def writeVarint (signed : ℤ) : List UInt8 :=
  writeGroups maxVarintLen (zigzagEncode signed).toNat

/-- The loop of `readVarint`, which ends on its own once `shift` passes 28. -/
def readGroups (bytes : List UInt8) : ℕ → ℕ → ℕ → ℕ → ℕ × ℕ
  | 0, result, _, i => (result, i)
  | n + 1, result, shift, i =>
    match bytes[i]? with
    | none => (result, i)
    | some byte =>
      if shift > 28 then (result, i)
      else
        let result := result ||| ((byte.toNat &&& 0x7f) <<< shift) % 2 ^ 32
        if byte.toNat &&& 0x80 = 0 then (result, i + 1)
        else readGroups bytes n result (shift + 7) (i + 1)

/-- The value at `pos` and the position behind it; `none` where the first byte is out of bounds. -/
def readVarint (bytes : List UInt8) (pos : ℕ) : Option (ℤ × ℕ) :=
  bytes[pos]?.map fun (first : UInt8) =>
    if first < 0x80 then (zigzagDecode (BitVec.ofNat 32 first.toNat), pos + 1)
    else
      let (result, i) := readGroups bytes maxVarintLen (first.toNat &&& 0x7f) 7 (pos + 1)
      (zigzagDecode (BitVec.ofNat 32 result), i)

section

variable {bytes rest : List UInt8} {n v result shift i pos : ℕ} {value : ℤ}

theorem and_low (v : ℕ) : v &&& 0x7f = v % 128 := and_two_pow_sub_one_eq_mod v 7

theorem or_high {v : ℕ} (h : v < 128) : v ||| 0x80 = v + 128 := by
  have := two_pow_add_eq_or_of_lt (i := 7) h 1
  rw [Nat.mul_one] at this
  rw [Nat.or_comm, ← this, Nat.add_comm]

theorem and_high {v : ℕ} (h : v < 128) : v &&& 0x80 = 0 := by
  apply eq_of_testBit_eq
  intro i
  rw [testBit_and, zero_testBit, show (0x80 : ℕ) = 2 ^ 7 by rfl, testBit_two_pow]
  by_cases hi : 7 = i
  · subst hi
    rw [testBit_lt_two_pow h, Bool.false_and]
  · rw [decide_eq_false hi, Bool.and_false]

theorem and_high_ne {v : ℕ} (h : v < 128) : (v + 128) &&& 0x80 ≠ 0 := by
  intro h0
  have := congrArg (fun n => n.testBit 7) h0
  rw [← or_high h] at this
  simp only [testBit_and, testBit_or, show Nat.testBit 0x80 7 = true by rfl, Bool.or_true,
    Bool.and_self, zero_testBit, Bool.true_eq_false] at this

theorem writeGroups_succ (n v : ℕ) :
    writeGroups (n + 1) v =
      if v < 128 then [UInt8.ofNat v] else UInt8.ofNat (v % 128 + 128) :: writeGroups n (v / 128) := by
  rw [writeGroups]
  simp only [and_low, shiftRight_eq_div_pow, show 2 ^ 7 = 128 by rfl,
    or_high (mod_lt v (show 0 < 128 by norm_num))]
  by_cases h : v < 128
  · rw [if_neg (by omega), if_pos h, mod_eq_of_lt h]
  · rw [if_pos (by omega), if_neg h]

theorem writeGroups_ne_nil : writeGroups (n + 1) v ≠ [] := by
  rw [writeGroups_succ]
  split <;> simp

theorem writeGroups_length (n v : ℕ) : (writeGroups n v).length ≤ n := by
  induction n generalizing v with
  | zero => simp [writeGroups]
  | succ n ih =>
    rw [writeGroups_succ]
    split
    · simp
    · simpa using ih _

theorem writeVarint_length (value : ℤ) :
    0 < (writeVarint value).length ∧ (writeVarint value).length ≤ maxVarintLen :=
  ⟨length_pos_iff.2 writeGroups_ne_nil, writeGroups_length _ _⟩

/-- The rounds of reading add up what the rounds of writing took apart: what has been read lies
below `2 ^ shift`, what is still to be read comes above. -/
theorem readGroups_writeGroups (hls : Lies bytes i (writeGroups n v)) (hn : v < 128 ^ n)
    (hpos : 0 < n) (hres : result < 2 ^ shift) (hfit : v * 2 ^ shift < 2 ^ 32)
    (hsh : shift ≤ 28) {m : ℕ} (hm : n ≤ m) (hend : shift + 7 * n = 35) :
    readGroups bytes m result shift i =
      (result + v * 2 ^ shift, i + (writeGroups n v).length) := by
  induction n generalizing v result shift i m with
  | zero => omega
  | succ n ih =>
    obtain ⟨m, rfl⟩ : ∃ k, m = k + 1 := ⟨m - 1, by omega⟩
    rw [writeGroups_succ] at hls ⊢
    have hadd : ∀ w, w * 2 ^ shift < 2 ^ 32 →
        result ||| (w <<< shift) % 2 ^ 32 = result + w * 2 ^ shift := by
      intro w hw
      rw [shiftLeft_eq, mod_eq_of_lt hw, Nat.mul_comm, Nat.or_comm,
        ← two_pow_add_eq_or_of_lt hres, Nat.add_comm]
    rw [readGroups]
    by_cases h : v < 128
    · rw [if_pos h] at hls ⊢
      have hb : (UInt8.ofNat v).toNat = v := by
        rw [UInt8.toNat_ofNat']
        omega
      simp only [(lies_cons.1 hls).1, if_neg (show ¬shift > 28 by omega), hb, and_low,
        mod_eq_of_lt h, and_high h, if_pos, hadd v hfit, length_singleton]
    · rw [if_neg h] at hls ⊢
      have hb : (UInt8.ofNat (v % 128 + 128)).toNat = v % 128 + 128 := by
        rw [UInt8.toNat_ofNat']
        omega
      have hlow : v % 128 * 2 ^ shift ≤ v * 2 ^ shift := Nat.mul_le_mul_right _ (mod_le _ _)
      have hpow : 2 ^ (shift + 7) = 128 * 2 ^ shift := by
        rw [pow_add, Nat.mul_comm, show 2 ^ 7 = 128 by rfl]
      have hn0 : 0 < n := by
        rcases n with _ | n
        · omega
        · omega
      have hsp : v % 128 * 2 ^ shift + v / 128 * (128 * 2 ^ shift) = v * 2 ^ shift := by
        rw [← Nat.mul_assoc, ← Nat.add_mul]
        congr 1
        omega
      simp only [(lies_cons.1 hls).1, if_neg (show ¬shift > 28 by omega), hb, and_low,
        add_mod_right, mod_mod, if_neg (and_high_ne (mod_lt v (by norm_num))),
        hadd _ (hlow.trans_lt hfit), length_cons]
      rw [ih (lies_cons.1 hls).2 _ hn0 _ _ (by omega) (by omega) (by omega), hpow,
        Nat.add_assoc, hsp]
      · congr 1
        omega
      · rw [pow_succ] at hn
        omega
      · rw [hpow]
        have : v % 128 * 2 ^ shift ≤ 127 * 2 ^ shift := Nat.mul_le_mul_right _ (by omega)
        omega
      · rw [hpow]
        omega

/-- What was written is read back, whatever follows. -/
theorem readVarint_writeVarint (hv : IsI32 value) (h : Lies bytes pos (writeVarint value)) :
    readVarint bytes pos = some (value, pos + (writeVarint value).length) := by
  have hz := zigzagDecode_zigzagEncode hv
  unfold writeVarint maxVarintLen at *
  generalize zigzagEncode value = w at *
  have hlt : w.toNat < 2 ^ 32 := w.isLt
  rw [readVarint]
  rw [writeGroups_succ] at h ⊢
  by_cases hs : w.toNat < 128
  · rw [if_pos hs] at h ⊢
    have hb : (UInt8.ofNat w.toNat).toNat = w.toNat := by
      rw [UInt8.toNat_ofNat']
      omega
    rw [(lies_cons.1 h).1, Option.map_some, if_pos (UInt8.lt_iff_toNat_lt.2 (by rw [hb]; exact hs)),
      hb, BitVec.ofNat_toNat, BitVec.setWidth_eq, length_singleton, hz]
  · rw [if_neg hs] at h ⊢
    have hb : (UInt8.ofNat (w.toNat % 128 + 128)).toNat = w.toNat % 128 + 128 := by
      rw [UInt8.toNat_ofNat']
      omega
    have hfr : ¬UInt8.ofNat (w.toNat % 128 + 128) < 0x80 := by
      rw [UInt8.lt_iff_toNat_lt, hb, show (0x80 : UInt8).toNat = 128 by rfl]
      omega
    have hgr : readGroups bytes 5 (w.toNat % 128) 7 (pos + 1) =
        (w.toNat % 128 + w.toNat / 128 * 2 ^ 7,
          pos + 1 + (writeGroups 4 (w.toNat / 128)).length) :=
      readGroups_writeGroups (lies_cons.1 h).2 (by omega) (by norm_num) (by omega) (by omega)
        (by norm_num) (by norm_num) (by norm_num)
    rw [(lies_cons.1 h).1, Option.map_some, if_neg hfr, hb, and_low, add_mod_right,
      mod_mod, maxVarintLen, hgr]
    simp only [show (2 : ℕ) ^ 7 = 128 by rfl, mod_add_div', BitVec.ofNat_toNat,
      BitVec.setWidth_eq, length_cons, hz]
    congr 2
    omega

end

end Cruller.SourceMap
