import Cruller.Lib.Bytes

/-!
# Bits in bytes

A bit mask is a list of bytes, bit `i` of it the `i % 8`-th bit of byte `i / 8`. A mask whose bits
were set one by one answers for each what was set (`testBit_setBits`), also as a part of a larger
buffer (`Lies.marks`).
-/

namespace Cruller

open List Option Nat

/-- Bit `idx` of the mask at `base`; `none` where its byte is out of bounds. -/
def testBit (bytes : List UInt8) (base idx : ℕ) : Option Bool :=
  bytes[base + (idx >>> 3)]?.map fun b => b.toNat.testBit (idx &&& 7)

/-- Bit `k` of a bit set of bytes. -/
def setBit (mask : List UInt8) (k : ℕ) : List UInt8 :=
  mask.modify (k >>> 3) fun b => b ||| UInt8.ofNat (1 <<< (k &&& 7))

/-- Sets the bits from `k` on that are to be set. -/
def setBits : List UInt8 → ℕ → List Bool → List UInt8
  | mask, _, [] => mask
  | mask, k, b :: bits => setBits (if b then setBit mask k else mask) (k + 1) bits

section

variable {mask bytes : List UInt8} {k i base : ℕ} {x : Bool}

@[simp]
theorem setBit_length (mask : List UInt8) (k : ℕ) : (setBit mask k).length = mask.length :=
  length_modify ..

@[simp]
theorem setBits_length (mask : List UInt8) (k : ℕ) (bits : List Bool) :
    (setBits mask k bits).length = mask.length := by
  induction bits generalizing mask k with
  | nil => rfl
  | cons b bits ih =>
    rw [setBits, ih]
    split
    · exact setBit_length mask k
    · rfl

theorem setBit_bit (b : UInt8) {j : ℕ} (hj : j < 8) (i : ℕ) :
    (b ||| UInt8.ofNat (1 <<< j)).toNat.testBit i = (b.toNat.testBit i || decide (i = j)) := by
  have hlt : 1 <<< j < 256 := by
    rw [one_shiftLeft]
    exact Nat.pow_lt_pow_right (by norm_num) hj
  rw [UInt8.toNat_or, UInt8.toNat_ofNat', mod_eq_of_lt hlt, testBit_or, one_shiftLeft,
    testBit_two_pow]
  simp only [eq_comm]

theorem testBit_setBit (h : testBit mask 0 i = some x) :
    testBit (setBit mask k) 0 i = some (x || decide (i = k)) := by
  simp only [testBit, setBit, Nat.zero_add, shiftRight_eq_div_pow, getElem?_modify,
    show ∀ n : ℕ, n &&& 7 = n % 8 from fun n => and_two_pow_sub_one_eq_mod n 3,
    show (2 : ℕ) ^ 3 = 8 by rfl, map_eq_some_iff] at h ⊢
  obtain ⟨b, hb, rfl⟩ := h
  by_cases hik : k / 8 = i / 8
  · refine ⟨b ||| UInt8.ofNat (1 <<< (k % 8)), by rw [hb]; simp [hik], ?_⟩
    rw [setBit_bit b (mod_lt _ (by norm_num))]
    congr 1
    simp only [decide_eq_decide]
    omega
  · refine ⟨b, by rw [hb]; simp [hik], ?_⟩
    rw [decide_eq_false (by rintro rfl; exact hik rfl), Bool.or_false]

variable {bits : List Bool}

theorem testBit_setBits (h : testBit mask 0 i = some x) :
    testBit (setBits mask k bits) 0 i =
      some (x || (decide (k ≤ i) && (bits[i - k]?.getD false))) := by
  induction bits generalizing mask k x with
  | nil => simpa [setBits] using h
  | cons b bits ih =>
    rw [setBits]
    rcases Nat.lt_trichotomy i k with hlt | rfl | hgt
    · rw [ih (x := x)]
      · simp [show ¬k + 1 ≤ i by omega, show ¬k ≤ i by omega]
      · cases b
        · exact h
        · rw [if_pos rfl, testBit_setBit h, decide_eq_false (by omega), Bool.or_false]
    · rw [ih (x := x || b)]
      · simp
      · cases b
        · simpa using h
        · simpa using testBit_setBit (k := i) h
    · have hik : i - k = i - (k + 1) + 1 := by omega
      rw [ih (x := x), hik, getElem?_cons_succ]
      · simp [show k + 1 ≤ i by omega, show k ≤ i by omega]
      · cases b
        · exact h
        · rw [if_pos rfl, testBit_setBit h, decide_eq_false (by omega), Bool.or_false]

theorem testBit_zeros {n : ℕ} (h : i < 8 * n) : testBit (List.replicate n 0) 0 i = some false := by
  rw [testBit, shiftRight_eq_div_pow, getElem?_replicate, if_pos (by norm_num; omega)]
  simp

theorem Lies.testBit (h : Lies bytes base mask) (hm : Cruller.testBit mask 0 i = some x) :
    Cruller.testBit bytes base i = some x := by
  unfold Cruller.testBit at *
  rw [Nat.zero_add, map_eq_some_iff] at hm
  obtain ⟨b, hb, rfl⟩ := hm
  obtain ⟨hi, rfl⟩ := List.getElem?_eq_some_iff.1 hb
  rw [h.getElem? hi, map_some]

/-- The mask at `base` has the bits `bits` from index `k` on. -/
def Marks (bytes : List UInt8) (base k : ℕ) (bits : List Bool) : Prop :=
  ∀ i b, bits[i]? = some b → Cruller.testBit bytes base (k + i) = some b

theorem Marks.head {b : Bool} {bits : List Bool} (h : Marks bytes base k (b :: bits)) :
    Cruller.testBit bytes base k = some b := h 0 b rfl

theorem Marks.tail {b : Bool} (h : Marks bytes base k (b :: bits)) :
    Marks bytes base (k + 1) bits := fun i x hx => by
  rw [Nat.add_assoc, Nat.add_comm 1 i]
  exact h (i + 1) x hx

theorem Lies.marks {n : ℕ} (hn : bits.length ≤ 8 * n)
    (h : Lies bytes base (setBits (List.replicate n 0) 0 bits)) : Marks bytes base 0 bits := by
  intro i b hb
  obtain ⟨hi, -⟩ := List.getElem?_eq_some_iff.1 hb
  rw [Nat.zero_add]
  refine h.testBit ?_
  rw [testBit_setBits (testBit_zeros (by omega)), Nat.sub_zero, hb]
  simp

end

end Cruller
