import Cruller.Lib.Bytes

/-!
# Strings in eight bytes

A string of up to eight bytes lies in the word itself, and a longer one, or one of eight bytes whose
last has its top bit set, is an offset and a length in a buffer behind a set top bit. Slices are
checked as in a safe build: what they refuse is `none`.
-/

namespace Cruller.InstallTypes

open List

namespace Wyhash11

def primes : List UInt64 :=
  [0xa0761d6478bd642f, 0xe7037ed1a0b428db, 0x8ebc6af09c88c6e3, 0x589965cc75374cc3,
    0x1d8e4e27c47d124f]

def prime (i : ℕ) : UInt64 := primes.getD i 0

def readBytes (bytes : ℕ) (data : List UInt8) : UInt64 := UInt64.ofNat (leValue (data.take bytes))

def read8bytesSwapped (data : List UInt8) : UInt64 :=
  readBytes 4 data <<< 32 ||| readBytes 4 (data.drop 4)

/-- The two halves of a product, put together. -/
def mum (a b : UInt64) : UInt64 :=
  let r := a.toNat * b.toNat
  UInt64.ofNat ((r >>> 64) ^^^ r)

def mix0 (a b seed : UInt64) : UInt64 := mum (a ^^^ seed ^^^ prime 0) (b ^^^ seed ^^^ prime 1)

def mix1 (a b seed : UInt64) : UInt64 := mum (a ^^^ seed ^^^ prime 2) (b ^^^ seed ^^^ prime 3)

def round (seed : UInt64) (b : List UInt8) : UInt64 :=
  mix0 (readBytes 8 b) (readBytes 8 (b.drop 8)) seed
    ^^^ mix1 (readBytes 8 (b.drop 16)) (readBytes 8 (b.drop 24)) seed

/-- So many rounds of 32 bytes each. -/
def update : ℕ → UInt64 → List UInt8 → UInt64
  | 0, seed, _ => seed
  | n + 1, seed, b => update n (round seed b) (b.drop 32)

/-- From one byte to eight: four, two and one of them, as many as there are. -/
def readRemainder (data : List UInt8) : UInt64 :=
  match data.length with
  | 1 => readBytes 1 data
  | 2 => readBytes 2 data
  | 3 => readBytes 2 data <<< 8 ||| readBytes 1 (data.drop 2)
  | 4 => readBytes 4 data
  | 5 => readBytes 4 data <<< 8 ||| readBytes 1 (data.drop 4)
  | 6 => readBytes 4 data <<< 16 ||| readBytes 2 (data.drop 4)
  | 7 => readBytes 4 data <<< 24 ||| readBytes 2 (data.drop 4) <<< 8 ||| readBytes 1 (data.drop 6)
  | _ => read8bytesSwapped data

/-- The switch over the length of what is left, in groups of eight bytes. -/
def remainder (seed : UInt64) (b : List UInt8) : UInt64 :=
  if b.length = 0 then seed
  else if b.length ≤ 8 then mix0 (readRemainder b) (prime 4) seed
  else if b.length ≤ 16 then mix0 (read8bytesSwapped b) (readRemainder (b.drop 8)) seed
  else
    mix0 (read8bytesSwapped b) (read8bytesSwapped (b.drop 8)) seed
      ^^^ if b.length ≤ 24 then mix1 (readRemainder (b.drop 16)) (prime 4) seed
        else mix1 (read8bytesSwapped (b.drop 16)) (readRemainder (b.drop 24)) seed

def hash (seed : UInt64) (input : List UInt8) : UInt64 :=
  let aligned_len := input.length - input.length % 32
  let seed := remainder (update (input.length / 32) seed input) (input.drop aligned_len)
  mum (seed ^^^ UInt64.ofNat input.length) (prime 4)

end Wyhash11

/-- `Builder.stringHash` -/
def stringHash (buf : List UInt8) : UInt64 := Wyhash11.hash 0 buf

def max_inline_len : ℕ := 8

/-- `String` -/
structure SemverString where
  bytes : List UInt8
  length_bytes : bytes.length = max_inline_len
  deriving DecidableEq

/-- Where a longer string lies. -/
structure Pointer where
  off : ℕ
  len : ℕ
  deriving DecidableEq

/-- Of a slice at `offset` in the buffer. -/
def Pointer.init (offset : ℕ) (text : List UInt8) : Pointer :=
  ⟨offset % 2 ^ 32, text.length % 2 ^ 32⟩

namespace SemverString

def empty : SemverString := ⟨List.replicate max_inline_len 0, List.length_replicate⟩

/-- `@bitCast` of a `u64`, little-endian. -/
def ofWord (word : ℕ) : SemverString := ⟨leBytes 8 word, leBytes_length 8 word⟩

/-- The highest bit says that it is a pointer. -/
def ofPointer (pointer : Pointer) : SemverString :=
  ofWord ((pointer.off + pointer.len * 2 ^ 32) % 2 ^ 63 + 2 ^ 63)

def ofInline (text : List UInt8) (h : text.length ≤ max_inline_len) : SemverString :=
  ⟨text ++ List.replicate (max_inline_len - text.length) 0, by simp; omega⟩

/-- `canInline` -/
def CanInline (text : List UInt8) : Prop :=
  text.length < max_inline_len ∨ text.length = max_inline_len ∧ ∀ c ∈ text.getLast?, c < 128

instance (text : List UInt8) : Decidable (CanInline text) :=
  inferInstanceAs (Decidable (_ ∨ _ ∧ _))

theorem CanInline.length_le {text : List UInt8} (h : CanInline text) :
    text.length ≤ max_inline_len := by
  rcases h with h | h
  · exact h.le
  · exact h.1.le

/-- The text is in the eight bytes. -/
def isInline (this : SemverString) : Bool := this.bytes.getD 7 0 < 128

def ptr (this : SemverString) : Pointer :=
  let word := leValue this.bytes % 2 ^ 63
  ⟨word % 2 ^ 32, word / 2 ^ 32⟩

/-- The text of a string. -/
def slice (this : SemverString) (buf : List UInt8) : Option (List UInt8) :=
  if this.isInline then
    -- a string that starts with a 0 byte is considered empty
    some (this.bytes.takeWhile (· ≠ 0))
  else Cruller.slice buf this.ptr.off this.ptr.len

variable {text : List UInt8}

theorem isInline_ofInline (h : CanInline text) : (ofInline text h.length_le).isInline = true := by
  rw [isInline, decide_eq_true_eq, ofInline, getD_eq_getElem?_getD]
  simp only [max_inline_len]
  rcases h with h | ⟨h, hls⟩
  · have hle : text.length ≤ 7 := Nat.le_of_lt_succ h
    rw [getElem?_append_right hle, getElem?_replicate, if_pos (by omega)]
    decide
  · have hlt : 7 < text.length := by
      rw [h]
      decide
    rw [getLast?_eq_getElem?, h] at hls
    rw [getElem?_append_left hlt, getElem?_eq_getElem hlt]
    exact hls _ (getElem?_eq_getElem hlt)

theorem slice_ofInline (h : CanInline text) (hnul : 0 ∉ text) (buf : List UInt8) :
    (ofInline text h.length_le).slice buf = some text := by
  rw [slice, if_pos (isInline_ofInline h), ofInline]
  have htx : ∀ c ∈ text, decide (c ≠ 0) = true := by
    intro c hc
    rw [decide_eq_true_eq]
    rintro rfl
    exact hnul hc
  simp only
  rw [takeWhile_append_of_pos htx]
  cases max_inline_len - text.length with
  | zero => simp
  | succ n => rw [replicate_succ, takeWhile_cons_of_neg (by decide), append_nil]

theorem getD_leBytes_last (word : ℕ) : (leBytes 8 word).getD 7 0 = UInt8.ofNat (word / 2 ^ 56) := by
  simp only [leBytes, getD_cons_succ, getD_cons_zero]
  congr 1
  omega

theorem isInline_ofPointer (pointer : Pointer) : (ofPointer pointer).isInline = false := by
  rw [isInline, decide_eq_false_iff_not, ofPointer, ofWord, getD_leBytes_last,
    UInt8.lt_iff_toNat_lt, UInt8.toNat_ofNat']
  simp only [show UInt8.toNat 128 = 128 from rfl]
  omega

theorem ptr_ofPointer (offset : ℕ) (text : List UInt8) :
    (ofPointer (.init offset text)).ptr = ⟨offset % 2 ^ 32, text.length % 2 ^ 31⟩ := by
  have hwr : ((Pointer.init offset text).off + (Pointer.init offset text).len * 2 ^ 32) % 2 ^ 63 =
      offset % 2 ^ 32 + text.length % 2 ^ 31 * 2 ^ 32 := by
    simp only [Pointer.init]
    omega
  rw [ptr, ofPointer, ofWord, hwr, leValue_leBytes (by norm_num; omega)]
  simp only [Pointer.mk.injEq]
  omega

theorem slice_ofPointer (offset : ℕ) (text buf : List UInt8) :
    (ofPointer (.init offset text)).slice buf =
      Cruller.slice buf (offset % 2 ^ 32) (text.length % 2 ^ 31) := by
  rw [slice, isInline_ofPointer, ptr_ofPointer]
  rfl

end SemverString

end Cruller.InstallTypes
