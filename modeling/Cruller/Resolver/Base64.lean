import Mathlib.Tactic

/-!
# Base64

Decoding tries `simdutf`, a parameter, and falls back to the decoder that skips what it does not
know. Six bits of each character go in and eight come out at a time, so what is decoded is shorter
than what was read (`length_decode`).
-/

namespace Cruller.Resolver

open Option

/-- `mixed_decoder.char_to_index`: the standard alphabet, and the last two of the URL-safe one. -/
def charToIndex (c : UInt8) : Option ℕ :=
  if 0x41 ≤ c ∧ c ≤ 0x5A then some (c.toNat - 0x41)
  else if 0x61 ≤ c ∧ c ≤ 0x7A then some (c.toNat - 0x61 + 26)
  else if 0x30 ≤ c ∧ c ≤ 0x39 then some (c.toNat - 0x30 + 52)
  else if c = 0x2B ∨ c = 0x2D then some 62
  else if c = 0x2F ∨ c = 0x5F then some 63
  else none

/-- `mixed_decoder.char_is_ignored` -/
def charIsIgnored (c : UInt8) : Bool :=
  [0xFF, 0x20, 0x09, 0x0D, 0x0A, 0x0B, 0x0C].contains c

abbrev pad_char : UInt8 := 0x3D

/-- What the decoder keeps: twelve bits, how many of them are to be written, and the output. -/
structure Decoding where
  acc : ℕ := 0
  acc_len : ℕ := 0
  dest : List UInt8 := []

/-- Six more bits; `none` is `NoSpaceLeft`. -/
def Decoding.take (dest_len : ℕ) (s : Decoding) (d : ℕ) : Option Decoding :=
  let acc := (s.acc * 64 + d) % 2 ^ 12
  let acc_len := s.acc_len + 6
  if 8 ≤ acc_len then
    if s.dest.length = dest_len then none
    else some ⟨acc, acc_len - 8, s.dest ++ [.ofNat (acc >>> (acc_len - 8))]⟩
  else some ⟨acc, acc_len, s.dest⟩

/-- The loop over the source, with what is left of it from the first padding on. Since `0xFF` is
ignored, other invalid characters are skipped too. -/
def decodeLoop (dest_len : ℕ) : List UInt8 → Decoding → Option (Decoding × List UInt8)
  | [], s => some (s, [])
  | c :: source, s =>
    if charIsIgnored c then decodeLoop dest_len source s
    else
      match charToIndex c with
      | some d => (s.take dest_len d).bind (decodeLoop dest_len source)
      | none => if c = pad_char then some (s, c :: source) else decodeLoop dest_len source s

/-- `mixed_decoder.decode` -/
def mixedDecode (dest_len : ℕ) (source : List UInt8) : Option (List UInt8) :=
  (decodeLoop dest_len source {}).bind fun (s, leftover) =>
    if 4 < s.acc_len ∨ s.acc % 2 ^ s.acc_len ≠ 0 then none
    else
      let padding := leftover.filter fun c => !charIsIgnored c
      if padding.any (· ≠ pad_char) ∨ padding.length ≠ s.acc_len / 2 then none else some s.dest

/-- `simdutf`, as far as data URLs need it. -/
structure Simdutf where
  /-- `base64.decode`: what it writes where it is successful. -/
  decode : List UInt8 → ℕ → Option (List UInt8)
  /-- `validate.utf8` -/
  utf8 : List UInt8 → Bool

/-- `base64.decode` -/
def Simdutf.decodeBase64 (simdutf : Simdutf) (source : List UInt8) (dest_len : ℕ) :
    Option (List UInt8) :=
  (simdutf.decode source dest_len).orElse fun _ => mixedDecode dest_len source

/-- `base64.decodeLen` -/
def decodeLen (source : List UInt8) : ℕ :=
  if source.length % 4 = 0 then
    source.length / 4 * 3 -
      ((if source.getLast? = some pad_char then 1 else 0) +
        if source.dropLast.getLast? = some pad_char then 1 else 0)
  else source.length / 4 * 3 + 2

/-- `base64.encodeLen` -/
def encodeLen (source : List UInt8) : ℕ := (source.length + 2) / 3 * 4

variable {dest_len : ℕ} {s s' : Decoding} {source leftover : List UInt8}

theorem Decoding.length_take {d : ℕ} (h : s.take dest_len d = some s') :
    8 * s'.dest.length + s'.acc_len = 8 * s.dest.length + s.acc_len + 6 := by
  rw [Decoding.take] at h
  split_ifs at h <;> obtain rfl := some_inj.1 h
  · simp
    omega
  · dsimp only
    omega

theorem length_decodeLoop : ∀ {source : List UInt8} {s : Decoding},
    decodeLoop dest_len source s = some (s', leftover) →
      8 * s'.dest.length + s'.acc_len ≤ 8 * s.dest.length + s.acc_len + 6 * source.length
  | [], s, h => by
    obtain ⟨rfl, rfl⟩ := Prod.mk.inj (some_inj.1 h)
    simp
  | c :: source, s, h => by
    rw [decodeLoop] at h
    rw [List.length_cons]
    by_cases hig : charIsIgnored c = true
    · rw [if_pos hig] at h
      have := length_decodeLoop h
      omega
    · rw [if_neg hig] at h
      rcases hd : charToIndex c with _ | d <;> rw [hd] at h
      · simp only [] at h
        split_ifs at h
        · obtain ⟨rfl, -⟩ := Prod.mk.inj (some_inj.1 h)
          omega
        · have := length_decodeLoop h
          omega
      · obtain ⟨s₁, hs₁, hrs⟩ := bind_eq_some_iff.1 h
        have htk := Decoding.length_take hs₁
        have := length_decodeLoop hrs
        omega

theorem length_mixedDecode {bytes : List UInt8} (h : mixedDecode dest_len source = some bytes) :
    4 * bytes.length ≤ 3 * source.length := by
  obtain ⟨⟨s, leftover⟩, hlp, hrs⟩ := bind_eq_some_iff.1 h
  have hlen := length_decodeLoop hlp
  dsimp only at hrs
  split_ifs at hrs
  obtain rfl := some_inj.1 hrs
  simp only [List.length_nil] at hlen
  omega

/-- What simdutf documents: three bytes for four characters at most, and whether a text is UTF-8. -/
structure Simdutf.Lawful (simdutf : Simdutf) (valid : List UInt8 → Prop) : Prop where
  length_decode {source : List UInt8} {dest_len : ℕ} {bytes : List UInt8} :
    simdutf.decode source dest_len = some bytes → 4 * bytes.length ≤ 3 * source.length
  utf8_iff (text : List UInt8) : simdutf.utf8 text = true ↔ valid text

theorem Simdutf.Lawful.length_decodeBase64 {simdutf : Simdutf} {valid : List UInt8 → Prop}
    (lawful : simdutf.Lawful valid) {bytes : List UInt8}
    (h : simdutf.decodeBase64 source dest_len = some bytes) :
    4 * bytes.length ≤ 3 * source.length := by
  rw [Simdutf.decodeBase64] at h
  cases hd : simdutf.decode source dest_len with
  | some b =>
    rw [hd] at h
    obtain rfl := some_inj.1 h
    exact lawful.length_decode hd
  | none =>
    rw [hd] at h
    exact length_mixedDecode h

end Cruller.Resolver
