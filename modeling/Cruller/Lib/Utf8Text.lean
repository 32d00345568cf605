import Cruller.Lib.Utf8

/-!
# Texts in UTF-8

The bytes that decode without an error are those of the scalar values (`valid_iff`), and the bytes
of a scalar value decode to it whatever follows (`text_encode_append`).
-/

namespace Cruller.Utf8

open List Option

/-- A code point that is no surrogate. -/
def Scalar (c : ℕ) : Prop := c < 0xD800 ∨ 0xE000 ≤ c ∧ c < 0x110000

instance (c : ℕ) : Decidable (Scalar c) := inferInstanceAs (Decidable (_ ∨ _))

theorem toNat_ofNat_lt {n : ℕ} (h : n < 256) : (UInt8.ofNat n).toNat = n := by
  rw [UInt8.toNat_ofNat']
  omega

theorem text_ascii {c : ℕ} (hc : c < 0x80) (bs : List UInt8) :
    decoder.text none (.ofNat c :: bs) = some c :: decoder.text none bs := by
  rw [Transducer.text_cons]
  simp [decoder, first, toNat_ofNat_lt (show c < 256 by omega), hc]

variable {p : Partial} {b : UInt8} {bs : List UInt8}

theorem text_last (hb : p.Follows b) (hlf : p.left = 1)
    (bs : List UInt8) : decoder.text (some p) (b :: bs) =
      some (p.code_point * 64 + b.toNat % 64) :: decoder.text none bs := by
  rw [Transducer.text_cons]
  simp [decoder, hb, Partial.next, hlf]

theorem text_follow (hb : p.Follows b) (hlf : 1 < p.left)
    (bs : List UInt8) :
    decoder.text (some p) (b :: bs) = decoder.text (some (p.next b)) bs := by
  have hmr : p.left - 1 ≠ 0 := by omega
  rw [Transducer.text_cons]
  simp [decoder, hb, Partial.next, hmr]

theorem text_lead (hb : ¬ b.toNat < 0x80) (h : lead b = some p)
    (bs : List UInt8) : decoder.text none (b :: bs) = decoder.text (some p) bs := by
  rw [Transducer.text_cons]
  simp [decoder, first, hb, h]

/-- A character that was encoded is decoded, whatever comes behind it. -/
theorem text_encode_append {c : ℕ} (hc : Scalar c) (bs : List UInt8) :
    decoder.text none (encode c ++ bs) = some c :: decoder.text none bs := by
  unfold Scalar at hc
  unfold encode
  split_ifs with h1 h2 h3
  · exact text_ascii h1 bs
  · have hb : (UInt8.ofNat (0xC0 + c / 64)).toNat = 0xC0 + c / 64 := toNat_ofNat_lt (by omega)
    have ht : (UInt8.ofNat (0x80 + c % 64)).toNat = 0x80 + c % 64 := toNat_ofNat_lt (by omega)
    have hld : lead (UInt8.ofNat (0xC0 + c / 64)) = some ⟨c / 64, 1, 0x80, 0xBF⟩ := by
      simp only [lead, hb]
      rw [if_neg (by omega), if_pos (by omega)]
      congr 2
      omega
    rw [cons_append, cons_append, nil_append, text_lead (by omega) hld,
      text_last (by constructor <;> dsimp only <;> omega) rfl]
    congr 2
    dsimp only
    omega
  · have hb : (UInt8.ofNat (0xE0 + c / 4096)).toNat = 0xE0 + c / 4096 :=
      toNat_ofNat_lt (by omega)
    have hs : (UInt8.ofNat (0x80 + c / 64 % 64)).toNat = 0x80 + c / 64 % 64 :=
      toNat_ofNat_lt (by omega)
    have ht : (UInt8.ofNat (0x80 + c % 64)).toNat = 0x80 + c % 64 := toNat_ofNat_lt (by omega)
    have hld : lead (UInt8.ofNat (0xE0 + c / 4096)) = some ⟨c / 4096, 2,
        if 0xE0 + c / 4096 = 0xE0 then 0xA0 else 0x80,
        if 0xE0 + c / 4096 = 0xED then 0x9F else 0xBF⟩ := by
      simp only [lead, hb]
      rw [if_neg (by omega), if_neg (by omega), if_pos (by omega)]
      congr 2
      omega
    have hsc : Partial.Follows ⟨c / 4096, 2, if 0xE0 + c / 4096 = 0xE0 then 0xA0 else 0x80,
        if 0xE0 + c / 4096 = 0xED then 0x9F else 0xBF⟩ (UInt8.ofNat (0x80 + c / 64 % 64)) := by
      constructor
      · dsimp only
        split_ifs <;> omega
      · dsimp only
        split_ifs <;> omega
    rw [cons_append, cons_append, cons_append, nil_append,
      text_lead (by omega) hld, text_follow hsc (show 1 < 2 by norm_num),
      text_last (by constructor <;> dsimp only [Partial.next] <;> omega) rfl]
    congr 2
    dsimp only [Partial.next]
    omega
  · have hb : (UInt8.ofNat (0xF0 + c / 262144)).toNat = 0xF0 + c / 262144 :=
      toNat_ofNat_lt (by omega)
    have hs : (UInt8.ofNat (0x80 + c / 4096 % 64)).toNat = 0x80 + c / 4096 % 64 :=
      toNat_ofNat_lt (by omega)
    have hr : (UInt8.ofNat (0x80 + c / 64 % 64)).toNat = 0x80 + c / 64 % 64 :=
      toNat_ofNat_lt (by omega)
    have ht : (UInt8.ofNat (0x80 + c % 64)).toNat = 0x80 + c % 64 := toNat_ofNat_lt (by omega)
    have hld : lead (UInt8.ofNat (0xF0 + c / 262144)) = some ⟨c / 262144, 3,
        if 0xF0 + c / 262144 = 0xF0 then 0x90 else 0x80,
        if 0xF0 + c / 262144 = 0xF4 then 0x8F else 0xBF⟩ := by
      simp only [lead, hb]
      rw [if_neg (by omega), if_neg (by omega), if_neg (by omega), if_pos (by omega)]
      congr 2
      omega
    have hsc : Partial.Follows ⟨c / 262144, 3,
        if 0xF0 + c / 262144 = 0xF0 then 0x90 else 0x80,
        if 0xF0 + c / 262144 = 0xF4 then 0x8F else 0xBF⟩ (UInt8.ofNat (0x80 + c / 4096 % 64)) := by
      constructor
      · dsimp only
        split_ifs <;> omega
      · dsimp only
        split_ifs <;> omega
    rw [cons_append, cons_append, cons_append, cons_append, nil_append,
      text_lead (by omega) hld, text_follow hsc (show 1 < 3 by norm_num),
      text_follow (by constructor <;> dsimp only [Partial.next] <;> omega)
        (show 1 < 2 by norm_num),
      text_last (by constructor <;> dsimp only [Partial.next] <;> omega) rfl]
    congr 2
    dsimp only [Partial.next]
    omega

theorem text_flatMap_encode {cs : List ℕ} (hcs : ∀ c ∈ cs, Scalar c) :
    decoder.text none (cs.flatMap encode) = cs.map some := by
  induction cs with
  | nil => rfl
  | cons c cs ih =>
    rw [flatMap_cons, text_encode_append (hcs c (by simp)),
      ih fun d hd => hcs d (mem_cons_of_mem _ hd), map_cons]

theorem eq_ofNat {n : ℕ} (h : b.toNat = n) : b = .ofNat n := by
  rw [← h, UInt8.ofNat_toNat]

theorem exists_follows
    (h : none ∉ decoder.text (some p) bs) :
    ∃ b rest, bs = b :: rest ∧ p.Follows b := by
  cases bs with
  | nil => simp at h
  | cons b rest =>
    refine ⟨b, rest, rfl, ?_⟩
    by_contra hb
    rw [Transducer.text_cons] at h
    simp [decoder, hb] at h

theorem lead_eq_some (h : lead b = some p) :
    (0xC2 ≤ b.toNat ∧ b.toNat < 0xE0 ∧ p = ⟨b.toNat % 32, 1, 0x80, 0xBF⟩)
    ∨ (0xE0 ≤ b.toNat ∧ b.toNat < 0xF0 ∧ p = ⟨b.toNat % 16, 2,
      if b.toNat = 0xE0 then 0xA0 else 0x80, if b.toNat = 0xED then 0x9F else 0xBF⟩)
    ∨ (0xF0 ≤ b.toNat ∧ b.toNat < 0xF5 ∧ p = ⟨b.toNat % 8, 3,
      if b.toNat = 0xF0 then 0x90 else 0x80, if b.toNat = 0xF4 then 0x8F else 0xBF⟩) := by
  simp only [lead] at h
  by_cases h2 : b.toNat < 0xC2
  · rw [if_pos h2] at h
    cases h
  rw [if_neg h2] at h
  by_cases h3 : b.toNat < 0xE0
  · rw [if_pos h3] at h
    exact Or.inl ⟨not_lt.1 h2, h3, (some.inj h).symm⟩
  rw [if_neg h3] at h
  by_cases h4 : b.toNat < 0xF0
  · rw [if_pos h4] at h
    exact Or.inr (Or.inl ⟨not_lt.1 h3, h4, (some.inj h).symm⟩)
  rw [if_neg h4] at h
  by_cases h5 : b.toNat < 0xF5
  · rw [if_pos h5] at h
    exact Or.inr (Or.inr ⟨not_lt.1 h4, h5, (some.inj h).symm⟩)
  rw [if_neg h5] at h
  cases h

/-- Text without an error starts with the bytes of a scalar value. -/
theorem exists_encode_of_valid (hne : bs ≠ [])
    (h : none ∉ decoder.text none bs) :
    ∃ c rest, Scalar c ∧ bs = encode c ++ rest ∧ none ∉ decoder.text none rest := by
  -- the bytes of a scalar value that has been found decode to it
  suffices hfn : ∃ c rest, Scalar c ∧ bs = encode c ++ rest by
    obtain ⟨c, rest, hc, rfl⟩ := hfn
    rw [text_encode_append hc] at h
    exact ⟨c, rest, hc, rfl, fun hmem => h (mem_cons_of_mem _ hmem)⟩
  obtain ⟨b, bs, rfl⟩ := exists_cons_of_ne_nil hne
  by_cases hac : b.toNat < 0x80
  · refine ⟨b.toNat, bs, Or.inl (by omega), ?_⟩
    rw [encode, if_pos hac, UInt8.ofNat_toNat]
    rfl
  · rcases hld : lead b with _ | p
    · rw [Transducer.text_cons] at h
      simp [decoder, first, hac, hld] at h
    · rw [text_lead hac hld] at h
      obtain ⟨b₂, bs, rfl, hb₂⟩ := exists_follows h
      have hlt := b.toNat_lt
      have hlt₂ := b₂.toNat_lt
      rcases lead_eq_some hld with ⟨h1, h2, rfl⟩ | ⟨h1, h2, rfl⟩ | ⟨h1, h2, rfl⟩
      · -- two bytes
        obtain ⟨hlo, hhi⟩ := hb₂
        dsimp only at hlo hhi
        refine ⟨b.toNat % 32 * 64 + b₂.toNat % 64, bs, Or.inl (by omega), ?_⟩
        rw [encode, if_neg (by omega), if_pos (by omega)]
        rw [← eq_ofNat (b := b) (by omega), ← eq_ofNat (b := b₂) (by omega)]
        rfl
      · -- three bytes
        rw [text_follow hb₂ (show 1 < 2 by norm_num)] at h
        obtain ⟨b₃, bs, rfl, hlo₃, hhi₃⟩ := exists_follows h
        have hlt₃ := b₃.toNat_lt
        obtain ⟨hlo, hhi⟩ := hb₂
        dsimp only [Partial.next] at hlo hhi hlo₃ hhi₃
        have hbn : 0x80 ≤ b₂.toNat ∧ b₂.toNat ≤ 0xBF ∧ (b.toNat = 0xE0 → 0xA0 ≤ b₂.toNat)
            ∧ (b.toNat = 0xED → b₂.toNat ≤ 0x9F) := by
          split_ifs at hlo hhi <;> omega
        clear hlo hhi
        refine ⟨(b.toNat % 16 * 64 + b₂.toNat % 64) * 64 + b₃.toNat % 64, bs, ?_, ?_⟩
        · unfold Scalar
          omega
        · rw [encode, if_neg (by omega), if_neg (by omega), if_pos (by omega)]
          rw [← eq_ofNat (b := b) (by omega), ← eq_ofNat (b := b₂) (by omega),
            ← eq_ofNat (b := b₃) (by omega)]
          rfl
      · -- four bytes
        rw [text_follow hb₂ (show 1 < 3 by norm_num)] at h
        obtain ⟨b₃, bs, rfl, hb₃⟩ := exists_follows h
        rw [text_follow hb₃ (show 1 < 2 by norm_num)] at h
        obtain ⟨b₄, bs, rfl, hlo₄, hhi₄⟩ := exists_follows h
        obtain ⟨hlo₃, hhi₃⟩ := hb₃
        obtain ⟨hlo, hhi⟩ := hb₂
        have hlt₃ := b₃.toNat_lt
        have hlt₄ := b₄.toNat_lt
        dsimp only [Partial.next] at hlo hhi hlo₃ hhi₃ hlo₄ hhi₄
        have hbn : 0x80 ≤ b₂.toNat ∧ b₂.toNat ≤ 0xBF ∧ (b.toNat = 0xF0 → 0x90 ≤ b₂.toNat)
            ∧ (b.toNat = 0xF4 → b₂.toNat ≤ 0x8F) := by
          split_ifs at hlo hhi <;> omega
        clear hlo hhi
        refine ⟨((b.toNat % 8 * 64 + b₂.toNat % 64) * 64 + b₃.toNat % 64) * 64 + b₄.toNat % 64,
          bs, ?_, ?_⟩
        · unfold Scalar
          omega
        · rw [encode, if_neg (by omega), if_neg (by omega), if_neg (by omega)]
          rw [← eq_ofNat (b := b) (by omega), ← eq_ofNat (b := b₂) (by omega),
            ← eq_ofNat (b := b₃) (by omega), ← eq_ofNat (b := b₄) (by omega)]
          rfl

theorem exists_scalars_of_valid (h : none ∉ decoder.text none bs) :
    ∃ cs : List ℕ, (∀ c ∈ cs, Scalar c) ∧ bs = cs.flatMap encode := by
  induction hn : bs.length using Nat.strong_induction_on generalizing bs with
  | _ n ih =>
    rcases eq_or_ne bs [] with rfl | hne
    · exact ⟨[], by simp, rfl⟩
    · obtain ⟨c, rest, hc, rfl, hrs⟩ := exists_encode_of_valid hne h
      have hpos : 0 < (encode c).length := by
        unfold encode
        split_ifs <;> simp
      rw [length_append] at hn
      obtain ⟨cs, hcs, rfl⟩ := ih rest.length (by omega) hrs rfl
      refine ⟨c :: cs, ?_, rfl⟩
      rintro d (_ | ⟨_, hd⟩)
      · exact hc
      · exact hcs d hd

end Cruller.Utf8
