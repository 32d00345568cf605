import Cruller.Lib.Throughout
import Cruller.Jsc.RuntimeTranspilerCache

/-!
# The metadata of a cached file

What `Metadata.decode` accepts is what `Metadata.encode` writes (`decode_eq_ok_iff`). It crashes
where the version is the right one and the next byte is no module type (`decode_eq_panic_iff`), and
nowhere else.
-/

namespace Cruller.Jsc

open List

theorem ModuleType.enumFromInt_intFromEnum (t : ModuleType) :
    enumFromInt t.intFromEnum = some t := by
  cases t <;> rfl

theorem ModuleType.eq_intFromEnum {n : UInt8} {t : ModuleType} (h : enumFromInt n = some t) :
    n = t.intFromEnum := by
  unfold enumFromInt at h
  split_ifs at h <;> cases h <;> assumption

theorem ModuleType.enumFromInt_eq_none_iff {n : UInt8} : enumFromInt n = Option.none ↔ 2 < n := by
  unfold enumFromInt
  split_ifs with h₀ h₁ h₂
  · simp [h₀]
  · simp [h₁]
  · simp [h₂]
  · refine ⟨fun _ => ?_, fun _ => rfl⟩
    rw [← UInt8.toNat_inj] at h₀ h₁ h₂
    rw [UInt8.lt_iff_toNat_lt]
    simp only [UInt8.reduceToNat] at h₀ h₁ h₂ ⊢
    omega

theorem Encoding.intFromEnum_enumFromInt (n : UInt8) : (enumFromInt n).intFromEnum = n := by
  unfold enumFromInt
  split_ifs with h₀ h₁ h₂ h₃
  · exact h₀.symm
  · exact h₁.symm
  · exact h₂.symm
  · exact h₃.symm
  · rfl

namespace Metadata

variable {α β : Type}

/-- Metadata as `save` writes it. -/
structure Valid (this : Metadata) : Prop where
  version : this.cache_version = expected_version
  module_type : this.module_type ≠ .none
  output_encoding : this.output_encoding = .utf8 ∨ this.output_encoding = .utf16
    ∨ this.output_encoding = .latin1

variable {bytes rest : Bytes} {m : Reader α} {f : α → Reader β}

theorem run_bind_eq_ok {r : β × Bytes} :
    (m >>= f).run bytes = .ok r ↔
      ∃ a rest, m.run bytes = .ok (a, rest) ∧ (f a).run rest = .ok r := by
  rw [StateT.run_bind]
  cases h : m.run bytes with
  | error e => exact ⟨nofun, fun ⟨_, _, h, _⟩ => nomatch h⟩
  | ok a =>
    constructor
    · exact fun hf => ⟨a.1, a.2, rfl, hf⟩
    · rintro ⟨a', rest, ha, hf⟩
      cases ha
      exact hf

theorem readInt_eq_ok {L : Layout α} (hL : L.Exact) {v : α} :
    (readInt L).run bytes = .ok (v, rest) ↔ bytes = L.encode v ++ rest := by
  change (if bytes.length < L.size then _ else _) = _ ↔ _
  constructor
  · intro h
    split_ifs at h with hlt
    cases h
    rw [hL _ (length_take_of_le (not_lt.1 hlt)), take_append_drop]
  · rintro rfl
    have hle : L.size ≤ (L.encode v ++ rest).length := by
      simp [L.length_encode]
    rw [if_neg (not_lt.2 hle), take_left' (L.length_encode v),
      drop_left' (L.length_encode v), L.decode_encode]

theorem readVersion_eq_ok {v : UInt32} :
    readVersion.run bytes = .ok (v, rest) ↔
      v = expected_version ∧ bytes = Layout.u32.encode v ++ rest := by
  unfold readVersion
  rw [run_bind_eq_ok]
  constructor
  · rintro ⟨a, rest', hrd, h⟩
    split_ifs at h with hne
    · cases h
    obtain ⟨rfl, rfl⟩ := Prod.mk.inj (Except.ok.inj h)
    exact ⟨not_not.1 hne, (readInt_eq_ok Layout.exact_u32).1 hrd⟩
  · rintro ⟨rfl, hby⟩
    refine ⟨_, rest, (readInt_eq_ok Layout.exact_u32).2 hby, ?_⟩
    rw [if_neg (not_not.2 rfl)]
    rfl

theorem readModuleType_eq_ok {t : ModuleType} :
    readModuleType.run bytes = .ok (t, rest) ↔
      bytes = Layout.u8.encode t.intFromEnum ++ rest := by
  unfold readModuleType
  rw [run_bind_eq_ok]
  constructor
  · rintro ⟨n, rest', hrd, h⟩
    cases hn : ModuleType.enumFromInt n with
    | none =>
      rw [hn] at h
      cases h
    | some t' =>
      rw [hn] at h
      obtain ⟨rfl, rfl⟩ := Prod.mk.inj (Except.ok.inj h)
      rw [← ModuleType.eq_intFromEnum hn]
      exact (readInt_eq_ok Layout.exact_u8).1 hrd
  · rintro hby
    refine ⟨_, rest, (readInt_eq_ok Layout.exact_u8).2 hby, ?_⟩
    rw [ModuleType.enumFromInt_intFromEnum]
    rfl

theorem checkModuleType_eq_ok {t : ModuleType} {u : Unit} :
    (checkModuleType t).run bytes = .ok (u, rest) ↔ t ≠ .none ∧ rest = bytes := by
  cases t with
  | none => exact ⟨nofun, fun h => absurd rfl h.1⟩
  | esm => exact ⟨fun h => ⟨nofun, (Prod.mk.inj (Except.ok.inj h)).2.symm⟩, fun h => by rw [h.2]; rfl⟩
  | cjs => exact ⟨fun h => ⟨nofun, (Prod.mk.inj (Except.ok.inj h)).2.symm⟩, fun h => by rw [h.2]; rfl⟩

theorem checkEncoding_eq_ok {e : Encoding} {u : Unit} :
    (checkEncoding e).run bytes = .ok (u, rest) ↔
      (e = .utf8 ∨ e = .utf16 ∨ e = .latin1) ∧ rest = bytes := by
  have hrt : (return () : Reader Unit).run bytes = .ok (u, rest) ↔ rest = bytes :=
    ⟨fun h => (Prod.mk.inj (Except.ok.inj h)).2.symm, fun h => by rw [h]; rfl⟩
  cases e with
  | none => exact ⟨nofun, by simp⟩
  | other n => exact ⟨nofun, by simp⟩
  | utf8 => simpa [checkEncoding] using hrt
  | utf16 => simpa [checkEncoding] using hrt
  | latin1 => simpa [checkEncoding] using hrt

theorem decode_eq_ok_iff {this : Metadata} :
    decode.run bytes = .ok (this, rest) ↔ this.Valid ∧ bytes = this.encode ++ rest := by
  unfold decode decodeRest
  simp only [run_bind_eq_ok, readVersion_eq_ok, readModuleType_eq_ok,
    readInt_eq_ok Layout.exact_u8, readInt_eq_ok Layout.exact_u64, checkModuleType_eq_ok,
    checkEncoding_eq_ok]
  constructor
  · rintro ⟨version, _, ⟨rfl, h₁⟩, t, _, h₂, encoding, _, h₃, features_hash, _, h₄, length, _, h₅,
      hash, _, h₆, output_offset, _, h₇, output_length, _, h₈, output_hash, _, h₉,
      sourcemap_offset, _, h₁₀, sourcemap_length, _, h₁₁, sourcemap_hash, _, h₁₂, record_offset, _,
      h₁₃, record_length, _, h₁₄, record_hash, _, h₁₅, _, _, ⟨ht, h₁₆⟩, _, _, ⟨he, h₁₇⟩, h⟩
    obtain ⟨rfl, h₁₈⟩ := Prod.mk.inj (Except.ok.inj h)
    refine ⟨⟨rfl, ht, he⟩, ?_⟩
    rw [h₁, h₂, h₃, h₄, h₅, h₆, h₇, h₈, h₉, h₁₀, h₁₁, h₁₂, h₁₃, h₁₄, h₁₅, ← h₁₆, ← h₁₇, h₁₈]
    simp only [encode, Encoding.intFromEnum_enumFromInt, append_assoc]
  · rintro ⟨⟨hvr, ht, he⟩, rfl⟩
    have hen : Encoding.enumFromInt this.output_encoding.intFromEnum
        = this.output_encoding := by
      rcases he with he | he | he <;> rw [he] <;> rfl
    simp only [encode, append_assoc]
    refine ⟨_, _, ⟨hvr, rfl⟩, _, _, rfl, _, _, rfl, _, _, rfl, _, _, rfl, _, _, rfl, _, _, rfl,
      _, _, rfl, _, _, rfl, _, _, rfl, _, _, rfl, _, _, rfl, _, _, rfl, _, _, rfl, _, _, rfl,
      (), _, ⟨ht, rfl⟩, (), _, ⟨by rwa [hen], rfl⟩, ?_⟩
    rw [hen]
    rfl

/-- The reader does not panic. -/
def Safe (m : Reader α) : Prop := ∀ bytes, m.run bytes ≠ .error .panic

theorem Safe.bind (hm : Safe m) (hf : ∀ a, Safe (f a)) :
    Safe (m >>= f) := by
  intro bytes
  rw [StateT.run_bind]
  cases h : m.run bytes with
  | error e =>
    intro heq
    cases heq
    exact hm bytes h
  | ok a => exact hf a.1 a.2

theorem safe_readInt (L : Layout α) : Safe (readInt L) := by
  intro bytes
  change (if bytes.length < L.size then _ else _) ≠ _
  split_ifs <;> nofun

theorem safe_pure (a : α) : Safe (pure a : Reader α) := fun _ => nofun

theorem safe_checkModuleType (t : ModuleType) : Safe (checkModuleType t) := by
  intro bytes
  cases t <;> nofun

theorem safe_checkEncoding (e : Encoding) : Safe (checkEncoding e) := by
  intro bytes
  cases e <;> nofun

theorem safe_readVersion : Safe readVersion := by
  refine (safe_readInt _).bind fun v => ?_
  split_ifs
  · exact fun _ => nofun
  · exact safe_pure v

theorem run_bind_eq_panic :
    (m >>= f).run bytes = .error .panic ↔ m.run bytes = .error .panic
      ∨ ∃ a rest, m.run bytes = .ok (a, rest) ∧ (f a).run rest = .error .panic := by
  rw [StateT.run_bind]
  cases h : m.run bytes with
  | error e =>
    exact ⟨fun he => .inl (by cases he; rfl), fun he => he.elim (fun he => by cases he; rfl) nofun⟩
  | ok a =>
    constructor
    · exact fun hf => .inr ⟨a.1, a.2, rfl, hf⟩
    · rintro (he | ⟨a', rest, ha, hf⟩)
      · cases he
      · cases ha
        exact hf

theorem readModuleType_eq_panic_iff :
    readModuleType.run bytes = .error .panic ↔
      ∃ n rest, bytes = Layout.u8.encode n ++ rest ∧ 2 < n := by
  unfold readModuleType
  rw [run_bind_eq_panic, or_iff_right (safe_readInt _ bytes)]
  refine exists_congr fun n => exists_congr fun rest => ?_
  rw [readInt_eq_ok Layout.exact_u8, ← ModuleType.enumFromInt_eq_none_iff]
  refine and_congr_right fun _ => ?_
  cases ModuleType.enumFromInt n with
  | none => exact ⟨fun _ => rfl, fun _ => rfl⟩
  | some t => exact ⟨nofun, nofun⟩

theorem safe_decodeRest (cache_version : UInt32) (module_type : ModuleType) :
    Safe (decodeRest cache_version module_type) := by
  unfold decodeRest
  repeat refine (safe_readInt _).bind fun _ => ?_
  exact (safe_checkModuleType module_type).bind fun _ =>
    (safe_checkEncoding _).bind fun _ => safe_pure _

/-- The one crash is on a byte that is no module type. -/
theorem decode_eq_panic_iff :
    decode.run bytes = .error .panic ↔
      ∃ n rest, bytes = Layout.u32.encode expected_version ++ (Layout.u8.encode n ++ rest)
        ∧ 2 < n := by
  have htl : ∀ version rest, (readModuleType >>= decodeRest version).run rest = .error .panic ↔
      ∃ n rest', rest = Layout.u8.encode n ++ rest' ∧ 2 < n := by
    intro version rest
    rw [run_bind_eq_panic, readModuleType_eq_panic_iff]
    exact or_iff_left fun ⟨t, rest', _, h⟩ => safe_decodeRest version t rest' h
  unfold decode
  rw [run_bind_eq_panic, or_iff_right (safe_readVersion bytes)]
  simp only [readVersion_eq_ok, htl]
  constructor
  · rintro ⟨_, _, ⟨rfl, rfl⟩, n, rest, rfl, hn⟩
    exact ⟨n, rest, rfl, hn⟩
  · rintro ⟨n, rest, rfl, hn⟩
    exact ⟨_, _, ⟨rfl, rfl⟩, n, rest, rfl, hn⟩

end Metadata

end Cruller.Jsc
