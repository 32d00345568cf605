import Cruller.Text.TextEncoder
import Cruller.Text.Streams

/-!
# Streams of strings

Every call of the encoder follows the decoder of UTF-16 units: it gives the UTF-8 text of what the
decoder emits over the string, and keeps the surrogate that the decoder waits with (`encode_eq`).
-/

namespace Cruller.Text

open List Option Nat Transducer Utf8

variable {n : ℕ} {lead trail : UInt16}

theorem or_c0 (h : n < 32) : 0xC0 ||| n = 0xC0 + n := by
  revert n
  decide

theorem or_e0 (h : n < 16) : 0xE0 ||| n = 0xE0 + n := by
  revert n
  decide

theorem or_f0 (h : n < 8) : 0xF0 ||| n = 0xF0 + n := by
  revert n
  decide

theorem or_80 (h : n < 64) : 0x80 ||| n = 0x80 + n := by
  revert n
  decide

theorem and_3f (n : ℕ) : n &&& 0x3F = n % 64 := and_two_pow_sub_one_eq_mod n 6

theorem continuation (n : ℕ) : 0x80 ||| (n &&& 0x3F) = 0x80 + n % 64 := by
  rw [and_3f, or_80 (mod_lt _ (by decide))]

theorem wtf8Sequence_eq {replacement : UTF16Replacement}
    (h : replacement.code_point < 0x110000) :
    (wtf8Sequence replacement.code_point).take replacement.utf8Width =
      Utf8.encode replacement.code_point := by
  rw [UTF16Replacement.utf8Width, wtf8Sequence, Utf8.encode]
  generalize replacement.code_point = c at h ⊢
  have h7 : c < 0x80 ↔ c ≤ 0x7f := by omega
  have h11 : c < 0x800 ↔ c ≤ 0x7ff := by omega
  have h16 : c < 0x10000 ↔ c ≤ 0xffff := by omega
  simp only [h7, h11, h16, continuation, shiftRight_eq_div_pow]
  split_ifs with h1 h2 h3
  · rfl
  · rw [or_c0 (by omega)]
    rfl
  · rw [or_e0 (by omega)]
    rfl
  · rw [or_f0 (by omega)]
    rfl

theorem wtf8Sequence_mk {c len : ℕ} {fail can_buffer is_lead : Bool} (h : c < 0x110000) :
    (wtf8Sequence (UTF16Replacement.mk c len fail can_buffer is_lead).code_point).take
      (UTF16Replacement.mk c len fail can_buffer is_lead).utf8Width = Utf8.encode c :=
  wtf8Sequence_eq h

theorem encode_unicode_replacement : Utf8.encode Utf16.replacement = [0xef, 0xbf, 0xbd] := by
  decide

def latin1Bytes (latin1 : List UInt8) : List UInt8 :=
  latin1.flatMap fun char => Utf8.encode char.toNat

theorem encode_ascii {char : UInt8} (h : char.toNat ≤ 127) : Utf8.encode char.toNat = [char] := by
  rw [Utf8.encode, if_pos (by omega), UInt8.ofNat_toNat]

theorem encode_notASCII {char : UInt8} (h : ¬ char.toNat ≤ 127) :
    Utf8.encode char.toNat = latin1ToCodepointBytesAssumeNotASCII char := by
  have hlt := char.toNat_lt
  rw [Utf8.encode, if_neg (by omega), if_pos (by omega), latin1ToCodepointBytesAssumeNotASCII,
    continuation, shiftRight_eq_div_pow, or_c0 (by omega)]

/-- Whole characters are copied, as many as there is room for. -/
theorem copyInto_spec (room : ℕ) (latin1 : List UInt8) :
    let (out, read) := copyInto room latin1
    out = latin1Bytes (latin1.take read) ∧ out.length ≤ room ∧ read ≤ latin1.length
      ∧ read ≤ out.length ∧ out.length ≤ 2 * read
      ∧ (read = 0 → latin1 ≠ [] → room < 2) := by
  induction latin1 generalizing room with
  | nil => simp [copyInto, latin1Bytes]
  | cons char latin1 ih =>
    rw [copyInto]
    by_cases hac : char.toNat ≤ 127
    · rw [if_pos hac]
      by_cases hrm : room = 0
      · rw [if_pos hrm]
        simp [latin1Bytes, hrm]
      · rw [if_neg hrm]
        obtain ⟨hout, hfits, hrd, hle, hle', -⟩ := ih (room - 1)
        refine ⟨?_, by simp; omega, by simpa using hrd, by simpa using hle, by simp; omega,
          fun h => absurd h (by simp)⟩
        rw [take_succ_cons, latin1Bytes, flatMap_cons, encode_ascii hac,
          singleton_append]
        exact congrArg _ hout
    · rw [if_neg hac]
      by_cases hrm : room < 2
      · rw [if_pos hrm]
        simp [latin1Bytes, hrm]
      · rw [if_neg hrm]
        obtain ⟨hout, hfits, hrd, hle, hle', -⟩ := ih (room - 2)
        have hlen : (latin1ToCodepointBytesAssumeNotASCII char).length = 2 := rfl
        refine ⟨?_, by simp [hlen]; omega, by simpa using hrd, by simp [hlen]; omega,
          by simp [hlen]; omega, fun h => absurd h (by simp)⟩
        rw [take_succ_cons, latin1Bytes, flatMap_cons, encode_notASCII hac]
        exact congrArg _ hout

theorem copyLatin1IntoUTF8_eq {room : ℕ} {latin1 : List UInt8}
    (h : latin1.length ≤ 2 ^ 31 - 1) : copyLatin1IntoUTF8 room latin1 =
      ((copyInto room latin1).1, ⟨(copyInto room latin1).2, (copyInto room latin1).1.length⟩) := by
  obtain ⟨-, -, hrd, -, hle, -⟩ := copyInto_spec room latin1
  simp only [copyLatin1IntoUTF8]
  rw [mod_eq_of_lt (by omega), mod_eq_of_lt (by omega)]

/-- The loop appends the UTF-8 form of all that remains, however often the buffer grows. -/
theorem encodeRemain_eq (A : Allocator) {capacity : ℕ} {items remain : List UInt8}
    (hlen : remain.length ≤ 2 ^ 31 - 1)
    (hn : remain ≠ [] →
      2 * remain.length + (if capacity - items.length < 2 then 1 else 0) ≤ n) :
    encodeRemain A n capacity items remain = items ++ latin1Bytes remain := by
  induction n generalizing capacity items remain with
  | zero =>
    have hnil : remain = [] := by
      by_contra hne
      have := hn hne
      have := length_pos_of_ne_nil hne
      omega
    rw [hnil]
    simp [encodeRemain, latin1Bytes]
  | succ n ih =>
    rw [encodeRemain]
    by_cases hnil : remain = []
    · rw [if_pos hnil, hnil]
      simp [latin1Bytes]
    have hn := hn hnil
    rw [if_neg hnil, copyLatin1IntoUTF8_eq hlen]
    obtain ⟨hout, hfits, hrd, hle, hle', hst⟩ := copyInto_spec (capacity - items.length) remain
    simp only [take_length]
    generalize copyInto (capacity - items.length) remain = result at hout hfits hrd hle hle' hst ⊢
    obtain ⟨out, read⟩ := result
    simp only at hout hfits hrd hle hle' hst ⊢
    have hpos : 0 < remain.length := length_pos_of_ne_nil hnil
    have hdn : (items ++ out) ++ latin1Bytes (remain.drop read) = items ++ latin1Bytes remain := by
      rw [append_assoc, hout]
      congr 1
      rw [latin1Bytes, latin1Bytes, latin1Bytes, ← List.flatMap_append, take_append_drop]
    have hdr : (remain.drop read).length = remain.length - read := length_drop
    by_cases hzr : out.length = 0 ∧ read = 0
    · have hrm := hst hzr.2 hnil
      have hgr := A.le_grow capacity ((items ++ out).length + 2)
      rw [if_pos hzr, ih (by omega), hdn]
      intro _
      rw [if_pos hrm] at hn
      rw [if_neg (by omega)]
      omega
    · rw [if_neg hzr]
      have hsm : 0 < read := by omega
      by_cases hfl : (items ++ out).length = capacity ∧ 0 < (remain.drop read).length
      · rw [if_pos hfl, ih (by omega), hdn]
        intro _
        split_ifs <;> omega
      · rw [if_neg hfl, ih (by omega), hdn]
        intro _
        split_ifs <;> omega

open Utf16 (unitDecoder IsLead IsTrail)

theorem class_lead (u : UInt16) : u.toNat &&& 0x1ffc00 = 0xd800 ↔ IsLead u := by
  have hlt := u.toNat_lt
  have hms : u.toNat &&& 0x1ffc00 = u.toNat / 1024 * 1024 := and_high 11 (by omega)
  rw [hms, IsLead]
  omega

theorem class_trail (u : UInt16) : u.toNat &&& 0x1ffc00 = 0xdc00 ↔ IsTrail u := by
  have hlt := u.toNat_lt
  have hms : u.toNat &&& 0x1ffc00 = u.toNat / 1024 * 1024 := and_high 11 (by omega)
  rw [hms, IsTrail]
  omega

theorem pair_bits (hl : IsLead lead) (ht : IsTrail trail) :
    ((lead.toNat &&& 0x03ff) <<< 10) ||| (trail.toNat &&& 0x03ff) =
      (lead.toNat - 0xD800) * 0x400 + (trail.toNat - 0xDC00) := by
  obtain ⟨hl, hl'⟩ := hl
  obtain ⟨ht, ht'⟩ := ht
  have hld : lead.toNat &&& 0x03ff = lead.toNat - 0xD800 := by
    rw [show (0x03ff : ℕ) = 2 ^ 10 - 1 from rfl, and_two_pow_sub_one_eq_mod]
    omega
  have htr : trail.toNat &&& 0x03ff = trail.toNat - 0xDC00 := by
    rw [show (0x03ff : ℕ) = 2 ^ 10 - 1 from rfl, and_two_pow_sub_one_eq_mod]
    omega
  have hlt : trail.toNat - 0xDC00 < 2 ^ 10 := by omega
  rw [hld, htr, ← shiftLeft_add_eq_or_of_lt hlt, shiftLeft_eq]

theorem pair_eq (hl : IsLead lead) (ht : IsTrail trail) :
    0x10000 + (((lead.toNat &&& 0x03ff) <<< 10) ||| (trail.toNat &&& 0x03ff)) =
      pairCodePoint lead trail := by
  have hbt := pair_bits hl ht
  unfold pairCodePoint
  omega

theorem pairCodePoint_lt (hl : IsLead lead) (ht : IsTrail trail) :
    pairCodePoint lead trail < 0x110000 := by
  obtain ⟨hl, hl'⟩ := hl
  obtain ⟨ht, ht'⟩ := ht
  unfold pairCodePoint
  omega

theorem not_lead_of_trail {u : UInt16} (h : IsTrail u) : ¬ IsLead u := by
  intro hl
  have := h.1
  have := hl.2
  omega

/-! What the code takes for the first character. -/

section

variable {u t : UInt16} {us : List UInt16}

theorem codepoint_pair (hl : IsLead u) (ht : IsTrail t) :
    utf16CodepointWithFFFDAndFirstInputChar u (u :: t :: us) =
      { len := 2, code_point := pairCodePoint u t } := by
  have hone : ¬ (u :: t :: us).length = 1 := by simp
  have htr : IsTrail ((u :: t :: us).getD 1 0) := ht
  refine (if_pos ((class_lead u).2 hl)).trans ((if_neg hone).trans
    ((if_neg (not_not.2 ((class_trail _).2 htr))).trans ?_))
  exact congrArg (fun c => ({ len := 2, code_point := c } : UTF16Replacement)) (pair_eq hl ht)

theorem codepoint_dangling (hl : IsLead u) : utf16CodepointWithFFFDAndFirstInputChar u [u] =
    { len := 1, is_lead := true } := by
  simp only [utf16CodepointWithFFFDAndFirstInputChar]
  rw [if_pos ((class_lead u).2 hl), if_pos (by rfl)]

theorem codepoint_lead (hl : IsLead u) (ht : ¬ IsTrail t) :
    utf16CodepointWithFFFDAndFirstInputChar u (u :: t :: us) =
      { fail := true, len := 1, code_point := unicode_replacement, is_lead := true } := by
  have hone : ¬ (u :: t :: us).length = 1 := by simp
  simp only [utf16CodepointWithFFFDAndFirstInputChar]
  rw [if_pos ((class_lead u).2 hl), if_neg hone,
    if_pos (mt (class_trail _).1 (show ¬ IsTrail ((u :: t :: us).getD 1 0) from ht))]

theorem codepoint_trail (ht : IsTrail u) : utf16CodepointWithFFFDAndFirstInputChar u us =
    { fail := true, len := 1, code_point := unicode_replacement } := by
  simp only [utf16CodepointWithFFFDAndFirstInputChar]
  rw [if_neg (mt (class_lead u).1 (not_lead_of_trail ht)), if_pos ((class_trail u).2 ht)]

theorem codepoint_unit (hl : ¬ IsLead u) (ht : ¬ IsTrail u) :
    utf16CodepointWithFFFDAndFirstInputChar u us = { code_point := u.toNat, len := 1 } := by
  simp only [utf16CodepointWithFFFDAndFirstInputChar]
  rw [if_neg (mt (class_lead u).1 hl), if_neg (mt (class_trail u).1 ht)]

/-! What the decoder makes of it. -/

theorem step_lead (hl : IsLead u) : unitDecoder.step none u = (some u, []) := by
  simp [unitDecoder, Utf16.stepUnit, Utf16.single, hl]

theorem step_trail (ht : IsTrail u) : unitDecoder.step none u = (none, [none]) := by
  simp [unitDecoder, Utf16.stepUnit, Utf16.single, ht, not_lead_of_trail ht]

theorem step_unit (hl : ¬ IsLead u) (ht : ¬ IsTrail u) :
    unitDecoder.step none u = (none, [some u.toNat]) := by
  simp [unitDecoder, Utf16.stepUnit, Utf16.single, hl, ht]

theorem step_pair (l : UInt16) (ht : IsTrail t) :
    unitDecoder.step (some l) t = (none, [some (pairCodePoint l t)]) := by
  simp [unitDecoder, Utf16.stepUnit, ht]

theorem exists_pair (hl : IsLead u) (ht : IsTrail t) : ∃ c, c < 0x110000
    ∧ (∀ us, utf16CodepointWithFFFDAndFirstInputChar u (u :: t :: us) = { len := 2, code_point := c })
    ∧ unitDecoder.step (some u) t = (none, [some c]) :=
  ⟨pairCodePoint u t, pairCodePoint_lt hl ht, fun _ => codepoint_pair hl ht, step_pair u ht⟩

theorem run_unpaired (l : UInt16) (ht : ¬ IsTrail t) :
    unitDecoder.out (some l) (t :: us) = none :: unitDecoder.out none (t :: us)
      ∧ unitDecoder.after (some l) (t :: us) = unitDecoder.after none (t :: us) := by
  have hst : unitDecoder.step (some l) t =
      ((unitDecoder.step none t).1, none :: (unitDecoder.step none t).2) := by
    simp [unitDecoder, Utf16.stepUnit, ht]
  rw [out_cons, out_cons, after_cons, after_cons, hst]
  exact ⟨rfl, rfl⟩

end

theorem not_surrogate_of_ascii {u : UInt16} (h : u.toNat ≤ 127) : ¬ IsLead u ∧ ¬ IsTrail u := by
  rw [IsLead, IsTrail]
  omega

theorem run_ascii {front : List UInt16} (h : ∀ u ∈ front, u.toNat ≤ 127) :
    bytes (unitDecoder.out none front) = copyU16IntoU8 front
      ∧ unitDecoder.after none front = none := by
  induction front with
  | nil => exact ⟨rfl, rfl⟩
  | cons u front ih =>
    obtain ⟨hu, hfr⟩ := forall_mem_cons.1 h
    obtain ⟨hl, ht⟩ := not_surrogate_of_ascii hu
    obtain ⟨hout, haf⟩ := ih hfr
    have hby : Utf8.encode u.toNat = [u.toUInt8] := by
      rw [Utf8.encode, if_pos (by omega)]
      rfl
    rw [out_cons, after_cons, step_unit hl ht, bytes_append, hout, bytes_some, hby]
    exact ⟨rfl, haf⟩

/-- All the units are ASCII, or the first that is not is found. -/
theorem firstNonASCII16_cases {us : List UInt16} (hlen : us.length ≤ 2 ^ 31 - 1) :
    (firstNonASCII16 us = none ∧ ∀ u ∈ us, u.toNat ≤ 127)
      ∨ ∃ front u rest, us = front ++ u :: rest ∧ firstNonASCII16 us = some front.length
        ∧ ∀ u ∈ front, u.toNat ≤ 127 := by
  induction us with
  | nil => exact Or.inl ⟨rfl, by simp⟩
  | cons u us ih =>
    have hcn : firstNonASCII16 (u :: us) = if 127 < u.toNat then some 0
        else (us.findIdx? fun char => decide (127 < char.toNat)).map fun i => (i + 1) % 2 ^ 32 := by
      rw [firstNonASCII16, findIdx?_cons]
      split_ifs with h1 h2 h2
      · rfl
      · simp at h1
        omega
      · simp at h1
        omega
      · rw [Option.map_map]
        rfl
    by_cases hu : 127 < u.toNat
    · refine Or.inr ⟨[], u, us, rfl, ?_, by simp⟩
      rw [hcn, if_pos hu]
      rfl
    · rw [length_cons] at hlen
      rcases ih (by omega) with ⟨hno, hall⟩ | ⟨front, v, rest, rfl, hsm, hall⟩
      · rw [firstNonASCII16, map_eq_none_iff] at hno
        refine Or.inl ⟨?_, forall_mem_cons.2 ⟨not_lt.1 hu, hall⟩⟩
        rw [hcn, if_neg hu, hno]
        rfl
      · rw [firstNonASCII16, map_eq_some_iff] at hsm
        obtain ⟨i, hi, hmod⟩ := hsm
        have hlt := (findIdx?_eq_some_iff_findIdx_eq.1 hi).1
        rw [length_append, length_cons] at hlen hlt
        rw [mod_eq_of_lt (by omega)] at hmod
        subst hmod
        refine Or.inr ⟨u :: front, v, rest, rfl, ?_, forall_mem_cons.2 ⟨not_lt.1 hu, hall⟩⟩
        rw [hcn, if_neg hu, hi, map_some, mod_eq_of_lt (by omega)]
        rfl

/-- The list goes on with the text that the decoder emits, and a lead surrogate at the end of the
units is handed back. -/
theorem toUTF8ListWithTypeBun_eq {list : List UInt8} {us : List UInt16}
    (hlen : us.length ≤ 2 ^ 31 - 1) (hn : us.length < n) : toUTF8ListWithTypeBun n list us =
      (list ++ bytes (unitDecoder.out none us), unitDecoder.after none us) := by
  induction n generalizing list us with
  | zero => omega
  | succ n ih =>
    rw [toUTF8ListWithTypeBun]
    rcases firstNonASCII16_cases hlen with ⟨hno, hall⟩ | ⟨front, u, rest, rfl, hsm, hall⟩
    · obtain ⟨hout, haf⟩ := run_ascii hall
      rw [hno, hout, haf]
    obtain ⟨hout, haf⟩ := run_ascii hall
    rw [hsm, out_append, after_append, haf, bytes_append, hout]
    simp only [take_left, drop_left, getD_cons_zero]
    rw [length_append, length_cons] at hlen hn
    rw [← append_assoc]
    generalize list ++ copyU16IntoU8 front = list
    by_cases hl : IsLead u
    · rcases rest with _ | ⟨t, rest⟩
      · rw [codepoint_dangling hl, out_cons, after_cons, step_lead hl]
        simp
      by_cases ht : IsTrail t
      · obtain ⟨c, hc, hcd, hpr⟩ := exists_pair hl ht
        rw [hcd, out_cons, after_cons, step_lead hl]
        rw [if_neg (by simp), wtf8Sequence_mk hc, nil_append, out_cons, after_cons, hpr,
          ih (by simp at hlen ⊢; omega) (by simp at hn ⊢; omega), append_assoc]
        rfl
      · obtain ⟨hrun, hrun'⟩ := @run_unpaired t rest u ht
        rw [codepoint_lead hl ht, out_cons, after_cons, step_lead hl]
        rw [if_neg (by simp), wtf8Sequence_eq (by decide), nil_append, hrun, hrun',
          ih (by simp at hlen ⊢; omega) (by simp at hn ⊢; omega), append_assoc]
        rfl
    · have hsn : ∀ {r : UTF16Replacement} {item : Option ℕ}, r.is_lead = false → r.len = 1 →
          r.code_point < 0x110000 → item.getD Utf16.replacement = r.code_point →
          unitDecoder.step none u = (none, [item]) →
          (if r.is_lead = true ∧ ((u :: rest).drop r.len).length = 0 then (list, some u)
            else toUTF8ListWithTypeBun n (list ++ (wtf8Sequence r.code_point).take r.utf8Width)
              ((u :: rest).drop r.len)) =
          (list ++ bytes (unitDecoder.out none (u :: rest)),
            unitDecoder.after none (u :: rest)) := by
        intro r item hld hone hcd him hst
        rw [if_neg (by simp [hld]), wtf8Sequence_eq hcd, hone, drop_one, tail_cons,
          ih (by omega) (by omega), out_cons, after_cons, hst, append_assoc]
        rw [← him]
        rfl
      by_cases ht : IsTrail u
      · rw [codepoint_trail ht]
        exact hsn rfl rfl (by decide) rfl (step_trail ht)
      · rw [codepoint_unit hl ht]
        have hcd : u.toNat < 0x110000 := by
          have := u.toNat_lt
          omega
        exact @hsn _ (some u.toNat) rfl rfl hcd rfl (step_unit hl ht)

namespace TextEncoderStreamEncoder

variable {A : Allocator} {S : SimdutfUTF16}

def Paired (l : Option UInt16) : Prop := ∀ u, l = some u → IsLead u

variable {l : Option UInt16}

theorem paired_step (u : UInt16) : Paired (unitDecoder.step l u).1 := by
  have hno : Paired (unitDecoder.step none u).1 := by
    by_cases hl : IsLead u
    · rw [step_lead hl]
      intro v hv
      rwa [← some_inj.1 hv]
    · by_cases ht : IsTrail u
      · rw [step_trail ht]
        intro v hv
        cases hv
      · rw [step_unit hl ht]
        intro v hv
        cases hv
  rcases l with _ | l
  · exact hno
  · by_cases ht : IsTrail u
    · rw [step_pair l ht]
      intro v hv
      cases hv
    · have haf := (@run_unpaired u [] l ht).2
      rw [after_cons, after_cons, after_nil, after_nil] at haf
      rwa [haf]

theorem paired_after (hl : Paired l) (us : List UInt16) :
    Paired (unitDecoder.after l us) := by
  induction us generalizing l with
  | nil => exact hl
  | cons u us ih => exact ih (paired_step u)

theorem encodePrepended_eq (hS : S.Lawful) (fatal : List UInt8) {us : List UInt16}
    (hlen : us.length ≤ 2 ^ 31 - 1) : encodePrepended ⟨none⟩ S fatal us =
      (⟨unitDecoder.after none us⟩, fatal ++ bytes (unitDecoder.out none us)) := by
  rw [encodePrepended]
  by_cases hvl : ValidUnits us
  · have haf : unitDecoder.after none us = none := by
      by_contra hne
      refine hvl (mem_append_right _ ?_)
      simp [unitDecoder] at hne ⊢
      exact hne
    have htx : unitDecoder.text none us = unitDecoder.out none us := by
      rw [Transducer.text, haf]
      exact append_nil _
    rw [if_pos ((hS.success us).2 hvl), hS.converted us hvl, haf, htx]
  · rw [if_neg (mt (hS.success us).1 hvl), toUTF8ListWithTypeBun_eq hlen (lt_succ_self _)]
    rcases unitDecoder.after none us with _ | l <;> rfl

theorem out_latin1 (input : List UInt8) :
    bytes (unitDecoder.out none (copyU8IntoU16 input)) = latin1Bytes input
      ∧ unitDecoder.after none (copyU8IntoU16 input) = none := by
  induction input with
  | nil => exact ⟨rfl, rfl⟩
  | cons char input ih =>
    obtain ⟨hout, haf⟩ := ih
    have hlt := char.toNat_lt
    have hsm : char.toUInt16.toNat = char.toNat := rfl
    have hl : ¬ IsLead char.toUInt16 := by
      rw [IsLead, hsm]
      omega
    have ht : ¬ IsTrail char.toUInt16 := by
      rw [IsTrail, hsm]
      omega
    rw [copyU8IntoU16, map_cons, ← copyU8IntoU16, out_cons, after_cons, step_unit hl ht,
      bytes_append, hout, hsm]
    exact ⟨by simp [latin1Bytes], haf⟩

/-- A call follows the decoder over the units of its string. -/
theorem encode_eq (hS : S.Lawful) (hl : Paired l) (str : ZigString) :
    encode ⟨l⟩ A S str =
      (⟨unitDecoder.after l str.units⟩, bytes (unitDecoder.out l str.units)) := by
  rcases str with ⟨slice, hlen⟩ | ⟨slice, hlen⟩
  · obtain ⟨hout, haf⟩ := out_latin1 slice
    rw [encode, encodeLatin1, ZigString.units]
    rcases slice with _ | ⟨char, slice⟩
    · rfl
    rw [if_neg (by simp)]
    rcases l with _ | l
    · simp only [ne_eq, not_true_eq_false, if_false, lt_self_iff_false, hout, haf]
      rw [encodeRemain_eq A hlen, nil_append]
      intro _
      simp only [length_nil, length_cons]
      split_ifs <;> omega
    · have ht : ¬ IsTrail char.toUInt16 := by
        have hlt := char.toNat_lt
        have hsm : char.toUInt16.toNat = char.toNat := rfl
        rw [IsTrail, hsm]
        omega
      obtain ⟨hrun, hrun'⟩ := @run_unpaired char.toUInt16 (copyU8IntoU16 slice) l ht
      rw [copyU8IntoU16, map_cons, ← copyU8IntoU16, hrun, hrun']
      rw [copyU8IntoU16, map_cons, ← copyU8IntoU16] at hout haf
      rw [bytes_none, hout, haf, encode_unicode_replacement]
      simp only [ne_eq, reduceCtorEq, not_false_eq_true, if_true, ofNat_pos]
      rw [encodeRemain_eq A hlen]
      intro _
      simp only [length_nil, length_cons]
      split_ifs <;> omega
  · rw [encode, ZigString.units]
    rcases slice with _ | ⟨t, us⟩
    · rfl
    rcases l with _ | l
    · rw [encodeUTF16]
      exact (encodePrepended_eq hS [] hlen).trans (by rw [nil_append])
    have hld := hl l rfl
    rw [encodeUTF16]
    by_cases ht : IsTrail t
    · obtain ⟨c, hc, hcd, hpr⟩ := exists_pair hld ht
      have hcd : utf16CodepointWithFFFD [l, t] = { len := 2, code_point := c } := hcd []
      rw [out_cons, after_cons, hpr]
      simp only [u16IsTrail_iff.2 ht, if_true]
      rw [hcd, wtf8Sequence_mk hc]
      by_cases hnil : us.length = 0
      · rw [if_pos hnil, eq_nil_of_length_eq_zero hnil]
        simp
      · rw [length_cons] at hlen
        rw [if_neg hnil, encodePrepended_eq hS _ (by omega)]
        simp
    · obtain ⟨hrun, hrun'⟩ := @run_unpaired t us l ht
      have hnot : u16IsTrail t = false := by
        rw [Bool.eq_false_iff]
        exact mt u16IsTrail_iff.1 ht
      simp only [hnot, Bool.false_eq_true, if_false]
      rw [encodePrepended_eq hS _ hlen, hrun, hrun', bytes_none, encode_unicode_replacement]

theorem encodeStream_from (hS : S.Lawful) (hl : Paired l)
    (strs : List ZigString) : (encodeStream A S ⟨l⟩ strs).flatten =
      bytes (unitDecoder.text l (strs.flatMap ZigString.units)) := by
  induction strs generalizing l with
  | nil =>
    rw [encodeStream, flush, flatMap_nil, text_nil]
    rcases l with _ | l
    · rfl
    · exact congrArg (· ++ []) encode_unicode_replacement.symm
  | cons str strs ih =>
    rw [encodeStream, encode_eq hS hl]
    simp only [flatten_cons]
    rw [ih (paired_after hl _), flatMap_cons, text_append, bytes_append]

end TextEncoderStreamEncoder

/-- However a sequence of units is cut into strings, Latin-1 or UTF-16, the calls and the flush give
together its UTF-8 text, with the replacement character for every surrogate that is alone. -/
theorem encodeStream_text (A : Allocator) {S : SimdutfUTF16} (hS : S.Lawful)
    (strs : List ZigString) : (TextEncoderStreamEncoder.encodeStream A S {} strs).flatten =
      bytes (unitDecoder.text none (strs.flatMap ZigString.units)) :=
  TextEncoderStreamEncoder.encodeStream_from hS (fun _ h => absurd h (by simp)) strs

def referenceUTF16 : SimdutfUTF16 where
  convert_utf16le_to_utf8_with_errors units :=
    (decide (ValidUnits units), bytes (unitDecoder.text none units))

theorem lawful_referenceUTF16 : referenceUTF16.Lawful where
  success _ := decide_eq_true_iff
  converted _ _ := rfl

/-- A surrogate pair cut in two, a lone surrogate and a Latin-1 letter. -/
theorem encodeStream_text_cut :
    (TextEncoderStreamEncoder.encodeStream ⟨fun _ needed => needed, fun _ _ => le_rfl⟩
        referenceUTF16 {} [.utf16 [0xD83D] (by decide), .utf16 [0xDE00, 0xD800] (by decide),
          .latin1 [0xE9] (by decide)]).flatten =
      [0xF0, 0x9F, 0x98, 0x80, 0xEF, 0xBF, 0xBD, 0xC3, 0xA9] :=
  (encodeStream_text _ lawful_referenceUTF16 _).trans (by decide +kernel)

end Cruller.Text
