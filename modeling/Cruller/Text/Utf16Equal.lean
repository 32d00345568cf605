import Cruller.Lib.Utf8Text
import Cruller.Text.EncodedStreams

/-!
# Text in UTF-16 against a string in UTF-8

`utf16EqlString` encodes as it compares. A surrogate pair is put together with `|` where a sum is
meant: in every other plane the bit that is to be added is there already, and the code point is
taken for the one a plane below (`joined_eq`).
-/

namespace Cruller.Text

open List
open Utf8 (Scalar)
open Utf16 (unitDecoder IsLead IsTrail)

def joined (r1 r2 : ℕ) : ℕ := ((r1 - 0xD800) <<< 10) ||| (r2 - 0xDC00 + 0x10000)

/-- What is left of the string behind a character that it begins with. -/
def eqlRune (r1 : ℕ) (str : List UInt8) : Option (List UInt8) :=
  let width := ({ code_point := r1 } : UTF16Replacement).utf8Width
  if str.length < width then none
  else if (wtf8Sequence r1).take width = str.take width then some (str.drop width) else none

/-- Unit by unit against the bytes, a pair of surrogates at once. -/
def utf16EqlLoop : List UInt16 → List UInt8 → Bool
  | [], str => str.isEmpty
  | [u], str => (eqlRune u.toNat str).elim false (utf16EqlLoop [])
  | u :: t :: text, str =>
    if (0xD800 ≤ u.toNat ∧ u.toNat ≤ 0xDBFF) ∧ 0xDC00 ≤ t.toNat ∧ t.toNat ≤ 0xDFFF then
      (eqlRune (joined u.toNat t.toNat) str).elim false (utf16EqlLoop text)
    else (eqlRune u.toNat str).elim false (utf16EqlLoop (t :: text))

/-- Whether the two texts are equal, as the code finds it. -/
def utf16EqlString (text : List UInt16) (str : List UInt8) : Bool :=
  if text.length > str.length then false else utf16EqlLoop text str

/-- The code point lies in plane 2, 4 and so on, up to 16. -/
def EvenPlane (c : ℕ) : Prop := 0x10000 ≤ c ∧ c / 0x10000 % 2 = 0

instance (c : ℕ) : Decidable (EvenPlane c) := inferInstanceAs (Decidable (_ ∧ _))

def lowered (c : ℕ) : ℕ := if EvenPlane c then c - 0x10000 else c

theorem lowered_cases (c : ℕ) :
    EvenPlane c ∧ lowered c = c - 0x10000 ∨ ¬ EvenPlane c ∧ lowered c = c := by
  rw [lowered]
  split_ifs with h
  · exact Or.inl ⟨h, rfl⟩
  · exact Or.inr ⟨h, rfl⟩

theorem or_64 : ∀ a < 1024, a ||| 64 = if a / 64 % 2 = 1 then a else a + 64 := by decide +kernel

variable {c : ℕ}

theorem joined_eq (hc : 0x10000 ≤ c) (hlt : c < 0x110000) :
    joined (0xD800 + (c - 0x10000) / 0x400) (0xDC00 + (c - 0x10000) % 0x400) = lowered c := by
  have hmod : (c - 0x10000) % 0x400 < 2 ^ 10 := Nat.mod_lt _ (by norm_num)
  have hsum : (c - 0x10000) % 0x400 + 0x10000 = 64 <<< 10 ||| (c - 0x10000) % 0x400 := by
    rw [← Nat.shiftLeft_add_eq_or_of_lt hmod, Nat.shiftLeft_eq]
    omega
  rw [joined, Nat.add_sub_cancel_left, Nat.add_sub_cancel_left, hsum, ← Nat.or_assoc,
    ← Nat.shiftLeft_or_distrib, ← Nat.shiftLeft_add_eq_or_of_lt hmod,
    or_64 _ (by omega), Nat.shiftLeft_eq]
  rcases lowered_cases c with ⟨hev, heq⟩ | ⟨hev, heq⟩ <;> unfold EvenPlane at hev <;>
    rw [heq]
  · rw [if_pos (by omega)]
    omega
  · rw [if_neg (by omega)]
    omega

theorem eqlRune_eq_some {str rest : List UInt8} (hc : c < 0x110000) :
    eqlRune c str = some rest ↔ str = Utf8.encode c ++ rest := by
  have hseq : (wtf8Sequence c).take ({ code_point := c } : UTF16Replacement).utf8Width =
      Utf8.encode c := wtf8Sequence_eq hc
  have hwd : ({ code_point := c } : UTF16Replacement).utf8Width = (Utf8.encode c).length := by
    rw [← hseq, length_take, UTF16Replacement.utf8Width, wtf8Sequence]
    split_ifs <;> rfl
  rw [hwd] at hseq
  simp only [eqlRune, hwd, hseq]
  constructor
  · intro h
    split_ifs at h with hlen heq
    have hsp := take_append_drop (Utf8.encode c).length str
    rw [← heq] at hsp
    rw [← Option.some.inj h, hsp]
  · rintro rfl
    simp

theorem eqlLoop_unit {u : UInt16} (hu : ¬ IsLead u) (text : List UInt16) (str : List UInt8) :
    utf16EqlLoop (u :: text) str = (eqlRune u.toNat str).elim false (utf16EqlLoop text) := by
  cases text with
  | nil => rfl
  | cons t text =>
    rw [utf16EqlLoop, if_neg]
    rintro ⟨hld, -⟩
    exact hu ⟨hld.1, by omega⟩

theorem elim_iff (hc : c < 0x110000) {text : List UInt16} {str rest : List UInt8}
    (ih : ∀ str, utf16EqlLoop text str = true ↔ str = rest) :
    (eqlRune c str).elim false (utf16EqlLoop text) = true ↔ str = Utf8.encode c ++ rest := by
  rcases hrn : eqlRune c str with _ | str'
  · refine iff_of_false (by simp) fun h => ?_
    rw [(eqlRune_eq_some hc).2 h] at hrn
    cases hrn
  · have hstr := (eqlRune_eq_some hc).1 hrn
    rw [Option.elim_some, ih, hstr, append_cancel_left_eq]

theorem scalar_lowered (hc : Scalar c) : Scalar (lowered c) := by
  unfold Scalar at hc ⊢
  rcases lowered_cases c with ⟨hev, heq⟩ | ⟨-, heq⟩
  · unfold EvenPlane at hev
    omega
  · rwa [heq]

/-- The loop over the text of these code points. -/
theorem eqlLoop_iff {cs : List ℕ} (hcs : ∀ c ∈ cs, Scalar c) (str : List UInt8) :
    utf16EqlLoop (cs.flatMap Utf16.encode) str = true ↔
      str = (cs.map lowered).flatMap Utf8.encode := by
  induction cs generalizing str with
  | nil => simp [utf16EqlLoop]
  | cons c cs ih =>
    obtain ⟨hc, hcs⟩ := forall_mem_cons.1 hcs
    have hlw := scalar_lowered hc
    unfold Scalar at hc hlw
    rw [flatMap_cons, map_cons, flatMap_cons, Utf16.encode]
    split_ifs with hsm
    · have hnat : (UInt16.ofNat c).toNat = c := UInt16.toNat_ofNat_of_lt' hsm
      have hun : ¬ IsLead (UInt16.ofNat c) := by
        rw [IsLead, hnat]
        omega
      have hsa : lowered c = c := if_neg fun h => absurd h.1 (by omega)
      rw [cons_append, nil_append, eqlLoop_unit hun, hnat, hsa]
      exact elim_iff (by omega) (ih hcs)
    · have hld : (UInt16.ofNat (0xD800 + (c - 0x10000) / 0x400)).toNat =
          0xD800 + (c - 0x10000) / 0x400 :=
        UInt16.toNat_ofNat_of_lt' (show _ < 0x10000 by omega)
      have htr : (UInt16.ofNat (0xDC00 + (c - 0x10000) % 0x400)).toNat =
          0xDC00 + (c - 0x10000) % 0x400 :=
        UInt16.toNat_ofNat_of_lt' (show _ < 0x10000 by omega)
      rw [cons_append, cons_append, nil_append, utf16EqlLoop, hld, htr, if_pos (by omega),
        joined_eq (by omega) (by omega)]
      exact elim_iff (by omega) (ih hcs)

theorem length_units_le (cs : List ℕ) :
    (cs.flatMap Utf16.encode).length ≤ ((cs.map lowered).flatMap Utf8.encode).length := by
  induction cs with
  | nil => simp
  | cons c cs ih =>
    have hlr : 0x10000 ≤ c → 0x10000 ≤ lowered c := by
      rcases lowered_cases c with ⟨hev, heq⟩ | ⟨-, heq⟩
      · unfold EvenPlane at hev
        omega
      · rw [heq]
        exact id
    have hle : (Utf16.encode c).length ≤ (Utf8.encode (lowered c)).length := by
      unfold Utf16.encode Utf8.encode
      split_ifs <;> first | omega | simp
    rw [flatMap_cons, map_cons, flatMap_cons, length_append, length_append]
    omega

/-- Text without an unpaired surrogate is that of its code points. -/
theorem exists_scalars {text : List UInt16} (h : ValidUnits text) :
    ∃ cs : List ℕ, (∀ c ∈ cs, Scalar c) ∧ text = cs.flatMap Utf16.encode
      ∧ unitDecoder.text none text = cs.map some := by
  unfold ValidUnits at h
  induction hn : text.length using Nat.strong_induction_on generalizing text with
  | _ n ih =>
    rcases text with _ | ⟨u, text⟩
    · exact ⟨[], by simp, rfl, rfl⟩
    have hlen : text.length < n := by simp at hn; omega
    rw [Transducer.text_cons] at h
    by_cases hld : IsLead u
    · rw [step_lead hld, nil_append] at h
      rcases text with _ | ⟨t, text⟩
      · simp [unitDecoder] at h
      by_cases htr : IsTrail t
      · rw [Transducer.text_cons, step_pair u htr, mem_append, not_or] at h
        obtain ⟨cs, hcs, htx, hpn⟩ := ih text.length (by simp at hlen; omega) h.2 rfl
        refine ⟨pairCodePoint u t :: cs, forall_mem_cons.2 ⟨?_, hcs⟩, ?_, ?_⟩
        · have := pairCodePoint_lt hld htr
          unfold Scalar
          unfold pairCodePoint at this ⊢
          omega
        · rw [flatMap_cons, Utf16.encode_pair hld htr, ← htx]
          rfl
        · rw [Transducer.text_cons, step_lead hld, Transducer.text_cons, step_pair u htr,
            hpn]
          rfl
      · rw [Transducer.text, (run_unpaired u htr).1] at h
        simp at h
    · by_cases htr : IsTrail u
      · simp [step_trail htr] at h
      rw [step_unit hld htr, mem_append, not_or] at h
      obtain ⟨cs, hcs, htx, hpn⟩ := ih text.length hlen h.2 rfl
      refine ⟨u.toNat :: cs, forall_mem_cons.2 ⟨?_, hcs⟩, ?_, ?_⟩
      · have := u.toNat_lt
        unfold Scalar
        unfold IsLead at hld
        unfold IsTrail at htr
        omega
      · rw [flatMap_cons, Utf16.encode_unit, ← htx]
        rfl
      · rw [Transducer.text_cons, step_unit hld htr, hpn]
        rfl

theorem bytes_map_some (cs : List ℕ) : Utf8.bytes (cs.map some) = cs.flatMap Utf8.encode := by
  simp [Utf8.bytes, flatMap_map]

/-- The answer is right just when no code point of the text lies in an even plane, or the string is
the UTF-8 neither of the text nor of what these code points are taken for. -/
theorem utf16EqlString_right {text : List UInt16} (h : ValidUnits text) (str : List UInt8) :
    (utf16EqlString text str = true ↔ str = Utf8.bytes (unitDecoder.text none text)) ↔
      (∀ c, some c ∈ unitDecoder.text none text → ¬ EvenPlane c)
        ∨ str ≠ Utf8.bytes (unitDecoder.text none text)
          ∧ str ≠ Utf8.bytes ((unitDecoder.text none text).map (Option.map lowered)) := by
  obtain ⟨cs, hcs, rfl, hpoints⟩ := exists_scalars h
  have hbytes : Utf8.bytes ((cs.map some).map (Option.map lowered)) =
      (cs.map lowered).flatMap Utf8.encode := by
    rw [← bytes_map_some, map_map, map_map]
    rfl
  have heql : utf16EqlString (cs.flatMap Utf16.encode) str = true ↔
      str = (cs.map lowered).flatMap Utf8.encode := by
    rw [utf16EqlString]
    split_ifs with hlen
    · refine iff_of_false (by simp) ?_
      rintro rfl
      exact absurd (length_units_le cs) (by omega)
    · exact eqlLoop_iff hcs str
  rw [hpoints, bytes_map_some, hbytes, heql]
  by_cases heven : ∀ c ∈ cs, ¬ EvenPlane c
  · have hsame : cs.map lowered = cs :=
      (map_congr_left fun c hc => if_neg (heven c hc)).trans (map_id cs)
    rw [hsame]
    exact iff_of_true Iff.rfl (Or.inl (by simpa using heven))
  · have hne : (cs.map lowered).flatMap Utf8.encode ≠ cs.flatMap Utf8.encode := by
      intro heq
      have hdecode := congrArg (Utf8.decoder.text none) heq
      rw [Utf8.text_flatMap_encode hcs, Utf8.text_flatMap_encode (by
        simpa using fun c hc => scalar_lowered (hcs c hc))] at hdecode
      refine heven fun c hc hplane => ?_
      have hmap := map_injective_iff.2 (Option.some_injective ℕ) hdecode
      have hfix := map_inj_left.1 (hmap.trans (map_id cs).symm) c hc
      rw [lowered, if_pos hplane, id] at hfix
      have := hplane.1
      omega
    have hnot : ¬ ∀ c, some c ∈ cs.map some → ¬ EvenPlane c := by simpa using heven
    constructor
    · intro hiff
      refine Or.inr ⟨fun heq => ?_, fun heq => ?_⟩
      · exact hne ((hiff.2 heq).symm.trans heq)
      · exact hne (heq.symm.trans (hiff.1 heq))
    · rintro (hall | ⟨h1, h2⟩)
      · exact absurd hall hnot
      · exact iff_of_false h2 h1

/-- A text with a surrogate pair, U+1F600, is its own UTF-8. -/
theorem utf16EqlString_emoji :
    utf16EqlString [0x61, 0xD83D, 0xDE00] [0x61, 0xF0, 0x9F, 0x98, 0x80] = true := by
  have htext : unitDecoder.text none [0x61, 0xD83D, 0xDE00] = [some 0x61, some 0x1F600] := by
    decide
  refine ((utf16EqlString_right (by decide) _).2 (.inl fun c hc => ?_)).2 (by decide)
  rw [htext, mem_cons, mem_singleton] at hc
  rcases hc with hc | hc
  · obtain rfl := Option.some.inj hc
    decide
  · obtain rfl := Option.some.inj hc
    decide

/-- U+20000 is not its own UTF-8. -/
theorem utf16EqlString_refuted : ¬ ∀ (text : List UInt16) (str : List UInt8), ValidUnits text →
    (utf16EqlString text str = true ↔ str = Utf8.bytes (unitDecoder.text none text)) := by
  intro h
  have heql := (h [0xD840, 0xDC00] [0xF0, 0xA0, 0x80, 0x80] (by decide)).2 (by decide)
  exact absurd heql (by decide)

end Cruller.Text
