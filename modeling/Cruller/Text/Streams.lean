import Cruller.Text.Pieces
import Cruller.Text.TextDecoder

/-!
# Decoding a stream

Between the calls the `TextDecoder` stands where the decoder of its encoding does (`Stands`), so
the calls give together what the decoder makes of the stream (`decodeStream_text`).
-/

namespace Cruller.Text

open List Nat Transducer

namespace EncodingLabel

/-- What a decoder remembers. -/
def State : EncodingLabel → Type
  | utf8 => Option Utf8.Partial
  | utf16le => Utf16.State
  | utf16be => Utf16.State

def decoder : (enc : EncodingLabel) → Transducer enc.State UInt8 (Option ℕ)
  | utf8 => Utf8.decoder
  | utf16le => Utf16.decoder false
  | utf16be => Utf16.decoder true

/-- The code points of a text, and where it is not valid. -/
def decoded (enc : EncodingLabel) (bytes : List UInt8) : List (Option ℕ) :=
  enc.decoder.text enc.decoder.init bytes

/-- There is no error in the bytes. -/
def Valid (enc : EncodingLabel) (bytes : List UInt8) : Prop := none ∉ enc.decoded bytes

instance (enc : EncodingLabel) (bytes : List UInt8) : Decidable (enc.Valid bytes) :=
  inferInstanceAs (Decidable (_ ∉ _))

/-- The text of the bytes. -/
def text (enc : EncodingLabel) (bytes : List UInt8) : List UInt16 := Utf16.units (enc.decoded bytes)

end EncodingLabel

theorem and_high {n : ℕ} (k : ℕ) (h : n < 2 ^ (k + 10)) :
    n &&& (2 ^ k - 1) <<< 10 = n / 1024 * 1024 := by
  have hms : n &&& (2 ^ k - 1) <<< 10 = (n >>> 10 &&& (2 ^ k - 1)) <<< 10 := by
    apply eq_of_testBit_eq
    intro i
    simp only [testBit_and, testBit_shiftLeft, testBit_shiftRight]
    by_cases hi : 10 ≤ i
    · simp [hi]
    · simp [hi]
  have hlt : n / 2 ^ 10 < 2 ^ k := by
    rw [Nat.div_lt_iff_lt_mul (by decide), ← pow_add]
    exact h
  rw [hms, and_two_pow_sub_one_eq_mod, shiftLeft_eq, shiftRight_eq_div_pow,
    mod_eq_of_lt hlt]
  rfl

theorem and_mask {n : ℕ} (h : n < 2 ^ 16) : n &&& 0xfffffc00 = n / 1024 * 1024 :=
  and_high 22 (h.trans (by decide))

theorem u16IsLead_iff {u : UInt16} : u16IsLead u = true ↔ Utf16.IsLead u := by
  have := u.toNat_lt
  rw [u16IsLead, and_mask this, beq_iff_eq, Utf16.IsLead]
  omega

theorem u16IsTrail_iff {u : UInt16} : u16IsTrail u = true ↔ Utf16.IsTrail u := by
  have := u.toNat_lt
  rw [u16IsTrail, and_mask this, beq_iff_eq, Utf16.IsTrail]
  omega

theorem shift_or (a b : UInt8) :
    (a.toUInt16 <<< 8) ||| b.toUInt16 = .ofNat (a.toNat * 256 + b.toNat) := by
  have ha := a.toNat_lt
  have hb := b.toNat_lt
  have hsh : a.toNat <<< 8 % 2 ^ 16 = a.toNat <<< 8 := by
    rw [shiftLeft_eq]
    omega
  apply UInt16.toNat_inj.1
  rw [UInt16.toNat_or, UInt16.toNat_shiftLeft, UInt8.toNat_toUInt16, UInt8.toNat_toUInt16]
  change (a.toNat <<< 8 % 2 ^ 16) ||| b.toNat = _
  rw [hsh, ← shiftLeft_add_eq_or_of_lt hb, shiftLeft_eq, UInt16.toNat_ofNat']
  omega

namespace TextDecoder

variable {this : TextDecoder}

theorem codeUnitFromBytesUTF16_eq (first second : UInt8) (big_endian : Bool) :
    codeUnitFromBytesUTF16 first.toUInt16 second.toUInt16 big_endian =
      Utf16.unitOfBytes big_endian first second := by
  rcases big_endian
  · change first.toUInt16 ||| (second.toUInt16 <<< 8) = _
    rw [UInt16.or_comm, shift_or, Utf16.unitOfBytes, if_neg Bool.false_ne_true]
  · exact shift_or first second

def at16 (this : TextDecoder) (s : Utf16.State) : TextDecoder :=
  { this with lead_byte := s.lead_byte, lead_surrogate := s.lead_surrogate }

def Paired (s : Utf16.State) : Prop := ∀ l, s.lead_surrogate = some l → Utf16.IsLead l

local instance : LawfulBEq (Option ℕ) := inferInstance

/-- What has been decoded goes to the output, and an error is noted. -/
def put (this : TextDecoder) (output : List UInt16) (saw_error : Bool)
    (r : Utf16.State × List (Option ℕ)) : UTF16Output :=
  (this.at16 r.1, output ++ Utf16.units r.2, saw_error || decide (none ∈ r.2))

variable {output : List UInt16} {saw_error : Bool}

variable {l : Option UInt16} {u : UInt16}

theorem paired_stepUnit : Paired (Utf16.stepUnit l u).1 := by
  have hsn : Paired (Utf16.single u).1 := by
    intro l hl
    rw [Utf16.single] at hl
    split_ifs at hl with hld
    cases hl
    exact hld
  rcases l with _ | l
  · exact hsn
  · rw [Utf16.stepUnit]
    split_ifs
    · rintro l ⟨⟩
    · exact hsn

theorem encode_replacement : Utf16.encode Utf16.replacement = [.ofNat unicode_replacement] := by
  rw [Utf16.encode, if_pos (by norm_num [Utf16.replacement])]
  rfl

theorem processCodeUnitUTF16_eq (hl : Paired ⟨none, l⟩) :
    (this.at16 ⟨none, l⟩).processCodeUnitUTF16 output saw_error u =
      this.put output saw_error (Utf16.stepUnit l u) := by
  rcases l with _ | l
  · by_cases hld : Utf16.IsLead u
    · simp [processCodeUnitUTF16, at16, put, Utf16.stepUnit, Utf16.single, u16IsLead_iff, hld]
    by_cases htr : Utf16.IsTrail u
    · simp [processCodeUnitUTF16, at16, put, Utf16.stepUnit, Utf16.single, u16IsLead_iff,
        u16IsTrail_iff, hld, htr, encode_replacement]
    · simp [processCodeUnitUTF16, at16, put, Utf16.stepUnit, Utf16.single, u16IsLead_iff,
        u16IsTrail_iff, hld, htr, Utf16.encode_unit]
  · by_cases htr : Utf16.IsTrail u
    · simp [processCodeUnitUTF16, at16, put, Utf16.stepUnit, u16IsTrail_iff, htr,
        Utf16.encode_pair (hl l rfl) htr]
    by_cases hld : Utf16.IsLead u
    · simp [processCodeUnitUTF16, at16, put, Utf16.stepUnit, Utf16.single, u16IsLead_iff,
        u16IsTrail_iff, hld, htr, encode_replacement]
    · simp [processCodeUnitUTF16, at16, put, Utf16.stepUnit, Utf16.single, u16IsLead_iff,
        u16IsTrail_iff, hld, htr, Utf16.encode_unit, encode_replacement]

theorem lead_byte_stepUnit :
    (Utf16.stepUnit l u).1.lead_byte = none := by
  have hsn : (Utf16.single u).1.lead_byte = none := by
    rw [Utf16.single]
    split_ifs <;> rfl
  rcases l with _ | l
  · exact hsn
  · rw [Utf16.stepUnit]
    split_ifs
    · rfl
    · exact hsn

variable {big_endian : Bool}

/-- Two bytes are a unit of the decoder, in the endianness of the encoding. -/
theorem decodeUnits_pair {b c : UInt8} {bytes : List UInt8}
    (hl : Paired ⟨none, l⟩)
    (hrs : ∀ {l output saw_error}, Paired ⟨none, l⟩ →
      decodeUnits big_endian (this.at16 ⟨none, l⟩) output saw_error bytes =
          this.put output saw_error ((Utf16.decoder big_endian).after ⟨none, l⟩ bytes,
            (Utf16.decoder big_endian).out ⟨none, l⟩ bytes)
        ∧ Paired ((Utf16.decoder big_endian).after ⟨none, l⟩ bytes)) :
    (let r := (this.at16 ⟨none, l⟩).processCodeUnitUTF16 output saw_error
        (codeUnitFromBytesUTF16 b.toUInt16 c.toUInt16 big_endian);
      decodeUnits big_endian r.1 r.2.1 r.2.2 bytes) =
        this.put output saw_error ((Utf16.decoder big_endian).after ⟨some b, l⟩ (c :: bytes),
          (Utf16.decoder big_endian).out ⟨some b, l⟩ (c :: bytes))
      ∧ Paired ((Utf16.decoder big_endian).after ⟨some b, l⟩ (c :: bytes)) := by
  rw [codeUnitFromBytesUTF16_eq, processCodeUnitUTF16_eq hl, out_cons, after_cons]
  change (let r := this.put output saw_error (Utf16.stepUnit l (Utf16.unitOfBytes big_endian b c));
    decodeUnits big_endian r.1 r.2.1 r.2.2 bytes) =
      this.put output saw_error ((Utf16.decoder big_endian).after
        (Utf16.stepUnit l (Utf16.unitOfBytes big_endian b c)).1 bytes,
        (Utf16.stepUnit l (Utf16.unitOfBytes big_endian b c)).2 ++ (Utf16.decoder big_endian).out
          (Utf16.stepUnit l (Utf16.unitOfBytes big_endian b c)).1 bytes)
    ∧ Paired ((Utf16.decoder big_endian).after
      (Utf16.stepUnit l (Utf16.unitOfBytes big_endian b c)).1 bytes)
  have hpr : Paired (Utf16.stepUnit l (Utf16.unitOfBytes big_endian b c)).1 := paired_stepUnit
  have hno : (Utf16.stepUnit l (Utf16.unitOfBytes big_endian b c)).1.lead_byte = none :=
    lead_byte_stepUnit
  generalize Utf16.stepUnit l (Utf16.unitOfBytes big_endian b c) = r at hpr hno ⊢
  obtain ⟨⟨lb, l'⟩, items⟩ := r
  cases hno
  refine ⟨?_, (@hrs l' output saw_error hpr).2⟩
  change decodeUnits big_endian (this.at16 ⟨none, l'⟩) (output ++ Utf16.units items)
    (saw_error || decide (none ∈ items)) bytes = _
  rw [(hrs hpr).1]
  simp [put, mem_append, Bool.or_assoc]

theorem decodeUnits_eq {bytes : List UInt8}
    (hl : Paired ⟨none, l⟩) :
    decodeUnits big_endian (this.at16 ⟨none, l⟩) output saw_error bytes =
        this.put output saw_error ((Utf16.decoder big_endian).after ⟨none, l⟩ bytes,
          (Utf16.decoder big_endian).out ⟨none, l⟩ bytes)
      ∧ Paired ((Utf16.decoder big_endian).after ⟨none, l⟩ bytes) := by
  induction bytes using List.twoStepInduction generalizing l output saw_error with
  | nil => exact ⟨by simp [decodeUnits, put], hl⟩
  | singleton b => exact ⟨by simp [decodeUnits, put, at16, Utf16.decoder], hl⟩
  | cons_cons b c bytes ih _ => exact decodeUnits_pair hl ih

theorem decodeBytes_eq {s : Utf16.State} {big_endian : Bool} {bytes : List UInt8}
    (hs : Paired s) :
    (this.at16 s).decodeBytes bytes big_endian =
        this.put [] false ((Utf16.decoder big_endian).after s bytes,
          (Utf16.decoder big_endian).out s bytes)
      ∧ Paired ((Utf16.decoder big_endian).after s bytes) := by
  obtain ⟨lead_byte, l⟩ := s
  rcases lead_byte with _ | b
  · exact decodeUnits_eq hs
  rcases bytes with _ | ⟨c, bytes⟩
  · exact ⟨by simp [decodeBytes, at16, decodeUnits, put], hs⟩
  · have hl : Paired ⟨none, l⟩ := hs
    exact decodeUnits_pair hl decodeUnits_eq

theorem decodeUTF16_eq {s : Utf16.State} {big_endian flush : Bool} {bytes : List UInt8}
    (hs : Paired s) :
    (this.at16 s).decodeUTF16 bytes big_endian flush =
        this.put [] false (if flush then ⟨none, none⟩ else (Utf16.decoder big_endian).after s bytes,
          (Utf16.decoder big_endian).emitted flush s bytes)
      ∧ Paired (if flush then ⟨none, none⟩ else (Utf16.decoder big_endian).after s bytes) := by
  obtain ⟨hcr, hpr⟩ := @decodeBytes_eq this s big_endian bytes hs
  rw [decodeUTF16, hcr]
  generalize hs' : (Utf16.decoder big_endian).after s bytes = s' at hpr ⊢
  rcases flush
  · refine ⟨?_, hpr⟩
    simp only [Bool.false_eq_true, false_and, if_false]
    rfl
  · refine ⟨?_, by rintro l ⟨⟩⟩
    obtain ⟨lead_byte, l⟩ := s'
    have hfn : (Utf16.decoder big_endian).finish ⟨lead_byte, l⟩ =
        if lead_byte = none ∧ l = none then [] else [none] := rfl
    simp only [Transducer.emitted, if_true, text, hs', hfn]
    by_cases hno : lead_byte = none ∧ l = none
    · obtain ⟨rfl, rfl⟩ := hno
      simp [put, at16]
    · have hwt : lead_byte ≠ none ∨ l ≠ none := by tauto
      simp [put, at16, hno, hwt, encode_replacement]

/-- The decoder remembers the state. -/
def Keeps : (enc : EncodingLabel) → TextDecoder → enc.State → Prop
  | .utf8, this, s => Carries s this.buffered
  | .utf16le, this, s => this = this.at16 s ∧ Paired s
  | .utf16be, this, s => this = this.at16 s ∧ Paired s

def config (this : TextDecoder) : EncodingLabel × Bool × Bool :=
  (this.encoding, this.fatal, this.ignore_bom)

variable {enc : EncodingLabel} {s : enc.State} {flush : Bool} {bytes taken : List UInt8}
  {S : Simdutf}

/-- What one call does. -/
structure Called (enc : EncodingLabel) (this : TextDecoder) (s : enc.State) (flush : Bool)
    (taken : List UInt8) (r : TextDecoder × Except JSError (List UInt16)) : Prop where
  config : r.1.config = this.config
  keeps : ∃ s', Keeps enc r.1 s' ∧ (flush = true → s' = enc.decoder.init)
  failed : this.fatal ∧ none ∈ enc.decoder.emitted flush s taken → ∃ e, r.2 = .error e
  decoded : ¬ (this.fatal ∧ none ∈ enc.decoder.emitted flush s taken) →
    r.2 = .ok (Utf16.units (enc.decoder.emitted flush s taken))
      ∧ Keeps enc r.1 (if flush then enc.decoder.init else enc.decoder.after s taken)

theorem length_withoutBOM_le (bytes : List UInt8) :
    (this.withoutBOM bytes).length ≤ bytes.length := by
  rw [withoutBOM]
  split_ifs
  · rw [length_drop]
    omega
  · exact Nat.le_refl _

theorem decodeSlice_utf8 (henc : this.encoding = .utf8) :
    this.decodeSlice S bytes flush =
      match toUTF16AllocMaybeBuffered S (this.buffered ++ this.withoutBOM bytes) this.fatal
        flush with
      | .error _ => ({ this with buffered := [] },
        .error (.ENCODING_INVALID_ENCODED_DATA "Invalid byte sequence"))
      | .ok (some (decoded, leftover)) =>
        (if flush = false ∧ leftover.length ≠ 0 then { this with buffered := leftover }
          else { this with buffered := [] }, .ok decoded)
      | .ok none => ({ this with buffered := [] },
        .ok (copyU8IntoU16 (this.buffered ++ this.withoutBOM bytes))) := by
  obtain ⟨buffered, lead_byte, lead_surrogate, ignore_bom, fatal, encoding⟩ := this
  cases henc
  rfl

/-- One call of the UTF-8 decoder does what the transducer does. -/
theorem called_utf8 (hS : S.Lawful) (henc : this.encoding = .utf8) {s : Option Utf8.Partial}
    (hk : Carries s this.buffered) (hlen : bytes.length < 2 ^ 32) :
    Called .utf8 this s flush (this.withoutBOM bytes) (this.decodeSlice S bytes flush) := by
  have htk := this.length_withoutBOM_le bytes
  have hcn : (this.buffered ++ this.withoutBOM bytes).countP isASCII < 2 ^ 32 := by
    have hzr : this.buffered.countP isASCII = 0 := countP_eq_zero.2 hk.ascii
    have hle : (this.withoutBOM bytes).countP isASCII ≤ (this.withoutBOM bytes).length :=
      countP_le_length
    rw [countP_append, hzr]
    omega
  have hem : Utf8.decoder.emitted flush none (this.buffered ++ this.withoutBOM bytes) =
      Utf8.decoder.emitted flush s (this.withoutBOM bytes) := by
    rw [emitted_append, hk.out, hk.after]
    rfl
  have haf : Utf8.decoder.after none (this.buffered ++ this.withoutBOM bytes) =
      Utf8.decoder.after s (this.withoutBOM bytes) := by
    rw [after_append, hk.after]
  rw [decodeSlice_utf8 henc]
  generalize this.withoutBOM bytes = taken at *
  rcases toUTF16AllocMaybeBuffered_decoded this.fatal flush hS hcn with
    ⟨hno, hall⟩ | ⟨r, hr, hd⟩
  · have hnil : this.buffered = [] := by
      refine eq_nil_iff_forall_not_mem.2 fun b hb => hk.ascii b hb ?_
      exact all_eq_true.1 hall b (mem_append_left _ hb)
    have hs : s = none := by
      rw [← hk.after, hnil]
      rfl
    subst hs
    rw [hnil, nil_append] at hall hno ⊢
    obtain ⟨hout, hend⟩ := out_ascii hall
    have him : Utf8.decoder.emitted flush none taken = taken.map fun b => some b.toNat := by
      rcases flush
      · exact hout
      · simp [emitted, text, hout, hend, Utf8.finish_none]
    rw [hno]
    refine ⟨rfl, ⟨none, carries_nil, fun _ => rfl⟩, fun hbad => ?_, fun _ => ⟨?_, ?_⟩⟩
    · have hmem : none ∈ Utf8.decoder.emitted flush none taken := hbad.2
      rw [him] at hmem
      simp at hmem
    · change Except.ok _ = Except.ok (Utf16.units (Utf8.decoder.emitted flush none taken))
      rw [him, units_ascii]
    · change Carries (if flush then none else Utf8.decoder.after none taken) []
      rw [hend, ite_self]
      exact carries_nil
  · rw [hr]
    rw [Decoded, hem, haf] at hd
    by_cases hbad : this.fatal ∧ none ∈ Utf8.decoder.emitted flush s taken
    · rw [if_pos hbad] at hd
      subst hd
      exact ⟨rfl, ⟨none, carries_nil, fun _ => rfl⟩, fun _ => ⟨_, rfl⟩, fun hn => absurd hbad hn⟩
    · rw [if_neg hbad] at hd
      obtain ⟨leftover, rfl, hc⟩ := hd
      have hkp : Keeps .utf8 (if flush = false ∧ leftover.length ≠ 0 then
          { this with buffered := leftover } else { this with buffered := [] })
          (if flush then none else Utf8.decoder.after s taken) := by
        by_cases hif : flush = false ∧ leftover.length ≠ 0
        · rw [if_pos hif]
          exact hc
        · rw [if_neg hif]
          rcases flush
          · have hnil : leftover = [] := by simpa using hif
            subst hnil
            exact hc
          · exact carries_nil
      refine ⟨?_, ⟨_, hkp, ?_⟩, fun hb => absurd hb hbad, fun _ => ⟨rfl, hkp⟩⟩
      · change (if flush = false ∧ leftover.length ≠ 0 then
          { this with buffered := leftover } else { this with buffered := [] }).config = _
        split_ifs <;> rfl
      · rintro rfl
        rfl

theorem decodeSlice_utf16 (henc : this.encoding ≠ .utf8) :
    this.decodeSlice S bytes flush =
      let r := this.decodeUTF16 (this.withoutBOM bytes) (this.encoding = .utf16be) flush
      if r.2.2 ∧ r.1.fatal then
        (r.1, .error (.ENCODING_INVALID_ENCODED_DATA
          ("The encoded data was not valid " ++ this.encoding.name ++ " data")))
      else (r.1, .ok r.2.1) := by
  obtain ⟨buffered, lead_byte, lead_surrogate, ignore_bom, fatal, encoding⟩ := this
  cases encoding with
  | utf8 => exact absurd rfl henc
  | utf16le => rfl
  | utf16be => rfl

theorem called_of_put (henc : this.encoding ≠ .utf8)
    (hbig : decide (this.encoding = .utf16be) = big_endian) {s' : Utf16.State}
    (hput : this.decodeUTF16 (this.withoutBOM bytes) big_endian flush =
      this.put [] false (s', enc.decoder.emitted flush s (this.withoutBOM bytes)))
    (hkp : Keeps enc (this.at16 s')
      (if flush then enc.decoder.init else enc.decoder.after s (this.withoutBOM bytes))) :
    Called enc this s flush (this.withoutBOM bytes) (this.decodeSlice S bytes flush) := by
  rw [decodeSlice_utf16 henc, hbig, hput]
  generalize this.withoutBOM bytes = taken at *
  have hft : (this.at16 s').fatal = this.fatal := rfl
  simp only [put, Bool.false_or, decide_eq_true_eq, hft, nil_append]
  by_cases hbad : none ∈ enc.decoder.emitted flush s taken ∧ this.fatal
  · rw [if_pos hbad]
    refine ⟨rfl, ⟨_, hkp, fun hf => if_pos hf⟩, fun _ => ⟨_, rfl⟩, fun hn => ?_⟩
    exact absurd hbad.symm hn
  · rw [if_neg hbad]
    exact ⟨rfl, ⟨_, hkp, fun hf => if_pos hf⟩, fun hb => absurd hb.symm hbad,
      fun _ => ⟨rfl, hkp⟩⟩

theorem called (hS : S.Lawful) (henc : this.encoding = enc) (hk : Keeps enc this s)
    (hlen : bytes.length < 2 ^ 32) :
    Called enc this s flush (this.withoutBOM bytes) (this.decodeSlice S bytes flush) := by
  cases enc with
  | utf8 => exact called_utf8 hS henc hk hlen
  | utf16le =>
    obtain ⟨hat, hpr⟩ := hk
    have hcl := @decodeUTF16_eq this s false flush (this.withoutBOM bytes) hpr
    rw [← hat] at hcl
    exact called_of_put (by simp [henc]) (by simp [henc]) hcl.1 ⟨rfl, hcl.2⟩
  | utf16be =>
    obtain ⟨hat, hpr⟩ := hk
    have hcl := @decodeUTF16_eq this s true flush (this.withoutBOM bytes) hpr
    rw [← hat] at hcl
    exact called_of_put (by simp [henc]) (by simp [henc]) hcl.1 ⟨rfl, hcl.2⟩

/-- The bytes of a stream, without what is taken for byte order marks. -/
def takenOf (this : TextDecoder) (chunks : List ArrayBuffer) (last : Option ArrayBuffer) :
    List UInt8 :=
  chunks.flatMap (fun chunk => this.withoutBOM chunk.slice)
    ++ this.withoutBOM ((last.map ArrayBuffer.slice).getD [])

variable {chunks : List ArrayBuffer} {last : Option ArrayBuffer}

theorem withoutBOM_congr {this' : TextDecoder} (h : this'.config = this.config) :
    this'.withoutBOM = this.withoutBOM := by
  simp only [config, Prod.mk.injEq] at h
  funext bytes
  rw [withoutBOM, withoutBOM, h.1, h.2.2]

theorem slice_lt (chunk : ArrayBuffer) : chunk.slice.length < 2 ^ 32 := by
  have := chunk.le_max_size
  omega

theorem takenOf_congr {this' : TextDecoder} (h : this'.config = this.config) :
    this'.takenOf chunks last = this.takenOf chunks last := by
  rw [takenOf, takenOf, withoutBOM_congr h]

theorem decodeStream_nil : this.decodeStream S [] last =
    let r := this.decodeSlice S ((last.map ArrayBuffer.slice).getD []) true
    (r.1, [r.2]) := rfl

theorem decodeStream_cons {chunk : ArrayBuffer} : this.decodeStream S (chunk :: chunks) last =
    let r := this.decodeSlice S chunk.slice false
    ((r.1.decodeStream S chunks last).1, r.2 :: (r.1.decodeStream S chunks last).2) := rfl

theorem joined_cons_error {e : JSError} {results : List (Except JSError (List UInt16))} :
    joined (.error e :: results) = none := rfl

theorem joined_cons_ok {string : List UInt16} {results : List (Except JSError (List UInt16))} :
    joined (.ok string :: results) = (joined results).map (string ++ ·) := by
  rw [joined, joined, mapM_cons]
  change ((results.mapM Except.toOption).bind fun strings => some (string :: strings)).map _ = _
  rcases results.mapM Except.toOption with _ | strings <;> rfl

/-- What a stream of calls does. -/
structure Streamed (enc : EncodingLabel) (this : TextDecoder) (items : List (Option ℕ))
    (r : TextDecoder × List (Except JSError (List UInt16))) : Prop where
  config : r.1.config = this.config
  keeps : Keeps enc r.1 enc.decoder.init
  joined : joined r.2 = if this.fatal ∧ none ∈ items then none else some (Utf16.units items)

/-- From wherever the decoder stands. -/
theorem streamed_from (hS : S.Lawful) (henc : this.encoding = enc) (hk : Keeps enc this s) :
    Streamed enc this (enc.decoder.text s (this.takenOf chunks last))
      (this.decodeStream S chunks last) := by
  induction chunks generalizing this s with
  | nil =>
    have hls : ((last.map ArrayBuffer.slice).getD []).length < 2 ^ 32 := by
      rcases last with _ | chunk
      · simp
      · exact slice_lt chunk
    obtain ⟨hcn, ⟨s', hk', hin⟩, hfl, hdc⟩ := @called _ _ s true _ S hS henc hk hls
    rw [hin rfl] at hk'
    refine ⟨hcn, hk', ?_⟩
    have him : enc.decoder.text s (this.takenOf [] last) = enc.decoder.emitted true s
        (this.withoutBOM ((last.map ArrayBuffer.slice).getD [])) := rfl
    rw [decodeStream_nil, him]
    dsimp only
    by_cases hbad : this.fatal ∧ none ∈ enc.decoder.emitted true s
        (this.withoutBOM ((last.map ArrayBuffer.slice).getD []))
    · obtain ⟨e, he⟩ := hfl hbad
      rw [he, joined_cons_error, if_pos hbad]
    · rw [(hdc hbad).1, joined_cons_ok, if_neg hbad]
      simp [joined]
  | cons chunk chunks ih =>
    obtain ⟨hcn, ⟨s', hk', -⟩, hfl, hdc⟩ :=
      @called _ _ s false _ S hS henc hk (slice_lt chunk)
    have hsm := hcn
    simp only [config, Prod.mk.injEq] at hsm
    have him : enc.decoder.text s (this.takenOf (chunk :: chunks) last) =
        enc.decoder.emitted false s (this.withoutBOM chunk.slice) ++ enc.decoder.text
          (enc.decoder.after s (this.withoutBOM chunk.slice)) (this.takenOf chunks last) := by
      rw [takenOf, flatMap_cons, append_assoc, text_append]
      rfl
    rw [decodeStream_cons, him]
    by_cases hbad : this.fatal ∧ none ∈ enc.decoder.emitted false s (this.withoutBOM chunk.slice)
    · obtain ⟨e, he⟩ := hfl hbad
      obtain ⟨hcn', hkp, -⟩ := ih (hsm.1.trans henc) hk'
      refine ⟨hcn'.trans hcn, hkp, ?_⟩
      dsimp only
      rw [he, joined_cons_error, if_pos ⟨hbad.1, mem_append_left _ hbad.2⟩]
    · obtain ⟨hok, hkp'⟩ := hdc hbad
      have hrs : Keeps enc (this.decodeSlice S chunk.slice false).1
        (enc.decoder.after s (this.withoutBOM chunk.slice)) := hkp'
      obtain ⟨hcn', hkp, hjn⟩ := ih (hsm.1.trans henc) hrs
      refine ⟨hcn'.trans hcn, hkp, ?_⟩
      dsimp only
      rw [hok, joined_cons_ok, hjn, takenOf_congr hcn, hsm.2.1]
      by_cases hlt : this.fatal ∧ none ∈ enc.decoder.text
          (enc.decoder.after s (this.withoutBOM chunk.slice)) (this.takenOf chunks last)
      · rw [if_pos hlt, if_pos ⟨hlt.1, mem_append_right _ hlt.2⟩]
        rfl
      · rw [if_neg hlt, if_neg, Utf16.units_append]
        · rfl
        · rintro ⟨hft, hmem⟩
          rcases mem_append.1 hmem with hmem | hmem
          · exact hbad ⟨hft, hmem⟩
          · exact hlt ⟨hft, hmem⟩

theorem keeps_ofOptions (enc : EncodingLabel) (fatal ignore_bom : Bool) :
    Keeps enc (ofOptions enc fatal ignore_bom) enc.decoder.init := by
  cases enc with
  | utf8 => exact carries_nil
  | utf16le => exact ⟨rfl, by rintro l ⟨⟩⟩
  | utf16be => exact ⟨rfl, by rintro l ⟨⟩⟩

theorem afterStreams_keeps (hS : S.Lawful) (henc : this.encoding = enc)
    (hk : Keeps enc this enc.decoder.init)
    (streams : List (List ArrayBuffer × Option ArrayBuffer)) :
    (this.afterStreams S streams).config = this.config
      ∧ Keeps enc (this.afterStreams S streams) enc.decoder.init := by
  induction streams generalizing this with
  | nil => exact ⟨rfl, hk⟩
  | cons stream streams ih =>
    obtain ⟨hcn, hkp, -⟩ := @streamed_from _ _ _ S stream.1 stream.2 hS henc hk
    have hsm := hcn
    simp only [config, Prod.mk.injEq] at hsm
    obtain ⟨hcn', hkp'⟩ := ih (hsm.1.trans henc) hkp
    exact ⟨hcn'.trans hcn, hkp'⟩

theorem joined_decodeStream (hS : S.Lawful) (enc : EncodingLabel) (fatal ignore_bom : Bool)
    (streams : List (List ArrayBuffer × Option ArrayBuffer)) (chunks : List ArrayBuffer)
    (last : Option ArrayBuffer) :
    let this := ofOptions enc fatal ignore_bom
    joined ((this.afterStreams S streams).decodeStream S chunks last).2 =
      if fatal ∧ ¬ enc.Valid (this.takenOf chunks last) then none
      else some (enc.text (this.takenOf chunks last)) := by
  intro this
  have henc : this.encoding = enc := rfl
  obtain ⟨hcn, hkp⟩ := afterStreams_keeps hS henc (keeps_ofOptions enc fatal ignore_bom)
    streams
  have hsm := hcn
  simp only [config, Prod.mk.injEq] at hsm
  have hjn := (@streamed_from _ _ _ S chunks last hS hsm.1 hkp).joined
  rw [hjn, takenOf_congr hcn, hsm.2.1]
  simp only [EncodingLabel.Valid, not_not]
  rfl

end TextDecoder

open TextDecoder

def bytesOf (chunks : List ArrayBuffer) (last : Option ArrayBuffer) : List UInt8 :=
  chunks.flatMap ArrayBuffer.slice ++ (last.map ArrayBuffer.slice).getD []

/-- However a stream is cut, its calls give together the text of its bytes with replacement, and a
fatal decoder throws in one of them exactly when the bytes are not valid. -/
theorem decodeStream_text {S : Simdutf} (hS : S.Lawful) (enc : EncodingLabel) (fatal : Bool)
    (streams : List (List ArrayBuffer × Option ArrayBuffer)) (chunks : List ArrayBuffer)
    (last : Option ArrayBuffer) :
    joined (((ofOptions enc fatal true).afterStreams S streams).decodeStream S chunks last).2 =
      if fatal ∧ ¬ enc.Valid (bytesOf chunks last) then none
      else some (enc.text (bytesOf chunks last)) := by
  have hall : (ofOptions enc fatal true).withoutBOM = id := by
    funext bytes
    exact if_neg (by simp [ofOptions])
  have htaken : (ofOptions enc fatal true).takenOf chunks last = bytesOf chunks last := by
    rw [takenOf, hall]
    rfl
  rw [joined_decodeStream hS, htaken]

def reference : Simdutf where
  validate_ascii_with_errors bytes := bytes.findIdx? fun byte => !isASCII byte
  utf16_length_from_utf8 bytes := (Utf16.units (Utf8.decoder.text none bytes)).length
  convert_utf8_to_utf16le_with_errors bytes :=
    (decide (Valid bytes), Utf16.units (Utf8.decoder.text none bytes))

theorem units_text_ascii {front : List UInt8} (rest : List UInt8) (hfr : front.all isASCII) :
    Utf16.units (Utf8.decoder.text none (front ++ rest)) =
      copyU8IntoU16 front ++ Utf16.units (Utf8.decoder.text none rest) := by
  rw [text_append, (out_ascii hfr).1, (out_ascii hfr).2, Utf16.units_append, units_ascii]

theorem lawful_reference : reference.Lawful where
  ascii _ := rfl
  length_pos byte bytes hby := by
    have hone : [byte].all isASCII := by simpa using hby
    change (Utf16.units (Utf8.decoder.text none ([byte] ++ bytes))).length ≠ 0
    rw [units_text_ascii bytes hone]
    simp [copyU8IntoU16]
  success _ := decide_eq_true_iff
  converted _ _ := rfl
  written _ _ hfr := by
    change _ <+: Utf16.units _
    rw [units_text_ascii _ hfr]
    exact prefix_append ..

/-- The euro sign, cut in two. -/
theorem decodeStream_text_euro :
    joined (((ofOptions .utf8 true true).afterStreams reference []).decodeStream reference
      [⟨[0xE2, 0x82], by decide⟩] (some ⟨[0xAC], by decide⟩)).2 = some [0x20AC] :=
  (decodeStream_text lawful_reference .utf8 true [] [⟨[0xE2, 0x82], by decide⟩]
    (some ⟨[0xAC], by decide⟩)).trans (by decide +kernel)

end Cruller.Text
