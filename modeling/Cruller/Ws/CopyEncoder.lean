import Cruller.Text.CopyUTF16
import Cruller.Ws.Frames

/-!
# The frames of `Copy`

A frame is put together in a buffer of the size that `Copy.len` gives. Read as RFC 6455 reads it,
it is what was sent, unless the text's length loses its high half and packs into another width.
This is the release build: the `bun.assert`s of `copy` and `copyCompressed` are compiled out.
-/

namespace Cruller.Ws.WebSocket.Copy

open List Option Text WebsocketHeader

variable (S : SimdutfLength) (mask : Mask)

/-- The size of the frame and `byte_len`, which simdutf counts. -/
def len (this : Copy) : ℕ × ℕ :=
  match this with
  | utf16 slice =>
    let byte_len := S.utf8_length_from_utf16le slice
    (frameSizeIncludingMask byte_len, byte_len)
  | latin1 slice =>
    let byte_len := (latin1Bytes slice).length
    (frameSizeIncludingMask byte_len, byte_len)
  | bytes slice => (frameSizeIncludingMask slice.length, slice.length)
  | raw slice => (slice.length, slice.length)

/-- What is put into `to_mask`, and the length that the header packs. -/
def transcode (room : ℕ) : Copy → List UInt8 × ℕ
  | utf16 slice =>
    let (out, encode_into_result) := copyUTF16IntoUTF8Impl S room slice true
    (out, encode_into_result.written)
  | latin1 slice =>
    let (out, encode_into_result) := copyLatin1IntoUTF8 room slice
    (out, encode_into_result.written)
  | bytes slice => ([], slice.length)
  | raw slice => ([], slice.length)

/-- The writes of `copy` and `copyCompressed`; without an `input` what is in `to_mask` is masked in
place. -/
def writeFrame (buf : List UInt8) (content_byte_len : ℕ) (header : WebsocketHeader)
    (to_mask : List UInt8) (input : Option (List UInt8)) : Option (List UInt8) := do
  let how_big_is_the_length_integer := lengthByteCount content_byte_len
  let mask_offset := 2 + how_big_is_the_length_integer
  let content_offset := mask_offset + 4
  let buf ← splice buf 2 (writeInt how_big_is_the_length_integer content_byte_len)
  let buf ← splice buf content_offset to_mask
  let buf ← splice buf 0 header.slice
  let buf ← splice buf mask_offset mask.bytes
  let input ← input.or (Cruller.slice buf content_offset content_byte_len)
  splice buf content_offset (mask.fill input)

/-- The header of a masked frame. -/
def headerOf (length : ℕ) (opcode : Opcode) (compressed : Bool) : WebsocketHeader where
  len := packLength length
  mask := true
  opcode := opcode
  compressed := compressed

/-- A frame in a buffer of `len`; `bun.assert` on the buffer's size and the written length does
nothing in a release build. -/
def copy (this : Copy) (buf : List UInt8) (content_byte_len : ℕ) (opcode : Opcode) :
    Option (List UInt8) :=
  match this with
  | raw slice => splice buf 0 slice
  | _ =>
    let content_offset := 2 + lengthByteCount content_byte_len + 4
    let (to_mask, written) := transcode S (buf.length - content_offset) this
    let input := match this with
      | bytes slice => some slice
      | _ => none
    writeFrame mask buf content_byte_len (headerOf written opcode false) to_mask input

/-- A frame of data that has been compressed. -/
def copyCompressed (buf compressed_data : List UInt8) (opcode : Opcode)
    (is_first_fragment : Bool) : Option (List UInt8) :=
  writeFrame mask buf compressed_data.length
    (headerOf compressed_data.length opcode is_first_fragment) [] (some compressed_data)

/-- A frame as RFC 6455 has it, unmasked. -/
structure Received where
  final : Bool
  compressed : Bool
  rsv : Fin 4
  opcode : Opcode
  payload : List UInt8
deriving DecidableEq

/-- Section 5.2 of RFC 6455, of bytes that are one masked frame. -/
def receive (frame : List UInt8) : Option Received :=
  match frame with
  | first :: second :: rest =>
    let header := fromSlice first second
    let extended := if header.len = 126 then 2 else if header.len = 127 then 8 else 0
    let payload_length := if extended = 0 then header.len.val else readInt (rest.take extended)
    if header.mask ∧ rest.length = extended + 4 + payload_length then
      some {
        final := header.final
        compressed := header.compressed
        rsv := header.rsv
        opcode := header.opcode
        payload := Mask.fill (fun i => (rest.drop extended).getD i 0) (rest.drop (extended + 4)) }
    else none
  | _ => none

variable {S mask} {L n : ℕ} {buf content : List UInt8} {header : WebsocketHeader}

theorem exists_split (h : n ≤ buf.length) :
    ∃ front rest, buf = front ++ rest ∧ front.length = n ∧ rest.length = buf.length - n :=
  ⟨buf.take n, buf.drop n, (take_append_drop n buf).symm, length_take_of_le h, length_drop⟩

theorem splice_at (before after : List UInt8) {old value : List UInt8} (hn : before.length = n)
    (h : value.length = old.length) :
    splice (before ++ (old ++ after)) n value = some (before ++ (value ++ after)) :=
  hn ▸ splice_append h before after

/-- The four parts lie behind one another. -/
theorem writeFrame_eq (hbuf : buf.length = frameSizeIncludingMask L) {to_mask : List UInt8}
    {input : Option (List UInt8)} (hlen : content.length = L)
    (h : to_mask = [] ∧ input = some content ∨ to_mask = content ∧ input = none) :
    writeFrame mask buf L header to_mask input = some (header.slice ++
      (writeInt (lengthByteCount L) L ++ (mask.bytes ++ mask.fill content))) := by
  rw [frameSizeIncludingMask, frameSize] at hbuf
  obtain ⟨head, buf, rfl, hh, hb⟩ := @exists_split 2 buf (by omega)
  obtain ⟨size, buf, rfl, hs, hb'⟩ := @exists_split (lengthByteCount L) buf (by omega)
  obtain ⟨key, payload, rfl, hk, hp⟩ := @exists_split 4 buf (by omega)
  set size' := writeInt (lengthByteCount L) L with hsz
  have hsl : size'.length = size.length := by rw [hs, length_writeInt]
  have hpl : payload.length = L := by omega
  -- what is put at the place of the payload, whatever lies before it
  have hput : ∀ (front mid back old value : List UInt8), front.length = 2 →
      mid.length = lengthByteCount L → back.length = 4 → value.length = old.length →
      splice (front ++ (mid ++ (back ++ old))) (2 + lengthByteCount L + 4) value =
        some (front ++ (mid ++ (back ++ value))) := by
    intro front mid back old value hf hm hbk hv
    have := @splice_at (2 + lengthByteCount L + 4) (front ++ (mid ++ back)) [] old value
      (by simp; omega) hv
    simpa only [append_nil, append_assoc] using this
  have hhead : ∀ mid, splice (head ++ mid) 0 header.slice = some (header.slice ++ mid) :=
    fun mid => splice_at [] mid rfl (by rw [hh, length_slice])
  have hkey : ∀ old, splice (header.slice ++ (size' ++ (key ++ old))) (2 + lengthByteCount L)
      mask.bytes = some (header.slice ++ (size' ++ (mask.bytes ++ old))) := by
    intro old
    have := @splice_at (2 + lengthByteCount L) (header.slice ++ size') old key mask.bytes
      (by simp [hsz]) hk.symm
    simpa only [append_assoc] using this
  -- the payload behind the four parts is the old one or the text, and what is masked is `content`
  obtain ⟨old, hold, hto, hin⟩ : ∃ old : List UInt8, old.length = L
      ∧ splice (head ++ (size' ++ (key ++ payload))) (2 + lengthByteCount L + 4) to_mask =
        some (head ++ (size' ++ (key ++ old)))
      ∧ input.or (slice (header.slice ++ (size' ++ (mask.bytes ++ old)))
        (2 + lengthByteCount L + 4) L) = some content := by
    rcases h with ⟨rfl, rfl⟩ | ⟨rfl, rfl⟩
    · refine ⟨payload, hpl, ?_, rfl⟩
      have := @splice_at (2 + lengthByteCount L + 4) (head ++ (size' ++ key)) payload [] []
        (by simp [hsz]; omega) rfl
      simpa only [nil_append, append_assoc] using this
    · refine ⟨to_mask, hlen, hput _ _ _ _ _ hh (hsl.trans hs) hk (hlen.trans hpl.symm), ?_⟩
      rw [none_or, slice_eq_some]
      have hd : header.slice ++ (size' ++ (mask.bytes ++ to_mask)) =
          (header.slice ++ (size' ++ mask.bytes)) ++ to_mask := by simp only [append_assoc]
      have hoff : (header.slice ++ (size' ++ mask.bytes)).length = 2 + lengthByteCount L + 4 := by
        simp [hsz, Mask.bytes]
        omega
      rw [hd, ← hoff, drop_left, take_of_length_le hlen.le]
      exact ⟨by simp [hlen, Nat.add_assoc], rfl⟩
  rw [writeFrame, splice_at head _ hh hsl]
  simp only [Option.bind_eq_bind, bind_some]
  rw [hto, bind_some, hhead, bind_some, hkey, bind_some, hin, bind_some]
  exact hput _ _ _ _ _ rfl (hsl.trans hs) rfl (by rw [length_fill, hlen, hold])

theorem fill_fill (mask : Mask) (content : List UInt8) :
    mask.fill (mask.fill content) = content := by
  have hx (byte key : UInt8) : byte ^^^ key ^^^ key = byte := by
    rw [UInt8.xor_assoc, UInt8.xor_self, UInt8.xor_zero]
  refine ext_getElem? fun i => ?_
  simp only [Mask.fill, getElem?_mapIdx, Option.map_map, Function.comp_def, hx, Option.map_id']

/-- A masked frame is read back. -/
theorem receive_eq (hm : header.mask = true) (hL : content.length < 2 ^ 64)
    (h : header.len = packLength content.length) :
    receive (header.slice ++ (writeInt (lengthByteCount content.length) content.length ++
      (mask.bytes ++ mask.fill content))) = some {
        final := header.final
        compressed := header.compressed
        rsv := header.rsv
        opcode := header.opcode
        payload := content } := by
  obtain ⟨first, second, hsl, hfr⟩ := slice_eq header
  have hvl := ServerFrame.val_packLength content.length
  rw [← h] at hvl
  have hex : (if header.len = 126 then 2 else if header.len = 127 then 8 else 0) =
      lengthByteCount content.length := by
    have h6 : header.len = 126 ↔ header.len.val = 126 := Fin.ext_iff
    have h7 : header.len = 127 ↔ header.len.val = 127 := Fin.ext_iff
    rw [lengthByteCount]
    simp only [h6, h7]
    split_ifs at hvl ⊢ <;> omega
  have hpl : (if lengthByteCount content.length = 0 then header.len.val
      else readInt (writeInt (lengthByteCount content.length) content.length)) =
      content.length := by
    by_cases h1 : content.length ≤ 125
    · rw [lengthByteCount, if_pos h1, if_pos rfl, hvl, if_pos h1]
    · have hn : lengthByteCount content.length ≠ 0
          ∧ content.length < 256 ^ lengthByteCount content.length := by
        rw [lengthByteCount, if_neg h1]
        split_ifs with h2
        · exact ⟨by decide, by omega⟩
        · exact ⟨by decide, hL.trans_eq (by norm_num)⟩
      rw [if_neg hn.1, readInt_writeInt hn.2]
  have hkey : (fun i : Fin 4 => (mask.bytes ++ mask.fill content).getD i 0) = mask := by
    funext i
    fin_cases i <;> rfl
  rw [hsl, cons_append, cons_append, nil_append, receive, hfr]
  simp only [hex]
  rw [take_left' (length_writeInt _ _), hpl, drop_left' (length_writeInt _ _), hkey,
    ← drop_drop, drop_left' (length_writeInt _ _), drop_left' (by rfl), fill_fill, if_pos ?_]
  simp [hm, Mask.bytes]
  omega

/-- Without the eight bytes of its length a long frame ends somewhere else. -/
theorem receive_eq_none (hL : 2 ^ 32 ≤ content.length) (h : header.len ≠ 127) :
    receive (header.slice ++ (writeInt (lengthByteCount content.length) content.length ++
      (mask.bytes ++ mask.fill content))) = none := by
  obtain ⟨first, second, hsl, hfr⟩ := slice_eq header
  rw [hsl, cons_append, cons_append, nil_append, receive, hfr]
  generalize hr : writeInt (lengthByteCount content.length) content.length ++
    (mask.bytes ++ mask.fill content) = rest
  have hlen : content.length ≤ rest.length := by
    rw [← hr]
    simp
    omega
  have hread : readInt (rest.take 2) < 256 ^ 2 := by
    refine (leValue_lt _).trans_le (Nat.pow_le_pow_right (by decide) ?_)
    simp
  refine if_neg ?_
  rintro ⟨-, hle⟩
  have := header.len.isLt
  simp only [if_neg h] at hle
  split_ifs at hle <;> omega

/-- What a frame says that carries `payload`. -/
def Sent (encoded : Option (List UInt8)) (opcode : Opcode) (compressed : Bool)
    (payload : List UInt8) : Prop :=
  ∃ frame, encoded = some frame ∧ frame.length = frameSizeIncludingMask payload.length
    ∧ receive frame = some {
        final := true
        compressed := compressed
        rsv := 0
        opcode := opcode
        payload := payload }

/-- The frame is read back just where the packed length is that of the content. -/
theorem writeFrame_sent_iff {opcode : Opcode} {compressed : Bool} {written : ℕ}
    {to_mask : List UInt8} {input : Option (List UInt8)} (hL : content.length < 2 ^ 64)
    (hbuf : buf.length = frameSizeIncludingMask content.length)
    (h : to_mask = [] ∧ input = some content ∨ to_mask = content ∧ input = none)
    (hw : packLength written = packLength content.length
      ∨ 2 ^ 32 ≤ content.length ∧ packLength written ≠ 127) :
    Sent (writeFrame mask buf content.length (headerOf written opcode compressed) to_mask input)
      opcode compressed content ↔ packLength written = packLength content.length := by
  rw [writeFrame_eq hbuf rfl h]
  constructor
  · rintro ⟨frame, hfr, -, hrc⟩
    refine hw.resolve_right fun h => ?_
    rw [← some.inj hfr, receive_eq_none h.1 h.2] at hrc
    cases hrc
  · intro h
    refine ⟨_, rfl, ?_, receive_eq rfl hL h⟩
    simp [frameSizeIncludingMask, frameSize, Mask.bytes]
    omega

/-- `2 ^ 32` bytes and more are counted without the high half, and come out as many only where the
low half too is too long for two bytes. -/
def Countable (length : ℕ) : Prop := length < 2 ^ 32 ∨ 0xFFFF < length % 2 ^ 32

theorem packLength_mod (L : ℕ) :
    (packLength (L % 2 ^ 32) = packLength L ↔ Countable L)
      ∧ (packLength (L % 2 ^ 32) = packLength L
        ∨ 2 ^ 32 ≤ L ∧ packLength (L % 2 ^ 32) ≠ 127) := by
  have hvl := ServerFrame.val_packLength L
  have hvm := ServerFrame.val_packLength (L % 2 ^ 32)
  have h7 : packLength (L % 2 ^ 32) = 127 ↔ (packLength (L % 2 ^ 32)).val = 127 := Fin.ext_iff
  rw [Countable, ne_eq, h7, Fin.ext_iff]
  split_ifs at hvl hvm <;> omega

/-- What the callers promise: a text in UTF-16 has no surrogate without its pair. -/
def Promised : Copy → Prop
  | utf16 slice => ValidUnits slice
  | _ => True

def isText : Copy → Bool
  | utf16 _ | latin1 _ => true
  | _ => false

theorem copyInto_whole (latin1 : List UInt8) :
    copyInto (latin1Bytes latin1).length latin1 = (latin1Bytes latin1, latin1.length) := by
  induction latin1 with
  | nil => rfl
  | cons char latin1 ih =>
    have hcn : latin1Bytes (char :: latin1) = Utf8.encode char.toNat ++ latin1Bytes latin1 := rfl
    rw [copyInto, hcn]
    by_cases hac : char.toNat ≤ 127
    · rw [if_pos hac, encode_ascii hac, singleton_append, length_cons, if_neg (by omega),
        Nat.add_sub_cancel, ih]
      rfl
    · have h2 : (latin1ToCodepointBytesAssumeNotASCII char ++ latin1Bytes latin1).length =
          (latin1Bytes latin1).length + 2 := rfl
      rw [if_neg hac, encode_notASCII hac, h2, if_neg (by omega), Nat.add_sub_cancel, ih]
      rfl

theorem text_sent_iff {this : Copy} {opcode : Opcode} (htx : this.isText)
    (hL : this.content.length < 2 ^ 64)
    (hlen : this.len S = (frameSizeIncludingMask this.content.length, this.content.length))
    (htr : transcode S this.content.length this =
      (this.content, this.content.length % 2 ^ 32))
    (hbuf : buf.length = (this.len S).1) :
    Sent (this.copy S mask buf (this.len S).2 opcode) opcode false this.content ↔
      Countable this.content.length := by
  have hcp : ∀ L, this.copy S mask buf L opcode =
      let result := transcode S (buf.length - (2 + lengthByteCount L + 4)) this
      writeFrame mask buf L (headerOf result.2 opcode false) result.1 none := by
    cases this <;> first | exact fun _ => rfl | cases htx
  have hroom : frameSizeIncludingMask this.content.length -
      (2 + lengthByteCount this.content.length + 4) = this.content.length := by
    rw [frameSizeIncludingMask, frameSize]
    omega
  rw [hlen] at hbuf ⊢
  obtain ⟨hpk, hor⟩ := packLength_mod this.content.length
  rw [hcp, hbuf, hroom, htr, writeFrame_sent_iff hL hbuf (Or.inr ⟨rfl, rfl⟩) hor, hpk]

/-- The frames of texts, of bytes and of compressed data are read as what was sent, a text's just
when its length is `Countable`. -/
theorem copy_sent_iff (hS : S.Lawful) :
    (∀ (this : Copy) (mask : Mask) (buf : List UInt8) (opcode : Opcode), ¬ this.isRaw →
      this.Promised → this.content.length < 2 ^ 64 → buf.length = (this.len S).1 →
      (Sent (this.copy S mask buf (this.len S).2 opcode) opcode false this.content ↔
        (this.isText → Countable this.content.length)))
      ∧ ∀ (mask : Mask) (buf compressed_data : List UInt8) (opcode : Opcode)
        (is_first_fragment : Bool), compressed_data.length < 2 ^ 64 →
        buf.length = frameSizeIncludingMask compressed_data.length →
        Sent (copyCompressed mask buf compressed_data opcode is_first_fragment) opcode
          is_first_fragment compressed_data := by
  refine ⟨fun this mask buf opcode hraw hpr hL hbuf => ?_, ?_⟩
  · cases this with
    | raw slice => exact absurd rfl hraw
    | bytes slice =>
      refine iff_of_true ?_ nofun
      exact (writeFrame_sent_iff hL hbuf (Or.inl ⟨rfl, rfl⟩) (Or.inl rfl)).2 rfl
    | latin1 latin1 =>
      refine (text_sent_iff rfl hL rfl ?_ hbuf).trans ⟨fun h _ => h, fun h => h rfl⟩
      simp only [transcode, copyLatin1IntoUTF8]
      exact congrArg (fun r : List UInt8 × ℕ => (r.1, r.1.length % 2 ^ 32)) (copyInto_whole latin1)
    | utf16 utf16 =>
      obtain ⟨read, hcp⟩ := copyUTF16IntoUTF8Impl_valid hS hpr le_rfl
      have hlen := hS.length utf16 hpr
      refine (text_sent_iff rfl hL ?_ ?_ hbuf).trans ⟨fun h _ => h, fun h => h rfl⟩
      · rw [len, hlen]
        rfl
      · exact congrArg (fun r : List UInt8 × EncodeIntoResult => (r.1, r.2.written)) hcp
  · intro mask buf compressed_data opcode first hL hbuf
    exact (writeFrame_sent_iff hL hbuf (Or.inl ⟨rfl, rfl⟩) (Or.inl rfl)).2 rfl

/-- The euro sign, as a text. -/
theorem copy_sent_iff_euro :
    Sent ((utf16 [0x20AC]).copy referenceLength (fun _ => 0x5A) (replicate 9 0) 3 .Text) .Text false
      [0xE2, 0x82, 0xAC] ↔ ((utf16 [0x20AC]).isText → Countable 3) :=
  (copy_sent_iff lawful_referenceLength).1 (utf16 [0x20AC]) (fun _ => 0x5A) (replicate 9 0) .Text
    (by decide) (show ValidUnits [0x20AC] by decide +kernel) (by decide +kernel)
    (by decide +kernel)

theorem decoded_euros (n : ℕ) :
    Utf16.unitDecoder.text none (replicate n 0x20AC) = replicate n (some 0x20AC) := by
  induction n with
  | zero => rfl
  | succ n ih =>
    rw [replicate_succ, Transducer.text_cons, step_unit (by decide) (by decide), ih]
    rfl

/-- `2 ^ 32 + 2` bytes of euro signs, whose length is packed as 2. -/
theorem not_sent_euros : ¬ ∀ (S : SimdutfLength) (this : Copy) (mask : Mask) (buf : List UInt8)
    (opcode : Opcode), S.Lawful → ¬ this.isRaw → this.Promised → this.content.length < 2 ^ 64 →
    buf.length = (this.len S).1 →
    Sent (this.copy S mask buf (this.len S).2 opcode) opcode false this.content := by
  intro h
  obtain ⟨n, hn⟩ : ∃ n, n = 1431655766 := ⟨_, rfl⟩
  have htx := decoded_euros n
  have hlen : (utf16 (replicate n 0x20AC)).content.length = n * 3 := by
    rw [content, htx, Utf8.bytes, length_flatMap]
    simp [Utf8.encode]
  have hpr : (utf16 (replicate n 0x20AC)).Promised := by
    rw [Promised, ValidUnits, htx]
    simp
  have hL : (utf16 (replicate n 0x20AC)).content.length < 2 ^ 64 := by omega
  have hraw : ¬ (utf16 (replicate n 0x20AC)).isRaw := Bool.false_ne_true
  have hct := ((copy_sent_iff lawful_referenceLength).1 _ (fun _ => 0)
    (replicate ((utf16 (replicate n 0x20AC)).len referenceLength).1 0) .Text hraw hpr hL
    length_replicate).1 (h _ _ _ _ _ lawful_referenceLength hraw hpr hL length_replicate) rfl
  rw [Countable, hlen] at hct
  omega

end Cruller.Ws.WebSocket.Copy
