import Cruller.Lib.Bytes

/-!
# WebSocket frame headers

`http/websocket.zig` and `parseWebSocketHeader`. A header is two bytes; a length that does not fit
into seven bits follows in two or eight bytes, the highest first.
-/

namespace Cruller.Ws

inductive Opcode where
  | Continue
  | Text
  | Binary
  | Res3
  | Res4
  | Res5
  | Res6
  | Res7
  | Close
  | Ping
  | Pong
  | ResB
  | ResC
  | ResD
  | ResE
  | ResF
deriving DecidableEq

namespace Opcode

def intFromEnum : Opcode → ℕ
  | Continue => 0x0
  | Text => 0x1
  | Binary => 0x2
  | Res3 => 0x3
  | Res4 => 0x4
  | Res5 => 0x5
  | Res6 => 0x6
  | Res7 => 0x7
  | Close => 0x8
  | Ping => 0x9
  | Pong => 0xA
  | ResB => 0xB
  | ResC => 0xC
  | ResD => 0xD
  | ResE => 0xE
  | ResF => 0xF

/-- Of a `u4`. -/
def enumFromInt : ℕ → Opcode
  | 0x0 => Continue
  | 0x1 => Text
  | 0x2 => Binary
  | 0x3 => Res3
  | 0x4 => Res4
  | 0x5 => Res5
  | 0x6 => Res6
  | 0x7 => Res7
  | 0x8 => Close
  | 0x9 => Ping
  | 0xA => Pong
  | 0xB => ResB
  | 0xC => ResC
  | 0xD => ResD
  | 0xE => ResE
  | _ => ResF

def isControl (opcode : Opcode) : Bool := opcode.intFromEnum &&& 0x8 ≠ 0

theorem intFromEnum_lt (opcode : Opcode) : opcode.intFromEnum < 16 := by
  cases opcode <;> decide

@[simp] theorem enumFromInt_intFromEnum (opcode : Opcode) :
    enumFromInt opcode.intFromEnum = opcode := by
  cases opcode <;> rfl

end Opcode

instance neZero_four : NeZero 4 := ⟨by decide⟩

instance neZero_128 : NeZero 128 := ⟨by decide⟩

/-- `rsv` is `rsv2` and `rsv3`, `compressed` is `rsv1`. -/
structure WebsocketHeader where
  len : Fin 128
  mask : Bool
  opcode : Opcode
  rsv : Fin 4 := 0
  compressed : Bool := false
  final : Bool := true
deriving DecidableEq

namespace WebsocketHeader

/-- The seven bits of a length. -/
def packLength (length : ℕ) : Fin 128 :=
  if length ≤ 125 then Fin.ofNat 128 length else if length ≤ 0xFFFF then 126 else 127

/-- How many bytes the length takes behind the header. -/
def lengthByteCount (byte_length : ℕ) : ℕ :=
  if byte_length ≤ 125 then 0 else if byte_length ≤ 0xFFFF then 2 else 8

def frameSize (byte_length : ℕ) : ℕ := 2 + byte_length + lengthByteCount byte_length

def frameSizeIncludingMask (byte_length : ℕ) : ℕ := frameSize byte_length + 4

/-- The first byte holds the high half of the packed struct. -/
def slice (self : WebsocketHeader) : List UInt8 :=
  [.ofNat (self.opcode.intFromEnum + 16 * self.rsv.val + 64 * self.compressed.toNat
    + 128 * self.final.toNat),
  .ofNat (self.len.val + 128 * self.mask.toNat)]

/-- The header in two bytes. -/
def fromSlice (first second : UInt8) : WebsocketHeader where
  len := Fin.ofNat 128 second.toNat
  mask := 128 ≤ second.toNat
  opcode := .enumFromInt (first.toNat % 16)
  rsv := Fin.ofNat 4 (first.toNat / 16)
  compressed := first.toNat / 64 % 2 = 1
  final := 128 ≤ first.toNat

@[simp] theorem length_slice (self : WebsocketHeader) : self.slice.length = 2 := rfl

theorem slice_eq (self : WebsocketHeader) :
    ∃ first second, self.slice = [first, second] ∧ fromSlice first second = self := by
  refine ⟨_, _, rfl, ?_⟩
  obtain ⟨⟨len, hlen⟩, mask, opcode, ⟨rsv, hrsv⟩, compressed, final⟩ := self
  have hop := opcode.intFromEnum_lt
  have hfr : opcode.intFromEnum + 16 * rsv + 64 * compressed.toNat + 128 * final.toNat < 256 := by
    have := compressed.toNat_le
    have := final.toNat_le
    omega
  have hsc : len + 128 * mask.toNat < 256 := by
    have := mask.toNat_le
    omega
  simp only [fromSlice, WebsocketHeader.mk.injEq, UInt8.toNat_ofNat', Nat.reducePow,
    Nat.mod_eq_of_lt hfr, Nat.mod_eq_of_lt hsc]
  refine ⟨Fin.ext ?_, ?_, ?_, Fin.ext ?_, ?_, ?_⟩
  · simp only [Fin.ofNat]
    omega
  · cases mask
    · simp
      omega
    · simp
  · rw [show (opcode.intFromEnum + 16 * rsv + 64 * compressed.toNat + 128 * final.toNat) % 16 =
      opcode.intFromEnum by omega, Opcode.enumFromInt_intFromEnum]
  · simp only [Fin.ofNat]
    cases compressed <;> cases final <;> simp <;> omega
  · cases compressed <;> cases final <;> simp <;> omega
  · cases compressed <;> cases final <;> simp <;> omega

end WebsocketHeader

/-- `std.mem.writeInt` with the highest byte first, into `n` bytes. -/
def writeInt (n value : ℕ) : List UInt8 := (leBytes n value).reverse

/-- `std.mem.readInt`, the highest byte first. -/
def readInt (bytes : List UInt8) : ℕ := leValue bytes.reverse

@[simp] theorem length_writeInt (n value : ℕ) : (writeInt n value).length = n := by
  simp [writeInt]

theorem readInt_writeInt {n value : ℕ} (h : value < 256 ^ n) :
    readInt (writeInt n value) = value := by
  rw [readInt, writeInt, List.reverse_reverse, leValue_leBytes h]

/-- What the receive loop waits for. -/
inductive ReceiveState where
  | need_header
  | need_mask
  | need_body
  | extended_payload_length_16
  | extended_payload_length_64
  | ping
  | pong
  | close
  | fail
deriving DecidableEq

/-- What the two bytes say. -/
structure ParsedHeader where
  state : ReceiveState
  receiving_type : Opcode
  payload_length : ℕ
  is_fragmented : Bool
  is_final : Bool
  need_compression : Bool := false
deriving DecidableEq

/-- The state behind a header. -/
def parseWebSocketHeader (first second : UInt8) : ParsedHeader :=
  let header := WebsocketHeader.fromSlice first second
  let payload := header.len.val
  let parsed : ParsedHeader := {
    state := .fail
    receiving_type := header.opcode
    payload_length := payload
    is_fragmented := header.opcode = .Continue ∨ !header.final
    is_final := header.final }
  let data := header.opcode = .Text ∨ header.opcode = .Binary
  if ¬ data ∧ header.opcode ≠ .Continue ∧ header.compressed then parsed
  else
    let parsed := { parsed with need_compression := data ∧ header.compressed }
    if header.mask ∧ data then { parsed with state := .need_mask }
    else if header.rsv ≠ 0 then parsed
    else
      match header.opcode with
      | .Text | .Continue | .Binary =>
        if payload ≤ 125 then { parsed with state := .need_body }
        else if payload = 126 then { parsed with state := .extended_payload_length_16 }
        else if payload = 127 then { parsed with state := .extended_payload_length_64 }
        else parsed
      | .Close => { parsed with state := .close }
      | .Ping => { parsed with state := .ping }
      | .Pong => { parsed with state := .pong }
      | _ => parsed

end Cruller.Ws
