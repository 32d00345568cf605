import Cruller.Lib.Run
import Cruller.Ws.Outgoing
import Cruller.Ws.Receive

/-!
# What a server sends

Frames as RFC 6455 has them, neither masked nor compressed, and what they amount to: a message may
be cut into frames, pings and pongs may come between them (`Assembly.accept`). What the program sees
of a call of `CppWebSocket` is a text in UTF-16 or bytes (`Dispatch.seen`).
-/

namespace Cruller.Ws

open List Option WebsocketHeader

/-- A frame that the server sends. -/
structure ServerFrame where
  opcode : Opcode
  final : Bool
  payload : List UInt8
deriving DecidableEq

namespace ServerFrame

/-- The header of a frame without a mask. -/
def header (f : ServerFrame) : WebsocketHeader where
  len := packLength f.payload.length
  mask := false
  opcode := f.opcode
  final := f.final

def length (f : ServerFrame) : List UInt8 :=
  writeInt (lengthByteCount f.payload.length) f.payload.length

/-- The bytes of the frame. -/
def encode (f : ServerFrame) : List UInt8 := f.header.slice ++ f.length ++ f.payload

/-- Where the client goes on behind the header. -/
def state (f : ServerFrame) : ReceiveState :=
  match f.opcode with
  | .Text | .Continue | .Binary =>
    if f.payload.length ≤ 125 then .need_body
    else if f.payload.length ≤ 0xFFFF then .extended_payload_length_16
    else .extended_payload_length_64
  | .Close => .close
  | .Ping => .ping
  | .Pong => .pong
  | _ => .fail

theorem val_packLength (n : ℕ) :
    (packLength n).val = if n ≤ 125 then n else if n ≤ 0xFFFF then 126 else 127 := by
  unfold packLength
  split_ifs with h
  · exact Nat.mod_eq_of_lt (by omega)
  · rfl
  · rfl

theorem parse_header (f : ServerFrame) :
    ∃ first second, f.header.slice = [first, second] ∧ parseWebSocketHeader first second = {
      state := f.state
      receiving_type := f.opcode
      payload_length := (packLength f.payload.length).val
      is_fragmented := f.opcode = .Continue ∨ !f.final
      is_final := f.final } := by
  obtain ⟨first, second, hsl, hpr⟩ := slice_eq f.header
  refine ⟨first, second, hsl, ?_⟩
  rw [parseWebSocketHeader, hpr]
  have hlen := val_packLength f.payload.length
  obtain ⟨opcode, final, payload⟩ := f
  cases opcode <;> simp [header, state]
  all_goals
    rw [hlen]
    split_ifs <;> simp_all

theorem length_eq_nil {f : ServerFrame} (h : f.payload.length ≤ 125) : f.length = [] := by
  simp [length, lengthByteCount, h, writeInt, leBytes]

theorem readInt_length {f : ServerFrame} (h : f.payload.length < 2 ^ 63)
    (hln : 125 < f.payload.length) : readInt f.length = f.payload.length := by
  refine readInt_writeInt ?_
  unfold lengthByteCount
  split_ifs with h1 h2
  · omega
  · norm_num
    omega
  · norm_num
    omega

end ServerFrame

/-- A whole message, or the payload of a ping or of a pong. -/
structure Received where
  kind : Opcode
  payload : List UInt8
deriving DecidableEq

/-- The message that has begun: its type and what has come of it. -/
abbrev Assembly := Option (Opcode × List UInt8)

namespace Assembly

/-- What message the frame belongs to, and what there is of it. -/
def «open» (asm : Assembly) (f : ServerFrame) : Option (Opcode × List UInt8) :=
  match f.opcode, asm with
  | .Text, none => some (.Text, [])
  | .Binary, none => some (.Binary, [])
  | .Continue, some message => some message
  | _, _ => none

/-- What becomes of the message; `none` when the frame has no place there. -/
def accept (asm : Assembly) (f : ServerFrame) : Option (Assembly × List Received) :=
  if 2 ^ 63 ≤ f.payload.length then none
  else
    match f.opcode with
    | .Ping | .Pong =>
      if f.final ∧ f.payload.length ≤ 125 then some (asm, [⟨f.opcode, f.payload⟩]) else none
    | _ => do
      let (kind, sofar) ← asm.open f
      if ¬ f.final then some (some (kind, sofar ++ f.payload), [])
      else if kind = .Text ∧ ¬ Text.Valid (sofar ++ f.payload) then none
      else some (none, [⟨kind, sofar ++ f.payload⟩])

/-- A frame is a ping or a pong of its own, or goes on with the message that is open. -/
theorem accept_cases {asm asm' : Assembly} {f : ServerFrame} {done : List Received}
    (h : asm.accept f = some (asm', done)) :
    ((f.opcode = .Ping ∨ f.opcode = .Pong) ∧ f.final = true ∧ f.payload.length ≤ 125
        ∧ asm' = asm ∧ done = [⟨f.opcode, f.payload⟩])
      ∨ ∃ kind sofar, asm.open f = some (kind, sofar) ∧ f.payload.length < 2 ^ 63
        ∧ (f.final = false ∧ asm' = some (kind, sofar ++ f.payload) ∧ done = []
          ∨ f.final = true ∧ (kind = .Text → Text.Valid (sofar ++ f.payload)) ∧ asm' = none
            ∧ done = [⟨kind, sofar ++ f.payload⟩]) := by
  rw [accept] at h
  by_cases hln : 2 ^ 63 ≤ f.payload.length
  · rw [if_pos hln] at h
    simp at h
  rw [if_neg hln] at h
  split at h
  · split_ifs at h with hok
    simp only [some.injEq, Prod.mk.injEq] at h
    exact Or.inl ⟨Or.inl ‹_›, hok.1, hok.2, h.1.symm, h.2.symm⟩
  · split_ifs at h with hok
    simp only [some.injEq, Prod.mk.injEq] at h
    exact Or.inl ⟨Or.inr ‹_›, hok.1, hok.2, h.1.symm, h.2.symm⟩
  · right
    rw [bind_eq_bind, bind_eq_some_iff] at h
    obtain ⟨⟨kind, sofar⟩, hop, h⟩ := h
    refine ⟨kind, sofar, hop, by omega, ?_⟩
    dsimp only at h
    by_cases hfn : f.final = true
    · rw [if_neg (by simp [hfn])] at h
      split_ifs at h with htx
      simp only [some.injEq, Prod.mk.injEq] at h
      exact Or.inr ⟨hfn, fun hk => by_contra fun hv => htx ⟨hk, hv⟩, h.1.symm, h.2.symm⟩
    · rw [if_pos hfn] at h
      simp only [some.injEq, Prod.mk.injEq] at h
      exact Or.inl ⟨by simpa using hfn, h.1.symm, h.2.symm⟩

theorem open_cases {asm : Assembly} {f : ServerFrame} {kind : Opcode} {sofar : List UInt8}
    (h : asm.open f = some (kind, sofar)) :
    ((f.opcode = .Text ∨ f.opcode = .Binary) ∧ kind = f.opcode ∧ sofar = [] ∧ asm = none)
      ∨ (f.opcode = .Continue ∧ asm = some (kind, sofar)) := by
  unfold «open» at h
  split at h
  · simp_all
  · simp_all
  · simp_all
  · simp at h

end Assembly

/-- What the JavaScript side sees. -/
inductive Seen where
  | text (units : List UInt16)
  | bytes (data : List UInt8) (op : Opcode)
  | closed (code : ℕ) (reason : List UInt8)
  | lost (code : ErrorCode)
deriving DecidableEq

def Dispatch.seen : Dispatch → Seen
  | didReceiveText _ text => .text text.units
  | didReceiveBytes data op => .bytes data op
  | didClose code reason => .closed code reason
  | didAbruptClose code => .lost code

def Received.seen (r : Received) : Seen :=
  if r.kind = .Text then .text (Utf16.units (Utf8.decoder.text none r.payload))
  else .bytes r.payload r.kind

/-- What the client relies on: writes that do not fail, and simdutf, which finds a length for a
text that is not empty. -/
structure Env.Lawful (env : Env) : Prop where
  writes : env.Writes
  simdutf : env.simdutf.Lawful
  length_pos : ∀ byte bytes, Text.Valid (byte :: bytes) →
    env.simdutf.utf16_length_from_utf8 (byte :: bytes) ≠ 0

theorem Env.lawful_reference (limit : ℕ → ℕ) : (Env.reference limit).Lawful where
  writes := Env.writes_reference limit
  simdutf := Text.lawful_reference
  length_pos byte bytes _ := by
    have hne : Utf16.units (Utf8.decoder.text none (byte :: bytes)) ≠ [] :=
      Utf16.units_ne_nil (Utf8.text_ne_nil (Or.inr (by simp)))
    exact fun hlength => hne (length_eq_zero_iff.1 hlength)

theorem toUTF16Alloc_valid {env : Env} (henv : env.Lawful) {bytes : List UInt8}
    (h : Text.Valid bytes) :
    (toUTF16Alloc env.simdutf bytes = .ok none
        ∧ Text.copyU8IntoU16 bytes = Utf16.units (Utf8.decoder.text none bytes))
      ∨ toUTF16Alloc env.simdutf bytes =
        .ok (some (Utf16.units (Utf8.decoder.text none bytes))) := by
  rw [toUTF16Alloc]
  rcases hfr : Text.firstNonASCII env.simdutf bytes with _ | i
  · left
    refine ⟨rfl, ?_⟩
    have hall : bytes.all Text.isASCII := by
      rw [Text.firstNonASCII, henv.simdutf.ascii, map_eq_none_iff,
        findIdx?_eq_none_iff] at hfr
      rw [List.all_eq_true]
      intro byte hby
      simpa using hfr byte hby
    have hun := Text.units_text_ascii [] hall
    rw [append_nil] at hun
    rw [hun]
    exact (append_nil _).symm
  · right
    have hne : env.simdutf.utf16_length_from_utf8 bytes ≠ 0 := by
      rcases bytes with _ | ⟨byte, bytes⟩
      · simp [Text.firstNonASCII, henv.simdutf.ascii] at hfr
      · exact henv.length_pos byte bytes h
    dsimp only
    rw [if_neg hne, if_pos ((henv.simdutf.success _).2 h), henv.simdutf.converted _ h]

theorem dispatchData_seen {tmpLen : ℕ+} {env : Env} (henv : env.Lawful) {c : WebSocket tmpLen}
    (hout : c.outgoing_websocket = true) (kind : Opcode) (data : List UInt8)
    (hkn : kind = .Text ∨ kind = .Binary ∨ kind = .Ping ∨ kind = .Pong)
    (hvl : kind = .Text → Text.Valid data) :
    ∃ call, c.dispatchData env data kind = c.dispatch call
      ∧ call.seen = Received.seen ⟨kind, data⟩ := by
  unfold WebSocket.dispatchData
  rw [if_neg (by simp [hout])]
  rcases hkn with rfl | rfl | rfl | rfl
  · rcases toUTF16Alloc_valid henv (hvl rfl) with ⟨hno, hun⟩ | hsm
    · refine ⟨.didReceiveText true (.latin1 data), by rw [hno], ?_⟩
      simp [Dispatch.seen, ReceivedText.units, Received.seen, hun]
    · refine ⟨.didReceiveText false (.utf16 _), by rw [hsm], ?_⟩
      simp [Dispatch.seen, ReceivedText.units, Received.seen]
  · exact ⟨_, rfl, rfl⟩
  · exact ⟨_, rfl, rfl⟩
  · exact ⟨_, rfl, rfl⟩

end Cruller.Ws
