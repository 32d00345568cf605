import Cruller.Lib.Bytes
import Cruller.Jsc.JSONLineBuffer

/-!
# Messages between processes

`jsc/ipc.zig`: what is sent between two processes, and how `onData2` takes messages out of the bytes
that arrive. In the advanced mode a message has a header with its type and its length, and is read
where it lies unless part of it has arrived before; in the JSON mode it is a line.

What JSC makes of a value, and of a payload, is a parameter. `none` is a crash.
-/

namespace Cruller.Jsc.Ipc

inductive Mode where
  | advanced
  | json
deriving DecidableEq

inductive IsInternal where
  | internal
  | external
deriving DecidableEq

/-- A message of the other side. -/
inductive DecodedIPCMessage (V : Type) where
  | version (n : ℕ)
  | data (v : V)
  | internal (v : V)
deriving DecidableEq

/-- A message, and how many bytes it takes. -/
structure DecodeIPCMessageResult (V : Type) where
  bytes_consumed : ℕ
  message : DecodedIPCMessage V
deriving DecidableEq

/-- `bun.JSError`. -/
inductive BunError where
  | JSError
  | JSTerminated
  | OutOfMemory
deriving DecidableEq

/-- Why no message could be decoded. -/
inductive IPCDecodeError where
  | NotEnoughBytes
  | InvalidFormat
  | JSError
  | JSTerminated
  | OutOfMemory
deriving DecidableEq

def IPCDecodeError.ofJS : BunError → IPCDecodeError
  | .JSError => .JSError
  | .JSTerminated => .JSTerminated
  | .OutOfMemory => .OutOfMemory

/-- What the engine makes of values and of texts. -/
structure Env (V : Type) where
  /-- `JSValue.serialize`, `none` where it throws. -/
  serialize : V → Option (List UInt8)
  /-- `JSValue.deserialize`. -/
  deserialize : List UInt8 → Except BunError V
  /-- `jsonStringifyFast` in UTF-8, `none` where it throws or has no string to give. -/
  jsonStringifyFast : V → Option (List UInt8)
  /-- `toJSByParseJSON` of a string of these bytes. -/
  toJSByParseJSON : List UInt8 → Except BunError V
  /-- `String.max_length`. -/
  max_length : ℕ
  allow_assert : Bool
  growCapacity : GrowCapacity

variable {V : Type} (env : Env V)

/-- The first byte of a packet. -/
inductive IPCMessageType where
  | Version
  | SerializedMessage
  | SerializedInternalMessage
  | other (n : UInt8)
deriving DecidableEq

def IPCMessageType.enumFromInt (n : UInt8) : IPCMessageType :=
  if n = 1 then .Version
  else if n = 2 then .SerializedMessage
  else if n = 3 then .SerializedInternalMessage
  else .other n

def IPCMessageType.intFromEnum : IPCMessageType → UInt8
  | .Version => 1
  | .SerializedMessage => 2
  | .SerializedInternalMessage => 3
  | .other n => n

namespace advanced

def header_length : ℕ := 5

/-- A packet whose header has been read. -/
def decodeMessage (tag : IPCMessageType) (data : List UInt8) (message_len : ℕ) :
    Option (Except IPCDecodeError (DecodeIPCMessageResult V)) :=
  if data.length - header_length < message_len then some (.error .NotEnoughBytes)
  else
    match env.deserialize ((data.drop header_length).take message_len) with
    | .error e => some (.error (.ofJS e))
    | .ok deserialized =>
      -- the sum is a `u32`
      if header_length + message_len < 2 ^ 32 then
        some (.ok ⟨header_length + message_len,
          if tag = .SerializedInternalMessage then .internal deserialized else .data deserialized⟩)
      else none

/-- The packet at the front. -/
def decodeIPCMessage (data : List UInt8) :
    Option (Except IPCDecodeError (DecodeIPCMessageResult V)) :=
  if data.length < header_length then some (.error .NotEnoughBytes)
  else
    let message_len := leValue ((data.drop 1).take 4)
    match IPCMessageType.enumFromInt (data.headD 0) with
    | .Version => some (.ok ⟨header_length, .version message_len⟩)
    | .SerializedMessage => decodeMessage env .SerializedMessage data message_len
    | .SerializedInternalMessage => decodeMessage env .SerializedInternalMessage data message_len
    | .other _ => some (.error .InvalidFormat)

/-- The bytes that are written, `none` where nothing is. -/
def serialize (value : V) (is_internal : IsInternal) : Option (List UInt8) :=
  match env.serialize value with
  | none => none
  | some serialized =>
    -- the size is cast to a `u32`
    if serialized.length < 2 ^ 32 then
      some ((match is_internal with
        | .internal => IPCMessageType.SerializedInternalMessage
        | .external => IPCMessageType.SerializedMessage).intFromEnum ::
          (leBytes 4 serialized.length ++ serialized))
    else none

end advanced

namespace json

/-- The value of a line. -/
def decodeValue (json_data : List UInt8) : Option (Except IPCDecodeError V) :=
  let is_ascii := json_data.all (· < 128)
  -- `createExternal` asserts that the string is not empty
  if is_ascii ∧ env.allow_assert ∧ json_data = [] then none
  else if is_ascii ∧ env.max_length ≤ json_data.length then some (.error .OutOfMemory)
  else
    match env.toJSByParseJSON json_data with
    | .error .JSError => some (.error .InvalidFormat)
    | .error .JSTerminated => some (.error .InvalidFormat)
    | .error .OutOfMemory => none
    | .ok deserialized => some (.ok deserialized)

/-- A line that ends at `idx`. -/
def decodeLine (data : List UInt8) (idx : ℕ) :
    Option (Except IPCDecodeError (DecodeIPCMessageResult V)) :=
  match data.take idx with
  | [] => some (.error .InvalidFormat)
  | tag :: json_data =>
    (decodeValue env (if tag = 2 then json_data else tag :: json_data)).bind fun
      | .error e => some (.error e)
      | .ok deserialized =>
        -- the sum is a `u32`
        if idx + 1 < 2 ^ 32 then
          some (.ok ⟨idx + 1, if tag = 2 then .internal deserialized else .data deserialized⟩)
        else none

/-- The line at the front, whose end may be known. -/
def decodeIPCMessage (data : List UInt8) (known_newline : Option ℕ) :
    Option (Except IPCDecodeError (DecodeIPCMessageResult V)) :=
  match known_newline with
  | some idx => decodeLine env data idx
  | none =>
    match indexOfChar data newline with
    | none => some (.error .NotEnoughBytes)
    | some found =>
      if 2 ^ 32 - 1 ≤ found then some (.error .InvalidFormat) else decodeLine env data found

/-- The bytes that are written, `none` where nothing is. -/
def serialize (value : V) (is_internal : IsInternal) : Option (List UInt8) :=
  (env.jsonStringifyFast value).map fun slice =>
    (match is_internal with
      | .internal => [2]
      | .external => []) ++ slice ++ [newline]

end json

/-- What is sent for a value. -/
def serialize (mode : Mode) (value : V) (is_internal : IsInternal) : Option (List UInt8) :=
  match mode with
  | .advanced => advanced.serialize env value is_internal
  | .json => json.serialize env value is_internal

/-- What has come and is not yet a message. -/
inductive IncomingBuffer where
  | advanced (buf : ByteList)
  | json (buf : JSONLineBuffer)

def IncomingBuffer.init : Mode → IncomingBuffer
  | .advanced => .advanced .empty
  | .json => .json .init

/-- The messages that `handleIPCMessage` got, and for what the socket has been closed. -/
structure Handed (V : Type) where
  messages : List (DecodedIPCMessage V)
  closed : Option IPCDecodeError
deriving DecidableEq

namespace Handed

def init : Handed V := ⟨[], none⟩

/-- A message is handed over. -/
def handleIPCMessage (h : Handed V) (message : DecodedIPCMessage V) : Handed V :=
  { h with messages := h.messages ++ [message] }

def closeSocket (h : Handed V) (e : IPCDecodeError) : Handed V :=
  { h with closed := some e }

end Handed

/-- The lines that the buffer has; `n` bounds the rounds. -/
def lineLoop : ℕ → Handed V → JSONLineBuffer → Option (Handed V × JSONLineBuffer)
  | 0, h, json_buf => some (h, json_buf)
  | n + 1, h, json_buf =>
    match json_buf.next with
    | none => some (h, json_buf)
    | some (data, newline_pos) =>
      (json.decodeIPCMessage env data (some newline_pos)).bind fun
        | .error .NotEnoughBytes => some (h, json_buf)
        | .error e => some (h.closeSocket e, json_buf)
        | .ok result =>
          lineLoop n (h.handleIPCMessage result.message) (json_buf.consume result.bytes_consumed)

/-- The messages that lie in what has arrived, with nothing in the buffer before it. -/
def directLoop (adv_buf : ByteList) : ℕ → Handed V → List UInt8 → Option (Handed V × ByteList)
  | 0, h, _ => some (h, adv_buf)
  | n + 1, h, data =>
    (advanced.decodeIPCMessage env data).bind fun
      | .error .NotEnoughBytes => (adv_buf.write env.growCapacity data).map fun buf => (h, buf)
      | .error e => some (h.closeSocket e, adv_buf)
      | .ok result =>
        let h := h.handleIPCMessage result.message
        if result.bytes_consumed < data.length then
          directLoop adv_buf n h (data.drop result.bytes_consumed)
        else some (h, adv_buf)

/-- The messages that lie in the buffer from `start` on. -/
def bufferedLoop (adv_buf : ByteList) : ℕ → Handed V → ℕ → Option (Handed V × ByteList)
  | 0, h, _ => some (h, adv_buf)
  | n + 1, h, start =>
    let slice := adv_buf.slice.drop start
    (advanced.decodeIPCMessage env slice).bind fun
      | .error .NotEnoughBytes => some (h, adv_buf.moveToFront start)
      | .error e => some (h.closeSocket e, adv_buf)
      | .ok result =>
        let h := h.handleIPCMessage result.message
        if result.bytes_consumed < slice.length then
          bufferedLoop adv_buf n h (start + result.bytes_consumed)
        else some (h, adv_buf.moveToFront adv_buf.len)

/-- Some bytes come. -/
def onData2 (h : Handed V) (incoming : IncomingBuffer) (all_data : List UInt8) :
    Option (Handed V × IncomingBuffer) :=
  match incoming with
  | .json json_buf => do
    let json_buf ← json_buf.append env.growCapacity all_data
    (lineLoop env (json_buf.data.len + 1) h json_buf).map fun r => (r.1, .json r.2)
  | .advanced adv_buf =>
    if adv_buf.len = 0 then
      (directLoop env adv_buf (all_data.length + 1) h all_data).map fun r => (r.1, .advanced r.2)
    else do
      let adv_buf ← adv_buf.write env.growCapacity all_data
      (bufferedLoop env adv_buf (adv_buf.len + 1) h 0).map fun r => (r.1, .advanced r.2)

/-- A socket that has been closed hands nothing over. -/
def receive (r : Handed V × IncomingBuffer) (data : List UInt8) :
    Option (Handed V × IncomingBuffer) :=
  if r.1.closed.isSome then some r else onData2 env r.1 r.2 data

/-- What is handed over when these pieces have come. -/
def received (mode : Mode) (pieces : List (List UInt8)) : Option (Handed V) :=
  (pieces.foldlM (receive env) (.init, .init mode)).map Prod.fst

end Cruller.Jsc.Ipc
