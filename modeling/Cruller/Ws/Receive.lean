import Cruller.Ws.Client

/-!
# What the client receives: `handleData`

Each call goes on where the last one stopped: in a header, in the bytes of a length, in the body of
a data frame or of a control frame. The body of a data frame goes to `receive_buffer`, but a whole
message that lies in one call is dispatched from where it lies. The body of a control frame goes to
`ping_frame_bytes`.
-/

namespace Cruller.Ws

open Text (DecodeError firstNonASCII convertFrom)

/-- `none` where all is ASCII. -/
def toUTF16Alloc (S : Text.Simdutf) (bytes : List UInt8) :
    Except DecodeError (Option (List UInt16)) :=
  match firstNonASCII S bytes with
  | none => .ok none
  | some i =>
    if S.utf16_length_from_utf8 bytes = 0 then
      (convertFrom S true true (bytes.length + 1) (some i) [] bytes).map fun r => some r.1
    else
      let res := S.convert_utf8_to_utf16le_with_errors bytes
      if res.1 then .ok (some res.2) else .error .InvalidByteSequence

/-- The locals of `handleData`. -/
structure Receiving where
  data : List UInt8
  receive_state : ReceiveState
  terminated : Bool := false
  is_fragmented : Bool := false
  receiving_type : Opcode
  receive_body_remain : ℕ
  is_final : Bool
  last_receive_data_type : Opcode
deriving DecidableEq

/-- What becomes of the loop after a turn. -/
inductive Flow where
  | again
  | break
deriving DecidableEq

namespace WebSocket

variable {tmpLen : ℕ+} (env : Env) (this : WebSocket tmpLen)

/-- A message goes to JavaScript. -/
def dispatchData (data : List UInt8) (kind : Opcode) : WebSocket tmpLen :=
  if !this.outgoing_websocket then this.clearData
  else
    match kind with
    | .Text =>
      match toUTF16Alloc env.simdutf data with
      | .error _ => this.terminate .invalid_utf8
      | .ok (some utf16) => this.dispatch (.didReceiveText false (.utf16 utf16))
      | .ok none => this.dispatch (.didReceiveText true (.latin1 data))
    | .Binary | .Ping | .Pong => this.dispatch (.didReceiveBytes data kind)
    | _ => this.terminate .unexpected_opcode

/-- A message is decompressed first. -/
def dispatchCompressedData (data : List UInt8) (kind : Opcode) : WebSocket tmpLen :=
  match this.deflate with
  | none => this.terminate .compression_unsupported
  | some deflate =>
    match env.decompress deflate.decompressed data with
    | .error .InflateFailed => this.terminate .invalid_compressed_data
    | .error .TooLarge => this.terminate .message_too_big
    | .error .OutOfMemory => this.terminate .failed_to_allocate_memory
    | .ok decompressed =>
      { this with deflate := some { deflate with decompressed := deflate.decompressed ++ [data] } }
        |>.dispatchData env decompressed kind

/-- The bytes that were consumed come second. -/
def consume (data : List UInt8) (left_in_fragment : ℕ) (kind : Opcode) (is_final : Bool) :
    Option (WebSocket tmpLen × ℕ) :=
  if left_in_fragment < data.length then none
  else if this.receiving_compressed then do
    let receive_buffer ← if data = [] then some this.receive_buffer
      else this.receive_buffer.writeWithSize data
    let this := { this with receive_buffer := receive_buffer }
    if left_in_fragment - data.length - this.receive_pending_chunk_len = 0 then
      let this := { this with receive_pending_chunk_len := 0, receive_body_remain := 0 }
      if is_final then
        let this := this.dispatchCompressedData env (this.receive_buffer.readableSlice 0) kind
        return ({ this.clearReceiveBuffers false with
          receiving_compressed := false
          message_is_compressed := false }, data.length)
      else return (this, data.length)
    else
      return ({ this with
        receive_pending_chunk_len := this.receive_pending_chunk_len - left_in_fragment },
        data.length)
  else
    let whole := is_final ∧ data.length = left_in_fragment ∧ this.receive_pending_chunk_len = 0
    if whole ∧ this.receive_buffer.count = 0 then
      some ({ this.dispatchData env data kind with message_is_compressed := false }, data.length)
    else if whole ∧ data = [] then
      let this := this.dispatchData env (this.receive_buffer.readableSlice 0) kind
      some ({ this.clearReceiveBuffers false with message_is_compressed := false }, 0)
    else if data = [] then some (this, 0)
    else do
      let receive_buffer ← this.receive_buffer.writeWithSize data
      let this := { this with receive_buffer := receive_buffer }
      if left_in_fragment - data.length - this.receive_pending_chunk_len = 0 then
        let this := { this with receive_pending_chunk_len := 0, receive_body_remain := 0 }
        if is_final then
          let this := this.dispatchData env (this.receive_buffer.readableSlice 0) kind
          return ({ this.clearReceiveBuffers false with message_is_compressed := false },
            data.length)
        else return (this, data.length)
      else
        return ({ this with
          receive_pending_chunk_len := this.receive_pending_chunk_len - left_in_fragment },
          data.length)

/-- `terminate` and the end of the loop. -/
def refuse (l : Receiving) (code : ErrorCode) :
    Option (WebSocket tmpLen × Receiving × Flow) :=
  some (this.terminate code, { l with terminated := true }, .break)

/-- The rest of `need_header` once the header is accepted. -/
def startBody (l : Receiving) (need_compression : Bool) :
    Option (WebSocket tmpLen × Receiving × Flow) := do
  let this :=
    if l.receiving_type = .Text ∨ l.receiving_type = .Binary then
      { this with
        message_is_compressed := need_compression
        receiving_compressed := need_compression }
    else if l.receiving_type = .Continue then
      { this with receiving_compressed := this.message_is_compressed }
    else this
  if l.receive_body_remain = 0 ∧ l.receive_state = .need_body ∧ l.is_final then
    -- an empty message, or the end of one
    let (this, _) ← this.consume env [] l.receive_body_remain l.last_receive_data_type l.is_final
    let this := { this with receiving_compressed := false, message_is_compressed := false }
    let l := { l with receive_state := .need_header, is_fragmented := false }
    return (this, l, if l.data = [] then .break else .again)
  else return (this, l, .again)

/-- The header that `first` and `second` make. -/
def acceptHeader (l : Receiving) (first second : UInt8) :
    Option (WebSocket tmpLen × Receiving × Flow) :=
  let parsed := parseWebSocketHeader first second
  let this := { this with header_fragment := none }
  let l := { l with
    receive_state := parsed.state
    receiving_type := parsed.receiving_type
    receive_body_remain := parsed.payload_length
    is_fragmented := parsed.is_fragmented
    is_final := parsed.is_final }
  let opcode := parsed.receiving_type
  let data := opcode = .Text ∨ opcode = .Binary
  if opcode = .Continue ∧ this.receiving_is_final then this.refuse l .unexpected_opcode
  else if data ∧ ¬ this.receiving_is_final then this.refuse l .unexpected_opcode
  else
    let this :=
      if opcode = .Continue ∨ data then { this with receiving_is_final := parsed.is_final }
      else this
    let l := if data then { l with last_receive_data_type := opcode } else l
    if opcode.isControl ∧ l.is_fragmented then this.refuse l .control_frame_is_fragmented
    else
      match opcode with
      | .Continue | .Text | .Binary | .Ping | .Pong | .Close =>
        if parsed.need_compression ∧ this.deflate = none then
          this.refuse l .compression_unsupported
        else if parsed.need_compression ∧ opcode.isControl then
          this.refuse l .invalid_control_frame
        else this.startBody env l parsed.need_compression
      | _ => this.refuse l .unsupported_control_frame

/-- Two bytes of a header. -/
def needHeader (l : Receiving) : Option (WebSocket tmpLen × Receiving × Flow) :=
  match this.header_fragment, l.data with
  | _, [] => none
  | none, [first] => some ({ this with header_fragment := some first }, l, .break)
  | some first, second :: data => this.acceptHeader env { l with data := data } first second
  | none, first :: second :: data => this.acceptHeader env { l with data := data } first second

/-- A length behind the header. -/
def extendedPayloadLength (l : Receiving) (byte_size : ℕ) :
    Option (WebSocket tmpLen × Receiving × Flow) :=
  if l.data = [] then some (this, l, .break)
  else do
    let total_received := min (byte_size - this.payload_length_frame_len) l.data.length
    let payload_length_frame_bytes ← splice this.payload_length_frame_bytes
      this.payload_length_frame_len (l.data.take total_received)
    let this := { this with
      payload_length_frame_bytes := payload_length_frame_bytes
      payload_length_frame_len := this.payload_length_frame_len + total_received }
    let l := { l with data := l.data.drop total_received }
    if this.payload_length_frame_len < byte_size then return (this, l, .break)
    else
      let bytes ← slice this.payload_length_frame_bytes 0 byte_size
      let this := { this with payload_length_frame_len := 0 }
      let l := { l with receive_body_remain := readInt bytes, receive_state := .need_body }
      if l.receive_body_remain = 0 then this.refuse l .invalid_control_frame
      else return (this, l, .again)

/-- What has come of a ping or a pong to its place behind the room for a header; `true` when it is
all there. -/
def receiveControl (l : Receiving) : Option (WebSocket tmpLen × Receiving × Bool) := do
  let total_received := min this.ping_len (l.receive_body_remain + l.data.length)
  let received := l.data.take (total_received - l.receive_body_remain)
  let ping_frame_bytes ← splice this.ping_frame_bytes (6 + l.receive_body_remain) received
  let l := { l with
    receive_body_remain := total_received
    data := l.data.drop received.length }
  return ({ this with ping_frame_bytes := ping_frame_bytes }, l,
    this.ping_len ≤ l.receive_body_remain)

/-- A ping, whose payload goes back. -/
def ping (l : Receiving) : Option (WebSocket tmpLen × Receiving × Flow) :=
  if !this.ping_received ∧ l.receive_body_remain > 125 then this.refuse l .invalid_control_frame
  else do
    let (this, l) :=
      if this.ping_received then (this, l)
      else ({ this with ping_len := l.receive_body_remain, ping_received := true },
        { l with receive_body_remain := 0 })
    let (this, l, complete) ← this.receiveControl l
    if !complete then return (this, l, .break)
    else
      let ping_data ← slice this.ping_frame_bytes 6 this.ping_len
      let this := this.dispatchData env ping_data .Ping
      let l := { l with
        receive_state := .need_header
        receive_body_remain := 0
        receiving_type := l.last_receive_data_type }
      let (this, _) ← { this with ping_received := false }.sendPong env
      return (this, l, if l.data = [] then .break else .again)

/-- A pong, whose payload is dropped. -/
def pong (l : Receiving) : Option (WebSocket tmpLen × Receiving × Flow) :=
  if !this.pong_received ∧ l.receive_body_remain > 125 then this.refuse l .invalid_control_frame
  else do
    let (this, l) :=
      if this.pong_received then (this, l)
      else ({ this with ping_len := l.receive_body_remain, pong_received := true },
        { l with receive_body_remain := 0 })
    let (this, l, complete) ← this.receiveControl l
    if !complete then return (this, l, .break)
    else
      let pong_data ← slice this.ping_frame_bytes 6 this.ping_len
      let this := this.dispatchData env pong_data .Pong
      let l := { l with
        receive_state := .need_header
        receive_body_remain := 0
        receiving_type := l.last_receive_data_type }
      return ({ this with pong_received := false }, l, if l.data = [] then .break else .again)

/-- As much of a payload as has come. -/
def needBody (l : Receiving) : Option (WebSocket tmpLen × Receiving × Flow) := do
  let to_consume := min l.receive_body_remain l.data.length
  let (this, consumed) ← this.consume env (l.data.take to_consume) l.receive_body_remain
    l.last_receive_data_type l.is_final
  let l := { l with
    receive_body_remain := l.receive_body_remain - consumed
    data := l.data.drop to_consume }
  let l :=
    if l.receive_body_remain = 0 then
      { l with receive_state := .need_header, is_fragmented := false }
    else l
  return (this, l, if l.data = [] then .break else .again)

/-- The code that the JavaScript side is told. -/
def closeCode (code : ℕ) : ℕ :=
  let code := if code = 1001 then 1000 else code
  if code < 1000 ∨ (code ≥ 1004 ∧ code < 1007) ∨ (code ≥ 1016 ∧ code ≤ 2999) then 1002 else code

/-- What has come of the body of a close frame to its place, and the answer once it is all there. -/
def bufferClose (l : Receiving) : Option (WebSocket tmpLen × Receiving × Flow) := do
  let to_copy := min l.data.length (this.ping_len - l.receive_body_remain)
  let ping_frame_bytes ← splice this.ping_frame_bytes (6 + l.receive_body_remain)
    (l.data.take to_copy)
  let this := { this with ping_frame_bytes := ping_frame_bytes }
  let l := { l with
    receive_body_remain := l.receive_body_remain + to_copy
    data := l.data.drop to_copy }
  if l.receive_body_remain < this.ping_len then return (this, l, .break)
  else
    let this := { this with close_received := true }
    let close_data ← slice this.ping_frame_bytes 6 this.ping_len
    let this ← if this.ping_len ≥ 2 then
        this.sendCloseWithBody env (closeCode (readInt (close_data.take 2))) (close_data.drop 2)
      else this.sendClose env
    return ({ this with close_frame_buffering := false }, { l with terminated := true }, .break)

/-- The state `close`. -/
def receiveClose (l : Receiving) : Option (WebSocket tmpLen × Receiving × Flow) :=
  if l.receive_body_remain = 1 ∨ l.receive_body_remain > 125 then
    this.refuse l .invalid_control_frame
  else if l.receive_body_remain > 0 then
    if this.close_frame_buffering then this.bufferClose env l
    else
      bufferClose env
        { this with ping_len := l.receive_body_remain, close_frame_buffering := true }
        { l with receive_body_remain := 0 }
  else do
    let this ← { this with close_received := true }.sendClose env
    return (this, { l with terminated := true }, .break)

/-- One turn of the receive loop. -/
def turn (l : Receiving) : Option (WebSocket tmpLen × Receiving × Flow) :=
  match l.receive_state with
  | .need_header => this.needHeader env l
  | .need_mask => this.refuse l .unexpected_mask_from_server
  | .extended_payload_length_64 => this.extendedPayloadLength l 8
  | .extended_payload_length_16 => this.extendedPayloadLength l 2
  | .ping => this.ping env l
  | .pong => this.pong env l
  | .need_body => this.needBody env l
  | .close => this.receiveClose env l
  | .fail => this.refuse l .unsupported_control_frame

/-- `n` bounds the turns. -/
def loop : ℕ → WebSocket tmpLen → Receiving → Option (WebSocket tmpLen × Receiving)
  | 0, _, _ => none
  | n + 1, this, l => do
    let (this, l, flow) ← this.turn env l
    match flow with
    | .break => return (this, l)
    | .again => loop n this l

/-- What is deferred to the end of `handleData`. -/
def settle (l : Receiving) : WebSocket tmpLen :=
  if l.terminated then { this with close_received := true }
  else
    { this with
      receive_state := l.receive_state
      receiving_type := l.last_receive_data_type
      receive_body_remain := l.receive_body_remain }

/-- `handleData` once nothing is left of the initial data. A turn that does not end the loop reads a
byte or is one of two that read none. -/
def receive (data : List UInt8) : Option (WebSocket tmpLen) := do
  let (this, l) ← loop env (3 * data.length + 3) this {
    data := data
    receive_state := this.receive_state
    receiving_type := this.receiving_type
    receive_body_remain := this.receive_body_remain
    is_final := this.receiving_is_final
    last_receive_data_type := this.receiving_type }
  return this.settle l

/-- `initial_data` is what came with the handshake. -/
def handleWithoutDeinit (initial_data : List UInt8) : Option (WebSocket tmpLen) :=
  let this := { this with initial_data_handler := none }
  if this.outgoing_websocket ∧ (!this.tcp.isClosed ∨ this.proxy_tunnel.isSome) then
    if this.close_received then some this else this.receive env initial_data
  else some this

/-- What comes from the socket, after what came with the handshake. -/
def handleData (data : List UInt8) : Option (WebSocket tmpLen) :=
  if this.close_received then some this
  else
    match this.initial_data_handler with
    | some initial_data => do
      let this ← this.handleWithoutDeinit env initial_data
      if !this.outgoing_websocket ∨ !this.hasTCP then return this
      else this.receive env data
    | none => this.receive env data

/-- One piece after another. -/
def handleAll (calls : List (List UInt8)) : Option (WebSocket tmpLen) :=
  calls.foldlM (fun this data => this.handleData env data) this

end WebSocket

end Cruller.Ws
