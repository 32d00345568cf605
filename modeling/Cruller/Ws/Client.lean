import Cruller.Collections.FifoSlices
import Cruller.Text.TextEncoder
import Cruller.Ws.Header

/-!
# The WebSocket client

The client behind the handshake: what it holds, how it ends, and how its frames go out. They are
written to the socket, or through the tunnel of a proxy, which encrypts them; what is not taken at
once waits in `send_buffer`. What the transport answers, the masks and the compressor come from the
environment. A failed assertion is `none`.
-/

namespace Cruller.Ws

open Text (Simdutf copyU8IntoU16)

/-- What a client can fail with. -/
inductive ErrorCode where
  | cancel
  | invalid_response
  | expected_101_status_code
  | missing_upgrade_header
  | missing_connection_header
  | missing_websocket_accept_header
  | invalid_upgrade_header
  | invalid_connection_header
  | invalid_websocket_version
  | mismatch_websocket_accept_header
  | missing_client_protocol
  | mismatch_client_protocol
  | timeout
  | closed
  | failed_to_write
  | failed_to_connect
  | headers_too_large
  | ended
  | failed_to_allocate_memory
  | control_frame_is_fragmented
  | invalid_control_frame
  | compression_unsupported
  | invalid_compressed_data
  | compression_failed
  | unexpected_mask_from_server
  | expected_control_frame
  | unsupported_control_frame
  | unexpected_opcode
  | invalid_utf8
  | tls_handshake_failed
  | message_too_big
  | protocol_error
  | proxy_connect_failed
  | proxy_authentication_required
  | proxy_connection_refused
  | proxy_tunnel_failed
deriving DecidableEq

/-- The four bytes of a mask. -/
abbrev Mask := Fin 4 → UInt8

/-- `fillWithSkipMask`. -/
def Mask.fill (mask : Mask) (input : List UInt8) : List UInt8 :=
  input.mapIdx fun i byte => byte ^^^ mask (Fin.ofNat 4 i)

def Mask.bytes (mask : Mask) : List UInt8 := [mask 0, mask 1, mask 2, mask 3]

inductive DecompressError where
  | InflateFailed
  | TooLarge
  | OutOfMemory
deriving DecidableEq

/-- The answers of what is around the client. A write takes a number of bytes or fails, and a tunnel
then may hold encrypted bytes back. The compressor's windows are what has gone through it so far. -/
structure Env where
  write : ℕ → List UInt8 → Option (ℕ × Bool)
  write_le : ∀ {n bytes wrote backpressure}, write n bytes = some (wrote, backpressure) →
    wrote ≤ bytes.length
  entropySlice : ℕ → Mask
  simdutf : Simdutf
  validate_utf8 : List UInt8 → Bool
  compress : List (List UInt8) → List UInt8 → Option (List UInt8)
  decompress : List (List UInt8) → List UInt8 → Except DecompressError (List UInt8)

/-- A text as it is handed to JavaScript. -/
inductive ReceivedText where
  | latin1 (slice : List UInt8)
  | utf16 (slice : List UInt16)
deriving DecidableEq

/-- Its UTF-16 units. -/
def ReceivedText.units : ReceivedText → List UInt16
  | latin1 slice => copyU8IntoU16 slice
  | utf16 slice => slice

/-- A call of `CppWebSocket`. -/
inductive Dispatch where
  | didReceiveText (clone : Bool) (text : ReceivedText)
  | didReceiveBytes (data : List UInt8) (op : Opcode)
  | didClose (code : ℕ) (reason : List UInt8)
  | didAbruptClose (code : ErrorCode)
deriving DecidableEq

structure Socket where
  isClosed : Bool := false
  isShutdown : Bool := false
deriving DecidableEq

structure WebSocketProxyTunnel where
  hasBackpressure : Bool := false
deriving DecidableEq

/-- What has gone through the compressor each way. -/
structure WebSocketDeflate where
  compressed : List (List UInt8) := []
  decompressed : List (List UInt8) := []
deriving DecidableEq

/-- How many writes were made, and the bytes that were taken. -/
structure Transport where
  writes : ℕ := 0
  taken : List UInt8 := []
deriving DecidableEq

/-- A dynamic fifo of bytes; how many fit into half a page is of no consequence. -/
abbrev ByteFifo (tmpLen : ℕ+) := LinearFifo ⟨.Dynamic, tmpLen, tmpLen.pos⟩ UInt8

/-- `outgoing_websocket` says that the `CppWebSocket` is still held; `dispatched` are the calls it
got. -/
structure WebSocket (tmpLen : ℕ+) where
  tcp : Socket := {}
  outgoing_websocket : Bool := true
  dispatched : List Dispatch := []
  receive_state : ReceiveState := .need_header
  receiving_type : Opcode := .ResB
  receiving_is_final : Bool := true
  ping_frame_bytes : List UInt8 := List.replicate (128 + 6) 0
  ping_len : ℕ := 0
  ping_received : Bool := false
  pong_received : Bool := false
  close_received : Bool := false
  close_frame_buffering : Bool := false
  receive_body_remain : ℕ := 0
  receive_pending_chunk_len : ℕ := 0
  receive_buffer : ByteFifo tmpLen := .initDynamic
  send_buffer : ByteFifo tmpLen := .initDynamic
  header_fragment : Option UInt8 := none
  payload_length_frame_bytes : List UInt8 := List.replicate 8 0
  payload_length_frame_len : ℕ := 0
  initial_data_handler : Option (List UInt8) := none
  deflate : Option WebSocketDeflate := none
  receiving_compressed : Bool := false
  message_is_compressed : Bool := false
  proxy_tunnel : Option WebSocketProxyTunnel := none
  transport : Transport := {}
  /-- How many masks were drawn. -/
  masks : ℕ := 0

namespace WebSocket

variable {tmpLen : ℕ+} (env : Env) (this : WebSocket tmpLen)

/-- `init`, and `initWithTunnel`, which leaves the socket detached. -/
def init (proxy_tunnel : Option WebSocketProxyTunnel) (deflate_params : Bool)
    (buffered_data : List UInt8) : Option (WebSocket tmpLen) := do
  let send_buffer ← LinearFifo.initDynamic.ensureTotalCapacity 2048
  let receive_buffer ← LinearFifo.initDynamic.ensureTotalCapacity 2048
  return {
    tcp := { isClosed := proxy_tunnel.isSome }
    send_buffer := send_buffer
    receive_buffer := receive_buffer
    initial_data_handler := if buffered_data = [] then none else some buffered_data
    deflate := if deflate_params then some {} else none
    proxy_tunnel := proxy_tunnel }

/-- The bytes received that wait for more are dropped. -/
def clearReceiveBuffers (free : Bool) : WebSocket tmpLen :=
  { this with
    receive_buffer := {
      buf := if free then [] else this.receive_buffer.buf
      head := 0
      count := 0 }
    receive_pending_chunk_len := 0
    receive_body_remain := 0 }

/-- The bytes that wait to be sent are dropped. -/
def clearSendBuffers (free : Bool) : WebSocket tmpLen :=
  { this with
    send_buffer := {
      buf := if free then [] else this.send_buffer.buf
      head := 0
      count := 0 } }

/-- Everything that was received or waits to be sent is dropped. -/
def clearData : WebSocket tmpLen :=
  { (this.clearReceiveBuffers true).clearSendBuffers true with
    ping_received := false
    pong_received := false
    ping_len := 0
    close_frame_buffering := false
    receive_pending_chunk_len := 0
    receiving_compressed := false
    message_is_compressed := false
    deflate := none
    proxy_tunnel := none }

/-- The JavaScript side is told. -/
def dispatch (call : Dispatch) : WebSocket tmpLen :=
  { this with dispatched := this.dispatched ++ [call] }

/-- The end without a close frame; it is told once. -/
def dispatchAbruptClose (code : ErrorCode) : WebSocket tmpLen :=
  if this.outgoing_websocket then
    { this.dispatch (.didAbruptClose code) with outgoing_websocket := false }
  else this

/-- The end with a close frame; it is told once. -/
def dispatchClose (code : ℕ) (reason : List UInt8) : WebSocket tmpLen :=
  if this.outgoing_websocket then
    { this.dispatch (.didClose code reason) with outgoing_websocket := false }
  else this

/-- The connection is given up. -/
def cancel : WebSocket tmpLen :=
  let had_tunnel := this.proxy_tunnel.isSome
  let this := this.clearData
  let this := { this with tcp := { this.tcp with isClosed := true } }
  if had_tunnel then this.dispatchAbruptClose .ended else this

/-- The connection is given up, and the JavaScript side told why. -/
def fail (code : ErrorCode) : WebSocket tmpLen :=
  let this :=
    if this.outgoing_websocket then
      { this.dispatch (.didAbruptClose code) with outgoing_websocket := false }
    else this
  this.cancel

def terminate (code : ErrorCode) : WebSocket tmpLen := this.fail code

def hasTCP : Bool :=
  this.proxy_tunnel.isSome || (!this.tcp.isClosed && !this.tcp.isShutdown)

/-- Something waits to be written. -/
def hasBackpressure : Bool :=
  if this.send_buffer.count > 0 then true
  else
    match this.proxy_tunnel with
    | some tunnel => tunnel.hasBackpressure
    | none => false

/-- `tunnel.write` or `tcp.write`, with the number of bytes that were taken. -/
def write (bytes : List UInt8) : WebSocket tmpLen × Option ℕ :=
  match env.write this.transport.writes bytes with
  | none => ({ this with transport.writes := this.transport.writes + 1 }, none)
  | some (wrote, backpressure) =>
    ({ this with
      transport := ⟨this.transport.writes + 1, this.transport.taken ++ bytes.take wrote⟩
      proxy_tunnel := this.proxy_tunnel.map fun _ => ⟨backpressure⟩ }, some wrote)

/-- Out of `send_buffer` as far as it is readable in one piece. -/
def sendBuffer : Option (WebSocket tmpLen × Bool) :=
  let out_buf := this.send_buffer.readableSlice 0
  if out_buf = [] then none
  else if this.proxy_tunnel = none ∧ this.tcp.isClosed then some (this, false)
  else
    match this.write env out_buf with
    | (this, none) => some (this.terminate .failed_to_write, false)
    | (this, some wrote) =>
      some ({ this with send_buffer := this.send_buffer.discard wrote }, true)

/-- `.raw` is what goes out as it is. -/
inductive Copy where
  | utf16 (slice : List UInt16)
  | latin1 (slice : List UInt8)
  | bytes (slice : List UInt8)
  | raw (slice : List UInt8)
deriving DecidableEq

namespace Copy

/-- As UTF-8, a surrogate without its pair as the replacement character. -/
def content : Copy → List UInt8
  | utf16 slice => Utf8.bytes (Utf16.unitDecoder.text none slice)
  | latin1 slice => slice.flatMap fun char => Utf8.encode char.toNat
  | bytes slice => slice
  | raw slice => slice

def isRaw : Copy → Bool
  | raw _ => true
  | _ => false

/-- What `copy` and `copyCompressed` put together. -/
def frame (compressed : Bool) (opcode : Opcode) (mask : Mask) (content : List UInt8) :
    List UInt8 :=
  let header : WebsocketHeader := {
    len := WebsocketHeader.packLength content.length
    mask := true
    opcode := opcode
    compressed := compressed }
  header.slice ++ writeInt (WebsocketHeader.lengthByteCount content.length) content.length
    ++ mask.bytes ++ mask.fill content

end Copy

/-- `Mask.fill` draws the mask. -/
def nextMask : Mask := env.entropySlice this.masks

/-- `Copy.copy`. -/
def copy (bytes : Copy) (opcode : Opcode) : WebSocket tmpLen × List UInt8 :=
  match bytes with
  | .raw slice => (this, slice)
  | _ => ({ this with masks := this.masks + 1 },
    Copy.frame false opcode (this.nextMask env) bytes.content)

/-- Behind what waits, and out if the frame may be written at once. -/
def buffer (bytes : List UInt8) (do_write : Bool) : Option (WebSocket tmpLen × Bool) := do
  let send_buffer ← this.send_buffer.writeWithSize bytes
  let this := { this with send_buffer := send_buffer }
  if do_write then this.sendBuffer env else return (this, true)

/-- A frame, as it is. -/
def sendDataUncompressed (bytes : Copy) (do_write : Bool) (opcode : Opcode) :
    Option (WebSocket tmpLen × Bool) :=
  let (this, encoded) := this.copy env bytes opcode
  if encoded = [] then none else this.buffer env encoded do_write

def MIN_COMPRESS_SIZE : ℕ := 860

/-- A frame that is worth compressing. -/
def shouldCompress (data_len : ℕ) (opcode : Opcode) : Bool :=
  if this.deflate = none then false
  else if opcode ≠ .Text ∧ opcode ≠ .Binary then false
  else if data_len < MIN_COMPRESS_SIZE then false
  else true

/-- A frame, compressed if that is possible. -/
def sendData (bytes : Copy) (do_write : Bool) (opcode : Opcode) :
    Option (WebSocket tmpLen × Bool) :=
  match this.deflate with
  | some deflate =>
    if (opcode = .Text ∨ opcode = .Binary) ∧ !bytes.isRaw then
      let content := bytes.content
      if !this.shouldCompress content.length opcode then
        this.sendDataUncompressed env bytes do_write opcode
      else
        let this := { this with
          deflate := some { deflate with compressed := deflate.compressed ++ [content] } }
        match env.compress deflate.compressed content with
        | none => this.sendDataUncompressed env bytes do_write opcode
        | some compressed =>
          { this with masks := this.masks + 1 }.buffer env
            (Copy.frame true opcode (this.nextMask env) compressed) do_write
    else this.sendDataUncompressed env bytes do_write opcode
  | none => this.sendDataUncompressed env bytes do_write opcode

def copyToSendBuffer (bytes : List UInt8) (do_write : Bool) : Option (WebSocket tmpLen × Bool) :=
  this.sendData env (.raw bytes) do_write .Binary

/-- Bytes of a frame are written, or wait behind others. -/
def enqueueEncodedBytes (bytes : List UInt8) : Option (WebSocket tmpLen × Bool) :=
  if this.proxy_tunnel.isSome ∨ !this.hasBackpressure then
    -- a tunnel is written to whatever waits in `send_buffer`
    match this.write env bytes with
    | (this, none) => some (this.terminate .failed_to_write, false)
    | (this, some wrote) =>
      if wrote < bytes.length then do
        let (this, _) ← this.copyToSendBuffer env (bytes.drop wrote) false
        return (this, true)
      else some (this, true)
  else this.copyToSendBuffer env bytes true

/-- The answer to a ping, with its payload. -/
def sendPong : Option (WebSocket tmpLen × Bool) :=
  if !this.hasTCP then some (this.dispatchAbruptClose .ended, false)
  else do
    let header : WebsocketHeader := {
      len := Fin.ofNat 128 this.ping_len
      mask := true
      opcode := .Pong }
    let to_mask ← slice this.ping_frame_bytes 6 this.ping_len
    let (this, mask) : WebSocket tmpLen × Mask :=
      if to_mask = [] then (this, fun _ => 0)
      else ({ this with masks := this.masks + 1 }, this.nextMask env)
    let encoded := header.slice ++ mask.bytes ++ mask.fill to_mask
    let ping_frame_bytes ← splice this.ping_frame_bytes 0 encoded
    { this with ping_frame_bytes := ping_frame_bytes }.enqueueEncodedBytes env encoded

/-- The body has room for 125 bytes. -/
def sendCloseWithBody (code : ℕ) (body : List UInt8) : Option (WebSocket tmpLen) :=
  if !this.hasTCP then some (this.dispatchAbruptClose .ended).clearData
  else if 125 < body.length then none
  else if body ≠ [] ∧ !env.validate_utf8 body then some (this.terminate .invalid_utf8)
  else do
    let header : WebsocketHeader := {
      len := Fin.ofNat 128 (body.length + 2)
      mask := true
      opcode := .Close }
    let mask := this.nextMask env
    let encoded := header.slice ++ mask.bytes ++ mask.fill (writeInt 2 code ++ body)
    let (this, sent) ← { this with masks := this.masks + 1 }.enqueueEncodedBytes env encoded
    return if sent then this.clearData.dispatchClose code body else this

def sendClose : Option (WebSocket tmpLen) := this.sendCloseWithBody env 1000 []

def stack_frame_size : ℕ := 1024

/-- A small frame that nothing holds back goes out from the stack, any other by `send_buffer`. -/
def writeCopy (bytes : Copy) (small : Bool) (opcode : Opcode) : Option (WebSocket tmpLen) :=
  if !this.hasBackpressure ∧ small then do
    let (this, encoded) := this.copy env bytes opcode
    let (this, _) ← this.enqueueEncodedBytes env encoded
    return this
  else do
    let (this, _) ← this.sendData env bytes (!this.hasBackpressure) opcode
    return this

/-- A frame of bytes. -/
def writeBinaryData (data : List UInt8) (op : ℕ) : Option (WebSocket tmpLen) :=
  if !this.hasTCP ∨ op > 0xF then some (this.dispatchAbruptClose .ended)
  else this.writeCopy env (.bytes data)
    (WebsocketHeader.frameSizeIncludingMask data.length < stack_frame_size) (.enumFromInt op)

/-- `none` is a value that is no blob. An empty blob does not go out from the stack. -/
def writeBlob (blob_value : Option (List UInt8)) (op : ℕ) : Option (WebSocket tmpLen) :=
  if !this.hasTCP ∨ op > 0xF then some (this.dispatchAbruptClose .ended)
  else
    match blob_value with
    | some data => this.writeCopy env (.bytes data)
      (data ≠ [] ∧ WebsocketHeader.frameSizeIncludingMask data.length < stack_frame_size)
      (.enumFromInt op)
    | none => some (this.dispatchAbruptClose .ended)

/-- Of UTF-16 four bytes are reckoned for a unit. -/
def writeString (str : ReceivedText) (op : ℕ) : Option (WebSocket tmpLen) :=
  if !this.hasTCP then some (this.dispatchAbruptClose .ended)
  else
    let opcode := Opcode.enumFromInt (op % 16)
    match str with
    | .latin1 slice => this.writeCopy env (.latin1 slice)
      (slice.length < stack_frame_size ∧
        WebsocketHeader.frameSizeIncludingMask (Copy.latin1 slice).content.length
          < stack_frame_size) opcode
    | .utf16 slice => this.writeCopy env (.utf16 slice) (slice.length * 4 < stack_frame_size)
      opcode

/-- A reason that does not fit into 128 bytes is left out. -/
def close (code : ℕ) (reason : Option (List UInt8)) : Option (WebSocket tmpLen) :=
  if !this.hasTCP then some this
  else
    match reason with
    | some str =>
      if str.length ≤ 128 then this.sendCloseWithBody env code str
      else this.sendCloseWithBody env code []
    | none => this.sendCloseWithBody env code []

/-- `handleWritable` and, in a tunnel, `handleTunnelWritable`. -/
def handleWritable : Option (WebSocket tmpLen) :=
  if this.close_received then some this
  else if this.send_buffer.readableSlice 0 = [] then some this
  else do
    let (this, _) ← this.sendBuffer env
    return this

end WebSocket

end Cruller.Ws
