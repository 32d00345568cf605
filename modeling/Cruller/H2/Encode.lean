import Cruller.H2.Session

/-!
# Requests going out

`h2_client/encode.zig` and `ClientSession.attach`: a new stream, its header block and its body
under both flow-control windows. The encoder's own tables are not the decoder's, so the encoded
fields come in as an answer.
-/

namespace Cruller.H2

/-- `original_request_body`; of a stream the bytes that its buffer holds, and whether it ended. -/
inductive RequestBody where
  | bytes (body : List UInt8)
  | stream (data : List UInt8) (ended : Bool)
deriving DecidableEq, Repr

/-- `encoded` is what `encodeHeader` makes of the fields, or its failure. -/
structure RequestAnswers where
  encoded : Option (List UInt8) := some []
  expectContinue : Bool := false
  body : RequestBody := .bytes []

def clientPrefaceSize : ℕ := 24

def settingsEnablePush : ℕ := 2

def settingsInitialWindowSize : ℕ := 4

def settingsMaxHeaderListSize : ℕ := 6

def encodeSetting (type value : ℕ) : List UInt8 :=
  [UInt8.ofNat (type / 2 ^ 8), UInt8.ofNat type] ++ beBytes32 value

/-- `rest` in groups of seven bits; 32 bits have at most five. -/
def sizeUpdateTail : ℕ → ℕ → List UInt8
  | 0, rest => [UInt8.ofNat rest]
  | fuel + 1, rest =>
    if rest ≥ 128 then UInt8.ofNat (rest % 256 ||| 0x80) :: sizeUpdateTail fuel (rest / 2 ^ 7)
    else [UInt8.ofNat rest]

/-- A dynamic table size update, with a prefix of five bits. -/
def encodeHpackTableSizeUpdate (value : ℕ) : List UInt8 :=
  if value < 31 then [UInt8.ofNat (0x20 ||| value)]
  else UInt8.ofNat (0x20 ||| 31) :: sizeUpdateTail 5 (value - 31)

namespace Session

variable {H : Type}

/-- The preface, the settings and the grant for the connection. -/
def writePreface (s : Session H) : Session H :=
  let s := { s with writeBuffer := s.writeBuffer + clientPrefaceSize }
  let s := s.writeFrame .settings 0 0 (encodeSetting settingsEnablePush 0
    ++ (encodeSetting settingsInitialWindowSize localInitialWindowSize
    ++ encodeSetting settingsMaxHeaderListSize localMaxHeaderListSize))
  { s.writeWindowUpdate 0 (localInitialWindowSize - defaultWindowSize) with prefaceSent := true }

/-- The frames of a header block. A frame takes at least one byte of it unless it is empty. -/
def writeHeaderBlockLoop (streamId : ℕ) (endStream : Bool) :
    ℕ → Session H → List UInt8 → Bool → Session H
  | 0, s, _, _ => s
  | fuel + 1, s, remaining, first =>
    let chunk := remaining.take (min remaining.length s.remoteMaxFrameSize)
    let remaining := remaining.drop chunk.length
    let last := remaining.length = 0
    let flags := (if last then flagEndHeaders else 0)
      ||| (if first ∧ endStream then flagEndStream else 0)
    let s := s.writeFrame (if first then .headers else .continuation) flags streamId chunk
    if last then s else writeHeaderBlockLoop streamId endStream fuel s remaining false

/-- HEADERS and as many CONTINUATIONs as the block needs. -/
def writeHeaderBlock (s : Session H) (streamId : ℕ) (block : List UInt8) (endStream : Bool) :
    Session H :=
  writeHeaderBlockLoop streamId endStream (block.length + 1) s block true

/-- One DATA frame; it takes its bytes from both windows. -/
def writeDataFrame (s : Session H) (stream : Stream) (chunk : List UInt8) (flags : UInt8) :
    Session H × Stream :=
  ({ s.writeFrame .data flags stream.id chunk with
      connSendWindow := s.connSendWindow - chunk.length },
    { stream with sendWindow := stream.sendWindow - chunk.length })

/-- The loop of `writeDataWindowed`. A frame takes at least one byte unless it is the last. -/
def writeDataLoop (endStream : Bool) (cap : ℕ) :
    ℕ → Session H → Stream → List UInt8 → ℕ → Session H × Stream × ℕ
  | 0, s, stream, _, consumed => (s, stream, consumed)
  | fuel + 1, s, stream, remaining, consumed =>
    let window := (min stream.sendWindow s.connSendWindow).toNat
    if remaining.length > 0 ∧ window = 0 then (s, stream, consumed)
    else if remaining.length > 0 ∧ s.writeBuffer ≥ writeBufferHighWater then (s, stream, consumed)
    else if consumed ≥ cap ∧ remaining.length > 0 then (s, stream, consumed)
    else
      let chunkLen := min remaining.length (min s.remoteMaxFrameSize window)
      let last := chunkLen = remaining.length
      let flags := if last ∧ endStream then flagEndStream else 0
      let (s, stream) := s.writeDataFrame stream (remaining.take chunkLen) flags
      let consumed := consumed + chunkLen
      if last then (s, stream, consumed)
      else writeDataLoop endStream cap fuel s stream (remaining.drop chunkLen) consumed

/-- As much of the body as the windows and `cap` admit. -/
def writeDataWindowed (s : Session H) (stream : Stream) (data : List UInt8) (endStream : Bool)
    (cap : ℕ) : Session H × Stream × ℕ :=
  writeDataLoop endStream cap (data.length + 1) s stream data 0

/-- The session, the stream and how many bytes of a streamed body went out. -/
def drainSendBody (s : Session H) (stream : Stream) (body : RequestBody) (cap : ℕ) :
    Session H × Stream × ℕ :=
  if stream.localClosed ∨ stream.awaitingContinue ∨ stream.fatalError.isSome then (s, stream, 0)
  else if stream.client.isNone then (s, stream, 0)
  else match body with
    | .bytes _ =>
      let (s, stream, sent) := s.writeDataWindowed stream stream.pendingBody true cap
      let stream := { stream with pendingBody := stream.pendingBody.drop sent }
      if stream.pendingBody.length = 0 then (s, stream.sentEndStream, sent) else (s, stream, sent)
    | .stream data ended =>
      if data.length = 0 ∧ ¬ ended then (s, stream, 0)
      else
        let (s, stream, sent) := s.writeDataWindowed stream data ended cap
        if sent = data.length ∧ ended then (s, stream.sentEndStream, sent) else (s, stream, sent)

/-- One stream's turn: at most a slice of its body, and whether anything came of it. -/
def drainTurn (s : Session H) (stream : Stream) (body : RequestBody) (slice : ℕ) :
    Session H × Bool :=
  if stream.localClosed ∨ stream.sendWindow ≤ 0 then (s, false)
  else
    let (t, stream, _) := s.drainSendBody stream body slice
    (t.put stream, t.connSendWindow ≠ s.connSendWindow ∨ stream.localClosed)

/-- The turns of one pass; a body is what the stream's buffer holds when its turn comes. -/
def drainPass (slice : ℕ) (bodies : ℕ → RequestBody) :
    List ℕ → Session H → Bool → Session H × Bool
  | [], s, progressed => (s, progressed)
  | id :: rest, s, progressed =>
    match s.find id with
    | none => drainPass slice bodies rest s progressed
    | some stream =>
      let (s, moved) := s.drainTurn stream (bodies id) slice
      drainPass slice bodies rest s (progressed || moved)

/-- The streams in turn, while anything gets written. -/
def drainSendBodiesLoop (slice : ℕ) (bodies : ℕ → ℕ → RequestBody) : ℕ → Session H → Session H
  | 0, s => s
  | fuel + 1, s =>
    if s.connSendWindow > 0 ∧ s.writeBuffer < writeBufferHighWater then
      let (s, progressed) := drainPass slice (bodies fuel) (s.streams.map Stream.id) s false
      if progressed then drainSendBodiesLoop slice bodies fuel s else s
    else s

/-- Passes over all streams. One that leads to another takes from the connection's window or ends a
stream. -/
def drainSendBodies (s : Session H) (bodies : ℕ → ℕ → RequestBody) : Session H :=
  drainSendBodiesLoop s.remoteMaxFrameSize bodies
    (s.connSendWindow.toNat + s.streams.length + 1) s

/-- The request of a new stream; `none` when its fields cannot be encoded. -/
def writeRequest (s : Session H) (stream : Stream) (r : RequestAnswers) :
    Session H × Option Stream :=
  let update := (s.pendingHpackEncCapacity.map encodeHpackTableSizeUpdate).getD []
  let s := { s with pendingHpackEncCapacity := none }
  match r.encoded with
  | none => (s, none)
  | some fields =>
    let inline := match r.body with
      | .bytes body => body
      | .stream _ _ => []
    let streaming : Bool := match r.body with
      | .bytes _ => false
      | .stream _ _ => true
    let stream :=
      if r.expectContinue ∧ (inline.length > 0 ∨ streaming) then
        { stream with awaitingContinue := true }
      else stream
    let s := s.writeHeaderBlock stream.id (update ++ fields) (inline.length = 0 ∧ ¬ streaming)
    if inline.length > 0 then
      let stream := { stream with pendingBody := inline }
      let (s, stream, _) := s.drainSendBody stream r.body (2 ^ 64 - 1)
      (s, some stream)
    else if streaming then (s, some stream)
    else (s, some stream.sentEndStream)

/-- A request that cannot be encoded leaves the encoder's table ahead of the server's; its stream
was never opened there. -/
def attach (s : Session H) (client : ℕ) (r : RequestAnswers) : Session H :=
  let stream : Stream :=
    { id := s.nextStreamId
      client := some client
      sendWindow := min s.remoteInitialWindowSize maxWindowSize }
  let s := { s with
    nextStreamId := min (s.nextStreamId + 2) maxStreamId
    streams := s.streams ++ [stream] }
  let s := if s.prefaceSent then s else s.writePreface
  match s.writeRequest stream r with
  | (s, none) => { s with encoderPoisoned := true }.swapRemove stream.id
  | (s, some stream) => s.put stream

end Session

end Cruller.H2
