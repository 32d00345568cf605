import Cruller.H2.Frame
import Cruller.H2.Hpack

/-!
# Sessions and streams

`ClientSession` and `Stream` of `http/h2_client`: the streams of one connection, what is queued for
the socket, and everything that removes a stream. `calls` records what the decoder was called on
and `written` the frames queued, oldest first; no function reads either. A checked cast that fails
ends the program and is `none`.
-/

namespace Cruller.H2

/-- The states of a stream that the client tells apart. -/
inductive StreamState where
  | opened
  | halfClosedLocal
  | halfClosedRemote
  | closed
deriving DecidableEq, Repr

structure HeaderField where
  name : List UInt8
  value : List UInt8
deriving DecidableEq, Repr

/-- One request of a session, and what came of its response. -/
structure Stream where
  id : ℕ
  client : Option ℕ := none
  headerBlock : List UInt8 := []
  bodyBuffer : List UInt8 := []
  decodedBytes : List UInt8 := []
  decodedHeaders : List HeaderField := []
  statusCode : ℕ := 0
  state : StreamState := .opened
  rstDone : Bool := false
  headersReady : Bool := false
  headersEndStream : Bool := false
  awaitingContinue : Bool := false
  fatalError : Option Error := none
  unackedBytes : ℕ := 0
  dataBytesReceived : ℕ := 0
  sendWindow : ℤ
  pendingBody : List UInt8 := []
deriving DecidableEq, Repr

namespace Stream

/-- Nothing more is sent on the stream. -/
def sentEndStream (stream : Stream) : Stream :=
  match stream.state with
  | .opened => { stream with state := .halfClosedLocal }
  | .halfClosedRemote => { stream with state := .closed }
  | _ => stream

/-- Nothing more comes on the stream. -/
def recvEndStream (stream : Stream) : Stream :=
  match stream.state with
  | .opened => { stream with state := .halfClosedRemote }
  | .halfClosedLocal => { stream with state := .closed }
  | _ => stream

def localClosed (stream : Stream) : Bool :=
  stream.state = .halfClosedLocal ∨ stream.state = .closed

def remoteClosed (stream : Stream) : Bool :=
  stream.state = .halfClosedRemote ∨ stream.state = .closed

end Stream

/-- The connection, with what it has decoded and written so far. -/
structure Session (H : Type) where
  hpack : H
  calls : List (List UInt8) := []
  written : List OutFrame := []
  writeBuffer : ℕ := 0
  streams : List Stream := []
  nextStreamId : ℕ := 1
  expectingContinuation : ℕ := 0
  prefaceSent : Bool := false
  settingsReceived : Bool := false
  goawayReceived : Bool := false
  encoderPoisoned : Bool := false
  streamProgressed : Bool := false
  goawayLastStreamId : ℕ := 0
  fatalError : Option Error := none
  orphanHeaderBlock : List UInt8 := []
  remoteMaxFrameSize : ℕ := defaultMaxFrameSize
  remoteMaxConcurrentStreams : ℕ := 100
  remoteInitialWindowSize : ℕ := defaultWindowSize
  pendingHpackEncCapacity : Option ℕ := none
  connSendWindow : ℤ := defaultWindowSize
  connUnackedBytes : ℕ := 0
deriving DecidableEq, Repr

namespace Session

variable {H : Type}

/-- A fatal error ends the reading. -/
def fail (s : Session H) (e : Error) : Session H :=
  { s with fatalError := some e }

/-- `streams.get`. -/
def find (s : Session H) (id : ℕ) : Option Stream :=
  s.streams.find? fun stream => stream.id = id

/-- The stream is written back among the others. -/
def put (s : Session H) (stream : Stream) : Session H :=
  { s with streams := s.streams.map fun old => if old.id = stream.id then stream else old }

/-- `swapRemove`: the last stream takes the place of the removed one. -/
def swapRemove (s : Session H) (id : ℕ) : Session H :=
  match s.streams.findIdx? fun stream => stream.id = id, s.streams.getLast? with
  | some index, some last => { s with streams := (s.streams.set index last).dropLast }
  | _, _ => s

/-- One more stream can be opened. -/
def hasHeadroom (s : Session H) : Bool :=
  !s.goawayReceived && !s.encoderPoisoned && s.fatalError.isNone
    && s.streams.length < s.remoteMaxConcurrentStreams && s.nextStreamId < maxStreamId

/-- A frame behind what is waiting to be written. -/
def writeFrame (s : Session H) (type : FrameType) (flags : UInt8) (streamId : ℕ)
    (payload : List UInt8) : Session H :=
  { s with
    written := s.written ++ [{ type, flags, streamId, payload }]
    writeBuffer := s.writeBuffer + frameHeaderSize + payload.length }

def writeWindowUpdate (s : Session H) (streamId increment : ℕ) : Session H :=
  s.writeFrame .windowUpdate 0 streamId (beBytes32 increment)

/-- `Stream.rst`: a stream that is closed is not reset again. -/
def rst (s : Session H) (stream : Stream) (code : ErrorCode) : Session H × Stream :=
  if stream.rstDone ∨ stream.state = .closed then (s, stream)
  else (s.writeFrame .rstStream 0 stream.id (beBytes32 code.toNat),
    { stream with rstDone := true, state := .closed })

/-- The socket takes at most what is queued; a failed write is the caller's to report. -/
def flush (s : Session H) (wrote : ℕ) : Session H :=
  { s with writeBuffer := s.writeBuffer - wrote }

/-- A stream gets back the window that it has taken. -/
def replenishStream (s : Session H) (stream : Stream) : Option (Session H) :=
  if localInitialWindowSize / 2 ≤ stream.unackedBytes ∧ ¬ stream.remoteClosed then do
    let increment ← intCastU31 stream.unackedBytes
    some ((s.writeWindowUpdate stream.id increment).put { stream with unackedBytes := 0 })
  else some s

/-- The connection and its streams get back what they have taken. -/
def replenishWindow (s : Session H) : Option (Session H) := do
  let s ←
    (if localInitialWindowSize / 2 ≤ s.connUnackedBytes then do
      let increment ← intCastU31 s.connUnackedBytes
      some { s.writeWindowUpdate 0 increment with connUnackedBytes := 0 }
    else some s)
  s.streams.foldlM replenishStream s

/-- The fragment of a block that is still going on stays behind as the orphan's. -/
def removeStream (s : Session H) (stream : Stream) : Session H :=
  let s :=
    if s.expectingContinuation = stream.id then
      { s with orphanHeaderBlock := stream.headerBlock }
    else s
  s.swapRemove stream.id

/-- The stream is reset and removed; its client fails. -/
def detachWithFailure (s : Session H) (stream : Stream) (wrote : ℕ) : Session H :=
  let (s, stream) := s.rst stream .cancel
  ((s.flush wrote).put { stream with client := none }).removeStream { stream with client := none }

/-- What the client makes of a delivery: `applied` is what became of its headers, and whether no
body follows them; `handled` is what became of the body, and whether there is progress to report. -/
structure DeliverAnswers where
  aborted : Bool := false
  applied : Option Bool := some false
  redirect : Bool := false
  bodyStage : Bool := true
  handled : Option Bool := some false
  isDone : Bool := false

/-- Leave the stream to be removed. -/
def detach (s : Session H) (stream : Stream) : Session H × Bool :=
  (s.put { stream with client := none }, true)

def resetAndDetach (s : Session H) (stream : Stream) : Session H × Bool :=
  let (s, stream) := s.rst stream .cancel
  s.detach stream

/-- The part of `deliverStream` after the headers. -/
def deliverBody (s : Session H) (stream : Stream) (a : DeliverAnswers) : Session H × Bool :=
  if ¬ a.bodyStage then (s.put stream, false)
  else if stream.bodyBuffer.length > 0 then
    let received := { stream with bodyBuffer := [] }
    match a.handled with
    | none => s.resetAndDetach received
    | some report =>
      if stream.remoteClosed then s.detach received
      else if report ∧ a.isDone then s.detach received
      else (s.put received, false)
  else if stream.remoteClosed then s.detach stream
  else (s.put stream, false)

/-- What becomes of a stream when its client is told. -/
def deliverStream (s : Session H) (stream : Stream) (a : DeliverAnswers) : Session H × Bool :=
  if stream.client.isNone then (s, true)
  else if a.aborted then s.resetAndDetach stream
  else if stream.fatalError.isSome then s.detach stream
  else if stream.headersReady then
    let delivered := { stream with headersReady := false }
    match a.applied with
    | none => s.resetAndDetach delivered
    | some finished =>
      if a.redirect then s.resetAndDetach delivered
      else if finished ∨ (stream.remoteClosed ∧ stream.bodyBuffer.length = 0) then
        s.detach delivered
      else s.deliverBody delivered a
  else s.deliverBody stream a

/-- One round of the deliver loop: a finished stream is reset unless it is closed, and removed. -/
def deliver (s : Session H) (id : ℕ) (a : DeliverAnswers) : Session H :=
  match s.find id with
  | none => s
  | some stream =>
    let (s, finished) := s.deliverStream stream a
    if finished then
      match s.find id with
      | none => s
      | some stream =>
        let (s, stream) :=
          if stream.state ≠ .closed then s.rst stream .cancel else (s, stream)
        (s.put stream).removeStream stream
    else s

end Session

end Cruller.H2
