import Cruller.H2.HeaderBlocks
import Cruller.H2.HttpClient

/-!
# A session and its clients

`ClientSession` with the clients that wait for it (`pending_attach`) and those on its streams. A
client is handed to the session once for each time that it is started (`engaged`), and the session
is rid of it when it calls back for the last time or starts it again (`outcomes`). No function reads
either list.
-/

namespace Cruller.H2

/-- Why a client fails. -/
inductive Failure where
  | session (e : Error)
  | aborted
  | contentLengthMismatch
  | metadata
  | body
  | encoding
  | tooManyRedirects
  | closed
deriving DecidableEq, Repr

/-- How the session gets rid of a client. -/
inductive Outcome where
  | result
  | failure (e : Failure)
  | retry
deriving DecidableEq, Repr

/-- A request, and how far its response has come. -/
structure HTTPClient where
  request : Request := {}
  state : InternalState := {}
deriving DecidableEq, Repr

/-- A session with the clients on it and those that wait for it. -/
structure Connection (H : Type) where
  session : Session H
  pendingAttach : List ℕ := []
  delivering : Bool := false
  clients : ℕ → HTTPClient := fun _ => {}
  engaged : List ℕ := []
  outcomes : List (ℕ × Outcome) := []

/-- The socket's and the encoder's answers to `attach`: `flushed` is what the socket took, `none`
when the write failed, and `writable` whether a GOAWAY can still be queued then. -/
structure AttachAnswers where
  request : RequestAnswers := {}
  flushed : Option ℕ := some 0
  writable : Bool := true

/-- What a delivery finds: the client's signals, what becomes of a redirect's location and of the
body's decompression, and where a client that is started again comes to when it finds this session
(`back`: what it asks for then). -/
structure DeliverReplies where
  aborted : Bool := false
  headerProgress : Bool := false
  bodyStreaming : Bool := false
  resolves : Bool := true
  processed : Option ℕ := some 0
  back : Option (Request × AttachAnswers) := none

namespace Session

variable {H : Type}

/-- The clients of the streams. -/
def clients (s : Session H) : List ℕ := s.streams.filterMap Stream.client

end Session

namespace Connection

variable {H : Type}

/-- All the clients that the connection has to answer. -/
def held (c : Connection H) : List ℕ := c.pendingAttach ++ c.session.clients

def setState (c : Connection H) (id : ℕ) (state : InternalState) : Connection H :=
  { c with clients := Function.update c.clients id { c.clients id with state } }

/-- The last that the session has to do with a client. -/
def conclude (c : Connection H) (id : ℕ) (outcome : Outcome) (state : InternalState) :
    Connection H :=
  { c.setState id state with outcomes := c.outcomes ++ [(id, outcome)] }

/-- The state is reset before the callback runs. -/
def failFromH2 (c : Connection H) (id : ℕ) (e : Failure) : Connection H :=
  let state := (c.clients id).state
  if state.stage ≠ .done ∧ state.stage ≠ .fail then c.conclude id (.failure e) {} else c

/-- `start_` takes the client as it is. -/
def retryAfterH2Coalesce (c : Connection H) (id : ℕ) : Connection H :=
  c.conclude id .retry (c.clients id).state

/-- An update that is not the last one changes nothing here. -/
def sendProgressUpdate (c : Connection H) (id : ℕ) : Connection H :=
  if (c.clients id).state.isDone then c.conclude id .result .finished else c

/-- `drainResponseBody`. -/
def drainResponseBody (c : Connection H) (id : ℕ) : Connection H :=
  let state := (c.clients id).state
  if state.stage = .done ∨ state.stage = .fail then c
  else if state.isRedirectPending then c
  else if state.bodyOutLen = 0 then c
  else c.sendProgressUpdate id

/-- Several clients fail, one after the other. -/
def failEach (c : Connection H) (ids : List ℕ) (e : Failure) : Connection H :=
  ids.foldl (fun c id => c.failFromH2 id e) c

/-- Whoever waits or has a stream fails. -/
def onClose (c : Connection H) (e : Failure) : Connection H :=
  let c := { c.failEach c.pendingAttach e with pendingAttach := [] }
  let c := c.failEach c.session.clients e
  { c with session := { c.session with streams := [] } }

/-- The code that GOAWAY carries. -/
def errorCodeFor : Error → ℕ
  | .protocolError => 1
  | .frameSizeError => 6
  | .flowControlError => 3
  | .compressionError => 9
  | .headerListTooLarge | .enhanceYourCalm => 11
  | _ => 2

/-- The session fails, with a GOAWAY where the socket can be written to. -/
def failAll (c : Connection H) (e : Error) (writable : Bool) : Connection H :=
  let s := { c.session with fatalError := some (c.session.fatalError.getD e) }
  let s :=
    if writable then s.writeFrame .goaway 0 0 (beBytes32 0 ++ beBytes32 (errorCodeFor e)) else s
  { c with session := s }.onClose (.session e)

/-- A client gets a stream, or fails with the others when its request cannot be encoded. -/
def attach (c : Connection H) (id : ℕ) (a : AttachAnswers) : Connection H :=
  let c := { c with session := c.session.attach id a.request }
  if a.request.encoded.isNone then
    let c := c.failFromH2 id .encoding
    let c := { c.pendingAttach.foldl retryAfterH2Coalesce c with pendingAttach := [] }
    { c with session := c.session.flush (a.flushed.getD 0) }
  else
    let c := c.setState id { (c.clients id).state with responseStage := .headers }
    match a.flushed with
    | none => c.failAll .writeFailed a.writable
    | some wrote =>
      let c := { c with session := c.session.flush wrote }
      let state := (c.clients id).state
      -- `progressUpdate`, with no redirect that could be pending
      if ¬ (c.clients id).request.streaming then c
      else if state.stage = .done ∨ state.stage = .fail then c
      else c.sendProgressUpdate id

/-- The client comes from `start`, with nothing received yet. -/
def engage (c : Connection H) (id : ℕ) (request : Request) : Connection H :=
  { c with
    engaged := c.engaged ++ [id]
    clients := Function.update c.clients id { request } }

/-- The client waits. -/
def park (c : Connection H) (id : ℕ) : Connection H :=
  { c with pendingAttach := c.pendingAttach ++ [id] }

/-- A client that comes to an open connection. -/
def adopt (c : Connection H) (id : ℕ) (a : AttachAnswers) : Connection H :=
  if c.delivering ∨ ¬ c.session.settingsReceived then c.park id
  else if ¬ c.session.hasHeadroom then c.retryAfterH2Coalesce id
  else c.attach id a

def enqueue (c : Connection H) (id : ℕ) : Connection H :=
  c.park id

/-- A client that has waited: it fails, tries elsewhere or is attached. -/
def drainOne (aborted : ℕ → Bool) (answers : ℕ → AttachAnswers) (c : Connection H) (id : ℕ) :
    Connection H :=
  match c.session.fatalError with
  | some e => c.failFromH2 id (.session e)
  | none =>
    if aborted id then c.failFromH2 id .aborted
    else if c.session.hasHeadroom then c.attach id (answers id)
    else c.retryAfterH2Coalesce id

/-- Those that waited for the settings are attached. -/
def drainPending (c : Connection H) (aborted : ℕ → Bool) (answers : ℕ → AttachAnswers) :
    Connection H :=
  if ¬ c.session.settingsReceived ∨ c.pendingAttach = [] then c
  else c.pendingAttach.foldl (drainOne aborted answers) { c with pendingAttach := [] }

/-- The client is started again. It comes back when it finds this session and there is room. -/
def redispatch (c : Connection H) (id : ℕ) (back : Option (Request × AttachAnswers)) :
    Connection H :=
  let c := c.conclude id .retry {}
  match back with
  | some (request, a) =>
    if c.session.hasHeadroom then (c.engage id request).adopt id a else c
  | none => c

/-- `doRedirectMultiplexed`. -/
def doRedirect (c : Connection H) (id : ℕ) (back : Option (Request × AttachAnswers)) :
    Connection H :=
  if (c.clients id).request.remainingRedirectCount - 1 = 0 then
    c.failFromH2 id .tooManyRedirects
  else c.redispatch id back

/-- The response has come further; at its end the client may follow a redirect. -/
def progressUpdate (c : Connection H) (id : ℕ) (back : Option (Request × AttachAnswers)) :
    Connection H :=
  let state := (c.clients id).state
  if state.stage = .done ∨ state.stage = .fail then c
  else if state.isRedirectPending then if state.isDone then c.doRedirect id back else c
  else c.sendProgressUpdate id

def detach (c : Connection H) (stream : Stream) : Connection H :=
  { c with session := (c.session.detach stream).1 }

def resetAndDetach (c : Connection H) (stream : Stream) : Connection H :=
  { c with session := (c.session.resetAndDetach stream).1 }

/-- The stream has ended; a body of another length than announced fails. -/
def finishStream (c : Connection H) (stream : Stream) (id : ℕ)
    (back : Option (Request × AttachAnswers)) : Connection H :=
  match (c.clients id).state.contentLength with
  | some contentLength =>
    if stream.dataBytesReceived ≠ contentLength then c.failFromH2 id .contentLengthMismatch
    else c.progressUpdate id back
  | none => c.progressUpdate id back

/-- The part of `deliverStream` after the fields. -/
def deliverBody (c : Connection H) (stream : Stream) (id : ℕ) (a : DeliverReplies) :
    Connection H × Bool :=
  let state := (c.clients id).state
  if state.responseStage ≠ .body then ({ c with session := c.session.put stream }, false)
  else if stream.bodyBuffer.length > 0 then
    let received := { stream with bodyBuffer := [] }
    let terminal := stream.remoteClosed
    let state := if terminal then { state with receivedLastChunk := true } else state
    match handleResponseBody state stream.bodyBuffer a.bodyStreaming a.processed with
    | none => ((c.resetAndDetach received).failFromH2 id .body, true)
    | some (state, report) =>
      if terminal then (((c.detach received).setState id state).finishStream received id a.back, true)
      else if report ∧ state.isDone then
        (((c.detach received).setState id state).progressUpdate id a.back, true)
      else
        let c := { c with session := c.session.put received }.setState id state
        (if report then c.progressUpdate id a.back else c, false)
  else if stream.remoteClosed then
    let c := (c.detach stream).setState id { state with receivedLastChunk := true }
    (c.finishStream stream id a.back, true)
  else ({ c with session := c.session.put stream }, false)

/-- `true` when the stream is finished and its client not to be touched any more. -/
def deliverStream (c : Connection H) (stream : Stream) (a : DeliverReplies) : Connection H × Bool :=
  match stream.client with
  | none => (c, true)
  | some id =>
    if a.aborted then ((c.resetAndDetach stream).failFromH2 id .aborted, true)
    else match stream.fatalError with
    | some e =>
      let request := (c.clients id).request
      let c := c.detach stream
      if e = .refusedStream ∧ stream.statusCode = 0 ∧ request.h2Retries < maxH2Retries
          ∧ ¬ request.streaming then
        (c.redispatch id a.back, true)
      else (c.failFromH2 id (.session e), true)
    | none =>
      if stream.headersReady then
        let stream := { stream with headersReady := false }
        match applyHeaders (c.clients id).request (c.clients id).state stream a.resolves with
        | none => ((c.resetAndDetach stream).failFromH2 id .metadata, true)
        | some (state, finished) =>
          if state.isRedirectPending then
            (((c.resetAndDetach stream).setState id state).doRedirect id a.back, true)
          else if finished ∨ stream.remoteClosed ∧ stream.bodyBuffer.length = 0 then
            let c := (c.detach stream).setState id { state with
              receivedLastChunk := true
              contentLength := if finished then some 0 else state.contentLength }
            (c.finishStream stream id a.back, true)
          else
            let c := { c with session := c.session.put stream }.setState id state
            let c := if a.headerProgress then c.progressUpdate id a.back else c
            c.deliverBody stream id a
      else c.deliverBody stream id a

/-- What came on a stream goes to its client. -/
def deliver (c : Connection H) (streamId : ℕ) (a : DeliverReplies) : Connection H :=
  match c.session.find streamId with
  | none => c
  | some stream =>
    let (c, finished) := c.deliverStream stream a
    if finished then
      match c.session.find streamId with
      | none => c
      | some stream =>
        let (s, stream) :=
          if stream.state ≠ .closed then c.session.rst stream .cancel else (c.session, stream)
        { c with session := (s.put stream).removeStream stream }
    else c

/-- `detachWithFailure`: the stream is gone before its client fails. -/
def detachWithFailure (c : Connection H) (stream : Stream) (e : Failure) (wrote : ℕ) :
    Connection H :=
  let c' := { c with session := c.session.detachWithFailure stream wrote }
  match stream.client with
  | none => c'
  | some id => c'.failFromH2 id e

/-- `swapRemove` of a list. -/
def swapRemoveAt (l : List ℕ) (index : ℕ) : List ℕ :=
  match l.getLast? with
  | some last => if index < l.length then (l.set index last).dropLast else l
  | none => l

/-- A client that waits or has a stream is aborted. -/
def abortByHttpId (c : Connection H) (asyncHttpId wrote : ℕ) : Connection H :=
  let named (id : ℕ) : Bool := (c.clients id).request.asyncHttpId = asyncHttpId
  match c.pendingAttach.findIdx? named with
  | some index =>
    { c with pendingAttach := swapRemoveAt c.pendingAttach index }.failFromH2
      (c.pendingAttach[index]?.getD 0) .aborted
  | none =>
    match c.session.streams.find? fun stream => stream.client.any named with
    | some stream => c.detachWithFailure stream .aborted wrote
    | none => c

/-- The streams from an index on. A stream is removed or the index goes up. -/
def reapAbortedLoop (aborted : ℕ → Bool) : ℕ → Connection H → ℕ → Connection H
  | 0, c, _ => c
  | fuel + 1, c, index =>
    match c.session.streams[index]? with
    | none => c
    | some stream =>
      if stream.client.any aborted then
        reapAbortedLoop aborted fuel (c.detachWithFailure stream .aborted 0) index
      else reapAbortedLoop aborted fuel c (index + 1)

/-- The streams of aborted clients are reset. -/
def reapAborted (c : Connection H) (aborted : ℕ → Bool) : Connection H :=
  reapAbortedLoop aborted c.session.streams.length c 0

/-- Everything that happens to a session, in any order. -/
inductive Input where
  | adopt (id : ℕ) (request : Request) (a : AttachAnswers)
  | enqueue (id : ℕ) (request : Request)
  | attach (id : ℕ) (request : Request) (a : AttachAnswers)
  | frame (f : Frame)
  | failAll (e : Error) (writable : Bool)
  | drainPending (aborted : ℕ → Bool) (answers : ℕ → AttachAnswers)
  | drain (streamId : ℕ) (body : RequestBody) (cap : ℕ)
  | setDelivering (delivering : Bool)
  | deliver (streamId : ℕ) (a : DeliverReplies)
  | replenish
  | flush (wrote : ℕ)
  | writeFailed
  | abort (asyncHttpId wrote : ℕ)
  | reapAborted (aborted : ℕ → Bool)
  | drainResponseBody (asyncHttpId : ℕ)
  | onClose (e : Failure)

/-- What `Session.perform` does to the session. -/
def within (dec : Decoder H) (c : Connection H) (i : Session.Input) : Option (Connection H) :=
  (c.session.perform dec i).map fun session => { c with session }

/-- A client is handed over once it was started, which is after the session got rid of it. -/
def perform (dec : Decoder H) (c : Connection H) : Input → Option (Connection H)
  | .adopt id request a => if id ∈ c.held then none else some ((c.engage id request).adopt id a)
  | .enqueue id request => if id ∈ c.held then none else some ((c.engage id request).enqueue id)
  | .attach id request a =>
    if id ∈ c.held ∨ ¬ c.session.hasHeadroom then none
    else some ((c.engage id request).attach id a)
  | .frame f => c.within dec (.frame f)
  | .failAll e writable => some (c.failAll e writable)
  | .drainPending aborted answers => some (c.drainPending aborted answers)
  | .drain streamId body cap => c.within dec (.drain streamId body cap)
  | .setDelivering delivering => some { c with delivering }
  | .deliver streamId a => if c.delivering then some (c.deliver streamId a) else none
  | .replenish => c.within dec .replenish
  | .flush wrote => c.within dec (.flush wrote)
  | .writeFailed => c.within dec .writeFailed
  | .abort asyncHttpId wrote => some (c.abortByHttpId asyncHttpId wrote)
  | .reapAborted aborted => some (c.reapAborted aborted)
  | .drainResponseBody asyncHttpId =>
    match c.session.clients.find? fun id => (c.clients id).request.asyncHttpId = asyncHttpId with
    | some id => some (c.drainResponseBody id)
    | none => some c
  | .onClose e => some (c.onClose e)

/-- One input, which is what is recorded of it. -/
def step (dec : Decoder H) (c : Connection H) (i : Input) : Option (Connection H × Input) :=
  (c.perform dec i).map fun c' => (c', i)

end Connection

end Cruller.H2
