import Cruller.Rt.HostHttp

/-!
# The engine's side and the whole system

`Bridge` of `rt/vm_bridge.zig` and `pump` of `rt/server_dispatch.zig`, and the system that the
host, the HTTP thread, the engine and every other user of the pool make together. A message
handler, a caller of the bridge or any other party keeps what it owns in `held`: one entry for
each reference, and it only releases, retains or sends what it holds.
-/

namespace Cruller

/-- The answers while the server dispatch handles one request; no output is the handler's error. -/
structure ServeAnswers where
  output : Option (List UInt8) := none
  addr : Option ℕ := none
  appendOk : Bool := true
  sendOk : Bool := true
  terminal : Bool := false

namespace Host

/-- `io.to_host.send`. -/
def sendToHost (h : Host) (command : Command) (ok : Bool) : Host :=
  { h with toHost := (h.toHost.send command ok).1 }

/-- The engine's answer to a request that cannot be served. -/
def sendError (h : Host) (requestId : UInt64) (status : ℤ) (ok : Bool) : Host :=
  h.sendToHost { Command.init .event .serverResponseEnd with requestId, status } ok

/-- `dispatchRequest` without the deferred release of the request's payload. -/
def answerRequest (h : Host) (request : Command) (a : ServeAnswers) : Option Host :=
  match h.pool.map request.payload with
  | none => some (h.sendError request.requestId (-1) a.sendOk)
  | some _ =>
    match a.output with
    | none => some (h.sendError request.requestId (-2) a.sendOk)
    | some output => do
      let (h, ref) ← h.allocate output.length a.addr a.appendOk
      match ref with
      | none => return h.sendError request.requestId (-3) a.sendOk
      | some ref =>
        match h.pool.map ref with
        | none => return (h.release ref).sendError request.requestId (-3) a.sendOk
        | some mapped =>
          if mapped.len ≠ output.length then none
          else
            let response := { Command.init .event .serverResponseEnd with
              requestId := request.requestId, payload := ref }
            let h := h.sendToHost response a.sendOk
            if a.sendOk then return h else return h.release ref

def dispatchRequest (h : Host) (request : Command) (a : ServeAnswers) : Option Host :=
  (h.answerRequest request a).map (·.releasePayload request)

end Host

/-- The reference a payload transfers when its message is sent. -/
def BufferRef.owned (ref : BufferRef) : List Arena.Handle :=
  if ref.isEmpty ∨ ref.poolId ≠ DataPool.poolId then [] else [ref.handle]

/-- The references on their way in the two channels. -/
def Host.inFlight (h : Host) : List Arena.Handle :=
  (h.toHost.pending ++ h.toEngine.pending).flatMap (·.payload.owned)

/-- The host, and the engine's handlers with the references they hold. -/
structure System where
  host : Host := {}
  handlers : List UInt64 := []
  held : List Arena.Handle := []
deriving DecidableEq, Repr

namespace System

/-- A handler takes the message and its payload; a message nobody waits for is dropped. -/
def bridgeDispatch (s : System) (command : Command) (terminal : Bool) : System :=
  if command.requestId ∈ s.handlers then
    { s with
      held := command.payload.owned ++ s.held
      handlers := if terminal then s.handlers.filter (· ≠ command.requestId) else s.handlers }
  else { s with host := s.host.releasePayload command }

/-- One message of `server_dispatch.pump`. -/
def serve (s : System) (command : Command) (a : ServeAnswers) : Option System :=
  if command.messageKind = .shutdown then
    some { s with host := s.host.releasePayload command }
  else if command.messageKind = .event ∧ command.operationKind = .serverRequest then
    (s.host.dispatchRequest command a).map fun host => { s with host }
  else some (s.bridgeDispatch command a.terminal)

/-- `Bridge.submit`, with whether the command was sent. The handler is put before the send and
taken back when it fails. -/
def submit (s : System) (command : Command) (putOk sendOk : Bool) : System × Bool :=
  if command.messageKind ≠ .submit ∨ command.requestId = 0 then (s, false)
  else if ¬ putOk then (s, false)
  else if sendOk then
    let handlers := command.requestId :: s.handlers
    ({ s with host := s.host.sendToHost command true, handlers }, true)
  else ({ s with handlers := s.handlers.filter (· ≠ command.requestId) }, false)

/-- What happens next, with what the outside answers. -/
inductive Input where
  | host (a : Answers)
  | callback (request : HttpRequest) (r : CallbackResult) (a : CallbackAnswers)
  | serve (a : ServeAnswers)
  | poll (terminal : Bool)
  | allocate (len : ℕ) (addr : Option ℕ) (appendOk : Bool)
  | retain (ref : BufferRef)
  | release (ref : BufferRef)
  | submit (command : Command) (putOk sendOk : Bool)
  | cancel (requestId : UInt64) (operation : Operation) (sendOk : Bool)
  | sendToHost (command : Command) (sendOk : Bool)
  | sendToEngine (command : Command) (sendOk : Bool)

/-- A party sends only a payload it holds, or one that carries no reference. -/
def Holds (s : System) (ref : BufferRef) : Prop :=
  ∀ k ∈ ref.owned, k ∈ s.held

instance (s : System) (ref : BufferRef) : Decidable (s.Holds ref) :=
  inferInstanceAs (Decidable (∀ k ∈ ref.owned, k ∈ s.held))

/-- A successful send hands over what the payload carries. -/
def give (s : System) (command : Command) (sendOk : Bool) : System :=
  if sendOk then { s with held := s.held.diff command.payload.owned } else s

/-- A read or write moves no more bytes than the buffer has. -/
def movesWithin (command : Command) (a : Answers) : Bool :=
  match a.moved with
  | .ok n => n ≤ command.payload.length.toNat
  | .error _ => true

/-- One step of the system; `none` where the code panics. -/
def perform (s : System) : Input → Option System
  | .host a =>
    match s.host.toHost.receive with
    | (_, none) => some s
    | (toHost, some command) =>
      if movesWithin command a then
        ({ s.host with toHost }.dispatch command a).map fun host => { s with host }
      else none
  | .callback request r a =>
    if request ∈ s.host.active then
      (s.host.callback request r a).map fun host => { s with host }
    else none
  | .serve a =>
    match s.host.toEngine.receive with
    | (_, none) => some s
    | (toEngine, some command) => { s with host := { s.host with toEngine } }.serve command a
  | .poll terminal =>
    match s.host.toEngine.receive with
    | (_, none) => some s
    | (toEngine, some command) =>
      some ({ s with host := { s.host with toEngine } }.bridgeDispatch command terminal)
  | .allocate len addr appendOk => do
    let (host, ref) ← s.host.allocate len addr appendOk
    return { s with host, held := (ref.map BufferRef.handle).toList ++ s.held }
  | .retain ref =>
    if ref.poolId = DataPool.poolId ∧ ref.handle ∈ s.held then
      let (pool, ok) := s.host.pool.retain ref
      let held := if ok then ref.handle :: s.held else s.held
      some { s with host := { s.host with pool }, held }
    else none
  | .release ref =>
    if ref.poolId = DataPool.poolId ∧ ref.handle ∈ s.held then
      some { s with host := s.host.release ref, held := s.held.erase ref.handle }
    else none
  | .submit command putOk sendOk =>
    if s.Holds command.payload then
      let (s, sent) := s.submit command putOk sendOk
      some (s.give command sent)
    else none
  | .cancel requestId operation sendOk =>
    let command := { Command.init .cancel operation with requestId }
    some { s with host := s.host.sendToHost command sendOk }
  | .sendToHost command sendOk =>
    if s.Holds command.payload then
      some ({ s with host := s.host.sendToHost command sendOk }.give command sendOk)
    else none
  | .sendToEngine command sendOk =>
    if s.Holds command.payload then
      some ({ s with host := s.host.send command sendOk }.give command sendOk)
    else none

/-- The event of a step is the state it started from and what happened there. -/
def step (s : System) (i : Input) : Option (System × System × Input) :=
  (s.perform i).map fun t => (t, s, i)

end System

end Cruller
