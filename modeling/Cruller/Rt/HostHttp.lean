import Cruller.Rt.Host

/-!
# Callbacks of HTTP requests

`Request.callback` of `rt/host_http.zig`, run by the HTTP thread with one result after another
until a result says that nothing follows. Response headers and body go to the engine as events
with their bytes in a buffer of the pool; the last result goes out as the completion.
-/

namespace Cruller

/-- What `HTTPClientResult` tells the callback; an absent body is an empty one. -/
structure CallbackResult where
  canStream : Bool := false
  isHttp2 : Bool := false
  metadata : Option Response := none
  body : List UInt8 := []
  hasMore : Bool := false
  isTimeout : Bool := false
  isAbort : Bool := false
  isSuccess : Bool := true

/-- The answers for one buffer that is allocated, filled and sent. -/
structure BytesAnswers where
  addr : Option ℕ := none
  appendOk : Bool := true
  sendOk : Bool := true

/-- What the outside answers during one callback. -/
structure CallbackAnswers where
  readyOk : Bool := true
  headersOk : Bool := true
  encodeAlloc : (n : ℕ) → Option (List.Vector UInt8 n) := fun _ => none
  metadata : BytesAnswers := {}
  metadataErrorOk : Bool := true
  body : BytesAnswers := {}
  bodyErrorOk : Bool := true
  endOk : Bool := true

namespace Host

/-- `io.data.allocate`, with an allocator that keeps its contract. -/
def allocate (h : Host) (len : ℕ) (addr : Option ℕ) (appendOk : Bool) :
    Option (Host × Option BufferRef) :=
  if ∀ x ∈ addr, h.pool.allocator.Fits ⟨x, len⟩ then do
    let (pool, ref) ← h.pool.allocate len addr appendOk
    return ({ h with pool }, ref)
  else none

/-- The `@memcpy` into the new buffer traps when the lengths differ. -/
def sendBytes (h : Host) (requestId : UInt64) (kind : MessageKind) (operation : Operation)
    (bytes : List UInt8) (status : ℤ) (arg0 : UInt64) (a : BytesAnswers) : Option (Host × Bool) := do
  let (h, ref) ← h.allocate bytes.length a.addr a.appendOk
  match ref with
  | none => return (h, false)
  | some ref =>
    match h.pool.map ref with
    | none => return (h.release ref, false)
    | some mapped =>
      if mapped.len ≠ bytes.length then none
      else
        let command := { Command.init kind operation with requestId, status, arg0, payload := ref }
        let h := h.send command a.sendOk
        if a.sendOk then return (h, true) else return (h.release ref, false)

/-- The head of the response, encoded for the wire. -/
def sendMetadata (h : Host) (requestId : UInt64) (metadata : Response) (a : CallbackAnswers) :
    Option (Host × Bool) :=
  if ¬ a.headersOk then some (h, false)
  else match encodeResponse a.encodeAlloc { metadata with flags := 0 } with
    | none => none
    | some (.error _) => some (h, false)
    | some (.ok encoded) =>
      h.sendBytes requestId .event .httpResponseHeaders encoded 0 0 a.metadata

/-- The one completion of a request. -/
def sendTerminal (h : Host) (requestId : UInt64) (status : ℤ) (reason : UInt64) (ok : Bool) :
    Host :=
  h.send { Command.init .completion .httpResponseEnd with requestId, status, arg0 := reason } ok

def sendReady (h : Host) (requestId : UInt64) (isHttp2 : Bool) (ok : Bool) : Host :=
  h.send { Command.init .event .httpRequestReady with requestId, arg0 := if isHttp2 then 1 else 0 } ok

/-- The request is over, and its id is free. -/
def destroy (h : Host) (request : HttpRequest) : Host :=
  let h := h.removeRequest request.requestId
  { h with active := h.active.erase request }.record (.finished request.requestId)

/-- The result's metadata, or the terminal completion that tells of its failure. -/
def callbackMetadata (h : Host) (request : HttpRequest) (r : CallbackResult)
    (a : CallbackAnswers) : Option Host :=
  match r.metadata with
  | none => some h
  | some metadata => do
    let (h, ok) ← h.sendMetadata request.requestId metadata a
    return if ok then h else h.sendTerminal request.requestId (-12) 3 a.metadataErrorOk

/-- What came of the body, if anything. -/
def callbackBody (h : Host) (request : HttpRequest) (r : CallbackResult) (a : CallbackAnswers) :
    Option Host :=
  if r.body.length = 0 then some h
  else do
    let (h, ok) ← h.sendBytes request.requestId .event .httpResponseBody r.body 0 0 a.body
    return if ok then h else h.sendTerminal request.requestId (-12) 3 a.bodyErrorOk

/-- Why the request ended, as the engine is told. -/
def endReason (r : CallbackResult) : UInt64 :=
  if r.isTimeout then 1 else if r.isAbort then 2 else if ¬ r.isSuccess then 3 else 0

/-- One progress of the client: the head once, some body, and the end when there is no more. -/
def callback (h : Host) (request : HttpRequest) (r : CallbackResult) (a : CallbackAnswers) :
    Option Host := do
  let h := if r.canStream then h.sendReady request.requestId r.isHttp2 a.readyOk else h
  let h ← h.callbackMetadata request r a
  let h ← h.callbackBody request r a
  if r.hasMore then return h
  else
    let status := if r.isSuccess then 0 else -5
    return (h.sendTerminal request.requestId status (endReason r) a.endOk).destroy request

end Host

end Cruller
