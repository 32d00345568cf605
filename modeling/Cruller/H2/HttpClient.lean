import Cruller.H2.Dispatch

/-!
# The client of a stream

What `http/http.zig` and `InternalState.zig` keep of a response that arrives over HTTP/2. A client is
done when it has as many bytes as were announced, whatever the stream says (`isDone`). A response of
no length is finished with its fields, except that an event stream never is (`handleResponseMetadata`).
-/

namespace Cruller.H2

open Option

inductive FetchRedirect where
  | follow
  | manual
  | error
deriving DecidableEq, Repr

/-- The part of a client that its caller decides; `streaming` tells a stream from a buffer. -/
structure Request where
  asyncHttpId : ℕ := 0
  hasBody : Bool := true
  streaming : Bool := false
  forceLastModified : Bool := false
  ifModifiedSince : List UInt8 := []
  redirectType : FetchRedirect := .follow
  remainingRedirectCount : ℕ := 127
  h2Retries : ℕ := 0
deriving DecidableEq, Repr

def maxH2Retries : ℕ := 5

/-- Where a client is. -/
inductive Stage where
  | pending
  | connect
  | done
  | fail
deriving DecidableEq, Repr

/-- `HTTPStage`, less what only HTTP/1.1 and proxies go through. -/
inductive HTTPStage where
  | pending
  | headers
  | body
  | fail
  | done
deriving DecidableEq, Repr

/-- `bodyOutLen` is the length of `body_out_str`; a callback may take from it. -/
structure InternalState where
  stage : Stage := .pending
  responseStage : HTTPStage := .pending
  contentLength : Option ℕ := none
  totalBodyReceived : ℕ := 0
  receivedLastChunk : Bool := false
  allowKeepalive : Bool := true
  isRedirectPending : Bool := false
  bodyOutLen : ℕ := 0
deriving DecidableEq, Repr

/-- The body has come to its end. -/
def InternalState.isDone (state : InternalState) : Bool :=
  match state.contentLength with
  | some contentLength => contentLength ≤ state.totalBodyReceived
  | none => state.receivedLastChunk

/-- `state.reset`, and what is set after it when the last result has been reported. -/
def InternalState.finished : InternalState :=
  { stage := .done, responseStage := .done }

def strContains (self substring : List UInt8) : Bool :=
  self.tails.any substring.isPrefixOf

/-- What the loop over the fields gathers. -/
structure Announced where
  contentLength : Option ℕ := none
  isServerSentEvents : Bool := false
  location : List UInt8 := []
  pretend304 : Bool := false
deriving DecidableEq, Repr

/-- One field. The names are lower case by now, and `connection` and `transfer-encoding` do not get
this far. -/
def Announced.field (request : Request) (statusCode : ℕ) (acc : Announced) (header : HeaderField) :
    Announced :=
  if header.name = bytesOf "content-length" then
    let contentLength := ((parseInt header.value).filter (· < 2 ^ 64)).getD 0
    { acc with contentLength := some (if request.hasBody then contentLength else 0) }
  else if header.name = bytesOf "content-type" then
    { acc with
      isServerSentEvents :=
        acc.isServerSentEvents || strContains header.value (bytesOf "text/event-stream") }
  else if header.name = bytesOf "location" then { acc with location := header.value }
  else if header.name = bytesOf "last-modified" then
    { acc with
      pretend304 := request.forceLastModified ∧ 199 < statusCode ∧ statusCode < 300
        ∧ request.ifModifiedSince ≠ [] ∧ request.ifModifiedSince = header.value }
  else acc

/-- A client handles one response, so nothing was announced before it. -/
def announced (request : Request) (statusCode : ℕ) (headers : List HeaderField) : Announced :=
  headers.foldl (Announced.field request statusCode) {}

/-- The status, or the 304 that the client pretends it got. -/
def Announced.statusCode (a : Announced) (statusCode : ℕ) : ℕ :=
  if a.pretend304 then 304 else statusCode

/-- Some statuses never come with a body. -/
def Announced.length (a : Announced) (statusCode : ℕ) : Option ℕ :=
  if 100 ≤ a.statusCode statusCode ∧ a.statusCode statusCode < 200
      ∨ a.statusCode statusCode = 204 ∨ a.statusCode statusCode = 304 then some 0
  else a.contentLength

/-- Whether a redirect is to be followed; `resolves` is what comes of its location. -/
def followsRedirect (request : Request) (statusCode : ℕ) (location : List UInt8)
    (resolves : Bool) : Option Bool :=
  if 300 ≤ statusCode ∧ statusCode ≤ 399 then
    if request.redirectType = .follow ∧ location ≠ [] ∧ 0 < request.remainingRedirectCount then
      if statusCode ∈ [301, 302, 303, 307, 308] then
        if statusCode ≠ 303 ∧ request.streaming then none
        else if resolves then some true else none
      else some false
    else if request.redirectType = .error then none else some false
  else some false

/-- `none` rejects the response; the flag says that no body is to follow. -/
def handleResponseMetadata (request : Request) (state : InternalState) (statusCode : ℕ)
    (headers : List HeaderField) (resolves : Bool) : Option (InternalState × Bool) := do
  let a := announced request statusCode headers
  let contentLength := a.length statusCode
  let allowKeepalive := state.allowKeepalive && contentLength.isSome
  let follows ← followsRedirect request (a.statusCode statusCode) a.location resolves
  let continueStreaming := request.hasBody && (contentLength.all (0 < ·) || !allowKeepalive
    || a.isServerSentEvents)
  return ({ state with
    contentLength, allowKeepalive
    isRedirectPending := state.isRedirectPending || follows
    responseStage := .body }, !continueStreaming)

/-- `ClientSession.applyHeaders`. -/
def applyHeaders (client : Request) (state : InternalState) (stream : Stream) (resolves : Bool) :
    Option (InternalState × Bool) := do
  let (state, finished) ←
    handleResponseMetadata client state stream.statusCode stream.decodedHeaders resolves
  return ({ state with allowKeepalive := true }, finished)

/-- A response that has no body to wait for, and is waited for all the same. -/
def endless (request : Request) (stream : Stream) (resolves : Bool) : Bool :=
  let a := announced request stream.statusCode stream.decodedHeaders
  request.hasBody && a.isServerSentEvents && a.length stream.statusCode == some 0
    && followsRedirect request (a.statusCode stream.statusCode) a.location resolves == some false

/-- `handleResponseBodyFromMultiplePackets`. `processed` is how much the output holds afterwards,
`none` when the body cannot be decompressed. -/
def handleResponseBody (state : InternalState) (incoming : List UInt8) (streaming : Bool)
    (processed : Option ℕ) : Option (InternalState × Bool) := do
  let remainder := match state.contentLength with
    | some contentLength => incoming.take (contentLength - state.totalBodyReceived)
    | none => incoming
  let bodyOutLen ← processed
  let state := { state with
    totalBodyReceived := state.totalBodyReceived + remainder.length, bodyOutLen }
  let isDone := state.contentLength.any (· ≤ state.totalBodyReceived)
  if isDone ∨ streaming ∨ state.contentLength.isNone then
    return (state, isDone || decide (0 < bodyOutLen))
  else return (state, false)

/-- The last result has not been reported. -/
structure InternalState.Live (state : InternalState) : Prop where
  not_done : state.stage ≠ .done
  not_fail : state.stage ≠ .fail

theorem InternalState.live_new : ({} : InternalState).Live := ⟨by decide, by decide⟩

/-- The client has been handed the first `n` bytes of a body. -/
structure InternalState.Took (state : InternalState) (n : ℕ) : Prop where
  received : state.totalBodyReceived = state.contentLength.elim n (min n)

theorem InternalState.Took.congr {state state' : InternalState} {n : ℕ} (h : state.Took n)
    (hlength : state'.contentLength = state.contentLength)
    (htl : state'.totalBodyReceived = state.totalBodyReceived) : state'.Took n :=
  ⟨by rw [htl, hlength, h.received]⟩

section

variable {request : Request} {state state' : InternalState} {stream : Stream} {n statusCode : ℕ}
  {headers : List HeaderField} {resolves finished report streaming : Bool} {processed : Option ℕ}
  {incoming : List UInt8}

theorem handleResponseMetadata_eq
    (h : handleResponseMetadata request state statusCode headers resolves = some (state', finished)) :
    ∃ allowKeepalive follows, state' = { state with
        contentLength := (announced request statusCode headers).length statusCode
        allowKeepalive
        isRedirectPending := state.isRedirectPending || follows
        responseStage := .body }
      ∧ followsRedirect request ((announced request statusCode headers).statusCode statusCode)
        (announced request statusCode headers).location resolves = some follows
      ∧ (finished = false → (announced request statusCode headers).length statusCode = some 0 →
        request.hasBody = true ∧ (state.allowKeepalive = true →
          (announced request statusCode headers).isServerSentEvents = true)) := by
  unfold handleResponseMetadata at h
  simp only [bind_eq_bind, bind_eq_some_iff, pure_def, some.injEq,
    Prod.mk.injEq] at h
  obtain ⟨follows, hfl, rfl, rfl⟩ := h
  refine ⟨_, follows, rfl, hfl, fun hfn hlength => ?_⟩
  simpa [hlength] using hfn

theorem applyHeaders_eq (h : applyHeaders request state stream resolves = some (state', finished)) :
    ∃ follows, state' = { state with
        contentLength :=
          (announced request stream.statusCode stream.decodedHeaders).length stream.statusCode
        allowKeepalive := true
        isRedirectPending := state.isRedirectPending || follows
        responseStage := .body }
      ∧ (finished = false → follows = false → state.allowKeepalive = true →
        state'.contentLength = some 0 → endless request stream resolves = true) := by
  unfold applyHeaders at h
  simp only [bind_eq_bind, bind_eq_some_iff, pure_def, some.injEq,
    Prod.mk.injEq, Prod.exists] at h
  obtain ⟨t, f, ht, rfl, rfl⟩ := h
  obtain ⟨_, follows, rfl, hfl, hfn⟩ := handleResponseMetadata_eq ht
  refine ⟨follows, rfl, fun hf hno hkp hlength => ?_⟩
  obtain ⟨hbd, hev⟩ := hfn hf hlength
  simp only at hlength
  simp [endless, hbd, hev hkp, hlength, hfl, hno]

theorem handleResponseBody_eq (ht : state.Took n)
    (h : handleResponseBody state incoming streaming processed = some (state', report)) :
    state'.Took (n + incoming.length)
      ∧ state' = { state with
        totalBodyReceived := state'.totalBodyReceived, bodyOutLen := state'.bodyOutLen }
      ∧ (state.contentLength.any (· ≤ state'.totalBodyReceived) → report = true) := by
  unfold handleResponseBody at h
  simp only [bind_eq_bind, bind_eq_some_iff] at h
  obtain ⟨bodyOutLen, -, h⟩ := h
  have htl : state.totalBodyReceived + (match state.contentLength with
      | some contentLength => incoming.take (contentLength - state.totalBodyReceived)
      | none => incoming).length = state.contentLength.elim (n + incoming.length)
        (min (n + incoming.length)) := by
    rw [ht.received]
    cases state.contentLength with
    | none => rfl
    | some length =>
      simp only [elim_some, List.length_take]
      omega
  rw [htl] at h
  split_ifs at h with hrp
  · simp only [pure_def, some.injEq, Prod.mk.injEq] at h
    obtain ⟨rfl, rfl⟩ := h
    exact ⟨⟨rfl⟩, rfl, fun hdn => by simp [hdn]⟩
  · simp only [pure_def, some.injEq, Prod.mk.injEq] at h
    obtain ⟨rfl, rfl⟩ := h
    exact ⟨⟨rfl⟩, rfl, fun hdn => absurd (Or.inl hdn) hrp⟩

end

end Cruller.H2
