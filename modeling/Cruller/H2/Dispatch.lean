import Cruller.H2.Session

/-!
# Frames coming in

`h2_client/dispatch.zig`. A checked cast that fails ends the program and is `none`.
-/

namespace Cruller.H2

def bytesOf (text : String) : List UInt8 :=
  text.toList.map fun c => UInt8.ofNat c.toNat

def forbiddenResponseFields : List (List UInt8) :=
  ["connection", "keep-alive", "proxy-connection", "te", "transfer-encoding", "upgrade"].map bytesOf

/-- An upper-case letter in the name, or a field of HTTP/1. -/
def isMalformedResponseField (name : List UInt8) : Bool :=
  name.any (fun c => 65 ≤ c && c ≤ 90) || name ∈ forbiddenResponseFields

def digit (c : UInt8) : Option ℕ :=
  if 48 ≤ c ∧ c ≤ 57 then some (c.toNat - 48) else none

/-- Digits with underscores between them, as `std.fmt.parseInt` reads a number. -/
def parseDigits (text : List UInt8) : Option ℕ :=
  if text = [] ∨ text.head? = some 95 ∨ text.getLast? = some 95 then none
  else (text.filter (· ≠ 95)).foldlM (fun value c => (10 * value + ·) <$> digit c) 0

/-- `std.fmt.parseInt` in base 10, of the three characters of a `:status` (`u32`) and of a
`content-length` (`usize`, whose bound stands at the call); a negative number is zero or too
small. -/
def parseInt : List UInt8 → Option ℕ
  | 43 :: rest => parseDigits rest
  | 45 :: rest => (parseDigits rest).filter (· = 0)
  | text => parseDigits text

def statusName : List UInt8 := bytesOf ":status"

/-- What `decodeHeaderBlock` gathers while it goes through the fields. -/
structure BlockFields where
  status : ℕ := 0
  bounds : List (ℕ × ℕ × ℕ) := []
  seenRegular : Bool := false
  seenStatus : Bool := false
  malformed : Bool := false
  decodedBytes : List UInt8

/-- One field of a block; `statusCode` is the stream's, so anything but zero means trailers. -/
def BlockFields.field (statusCode : ℕ) (acc : BlockFields) (result : DecodeResult) :
    BlockFields × Option Error :=
  if result.name.head? = some 58 then
    if statusCode ≠ 0 ∨ acc.seenRegular ∨ acc.seenStatus ∨ result.name ≠ statusName then
      ({ acc with malformed := true }, none)
    else
      let status := if result.value.length = 3 then (parseInt result.value).getD 0 else 0
      let malformed := acc.malformed ∨ status < 100 ∨ status > 999
      ({ acc with seenStatus := true, status, malformed }, none)
  else
    let acc := { acc with seenRegular := true }
    if statusCode ≠ 0 ∨ acc.malformed then (acc, none)
    else if isMalformedResponseField result.name then ({ acc with malformed := true }, none)
    else if acc.decodedBytes.length + result.name.length + result.value.length
        > localMaxHeaderListSize then (acc, some .headerListTooLarge)
    else
      let nameStart := acc.decodedBytes.length
      let valueStart := nameStart + result.name.length
      let stop := valueStart + result.value.length
      ({ acc with
        decodedBytes := acc.decodedBytes ++ (result.name ++ result.value)
        bounds := acc.bounds ++ [(nameStart, valueStart, stop)] }, none)

/-- The fields, cut out of what was decoded. -/
def BlockFields.headers (acc : BlockFields) : List HeaderField :=
  acc.bounds.map fun (nameStart, valueStart, stop) =>
    { name := (acc.decodedBytes.take valueStart).drop nameStart
      value := (acc.decodedBytes.take stop).drop valueStart }

namespace Session

variable {H : Type} (dec : Decoder H)

/-- A block that nobody waits for, decoded for the sake of the table. -/
def decodeDiscardOrphan (s : Session H) : Session H :=
  let (hpack, calls, _, e) := decodeLoop dec Error.compressionError (fun _ _ => ((), none)) s.hpack
    () s.orphanHeaderBlock 0
  let s := { s with hpack, calls := s.calls ++ calls, orphanHeaderBlock := [] }
  match e with
  | some e => s.fail e
  | none => s

/-- The stream keeps what the fields left in its buffer only when they are a final response. -/
def applyBlock (s : Session H) (stream : Stream) (acc : BlockFields) : Session H :=
  let kept := { stream with decodedBytes := acc.decodedBytes }
  if acc.malformed then
    let (s, stream) := s.rst stream .protocolError
    s.put { stream with fatalError := some .protocolError }
  else if stream.statusCode ≠ 0 then
    if ¬ stream.headersEndStream then s.put { kept with fatalError := some .protocolError }
    else s.put kept
  else if acc.status = 0 then s.put { stream with fatalError := some .protocolError }
  else if acc.status ≥ 100 ∧ acc.status < 200 then
    let stream := if acc.status = 100 then { stream with awaitingContinue := false } else stream
    if stream.remoteClosed then s.put { stream with fatalError := some .protocolError }
    else s.put stream
  else
    let ready := { kept with statusCode := acc.status, headersReady := true }
    let (s, ready) :=
      if ready.awaitingContinue then
        (s.writeFrame .data flagEndStream ready.id [],
          { ready with awaitingContinue := false }.sentEndStream)
      else (s, ready)
    s.put { ready with decodedHeaders := ready.decodedHeaders ++ acc.headers }

/-- A block of a stream. -/
def decodeHeaderBlock (s : Session H) (stream : Stream) : Session H :=
  let (hpack, calls, acc, e) := decodeLoop dec Error.compressionError
    (BlockFields.field stream.statusCode) s.hpack { decodedBytes := stream.decodedBytes }
    stream.headerBlock 0
  let s := { s with hpack, calls := s.calls ++ calls }
  let stream := { stream with headerBlock := [] }
  match e with
  | some e => (s.put { stream with decodedBytes := acc.decodedBytes }).fail e
  | none => s.applyBlock stream acc

/-- The streams with their windows moved; `false` when one went out of range. -/
def adjustWindows (delta : ℤ) : List Stream → Option (List Stream × Bool)
  | [] => some ([], true)
  | stream :: rest => do
    let next := stream.sendWindow + delta
    if next > maxWindowSize then return (stream :: rest, false)
    let sendWindow ← intCastI32 next
    let (rest, ok) ← adjustWindows delta rest
    return ({ stream with sendWindow } :: rest, ok)

/-- One unit of a SETTINGS frame; a session that failed looks at no more of them. -/
def applySetting (s : Session H) (unit : ℕ × ℕ) : Option (Session H × Bool) :=
  match unit with
  | (5, value) =>
    if value < defaultMaxFrameSize ∨ value > maxFrameSize then some (s.fail .protocolError, false)
    else some ({ s with remoteMaxFrameSize := value }, true)
  | (3, value) => some ({ s with remoteMaxConcurrentStreams := value }, true)
  | (1, value) =>
    let capacity := min (s.pendingHpackEncCapacity.getD value) value
    some ({ s with pendingHpackEncCapacity := some capacity }, true)
  | (4, value) =>
    if value > maxWindowSize then some (s.fail .flowControlError, false)
    else do
      let delta : ℤ := value - s.remoteInitialWindowSize
      let (streams, ok) ← adjustWindows delta s.streams
      let s := { s with remoteInitialWindowSize := value, streams }
      return if ok then (s, true) else (s.fail .flowControlError, false)
  | _ => some (s, true)

/-- The units of a SETTINGS frame, up to one that is wrong. -/
def applySettings (s : Session H) : List (ℕ × ℕ) → Option (Session H × Bool)
  | [] => some (s, true)
  | unit :: rest => do
    let (s, ok) ← s.applySetting unit
    if ok then s.applySettings rest else return (s, false)

/-- A SETTINGS frame. -/
def onSettings (s : Session H) (header : FrameHeader) (payload : List UInt8) :
    Option (Session H) :=
  if header.streamIdentifier ≠ 0 then some (s.fail .protocolError)
  else if hasFlag header.flags flagAck then
    some (if header.length ≠ 0 then s.fail .frameSizeError else s)
  else if header.length % settingsUnitSize ≠ 0 then some (s.fail .frameSizeError)
  else do
    let (s, ok) ← s.applySettings (settingsUnits payload)
    if ¬ ok then return s
    else if s.writeBuffer ≥ writeBufferControlLimit then return s.fail .enhanceYourCalm
    else return { s.writeFrame .settings flagAck 0 [] with settingsReceived := true }

/-- Reset one stream and let it fail. -/
def failStream (s : Session H) (stream : Stream) (code : ErrorCode) (e : Error) : Session H :=
  let (s, stream) := s.rst stream code
  s.put { stream with fatalError := some e }

/-- An id that this side never used, zero and the server's own included. -/
def isIdle (s : Session H) (id : ℕ) : Bool :=
  id = 0 ∨ id % 2 = 0 ∨ s.nextStreamId ≤ id

/-- A WINDOW_UPDATE frame, of a stream or the connection. -/
def onWindowUpdate (s : Session H) (header : FrameHeader) (payload : List UInt8) :
    Option (Session H) :=
  if header.length ≠ 4 then some (s.fail .frameSizeError)
  else
    let inc := uint31FromBytes (payload.take 4)
    if header.streamIdentifier = 0 then
      if inc = 0 then some (s.fail .protocolError)
      else
        let next := s.connSendWindow + inc
        if next > maxWindowSize then some (s.fail .flowControlError)
        else do
          let connSendWindow ← intCastI32 next
          return { s with connSendWindow, streamProgressed := true }
    else match s.find header.streamIdentifier with
      | some stream =>
        if inc = 0 then some (s.failStream stream .protocolError .protocolError)
        else
          let next := stream.sendWindow + inc
          if next > maxWindowSize then
            some (s.failStream stream .flowControlError .flowControlError)
          else do
            let sendWindow ← intCastI32 next
            return { s.put { stream with sendWindow } with streamProgressed := true }
      | none =>
        some (if s.isIdle header.streamIdentifier then s.fail .protocolError else s)

/-- A PING frame, answered unless too much is waiting to be written. -/
def onPing (s : Session H) (header : FrameHeader) (payload : List UInt8) : Session H :=
  if header.length ≠ 8 then s.fail .frameSizeError
  else if header.streamIdentifier ≠ 0 then s.fail .protocolError
  else if hasFlag header.flags flagAck then s
  else if s.writeBuffer ≥ writeBufferControlLimit then s.fail .enhanceYourCalm
  else s.writeFrame .ping flagAck 0 (payload.take 8)

/-- A PRIORITY frame, of which only the form is checked. -/
def onPriority (s : Session H) (header : FrameHeader) : Session H :=
  if header.streamIdentifier = 0 then s.fail .protocolError
  else if header.length ≠ streamPrioritySize then s.fail .frameSizeError
  else s

/-- The block of a stream that is no longer tracked is decoded all the same. -/
def onOrphanHeaders (s : Session H) (header : FrameHeader) (payload : List UInt8) : Session H :=
  if s.isIdle header.streamIdentifier then s.fail .protocolError
  else match headersFragment header.flags payload with
    | none => s.fail .protocolError
    | some fragment =>
      if fragment.length > localMaxHeaderListSize then s.fail .headerListTooLarge
      else
        let s := { s with orphanHeaderBlock := fragment }
        if hasFlag header.flags flagEndHeaders then s.decodeDiscardOrphan dec
        else { s with expectingContinuation := header.streamIdentifier }

/-- A HEADERS frame of a stream that there is. -/
def onStreamHeaders (s : Session H) (stream : Stream) (header : FrameHeader)
    (payload : List UInt8) : Session H :=
  let s := { s with streamProgressed := true }
  match headersFragment header.flags payload with
  | none => s.fail .protocolError
  | some fragment =>
    if fragment.length > localMaxHeaderListSize then s.fail .headerListTooLarge
    else
      let headersEndStream := hasFlag header.flags flagEndStream
      let stream := { stream with headerBlock := fragment, headersEndStream }
      if hasFlag header.flags flagEndHeaders then
        s.decodeHeaderBlock dec (if headersEndStream then stream.recvEndStream else stream)
      else { s.put stream with expectingContinuation := stream.id }

/-- A HEADERS frame. -/
def onHeaders (s : Session H) (header : FrameHeader) (payload : List UInt8) : Session H :=
  match s.find header.streamIdentifier with
  | none => s.onOrphanHeaders dec header payload
  | some stream => s.onStreamHeaders dec stream header payload

/-- A CONTINUATION frame, of the block that is open. -/
def onContinuation (s : Session H) (header : FrameHeader) (payload : List UInt8) : Session H :=
  if s.expectingContinuation = 0 ∨ header.streamIdentifier ≠ s.expectingContinuation then
    s.fail .protocolError
  else match s.find s.expectingContinuation with
    | some stream =>
      if stream.headerBlock.length + payload.length > localMaxHeaderListSize then
        s.fail .headerListTooLarge
      else
        let stream := { stream with headerBlock := stream.headerBlock ++ payload }
        if hasFlag header.flags flagEndHeaders then
          { s with expectingContinuation := 0 }.decodeHeaderBlock dec
            (if stream.headersEndStream then stream.recvEndStream else stream)
        else s.put stream
    | none =>
      if s.orphanHeaderBlock.length + payload.length > localMaxHeaderListSize then
        s.fail .headerListTooLarge
      else
        let s := { s with orphanHeaderBlock := s.orphanHeaderBlock ++ payload }
        if hasFlag header.flags flagEndHeaders then
          { s with expectingContinuation := 0 }.decodeDiscardOrphan dec
        else s

/-- A saturating sum of 32 bits. -/
def saturatingAdd (a b : ℕ) : ℕ :=
  min (a + b) (2 ^ 32 - 1)

/-- A DATA frame, counted whether or not there is a stream. -/
def onData (s : Session H) (header : FrameHeader) (payload : List UInt8) : Session H :=
  let s := { s with connUnackedBytes := saturatingAdd s.connUnackedBytes header.length }
  match s.find header.streamIdentifier with
  | none => if s.isIdle header.streamIdentifier then s.fail .protocolError else s
  | some stream =>
    let s := { s with streamProgressed := true }
    if stream.statusCode = 0 then s.failStream stream .protocolError .protocolError
    else if stream.remoteClosed then
      s.put { stream with fatalError := some (stream.fatalError.getD .protocolError) }
    else
      let stream :=
        { stream with unackedBytes := saturatingAdd stream.unackedBytes header.length }
      match if hasFlag header.flags flagPadded then stripPadding payload else some payload with
      | none => (s.put stream).fail .protocolError
      | some fragment =>
        let stream :=
          if hasFlag header.flags flagEndStream then stream.recvEndStream else stream
        s.put { stream with
          dataBytesReceived := stream.dataBytesReceived + fragment.length
          bodyBuffer := stream.bodyBuffer ++ fragment }

/-- A RST_STREAM frame. -/
def onRstStream (s : Session H) (header : FrameHeader) (payload : List UInt8) : Session H :=
  if header.length ≠ 4 then s.fail .frameSizeError
  else if s.isIdle header.streamIdentifier then s.fail .protocolError
  else match s.find header.streamIdentifier with
    | none => s
    | some stream =>
      let hadResponse := stream.remoteClosed
      let code := u32FromBytes (payload.take 4)
      let fatalError :=
        if code = ErrorCode.noError.toNat then
          if hadResponse then none else some .streamReset
        else if code = ErrorCode.refusedStream.toNat then some .refusedStream
        else some .streamReset
      s.put { stream with rstDone := true, state := .closed, fatalError }

/-- A GOAWAY frame; the streams behind the last one are refused. -/
def onGoaway (s : Session H) (header : FrameHeader) (payload : List UInt8) : Session H :=
  if header.streamIdentifier ≠ 0 then s.fail .protocolError
  else if header.length < 8 then s.fail .frameSizeError
  else
    let last := uint31FromBytes (payload.take 4)
    let graceful := u32FromBytes ((payload.take 8).drop 4) = ErrorCode.noError.toNat
    { s with
      goawayReceived := true
      goawayLastStreamId := last
      streams := s.streams.map fun stream =>
        if stream.id > last then
          { stream with fatalError := some (if graceful then .refusedStream else .goAway) }
        else if ¬ graceful ∧ ¬ stream.remoteClosed then
          { stream with fatalError := some .goAway }
        else stream }

/-- What is done with a frame. -/
def dispatchFrame (s : Session H) (header : FrameHeader) (payload : List UInt8) :
    Option (Session H) :=
  if s.expectingContinuation ≠ 0 ∧ header.frameType ≠ .continuation then
    some (s.fail .protocolError)
  else if ¬ s.settingsReceived ∧ header.frameType ≠ .settings then some (s.fail .protocolError)
  else match header.frameType with
    | .settings => s.onSettings header payload
    | .windowUpdate => s.onWindowUpdate header payload
    | .ping => some (s.onPing header payload)
    | .priority => some (s.onPriority header)
    | .headers => some (s.onHeaders dec header payload)
    | .continuation => some (s.onContinuation dec header payload)
    | .data => some (s.onData header payload)
    | .rstStream => some (s.onRstStream header payload)
    | .goaway => some (s.onGoaway header payload)
    | .pushPromise => some (s.fail .protocolError)
    | .other _ => some s

end Session

end Cruller.H2
