import Mathlib.Tactic

/-!
# HTTP/2 frames

The wire layer of `http/H2FrameParser.zig` and the parts of `h2_client/dispatch.zig` that look at
one payload only. Fields of frames are natural numbers in the range their width allows; a `Frame`
is one that `parseFrames` hands on.
-/

namespace Cruller.H2

def maxWindowSize : ℕ := 2 ^ 31 - 1

def maxStreamId : ℕ := 2 ^ 31 - 1

def maxFrameSize : ℕ := 2 ^ 24 - 1

def defaultWindowSize : ℕ := 2 ^ 16 - 1

def defaultMaxFrameSize : ℕ := 16384

def localInitialWindowSize : ℕ := 2 ^ 24

def localMaxHeaderListSize : ℕ := 256 * 1024

def writeBufferHighWater : ℕ := 256 * 1024

def writeBufferControlLimit : ℕ := 1024 * 1024

/-- The codes after `continuation` are not told apart. -/
inductive FrameType where
  | data
  | headers
  | priority
  | rstStream
  | settings
  | pushPromise
  | ping
  | goaway
  | windowUpdate
  | continuation
  | other (value : UInt8)
deriving DecidableEq, Repr

def FrameType.ofInt : UInt8 → FrameType
  | 0 => .data
  | 1 => .headers
  | 2 => .priority
  | 3 => .rstStream
  | 4 => .settings
  | 5 => .pushPromise
  | 6 => .ping
  | 7 => .goaway
  | 8 => .windowUpdate
  | 9 => .continuation
  | value => .other value

/-- The codes that the client writes. -/
inductive ErrorCode where
  | noError
  | protocolError
  | flowControlError
  | refusedStream
  | cancel
deriving DecidableEq, Repr

def ErrorCode.toNat : ErrorCode → ℕ
  | noError => 0
  | protocolError => 1
  | flowControlError => 3
  | refusedStream => 7
  | cancel => 8

/-- What a session may fail with. -/
inductive Error where
  | protocolError
  | frameSizeError
  | flowControlError
  | compressionError
  | headerListTooLarge
  | enhanceYourCalm
  | streamReset
  | refusedStream
  | goAway
  | writeFailed
deriving DecidableEq, Repr

def hasFlag (flags flag : UInt8) : Bool :=
  flags &&& flag != 0

def flagAck : UInt8 := 0x1

def flagEndStream : UInt8 := 0x1

def flagEndHeaders : UInt8 := 0x4

def flagPadded : UInt8 := 0x8

def flagPriority : UInt8 := 0x20

/-- The number of which these are the bytes, the greatest first. -/
def beValue (bytes : List UInt8) : ℕ :=
  bytes.foldl (fun value b => 256 * value + b.toNat) 0

def beBytes32 (value : ℕ) : List UInt8 :=
  [UInt8.ofNat (value / 2 ^ 24), UInt8.ofNat (value / 2 ^ 16), UInt8.ofNat (value / 2 ^ 8),
    UInt8.ofNat value]

def u32FromBytes (src : List UInt8) : ℕ :=
  beValue src

/-- `UInt31WithReserved.fromBytes(src).uint31`. -/
def uint31FromBytes (src : List UInt8) : ℕ :=
  u32FromBytes src % 2 ^ 31

/-- A checked cast to `i32`. -/
def intCastI32 (value : ℤ) : Option ℤ :=
  if -2 ^ 31 ≤ value ∧ value < 2 ^ 31 then some value else none

/-- A checked cast to `u31`. -/
def intCastU31 (value : ℕ) : Option ℕ :=
  if value < 2 ^ 31 then some value else none

/-- The nine bytes before a payload. -/
structure FrameHeader where
  length : ℕ
  type : UInt8
  flags : UInt8 := 0
  streamIdentifier : ℕ
deriving DecidableEq, Repr

def FrameHeader.frameType (header : FrameHeader) : FrameType :=
  .ofInt header.type

/-- A complete frame within the limits that `parseFrames` checks. -/
structure Frame where
  header : FrameHeader
  payload : List UInt8
  length_eq : header.length = payload.length
  length_le : header.length ≤ defaultMaxFrameSize
  id_lt : header.streamIdentifier < 2 ^ 31
deriving DecidableEq, Repr

/-- A frame that was written. -/
structure OutFrame where
  type : FrameType
  flags : UInt8 := 0
  streamId : ℕ
  payload : List UInt8
deriving DecidableEq, Repr

def frameHeaderSize : ℕ := 9

def streamPrioritySize : ℕ := 5

def settingsUnitSize : ℕ := 6

/-- The type and the value of every complete unit of a SETTINGS payload. -/
def settingsUnits : List UInt8 → List (ℕ × ℕ)
  | t₀ :: t₁ :: v₀ :: v₁ :: v₂ :: v₃ :: rest =>
    (beValue [t₀, t₁], beValue [v₀, v₁, v₂, v₃]) :: settingsUnits rest
  | _ => []

/-- `payload[1 .. payload.len - pad]`. -/
def stripPadding : List UInt8 → Option (List UInt8)
  | [] => none
  | pad :: rest =>
    if pad.toNat ≥ (pad :: rest).length then none
    else some (((pad :: rest).take ((pad :: rest).length - pad.toNat)).drop 1)

/-- The block behind the priority, if there is one. -/
def stripPriority (flags : UInt8) (fragment : List UInt8) : Option (List UInt8) :=
  if hasFlag flags flagPriority then
    if fragment.length < streamPrioritySize then none else some (fragment.drop streamPrioritySize)
  else some fragment

/-- The header block fragment of a HEADERS payload: what is left without padding and priority. -/
def headersFragment (flags : UInt8) (payload : List UInt8) : Option (List UInt8) :=
  (if hasFlag flags flagPadded then stripPadding payload else some payload).bind
    (stripPriority flags)

end Cruller.H2
