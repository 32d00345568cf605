import Cruller.Rt.Channel
import Cruller.Rt.HttpWire

/-!
# The host

`Host` of `rt/direct_host.zig` and the request manager of `rt/host_http.zig`. The host takes one
command at a time and answers through the channel to the engine; the HTTP thread calls back into
the requests it was given. What the surroundings answer during one command (memory contents,
allocations, system calls, sends) comes in as a record, so one function covers every outcome. A
failed check ends the program and is `none`.

`trace` records what the host did, oldest first. No function reads it.
-/

namespace Cruller

abbrev Fd := ℕ

/-- A place of the table of open files. -/
structure ResourceSlot where
  fd : Option Fd := none
  generation : UInt32 := 1
deriving DecidableEq, Repr

/-- What the manager keeps of a `Request`: its id and whether it has a stream buffer. -/
structure HttpRequest where
  requestId : UInt64
  streaming : Bool
deriving DecidableEq, Repr

/-- What `http_thread` is asked to do with a request. -/
inductive HttpSchedule where
  | shutdown
  | data
  | finish
deriving DecidableEq, Repr

/-- One thing the host did; `released` says whether the pool knew the reference. -/
inductive HostEvent where
  | released (ref : BufferRef) (known : Bool)
  | sent (command : Command) (ok : Bool)
  | opened (path : List UInt8) (flags mode : ℕ) (fd : Fd)
  | added (id : UInt64) (fd : Fd)
  | removed (id : UInt64) (fd : Fd)
  | closed (fd : Fd)
  | read (id : UInt64) (fd : Fd) (position : Option UInt64)
  | wrote (id : UInt64) (fd : Fd) (position : Option UInt64)
  | started (requestId : UInt64)
  | scheduled (requestId : UInt64) (what : HttpSchedule)
  | finished (requestId : UInt64)
deriving DecidableEq, Repr

/-- The host: its pool, the channels, the open files, the requests, and a trace of what it did. -/
structure Host where
  pool : DataPool := {}
  toHost : CommandChannel := {}
  toEngine : CommandChannel := {}
  resources : List ResourceSlot := []
  requests : List HttpRequest := []
  active : List HttpRequest := []
  stopping : Bool := false
  trace : List HostEvent := []
deriving DecidableEq, Repr

/-- What the surroundings answer while one command is dispatched. -/
structure Answers where
  mem : ℕ → UInt8 := fun _ => 0
  sendOk : Bool := true
  dupeOk : Bool := true
  opened : Except ℕ Fd := .error 2
  appendOk : Bool := true
  moved : Except ℕ ℕ := .ok 0
  createOk : Bool := true
  headersOk : Bool := true
  addOk : Bool := true
  writeOk : Bool := true

/-- `bun.sys.E` of the errors the host makes up. -/
inductive Errno where
  | badf
  | nomem
  | inval
  | opnotsupp
deriving DecidableEq, Repr

def Errno.toNat : Errno → ℕ
  | badf => 9
  | nomem => 12
  | inval => 22
  | opnotsupp => 95

def errorCode (code : Errno) : ℤ :=
  -code.toNat

/-- The flags of an open, unpacked. -/
structure FileOpenFlags where
  read : Bool
  write : Bool
  create : Bool
  truncate : Bool
  append : Bool
  exclusive : Bool
deriving DecidableEq, Repr

/-- The flags are the lowest bits. -/
def FileOpenFlags.decode (value : UInt64) : FileOpenFlags where
  read := value.toNat.testBit 0
  write := value.toNat.testBit 1
  create := value.toNat.testBit 2
  truncate := value.toNat.testBit 3
  append := value.toNat.testBit 4
  exclusive := value.toNat.testBit 5

/-- The `bun.O` bits of Linux. -/
def toSystemOpenFlags (flags : FileOpenFlags) : ℕ :=
  (if flags.read && flags.write then 2 else if flags.write then 1 else 0)
    ||| (if flags.create then 0o100 else 0) ||| (if flags.truncate then 0o1000 else 0)
    ||| (if flags.append then 0o2000 else 0) ||| (if flags.exclusive then 0o200 else 0)
    ||| 0o2000000

def resourceKindFile : ℕ := 1

/-- The handle a resource id packs: the slot's index below, its generation above. -/
def resourceHandle (id : UInt64) : Arena.Handle :=
  ⟨id.toNat % 2 ^ 32, UInt32.ofNat (id.toNat / 2 ^ 32)⟩

/-- The generation in the high half, the index in the low one. -/
def makeResourceId (index : ℕ) (generation : UInt32) : Option UInt64 := do
  let low ← intCastU32 index
  return (generation.toUInt64 <<< 32) ||| low.toUInt64

/-- An answer to the command, with nothing in it yet. -/
def completionFor (command : Command) : Command where
  kind := MessageKind.completion.toInt
  operation := command.operation
  requestId := command.requestId
  resourceId := command.resourceId

namespace Host

def record (h : Host) (e : HostEvent) : Host :=
  { h with trace := h.trace ++ [e] }

section

variable (h : Host) (e : HostEvent)

@[simp]
theorem record_resources : (h.record e).resources = h.resources := rfl

@[simp]
theorem record_trace : (h.record e).trace = h.trace ++ [e] := rfl

end

def release (h : Host) (ref : BufferRef) : Host :=
  { h with pool := h.pool.release ref }.record (.released ref (h.pool.getSlot ref).isSome)

/-- The payload of a command is let go of, if it has one. -/
def releasePayload (h : Host) (command : Command) : Host :=
  if command.payload.isEmpty then h else h.release command.payload

/-- `io.to_engine.send`. -/
def send (h : Host) (command : Command) (ok : Bool) : Host :=
  { h with toEngine := (h.toEngine.send command ok).1 }.record (.sent command ok)

/-- What could not be sent has its payload released. -/
def sendCompletion (h : Host) (command : Command) (ok : Bool) : Host × Bool :=
  let h := h.send command ok
  if ok then (h, true) else (h.releasePayload command, false)

def completeError (h : Host) (command : Command) (status : ℤ) (payload : BufferRef) (ok : Bool) :
    Host :=
  (h.sendCompletion { completionFor command with status, payload } ok).1

/-- The answer to an operation that there is not. -/
def unsupported (h : Host) (command : Command) (ok : Bool) : Host :=
  (h.releasePayload command).completeError command (errorCode .opnotsupp) {} ok

def dropInvalidDirection (h : Host) (command : Command) : Host :=
  h.releasePayload command

/-- The outer `none` is the cast that fails, the inner one the array that cannot grow. -/
def addResource (h : Host) (fd : Fd) (appendOk : Bool) : Option (Option (Host × UInt64)) :=
  match h.resources.zipIdx.find? fun x => x.1.fd.isNone with
  | some (slot, index) => do
    let id ← makeResourceId index slot.generation
    let resources := h.resources.set index { slot with fd := some fd }
    return some ({ h with resources }.record (.added id fd), id)
  | none =>
    if appendOk then do
      let id ← makeResourceId h.resources.length 1
      let resources := h.resources ++ [{ fd := some fd }]
      return some ({ h with resources }.record (.added id fd), id)
    else some none

/-- The descriptor of the slot that `getResource` finds. -/
def getResource (h : Host) (id : UInt64) : Option Fd :=
  match h.resources[(resourceHandle id).index]? with
  | none => none
  | some slot => if slot.generation ≠ (resourceHandle id).generation then none else slot.fd

/-- The slot is emptied, and its generation moves on. -/
def removeResource (h : Host) (id : UInt64) : Host × Bool :=
  match h.getResource id with
  | none => (h, false)
  | some fd =>
    let resources := h.resources.modify (resourceHandle id).index fun slot =>
      { fd := none, generation := Arena.bump slot.generation }
    (({ h with resources }.record (.removed id fd)).record (.closed fd), true)

/-- What `openFile` does with a path, once the payload is mapped and before it is released. -/
def openPath (h : Host) (command : Command) (path : List UInt8) (a : Answers) : Option Host :=
  if path.length = 0 ∨ (0 : UInt8) ∈ path then
    some (h.completeError command (errorCode .inval) {} a.sendOk)
  else if ¬ a.dupeOk then some (h.completeError command (errorCode .nomem) {} a.sendOk)
  else match a.opened with
    | .error errno => some (h.completeError command (-errno) {} a.sendOk)
    | .ok fd =>
      let flags := toSystemOpenFlags (.decode command.arg1)
      let mode := command.arg1.toNat / 2 ^ 32
      let h := h.record (.opened path flags mode fd)
      match h.addResource fd a.appendOk with
      | none => none
      | some none =>
        some ((h.record (.closed fd)).completeError command (errorCode .nomem) {} a.sendOk)
      | some (some (h, id)) =>
        let (h, sent) := h.sendCompletion { completionFor command with resourceId := id } a.sendOk
        if sent then some h else some (h.removeResource id).1

/-- `resource_open`: the payload is the path. -/
def openFile (h : Host) (command : Command) (a : Answers) : Option Host :=
  if command.arg0.toNat % 2 ^ 8 ≠ resourceKindFile then some (h.unsupported command a.sendOk)
  else match h.pool.map command.payload with
    | none => some (h.completeError command (errorCode .inval) {} a.sendOk)
    | some mapped =>
      (h.openPath command (mapped.slice a.mem) a).map (·.release command.payload)

/-- `resource_close`. -/
def closeResource (h : Host) (command : Command) (a : Answers) : Host :=
  let h := h.releasePayload command
  let (h, removed) := h.removeResource command.resourceId
  if removed then (h.sendCompletion (completionFor command) a.sendOk).1
  else h.completeError command (errorCode .badf) {} a.sendOk

/-- `arg0` is the file position, or the largest value for the current one. -/
def position (command : Command) : Option UInt64 :=
  if command.arg0.toNat = 2 ^ 64 - 1 then none else some command.arg0

/-- `resource_read`, into the payload, which goes back with the completion. -/
def readResource (h : Host) (command : Command) (a : Answers) : Option Host :=
  match h.getResource command.resourceId with
  | none => some (h.completeError command (errorCode .badf) command.payload a.sendOk)
  | some fd =>
    match h.pool.map command.payload with
    | none => some (h.completeError command (errorCode .inval) command.payload a.sendOk)
    | some _ =>
      let h := h.record (.read command.resourceId fd (position command))
      match a.moved with
      | .error errno => some (h.completeError command (-errno) command.payload a.sendOk)
      | .ok n => do
        let length ← intCastU32 n
        let payload := { command.payload with length }
        let arg0 := UInt64.ofNat n
        return (h.sendCompletion { completionFor command with payload, arg0 } a.sendOk).1

/-- The deferred release comes after the answer was sent. -/
def writeResource (h : Host) (command : Command) (a : Answers) : Host :=
  match h.getResource command.resourceId with
  | none =>
    (h.completeError command (errorCode .badf) {} a.sendOk).releasePayload command
  | some fd =>
    match h.pool.map command.payload with
    | none => (h.completeError command (errorCode .inval) {} a.sendOk).releasePayload command
    | some _ =>
      let h := h.record (.wrote command.resourceId fd (position command))
      match a.moved with
      | .error errno => (h.completeError command (-errno) {} a.sendOk).releasePayload command
      | .ok n =>
        let arg0 := UInt64.ofNat n
        (h.sendCompletion { completionFor command with arg0 } a.sendOk).1.releasePayload command

def methodUnsubscribe : UInt8 := 35

/-- `requests.get`. -/
def findRequest (h : Host) (requestId : UInt64) : Option HttpRequest :=
  h.requests.find? fun r => r.requestId = requestId

/-- `requests.remove`. -/
def removeRequest (h : Host) (requestId : UInt64) : Host :=
  { h with requests := h.requests.filter fun r => r.requestId ≠ requestId }

/-- `requests.put` replaces what was there. -/
def addRequest (h : Host) (r : HttpRequest) : Host :=
  { h with requests := r :: (h.removeRequest r.requestId).requests }

/-- The errors of `Request.create`, as far as `start` tells them apart. -/
inductive StartError where
  | outOfMemory
  | invalid
deriving DecidableEq, Repr

/-- A redirect mode that is no `FetchRedirect` fails the check of the conversion. -/
def createRequest (h : Host) (command : Command) (a : Answers) :
    Option (Except StartError Host) :=
  match h.pool.map command.payload with
  | none => some (.error .invalid)
  | some mapped =>
    if ¬ a.dupeOk then some (.error .outOfMemory)
    else match decodeRequest (mapped.slice a.mem) with
      | .error _ => some (.error .invalid)
      | .ok decoded =>
        if decoded.head.method > methodUnsubscribe then some (.error .invalid)
        else if ¬ a.createOk ∨ ¬ a.headersOk then some (.error .outOfMemory)
        else if decoded.head.redirect > 2 then none
        else if ¬ a.addOk then some (.error .outOfMemory)
        else
          let r : HttpRequest :=
            { requestId := command.requestId, streaming := decoded.head.flags.toNat.testBit 7 }
          let h := h.addRequest r
          some (.ok ({ h with active := h.active ++ [r] }.record (.started command.requestId)))

theorem createRequest_eq_ok {h h' : Host} {command : Command} {a : Answers}
    (hc : h.createRequest command a = some (.ok h')) : ∃ r, r.requestId = command.requestId ∧
      h' = { h.addRequest r with active := h.active ++ [r] }.record (.started command.requestId) := by
  unfold createRequest at hc
  repeat' split at hc
  all_goals simp only [Option.some.injEq, Except.ok.injEq, reduceCtorEq] at hc
  exact ⟨_, rfl, hc.symm⟩

/-- `http_request_start`; the completion comes only if it fails. -/
def httpStart (h : Host) (command : Command) (a : Answers) : Option Host := do
  match ← h.createRequest command a with
  | .ok h => return h.releasePayload command
  | .error e =>
    let completion := { Command.init .completion .httpResponseEnd with
      requestId := command.requestId, status := if e = .outOfMemory then -12 else -22 }
    return (h.send completion a.sendOk).releasePayload command

/-- `http_request_start` with `cancel`: the request is shut down by its callback. -/
def httpCancel (h : Host) (command : Command) : Host :=
  match h.findRequest command.requestId with
  | none => h
  | some _ => h.record (.scheduled command.requestId .shutdown)

/-- A piece of a body that is streamed. -/
def httpWriteBody (h : Host) (command : Command) (a : Answers) : Host :=
  match h.findRequest command.requestId with
  | none => h.releasePayload command
  | some r =>
    if ¬ r.streaming then h.releasePayload command
    else match h.pool.map command.payload with
      | none => h.releasePayload command
      | some _ =>
        if ¬ a.writeOk then h.releasePayload command
        else (h.record (.scheduled command.requestId .data)).releasePayload command

def httpEndBody (h : Host) (command : Command) : Host :=
  match h.findRequest command.requestId with
  | none => h
  | some _ => h.record (.scheduled command.requestId .finish)

/-- What the host does with a command. -/
def dispatch (h : Host) (command : Command) (a : Answers) : Option Host :=
  match command.messageKind with
  | .submit =>
    match command.operationKind with
    | .resourceOpen => h.openFile command a
    | .resourceClose => some (h.closeResource command a)
    | .resourceRead => h.readResource command a
    | .resourceWrite => some (h.writeResource command a)
    | .httpRequestStart => h.httpStart command a
    | .httpRequestBody => some (h.httpWriteBody command a)
    | .httpRequestEnd => some (h.httpEndBody command)
    | _ => some (h.unsupported command a.sendOk)
  | .cancel =>
    match command.operationKind with
    | .httpRequestStart => some (h.httpCancel command)
    | _ => some (h.unsupported command a.sendOk)
  | .shutdown => some { h with stopping := true }
  | .event => some (h.releasePayload command)
  | .completion => some (h.dropInvalidDirection command)
  | .other _ => some (h.dropInvalidDirection command)

/-- Every descriptor still in a slot is closed. -/
def deinit (h : Host) : Host :=
  { h with
    stopping := true
    resources := []
    trace := h.trace ++ (h.resources.filterMap (·.fd)).map .closed }

end Host

end Cruller
