import Cruller.Collections.LinearFifo
import Cruller.Valkey.OnData

/-!
# The Valkey client

Commands wait in `queue` until they are written and then, for their reply, in `in_flight`; both are
ring buffers of what holds the command's promise. Promises are numbered as they are made, and
`settled` records how they are settled. The socket takes of every write as many bytes as `accepts`
says next.
-/

namespace Cruller.Valkey

variable {δ : Type}

/-- What is known about a command and its answer. -/
structure Meta where
  return_as_bool : Bool
  supports_auto_pipelining : Bool
  return_as_buffer : Bool
  subscription_request : Bool
deriving DecidableEq

/-- A promise, by a number of its own. -/
structure Promise where
  «meta» : Meta
  id : ℕ
deriving DecidableEq

/-- A command that has been sent. -/
structure PromisePair where
  «meta» : Meta
  promise : Promise
deriving DecidableEq

/-- A command that has still to be sent. -/
structure Entry where
  serialized_data : List UInt8
  «meta» : Meta
  promise : Promise
deriving DecidableEq

/-- A command, as it is asked for. -/
structure Command where
  command : String
  args : List (List UInt8)
  «meta» : Meta

def decimal (n : ℕ) : List UInt8 := (Nat.toDigits 10 n).map Char.toUInt8

namespace Command

/-- A bulk string. -/
def bulk (str : List UInt8) : List UInt8 :=
  '$'.toUInt8 :: decimal str.length ++ crlf ++ str ++ crlf

/-- `write`. -/
def serialize (c : Command) : List UInt8 :=
  '*'.toUInt8 :: decimal (1 + c.args.length) ++ crlf ++ bulk (c.command.toList.map Char.toUInt8)
    ++ c.args.flatMap bulk

def not_allowed_autopipeline_commands : List String :=
  ["AUTH", "INFO", "QUIT", "EXEC", "MULTI", "WATCH", "SCRIPT", "SELECT", "CLUSTER", "DISCARD",
    "UNWATCH", "PIPELINE", "SUBSCRIBE", "PSUBSCRIBE", "UNSUBSCRIBE", "UNPSUBSCRIBE"]

/-- `Meta.check`. -/
def checkedMeta (c : Command) : Meta :=
  { c.meta with supports_auto_pipelining := !not_allowed_autopipeline_commands.contains c.command }

end Command

/-- What a failure says: a text of the client or one that the server sent. -/
inductive Message where
  | text (str : String)
  | reply (str : List UInt8)
deriving DecidableEq

/-- What a promise is rejected with. -/
inductive Reason where
  | error (message : Message) (err : RedisError)
  | js (value : ℕ)
  | reply (str : List UInt8)
deriving DecidableEq

/-- What becomes of a promise. -/
inductive Outcome (δ : Type) where
  | resolve (value : RESPValue δ)
  | subscribed (count : ℕ)
  | undefined
  | reject (why : Reason)

/-- A dynamic fifo; how many items fit into half a page is of no consequence. -/
abbrev queueType (tmpLen : ℕ+) : FifoType := ⟨.Dynamic, tmpLen, tmpLen.pos⟩

abbrev Queue (tmpLen : ℕ+) (α : Type) := LinearFifo (queueType tmpLen) α

structure QueueSizes where
  pair : ℕ+
  entry : ℕ+

inductive Status where
  | disconnected
  | connecting
  | connected
deriving DecidableEq

/-- The flags of a client. -/
structure ConnectionFlags where
  is_authenticated : Bool := false
  is_manually_closed : Bool := false
  is_selecting_db_internal : Bool := false
  enable_offline_queue : Bool := true
  needs_to_open_socket : Bool := true
  enable_auto_reconnect : Bool := true
  is_reconnecting : Bool := false
  failed : Bool := false
  enable_auto_pipelining : Bool := true
  finalized : Bool := false
deriving DecidableEq

section

variable (sz : QueueSizes)

/-- A failure that waits for the event loop, since a finalizer cannot run promises. -/
structure DeferredFailure where
  message : Message
  err : RedisError
  in_flight : Queue sz.pair PromisePair
  queue : Queue sz.entry Entry

/-- The client; the promises that it has settled are kept in `settled`. -/
structure ValkeyClient (δ : Type) where
  socketOpen : Bool
  status : Status
  /-- The bytes that are still to be written. -/
  write_buffer : List UInt8
  in_flight : Queue sz.pair PromisePair
  queue : Queue sz.entry Entry
  database : ℕ
  flags : ConnectionFlags
  retry_attempts : ℕ
  max_retries : ℕ
  /-- `auto_flusher.registered`. -/
  registered : Bool
  is_subscriber : Bool
  original_enable_offline_queue : Bool
  original_enable_auto_pipelining : Bool
  /-- The channels that have listeners. -/
  channels : ℕ
  promises : ℕ
  settled : List (ℕ × Outcome δ)
  deferred : List (DeferredFailure sz)
  accepts : List ℕ
  sent : List UInt8

end

namespace ValkeyClient

variable {sz : QueueSizes} (this : ValkeyClient sz δ)

def settle (p : Promise) (outcome : Outcome δ) : ValkeyClient sz δ :=
  { this with settled := this.settled ++ [(p.id, outcome)] }

/-- `handleOom`: a fifo that cannot grow ends the program, and the memory here never does. -/
def push {n : ℕ+} {α : Type} (f : Queue n α) (item : α) : Queue n α := (f.writeItem item).getD f

def connectionReady : Bool := this.flags.is_authenticated && !this.flags.is_selecting_db_internal

/-- What the readable slices show is rejected, and nothing else. -/
def rejectAllPendingCommands (pending : Queue sz.pair PromisePair) (entries : Queue sz.entry Entry)
    (why : Reason) : ValkeyClient sz δ :=
  let this := (pending.readableSlice 0).foldl (fun c pair => c.settle pair.promise (.reject why)) this
  (entries.readableSlice 0).foldl (fun c cmd => c.settle cmd.promise (.reject why)) this

section

variable {this}

theorem foldl_settle {α : Type} (promise : α → Promise) (outcome : Outcome δ) (items : List α)
    (c : ValkeyClient sz δ) :
    items.foldl (fun c item => c.settle (promise item) outcome) c =
      { c with settled := c.settled ++ items.map fun item => ((promise item).id, outcome) } := by
  induction items generalizing c with
  | nil => simp
  | cons item items ih =>
    rw [List.foldl_cons, ih]
    simp [settle]

theorem rejectAllPendingCommands_eq {pending : Queue sz.pair PromisePair}
    {entries : Queue sz.entry Entry} {why : Reason} :
    this.rejectAllPendingCommands pending entries why = { this with
      settled := this.settled ++ ((pending.readableSlice 0).map (·.promise.id)
        ++ (entries.readableSlice 0).map (·.promise.id)).map fun id => (id, .reject why) } := by
  simp [rejectAllPendingCommands, foldl_settle, Function.comp_def]

end

/-- `close` is the function that closes the socket. -/
def failWithJSValueBy (close : ValkeyClient sz δ → ValkeyClient sz δ) (why : Reason) :
    ValkeyClient sz δ :=
  if this.flags.failed then this
  else
    let this := { this with flags := { this.flags with failed := true } }
    let this := { this with in_flight := .initDynamic, queue := .initDynamic }
      |>.rejectAllPendingCommands this.in_flight this.queue why
    if this.connectionReady then this
    else close { this with flags := { this.flags with is_manually_closed := true } }

/-- A failure is deferred when the client has been finalized. -/
def failBy (close : ValkeyClient sz δ → ValkeyClient sz δ) (message : Message) (err : RedisError) :
    ValkeyClient sz δ :=
  if this.flags.failed then this
  else if this.flags.finalized then
    if 0 < this.queue.count + this.in_flight.count then
      { this with
        deferred := this.deferred ++ [⟨message, err, this.in_flight, this.queue⟩]
        in_flight := .initDynamic
        queue := .initDynamic }
    else this
  else this.failWithJSValueBy close (.error message err)

/-- `onClose`, where the socket is detached already; the listeners of `onValkeyClose` are not part
of the state. -/
def onClose : ValkeyClient sz δ :=
  let this := { this with registered := false, write_buffer := [] }
  if this.flags.is_manually_closed || !this.flags.enable_auto_reconnect then
    this.failBy id (.text "Connection closed") .ConnectionClosed
  else
    let this := { this with retry_attempts := this.retry_attempts + 1 }
    if this.max_retries < this.retry_attempts then
      this.failBy id (.text "Max reconnection attempts reached") .ConnectionClosed
    else
      { this with flags := { this.flags with
        is_reconnecting := true
        is_authenticated := false
        is_selecting_db_internal := false } }

/-- The socket has closed. -/
def socketClosed : ValkeyClient sz δ :=
  { ({ this with socketOpen := false } : ValkeyClient sz δ).onClose with status := .disconnected }

def close : ValkeyClient sz δ := if this.socketOpen then this.socketClosed else this

def failWithJSValue (why : Reason) : ValkeyClient sz δ := this.failWithJSValueBy close why

def fail (message : Message) (err : RedisError) : ValkeyClient sz δ := this.failBy close message err

/-- The user closes the client. -/
def disconnect : ValkeyClient sz δ :=
  let this := { this with
    flags := { this.flags with is_manually_closed := true }
    registered := false }
  if this.status = .connected ∨ this.status = .connecting then this.close else this

/-- `DeferredFailure.run` of the first that waits. -/
def runDeferred : ValkeyClient sz δ :=
  match this.deferred with
  | [] => this
  | d :: ds =>
    { this with deferred := ds }.rejectAllPendingCommands d.in_flight d.queue
      (.error d.message d.err)

/-- `globalThis` says whether there is a global object. Without one the client is being finalized, and
the promises are dropped: nothing may call into JavaScript. -/
def deinit (globalThis : Bool) : ValkeyClient sz δ :=
  let pending := this.in_flight
  let commands := this.queue
  let this := { this with in_flight := .initDynamic, queue := .initDynamic }
  let this :=
    if globalThis then
      this.rejectAllPendingCommands pending commands
        (.error (.text "Connection closed") .ConnectionClosed)
    else this
  { this with write_buffer := [], registered := false }

section

variable {this} {close : ValkeyClient sz δ → ValkeyClient sz δ} {message : Message}
  {err : RedisError}

theorem socketOpen_onClose : this.onClose.socketOpen = this.socketOpen := by
  have hby : ∀ (c : ValkeyClient sz δ) (m : Message) (e : RedisError),
      (c.failBy id m e).socketOpen = c.socketOpen := by
    intro c m e
    simp only [failBy, failWithJSValueBy, rejectAllPendingCommands_eq]
    split_ifs <;> rfl
  simp only [onClose]
  split_ifs
  · exact hby ..
  · exact hby ..
  · rfl

theorem socketOpen_close : this.close.socketOpen = false := by
  rw [ValkeyClient.close]
  split_ifs with hop
  · exact socketOpen_onClose
  · simpa using hop

theorem socketOpen_fail : (this.fail message err).socketOpen =
    (this.socketOpen && (this.flags.failed || this.flags.finalized || this.connectionReady)) := by
  rw [fail, failBy, failWithJSValueBy]
  simp only [rejectAllPendingCommands_eq]
  split_ifs with hfl hfin hpos hrd
  · simp [hfl]
  · simp [hfin]
  · simp [hfin]
  · have : this.connectionReady = true := hrd
    simp [this]
  · have hnot : this.connectionReady = false := by simpa [connectionReady] using hrd
    rw [socketOpen_close]
    simp [hfl, hfin, hnot]

end

/-- The socket takes as much as it will. -/
def socketWrite (data : List UInt8) : ValkeyClient sz δ × ℕ :=
  let wrote := min (this.accepts.headD data.length) data.length
  ({ this with accepts := this.accepts.tail, sent := this.sent ++ data.take wrote }, wrote)

/-- What waits is written, as far as the socket takes it. -/
def flushData : ValkeyClient sz δ :=
  if this.write_buffer = [] then this
  else
    let (this, wrote) := this.socketWrite this.write_buffer
    { this with write_buffer := this.write_buffer.drop wrote }

/-- Pipelineable commands at the front of what of the queue lies before the end of its buffer. -/
def onAutoFlush : ValkeyClient sz δ :=
  if this.status ≠ .connected then { this with registered := false }
  else
    let commands := (this.queue.readableSlice 0).takeWhile (·.meta.supports_auto_pipelining)
    let this := { this with
      in_flight := commands.foldl (fun f (cmd : Entry) => push f ⟨cmd.meta, cmd.promise⟩) this.in_flight
      write_buffer := this.write_buffer ++ commands.flatMap Entry.serialized_data
      queue := this.queue.discard commands.length }
    let this := this.flushData
    { this with registered := 0 < this.queue.count }

/-- The command at the front is sent, if it may be. -/
def drain : ValkeyClient sz δ :=
  let blocked := 0 < this.in_flight.count ∧
    ∃ cmd ∈ (this.queue.readableSlice 0).head?, !cmd.meta.supports_auto_pipelining
  if blocked then this
  else
    match this.queue.readItem with
    | (none, _) => this
    | (some cmd, queue) =>
      let this := { this with
        queue := queue
        in_flight := push this.in_flight ⟨cmd.meta, cmd.promise⟩ }
      if this.connectionReady ∧ this.write_buffer = [] then
        let (this, wrote) := this.socketWrite cmd.serialized_data
        { this with write_buffer := this.write_buffer ++ cmd.serialized_data.drop wrote }
      else { this with write_buffer := this.write_buffer ++ cmd.serialized_data }

/-- The command at the front may be sent with others. -/
def headPipelines : Bool :=
  match this.queue.peekItem 0 with
  | some cmd => cmd.meta.supports_auto_pipelining
  | none => false

/-- What goes out next, when nothing waits in the buffer. -/
def sendNextCommand : ValkeyClient sz δ :=
  let this :=
    if this.write_buffer = [] ∧ this.connectionReady then
      if 0 < this.queue.count then
        if this.headPipelines then { this with registered := true }
        else if this.in_flight.count = 0 then
          let this := this.drain
          if 0 < this.queue.count ∧ this.headPipelines then { this with registered := true }
          else this
        else this
      else if this.in_flight.count = 0 then this.drain
      else this
    else this
  this.flushData

/-- A command is sent, or put behind those that wait. -/
def enqueue (command : Command) (promise : Promise) : ValkeyClient sz δ :=
  let can_pipeline :=
    command.meta.supports_auto_pipelining && this.flags.enable_auto_pipelining
  if 0 < this.queue.count ∨ (!can_pipeline ∧ 0 < this.in_flight.count) ∨ !this.connectionReady
      ∨ can_pipeline then
    let this := { this with
      queue := push this.queue ⟨command.serialize, command.meta, promise⟩ }
    if this.status = .connected ∧ can_pipeline then { this with registered := true } else this
  else
    { this with
      write_buffer := this.write_buffer ++ command.serialize
      in_flight := push this.in_flight ⟨command.meta, promise⟩ }.flushData

/-- A command with a new promise; a client that cannot take it rejects the promise. -/
def send (command : Command) : ValkeyClient sz δ :=
  let command := { command with «meta» := command.checkedMeta }
  let promise : Promise := ⟨command.meta, this.promises⟩
  let this := { this with promises := this.promises + 1 }
  if this.flags.failed then
    this.settle promise (.reject (.error (.text "Connection has failed") .ConnectionClosed))
  else
    match this.status with
    | .connected =>
      let this := this.enqueue command promise
      if this.flags.enable_auto_pipelining ∧ command.meta.supports_auto_pipelining
          ∧ this.status = .connected ∧ 0 < this.queue.count then { this with registered := true }
      else this
    | _ =>
      if this.flags.enable_offline_queue then this.enqueue command promise
      else
        this.settle promise (.reject (.error
          (.text "Connection is closed and offline queue is disabled") .ConnectionClosed))

def ok : List UInt8 := ['O'.toUInt8, 'K'.toUInt8]

/-- The server has let the client in. -/
def onValkeyConnect : ValkeyClient sz δ :=
  { this with
    status := .connected
    flags := { this.flags with is_authenticated := true, is_reconnecting := false }
    retry_attempts := 0 }.sendNextCommand

/-- The entries of a HELLO reply ask for another protocol than RESP3. -/
def otherProtocol : List (RESPValue δ × RESPValue δ) → Bool
  | [] => false
  | (.SimpleString key, .Integer proto_version) :: entries =>
    (key = "proto".toList.map Char.toUInt8 ∧ proto_version ≠ 3) || otherProtocol entries
  | _ :: entries => otherProtocol entries

/-- The answer to HELLO. -/
def handleHelloResponse (value : RESPValue δ) : ValkeyClient sz δ :=
  match value with
  | .Error err => this.fail (.reply err) .AuthenticationFailed
  | .SimpleString str =>
    if str = ok then this.onValkeyConnect
    else this.fail (.text "Authentication failed (unexpected response)") .AuthenticationFailed
  | .Map map =>
    if otherProtocol map then
      this.fail (.text "Server does not support RESP3") .UnsupportedProtocol
    else this.onValkeyConnect
  | _ => this.fail (.text "Authentication failed with unexpected response") .AuthenticationFailed

/-- The answer to SELECT. -/
def handleSelectResponse (value : RESPValue δ) : ValkeyClient sz δ :=
  let this := { this with flags := { this.flags with is_selecting_db_internal := false } }
  match value with
  | .Error err => this.fail (.reply err) .InvalidCommand
  | .SimpleString str =>
    if str = ok then this.sendNextCommand
    else this.fail (.text "SELECT command failed with non-OK response") .InvalidResponse
  | _ =>
    this.fail (.text "Received non-SELECT response while in the SELECT state.") .InvalidResponse

/-- The pushes that are about a subscription. -/
inductive SubscriptionPushMessage where
  | message
  | subscribe
  | unsubscribe
deriving DecidableEq

def SubscriptionPushMessage.ofKind (kind : List UInt8) : Option SubscriptionPushMessage :=
  if kind = "message".toList.map Char.toUInt8 then some message
  else if kind = "subscribe".toList.map Char.toUInt8 then some subscribe
  else if kind = "unsubscribe".toList.map Char.toUInt8 then some unsubscribe
  else none

/-- The first subscription turns queueing and pipelining off. -/
def addSubscription : ValkeyClient sz δ :=
  if this.is_subscriber then this
  else { this with
    original_enable_offline_queue := this.flags.enable_offline_queue
    original_enable_auto_pipelining := this.flags.enable_auto_pipelining
    is_subscriber := true }

/-- Behind the last subscription they are as they were. -/
def removeSubscription : ValkeyClient sz δ :=
  if this.channels = 0 then
    { this with
      flags := { this.flags with
        enable_offline_queue := this.original_enable_offline_queue
        enable_auto_pipelining := this.original_enable_auto_pipelining }
      is_subscriber := false }
  else this

/-- The listeners of a channel get a message, which has the channel and a text. -/
def onValkeyMessage (data : List (RESPValue δ)) : ValkeyClient sz δ :=
  if !this.is_subscriber ∨ data.length < 2 then this else this.sendNextCommand

/-- The promise of a pair, if there is a pair. -/
def settlePair (pair : Option PromisePair) (outcome : Outcome δ) : ValkeyClient sz δ :=
  match pair with
  | some p => this.settle p.promise outcome
  | none => this

/-- A push about a subscription. -/
def handleSubscribeResponse (msg_type : SubscriptionPushMessage) (data : List (RESPValue δ))
    (pair : Option PromisePair) : ValkeyClient sz δ :=
  match msg_type with
  | .message => this.onValkeyMessage data
  | .subscribe => this.addSubscription.sendNextCommand.settlePair pair (.subscribed this.channels)
  | .unsubscribe => this.sendNextCommand.removeSubscription.settlePair pair .undefined

/-- A push of a subscriber that needs no promise. -/
def keepsPair (value : RESPValue δ) : Bool :=
  match this.is_subscriber, value with
  | true, .Push kind _ =>
    match SubscriptionPushMessage.ofKind kind with
    | some .message => true
    | some _ => this.in_flight.count == 0
    | none => false
  | _, _ => false

/-- An answer that is no such push. -/
def handleReply (value : RESPValue δ) (pair : Option PromisePair) : ValkeyClient sz δ :=
  match pair with
  | none => this
  | some pair =>
    match value with
    | .Error str => this.settle pair.promise (.reject (.reply str))
    | .Integer int =>
      this.settle pair.promise (.resolve
        (if pair.meta.return_as_bool then .Boolean (0 < int) else .Integer int))
    | value => this.settle pair.promise (.resolve value)

/-- The rest of `handleResponse`, with the promise that has been taken for the reply. -/
def handlePaired (value : RESPValue δ) (pair : Option PromisePair) : ValkeyClient sz δ :=
  let request_is_subscribe := pair.any (·.meta.subscription_request)
  if this.is_subscriber || request_is_subscribe then
    match value with
    | .Error err => this.fail (.reply err) .InvalidResponse
    | .Push kind data =>
      match SubscriptionPushMessage.ofKind kind with
      | some msg_type => this.handleSubscribeResponse msg_type data pair
      | none =>
        this.fail (.text "Unexpected push message kind without promise") .InvalidResponseType
    | value => this.handleReply value pair
  else this.handleReply value pair

/-- An answer, which belongs to the command that was sent first. -/
def handleResponse (value : RESPValue δ) : ValkeyClient sz δ :=
  if !this.flags.is_authenticated then this.handleHelloResponse value
  else if this.flags.is_selecting_db_internal then this.handleSelectResponse value
  else if this.keepsPair value then this.handlePaired value none
  else
    let (pair, in_flight) := this.in_flight.readItem
    { this with in_flight }.handlePaired value pair

/-- The client as what `onData` hands its values to. No reply makes `handleResponse` fail, other
than a failing JavaScript engine. -/
def handler : Handler (ValkeyClient sz δ) δ where
  handleResponse this value := (this.handleResponse value, none)
  fail this message err := this.fail (.text message) err
  sendNextCommand := sendNextCommand
  stopped this := this.status = .disconnected ∨ this.flags.failed
  isOpen := socketOpen
  isOpen_fail s m m' e := by rw [socketOpen_fail, socketOpen_fail]

/-- The commands of `authenticate`: HELLO, and SELECT of a database. -/
def authenticate (hello : Command) : ValkeyClient sz δ :=
  let this := { this with write_buffer := this.write_buffer ++ hello.serialize }
  if 0 < this.database then
    let select : Command := ⟨"SELECT", [decimal this.database], hello.meta⟩
    { this with
      write_buffer := this.write_buffer ++ select.serialize
      flags := { this.flags with is_selecting_db_internal := true } }
  else this

/-- `onOpen` of a plain socket; over TLS `start` waits for the handshake. -/
def onOpen (hello : Command) : ValkeyClient sz δ :=
  let this := { this with
    socketOpen := true
    write_buffer := []
    flags := { this.flags with
      failed := false
      is_authenticated := false
      is_selecting_db_internal := false } }
  (this.authenticate hello).flushData

/-- Why no socket is opened: the TLS context cannot be made, or `connect` of the address throws. -/
inductive NoSocket where
  | noContext
  | thrown (err_value : ℕ)
deriving DecidableEq

/-- `connect` of the JavaScript client, and what it throws. -/
def connect (failed : Option NoSocket) : ValkeyClient sz δ × Option ℕ :=
  let this := { this with flags := { this.flags with needs_to_open_socket := false } }
  match failed with
  | none => ({ this with status := .connecting }, none)
  | some .noContext =>
    let this := { this with flags := { this.flags with enable_auto_reconnect := false } }
    ({ this.fail (.text "Failed to create TLS context") .ConnectionClosed with
      status := .disconnected }, none)
  | some (.thrown err_value) => ({ this with status := .disconnected }, some err_value)

/-- What `connect` throws goes to `failWithJSValue` of the JavaScript client, which calls the listener
of `onclose` and leaves the commands where they are. -/
def reconnect (failed : Option NoSocket) : ValkeyClient sz δ :=
  if this.flags.is_reconnecting then (this.connect failed).1 else this

/-- `failed` is what the socket could not be opened with. -/
def doConnect (failed : Option NoSocket) : ValkeyClient sz δ :=
  if this.status = .connected then this
  else
    let this := { this with
      flags := { this.flags with is_manually_closed := false, failed := false } }
    if this.flags.needs_to_open_socket then
      match this.connect failed with
      | (this, none) => this
      | (this, some _) => { this with flags := { this.flags with needs_to_open_socket := true } }
    else if this.status = .disconnected then
      { this with
        flags := { this.flags with is_reconnecting := true }
        retry_attempts := 0 }.reconnect failed
    else this

/-- `send` of the JavaScript client, which opens the first socket. -/
def jsSend (failed : Option NoSocket) (command : Command) : ValkeyClient sz δ :=
  if this.flags.needs_to_open_socket then
    match this.connect failed with
    | (this, none) => this.send command
    | (this, some err_value) =>
      { this with
        flags := { this.flags with needs_to_open_socket := true }
        promises := this.promises + 1 }.settle ⟨command.meta, this.promises⟩
          (.reject (.js err_value))
  else this.send command

end ValkeyClient

end Cruller.Valkey
