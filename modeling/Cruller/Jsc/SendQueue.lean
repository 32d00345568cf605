import Cruller.Jsc.Ipc

/-!
# The queue of messages to send

`SendQueue` in `jsc/ipc.zig`: messages wait in `queue` while the socket takes no more, or while the
other side has yet to acknowledge a handle; `handleIPCMessage` puts the answers to handles of the
other side in front.

A POSIX socket takes bytes at once, a Windows pipe reports later; both are here. `History` is what
is seen from outside, and read by nothing.
-/

namespace Cruller.Jsc.Ipc

private def ascii (text : String) : List UInt8 := text.toList.map Char.toUInt8

namespace advanced

def version : ℕ := 1

/-- The packet with the version, which JSON does not have. -/
def getVersionPacket : List UInt8 := IPCMessageType.Version.intFromEnum :: leBytes 4 version

def getAckPacket : List UInt8 :=
  [2, 0x24, 0, 0, 0, 13, 0, 0, 0, 2, 3, 0, 0, 0x80] ++ ascii "cmd" ++ [0x10, 0x0F, 0, 0, 0x80] ++
    ascii "NODE_HANDLE_ACK" ++ [0xFF, 0xFF, 0xFF, 0xFF]

def getNackPacket : List UInt8 :=
  [2, 0x25, 0, 0, 0, 13, 0, 0, 0, 2, 3, 0, 0, 0x80] ++ ascii "cmd" ++ [0x10, 0x10, 0, 0, 0x80] ++
    ascii "NODE_HANDLE_NACK" ++ [0xFF, 0xFF, 0xFF, 0xFF]

end advanced

namespace json

def getVersionPacket : List UInt8 := []

def getAckPacket : List UInt8 := ascii "\x7b\"cmd\":\"NODE_HANDLE_ACK\"\x7d\n"

def getNackPacket : List UInt8 := ascii "\x7b\"cmd\":\"NODE_HANDLE_NACK\"\x7d\n"

end json

def getVersionPacket : Mode → List UInt8
  | .advanced => advanced.getVersionPacket
  | .json => json.getVersionPacket

def getAckPacket : Mode → List UInt8
  | .advanced => advanced.getAckPacket
  | .json => json.getAckPacket

def getNackPacket : Mode → List UInt8
  | .advanced => advanced.getNackPacket
  | .json => json.getNackPacket

/-- What a process crashes at. -/
inductive Crash where
  /-- `debugAssert` in `insertMessage`. -/
  | position
  /-- Another assertion, or `unreachable`. -/
  | assertion
  /-- A cast to `i32`. -/
  | intCast
  /-- `retry_count` overflows. -/
  | overflow
deriving DecidableEq

/-- Who is told when an item has been sent. -/
inductive CallbackList (C : Type) where
  | ack_nack
  | none
  | callback (callback : C)
  | callback_array (callbacks : List C)
deriving DecidableEq

inductive AckNack where
  | ack
  | nack
deriving DecidableEq

variable {V C H : Type}

namespace CallbackList

/-- `none` is a value that cannot be called. -/
def init : Option C → CallbackList C
  | some c => .callback c
  | Option.none => .none

/-- One callback more. -/
def push : CallbackList C → C → Except Crash (CallbackList C)
  | .ack_nack, _ => .error .assertion
  | .none, c => .ok (.callback c)
  | .callback prev, c => .ok (.callback_array [prev, c])
  | .callback_array arr, c => .ok (.callback_array (arr ++ [c]))

/-- What `callNextTick` calls. -/
def callNextTick : CallbackList C → List C
  | .ack_nack => []
  | .none => []
  | .callback c => [c]
  | .callback_array arr => arr

end CallbackList

/-- An item of the queue: bytes, how many of them have been written, and a handle with them. -/
structure SendHandle (C H : Type) where
  data : List UInt8
  cursor : ℕ
  handle : Option H
  callbacks : CallbackList C
  /-- History: which messages it was made for, by their place in `History.asked`. -/
  messages : List ℕ
deriving DecidableEq

def SendHandle.isAckNack (item : SendHandle C H) : Prop := item.callbacks = .ack_nack

instance (item : SendHandle C H) : Decidable item.isAckNack :=
  match h : item.callbacks with
  | .ack_nack => isTrue h
  | .none | .callback _ | .callback_array _ => isFalse (by rw [SendHandle.isAckNack, h]; simp)

/-- A message that was to be sent; `bytes` is `none` where serialization failed. -/
structure Asked (C H : Type) where
  bytes : Option (List UInt8)
  callback : Option C
  handle : Option H
deriving DecidableEq

/-- What is on the wire, in one piece. -/
inductive Transmission where
  | messages (ids : List ℕ)
  | packet (bytes : List UInt8)
deriving DecidableEq

/-- What was asked, and what came of it. -/
structure History (C H : Type) where
  /-- The version packet, where there is one, and then every message. -/
  asked : List (Asked C H)
  /-- The bytes the socket took. -/
  wire : List UInt8
  /-- The items that were written as a whole. -/
  log : List Transmission
  /-- The messages whose item was completed. -/
  finished : List ℕ
  /-- The callbacks that were called. -/
  called : List C
  /-- The answers to messages with a handle. -/
  answers : List (ℕ × AckNack)
deriving DecidableEq

/-- The queue of one side, with what waits for an answer. -/
structure SendQueue (C H : Type) where
  queue : List (SendHandle C H)
  waiting_for_ack : Option (SendHandle C H)
  retry_count : ℕ
  has_written_version : Bool
  mode : Mode
  incoming_fd : Option H
  /-- The socket is open. -/
  socket : Bool
  write_in_progress : Bool
  /-- The length of the slice that a Windows pipe is writing. -/
  windows_write : Option ℕ
  try_close_after_write : Bool
  history : History C H
deriving DecidableEq

def MAX_HANDLE_RETRANSMISSIONS : ℕ := 3

/-- What the socket does with a write. -/
inductive Wrote where
  /-- The socket has room for so many bytes. -/
  | room (n : ℕ)
  | failed
  /-- The pipe reports later. -/
  | later
deriving DecidableEq

inductive ContinueSendReason where
  | new_message_appended
  | on_writable
deriving DecidableEq

inductive SerializeAndSendResult where
  | success
  | failure
  | backoff
deriving DecidableEq

/-- The longest write, `maxInt(i32)`. -/
def max_i32 : ℕ := 2 ^ 31 - 1

def History.init : History C H := ⟨[], [], [], [], [], []⟩

namespace SendQueue

def init (mode : Mode) : SendQueue C H where
  queue := []
  waiting_for_ack := none
  retry_count := 0
  has_written_version := false
  mode := mode
  incoming_fd := none
  socket := true
  write_in_progress := false
  windows_write := none
  try_close_after_write := false
  history := .init

variable (env : Env V) (this : SendQueue C H)

def socketClosed : SendQueue C H :=
  { this with windows_write := none, socket := false }

/-- `is_deinit` is whether it is called from `deinit`. -/
def closeSocket (is_deinit : Bool) : SendQueue C H :=
  if this.socket ∧ this.windows_write.isSome ∧ ¬ is_deinit then
    { this with try_close_after_write := true }
  else this.socketClosed

/-- `SendHandle.complete`. -/
def complete (item : SendHandle C H) : SendQueue C H :=
  { this with history := { this.history with
      finished := this.history.finished ++ item.messages
      called := this.history.called ++ item.callbacks.callNextTick } }

/-- History: the socket took so many bytes of the item. -/
def took (item : SendHandle C H) (n : ℕ) : SendQueue C H :=
  { this with history := { this.history with
      wire := this.history.wire ++ (item.data.drop item.cursor).take n } }

/-- History: the item was written as a whole. -/
def transmitted (item : SendHandle C H) : SendQueue C H :=
  { this with history := { this.history with
      log := this.history.log ++
        [if item.isAckNack then .packet item.data else .messages item.messages] } }

/-- How `_onWriteComplete` ends: with `continueSend`, or not. -/
inductive After (C H : Type) where
  | continueSend (this : SendQueue C H)
  | wait (this : SendQueue C H)

/-- `_onWriteComplete` where `first` is the first item. -/
def onWriteComplete (first : SendHandle C H) (rest : List (SendHandle C H)) (n : ℤ) :
    Except Crash (After C H) :=
  let this := { this with write_in_progress := false, queue := first :: rest }
  let to_send := first.data.drop first.cursor
  if n = to_send.length then
    let this := ({ this with queue := rest }.took first to_send.length).transmitted first
    if first.handle.isSome then
      .ok (.continueSend { this with waiting_for_ack := some first })
    else .ok (.continueSend (this.complete first))
  else if 0 < n then
    if max_i32 < first.data.length then .error .intCast
    else if n < first.data.length then
      .ok (.wait { this.took first n.toNat with
        queue := { first with cursor := first.cursor + n.toNat } :: rest })
    else .ok (.wait (this.closeSocket true))
  else if n = 0 then .ok (.wait this)
  else .ok (.wait (this.closeSocket true))

/-- `_write`: what is reported at once, and what becomes of the writes after it. -/
def write (to_send : List UInt8) (writes : List Wrote) : Option ℤ × List Wrote :=
  if this.socket then
    match writes with
    | [] => (some 0, [])
    | .room n :: writes => (some (min n (min to_send.length max_i32) : ℕ), writes)
    | .failed :: writes => (some (-1), writes)
    | .later :: writes => (none, writes)
  else (some (-1), writes)

/-- `continueSend` on this queue. -/
def continueSendFrom : List (SendHandle C H) → SendQueue C H → ContinueSendReason → List Wrote →
    Except Crash (SendQueue C H)
  | [], this, _, _ => .ok { this with queue := [] }
  | first :: rest, this, reason, writes =>
    if this.write_in_progress then .ok { this with queue := first :: rest }
    else if this.waiting_for_ack.isSome ∧ ¬ first.isAckNack then
      .ok { this with queue := first :: rest }
    else if reason ≠ .on_writable ∧ first.cursor ≠ 0 then
      .ok { this with queue := first :: rest }
    else
      let to_send := first.data.drop first.cursor
      if to_send.length = 0 then
        continueSendFrom rest ({ this with queue := rest }.complete first) reason writes
      else
        match this.write to_send writes with
        | (none, _) =>
          .ok { this with
            queue := first :: rest
            write_in_progress := true
            windows_write := some (min to_send.length max_i32) }
        | (some n, writes) =>
          match this.onWriteComplete first rest n with
          | .error e => .error e
          | .ok (.wait this) => .ok this
          | .ok (.continueSend this) => continueSendFrom rest this .on_writable writes

/-- What is at the front is written, as far as the socket takes it. -/
def continueSend (reason : ContinueSendReason) (writes : List Wrote) :
    Except Crash (SendQueue C H) :=
  continueSendFrom this.queue this reason writes

/-- `_onWriteComplete` for a write that is reported later. -/
def onWriteCompleteLater (n : ℤ) (writes : List Wrote) : Except Crash (SendQueue C H) :=
  match this.queue with
  | [] => if env.allow_assert then .error .assertion else .ok this
  | first :: rest =>
    if this.write_in_progress then
      match this.onWriteComplete first rest n with
      | .error e => .error e
      | .ok (.wait this) => .ok this
      | .ok (.continueSend this) => this.continueSend .on_writable writes
    else if env.allow_assert then .error .assertion
    else .ok this

/-- `_windowsOnWriteComplete`; what it reports is dropped where the socket has closed before. -/
def windowsOnWriteComplete (ok : Bool) (writes : List Wrote) : Except Crash (SendQueue C H) :=
  match this.windows_write with
  | none => .ok this
  | some write_len => do
    let this ← { this with windows_write := none }.onWriteCompleteLater env
      (if ok then write_len else -1) writes
    .ok (if this.try_close_after_write then this.closeSocket false else this)

/-- The items before the one that is written to, and that item. -/
def startMessage (callback : Option C) (handle : Option H) :
    Except Crash (List (SendHandle C H) × SendHandle C H) :=
  let fresh : SendHandle C H := ⟨[], 0, handle, .init callback, []⟩
  if env.allow_assert ∧ ¬ this.has_written_version then .error .assertion
  else
    match this.queue.getLast? with
    | none => .ok (this.queue, fresh)
    | some last =>
      if handle.isNone ∧ last.handle.isNone ∧ ¬ last.isAckNack ∧
          ¬ (this.queue.length = 1 ∧ this.write_in_progress) then
        match callback with
        | none => .ok (this.queue.dropLast, last)
        | some callback =>
          (last.callbacks.push callback).map fun callbacks =>
            (this.queue.dropLast, { last with callbacks := callbacks })
      else .ok (this.queue, fresh)

/-- A packet goes before what has not begun to be written. -/
def insertMessage (message : SendHandle C H) : Except Crash (SendQueue C H) :=
  if env.allow_assert ∧ ¬ this.has_written_version then .error .assertion
  else
    match this.queue with
    | [] =>
      if this.write_in_progress then .error .assertion
      else .ok { this with queue := [message] }
    | first :: rest =>
      if first.cursor = 0 ∧ ¬ this.write_in_progress then
        .ok { this with queue := message :: first :: rest }
      else if env.allow_assert ∧ ¬ first.isAckNack then .error .position
      else .ok { this with queue := first :: message :: rest }

/-- History: the item that waits is answered. -/
def answered (item : SendHandle C H) (ack_nack : AckNack) : SendQueue C H :=
  { this with history := { this.history with
      answers := this.history.answers ++ item.messages.map (·, ack_nack) } }

/-- The item that waited is finished. -/
def consume (item : SendHandle C H) (writes : List Wrote) : Except Crash (SendQueue C H) :=
  { this.complete item with waiting_for_ack := none }.continueSend .new_message_appended writes

/-- The other side answers; a refused item is sent again, up to a limit. -/
def onAckNack (ack_nack : AckNack) (writes : List Wrote) : Except Crash (SendQueue C H) :=
  match this.waiting_for_ack with
  | none => .ok this
  | some item =>
    if item.handle.isNone then .ok this
    else
      let this := this.answered item ack_nack
      match ack_nack with
      | .ack => this.consume item writes
      | .nack =>
        if 2 ^ 32 ≤ this.retry_count + 1 then .error .overflow
        else
          let this := { this with retry_count := this.retry_count + 1 }
          if this.retry_count < MAX_HANDLE_RETRANSMISSIONS then do
            let this ← this.insertMessage env { item with cursor := 0 }
            { this with waiting_for_ack := none }.continueSend .new_message_appended writes
          -- given up, as if it had been acknowledged
          else this.consume item writes

/-- History: the message is asked for. -/
def asks (message : Asked C H) : SendQueue C H :=
  { this with history := { this.history with asked := this.history.asked ++ [message] } }

/-- The first thing on the wire. -/
def writeVersionPacket (writes : List Wrote) : Except Crash (SendQueue C H) :=
  if env.allow_assert ∧
      (this.has_written_version ∨ this.queue ≠ [] ∨ this.waiting_for_ack.isSome) then
    .error .assertion
  else
    let bytes := getVersionPacket this.mode
    let item : SendHandle C H := ⟨bytes, 0, none, .none, [this.history.asked.length]⟩
    let queued := { this.asks ⟨some bytes, none, none⟩ with queue := this.queue ++ [item] }
    if 0 < bytes.length then do
      let this ← queued.continueSend .new_message_appended writes
      .ok { this with has_written_version := true }
    else .ok { this with has_written_version := true }

/-- A value is put at the end of the queue. -/
def serializeAndSend (value : V) (is_internal : IsInternal) (callback : Option C)
    (handle : Option H) (writes : List Wrote) :
    Except Crash (SendQueue C H × SerializeAndSendResult) := do
  let indicate_backoff := this.waiting_for_ack.isSome ∧ 0 < this.queue.length
  let (front, msg) ← this.startMessage env callback handle
  let payload := serialize env this.mode value is_internal
  let msg := { msg with
    data := msg.data ++ payload.getD []
    messages := msg.messages ++ [this.history.asked.length] }
  let this := { this.asks ⟨payload, callback, handle⟩ with queue := front ++ [msg] }
  match payload with
  | none => .ok (this, .failure)
  | some _ =>
    (this.continueSend .new_message_appended writes).map fun this =>
      (this, if indicate_backoff then .backoff else .success)

/-- What the other side may say of a handle. -/
inductive IPCCommand where
  | handle
  | ack
  | nack
deriving DecidableEq

/-- `handleIPCMessage` for a message that is a command. -/
def handleIPCMessage (command : IPCCommand) (writes : List Wrote) :
    Except Crash (SendQueue C H) :=
  match command with
  | .handle => do
    let ack := this.incoming_fd.isSome
    let packet := if ack then getAckPacket this.mode else getNackPacket this.mode
    let this ← this.insertMessage env ⟨packet, 0, none, .ack_nack, []⟩
    let this ← this.continueSend .new_message_appended writes
    .ok (if ack then { this with incoming_fd := none } else this)
  | .ack => this.onAckNack env .ack writes
  | .nack => this.onAckNack env .nack writes

/-- A file descriptor has come. -/
def onFd (fd : H) : SendQueue C H :=
  { this with incoming_fd := some fd }

end SendQueue

/-- What happens to a queue, with what becomes of the writes it starts. -/
inductive Event (V C H : Type) where
  | send (value : V) (is_internal : IsInternal) (callback : Option C) (handle : Option H)
    (writes : List Wrote)
  | onWritable (writes : List Wrote)
  | windowsOnWriteComplete (ok : Bool) (writes : List Wrote)
  | onFd (fd : H)
  | receive (command : SendQueue.IPCCommand) (writes : List Wrote)
  | onClose
  | closeSocket

namespace SendQueue

variable (env : Env V)

/-- The state behind an event. -/
def step (this : SendQueue C H) : Event V C H → Except Crash (SendQueue C H)
  | .send value is_internal callback handle writes =>
    (this.serializeAndSend env value is_internal callback handle writes).map Prod.fst
  | .onWritable writes => this.continueSend .on_writable writes
  | .windowsOnWriteComplete ok writes => this.windowsOnWriteComplete env ok writes
  | .onFd fd => .ok (this.onFd fd)
  | .receive command writes => this.handleIPCMessage env command writes
  | .onClose => .ok this.socketClosed
  | .closeSocket => .ok (this.closeSocket false)

/-- A run, from the version packet on. -/
def runs (mode : Mode) (writes : List Wrote) (events : List (Event V C H)) :
    Except Crash (SendQueue C H) := do
  let this ← (init mode).writeVersionPacket env writes
  events.foldlM (step env) this

end SendQueue

end Cruller.Jsc.Ipc
