import Cruller.Lib.Run
import Cruller.Rt.Contract

/-!
# The in-process command channel

`CommandChannel` of `rt/direct.zig`: an array of commands and a read index that goes back to zero
when the array is drained. What is still to be read is the array past the index, and that list is
a queue: a send puts a command at its end, a receive takes its head (`send_pending`,
`receive_pending`). Both run under the mutex, so an interleaving of any number of parties is a
list of calls.
-/

namespace Cruller

open List Option

/-- The wake-up a party registered; the channel only ever hands it back. -/
abbrev Waker := ℕ

/-- A queue of commands, of which the first `readIndex` have been received already. -/
structure CommandChannel where
  queue : List Command := []
  readIndex : ℕ := 0
  waker : Option Waker := none
deriving DecidableEq, Repr

namespace CommandChannel

/-- `appendOk` is the allocator's answer to the append. The second component is the result, the
third the waker that is called after the unlock. -/
def send (ch : CommandChannel) (command : Command) (appendOk : Bool) :
    CommandChannel × Bool × Option Waker :=
  if appendOk then ({ ch with queue := ch.queue ++ [command] }, true, ch.waker)
  else (ch, false, none)

/-- The next command; when it was the last one the queue is emptied. -/
def receive (ch : CommandChannel) : CommandChannel × Option Command :=
  match ch.queue[ch.readIndex]? with
  | none => (ch, none)
  | some command =>
    if ch.readIndex + 1 = ch.queue.length then ({ ch with queue := [], readIndex := 0 }, some command)
    else ({ ch with readIndex := ch.readIndex + 1 }, some command)

def setWaker (ch : CommandChannel) (waker : Waker) : CommandChannel :=
  { ch with waker := some waker }

/-- The commands sent and not yet received, oldest first. -/
def pending (ch : CommandChannel) : List Command :=
  ch.queue.drop ch.readIndex

/-- Every slot before the read index has been read, and a drained array is reset. -/
structure Inv (ch : CommandChannel) : Prop where
  le : ch.readIndex ≤ ch.queue.length
  reset : ch.readIndex = ch.queue.length → ch.queue = []

theorem inv_init : Inv {} := ⟨le_rfl, fun _ => rfl⟩

@[simp]
theorem pending_init : ({} : CommandChannel).pending = [] := rfl

variable {ch : CommandChannel}

theorem Inv.send (h : ch.Inv) (command : Command) (appendOk : Bool) :
    (ch.send command appendOk).1.Inv := by
  unfold CommandChannel.send
  split_ifs
  · have hle := h.le
    refine ⟨by simp only [length_append, length_singleton]; omega, fun he => ?_⟩
    simp only [length_append, length_singleton] at he
    omega
  · exact h

/-- A successful send puts the command behind what is pending; a failed one leaves the channel as
it was. -/
theorem send_pending (h : ch.Inv) (command : Command) (appendOk : Bool) :
    (ch.send command appendOk).1.pending = ch.pending ++ (if appendOk then [command] else [])
      ∧ (ch.send command appendOk).2.1 = appendOk := by
  unfold CommandChannel.send
  split_ifs with ha
  · simp [pending, drop_append_of_le_length h.le, ha]
  · simp [ha]

theorem receive_none : ch.receive.2 = none ↔ ch.pending = [] := by
  unfold receive pending
  rw [drop_eq_nil_iff]
  split
  · rename_i hq
    simpa using hq
  · rename_i command hq
    obtain ⟨hlt, -⟩ := List.getElem?_eq_some_iff.1 hq
    split_ifs <;> simp <;> omega

/-- A receive takes the oldest pending command and leaves the rest in order. -/
theorem receive_pending (h : ch.Inv) :
    ch.pending = ch.receive.2.toList ++ ch.receive.1.pending ∧ ch.receive.1.Inv := by
  unfold receive
  split
  · rename_i hq
    rw [List.getElem?_eq_none_iff] at hq
    exact ⟨rfl, h⟩
  · rename_i command hq
    obtain ⟨hlt, hget⟩ := List.getElem?_eq_some_iff.1 hq
    have hdr : ch.pending = command :: ch.queue.drop (ch.readIndex + 1) := by
      rw [pending, drop_eq_getElem_cons hlt, hget]
    split_ifs with he
    · refine ⟨?_, inv_init.le, fun _ => rfl⟩
      rw [hdr, drop_eq_nil_of_le (by omega)]
      rfl
    · exact ⟨hdr, by simp only; omega, fun hr => absurd hr (by simpa using he)⟩

end CommandChannel

/-- One call of a party on the channel, with the allocator's answer where the call allocates. -/
inductive ChannelOp where
  | send (party : ℕ) (command : Command) (appendOk : Bool)
  | receive (party : ℕ)
  | setWaker (party : ℕ) (waker : Waker)

/-- What a call of one of the parties did. -/
inductive ChannelEvent where
  | sent (party : ℕ) (command : Command) (ok : Bool)
  | received (party : ℕ) (command : Option Command)
  | wakerSet (party : ℕ)

namespace ChannelEvent

def sentCommand : ChannelEvent → Option Command
  | sent _ command true => some command
  | _ => none

def receivedCommand : ChannelEvent → Option Command
  | received _ command => command
  | _ => none

end ChannelEvent

/-- A call of any party, under the mutex. -/
def CommandChannel.step (ch : CommandChannel) : ChannelOp → Option (CommandChannel × ChannelEvent)
  | .send party command appendOk =>
    let (ch', ok, _) := ch.send command appendOk
    some (ch', .sent party command ok)
  | .receive party =>
    let (ch', command) := ch.receive
    some (ch', .received party command)
  | .setWaker party waker => some (ch.setWaker waker, .wakerSet party)

/-- What was sent and accepted, and what was received. -/
structure ChannelLog where
  sent : List Command := []
  received : List Command := []

def ChannelLog.add (log : ChannelLog) (e : ChannelEvent) : ChannelLog where
  sent := log.sent ++ e.sentCommand.toList
  received := log.received ++ e.receivedCommand.toList

/-- The channel against its log: what was sent is what was received and then what is pending. -/
structure ChannelRep (ch : CommandChannel) (log : ChannelLog) : Prop where
  inv : ch.Inv
  split : log.sent = log.received ++ ch.pending

/-- A step of the channel is one of its log. -/
theorem ChannelRep.step {ch ch' : CommandChannel} {op : ChannelOp} {e : ChannelEvent}
    {log : ChannelLog} (h : ChannelRep ch log) (hs : ch.step op = some (ch', e)) :
    ChannelRep ch' (log.add e) := by
  obtain ⟨hinv, hsp⟩ := h
  cases op with
  | send party command appendOk =>
    simp only [CommandChannel.step, some.injEq, Prod.mk.injEq] at hs
    obtain ⟨rfl, rfl⟩ := hs
    obtain ⟨hp, hok⟩ := CommandChannel.send_pending hinv command appendOk
    refine ⟨hinv.send command appendOk, ?_⟩
    simp only [ChannelLog.add, hp, hok, hsp]
    cases appendOk <;> simp [ChannelEvent.sentCommand, ChannelEvent.receivedCommand]
  | receive party =>
    simp only [CommandChannel.step, some.injEq, Prod.mk.injEq] at hs
    obtain ⟨rfl, rfl⟩ := hs
    obtain ⟨hp, hinv'⟩ := CommandChannel.receive_pending hinv
    refine ⟨hinv', ?_⟩
    simp only [ChannelLog.add, ChannelEvent.sentCommand, ChannelEvent.receivedCommand, hsp,
      toList_none, append_nil, append_assoc]
    rw [hp]
  | setWaker party waker =>
    simp only [CommandChannel.step, some.injEq, Prod.mk.injEq] at hs
    obtain ⟨rfl, rfl⟩ := hs
    refine ⟨⟨hinv.le, hinv.reset⟩, ?_⟩
    simpa [ChannelLog.add, ChannelEvent.sentCommand, ChannelEvent.receivedCommand,
      CommandChannel.setWaker, CommandChannel.pending] using hsp

theorem CommandChannel.exists_step (ch : CommandChannel) (op : ChannelOp) :
    ∃ ch' e, ch.step op = some (ch', e) := by
  cases op <;> exact ⟨_, _, rfl⟩

theorem foldl_channelLog_add (es : List ChannelEvent) (log : ChannelLog) :
    es.foldl ChannelLog.add log =
      ⟨log.sent ++ es.filterMap ChannelEvent.sentCommand,
        log.received ++ es.filterMap ChannelEvent.receivedCommand⟩ := by
  induction es generalizing log with
  | nil => simp
  | cons e es ih =>
    rw [foldl_cons, ih, ChannelLog.add]
    rcases hs : e.sentCommand with _ | a <;> rcases hr : e.receivedCommand with _ | b <;>
      simp [hs, hr]

/-- The channel is a lossless FIFO: along any interleaving of calls, what the parties received is a
prefix of what they successfully sent, and a receive that returns nothing finds everything sent
already received. -/
theorem commandChannel_fifo (ops : List ChannelOp) :
    ∃ ch es, run CommandChannel.step {} ops = some (ch, es)
      ∧ es.filterMap ChannelEvent.receivedCommand <+: es.filterMap ChannelEvent.sentCommand
      ∧ (ch.receive.2 = none →
        es.filterMap ChannelEvent.receivedCommand = es.filterMap ChannelEvent.sentCommand) := by
  obtain ⟨ch, es, h⟩ := exists_run CommandChannel.exists_step ops {}
  have hrep : ChannelRep ch (es.foldl ChannelLog.add {}) :=
    run_foldl ChannelRep.step ⟨CommandChannel.inv_init, rfl⟩ h
  rw [foldl_channelLog_add] at hrep
  have hsplit := hrep.split
  simp only [nil_append] at hsplit
  refine ⟨ch, es, h, ⟨ch.pending, hsplit.symm⟩, fun hn => ?_⟩
  rw [CommandChannel.receive_none.1 hn, append_nil] at hsplit
  exact hsplit.symm

end Cruller
