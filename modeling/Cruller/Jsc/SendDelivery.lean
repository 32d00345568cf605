import Cruller.Jsc.IpcDelivery
import Cruller.Jsc.QueuedMessages

/-!
# What the other side gets

Over any run the socket takes whole transmissions and a part of the next one (`Delivered`): messages
in the order in which they were asked for, and acknowledgements between them. A message with a
handle holds up the messages behind it until it is answered, and is transmitted three times at the
most.
-/

namespace Cruller.Jsc.Ipc

open List Option

variable {V C H : Type} (env : Env V)

theorem serialize_ne_nil (mode : Mode) (value : V) (is_internal : IsInternal) :
    serialize env mode value is_internal ≠ some [] := by
  cases mode with
  | advanced =>
    simp only [serialize, advanced.serialize]
    split
    · simp
    · split_ifs <;> simp
  | json =>
    simp [serialize, json.serialize]

namespace SendQueue

variable {s : SendQueue C H} {first : SendHandle C H} {rest : List (SendHandle C H)}

theorem Inv.onward_closeSocket (h : Inv s) (is_deinit : Bool) :
    Onward s (s.closeSocket is_deinit) := by
  refine ⟨h.closeSocket is_deinit, ?_, ?_, ?_⟩
  · rw [SendQueue.closeSocket]
    split_ifs <;> rfl
  · rw [SendQueue.closeSocket]
    split_ifs <;> rfl
  · rw [SendQueue.closeSocket]
    split_ifs <;> rfl

/-- How `_onWriteComplete` leaves a queue. -/
def After.Onward (s : SendQueue C H) (rest : List (SendHandle C H)) : After C H → Prop
  | .continueSend t => SendQueue.Onward s t ∧ t.queue = rest
  | .wait t => SendQueue.Onward s t

variable {n : ℤ}

theorem Inv.onWriteComplete (h : Inv s) (hq : s.queue = first :: rest)
    (hw : s.waiting_for_ack.isSome → first.isAckNack) (hlt : s.windows_write = none)
    (hle : n ≤ (first.data.drop first.cursor).length) :
    Ends (After.Onward s rest) (· ≠ .assertion) (s.onWriteComplete first rest n) := by
  have hst : Onward s { s with write_in_progress := false, queue := first :: rest } := by
    rw [← hq]
    refine ⟨{ h with
      writing := fun hpr => by cases hpr
      later := fun m hm => by
        have hm : s.windows_write = some m := hm
        rw [hlt] at hm
        cases hm }, rfl, rfl, rfl⟩
  rw [SendQueue.onWriteComplete]
  dsimp only
  by_cases hall : n = (first.data.drop first.cursor).length
  · rw [if_pos hall]
    cases hhn : first.handle with
    | none => exact ⟨⟨h.transmit hq hw hlt hhn, rfl, rfl, rfl⟩, rfl⟩
    | some handle => exact ⟨⟨h.await hq hw hlt (by rw [hhn]; rfl), rfl, rfl, rfl⟩, rfl⟩
  rw [if_neg hall]
  by_cases hpos : 0 < n
  · rw [if_pos hpos]
    split_ifs with hcs hpt
    · exact Crash.noConfusion
    · obtain ⟨n, rfl⟩ := Int.eq_ofNat_of_zero_le hpos.le
      exact ⟨h.advance hq hw hlt (by omega), rfl, rfl, rfl⟩
    · exact hst.trans (hst.inv.onward_closeSocket true)
  · rw [if_neg hpos]
    split_ifs with hzr
    · exact hst
    · exact hst.trans (hst.inv.onward_closeSocket true)

theorem write_le (s : SendQueue C H) (to_send : List UInt8) {writes writes' : List Wrote}
    (h : s.write to_send writes = (some n, writes')) : n ≤ to_send.length := by
  unfold write at h
  split_ifs at h with hop
  · split at h
    all_goals
      simp only [Prod.mk.injEq, some.injEq, reduceCtorEq, false_and] at h
      try omega
  · simp only [Prod.mk.injEq, some.injEq] at h
    omega

/-- Sending on writes what comes next, and nothing else. -/
theorem Inv.continueSendFrom (queue : List (SendHandle C H)) : ∀ {s : SendQueue C H}, Inv s →
    s.queue = queue → ∀ (reason : ContinueSendReason) (writes : List Wrote),
    Ends (Onward s) (· ≠ .assertion) (SendQueue.continueSendFrom queue s reason writes) := by
  induction queue with
  | nil =>
    intro s h hq reason writes
    rw [SendQueue.continueSendFrom, ← hq]
    exact ⟨h, rfl, rfl, rfl⟩
  | cons first rest ih =>
    intro s h hq reason writes
    have hst : Onward s { s with queue := first :: rest } := by
      rw [← hq]
      exact ⟨h, rfl, rfl, rfl⟩
    rw [SendQueue.continueSendFrom]
    by_cases hpr : s.write_in_progress
    · rw [if_pos hpr]
      exact hst
    rw [if_neg hpr]
    by_cases hw : s.waiting_for_ack.isSome ∧ ¬ first.isAckNack
    · rw [if_pos hw]
      exact hst
    rw [if_neg hw]
    by_cases hrs : reason ≠ .on_writable ∧ first.cursor ≠ 0
    · rw [if_pos hrs]
      exact hst
    rw [if_neg hrs]
    have hw' : s.waiting_for_ack.isSome → first.isAckNack := by
      intro hsm
      by_contra hack
      exact hw ⟨hsm, hack⟩
    have hlr : s.windows_write = none := by
      rw [eq_none_iff_forall_ne_some]
      exact fun n hn => hpr (h.later n hn).1
    dsimp only
    by_cases hem : (first.data.drop first.cursor).length = 0
    · rw [if_pos hem]
      have hnx : Onward s ({ s with queue := rest }.complete first) :=
        ⟨h.removeEmpty hq hpr hw' hem, rfl, rfl, rfl⟩
      exact hnx.ends (ih hnx.inv rfl reason writes)
    rw [if_neg hem]
    have hlt : first.cursor < first.data.length := by
      rw [length_drop] at hem
      omega
    split
    · next writes' hwr =>
      refine ⟨{ h with
        items := by rw [← hq]; exact h.items
        order := by
          have hor := h.order
          rw [hq] at hor
          exact hor
        first := by rw [← hq]; exact h.first
        still := by rw [← hq]; exact h.still
        writing := fun _ => ⟨first, rest, rfl, hw', hlt⟩
        later := fun n hn => by
          have hn : some (min (first.data.drop first.cursor).length max_i32) = some n := hn
          rw [some.injEq] at hn
          exact ⟨rfl, first, rest, rfl, hn ▸ min_le_left _ _⟩
        wire := by
          have hwi := h.wire
          rw [part, hq] at hwi
          exact hwi }, rfl, rfl, rfl⟩
    · next n writes' hwr =>
      have hdn := h.onWriteComplete hq hw' hlr (write_le s _ hwr)
      cases haf : s.onWriteComplete first rest n with
      | error e =>
        rw [haf] at hdn
        exact hdn
      | ok after =>
        rw [haf] at hdn
        cases after with
        | wait t => exact hdn
        | continueSend t =>
          obtain ⟨hon, hqu⟩ := hdn
          exact hon.ends (ih hon.inv hqu .on_writable writes')

theorem Inv.continueSend (h : Inv s) (reason : ContinueSendReason) (writes : List Wrote) :
    Ends (Onward s) (· ≠ .assertion) (s.continueSend reason writes) :=
  Inv.continueSendFrom s.queue h rfl reason writes

theorem Inv.onWriteCompleteLater (h : Inv s) (hq : s.queue = first :: rest)
    (hpr : s.write_in_progress) (hlt : s.windows_write = none)
    (hle : n ≤ (first.data.drop first.cursor).length) (writes : List Wrote) :
    Ends (Onward s) (· ≠ .assertion) (s.onWriteCompleteLater env n writes) := by
  obtain ⟨first', rest', hq', hw, -⟩ := h.writing hpr
  rw [hq] at hq'
  cases hq'
  have hdn := h.onWriteComplete hq hw hlt hle
  simp only [SendQueue.onWriteCompleteLater, hq, if_pos hpr]
  cases haf : s.onWriteComplete first rest n with
  | error e =>
    rw [haf] at hdn
    exact hdn
  | ok after =>
    rw [haf] at hdn
    cases after with
    | wait t => exact hdn
    | continueSend t => exact hdn.1.ends (hdn.1.inv.continueSend .on_writable writes)

theorem Inv.windowsOnWriteComplete (h : Inv s) (ok : Bool) (writes : List Wrote) :
    Ends (Onward s) (· ≠ .assertion) (s.windowsOnWriteComplete env ok writes) := by
  rw [SendQueue.windowsOnWriteComplete]
  cases hlt : s.windows_write with
  | none => exact ⟨h, rfl, rfl, rfl⟩
  | some write_len =>
    obtain ⟨hpr, first, rest, hq, hle⟩ := h.later write_len hlt
    have hfr : Onward s { s with windows_write := none } :=
      ⟨{ h with later := fun n hn => by cases hn }, rfl, rfl, rfl⟩
    have hwr := hfr.ends (hfr.inv.onWriteCompleteLater env hq hpr rfl
      (n := if ok then (write_len : ℤ) else -1) (by split_ifs <;> omega) writes)
    refine hwr.bind fun t ht => ?_
    change Onward s _
    split_ifs
    · exact ht.trans (ht.inv.onward_closeSocket false)
    · exact ht

theorem Inv.handle (h : Inv s) (hvr : s.has_written_version) (writes : List Wrote) :
    Ends (Onward s) (· ≠ .assertion) (s.handleIPCMessage env .handle writes) := by
  set packet := if s.incoming_fd.isSome then getAckPacket s.mode else getNackPacket s.mode
    with hpc
  have hmd : (⟨packet, 0, none, .ack_nack, []⟩ : SendHandle C H).Made s.mode s.history.asked := {
    packet := fun _ => by
      refine ⟨rfl, rfl, ?_⟩
      rw [hpc]
      split_ifs
      · exact Or.inl rfl
      · exact Or.inr rfl
    data := fun hack => absurd rfl hack
    messages := fun hack => absurd rfl hack
    callbacks := rfl
    handle := by simp
    single := fun hsm => by cases hsm }
  rw [SendQueue.handleIPCMessage]
  refine (h.insertMessage env hvr hmd rfl rfl).bind fun t ht => ?_
  refine (ht.ends (ht.inv.continueSend .new_message_appended writes)).bind fun u hu => ?_
  change Onward s _
  split_ifs
  · exact ⟨{ hu.inv with }, hu.asked, hu.mode, hu.version⟩
  · exact hu

/-- An answer finishes the item that waited, or sends it again. -/
theorem Inv.onAckNack (h : Inv s) (hvr : s.has_written_version) (ack_nack : AckNack) (writes : List Wrote) :
    Ends (Onward s) (· ≠ .assertion) (s.onAckNack env ack_nack writes) := by
  rw [SendQueue.onAckNack]
  cases hw : s.waiting_for_ack with
  | none => exact ⟨h, rfl, rfl, rfl⟩
  | some item =>
    obtain ⟨hhn, hmd⟩ := h.waiting item hw
    obtain ⟨i, hi⟩ := hmd.single hhn
    have hcl : item.callbacks.callNextTick = [i].filterMap (callbackOf s.history.asked) := by
      rw [hmd.callbacks, hi]
    dsimp only
    rw [if_neg (by simpa using isSome_iff_ne_none.1 hhn)]
    cases ack_nack with
    | ack =>
      have hnx := h.finish hw (s.history.answers ++ item.messages.map (·, .ack)) le_rfl
        (by rw [hi, hcl]; exact h.settled.ack i)
      have hon : Onward s _ := ⟨hnx, rfl, rfl, rfl⟩
      exact hon.ends (hnx.continueSend .new_message_appended writes)
    | nack =>
      dsimp only
      by_cases hov : 2 ^ 32 ≤ (s.answered item .nack).retry_count + 1
      · rw [if_pos hov]
        exact Crash.noConfusion
      rw [if_neg hov]
      by_cases hrt : (s.answered item .nack).retry_count + 1 < MAX_HANDLE_RETRANSMISSIONS
      · rw [if_pos hrt]
        obtain ⟨t, ht, hon⟩ := h.comeBack env hvr hw hrt
        have hin : { s.answered item .nack with
            retry_count := (s.answered item .nack).retry_count + 1 }.insertMessage env
              { item with cursor := 0 } = .ok t := ht
        rw [hin]
        exact hon.ends (hon.inv.continueSend .new_message_appended writes)
      · rw [if_neg hrt]
        have hnc := h.settled.nack i
        have hgv : GivenUp (s.history.answers ++ [(i, .nack)]) i := by
          refine ⟨s.history.answers, [], rfl, ?_⟩
          rw [← h.settled.retries]
          have hrt : ¬ s.retry_count + 1 < 3 := hrt
          omega
        have hone : ∀ j ∈ [i], (handleOf s.history.asked j).isSome →
            bytesOf s.history.asked j ≠ [] → (j, .ack) ∈ s.history.answers ++ [(i, .nack)] ∨
              GivenUp (s.history.answers ++ [(i, .nack)]) j := by
          intro j hj _ _
          rw [mem_singleton.1 hj]
          exact Or.inr hgv
        have hst := hnc.complete hone
        have hnx := h.finish hw (s.history.answers ++ item.messages.map (·, .nack))
          (Nat.le_succ _) (by rw [hi, hcl]; exact hst)
        have hon : Onward s _ := ⟨hnx, rfl, rfl, rfl⟩
        exact hon.ends (hnx.continueSend .new_message_appended writes)

/-- A message is added to an item. -/
def withMessage (msg : SendHandle C H) (a : Asked C H) (id : ℕ) : SendHandle C H :=
  { msg with data := msg.data ++ a.bytes.getD [], messages := msg.messages ++ [id] }

theorem push_callNextTick {callbacks : CallbackList C} (hack : callbacks ≠ .ack_nack) (c : C) :
    ∃ next, callbacks.push c = .ok next ∧ next ≠ .ack_nack ∧
      next.callNextTick = callbacks.callNextTick ++ [c] := by
  cases callbacks with
  | ack_nack => exact absurd rfl hack
  | none => exact ⟨_, rfl, by simp, rfl⟩
  | callback prev => exact ⟨_, rfl, by simp, rfl⟩
  | callback_array arr => exact ⟨_, rfl, by simp, rfl⟩

theorem Inv.startMessage (h : Inv s) (hvr : s.has_written_version) {a : Asked C H} (ha : a.bytes ≠ some []) :
    Ends (fun r => Inv { s.asks a with queue := r.1 ++
        [withMessage r.2 a s.history.asked.length] })
      (· ≠ .assertion) (s.startMessage env a.callback a.handle) := by
  rw [SendQueue.startMessage, if_neg (by rw [hvr]; simp)]
  cases hls : s.queue.getLast? with
  | none => exact h.askFresh ha
  | some last =>
    dsimp only
    by_cases hput : a.handle.isNone ∧ last.handle.isNone ∧ ¬ last.isAckNack ∧
        ¬ (s.queue.length = 1 ∧ s.write_in_progress)
    · rw [if_pos hput]
      obtain ⟨hno, hhn, hack, -⟩ := hput
      rw [isNone_iff_eq_none] at hno hhn
      have hq : s.queue = s.queue.dropLast ++ [last] :=
        (List.dropLast_append_getLast? last hls).symm
      cases hcl : a.callback with
      | none => exact h.askLast hq hhn hack ha hno hack (by simp [hcl])
      | some callback =>
        obtain ⟨callbacks, hps, hnot, hcs⟩ := push_callNextTick hack callback
        dsimp only
        rw [hps]
        exact h.askLast hq hhn hack ha hno hnot (by rw [hcs, hcl]; rfl)
    · rw [if_neg hput]
      exact h.askFresh ha

/-- What `s` comes to when so much more is asked for. -/
structure Further (more : List (Asked C H)) (s t : SendQueue C H) : Prop where
  inv : Inv t
  asked : t.history.asked = s.history.asked ++ more
  mode : t.mode = s.mode
  version : t.has_written_version = s.has_written_version

theorem Onward.further {t : SendQueue C H} (h : Onward s t) : Further [] s t :=
  ⟨h.inv, by rw [h.asked, append_nil], h.mode, h.version⟩

theorem Inv.serializeAndSend (h : Inv s) (hvr : s.has_written_version) (value : V)
    (is_internal : IsInternal) (callback : Option C) (handle : Option H) (writes : List Wrote) :
    Ends (fun r => Further [⟨serialize env s.mode value is_internal, callback, handle⟩] s r.1)
      (· ≠ .assertion) (s.serializeAndSend env value is_internal callback handle writes) := by
  have hst := h.startMessage env hvr
    (a := ⟨serialize env s.mode value is_internal, callback, handle⟩)
    (serialize_ne_nil env s.mode value is_internal)
  rw [SendQueue.serializeAndSend]
  refine hst.bind fun r hr => ?_
  obtain ⟨front, msg⟩ := r
  dsimp only
  split
  · exact ⟨hr, rfl, rfl, rfl⟩
  · refine (hr.continueSend .new_message_appended writes).map fun t ht => ?_
    exact ⟨ht.inv, ht.asked, ht.mode, ht.version⟩

/-- The packet that goes before every message. -/
def askedFirst (mode : Mode) : List (Asked C H) :=
  if 0 < (getVersionPacket mode).length then [⟨some (getVersionPacket mode), none, none⟩] else []

theorem inv_init (mode : Mode) : Inv (init mode : SendQueue C H) where
  bytes := by simp [init, History.init]
  items := by simp [init]
  waiting := by simp [init]
  order := rfl
  first := by simp [init]
  still := by simp [init]
  writing := by simp [init]
  later := by simp [init]
  wire := rfl
  packets := by simp [init, History.init]
  logged := {
    sent := by simp [init, History.init, sentIds]
    sorted := by simp [init, History.init, sentIds]
    complete := by simp [init, History.init, done, held]
    tail := by simp [init, held]
    count := by simp [init, History.init, sentIds]
    count_queued := by simp [init, History.init, sentIds]
    once := by simp [init, History.init, sentIds] }
  settled := {
    called := rfl
    retries := rfl
    acked := by simp [init, History.init]
    finished := by simp [init, History.init] }

theorem inv_writeVersionPacket (mode : Mode) (writes : List Wrote) :
    Ends (fun s : SendQueue C H => Inv s ∧ s.mode = mode ∧ s.has_written_version ∧
        s.history.asked = askedFirst mode)
      (· ≠ .assertion) ((init mode).writeVersionPacket env writes) := by
  rw [writeVersionPacket, if_neg (by simp [init])]
  rw [askedFirst]
  by_cases hpos : 0 < (getVersionPacket mode).length
  · have hinv := (inv_init (C := C) (H := H) mode).askFresh
      (a := ⟨some (getVersionPacket mode), none, none⟩)
      (by simpa using length_pos_iff.1 hpos)
    rw [if_pos hpos]
    dsimp only
    rw [if_pos (by exact hpos)]
    refine (hinv.continueSend .new_message_appended writes).bind fun t ht => ?_
    exact ⟨{ ht.inv with }, ht.mode, rfl, ht.asked⟩
  · rw [if_neg hpos]
    dsimp only
    rw [if_neg (by exact hpos)]
    exact ⟨{ inv_init mode with }, rfl, rfl, rfl⟩

end SendQueue

/-- The message that an event asks to send. -/
def Event.asked (mode : Mode) : Event V C H → Option (Asked C H)
  | .send value is_internal callback handle _ =>
    some ⟨serialize env mode value is_internal, callback, handle⟩
  | _ => none

namespace SendQueue

/-- An event asks for its message, if it has one, and keeps the invariant; no assertion fails. -/
theorem Inv.step {s : SendQueue C H} (h : Inv s) (hvr : s.has_written_version)
    (event : Event V C H) :
    Ends (Further (event.asked env s.mode).toList s) (· ≠ .assertion) (s.step env event) := by
  have hon : ∀ {r : Except Crash (SendQueue C H)}, Ends (Onward s) (· ≠ .assertion) r →
      Ends (Further [] s) (· ≠ .assertion) r :=
    fun hr => hr.imp fun _ ht => ht.further
  cases event with
  | send value is_internal callback handle writes =>
    exact (h.serializeAndSend env hvr value is_internal callback handle writes).map
      fun r hr => hr
  | onWritable writes => exact hon (h.continueSend .on_writable writes)
  | windowsOnWriteComplete ok writes => exact hon (h.windowsOnWriteComplete env ok writes)
  | onFd fd => exact hon (r := .ok _) ⟨{ h with }, rfl, rfl, rfl⟩
  | receive command writes =>
    cases command with
    | handle => exact hon (h.handle env hvr writes)
    | ack => exact hon (h.onAckNack env hvr .ack writes)
    | nack => exact hon (h.onAckNack env hvr .nack writes)
  | onClose => exact hon (r := .ok _) ⟨h.socketClosed, rfl, rfl, rfl⟩
  | closeSocket => exact hon (r := .ok _) (h.onward_closeSocket false)

/-- All the messages, the version first. -/
def asked (mode : Mode) (events : List (Event V C H)) : List (Asked C H) :=
  askedFirst mode ++ events.filterMap (Event.asked env mode)

theorem inv_foldlM (events : List (Event V C H)) : ∀ {s : SendQueue C H}, Inv s →
    s.has_written_version → Ends (Further (events.filterMap (Event.asked env s.mode)) s)
      (· ≠ .assertion) (events.foldlM (step env) s) := by
  induction events with
  | nil => exact fun h _ => ⟨h, by simp, rfl, rfl⟩
  | cons event events ih =>
    intro s h hvr
    rw [foldlM_cons]
    refine (h.step env hvr event).bind fun t ht => ?_
    refine (ih ht.inv (ht.version.trans hvr)).imp fun u hu => ?_
    refine ⟨hu.inv, ?_, hu.mode.trans ht.mode, hu.version.trans ht.version⟩
    rw [hu.asked, ht.asked, ht.mode, append_assoc]
    cases hev : event.asked env s.mode <;> simp [hev]

/-- In every run the invariant holds, what was asked is what the events ask for, and no assertion
fails. -/
theorem inv_runs (mode : Mode) (writes : List Wrote) (events : List (Event V C H)) :
    Ends (fun s => Inv s ∧ s.mode = mode ∧ s.has_written_version ∧
        s.history.asked = asked env mode events)
      (· ≠ .assertion) (runs env mode writes events) := by
  refine (inv_writeVersionPacket env mode writes).bind fun s hs => ?_
  obtain ⟨hinv, rfl, hvr, hak⟩ := hs
  refine (inv_foldlM env events hinv hvr).imp fun t ht => ?_
  exact ⟨ht.inv, ht.mode, ht.version.trans hvr, by rw [ht.asked, hak, asked]⟩

/-- Transmissions as the other side should get them. -/
structure Orderly (mode : Mode) (asked : List (Asked C H)) (log : List Transmission) : Prop where
  packets : ∀ packet, .packet packet ∈ log →
    packet = getAckPacket mode ∨ packet = getNackPacket mode
  sorted : (sentIds log).Pairwise (· ≤ ·)
  /-- No message that was serialized is left out. -/
  complete : ∀ j ∈ sentIds log, ∀ i < j, bytesOf asked i ≠ [] → i ∈ sentIds log
  count : ∀ i, (sentIds log).count i ≤ 3
  once : ∀ i, handleOf asked i = none → (sentIds log).count i ≤ 1

/-- What the wire has is the messages in order. -/
structure Delivered (mode : Mode) (asked : List (Asked C H)) (s : SendQueue C H) : Prop where
  /-- The bytes are transmissions and a part of the next one, which is none of a message while an
  answer is awaited. -/
  wire : ∃ next part,
    s.history.wire = s.history.log.flatMap (Transmission.bytes asked) ++ part
      ∧ part <+: next.bytes asked
      ∧ (s.waiting_for_ack.isSome → part ≠ [] → next.ids = [])
      ∧ Orderly mode asked (s.history.log ++ [next])
  awaited : ∀ item, s.waiting_for_ack = some item →
    (∃ before after, s.history.log = before ++ .messages item.messages :: after
      ∧ sentIds after = [])
    ∧ (s.write_in_progress → ∃ first rest, s.queue = first :: rest ∧ first.isAckNack)
  /-- The callbacks are called in order, and each once: when its message has been written as a
  whole and, with a handle, has been acknowledged or given up. -/
  called : ∃ calls : List ℕ,
    s.history.called = calls.filterMap (callbackOf asked)
      ∧ calls.Pairwise (· < ·)
      ∧ ∀ i, bytesOf asked i ≠ [] →
        (i ∈ calls → i ∈ sentIds s.history.log ∧ (handleOf asked i = none ∨
          (i, .ack) ∈ s.history.answers ∨ GivenUp s.history.answers i))
        ∧ (i ∈ sentIds s.history.log →
          handleOf asked i = none ∨ (i, .ack) ∈ s.history.answers → i ∈ calls)
  /-- While an answer is awaited, the position of an item is right. -/
  position : s.waiting_for_ack.isSome → ∀ message, ∃ t, s.insertMessage env message = .ok t

/-- What is being written is a part of one transmission: the next messages, or a reply. -/
theorem Inv.next (h : Inv s) : ∃ next : Transmission,
    s.part <+: next.bytes s.history.asked
      ∧ (s.waiting_for_ack.isSome → s.part ≠ [] → next.ids = [])
      ∧ (∃ k, next.ids = List.range' s.done k)
      ∧ ∀ packet, next = .packet packet →
        packet = getAckPacket s.mode ∨ packet = getNackPacket s.mode := by
  cases hq : s.queue with
  | nil =>
    have hpr : s.part = [] := by
      rw [part, hq]
      rfl
    refine ⟨.messages [], ?_, fun _ _ => rfl, ⟨0, rfl⟩, fun packet hp => by cases hp⟩
    rw [hpr]
    exact nil_prefix
  | cons first rest =>
    have hmd := h.made_first hq
    obtain ⟨hids, hby⟩ := hmd.transmission
    have hpr : s.part = first.data.take first.cursor := by
      rw [part, hq]
      rfl
    refine ⟨_, ?_, ?_, ⟨first.messages.length, hids.trans (h.first_range hq)⟩, ?_⟩
    · rw [hby, hpr]
      exact take_prefix _ _
    · intro hw hne
      rw [hids]
      by_contra hnil
      have hack : ¬ first.isAckNack := fun hack => hnil (hmd.packet hack).1
      have hzr := h.still hw first (by rw [hq]; exact mem_cons_self) hack
      rw [hpr, hzr] at hne
      exact hne rfl
    · intro packet hp
      split_ifs at hp with hack
      cases hp
      exact (hmd.packet hack).2.2

/-- The next transmission, written whole, comes in order behind those before. -/
theorem Inv.orderly (h : Inv s) {next : Transmission} {k : ℕ}
    (hids : next.ids = List.range' s.done k)
    (hpc : ∀ packet, next = .packet packet →
      packet = getAckPacket s.mode ∨ packet = getNackPacket s.mode) :
    Orderly s.mode s.history.asked (s.history.log ++ [next]) := by
  have hsn : sentIds (s.history.log ++ [next]) =
      sentIds s.history.log ++ List.range' s.done k := by
    rw [sentIds_append, hids]
  have hcn : ∀ i, (List.range' s.done k).count i ≤ 1 :=
    fun i => nodup_iff_count_le_one.1 nodup_range' i
  have hzr : ∀ i, i ∉ List.range' s.done k → (List.range' s.done k).count i = 0 :=
    fun i hi => count_eq_zero.2 hi
  refine ⟨?_, ?_, ?_, ?_, ?_⟩
  · intro packet hp
    rcases mem_append.1 hp with hp | hp
    · exact h.packets packet hp
    · exact hpc packet (mem_singleton.1 hp).symm
  · rw [hsn, pairwise_append]
    have hsr : (List.range' s.done k).Pairwise (· < ·) := pairwise_lt_range'
    refine ⟨h.logged.sorted, hsr.imp le_of_lt, fun i hi j hj => ?_⟩
    exact (h.logged.sent i hi).1.trans (mem_range'_1.1 hj).1
  · intro j hj i hlt hne
    rw [hsn, mem_append, mem_range'_1] at hj ⊢
    by_cases hdn : i < s.done
    · exact Or.inl (h.logged.complete i hdn hne)
    · rcases hj with hj | hj
      · have := (h.logged.sent j hj).1
        omega
      · exact Or.inr ⟨by omega, by omega⟩
  · intro i
    rw [hsn, count_append]
    by_cases hi : i ∈ List.range' s.done k
    · have := h.logged.count_queued i (mem_range'_1.1 hi).1
      have := hcn i
      omega
    · have := h.logged.count i
      rw [hzr i hi]
      omega
  · intro i hi
    rw [hsn, count_append]
    by_cases hmem : i ∈ List.range' s.done k
    · rw [count_eq_zero.2 (h.logged.not_mem (mem_range'_1.1 hmem).1 hi)]
      have := hcn i
      omega
    · rw [hzr i hmem]
      exact h.logged.once i hi

theorem Inv.finished_of_sent (h : Inv s) {i : ℕ} (hi : i ∈ sentIds s.history.log)
    (hno : handleOf s.history.asked i = none) : i ∈ s.history.finished := by
  obtain ⟨hle, heq⟩ := h.logged.sent i hi
  have hlt : i < s.done := by
    by_contra hge
    have hsm := (heq (by omega)).2
    rw [hno] at hsm
    cases hsm
  have hmem : i ∈ s.history.finished ++ s.held := by
    rw [h.done_range]
    exact mem_range.2 hlt
  rcases mem_append.1 hmem with hmem | hmem
  · exact hmem
  · cases hw : s.waiting_for_ack with
    | none =>
      rw [Inv.held_of_none hw] at hmem
      cases hmem
    | some item =>
      obtain ⟨hhn, hmd⟩ := h.waiting item hw
      rw [Inv.held_of_some hw] at hmem
      rw [← hmd.handle i hmem, hno] at hhn
      cases hhn

theorem Inv.sent_of_finished (h : Inv s) {i : ℕ} (hi : i ∈ s.history.finished)
    (hne : bytesOf s.history.asked i ≠ []) : i ∈ sentIds s.history.log := by
  refine h.logged.complete i ?_ hne
  have hmem : i ∈ s.history.finished ++ s.held := mem_append_left _ hi
  rw [h.done_range] at hmem
  exact mem_range.1 hmem

theorem Inv.delivered (h : Inv s) (hvr : s.has_written_version) :
    Delivered env s.mode s.history.asked s where
  wire := by
    obtain ⟨next, hpr, hwt, ⟨k, hids⟩, hpc⟩ := h.next
    exact ⟨next, s.part, h.wire, hpr, hwt, h.orderly hids hpc⟩
  awaited item hw := by
    have hhl : s.held = item.messages := Inv.held_of_some hw
    constructor
    · obtain ⟨hhn, hmd⟩ := h.waiting item hw
      have htl := h.logged.tail
      rw [hhl] at htl
      exact htl (hmd.messages (hmd.not_isAckNack hhn))
    · intro hpg
      obtain ⟨first, rest, hq, hfr, -⟩ := h.writing hpg
      exact ⟨first, rest, hq, hfr (by rw [hw]; rfl)⟩
  called := by
    refine ⟨s.history.finished, h.settled.called, ?_, fun i hne => ⟨fun hi => ?_, fun hi => ?_⟩⟩
    · rw [(eq_range_of_append_eq_range h.done_range).1]
      exact pairwise_lt_range
    · refine ⟨h.sent_of_finished hi hne, ?_⟩
      cases hhn : handleOf s.history.asked i with
      | none => exact Or.inl rfl
      | some handle => exact Or.inr (h.settled.finished i hi (by rw [hhn]; rfl) hne)
    · rintro (hno | hack)
      · exact h.finished_of_sent hi hno
      · exact h.settled.acked i hack
  position hw message := by
    rcases h.insertMessage_of_waiting env hw rfl rfl hvr message with
      ⟨hin, -⟩ | ⟨first, rest, -, -, hin⟩
    · exact ⟨_, hin⟩
    · exact ⟨_, hin⟩

/-- Over every run the socket takes the messages in order. -/
theorem delivered_runs (mode : Mode) (writes : List Wrote) (events : List (Event V C H)) :
    Ends (Delivered env mode (asked env mode events)) (· ≠ .assertion)
      (runs env mode writes events) := by
  refine (inv_runs env mode writes events).imp fun s hs => ?_
  obtain ⟨hinv, hmode, hversion, hasked⟩ := hs
  subst hmode
  rw [← hasked]
  exact hinv.delivered env hversion

/-- Three NACKs: the callback is called, and there was no ACK. -/
theorem called_without_ack : ∃ s : SendQueue Unit Unit,
    runs booleans .json [] [.send true .external (some ()) (some ()) [.room 100],
        .receive .nack [.room 100], .receive .nack [.room 100], .receive .nack []] = .ok s
      ∧ s.history.called = [()]
      ∧ s.history.answers = [(0, .nack), (0, .nack), (0, .nack)] :=
  ⟨_, rfl, rfl, rfl⟩

end SendQueue

end Cruller.Jsc.Ipc
