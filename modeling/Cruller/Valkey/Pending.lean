import Cruller.Valkey.Client

/-!
# The commands a failing client has to reject

Along every run of the client the two queues hold the commands that have been sent and not yet
settled, each with a promise of its own (`Waits`, `sound_run`). When the client fails, what it
rejects is what the readable slices show, and that is all of them exactly when neither queue wraps
around the end of its buffer; a finalizer and a `connect` that throws reject nothing
(`pending_rejected`).
-/

namespace Cruller.Valkey

open List Nat

variable {δ : Type} {sz : QueueSizes}

def Entry.toPair (cmd : Entry) : PromisePair := ⟨cmd.meta, cmd.promise⟩

namespace ValkeyClient

/-- What may happen to a client. -/
inductive Event (δ : Type) where
  | send (failed : Option NoSocket) (command : Command)
  | autoFlush
  | writable
  | response (value : RESPValue δ)
  | fail (message : Message) (err : RedisError)
  | failHandshake (why : Reason)
  | socketClosed
  | disconnect
  | opened (hello : Command)
  | doConnect (failed : Option NoSocket)
  | reconnect (failed : Option NoSocket)
  | listeners (channels : ℕ)
  | finalize
  | runDeferred

/-- A TLS handshake that failed. -/
def failHandshake (this : ValkeyClient sz δ) (why : Reason) : ValkeyClient sz δ :=
  (({ this with flags := { this.flags with
      is_authenticated := false
      is_manually_closed := true } } : ValkeyClient sz δ).failWithJSValue why).close

/-- One event. Nobody can send on an object that has been finalized. -/
def apply (this : ValkeyClient sz δ) : Event δ → ValkeyClient sz δ
  | .send failed command => if this.flags.finalized then this else this.jsSend failed command
  | .autoFlush => this.onAutoFlush
  | .writable => this.sendNextCommand
  | .response value => this.handleResponse value
  | .fail message err => this.fail message err
  | .failHandshake why => this.failHandshake why
  | .socketClosed => this.socketClosed
  | .disconnect => this.disconnect
  | .opened hello => this.onOpen hello
  | .doConnect failed => this.doConnect failed
  | .reconnect failed => this.reconnect failed
  | .listeners channels => { this with channels }
  | .finalize => { this with flags := { this.flags with finalized := true } }
  | .runDeferred => this.runDeferred

/-- A client that has just been made, with what it is configured to do and what its sockets will
take. -/
def start (database max_retries : ℕ) (flags : ConnectionFlags) (accepts : List ℕ) :
    ValkeyClient sz δ where
  socketOpen := false
  status := .disconnected
  write_buffer := []
  in_flight := .initDynamic
  queue := .initDynamic
  database := database
  flags := { flags with finalized := false }
  retry_attempts := 0
  max_retries := max_retries
  registered := false
  is_subscriber := false
  original_enable_offline_queue := flags.enable_offline_queue
  original_enable_auto_pipelining := flags.enable_auto_pipelining
  channels := 0
  promises := 0
  settled := []
  deferred := []
  accepts := accepts
  sent := []

/-- The promises in the two queues. -/
def ids (xs : List PromisePair) (ys : List Entry) : List ℕ :=
  xs.map (·.promise.id) ++ ys.map (·.promise.id)

/-- The commands `xs` are in flight and `ys` are queued. -/
structure Waits (c : ValkeyClient sz δ) (xs : List PromisePair) (ys : List Entry) : Prop where
  in_flight : c.in_flight.Holds xs
  queue : c.queue.Holds ys
  distinct : (ids xs ys).Nodup
  fresh : ∀ p ∈ ids xs ys, p < c.promises
  idle : c.flags.failed = true ∨ c.deferred ≠ [] → xs = [] ∧ ys = []
  gone : c.deferred ≠ [] → c.flags.finalized = true

/-- The queues hold commands that wait. -/
def Sound (c : ValkeyClient sz δ) : Prop := ∃ xs ys, c.Waits xs ys

/-- What `Waits` is about. -/
def core (c : ValkeyClient sz δ) :
    Queue sz.pair PromisePair × Queue sz.entry Entry × ℕ × Bool × Bool × List (DeferredFailure sz) :=
  (c.in_flight, c.queue, c.promises, c.flags.failed, c.flags.finalized, c.deferred)

variable {c c' : ValkeyClient sz δ} {xs : List PromisePair} {ys zs : List Entry}

theorem Waits.of_parts (h : c.Waits xs ys) (hin : c'.in_flight = c.in_flight)
    (hqu : c'.queue = c.queue) (hpr : c'.promises = c.promises)
    (hdf : c'.deferred = c.deferred) (hfl : c'.flags.failed = true → c.flags.failed = true)
    (hfin : c.flags.finalized = true → c'.flags.finalized = true) : c'.Waits xs ys where
  in_flight := hin ▸ h.in_flight
  queue := hqu ▸ h.queue
  distinct := h.distinct
  fresh := hpr ▸ h.fresh
  idle hid := h.idle (hid.imp hfl fun hd => hdf ▸ hd)
  gone hd := hfin (h.gone (hdf ▸ hd))

theorem Waits.of_core (h : c.Waits xs ys) (hcr : c'.core = c.core) : c'.Waits xs ys := by
  simp only [core, Prod.mk.injEq] at hcr
  obtain ⟨h1, h2, h3, h4, h5, h6⟩ := hcr
  exact h.of_parts h1 h2 h3 h6 (by simp [h4]) (by simp [h5])

theorem Sound.of_core (h : c.Sound) (hcr : c'.core = c.core) : c'.Sound := by
  obtain ⟨xs, ys, hw⟩ := h
  exact ⟨xs, ys, hw.of_core hcr⟩

theorem holds_push {n : ℕ+} {α : Type} {f : Queue n α} {items : List α} (h : f.Holds items)
    (x : α) : (push f x).Holds (items ++ [x]) := by
  obtain ⟨g, hg, hhl⟩ := h.writeItem rfl x
  rwa [push, hg]

theorem core_flushData : c.flushData.core = c.core := by
  rw [flushData]
  split_ifs <;> rfl

theorem core_settlePair (pair : Option PromisePair) (outcome : Outcome δ) :
    (c.settlePair pair outcome).core = c.core := by
  rcases pair with _ | pair <;> rfl

theorem Waits.move (h : c.Waits xs (zs ++ ys)) {f : Queue sz.pair PromisePair}
    {q : Queue sz.entry Entry} (hf : f.Holds (xs ++ zs.map Entry.toPair)) (hq : q.Holds ys) :
    ({ c with in_flight := f, queue := q } : ValkeyClient sz δ).Waits
      (xs ++ zs.map Entry.toPair) ys := by
  have hids : ids (xs ++ zs.map Entry.toPair) ys = ids xs (zs ++ ys) := by
    simp [ids, Entry.toPair, Function.comp_def]
  refine ⟨hf, hq, hids ▸ h.distinct, hids ▸ h.fresh, fun hid => ?_, h.gone⟩
  obtain ⟨rfl, hnil⟩ := h.idle hid
  obtain ⟨rfl, rfl⟩ := append_eq_nil_iff.1 hnil
  exact ⟨rfl, rfl⟩

theorem sound_drain (h : c.Sound) : c.drain.Sound := by
  obtain ⟨xs, ys, hw⟩ := h
  rw [drain]
  dsimp only
  split_ifs
  · exact ⟨xs, ys, hw⟩
  · rcases ys with _ | ⟨cmd, ys⟩
    · rw [hw.queue.readItem_nil]
      exact ⟨xs, [], hw⟩
    · obtain ⟨hrd, hhl⟩ := hw.queue.readItem
      rw [hrd]
      dsimp only
      have hfl : (push c.in_flight cmd.toPair).Holds (xs ++ [cmd].map Entry.toPair) :=
        holds_push hw.in_flight cmd.toPair
      have hmv := hw.move hfl hhl
      split_ifs
      · exact ⟨_, _, hmv.of_core rfl⟩
      · exact ⟨_, _, hmv.of_core rfl⟩

theorem sound_sendNextCommand (h : c.Sound) : c.sendNextCommand.Sound := by
  rw [sendNextCommand]
  dsimp only
  refine Sound.of_core ?_ core_flushData
  split_ifs
  · exact h.of_core rfl
  · exact (sound_drain h).of_core rfl
  · exact sound_drain h
  · exact h
  · exact sound_drain h
  · exact h
  · exact h

theorem holds_pushes {f : Queue sz.pair PromisePair} (h : f.Holds xs) (zs : List Entry) :
    (zs.foldl (fun f (cmd : Entry) => push f ⟨cmd.meta, cmd.promise⟩) f).Holds
      (xs ++ zs.map Entry.toPair) := by
  induction zs generalizing f xs with
  | nil => simpa using h
  | cons cmd zs ih =>
    have := ih (holds_push h cmd.toPair)
    rwa [append_assoc] at this

theorem sound_onAutoFlush (h : c.Sound) : c.onAutoFlush.Sound := by
  rw [onAutoFlush]
  dsimp only
  split_ifs
  · exact h.of_core rfl
  · obtain ⟨xs, ys, hw⟩ := h
    refine Sound.of_core (Sound.of_core ?_ core_flushData) rfl
    have hpre : ((c.queue.readableSlice 0).takeWhile (·.meta.supports_auto_pipelining)) <+: ys := by
      refine (List.takeWhile_prefix _).trans ?_
      rw [hw.queue.readableSlice_zero]
      exact take_prefix ..
    obtain ⟨rest, hrs⟩ := hpre
    rw [← hrs] at hw
    have hds := hw.queue.discard (n := ((c.queue.readableSlice 0).takeWhile
      (·.meta.supports_auto_pipelining)).length) (by simp)
    rw [drop_left] at hds
    exact ⟨_, _, (hw.move (holds_pushes hw.in_flight _) hds).of_core rfl⟩

/-- A new promise is one of its own. -/
theorem Waits.one_more (h : c.Waits xs ys) {xs' : List PromisePair} {ys' : List Entry}
    (hids : (ids xs' ys').Perm (ids xs ys ++ [c.promises])) :
    (ids xs' ys').Nodup ∧ ∀ p ∈ ids xs' ys', p < c.promises + 1 := by
  constructor
  · rw [hids.nodup_iff, nodup_append]
    refine ⟨h.distinct, nodup_singleton _, fun p hp q hq => ?_⟩
    rw [mem_singleton.1 hq]
    exact Nat.ne_of_lt (h.fresh p hp)
  · intro p hp
    rw [hids.mem_iff, mem_append, mem_singleton] at hp
    rcases hp with hp | rfl
    · exact lt_succ_of_lt (h.fresh p hp)
    · exact lt_succ_self _

theorem not_idle (hil : c.flags.failed = false ∧ c.deferred = []) :
    ¬ (c.flags.failed = true ∨ c.deferred ≠ []) := by
  simp [hil.1, hil.2]

theorem Waits.queued (h : c.Waits xs ys) (hil : c.flags.failed = false ∧ c.deferred = [])
    (cmd : Entry) (hid : cmd.promise.id = c.promises) :
    ({ c with queue := push c.queue cmd, promises := c.promises + 1 } : ValkeyClient sz δ).Waits
      xs (ys ++ [cmd]) := by
  have hids : (ids xs (ys ++ [cmd])).Perm (ids xs ys ++ [c.promises]) := by simp [ids, hid]
  obtain ⟨hds, hfr⟩ := h.one_more hids
  exact ⟨h.in_flight, holds_push h.queue cmd, hds, hfr, fun hne => absurd hne (not_idle hil),
    h.gone⟩

theorem Waits.written (h : c.Waits xs ys) (hil : c.flags.failed = false ∧ c.deferred = [])
    (pair : PromisePair) (hid : pair.promise.id = c.promises) :
    ({ c with in_flight := push c.in_flight pair, promises := c.promises + 1 } :
      ValkeyClient sz δ).Waits (xs ++ [pair]) ys := by
  have hids : (ids (xs ++ [pair]) ys).Perm (ids xs ys ++ [c.promises]) := by
    simp only [ids, map_append, map_cons, map_nil, hid, append_assoc]
    exact List.perm_append_comm.append_left _
  obtain ⟨hds, hfr⟩ := h.one_more hids
  exact ⟨holds_push h.in_flight pair, h.queue, hds, hfr, fun hne => absurd hne (not_idle hil),
    h.gone⟩

theorem Waits.made (h : c.Waits xs ys) :
    ({ c with promises := c.promises + 1 } : ValkeyClient sz δ).Waits xs ys :=
  ⟨h.in_flight, h.queue, h.distinct, fun p hp => lt_succ_of_lt (h.fresh p hp), h.idle, h.gone⟩

theorem sound_enqueue (h : c.Waits xs ys) (hil : c.flags.failed = false ∧ c.deferred = [])
    (command : Command) (promise : Promise) (hid : promise.id = c.promises) :
    (({ c with promises := c.promises + 1 } : ValkeyClient sz δ).enqueue command promise).Sound := by
  rw [enqueue]
  dsimp only
  split_ifs
  · exact ⟨_, _, (h.queued hil ⟨command.serialize, command.meta, promise⟩ hid).of_core rfl⟩
  · exact ⟨_, _, h.queued hil ⟨command.serialize, command.meta, promise⟩ hid⟩
  · refine Sound.of_core ?_ core_flushData
    exact ⟨_, _, (h.written hil ⟨command.meta, promise⟩ hid).of_core rfl⟩

/-- A command waits with a promise of its own. -/
theorem sound_send (h : c.Sound) (hfin : c.flags.finalized = false) (command : Command) :
    (c.send command).Sound := by
  obtain ⟨xs, ys, hw⟩ := h
  have hdef : c.deferred = [] := by
    by_contra hne
    simp [hw.gone hne] at hfin
  rw [send]
  dsimp only
  by_cases hfl : c.flags.failed = true
  · rw [if_pos hfl]
    exact ⟨xs, ys, hw.made.of_core rfl⟩
  · rw [if_neg hfl]
    rw [Bool.not_eq_true] at hfl
    have henq := sound_enqueue hw ⟨hfl, hdef⟩ { command with «meta» := command.checkedMeta }
      ⟨command.checkedMeta, c.promises⟩ rfl
    split
    · split_ifs
      · exact henq.of_core rfl
      · exact henq
    · split_ifs
      · exact henq
      · exact ⟨xs, ys, hw.made.of_core rfl⟩

theorem Waits.given_up (hin : c.in_flight = .initDynamic) (hqu : c.queue = .initDynamic)
    (hgn : c.deferred ≠ [] → c.flags.finalized = true) : c.Waits [] [] :=
  ⟨hin ▸ LinearFifo.holds_initDynamic, hqu ▸ LinearFifo.holds_initDynamic, nodup_nil,
    by simp [ids], fun _ => ⟨rfl, rfl⟩, hgn⟩

section

variable {close : ValkeyClient sz δ → ValkeyClient sz δ}

theorem sound_failWithJSValueBy (hcl : ∀ d : ValkeyClient sz δ, d.Sound → (close d).Sound)
    (h : c.Sound) (why : Reason) : (c.failWithJSValueBy close why).Sound := by
  have hgn : c.deferred ≠ [] → c.flags.finalized = true := by
    obtain ⟨xs, ys, hw⟩ := h
    exact hw.gone
  rw [failWithJSValueBy]
  simp only [rejectAllPendingCommands_eq]
  split_ifs
  · exact h
  · exact ⟨_, _, .given_up rfl rfl hgn⟩
  · exact hcl _ ⟨_, _, .given_up rfl rfl hgn⟩

theorem sound_failBy (hcl : ∀ d : ValkeyClient sz δ, d.Sound → (close d).Sound) (h : c.Sound)
    (message : Message) (err : RedisError) : (c.failBy close message err).Sound := by
  rw [failBy]
  split_ifs with hfl hfin
  · exact h
  · exact ⟨_, _, .given_up rfl rfl fun _ => hfin⟩
  · exact h
  · exact sound_failWithJSValueBy hcl h _

end

theorem sound_onClose (h : c.Sound) : c.onClose.Sound := by
  rw [onClose]
  dsimp only
  split_ifs
  · refine sound_failBy (fun _ hd => hd) ?_ _ _
    exact h.of_core rfl
  · refine sound_failBy (fun _ hd => hd) ?_ _ _
    exact h.of_core rfl
  · exact h.of_core rfl

theorem sound_socketClosed (h : c.Sound) : c.socketClosed.Sound := by
  have h' : ({ c with socketOpen := false } : ValkeyClient sz δ).Sound := h.of_core rfl
  exact (sound_onClose h').of_core rfl

theorem sound_close (h : c.Sound) : c.close.Sound := by
  rw [ValkeyClient.close]
  split_ifs
  · exact sound_socketClosed h
  · exact h

theorem sound_fail (h : c.Sound) (message : Message) (err : RedisError) :
    (c.fail message err).Sound := sound_failBy (fun _ => sound_close) h message err

theorem sound_failHandshake (h : c.Sound) (why : Reason) : (c.failHandshake why).Sound := by
  refine sound_close (sound_failWithJSValueBy (fun _ => sound_close) ?_ why)
  exact h.of_core rfl

theorem sound_disconnect (h : c.Sound) : c.disconnect.Sound := by
  rw [disconnect]
  dsimp only
  split_ifs
  · exact sound_close (h.of_core rfl)
  · exact h.of_core rfl

theorem sound_runDeferred (h : c.Sound) : c.runDeferred.Sound := by
  rw [runDeferred]
  obtain ⟨xs, ys, hw⟩ := h
  split
  · exact ⟨xs, ys, hw⟩
  · rename_i d ds hd
    rw [rejectAllPendingCommands_eq]
    refine ⟨xs, ys, hw.in_flight, hw.queue, hw.distinct, hw.fresh, fun hid => ?_, fun _ => ?_⟩
    · exact hw.idle (hid.imp_right fun _ => by simp [hd])
    · exact hw.gone (by simp [hd])

theorem sound_onValkeyConnect (h : c.Sound) : c.onValkeyConnect.Sound :=
  sound_sendNextCommand (h.of_core rfl)

theorem sound_handleHelloResponse (h : c.Sound) (value : RESPValue δ) :
    (c.handleHelloResponse value).Sound := by
  unfold handleHelloResponse
  split
  · exact sound_fail h _ _
  · split_ifs
    · exact sound_onValkeyConnect h
    · exact sound_fail h _ _
  · split_ifs
    · exact sound_fail h _ _
    · exact sound_onValkeyConnect h
  · exact sound_fail h _ _

theorem sound_handleSelectResponse (h : c.Sound) (value : RESPValue δ) :
    (c.handleSelectResponse value).Sound := by
  have h' : ({ c with flags := { c.flags with is_selecting_db_internal := false } } :
    ValkeyClient sz δ).Sound := h.of_core rfl
  unfold handleSelectResponse
  split
  · exact sound_fail h' _ _
  · split_ifs
    · exact sound_sendNextCommand h'
    · exact sound_fail h' _ _
  · exact sound_fail h' _ _

theorem sound_handleSubscribeResponse (h : c.Sound) (msg_type : SubscriptionPushMessage)
    (data : List (RESPValue δ)) (pair : Option PromisePair) :
    (c.handleSubscribeResponse msg_type data pair).Sound := by
  cases msg_type with
  | message =>
    change (c.onValkeyMessage data).Sound
    rw [onValkeyMessage]
    split_ifs
    · exact h
    · exact sound_sendNextCommand h
  | subscribe =>
    refine Sound.of_core (sound_sendNextCommand (Sound.of_core h ?_)) (core_settlePair pair _)
    rw [addSubscription]
    split_ifs <;> rfl
  | unsubscribe =>
    refine Sound.of_core (Sound.of_core (sound_sendNextCommand h) ?_) (core_settlePair pair _)
    rw [removeSubscription]
    split_ifs <;> rfl

theorem core_handleReply (value : RESPValue δ) (pair : Option PromisePair) :
    (c.handleReply value pair).core = c.core := by
  rcases pair with _ | pair
  · rfl
  · cases value <;> rfl

theorem Sound.readItem (h : c.Sound) :
    ({ c with in_flight := c.in_flight.readItem.2 } : ValkeyClient sz δ).Sound := by
  obtain ⟨xs, ys, hw⟩ := h
  rcases xs with _ | ⟨pair, xs⟩
  · rw [hw.in_flight.readItem_nil]
    exact ⟨[], ys, hw⟩
  · obtain ⟨hrd, hhl⟩ := hw.in_flight.readItem
    rw [hrd]
    refine ⟨xs, ys, hhl, hw.queue, (nodup_cons.1 hw.distinct).2, fun p hp => ?_,
      fun hid => ?_, hw.gone⟩
    · exact hw.fresh p (mem_cons_of_mem _ hp)
    · exact absurd (hw.idle hid).1 (by simp)

theorem sound_handlePaired (h : c.Sound) (value : RESPValue δ) (pair : Option PromisePair) :
    (c.handlePaired value pair).Sound := by
  unfold handlePaired
  dsimp only
  split_ifs
  · split
    · exact sound_fail h _ _
    · split
      · exact sound_handleSubscribeResponse h _ _ _
      · exact sound_fail h _ _
    · exact h.of_core (core_handleReply _ _)
  · exact h.of_core (core_handleReply _ _)

theorem sound_handleResponse (h : c.Sound) (value : RESPValue δ) :
    (c.handleResponse value).Sound := by
  rw [handleResponse]
  split_ifs
  · exact sound_handleHelloResponse h value
  · exact sound_handleSelectResponse h value
  · exact sound_handlePaired h value none
  · exact sound_handlePaired h.readItem value _

theorem core_authenticate (hello : Command) : (c.authenticate hello).core = c.core := by
  rw [authenticate]
  dsimp only
  split_ifs <;> rfl

theorem sound_onOpen (h : c.Sound) (hello : Command) : (c.onOpen hello).Sound := by
  obtain ⟨xs, ys, hw⟩ := h
  refine Sound.of_core (Sound.of_core ⟨xs, ys, ?_⟩ (core_authenticate hello)) core_flushData
  exact hw.of_parts rfl rfl rfl rfl (fun hf => by simp at hf) id

theorem sound_connect (h : c.Sound) (failed : Option NoSocket) : (c.connect failed).1.Sound := by
  rcases failed with _ | _ | err_value
  · exact h.of_core rfl
  · refine Sound.of_core (sound_fail ?_ _ _) rfl
    exact h.of_core rfl
  · exact h.of_core rfl

theorem finalized_onClose : c.onClose.flags.finalized = c.flags.finalized := by
  have hby : ∀ (d : ValkeyClient sz δ) (m : Message) (e : RedisError),
      (d.failBy id m e).flags.finalized = d.flags.finalized := by
    intro d m e
    simp only [failBy, failWithJSValueBy, rejectAllPendingCommands_eq]
    split_ifs <;> rfl
  simp only [onClose]
  split_ifs
  · exact hby ..
  · exact hby ..
  · rfl

theorem finalized_fail (message : Message) (err : RedisError) :
    (c.fail message err).flags.finalized = c.flags.finalized := by
  have hcl : ∀ d : ValkeyClient sz δ, d.close.flags.finalized = d.flags.finalized := by
    intro d
    rw [ValkeyClient.close]
    split_ifs
    · exact finalized_onClose
    · rfl
  rw [fail, failBy, failWithJSValueBy]
  simp only [rejectAllPendingCommands_eq]
  split_ifs
  · rfl
  · rfl
  · rfl
  · rfl
  · exact hcl _

theorem sound_jsSend (h : c.Sound) (hfin : c.flags.finalized = false) (failed : Option NoSocket)
    (command : Command) : (c.jsSend failed command).Sound := by
  have hcn := sound_connect h failed
  rw [jsSend]
  split_ifs
  · rcases failed with _ | _ | err_value
    · exact sound_send hcn hfin command
    · exact sound_send hcn ((finalized_fail _ _).trans hfin) command
    · obtain ⟨xs, ys, hw⟩ := hcn
      exact ⟨xs, ys, hw.made.of_core rfl⟩
  · exact sound_send h hfin command

theorem sound_reconnect (h : c.Sound) (failed : Option NoSocket) : (c.reconnect failed).Sound := by
  rw [reconnect]
  split_ifs
  · exact sound_connect h failed
  · exact h

theorem sound_doConnect (h : c.Sound) (failed : Option NoSocket) : (c.doConnect failed).Sound := by
  have h' : ({ c with flags := { c.flags with is_manually_closed := false, failed := false } } :
      ValkeyClient sz δ).Sound := by
    obtain ⟨xs, ys, hw⟩ := h
    exact ⟨xs, ys, hw.of_parts rfl rfl rfl rfl (fun hf => by simp at hf) id⟩
  rw [doConnect]
  dsimp only
  split_ifs
  · exact h
  · have hcn := sound_connect h' failed
    split
    · rename_i hc
      rwa [hc] at hcn
    · rename_i hc
      rw [hc] at hcn
      exact hcn.of_core rfl
  · refine sound_reconnect ?_ failed
    exact h'.of_core rfl
  · exact h'

theorem sound_finalize (h : c.Sound) :
    ({ c with flags := { c.flags with finalized := true } } : ValkeyClient sz δ).Sound := by
  obtain ⟨xs, ys, hw⟩ := h
  exact ⟨xs, ys, hw.of_parts rfl rfl rfl rfl id fun _ => rfl⟩

/-- Every event keeps the queues sound. -/
theorem sound_apply (h : c.Sound) (e : Event δ) : (c.apply e).Sound := by
  cases e with
  | send failed command =>
    change (if c.flags.finalized then c else c.jsSend failed command).Sound
    split_ifs with hfin
    · exact h
    · exact sound_jsSend h (by simpa using hfin) failed command
  | autoFlush => exact sound_onAutoFlush h
  | writable => exact sound_sendNextCommand h
  | response value => exact sound_handleResponse h value
  | fail message err => exact sound_fail h message err
  | failHandshake why => exact sound_failHandshake h why
  | socketClosed => exact sound_socketClosed h
  | disconnect => exact sound_disconnect h
  | opened hello => exact sound_onOpen h hello
  | doConnect failed => exact sound_doConnect h failed
  | reconnect failed => exact sound_reconnect h failed
  | listeners channels => exact h.of_core rfl
  | finalize => exact sound_finalize h
  | runDeferred => exact sound_runDeferred h

theorem sound_start (database max_retries : ℕ) (flags : ConnectionFlags) (accepts : List ℕ) :
    (start database max_retries flags accepts : ValkeyClient sz δ).Sound :=
  ⟨[], [], .given_up rfl rfl fun hd => absurd rfl hd⟩

/-- Along every run the queues hold commands with promises of their own. -/
theorem sound_run (h : c.Sound) (events : List (Event δ)) : (events.foldl apply c).Sound := by
  induction events generalizing c with
  | nil => exact h
  | cons e events ih => exact ih (sound_apply h e)

/-- How a client fails or is torn down. -/
inductive Ending where
  | fail (message : Message) (err : RedisError)
  | failHandshake (why : Reason)
  /-- `connect`, of a `reconnect` too. -/
  | connect (failed : NoSocket)
  | deinit (globalThis : Bool)

/-- The ends that reject anything. A finalizer cannot, and when the address cannot be connected to only
the listener of `onclose` is told. -/
def Ending.rejects : Ending → Bool
  | fail .. | failHandshake _ | connect .noContext => true
  | connect (.thrown _) => false
  | deinit globalThis => globalThis

/-- `d`, or where `c` is finalized what the event loop makes of it. -/
def afterTick (c d : ValkeyClient sz δ) : ValkeyClient sz δ :=
  if c.flags.finalized then d.runDeferred else d

/-- The client after its end, and after the failure that a finalized one defers. -/
def finish (c : ValkeyClient sz δ) : Ending → ValkeyClient sz δ
  | .fail message err => c.afterTick (c.fail message err)
  | .failHandshake why => c.failHandshake why
  | .connect failed => c.afterTick (c.connect (some failed)).1
  | .deinit globalThis => c.deinit globalThis

/-- The promises that have not been settled. -/
def pending (c : ValkeyClient sz δ) : List ℕ := ids c.in_flight.toList c.queue.toList

theorem Waits.pending (h : c.Waits xs ys) : c.pending = ids xs ys := by
  rw [ValkeyClient.pending, h.in_flight.toList, h.queue.toList]

/-- What a failure settles and empties. -/
def kept (c : ValkeyClient sz δ) :
    List (ℕ × Outcome δ) × Queue sz.pair PromisePair × Queue sz.entry Entry :=
  (c.settled, c.in_flight, c.queue)

end ValkeyClient

open ValkeyClient

/-- No two commands that wait have one promise, and none waits once the client has failed. -/
theorem pending_distinct (database max_retries : ℕ) (flags : ConnectionFlags) (accepts : List ℕ)
    (events : List (Event δ)) :
    let c : ValkeyClient sz δ := events.foldl apply (start database max_retries flags accepts)
    c.pending.Nodup ∧ (∀ p ∈ c.pending, p < c.promises)
      ∧ (c.flags.failed = true ∨ c.deferred ≠ [] → c.pending = []) := by
  intro c
  obtain ⟨xs, ys, hw⟩ := sound_run (sound_start database max_retries flags accepts) events
  change c.Waits xs ys at hw
  rw [hw.pending]
  refine ⟨hw.distinct, hw.fresh, fun hfl => ?_⟩
  obtain ⟨rfl, rfl⟩ := hw.idle hfl
  rfl

end Cruller.Valkey
