import Cruller.Valkey.Client

/-!
# The timers of a Valkey client

A client keeps itself alive with a reference for each of its timers that is armed. `refs` tells
whose the references that `raw_count` counts are: `addTimer` takes one for the timer it arms, a
function takes one while it runs, and the others are the socket's, the wrapper's and the queued
tasks'.
-/

namespace Cruller.Valkey

open List Option

inductive EventLoopTimer.State where
  | PENDING
  | ACTIVE
  | CANCELLED
  | FIRED
deriving DecidableEq

inductive EventLoopTimer.InHeap where
  | none
  | regular
  | fake
deriving DecidableEq

/-- A timer of the event loop. -/
structure EventLoopTimer where
  state : EventLoopTimer.State := .PENDING
  in_heap : EventLoopTimer.InHeap := .none
deriving DecidableEq

/-- The two timers of a client. -/
inductive TimerField where
  | timer
  | reconnect_timer
deriving DecidableEq

/-- Who holds a reference. -/
inductive Holder where
  | timer
  | guard
  | other
deriving DecidableEq

/-- How many of each hold one. -/
structure Refs where
  timers : ℕ
  guards : ℕ
  others : ℕ
deriving DecidableEq

namespace Refs

def take (r : Refs) : Holder → Refs
  | .timer => { r with timers := r.timers + 1 }
  | .guard => { r with guards := r.guards + 1 }
  | .other => { r with others := r.others + 1 }

def drop (r : Refs) : Holder → Refs
  | .timer => { r with timers := r.timers - 1 }
  | .guard => { r with guards := r.guards - 1 }
  | .other => { r with others := r.others - 1 }

def total (r : Refs) : ℕ := r.timers + r.guards + r.others

end Refs

/-- A function that has called code which may run anything, and its guard. -/
inductive Frame where
  /-- `onConnectionTimeout`, in `clientFail`. -/
  | clientFail
  /-- `onReconnectTimer`, in `reconnect`. -/
  | reconnect
  /-- `reconnect`, in `connect`. -/
  | connect
  /-- `reconnect`, in `failWithJSValue`. -/
  | failWithJSValue
deriving DecidableEq

/-- What the timers' functions read of the client and of the machine it runs on. -/
structure ClientData where
  status : Status
  flags : ConnectionFlags
  retry_attempts : ℕ
  connection_timeout_ms : ℕ
  idle_timeout_interval_ms : ℕ
  isShuttingDown : Bool

/-- The client as far as its timers and its reference count go. -/
structure JSValkeyClient where
  client : ClientData
  timers : TimerField → EventLoopTimer := fun _ => {}
  raw_count : ℕ := 1
  destroyed : Bool := false
  refs : Refs := ⟨0, 0, 1⟩
  calls : List Frame := []

namespace ClientData

/-- How long the client waits now. -/
def getTimeoutInterval (this : ClientData) : ℕ :=
  if this.flags.failed then 0
  else match this.status with
    | .connected => this.idle_timeout_interval_ms
    | _ => this.connection_timeout_ms

/-- How long until the next attempt. -/
def getReconnectDelay (this : ClientData) : ℕ :=
  let base_delay := 50
  let max_delay := 2000
  if this.retry_attempts = 0 then base_delay
  else
    let attempt := min this.retry_attempts 10
    (fun delay => min (delay * 2) max_delay)^[attempt - 1] base_delay

end ClientData

namespace JSValkeyClient

variable (this : JSValkeyClient)

/-- The timer is armed. -/
def IsActive (t : TimerField) : Prop := (this.timers t).state = .ACTIVE

instance (t : TimerField) : Decidable (this.IsActive t) :=
  inferInstanceAs (Decidable ((this.timers t).state = .ACTIVE))

def setTimer (t : TimerField) (timer : EventLoopTimer) : JSValkeyClient :=
  { this with timers := Function.update this.timers t timer }

/-- One reference more. -/
def ref (h : Holder) : JSValkeyClient :=
  { this with raw_count := this.raw_count + 1, refs := this.refs.take h }

/-- `stopTimers` would drop a reference of a client that has none, which ends the program. -/
def deinit : Option JSValkeyClient :=
  if this.IsActive .timer ∨ this.IsActive .reconnect_timer then none
  else some { this with destroyed := true }

/-- One reference less; the last one destroys the client. -/
def deref (h : Holder) : Option JSValkeyClient :=
  if this.raw_count = 0 then none
  else
    let this := { this with raw_count := this.raw_count - 1, refs := this.refs.drop h }
    if this.raw_count = 0 then this.deinit else some this

/-- `vm.timer.insert`. -/
def insert (t : TimerField) : JSValkeyClient := this.setTimer t ⟨.ACTIVE, .regular⟩

/-- `vm.timer.remove`. -/
def remove (t : TimerField) : Option JSValkeyClient :=
  if (this.timers t).in_heap = .none then none else some (this.setTimer t ⟨.CANCELLED, .none⟩)

/-- A timer that is armed is taken out of the heap, and its reference dropped. -/
def removeTimer (t : TimerField) : Option JSValkeyClient := do
  if this.IsActive t then
    let this ← this.remove t
    this.deref .timer
  else
    this

/-- The timer is armed, and holds a reference. -/
def addTimer (t : TimerField) (next_timeout_ms : ℕ) : Option JSValkeyClient := do
  let this := this.ref .guard
  let this ← (if this.IsActive t then this.removeTimer t else some this)
  if next_timeout_ms = 0 then
    this.deref .guard
  else
    ((this.insert t).ref .timer).deref .guard

/-- The timer is armed anew for what the client waits for. -/
def resetConnectionTimeout : Option JSValkeyClient := do
  let interval := this.client.getTimeoutInterval
  let this ← (if this.IsActive .timer then this.removeTimer .timer else some this)
  if interval > 0 then this.addTimer .timer interval else some this

def setState (t : TimerField) (state : EventLoopTimer.State) : JSValkeyClient :=
  this.setTimer t { this.timers t with state := state }

/-- Nothing is waited for any more. -/
def disableConnectionTimeout : Option JSValkeyClient := do
  let this ← (if this.IsActive .timer then this.removeTimer .timer else some this)
  some (this.setState .timer .CANCELLED)

/-- The next attempt to connect is timed. -/
def onValkeyReconnect : Option JSValkeyClient := do
  let this ←
    (if this.IsActive .reconnect_timer then this.removeTimer .reconnect_timer else some this)
  let delay_ms := this.client.getReconnectDelay
  if delay_ms > 0 then this.addTimer .reconnect_timer delay_ms else some this

/-- Both timers are taken out of the heap. -/
def stopTimers : Option JSValkeyClient := do
  let this ← (if this.IsActive .timer then this.removeTimer .timer else some this)
  if this.IsActive .reconnect_timer then this.removeTimer .reconnect_timer else some this

/-- A call is under way. -/
def call (f : Frame) : JSValkeyClient := { this with calls := f :: this.calls }

/-- The timer has fired. -/
def onConnectionTimeout : Option JSValkeyClient := do
  let this := (this.setState .timer .FIRED).ref .guard
  if this.client.flags.failed then
    this.deref .guard
  else if this.client.getTimeoutInterval = 0 then
    let this ← this.resetConnectionTimeout
    this.deref .guard
  else
    some (this.call .clientFail)

/-- A guarded attempt to connect. -/
def reconnect : JSValkeyClient :=
  if !this.client.flags.is_reconnecting then this
  else if this.client.isShuttingDown then this
  else (this.ref .guard).call .connect

/-- The reconnect timer has fired. -/
def onReconnectTimer : JSValkeyClient :=
  (((this.setState .reconnect_timer .FIRED).ref .guard).call .reconnect).reconnect

/-- The function that called returns to its caller, with an error or not. -/
def returned (err : Bool) : Option JSValkeyClient :=
  match this.calls with
  | [] => none
  | .connect :: calls =>
    if err then some { this with calls := .failWithJSValue :: calls }
    else do
      let this ← { this with calls := calls }.resetConnectionTimeout
      this.deref .guard
  | _ :: calls => { this with calls := calls }.deref .guard

/-- What happens to a client: a call of one of its functions, the event loop that finds a timer
due, the return of a function that was called, or what others do with it. -/
inductive Event where
  | addTimer (t : TimerField) (next_timeout_ms : ℕ)
  | removeTimer (t : TimerField)
  | resetConnectionTimeout
  | disableConnectionTimeout
  | onValkeyReconnect
  | stopTimers
  | reconnect
  | fired (t : TimerField)
  | returned (err : Bool)
  | ref
  | deref
  | changed (client : ClientData)

/-- A timer fires. -/
def Event.isFiring : Event → Bool
  | .fired _ => true
  | _ => false

/-- Who calls holds a reference, drops only one that is its own, and only an armed timer fires. -/
def Enabled : Event → Prop
  | .fired t => this.IsActive t
  | .returned _ => this.calls ≠ []
  | .deref => 0 < this.refs.others
  | _ => 0 < this.refs.guards + this.refs.others

/-- The state behind an event; `none` is a panic or a use after free. -/
def step : Event → Option JSValkeyClient
  | .addTimer t next_timeout_ms => this.addTimer t next_timeout_ms
  | .removeTimer t => this.removeTimer t
  | .resetConnectionTimeout => this.resetConnectionTimeout
  | .disableConnectionTimeout => this.disableConnectionTimeout
  | .onValkeyReconnect => this.onValkeyReconnect
  | .stopTimers => this.stopTimers
  | .reconnect => some this.reconnect
  | .fired .timer => this.onConnectionTimeout
  | .fired .reconnect_timer => some this.onReconnectTimer
  | .returned err => this.returned err
  | .ref => some (this.ref .other)
  | .deref => this.deref .other
  | .changed client => some { this with client := client }

end JSValkeyClient

open JSValkeyClient

/-- The clients that runs lead to, each with what happened to it, the last first. -/
inductive Reached : List Event → JSValkeyClient → Prop where
  | new (client : ClientData) : Reached [] { client }
  | step {es : List Event} {c c' : JSValkeyClient} (e : Event) (before : Reached es c)
      (enabled : c.Enabled e) (runs : c.step e = some c') : Reached (e :: es) c'

namespace JSValkeyClient

/-- How many timers are armed. -/
def active (c : JSValkeyClient) : ℕ :=
  (if c.IsActive .timer then 1 else 0) + (if c.IsActive .reconnect_timer then 1 else 0)

/-- The timers hold `leaked` references more than there are armed timers. -/
structure Counts (leaked guards others : ℕ) (c : JSValkeyClient) : Prop where
  timers : c.refs.timers = c.active + leaked
  guards : c.refs.guards = guards
  others : c.refs.others = others
  total : c.raw_count = c.refs.total
  destroyed : c.destroyed = true ↔ c.raw_count = 0
  in_heap : ∀ t, c.IsActive t → (c.timers t).in_heap ≠ .none

/-- `r` goes through, and leaves the counts and the calls as they are given. -/
def Goes (leaked guards others : ℕ) (calls : List Frame) (r : Option JSValkeyClient) : Prop :=
  ∃ c, r = some c ∧ Counts leaked guards others c ∧ c.calls = calls

variable {k g o : ℕ} {c : JSValkeyClient} {calls : List Frame}

variable {k' g' o' : ℕ} {t : TimerField}

lemma isActive_iff : c.IsActive t ↔ (c.timers t).state = .ACTIVE := Iff.rfl

lemma active_setTimer (t : TimerField) (timer : EventLoopTimer) :
    (c.setTimer t timer).active + (if c.IsActive t then 1 else 0)
      = c.active + (if timer.state = .ACTIVE then 1 else 0) := by
  cases t <;> simp [active, setTimer, isActive_iff] <;> omega

lemma not_active_of_active_eq_zero (h : c.active = 0) (t : TimerField) : ¬ c.IsActive t := by
  intro ht
  cases t <;> simp [active, ht] at h

lemma Counts.goes (h : Counts k g o c) : Goes k g o c.calls (some c) := ⟨c, rfl, h, rfl⟩

lemma Counts.setTimer (h : Counts k g o c) (t : TimerField) {timer : EventLoopTimer}
    (hin : timer.state = .ACTIVE → timer.in_heap ≠ .none)
    (hk : k' + (if timer.state = .ACTIVE then 1 else 0) = k + (if c.IsActive t then 1 else 0)) :
    Counts k' g o (c.setTimer t timer) where
  timers := by
    have hact := active_setTimer (c := c) t timer
    have := h.timers
    change c.refs.timers = _
    omega
  guards := h.guards
  others := h.others
  total := h.total
  destroyed := h.destroyed
  in_heap t' ht' := by
    by_cases heq : t' = t
    · subst heq
      simp only [isActive_iff, JSValkeyClient.setTimer, Function.update_self] at ht' ⊢
      exact hin ht'
    · simp only [isActive_iff, JSValkeyClient.setTimer, Function.update_of_ne heq] at ht' ⊢
      exact h.in_heap t' ht'

lemma Counts.pos (h : Counts k g o c) (hpos : 0 < g + o) : 0 < c.raw_count := by
  have := h.total
  have := h.guards
  have := h.others
  simp only [Refs.total] at *
  omega

lemma Counts.ref (h : Counts k g o c) (hpos : 0 < c.raw_count) {b : Holder}
    (timers : (c.refs.take b).timers = c.active + k') (guards : (c.refs.take b).guards = g')
    (others : (c.refs.take b).others = o') : Counts k' g' o' (c.ref b) where
  timers := timers
  guards := guards
  others := others
  total := by
    have htl := h.total
    change c.raw_count + 1 = (c.refs.take b).total
    cases b <;> simp only [Refs.take, Refs.total] at htl ⊢ <;> omega
  destroyed := by
    have hds := h.destroyed
    change c.destroyed = true ↔ c.raw_count + 1 = 0
    rw [hds]
    omega
  in_heap := h.in_heap

lemma Counts.ref_guard (h : Counts k g o c) (hpos : 0 < c.raw_count) :
    Counts k (g + 1) o (c.ref .guard) :=
  h.ref hpos h.timers (congrArg (· + 1) h.guards) h.others

lemma Counts.deref (h : Counts k g o c) {b : Holder}
    (timers : (c.refs.drop b).timers = c.active + k') (guards : (c.refs.drop b).guards = g')
    (others : (c.refs.drop b).others = o') (hone : (c.refs.drop b).total + 1 = c.refs.total) :
    Goes k' g' o' c.calls (c.deref b) := by
  have htl : c.raw_count - 1 = (c.refs.drop b).total := by
    rw [h.total, ← hone, Nat.add_sub_cancel]
  have hraw : c.raw_count ≠ 0 := by
    rw [h.total, ← hone]
    omega
  have hnot : c.destroyed ≠ true := fun hd => hraw (h.destroyed.1 hd)
  unfold JSValkeyClient.deref
  rw [if_neg hraw]
  by_cases hls : c.raw_count - 1 = 0
  · have hid : c.active = 0 := by
      simp only [Refs.total] at htl
      omega
    have hno : ¬ (c.IsActive .timer ∨ c.IsActive .reconnect_timer) := by
      rintro (ht | ht)
      · exact not_active_of_active_eq_zero hid _ ht
      · exact not_active_of_active_eq_zero hid _ ht
    simp only [hls, if_true, deinit]
    refine ⟨_, if_neg hno, ⟨timers, guards, others, ?_, by simp, h.in_heap⟩, rfl⟩
    rw [← hls, htl]
  · simp only [hls, if_false]
    exact ⟨_, rfl, ⟨timers, guards, others, htl, by simp [hnot, hls], h.in_heap⟩, rfl⟩

lemma Counts.deref_guard (h : Counts k (g + 1) o c) : Goes k g o c.calls (c.deref .guard) := by
  have hgr := h.guards
  refine h.deref h.timers ?_ h.others ?_ <;> simp only [Refs.drop, Refs.total] <;> omega

lemma Counts.deref_timer (h : Counts (k + 1) g o c) : Goes k g o c.calls (c.deref .timer) := by
  have htm := h.timers
  refine h.deref ?_ h.guards h.others ?_ <;> simp only [Refs.drop, Refs.total] <;> omega

lemma Counts.deref_other (h : Counts k g (o + 1) c) : Goes k g o c.calls (c.deref .other) := by
  have hot := h.others
  refine h.deref h.timers h.guards ?_ ?_ <;> simp only [Refs.drop, Refs.total] <;> omega

lemma Goes.bind {r : Option JSValkeyClient} {calls' : List Frame}
    {f : JSValkeyClient → Option JSValkeyClient} (h : Goes k g o calls r)
    (hf : ∀ c, Counts k g o c → c.calls = calls → Goes k' g' o' calls' (f c)) :
    Goes k' g' o' calls' (r >>= f) := by
  obtain ⟨c, rfl, hc, hcl⟩ := h
  exact hf c hc hcl

lemma Counts.removeTimer (h : Counts k g o c) (t : TimerField) :
    Goes k g o c.calls (c.removeTimer t) := by
  unfold JSValkeyClient.removeTimer
  by_cases ht : c.IsActive t
  · rw [if_pos ht]
    have hcn : Counts (k + 1) g o (c.setTimer t ⟨.CANCELLED, .none⟩) :=
      h.setTimer t (by simp) (by simp [ht])
    have hrm : c.remove t = some (c.setTimer t ⟨.CANCELLED, .none⟩) :=
      if_neg (h.in_heap t ht)
    simp only [hrm, bind_eq_bind, bind_some]
    exact hcn.deref_timer
  · rw [if_neg ht]
    exact h.goes

lemma removeTimer_isActive {c' : JSValkeyClient} (h : c.removeTimer t = some c') :
    ¬ c'.IsActive t := by
  unfold JSValkeyClient.removeTimer at h
  by_cases ht : c.IsActive t
  · rw [if_pos ht] at h
    simp only [remove, bind_eq_bind] at h
    split_ifs at h with hin
    · simp at h
    · simp only [bind_some, JSValkeyClient.deref, deinit] at h
      split_ifs at h <;> obtain rfl := some.inj h <;> simp [isActive_iff, setTimer]
  · rw [if_neg ht] at h
    obtain rfl := some.inj h
    exact ht

/-- Once `t` is disarmed, the client goes on. -/
lemma Counts.disarmed (h : Counts k g o c) (t : TimerField) {calls' : List Frame}
    {f : JSValkeyClient → Option JSValkeyClient}
    (hf : ∀ c', Counts k g o c' → c'.calls = c.calls → ¬ c'.IsActive t →
      Goes k' g' o' calls' (f c')) :
    Goes k' g' o' calls' ((if c.IsActive t then c.removeTimer t else some c) >>= f) := by
  have hrm : (if c.IsActive t then c.removeTimer t else some c) = c.removeTimer t := by
    unfold JSValkeyClient.removeTimer
    split_ifs <;> rfl
  rw [hrm]
  obtain ⟨c', hc', hcn, hcl⟩ := h.removeTimer t
  rw [hc']
  exact hf c' hcn hcl (removeTimer_isActive hc')

lemma Counts.insert_ref (h : Counts k g o c) (hpos : 0 < c.raw_count)
    (ht : ¬ c.IsActive t) : Counts k g o ((c.insert t).ref .timer) where
  timers := by
    have hact := active_setTimer (c := c) t ⟨.ACTIVE, .regular⟩
    have htm := h.timers
    simp only [if_neg ht, if_true] at hact
    change c.refs.timers + 1 = (c.insert t).active + k
    unfold insert
    omega
  guards := h.guards
  others := h.others
  total := by
    have htl := h.total
    change c.raw_count + 1 = (c.refs.take .timer).total
    simp only [Refs.take, Refs.total] at htl ⊢
    omega
  destroyed := by
    have hds := h.destroyed
    change c.destroyed = true ↔ c.raw_count + 1 = 0
    rw [hds]
    omega
  in_heap t' ht' := by
    by_cases heq : t' = t
    · subst heq
      change ((c.insert t').timers t').in_heap ≠ .none
      simp [insert, JSValkeyClient.setTimer]
    · simp only [isActive_iff, JSValkeyClient.ref, insert, JSValkeyClient.setTimer,
        Function.update_of_ne heq] at ht' ⊢
      exact h.in_heap t' ht'

lemma Counts.addTimer (h : Counts k g o c) (hpos : 0 < c.raw_count) (t : TimerField) (ms : ℕ) :
    Goes k g o c.calls (c.addTimer t ms) := by
  unfold JSValkeyClient.addTimer
  refine (h.ref_guard hpos).disarmed t fun c' hc' hcl hid => ?_
  split_ifs with hms
  · exact hcl ▸ hc'.deref_guard
  · exact hcl ▸ (hc'.insert_ref (hc'.pos (by omega)) hid).deref_guard

lemma Counts.resetConnectionTimeout (h : Counts k g o c) (hpos : 0 < g + o) :
    Goes k g o c.calls c.resetConnectionTimeout := by
  unfold JSValkeyClient.resetConnectionTimeout
  refine h.disarmed .timer fun c' hc' hcl _ => ?_
  rw [← hcl]
  split_ifs
  · exact hc'.addTimer (hc'.pos hpos) _ _
  · exact hc'.goes

lemma Counts.reset_deref (h : Counts k (g + 1) o c) :
    Goes k g o c.calls
      (c.resetConnectionTimeout >>= fun c' => c'.deref .guard) := by
  refine (h.resetConnectionTimeout (by omega)).bind fun c' hc' hcl => ?_
  rw [← hcl]
  exact hc'.deref_guard

lemma Counts.disableConnectionTimeout (h : Counts k g o c) :
    Goes k g o c.calls c.disableConnectionTimeout := by
  unfold JSValkeyClient.disableConnectionTimeout
  refine h.disarmed .timer fun c' hc' hcl hid => ?_
  rw [← hcl]
  exact (hc'.setTimer .timer (by simp) (by simp [hid])).goes

lemma Counts.onValkeyReconnect (h : Counts k g o c) (hpos : 0 < g + o) :
    Goes k g o c.calls c.onValkeyReconnect := by
  unfold JSValkeyClient.onValkeyReconnect
  refine h.disarmed .reconnect_timer fun c' hc' hcl _ => ?_
  rw [← hcl]
  dsimp only
  split_ifs
  · exact hc'.addTimer (hc'.pos hpos) _ _
  · exact hc'.goes

lemma Counts.stopTimers (h : Counts k g o c) : Goes k g o c.calls c.stopTimers := by
  unfold JSValkeyClient.stopTimers
  refine h.disarmed .timer fun c' hc' hcl _ => ?_
  rw [← hcl]
  split_ifs
  · exact hc'.removeTimer _
  · exact hc'.goes

lemma Counts.fired (h : Counts k g o c) (ht : c.IsActive t) :
    Counts (k + 1) (g + 1) o ((c.setState t .FIRED).ref .guard) := by
  have hst : Counts (k + 1) g o (c.setState t .FIRED) := h.setTimer t (by simp) (by simp [ht])
  refine hst.ref_guard ?_
  have htl := hst.total
  have htm := hst.timers
  simp only [Refs.total] at htl
  omega

lemma Counts.call (h : Counts k g o c) (f : Frame) : Counts k g o (c.call f) :=
  ⟨h.timers, h.guards, h.others, h.total, h.destroyed, h.in_heap⟩

lemma Counts.withCalls (h : Counts k g o c) (calls : List Frame) :
    Counts k g o { c with calls := calls } :=
  ⟨h.timers, h.guards, h.others, h.total, h.destroyed, h.in_heap⟩

/-- What holds after a run with `k` firings: every function that is called has its guard. -/
def Kept (k : ℕ) (c : JSValkeyClient) : Prop := Counts k c.calls.length c.refs.others c

lemma Counts.kept (h : Counts k g o c) (hg : c.calls.length = g) : Kept k c := by
  unfold Kept
  rw [hg, h.others]
  exact h

lemma Goes.kept {r : Option JSValkeyClient} (h : Goes k g o calls r) (hg : calls.length = g) :
    ∃ c, r = some c ∧ Kept k c := by
  obtain ⟨c, rfl, hc, rfl⟩ := h
  exact ⟨c, rfl, hc.kept hg⟩

lemma Kept.onConnectionTimeout (h : Kept k c) (ht : c.IsActive .timer) :
    ∃ c', c.onConnectionTimeout = some c' ∧ Kept (k + 1) c' := by
  have hfr := h.fired ht
  unfold JSValkeyClient.onConnectionTimeout
  dsimp only
  split_ifs
  · exact hfr.deref_guard.kept rfl
  · exact hfr.reset_deref.kept rfl
  · exact ⟨_, rfl, (hfr.call .clientFail).kept rfl⟩

lemma Kept.reconnect (h : Kept k c) (hpos : 0 < c.raw_count) : Kept k c.reconnect := by
  unfold JSValkeyClient.reconnect
  split_ifs
  · exact h
  · exact h
  · exact ((Counts.ref_guard h hpos).call .connect).kept rfl

lemma Kept.onReconnectTimer (h : Kept k c) (ht : c.IsActive .reconnect_timer) :
    Kept (k + 1) c.onReconnectTimer := by
  have hcl := (h.fired ht).call .reconnect
  exact (hcl.kept rfl).reconnect (hcl.pos (by omega))

lemma Kept.returned (h : Kept k c) (hcl : c.calls ≠ []) (err : Bool) :
    ∃ c', c.returned err = some c' ∧ Kept k c' := by
  unfold Kept at h
  obtain ⟨f, calls, heq⟩ := exists_cons_of_ne_nil hcl
  rw [heq] at h
  have hcn : Counts k (calls.length + 1) c.refs.others { c with calls := calls } :=
    h.withCalls calls
  have hdr := hcn.deref_guard.kept rfl
  unfold JSValkeyClient.returned
  rw [heq]
  cases f with
  | connect =>
    cases err with
    | true => exact ⟨_, rfl, (h.withCalls (.failWithJSValue :: calls)).kept rfl⟩
    | false => exact hcn.reset_deref.kept rfl
  | clientFail => exact hdr
  | reconnect => exact hdr
  | failWithJSValue => exact hdr

/-- How often a timer fired. -/
def firings (es : List Event) : ℕ := es.countP Event.isFiring

/-- The references are kept, and one more is lost where a timer fires. -/
lemma Kept.step (h : Kept k c) {e : Event} (he : c.Enabled e) :
    ∃ c', c.step e = some c' ∧ Kept (k + if e.isFiring then 1 else 0) c' := by
  cases e with
  | fired t =>
    cases t with
    | timer => exact h.onConnectionTimeout he
    | reconnect_timer => exact ⟨_, rfl, h.onReconnectTimer he⟩
  | returned err => exact h.returned he err
  | deref =>
    obtain ⟨o, ho⟩ := Nat.exists_eq_succ_of_ne_zero (Nat.ne_of_gt he)
    unfold Kept at h
    rw [ho] at h
    exact h.deref_other.kept rfl
  | addTimer t ms => exact (Counts.addTimer h (h.pos (h.guards ▸ he)) t ms).kept rfl
  | removeTimer t => exact (Counts.removeTimer h t).kept rfl
  | resetConnectionTimeout => exact (Counts.resetConnectionTimeout h (h.guards ▸ he)).kept rfl
  | disableConnectionTimeout => exact (Counts.disableConnectionTimeout h).kept rfl
  | onValkeyReconnect => exact (Counts.onValkeyReconnect h (h.guards ▸ he)).kept rfl
  | stopTimers => exact (Counts.stopTimers h).kept rfl
  | reconnect => exact ⟨_, rfl, h.reconnect (h.pos (h.guards ▸ he))⟩
  | ref =>
    have href : Counts k c.calls.length (c.refs.others + 1) (c.ref .other) :=
      Counts.ref h (h.pos (h.guards ▸ he)) h.timers h.guards rfl
    exact ⟨_, rfl, href.kept rfl⟩
  | changed client =>
    exact ⟨_, rfl, h.timers, h.guards, rfl, h.total, h.destroyed, h.in_heap⟩

end JSValkeyClient

lemma kept_new (client : ClientData) : Kept 0 { client } :=
  ⟨rfl, rfl, rfl, rfl, by simp, fun t ht => by simp [isActive_iff] at ht⟩

lemma Reached.kept {es : List Event} {c : JSValkeyClient} (h : Reached es c) :
    Kept (firings es) c := by
  induction h with
  | new client => exact kept_new client
  | step e _ enabled runs ih =>
    obtain ⟨c', hc', hkp⟩ := ih.step enabled
    obtain rfl := some.inj (hc'.symm.trans runs)
    simpa [firings, countP_cons] using hkp

namespace JSValkeyClient

/-- The references of the timers are those of the armed ones, so a client is destroyed as soon as
none of its timers is armed and all others have dropped theirs, and never before. -/
structure TimersBalance (c : JSValkeyClient) : Prop where
  refs : c.refs.timers = c.active
  destroyed : c.destroyed = true ↔ c.active = 0 ∧ c.refs.guards = 0 ∧ c.refs.others = 0

lemma Kept.destroyed_iff (h : Kept k c) :
    c.destroyed = true ↔ c.active + k = 0 ∧ c.refs.guards = 0 ∧ c.refs.others = 0 := by
  rw [h.destroyed, h.total, Refs.total, h.timers]
  omega

lemma Kept.balance_iff (h : Kept k c) : TimersBalance c ↔ k = 0 := by
  constructor
  · intro hbal
    have htm := h.timers
    have hrf := hbal.refs
    omega
  · rintro rfl
    exact ⟨h.timers, h.destroyed_iff⟩

end JSValkeyClient

/-- The references of the timers balance exactly as long as no timer has fired: a firing does not
drop the reference of its timer. -/
theorem timersBalance_iff {es : List Event} {c : JSValkeyClient} (h : Reached es c) :
    TimersBalance c ↔ ∀ e ∈ es, e.isFiring = false := by
  rw [h.kept.balance_iff, firings, countP_eq_zero]
  simp

/-- A client that is connected. -/
def idleClient : ClientData where
  status := .connected
  flags := {}
  retry_attempts := 0
  connection_timeout_ms := 10000
  idle_timeout_interval_ms := 0
  isShuttingDown := false

/-- Its timer is armed. -/
def armedClient : JSValkeyClient where
  client := idleClient
  timers := Function.update (fun _ => {}) .timer ⟨.ACTIVE, .regular⟩
  raw_count := 2
  refs := ⟨1, 0, 1⟩

/-- The timer has fired. -/
def firedClient : JSValkeyClient := armedClient.setState .timer .FIRED

lemma reached_armed : Reached [.addTimer .timer 1000] armedClient :=
  .step _ (.new idleClient) Nat.one_pos rfl

lemma reached_fired : Reached [.fired .timer, .addTimer .timer 1000] firedClient :=
  .step _ reached_armed rfl rfl

/-- A client whose timer was armed once. -/
theorem timersBalance_armed : TimersBalance armedClient :=
  (timersBalance_iff reached_armed).2 (by simp [Event.isFiring])

/-- A timer that has fired keeps its reference. -/
theorem not_timersBalance_fired : ¬ ∀ es c, Reached es c → TimersBalance c := by
  intro h
  have hrefs : 1 = firedClient.active := (h _ _ reached_fired).refs
  simp [active, isActive_iff, firedClient, armedClient, setState, JSValkeyClient.setTimer] at hrefs

end Cruller.Valkey
