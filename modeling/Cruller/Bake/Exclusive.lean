import Cruller.Bake.HandOff

/-!
# No event is in two hands

The two threads once more, with one step for each access to the slot: a submission that finds the
server done swaps its event into the slot in one step and stores `waiting` in a later one. Between
the two the server is idle and takes no step, so each state is one of the hand-off, or one whose
watcher is about to finish a submission that the hand-off takes in one step.
-/

namespace Cruller.Bake

namespace WatcherAtomics

variable (self : WatcherAtomics)

/-- The swap of a submission, by itself. -/
def swapNextEvent (ev_index : Index) : WatcherAtomics :=
  { self with next_event := .event ev_index }

/-- What a submission does after it has found `done`. -/
def storeWaiting (ev_index : Index) : WatcherAtomics :=
  { self with current_event := some ev_index, pending_event := none, next_event := .waiting }

variable {self}

theorem watcherReleaseAndSubmitEvent_of_done {ev_index : Index}
    (hev : (self.events ev_index).isEmpty = false) (hsl : self.next_event = .done) :
    self.watcherReleaseAndSubmitEvent ev_index =
      .ok ((self.swapNextEvent ev_index).storeWaiting ev_index, true) := by
  rw [watcherReleaseAndSubmitEvent, if_neg (by simp [hev]), hsl]
  rfl

end WatcherAtomics

/-- The step is the watcher's. -/
def ThreadStep.ofWatcher : ThreadStep → Bool
  | .watcherAcquireEvent | .appendFile _ | .appendDir _ _ | .watcherReleaseAndSubmitEvent => true
  | _ => false

/-- The hand-off and, where the watcher's thread has swapped an event for `done` and not yet stored
`waiting`, that event. -/
structure Threads where
  handOff : HandOff
  submitting : Option Index

/-- A step of either thread, where the swap of a submission is one and its store another. -/
inductive AtomicStep where
  | thread (a : ThreadStep)
  /-- The store of `waiting`. -/
  | store
deriving DecidableEq

namespace Threads

def init : Threads := ⟨.init, none⟩

variable (s : Threads)

/-- The event that this step swaps in, when it does. -/
def swapsIn : ThreadStep → Option Index
  | .watcherReleaseAndSubmitEvent => s.handOff.watcher.filter fun index =>
    !(s.handOff.atomics.events index).isEmpty && s.handOff.atomics.next_event == .done
  | _ => none

/-- The store must come next on the thread that has swapped. -/
def step (platform : Platform) : AtomicStep → Except Fault Threads
  | .thread a =>
    if a.ofWatcher ∧ s.submitting ≠ none then .error .notNow
    else
      match s.swapsIn a with
      | some index => .ok {
          handOff := { s.handOff with
            atomics := s.handOff.atomics.swapNextEvent index, watcher := none }
          submitting := some index }
      | none => do
        let handOff ← s.handOff.step platform a
        return { s with handOff := handOff }
  | .store =>
    match s.submitting with
    | some index => .ok {
        handOff := { s.handOff with
          atomics := s.handOff.atomics.storeWaiting index, server := .queued index }
        submitting := none }
    | none => .error .notNow

/-- The server neither runs the event nor finds it in the slot. -/
def Free (index : Index) : Prop :=
  s.handOff.server.event ≠ some index ∧ s.handOff.atomics.next_event ≠ .event index

/-- The event that the watcher holds is its own, and so is the one it would get next. -/
structure Exclusive : Prop where
  held : ∀ index, s.handOff.watcher = some index → s.Free index
  acquired : s.submitting = none →
    ∃ index, s.handOff.atomics.watcherAcquireEvent = .ok index ∧ s.Free index

/-- A state of the hand-off or, with a submission under way, the one that the swap was made in. -/
inductive Inv : Threads → Prop where
  | whole {h : HandOff} (hinv : h.Inv) : Inv ⟨h, none⟩
  | split {h : HandOff} {index : Index} (hinv : h.Inv) (hheld : h.watcher = some index)
      (hev : (h.atomics.events index).isEmpty = false) (hslot : h.atomics.next_event = .done) :
      Inv ⟨{ h with atomics := h.atomics.swapNextEvent index, watcher := none }, some index⟩

end Threads

namespace HandOff

variable {platform : Platform} {s : HandOff}

/-- An event that is neither current nor pending is nobody's. -/
theorem Inv.free (h : s.Inv) {index : Index} (hc : s.atomics.current_event ≠ some index)
    (hp : s.atomics.pending_event ≠ some index) :
    s.server.event ≠ some index ∧ s.atomics.next_event ≠ .event index := by
  constructor
  · intro hrun
    rcases h.running index hrun with ⟨hcur, -⟩ | ⟨hpn, -⟩
    · exact hc hcur
    · exact hp hpn
  · exact fun hsl => hp (h.slot index hsl)

theorem step_of_idle (hid : s.server = .idle) {a : ThreadStep} (ha : a.ofWatcher = false) :
    s.step platform a = .error .notNow := by
  cases a with
  | watcherAcquireEvent => cases ha
  | appendFile => cases ha
  | appendDir => cases ha
  | watcherReleaseAndSubmitEvent => cases ha
  | run => rw [step, hid]
  | bundled => rw [step, hid]
  | processFileList => rw [step, hid]
  | reset => rw [step, hid]
  | swap => rw [step, hid]
  | cmpxchgWeak => rw [step, hid]

end HandOff

namespace Threads

variable {platform : Platform} {s : Threads}

theorem Inv.exclusive (h : s.Inv) : s.Exclusive := by
  cases h with
  | whole hinv =>
    obtain ⟨index, hfn, hc, hp⟩ := HandOff.exists_available _
    refine ⟨fun i hi => ?_, fun _ => ⟨index, hfn, hinv.free hc hp⟩⟩
    obtain ⟨hc, hp⟩ := hinv.held i hi
    exact hinv.free hc hp
  | split => exact ⟨fun _ hi => (nomatch hi), fun hno => (nomatch hno)⟩

theorem swapsIn_eq_some {a : ThreadStep} {index : Index} (h : s.swapsIn a = some index) :
    s.handOff.watcher = some index ∧ (s.handOff.atomics.events index).isEmpty = false
      ∧ s.handOff.atomics.next_event = .done := by
  cases a with
  | watcherReleaseAndSubmitEvent =>
    obtain ⟨hhl, hbt⟩ := Option.filter_eq_some_iff.1 h
    simpa [hhl] using hbt
  | _ => cases h

/-- A step of either thread, or the store that a swap still owes. -/
theorem step_inv (platform : Platform) (s : Threads) (a : AtomicStep) (h : s.Inv) :
    Ends Inv (· = Fault.notNow) (s.step platform a) := by
  cases h with
  | @whole h hinv =>
    cases a with
    | thread a =>
      rw [step, if_neg (fun hbt => hbt.2 rfl)]
      cases hsw : swapsIn ⟨h, none⟩ a with
      | some index =>
        obtain ⟨hhl, hev, hsl⟩ := swapsIn_eq_some hsw
        exact Inv.split hinv hhl hev hsl
      | none => exact (HandOff.step_inv platform h a hinv).bind fun t ht => Inv.whole ht
    | store => rfl
  | @split h index hinv hhl hev hsl =>
    cases a with
    | thread a =>
      rw [step]
      cases ha : a.ofWatcher with
      | true => rfl
      | false =>
        have hid : h.server = .idle := hinv.done_iff.1 hsl
        have hno : swapsIn ⟨{ h with
            atomics := h.atomics.swapNextEvent index, watcher := none }, some index⟩ a = none := by
          cases a <;> rfl
        rw [if_neg (by simp), hno]
        simp only [@HandOff.step_of_idle platform
          { h with atomics := h.atomics.swapNextEvent index, watcher := none } hid _ ha]
        rfl
    | store =>
      obtain ⟨atomics, scheduled, hrl, hnx⟩ := hinv.release hhl
      rw [WatcherAtomics.watcherReleaseAndSubmitEvent_of_done hev hsl] at hrl
      cases hrl
      exact Inv.whole hnx

/-- However the atomic operations of the two threads interleave, the event that the watcher holds,
or would be given next, is neither run by the server nor waiting in `next_event`. Only a step that
is not its thread's turn ends a run. -/
theorem exclusive_of_run (platform : Platform) (steps : List AtomicStep) :
    Ends Exclusive (· = Fault.notNow) (steps.foldlM (step · platform) init) :=
  (ends_foldlM_of_step (step_inv platform) (Inv.whole HandOff.inv_init) steps).imp
    fun _ hs => hs.exclusive

end Threads

end Cruller.Bake
