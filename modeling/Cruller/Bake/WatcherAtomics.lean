import Cruller.Lib.Throughout

/-!
# The hand-off of file changes to the dev server

The watcher thread fills one of three events with the changes it sees and submits it through one
atomic slot; the dev server's thread runs the event, recycles it and takes the next one from the
slot. The model takes one step of either thread at a time; a step is one access to the slot,
together with what only its thread touches.
-/

namespace Cruller.Bake

abbrev Bytes := List UInt8

/-- A path holds no zero byte. -/
abbrev Path := { bytes : Bytes // 0 ∉ bytes }

/-- How the separators of a path are to be read and written. -/
inductive Platform where
  | loose
  | windows
  | posix
  | nt

namespace Platform

def separator : Platform → UInt8
  | .loose | .posix => 47
  | .nt | .windows => 92

def isSeparator : Platform → UInt8 → Bool
  | .posix, c => c = 47
  | _, c => c = 47 || c = 92

theorem separator_ne_zero (platform : Platform) : platform.separator ≠ 0 := by
  cases platform <;> decide

end Platform

/-- What changed since the last event. -/
structure HotReloadEvent where
  files : List Bytes := []
  dirs : List Bytes := []
  /-- Paths that end with a zero byte each. -/
  extra_files : Bytes := []
deriving DecidableEq

local instance : LawfulBEq Bytes := inferInstance

/-- Hash maps to nothing are lists of their keys. -/
def put (keys : List Bytes) (key : Bytes) : List Bytes :=
  if key ∈ keys then keys else keys ++ [key]

/-- The loop over `rest_extra`; `str` is what it has seen of a string. -/
def extraFiles (str : Bytes) : Bytes → List Bytes
  | [] => if str = [] then [] else [str]
  | c :: rest_extra =>
    if c = 0 then str :: extraFiles [] rest_extra else extraFiles (str ++ [c]) rest_extra

/-- A change of a file or a directory. -/
inductive Change where
  | file (path : Bytes)
  | dir (path : Bytes)
deriving DecidableEq

namespace HotReloadEvent

def reset (_ : HotReloadEvent) : HotReloadEvent where
  files := []
  dirs := []
  extra_files := []

variable (ev : HotReloadEvent)

def isEmpty : Bool := ev.files.length + ev.dirs.length = 0

/-- A file that changed. -/
def appendFile (file_path : Bytes) : HotReloadEvent := { ev with files := put ev.files file_path }

/-- The path of an extra file: the directory without a separator at its end, a separator, and the
path below the directory. -/
def subPath (platform : Platform) (dir_path sub_path : Bytes) : Bytes :=
  (if dir_path.getLast?.any platform.isSeparator then dir_path.dropLast else dir_path)
    ++ [platform.separator] ++ sub_path

/-- A directory that changed, with the file in it if one is named. -/
def appendDir (platform : Platform) (dir_path : Bytes) (maybe_sub_path : Option Bytes) :
    HotReloadEvent :=
  if dir_path = [] then ev
  else
    let ev := { ev with dirs := put ev.dirs dir_path }
    match maybe_sub_path with
    | none => ev
    | some sub_path =>
      if sub_path = [] then ev
      else
        { ev with extra_files := ev.extra_files ++ subPath platform dir_path sub_path ++ [0] }

/-- The files that are invalidated afterwards are those of the event; `resolved` are the sources
whose failed resolutions a changed directory has solved. -/
def processFileList (resolved : List Bytes) : HotReloadEvent :=
  { ev with files := (extraFiles [] ev.extra_files).foldl put (resolved.foldl put ev.files) }

/-- The event has the change. -/
def Lists : Change → Prop
  | .file path => path ∈ ev.files ∨ path ∈ extraFiles [] ev.extra_files
  | .dir path => path ∈ ev.dirs

instance : DecidablePred ev.Lists := fun change => by
  cases change <;> unfold Lists <;> infer_instance

end HotReloadEvent

/-- The changes that a report of the watcher says. -/
def reported (platform : Platform) (dir_path : Bytes) (maybe_sub_path : Option Bytes) :
    List Change :=
  if dir_path = [] then []
  else
    match maybe_sub_path with
    | none => [.dir dir_path]
    | some sub_path =>
      if sub_path = [] then [.dir dir_path]
      else [.dir dir_path, .file (HotReloadEvent.subPath platform dir_path sub_path)]

abbrev Index := Fin 3

/-- The event that waits for the server, or what the server waits for. -/
inductive NextEvent where
  | waiting
  | done
  | event (index : Index)
deriving DecidableEq

def NextEvent.index : NextEvent → Option Index
  | .event index => some index
  | _ => none

/-- Why a step is not taken: its thread is elsewhere, or it stops the process. -/
inductive Fault where
  | notNow
  | assertion
  | «unreachable»
deriving DecidableEq

/-- Three events that the two threads hand each other. -/
structure WatcherAtomics where
  events : Index → HotReloadEvent
  next_event : NextEvent
  current_event : Option Index
  pending_event : Option Index

namespace WatcherAtomics

def init : WatcherAtomics where
  events _ := {}
  next_event := .done
  current_event := none
  pending_event := none

variable (self : WatcherAtomics)

def setEvent (index : Index) (ev : HotReloadEvent) : WatcherAtomics :=
  { self with events := Function.update self.events index ev }

/-- An event that the server does not have and that is not pending. -/
def watcherAcquireEvent : Except Fault Index :=
  match [0, 1, 2].find? fun i =>
    decide (self.current_event ≠ some i) && decide (self.pending_event ≠ some i) with
  | some index => .ok index
  | none => .error .unreachable

/-- Also whether the event is scheduled to be run. Where it is, the server runs no event and does
not see the slot before it runs this one. -/
def watcherReleaseAndSubmitEvent (ev_index : Index) : Except Fault (WatcherAtomics × Bool) :=
  if (self.events ev_index).isEmpty then .ok (self, false)
  else
    let old_next := self.next_event
    let self := { self with next_event := .event ev_index }
    match old_next with
    | .done =>
      .ok ({ self with
        current_event := some ev_index, pending_event := none, next_event := .waiting }, true)
    | .waiting =>
      let current_event :=
        if self.pending_event ≠ none then self.pending_event else self.current_event
      .ok ({ self with current_event := current_event, pending_event := some ev_index }, false)
    | .event old_index =>
      if self.pending_event = some old_index then
        .ok ({ self with pending_event := some ev_index }, false)
      else .error .assertion

end WatcherAtomics

/-- What the server's thread is doing with an event. -/
inductive ServerThread where
  | idle
  /-- The task is in the event loop's queue. -/
  | queued (first : Index)
  /-- A bundle is being built, and the event is kept as its `next_bundle.reload_event`. -/
  | deferred (first : Index)
  /-- At the top of the loop of `run`. -/
  | processing (current : Index)
  | processed (current : Index)
  /-- In `recycleEventFromDevServer`, about to swap the slot. -/
  | recycling
  /-- The slot was `waiting`. -/
  | settling
deriving DecidableEq

/-- The event that the server has. -/
def ServerThread.event : ServerThread → Option Index
  | .queued i | .deferred i | .processing i | .processed i => some i
  | _ => none

/-- The event that the server has still to run. -/
def ServerThread.toRun : ServerThread → Option Index
  | .queued i | .deferred i | .processing i => some i
  | _ => none

/-- Both threads, and the changes that have been appended and not been part of an event that was
run since. -/
structure HandOff where
  atomics : WatcherAtomics
  watcher : Option Index
  server : ServerThread
  unrun : List Change

/-- A step of one of the threads. -/
inductive ThreadStep where
  | watcherAcquireEvent
  | appendFile (file_path : Path)
  | appendDir (dir_path : Path) (maybe_sub_path : Option Path)
  | watcherReleaseAndSubmitEvent
  /-- `run`, up to its loop. -/
  | run (bundling : Bool) (resolved : List Bytes)
  /-- The bundle is built, and the event that was kept is run. -/
  | bundled
  | processFileList (resolved : List Bytes)
  | reset
  | swap
  /-- A weak exchange may fail where it need not. -/
  | cmpxchgWeak (spurious : Bool)
deriving DecidableEq

namespace HandOff

def init : HandOff := ⟨.init, none, .idle, []⟩

/-- The server runs the changes of an event. -/
def runEvent (s : HandOff) (index : Index) (resolved : List Bytes) (server : ServerThread) :
    HandOff :=
  let ev := (s.atomics.events index).processFileList resolved
  { s with
    atomics := s.atomics.setEvent index ev, server := server
    unrun := s.unrun.filter fun change => ¬ ev.Lists change }

/-- The watcher adds to the event that it holds. -/
def append (s : HandOff) (add : HotReloadEvent → HotReloadEvent) (changes : List Change) :
    Except Fault HandOff :=
  match s.watcher with
  | some index => .ok { s with
      atomics := s.atomics.setEvent index (add (s.atomics.events index))
      unrun := changes ++ s.unrun }
  | none => .error .notNow

/-- The state behind a step; an error is a step out of turn, or a panic. -/
def step (platform : Platform) (s : HandOff) : ThreadStep → Except Fault HandOff
  | .watcherAcquireEvent =>
    match s.watcher with
    | some _ => .error .notNow
    | none => do
      let index ← s.atomics.watcherAcquireEvent
      return { s with watcher := some index }
  | .appendFile file_path => s.append (·.appendFile file_path) [.file file_path]
  | .appendDir dir_path maybe_sub_path =>
    s.append (·.appendDir platform dir_path (maybe_sub_path.map Subtype.val))
      (reported platform dir_path (maybe_sub_path.map Subtype.val))
  | .watcherReleaseAndSubmitEvent =>
    match s.watcher with
    | none => .error .notNow
    | some index => do
      let (atomics, scheduled) ← s.atomics.watcherReleaseAndSubmitEvent index
      return { s with
        atomics := atomics, watcher := none
        server := if scheduled then .queued index else s.server }
  | .run bundling resolved =>
    match s.server with
    | .queued first =>
      if bundling then .ok { s with server := .deferred first }
      else .ok (s.runEvent first resolved (.processing first))
    | _ => .error .notNow
  | .bundled =>
    match s.server with
    | .deferred first => .ok { s with server := .processing first }
    | _ => .error .notNow
  | .processFileList resolved =>
    match s.server with
    | .processing current => .ok (s.runEvent current resolved (.processed current))
    | _ => .error .notNow
  | .reset =>
    match s.server with
    | .processed current => .ok { s with
        atomics := s.atomics.setEvent current (s.atomics.events current).reset
        server := .recycling }
    | _ => .error .notNow
  | .swap =>
    match s.server with
    | .recycling =>
      match s.atomics.next_event with
      | .waiting => .ok { s with server := .settling }
      | .done => .error .unreachable
      | .event next => .ok { s with
          atomics := { s.atomics with next_event := .waiting }
          server := .processing next }
    | _ => .error .notNow
  | .cmpxchgWeak spurious =>
    match s.server with
    | .settling =>
      if s.atomics.next_event = .waiting ∧ ¬ spurious then
        .ok { s with atomics := { s.atomics with next_event := .done }, server := .idle }
      else .ok { s with server := .recycling }
    | _ => .error .notNow

/-- The watcher holds no event and the server is not at work. -/
def Idle (s : HandOff) : Prop := s.watcher = none ∧ s.server = .idle

instance : DecidablePred Idle := fun _ => inferInstanceAs (Decidable (_ ∧ _))

end HandOff

end Cruller.Bake
