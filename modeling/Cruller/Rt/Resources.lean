import Cruller.Rt.Host
import Mathlib.Data.UInt

/-!
# Resource handles

The resource slots are a generational arena whose content is a descriptor, and the trace of what
the host did leaves its ledger: an entry for every id ever made, live until the resource is
removed. A replay of the opens and closes in the trace follows the descriptors that are open, and
those are at every point the ones in the slots (`Host.Resources.dispatch`). Everything else that
the host does leaves the slots alone (`Host.Leaves`).
-/

namespace Cruller

open List Option

namespace HostEvent

/-- A removed resource has no descriptor any more. -/
def recordResource (L : Arena.Ledger Fd) : HostEvent → Arena.Ledger Fd
  | added id fd => L.issue (resourceHandle id) fd
  | removed id _ => L.alter (resourceHandle id) fun _ => none
  | _ => L

/-- Opening a descriptor that is open, or closing one that is not, fails the replay. -/
def replayFds (fds : List Fd) : HostEvent → Option (List Fd)
  | opened _ _ _ fd => if fd ∈ fds then none else some (fd :: fds)
  | closed fd => if fd ∈ fds then some (fds.erase fd) else none
  | _ => some fds

/-- The id and the descriptor of an operation on a resource. -/
def access : HostEvent → Option (UInt64 × Fd)
  | read id fd _ => some (id, fd)
  | wrote id fd _ => some (id, fd)
  | removed id fd => some (id, fd)
  | _ => none

/-- Nothing is opened or closed. -/
def neutral : HostEvent → Prop
  | released _ _ | sent _ _ | started _ | scheduled _ _ | finished _ => True
  | _ => False

end HostEvent

/-- What the trace says was opened and closed. -/
def resourceLedger (trace : List HostEvent) : Arena.Ledger Fd :=
  trace.foldl HostEvent.recordResource []

/-- The descriptors open after the trace; `none` when one was closed twice or never opened. -/
def openFds (trace : List HostEvent) : Option (List Fd) :=
  trace.foldlM HostEvent.replayFds []

theorem resourceLedger_concat (trace : List HostEvent) (e : HostEvent) :
    resourceLedger (trace ++ [e]) = e.recordResource (resourceLedger trace) := by
  rw [resourceLedger, foldl_append]
  rfl

theorem openFds_concat {trace : List HostEvent} {fds : List Fd} (h : openFds trace = some fds)
    (e : HostEvent) : openFds (trace ++ [e]) = e.replayFds fds := by
  rw [openFds] at h ⊢
  rw [foldlM_append, h]
  simp

/-- A slot, as a cell of the arena. -/
def ResourceSlot.cell (slot : ResourceSlot) : Arena.Cell Fd :=
  ⟨slot.fd, slot.generation⟩

def ResourceSlot.cells (slots : List ResourceSlot) : List (Arena.Cell Fd) :=
  slots.map ResourceSlot.cell

theorem makeResourceId_handle {index : ℕ} {generation : UInt32} {id : UInt64}
    (h : makeResourceId index generation = some id) : resourceHandle id = ⟨index, generation⟩ := by
  simp only [makeResourceId, bind_eq_bind, bind_eq_some_iff, Option.pure_def,
    some.injEq] at h
  obtain ⟨low, hl, rfl⟩ := h
  obtain ⟨hlow, hmax⟩ := DataPool.intCastU32_eq_some hl
  have hlt := generation.toNat_lt
  have hn : ((generation.toUInt64 <<< 32) ||| low.toUInt64).toNat =
      2 ^ 32 * generation.toNat + index := by
    rw [UInt64.toNat_or, UInt64.toNat_shiftLeft, UInt32.toNat_toUInt64, UInt32.toNat_toUInt64, hlow,
      show (32 : UInt64).toNat % 64 = 32 from rfl, Nat.shiftLeft_eq,
      Nat.mod_eq_of_lt (by omega), Nat.mul_comm]
    unfold maxU32 at hmax
    exact (Nat.two_pow_add_eq_or_of_lt (by omega) _).symm
  unfold maxU32 at hmax
  rw [resourceHandle, hn]
  congr 1
  · omega
  · rw [show (2 ^ 32 * generation.toNat + index) / 2 ^ 32 = generation.toNat by omega]
    exact UInt32.ofNat_toNat

theorem Host.getResource_eq (h : Host) (id : UInt64) :
    h.getResource id = Arena.lookup (ResourceSlot.cells h.resources) (resourceHandle id) := by
  rw [getResource, Arena.lookup, ResourceSlot.cells, getElem?_map]
  rcases h.resources[(resourceHandle id).index]? with _ | slot
  · rfl
  · simp only [map_some, ResourceSlot.cell]
    by_cases hg : slot.generation = (resourceHandle id).generation
    · rw [if_neg (not_not.2 hg), if_pos hg]
    · rw [if_pos hg, if_neg hg]

theorem filterMap_set_perm {α β : Type*} {f : α → Option β} {l : List α} {i : ℕ} {x : α}
    (h : l[i]? = some x) (y : α) :
    ((f x).toList ++ (l.set i y).filterMap f).Perm ((f y).toList ++ l.filterMap f) := by
  induction l generalizing i with
  | nil => simp at h
  | cons a l ih =>
    have hcn : ∀ (z : α) (l : List α), (z :: l).filterMap f = (f z).toList ++ l.filterMap f := by
      intro z l
      rw [filterMap_cons]
      rcases f z with _ | b <;> rfl
    rcases i with _ | i
    · simp only [getElem?_cons_zero, some.injEq] at h
      subst h
      rw [set_cons_zero, hcn, hcn, ← append_assoc, ← append_assoc]
      exact List.perm_append_comm.append_right _
    · rw [getElem?_cons_succ] at h
      rw [set_cons_succ, hcn, hcn, ← append_assoc, ← append_assoc]
      refine (List.perm_append_comm.append_right _).trans ?_
      refine Perm.trans ?_ (List.perm_append_comm.append_right _)
      rw [append_assoc, append_assoc]
      exact (ih h).append_left _

theorem modify_eq_set {α : Type*} {l : List α} {i : ℕ} {x : α} (h : l[i]? = some x) (f : α → α) :
    l.modify i f = l.set i (f x) := by
  refine ext_getElem? fun j => ?_
  rw [getElem?_modify, getElem?_set]
  by_cases hij : i = j
  · subst hij
    have hlt := (List.getElem?_eq_some_iff.1 h).1
    rw [h]
    simp [hlt]
  · simp [hij]

namespace Host

/-- The state of the resources, with the descriptors in `extra` open and in no slot. -/
structure Resources (extra : List Fd) (h : Host) : Prop where
  arena : Arena.Inv (ResourceSlot.cells h.resources) (resourceLedger h.trace)
  fds : ∃ fds, openFds h.trace = some fds ∧ fds.Perm (extra ++ h.resources.filterMap (·.fd))
  access : ∀ t₁ e t₂ id fd, h.trace = t₁ ++ e :: t₂ → e.access = some (id, fd) →
    ⟨resourceHandle id, some fd⟩ ∈ resourceLedger t₁
  made : ∀ t₁ id fd t₂, h.trace = t₁ ++ .added id fd :: t₂ →
    ∃ t₀ path flags mode, t₁ = t₀ ++ [.opened path flags mode fd]

/-- `h'` is `h` after events that have nothing to do with resources. -/
def Leaves (h h' : Host) : Prop :=
  h'.resources = h.resources ∧ ∃ es, h'.trace = h.trace ++ es ∧ ∀ e ∈ es, e.neutral

theorem Leaves.refl (h : Host) : Leaves h h := ⟨rfl, [], by simp, by simp⟩

theorem Leaves.trans {h h' h'' : Host} (h1 : Leaves h h') (h2 : Leaves h' h'') : Leaves h h'' := by
  obtain ⟨hr, es, ht, he⟩ := h1
  obtain ⟨hr', es', ht', he'⟩ := h2
  refine ⟨hr'.trans hr, es ++ es', by rw [ht', ht, append_assoc], fun e hm => ?_⟩
  rcases mem_append.1 hm with hm | hm
  · exact he e hm
  · exact he' e hm

theorem Leaves.record (h : Host) {e : HostEvent} (he : e.neutral) : Leaves h (h.record e) :=
  ⟨rfl, [e], rfl, fun e' hm => by rw [mem_singleton.1 hm]; exact he⟩

section

variable {h h' : Host} {extra : List Fd} {e : HostEvent}

/-- What is recorded keeps the state if it fits the ledger, the descriptors and the accesses. -/
theorem Resources.concat (hR : Resources extra h) {extra' : List Fd}
    {resources : List ResourceSlot}
    (har : Arena.Inv (ResourceSlot.cells resources)
      (e.recordResource (resourceLedger h.trace)))
    (hfds : ∀ fds, openFds h.trace = some fds → fds.Perm (extra ++ h.resources.filterMap (·.fd)) →
      ∃ fds', e.replayFds fds = some fds' ∧ fds'.Perm (extra' ++ resources.filterMap (·.fd)))
    (hac : ∀ id fd, e.access = some (id, fd) →
      ⟨resourceHandle id, some fd⟩ ∈ resourceLedger h.trace)
    (hmd : ∀ id fd, e = .added id fd →
      ∃ t₀ path flags mode, h.trace = t₀ ++ [.opened path flags mode fd])
    (hr : h'.resources = resources) (ht : h'.trace = h.trace ++ [e]) :
    Resources extra' h' := by
  obtain ⟨fds, hop, hpr⟩ := hR.fds
  obtain ⟨fds', hrp, hpr'⟩ := hfds fds hop hpr
  subst hr
  refine ⟨?_, ⟨fds', ?_, hpr'⟩, ?_, ?_⟩
  · rw [ht, resourceLedger_concat]
    exact har
  · rw [ht, openFds_concat hop, hrp]
  · intro t₁ e' t₂ id fd heq hacc
    rw [ht] at heq
    rcases eq_nil_or_concat t₂ with rfl | ⟨t₃, e'', rfl⟩
    · obtain ⟨rfl, hee⟩ := append_inj' heq rfl
      obtain rfl : e = e' := by simpa using hee
      exact hac id fd hacc
    · rw [concat_eq_append, ← cons_append, ← append_assoc] at heq
      exact hR.access t₁ e' t₃ id fd (append_inj' heq rfl).1 hacc
  · intro t₁ id fd t₂ heq
    rw [ht] at heq
    rcases eq_nil_or_concat t₂ with rfl | ⟨t₃, e'', rfl⟩
    · obtain ⟨rfl, hee⟩ := append_inj' heq rfl
      exact hmd id fd (by simpa using hee)
    · rw [concat_eq_append, ← cons_append, ← append_assoc] at heq
      exact hR.made t₁ id fd t₃ (append_inj' heq rfl).1

theorem Resources.neutral (hR : Resources extra h) (he : e.neutral)
    (hr : h'.resources = h.resources) (ht : h'.trace = h.trace ++ [e]) : Resources extra h' := by
  refine hR.concat ?_ (fun fds _ hp => ⟨fds, ?_, hp⟩) ?_ ?_ hr ht
  · cases e <;> first | exact hR.arena | exact absurd he id
  · cases e <;> first | rfl | exact absurd he id
  · intro id fd hacc
    cases e <;> simp_all [HostEvent.access, HostEvent.neutral]
  · rintro id fd rfl
    exact he.elim

theorem Resources.leaves (hR : Resources extra h) (hL : Leaves h h') : Resources extra h' := by
  obtain ⟨hr, es, ht, he⟩ := hL
  induction es using List.reverseRecOn generalizing h' with
  | nil =>
    rw [append_nil] at ht
    exact ⟨by rw [hr, ht]; exact hR.arena, by rw [hr, ht]; exact hR.fds,
      by rw [ht]; exact hR.access, by rw [ht]; exact hR.made⟩
  | append_singleton es e ih =>
    have hmid : Resources extra { h with trace := h.trace ++ es } :=
      ih rfl rfl fun e' hm => he e' (mem_append_left _ hm)
    exact hmid.neutral (he e (by simp)) hr (by rw [ht, append_assoc])

end

theorem leaves_release (h : Host) (ref : BufferRef) : Leaves h (h.release ref) :=
  ⟨rfl, [_], rfl, by simp [HostEvent.neutral]⟩

theorem leaves_releasePayload (h : Host) (command : Command) :
    Leaves h (h.releasePayload command) := by
  unfold releasePayload
  split_ifs
  · exact Leaves.refl h
  · exact leaves_release h _

theorem leaves_send (h : Host) (command : Command) (ok : Bool) : Leaves h (h.send command ok) :=
  ⟨rfl, [_], rfl, by simp [HostEvent.neutral]⟩

theorem leaves_sendCompletion (h : Host) (command : Command) (ok : Bool) :
    Leaves h (h.sendCompletion command ok).1 := by
  unfold sendCompletion
  cases ok with
  | false => exact (leaves_send h command false).trans (leaves_releasePayload _ command)
  | true => exact leaves_send h command true

theorem leaves_completeError (h : Host) (command : Command) (status : ℤ) (payload : BufferRef)
    (ok : Bool) : Leaves h (h.completeError command status payload ok) :=
  leaves_sendCompletion h _ ok

theorem leaves_unsupported (h : Host) (command : Command) (ok : Bool) :
    Leaves h (h.unsupported command ok) :=
  (leaves_releasePayload h command).trans (leaves_completeError _ _ _ _ _)

theorem leaves_createRequest {h h' : Host} {command : Command} {a : Answers}
    (hc : h.createRequest command a = some (.ok h')) : Leaves h h' := by
  obtain ⟨r, -, rfl⟩ := createRequest_eq_ok hc
  exact ⟨rfl, [_], rfl, by simp [HostEvent.neutral]⟩

theorem leaves_httpStart {h h' : Host} {command : Command} {a : Answers}
    (hs : h.httpStart command a = some h') : Leaves h h' := by
  simp only [httpStart, bind_eq_bind, bind_eq_some_iff] at hs
  obtain ⟨r, hr, hs⟩ := hs
  split at hs <;> simp only [Option.pure_def, some.injEq] at hs <;> rw [← hs]
  · exact (leaves_createRequest hr).trans (leaves_releasePayload _ _)
  · exact (leaves_send _ _ _).trans (leaves_releasePayload _ _)

theorem leaves_httpCancel (h : Host) (command : Command) : Leaves h (h.httpCancel command) := by
  unfold httpCancel
  split
  · exact Leaves.refl h
  · exact Leaves.record h (e := .scheduled _ _) trivial

theorem leaves_httpEndBody (h : Host) (command : Command) : Leaves h (h.httpEndBody command) := by
  unfold httpEndBody
  split
  · exact Leaves.refl h
  · exact Leaves.record h (e := .scheduled _ _) trivial

theorem leaves_httpWriteBody (h : Host) (command : Command) (a : Answers) :
    Leaves h (h.httpWriteBody command a) := by
  unfold httpWriteBody
  repeat' split
  · exact leaves_releasePayload h command
  · exact leaves_releasePayload h command
  · exact leaves_releasePayload h command
  · exact leaves_releasePayload h command
  · exact (Leaves.record h (e := .scheduled _ _) trivial).trans (leaves_releasePayload _ command)

section

variable {h h' : Host} {extra : List Fd} {id : UInt64} {fd : Fd}

/-- A new id finds the descriptor that was just opened. -/
theorem Resources.addResource (hR : Resources (fd :: extra) h)
    (hop : ∃ t₀ path flags mode, h.trace = t₀ ++ [.opened path flags mode fd])
    {appendOk : Bool} (ha : h.addResource fd appendOk = some (some (h', id))) :
    Resources extra h' := by
  unfold Host.addResource at ha
  split at ha
  · rename_i slot index hfn
    have hsl := mem_zipIdx_iff_getElem?.1 (mem_of_find?_eq_some hfn)
    have hno : slot.fd = none := by simpa using find?_some hfn
    simp only at hsl
    simp only [bind_eq_bind, bind_eq_some_iff, Option.pure_def, some.injEq,
      Prod.mk.injEq] at ha
    obtain ⟨id', hid, rfl, rfl⟩ := ha
    have hcl : (ResourceSlot.cells h.resources)[index]? = some ⟨none, slot.generation⟩ := by
      simp [ResourceSlot.cells, hsl, ResourceSlot.cell, hno]
    refine hR.concat (e := .added id' fd) ?_ (fun fds _ hp => ⟨fds, rfl, hp.trans ?_⟩) ?_ ?_ rfl rfl
    · simp only [HostEvent.recordResource, record_resources]
      rw [makeResourceId_handle hid, ResourceSlot.cells, map_set]
      exact hR.arena.fill hcl
    · have hset := filterMap_set_perm (f := (·.fd)) hsl { slot with fd := some fd }
      simp only [hno, toList_none, nil_append, toList_some,
        singleton_append] at hset
      exact (List.perm_middle.symm).trans (hset.symm.append_left extra)
    · intro _ _ hacc
      simp [HostEvent.access] at hacc
    · intro _ _ heq
      obtain ⟨rfl, rfl⟩ := HostEvent.added.inj heq
      exact hop
  · split_ifs at ha with happ
    · simp only [bind_eq_bind, bind_eq_some_iff, Option.pure_def, some.injEq,
        Prod.mk.injEq] at ha
      obtain ⟨id', hid, rfl, rfl⟩ := ha
      refine hR.concat (e := .added id' fd) ?_ (fun fds _ hp => ⟨fds, rfl, hp.trans ?_⟩) ?_ ?_
        rfl rfl
      · simp only [HostEvent.recordResource, record_resources]
        rw [makeResourceId_handle hid, ResourceSlot.cells, map_append]
        have := hR.arena.push (v := fd)
        rw [ResourceSlot.cells, length_map] at this
        exact this
      · rw [record_resources, filterMap_append, ← append_assoc]
        exact (perm_append_singleton fd _).symm
      · intro _ _ hacc
        simp [HostEvent.access] at hacc
      · intro _ _ heq
        obtain ⟨rfl, rfl⟩ := HostEvent.added.inj heq
        exact hop
    · simp at ha

theorem Resources.close (hR : Resources (fd :: extra) h) :
    Resources extra (h.record (.closed fd)) := by
  refine hR.concat (e := .closed fd) hR.arena (fun fds _ hp => ?_) ?_ ?_ rfl rfl
  · have hm : fd ∈ fds := hp.mem_iff.2 (by simp)
    refine ⟨fds.erase fd, if_pos hm, ?_⟩
    have := hp.erase fd
    rwa [cons_append, erase_cons_head] at this
  · intro _ _ hacc
    simp [HostEvent.access] at hacc
  · intro _ _ heq
    simp at heq

/-- Removing a resource closes its descriptor, if its id is one that lives. -/
theorem Resources.removeResource (hR : Resources extra h) (id : UInt64) :
    Resources extra (h.removeResource id).1 := by
  unfold Host.removeResource
  split
  · exact hR
  rename_i fd hget
  rw [getResource_eq] at hget
  have hcl := Arena.lookup_eq_some.1 hget
  rw [ResourceSlot.cells, getElem?_map, map_eq_some_iff] at hcl
  obtain ⟨slot, hsl, hcl⟩ := hcl
  have hfd : slot.fd = some fd := congrArg Arena.Cell.content hcl
  have hrm : Resources (fd :: extra) ({ h with
      resources := h.resources.modify (resourceHandle id).index fun slot =>
        { fd := none, generation := Arena.bump slot.generation } }.record (.removed id fd)) := by
    refine hR.concat (e := .removed id fd) ?_ (fun fds _ hp => ⟨fds, rfl, hp.trans ?_⟩) ?_ ?_
      rfl rfl
    · simp only [HostEvent.recordResource, record_resources]
      have hmod : ResourceSlot.cells (h.resources.modify (resourceHandle id).index fun slot =>
          { fd := none, generation := Arena.bump slot.generation }) =
          (ResourceSlot.cells h.resources).modify (resourceHandle id).index
            (Arena.Cell.alter fun _ => none) := by
        refine Arena.map_modify fun x hx => ?_
        obtain rfl : slot = x := by rw [hsl] at hx; exact some.inj hx
        simp [ResourceSlot.cell, Arena.Cell.alter, hfd]
      rw [hmod]
      exact hR.arena.alter hget _
    · rw [modify_eq_set hsl]
      have hset := filterMap_set_perm (f := (·.fd)) hsl
        { fd := none, generation := Arena.bump slot.generation }
      simp only [hfd, toList_none, nil_append, toList_some,
        singleton_append] at hset
      exact (hset.symm.append_left extra).trans perm_middle
    · intro id' fd' hacc
      obtain ⟨rfl, rfl⟩ : id = id' ∧ fd = fd' := by simpa [HostEvent.access] using hacc
      exact hR.arena.held _ _ hget
    · intro _ _ heq
      simp at heq
  exact hrm.close

end

/-- `open` returns a descriptor that is not open. -/
def freshFd (h : Host) (a : Answers) : Bool :=
  match openFds h.trace, a.opened with
  | some fds, .ok fd => fd ∉ fds
  | _, _ => true

section

variable {h h' : Host} {command : Command} {a : Answers}

theorem Resources.operate (hR : Resources [] h) {e : HostEvent} {id : UInt64} {fd : Fd}
    (hget : h.getResource id = some fd) (he : e.access = some (id, fd))
    (hL : ∀ L, e.recordResource L = L) (hF : ∀ fds, e.replayFds fds = some fds)
    (hA : ∀ id fd, e ≠ .added id fd) : Resources [] (h.record e) := by
  rw [getResource_eq] at hget
  refine hR.concat (by rw [hL]; exact hR.arena) (fun fds _ hp => ⟨fds, hF fds, hp⟩) ?_
    (fun id' fd' heq => absurd heq (hA id' fd')) rfl rfl
  intro id' fd' hacc
  rw [he, some.injEq, Prod.mk.injEq] at hacc
  rw [← hacc.1, ← hacc.2]
  exact hR.arena.held _ _ hget

theorem Resources.open (hR : Resources [] h) {fds : List Fd} (hop : openFds h.trace = some fds)
    {fd : Fd} (hfd : fd ∉ fds) (path : List UInt8) (flags mode : ℕ) :
    Resources [fd] (h.record (.opened path flags mode fd)) := by
  refine hR.concat (e := .opened path flags mode fd) hR.arena (fun fds' hop' hp => ?_) ?_ ?_
    rfl rfl
  · obtain rfl : fds = fds' := some.inj (hop.symm.trans hop')
    exact ⟨fd :: fds, if_neg hfd, hp.cons fd⟩
  · intro _ _ hacc
    simp [HostEvent.access] at hacc
  · intro _ _ heq
    simp at heq

theorem Resources.openPath (hR : Resources [] h) (hfr : h.freshFd a) {path : List UInt8}
    (ho : h.openPath command path a = some h') : Resources [] h' := by
  unfold Host.openPath at ho
  split at ho
  · rw [← some.inj ho]
    exact hR.leaves (leaves_completeError _ _ _ _ _)
  split at ho
  · rw [← some.inj ho]
    exact hR.leaves (leaves_completeError _ _ _ _ _)
  split at ho
  · rw [← some.inj ho]
    exact hR.leaves (leaves_completeError _ _ _ _ _)
  rename_i fd hfd
  obtain ⟨fds, hop, -⟩ := hR.fds
  have hnew : fd ∉ fds := by simpa [freshFd, hop, hfd] using hfr
  have hR' := hR.open hop hnew path (toSystemOpenFlags (.decode command.arg1))
    (command.arg1.toNat / 2 ^ 32)
  simp only at ho
  split at ho
  · simp at ho
  · rw [← some.inj ho]
    exact hR'.close.leaves (leaves_completeError _ _ _ _ _)
  rename_i h₁ id hadd
  have hR₁ := hR'.addResource ⟨h.trace, _, _, _, rfl⟩ hadd
  have hR₂ := hR₁.leaves (leaves_sendCompletion h₁ { completionFor command with resourceId := id }
    a.sendOk)
  split_ifs at ho
  · rw [← some.inj ho]
    exact hR₂
  · rw [← some.inj ho]
    exact hR₂.removeResource id

theorem Resources.openFile (hR : Resources [] h) (hfr : h.freshFd a)
    (ho : h.openFile command a = some h') : Resources [] h' := by
  unfold Host.openFile at ho
  split at ho
  · rw [← some.inj ho]
    exact hR.leaves (leaves_unsupported _ _ _)
  split at ho
  · rw [← some.inj ho]
    exact hR.leaves (leaves_completeError _ _ _ _ _)
  · obtain ⟨h₁, hpt, rfl⟩ := map_eq_some_iff.1 ho
    exact (hR.openPath hfr hpt).leaves (leaves_release _ _)

theorem Resources.closeResource (hR : Resources [] h) (command : Command) (a : Answers) :
    Resources [] (h.closeResource command a) := by
  have hR' := (hR.leaves (leaves_releasePayload h command)).removeResource command.resourceId
  unfold Host.closeResource
  simp only
  split
  · exact hR'.leaves (leaves_sendCompletion _ _ _)
  · exact hR'.leaves (leaves_completeError _ _ _ _ _)

theorem Resources.readResource (hR : Resources [] h)
    (hr : h.readResource command a = some h') : Resources [] h' := by
  unfold Host.readResource at hr
  split at hr
  · rw [← some.inj hr]
    exact hR.leaves (leaves_completeError _ _ _ _ _)
  rename_i fd hget
  split at hr
  · rw [← some.inj hr]
    exact hR.leaves (leaves_completeError _ _ _ _ _)
  have hR' := hR.operate hget (e := .read command.resourceId fd (position command)) rfl
    (fun _ => rfl) (fun _ => rfl) (fun _ _ => by simp)
  simp only at hr
  split at hr
  · rw [← some.inj hr]
    exact hR'.leaves (leaves_completeError _ _ _ _ _)
  · simp only [bind_eq_bind, bind_eq_some_iff, Option.pure_def,
      some.injEq] at hr
    obtain ⟨length, -, rfl⟩ := hr
    exact hR'.leaves (leaves_sendCompletion _ _ _)

theorem Resources.writeResource (hR : Resources [] h) (command : Command) (a : Answers) :
    Resources [] (h.writeResource command a) := by
  unfold Host.writeResource
  split
  · exact (hR.leaves (leaves_completeError _ _ _ _ _)).leaves (leaves_releasePayload _ _)
  rename_i fd hget
  split
  · exact (hR.leaves (leaves_completeError _ _ _ _ _)).leaves (leaves_releasePayload _ _)
  have hR' := hR.operate hget (e := .wrote command.resourceId fd (position command)) rfl
    (fun _ => rfl) (fun _ => rfl) (fun _ _ => by simp)
  simp only
  split
  · exact (hR'.leaves (leaves_completeError _ _ _ _ _)).leaves (leaves_releasePayload _ _)
  · exact (hR'.leaves (leaves_sendCompletion _ _ _)).leaves (leaves_releasePayload _ _)

/-- Every command keeps the slots, the ledger and the open descriptors together. -/
theorem Resources.dispatch (hR : Resources [] h) (hfr : h.freshFd a)
    (hd : h.dispatch command a = some h') : Resources [] h' := by
  unfold Host.dispatch at hd
  split at hd
  · split at hd
    · exact hR.openFile hfr hd
    · rw [← some.inj hd]
      exact hR.closeResource command a
    · exact hR.readResource hd
    · rw [← some.inj hd]
      exact hR.writeResource command a
    · exact hR.leaves (leaves_httpStart hd)
    · rw [← some.inj hd]
      exact hR.leaves (leaves_httpWriteBody h command a)
    · rw [← some.inj hd]
      exact hR.leaves (leaves_httpEndBody h command)
    · rw [← some.inj hd]
      exact hR.leaves (leaves_unsupported _ _ _)
  · split at hd
    · rw [← some.inj hd]
      exact hR.leaves (leaves_httpCancel h command)
    · rw [← some.inj hd]
      exact hR.leaves (leaves_unsupported _ _ _)
  · rw [← some.inj hd]
    exact hR.leaves ⟨rfl, [], by simp, by simp⟩
  · rw [← some.inj hd]
    exact hR.leaves (leaves_releasePayload h command)
  · rw [← some.inj hd]
    exact hR.leaves (leaves_releasePayload h command)
  · rw [← some.inj hd]
    exact hR.leaves (leaves_releasePayload h command)

theorem Resources.deinit (hR : Resources [] h) : openFds h.deinit.trace = some [] := by
  obtain ⟨fds, hop, hpr⟩ := hR.fds
  rw [nil_append] at hpr
  have hcl : ∀ (closing : List Fd) (trace : List HostEvent) (fds : List Fd),
      openFds trace = some fds → fds.Perm closing →
        openFds (trace ++ closing.map .closed) = some [] := by
    intro closing
    induction closing with
    | nil =>
      intro trace fds hop hp
      rw [map_nil, append_nil, hop, hp.eq_nil]
    | cons fd closing ih =>
      intro trace fds hop hp
      have hm : fd ∈ fds := hp.mem_iff.2 mem_cons_self
      have hst : openFds (trace ++ [.closed fd]) = some (fds.erase fd) := by
        rw [openFds_concat hop]
        exact if_pos hm
      have hp' := hp.erase fd
      rw [erase_cons_head] at hp'
      have := ih _ _ hst hp'
      rwa [append_assoc] at this
  exact hcl _ _ fds hop hpr

end

/-- A command of any kind, with what the other parties made of the pool before it. -/
structure Input where
  pool : DataPool := {}
  command : Command
  answers : Answers := {}

def step (h : Host) (i : Input) : Option (Host × Unit) :=
  if h.freshFd i.answers then
    ({ h with pool := i.pool }.dispatch i.command i.answers).map fun h => (h, ())
  else none

/-- Every step keeps the state of the resources. -/
theorem Resources.run {is : List Input} {h h' : Host} {us : List Unit} (hR : Resources [] h)
    (hr : run step h is = some (h', us)) : Resources [] h' := by
  refine run_inv (P := Resources []) (fun {s s' i e} hR hs => ?_) hR hr
  unfold step at hs
  split_ifs at hs with hfr
  obtain ⟨h₁, hd, heq⟩ := map_eq_some_iff.1 hs
  have hpl : Leaves s { s with pool := i.pool } := ⟨rfl, [], by simp, by simp⟩
  rw [← (Prod.mk.inj heq).1]
  exact (hR.leaves hpl).dispatch hfr hd

end Host

theorem recordResource_retired {L : Arena.Ledger Fd} {k : ℕ} {hd : Arena.Handle}
    (hk : L[k]? = some ⟨hd, none⟩) (e : HostEvent) :
    (e.recordResource L)[k]? = some ⟨hd, none⟩ := by
  cases e with
  | added id fd =>
    simp only [HostEvent.recordResource, Arena.Ledger.issue]
    rw [getElem?_append_left (List.getElem?_eq_some_iff.1 hk).1, hk]
  | removed id fd =>
    simp only [HostEvent.recordResource, Arena.Ledger.alter, getElem?_map, hk]
    simp
  | _ => exact hk

theorem foldl_recordResource_retired {L : Arena.Ledger Fd} {k : ℕ} {hd : Arena.Handle}
    (hk : L[k]? = some ⟨hd, none⟩) (es : List HostEvent) :
    (es.foldl HostEvent.recordResource L)[k]? = some ⟨hd, none⟩ := by
  induction es generalizing L with
  | nil => exact hk
  | cons e es ih => exact ih (recordResource_retired hk e)

theorem Host.Resources.retired {h : Host} (hR : Host.Resources [] h) {id : UInt64} {fd : Fd}
    (hm : .removed id fd ∈ h.trace) : ⟨resourceHandle id, none⟩ ∈ resourceLedger h.trace := by
  obtain ⟨t₁, t₂, ht⟩ := mem_iff_append.1 hm
  obtain ⟨k, hk⟩ := mem_iff_getElem?.1 (hR.access t₁ _ t₂ id fd ht rfl)
  have hout : (HostEvent.recordResource (resourceLedger t₁) (.removed id fd))[k]? =
      some ⟨resourceHandle id, none⟩ := by
    simp only [HostEvent.recordResource, Arena.Ledger.alter, getElem?_map, hk]
    simp
  rw [ht, resourceLedger, foldl_append, foldl_cons]
  exact mem_of_getElem? (foldl_recordResource_retired hout t₂)

end Cruller
