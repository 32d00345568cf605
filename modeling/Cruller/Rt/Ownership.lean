import Cruller.Rt.Engine
import Cruller.Rt.PoolLedger
import Mathlib.Data.UInt

/-!
# Who owns a buffer

A non-empty payload transfers one reference with its message, so at every point the owners a slot
counts are the messages in flight that carry its reference and the entries for it in `held`. While
a command is dispatched its own reference is the dispatcher's: `Host.Balanced own` counts those in
`own` besides the messages, and each function is proved to turn one such list into another.

Some branches keep to this only under a condition on the command and the answers
(`Host.Settles`, `Host.SettlesRequest`).
-/

namespace Cruller

open List Option

/-! ## Owners of a slot -/

namespace DataPool

/-- How many own what the handle stands for. -/
def owners (pool : DataPool) (k : Arena.Handle) : ℕ :=
  (Arena.lookup (Slot.cells pool.slots) k).elim 0 Holding.owners

section

variable {pool pool' : DataPool} {L : Arena.Ledger Holding} {ref : BufferRef}

theorem Rep.find_of_owners (h : Rep pool L) (hp : ref.poolId = poolId)
    (ho : 0 < pool.owners ref.handle) :
    ∃ v, pool.find ref = some v ∧ 0 < v.owners ∧ pool.owners ref.handle = v.owners := by
  unfold owners at ho ⊢
  rcases hl : Arena.lookup (Slot.cells pool.slots) ref.handle with _ | v
  · rw [hl] at ho
    exact absurd ho (lt_irrefl 0)
  · exact ⟨v, by rw [find, if_pos hp, hl], h.owned _ (h.arena.held _ _ hl) v rfl, rfl⟩

theorem owners_retain {v : Holding} (hf : pool.find ref = some v) (hok : (pool.retain ref).2 = true)
    (k : Arena.Handle) :
    (pool.retain ref).1.owners k = pool.owners k + [ref.handle].count k := by
  have hret := retain_of_find hf
  split_ifs at hret with hmax
  · rw [hret] at hok
    simp at hok
  have hl : Arena.lookup (Slot.cells pool.slots) ref.handle = some v := by
    rw [find] at hf
    split_ifs at hf
    exact hf
  unfold owners
  rw [hret.2.2, Arena.lookup_modify hl]
  by_cases hk : k = ref.handle
  · rw [if_pos hk, hk, hl]
    simp [Holding.retain]
  · rw [if_neg hk, count_eq_zero.2 (by simpa using hk), Nat.add_zero]

theorem owners_release {v : Holding} (hf : pool.find ref = some v) (hv : 0 < v.owners)
    (k : Arena.Handle) :
    (pool.release ref).owners k + [ref.handle].count k = pool.owners k := by
  have hl : Arena.lookup (Slot.cells pool.slots) ref.handle = some v := by
    rw [find] at hf
    split_ifs at hf
    exact hf
  unfold owners
  rw [(release_of_find hf hv).1, Arena.lookup_modify hl]
  by_cases hk : k = ref.handle
  · rw [if_pos hk, hk, hl, count_singleton_self, Holding.release]
    by_cases h1 : v.owners = 1
    · simp [h1]
    · rw [if_neg h1]
      simp only [elim_some]
      omega
  · rw [if_neg hk, count_eq_zero.2 (by simpa using hk), Nat.add_zero]

theorem Placed.owners {b : Block} (hp : Placed pool pool' b ref) (k : Arena.Handle) :
    pool'.owners k = pool.owners k + [ref.handle].count k := by
  unfold DataPool.owners
  rcases hp.slots with ⟨i, slot, hi, hn, hh, hs⟩ | ⟨-, hh, hs⟩
  · have hc : (Slot.cells pool.slots)[i]? = some ⟨none, slot.generation⟩ := by
      rw [Slot.cells_getElem?, hi]
      simp [Slot.cell, hn]
    have hcl : Slot.cells pool'.slots =
        (Slot.cells pool.slots).set i ⟨some ⟨b, 1⟩, slot.generation⟩ := by
      rw [hs, Slot.cells, map_set]
      rfl
    rw [hcl, Arena.lookup_fill hc, hh]
    by_cases hk : k = ⟨i, slot.generation⟩
    · have hold : Arena.lookup (Slot.cells pool.slots) k = none := by
        rw [hk, Arena.lookup, hc]
        simp
      rw [if_pos hk, hold, hk]
      simp
    · rw [if_neg hk, count_eq_zero.2 (by simpa using hk), Nat.add_zero]
  · have hcl : Slot.cells pool'.slots = Slot.cells pool.slots ++ [⟨some ⟨b, 1⟩, 1⟩] := by
      rw [hs, Slot.cells, map_append]
      rfl
    rw [hcl, Arena.lookup_push, hh, Slot.cells_length]
    by_cases hk : k = ⟨pool.slots.length, 1⟩
    · have hold : Arena.lookup (Slot.cells pool.slots) k = none := by
        rw [hk, Arena.lookup, getElem?_eq_none (by rw [Slot.cells_length])]
      rw [if_pos hk, hold, hk]
      simp
    · rw [if_neg hk, count_eq_zero.2 (by simpa using hk), Nat.add_zero]

end

end DataPool

/-! ## Balance -/

theorem BufferRef.owned_eq_nil {ref : BufferRef} (h : ref.isEmpty = true ∨ ref.poolId ≠ 1) :
    ref.owned = [] := if_pos h

theorem BufferRef.owned_eq {ref : BufferRef} (h : ¬ (ref.isEmpty = true ∨ ref.poolId ≠ 1)) :
    ref.owned = [ref.handle] := if_neg h

@[simp]
theorem BufferRef.owned_default : ({} : BufferRef).owned = [] := rfl

namespace Host

/-- The owners each slot counts are the messages in flight and the entries of `own`, and every
release so far was of a reference that the pool knew. -/
structure Balanced (own : List Arena.Handle) (h : Host) : Prop where
  rep : ∃ L, DataPool.Rep h.pool L
  toHost : h.toHost.Inv
  toEngine : h.toEngine.Inv
  count : ∀ k, h.pool.owners k = (h.inFlight ++ own).count k
  known : ∀ ref known, .released ref known ∈ h.trace → ref.poolId = DataPool.poolId → known = true

section

variable {h h' : Host} {own own' : List Arena.Handle} {command : Command} {ref : BufferRef}

theorem Balanced.congr (hB : Balanced own h) (hp : h'.pool = h.pool) (hh : h'.toHost = h.toHost)
    (he : h'.toEngine = h.toEngine) (ht : ∀ ref known, .released ref known ∈ h'.trace →
      .released ref known ∈ h.trace) : Balanced own h' where
  rep := by rw [hp]; exact hB.rep
  toHost := by rw [hh]; exact hB.toHost
  toEngine := by rw [he]; exact hB.toEngine
  count := by rw [hp, inFlight, hh, he]; exact hB.count
  known ref known hm := hB.known ref known (ht ref known hm)

theorem Balanced.perm (hB : Balanced own h) (hp : own.Perm own') : Balanced own' h where
  rep := hB.rep
  toHost := hB.toHost
  toEngine := hB.toEngine
  count k := by
    rw [hB.count k]
    exact (hp.append_left h.inFlight).count_eq k
  known := hB.known

theorem Balanced.record (hB : Balanced own h) {e : HostEvent}
    (he : ∀ ref known, e ≠ .released ref known) : Balanced own (h.record e) := by
  refine hB.congr rfl rfl rfl fun ref known hm => ?_
  rw [record_trace] at hm
  rcases mem_append.1 hm with hm | hm
  · exact hm
  · exact absurd (mem_singleton.1 hm).symm (he ref known)

theorem Balanced.release (hB : Balanced (ref.handle :: own) h) (hp : ref.poolId = 1) :
    Balanced own (h.release ref) := by
  obtain ⟨L, hrep⟩ := hB.rep
  have hpos : 0 < h.pool.owners ref.handle := by
    rw [hB.count]
    simp
  obtain ⟨v, hf, hv, -⟩ := hrep.find_of_owners hp hpos
  have hsm : (h.pool.getSlot ref).isSome := by
    rcases hg : h.pool.getSlot ref with _ | slot
    · rw [DataPool.getSlot_none.1 hg] at hf
      simp at hf
    · rfl
  refine ⟨⟨_, hrep.release ref⟩, hB.toHost, hB.toEngine, fun k => ?_, fun ref' known hm hp' => ?_⟩
  · have hrel := DataPool.owners_release hf hv k
    have hold := hB.count k
    rw [count_append, ← singleton_append, count_append] at hold
    change (h.pool.release ref).owners k = (h.inFlight ++ own).count k
    rw [count_append]
    omega
  · rcases mem_append.1 hm with hm | hm
    · exact hB.known ref' known hm hp'
    · rw [HostEvent.released.inj (mem_singleton.1 hm) |>.2]
      exact hsm

theorem Balanced.release_foreign (hB : Balanced own h) (hp : ref.poolId ≠ 1) :
    Balanced own (h.release ref) := by
  have hf : h.pool.find ref = none := if_neg hp
  have hpl : h.pool.release ref = h.pool := DataPool.release_of_find_none hf
  refine ⟨?_, hB.toHost, hB.toEngine, fun k => ?_, fun ref' known hm hp' => ?_⟩
  · obtain ⟨L, hrep⟩ := hB.rep
    exact ⟨L, by rw [show (h.release ref).pool = h.pool from hpl]; exact hrep⟩
  · rw [show (h.release ref).pool = h.pool from hpl]
    exact hB.count k
  · rcases mem_append.1 hm with hm | hm
    · exact hB.known ref' known hm hp'
    · obtain ⟨rfl, -⟩ := HostEvent.released.inj (mem_singleton.1 hm)
      exact absurd hp' hp

theorem Balanced.releasePayload (hB : Balanced (command.payload.owned ++ own) h) :
    Balanced own (h.releasePayload command) := by
  unfold Host.releasePayload
  by_cases he : command.payload.isEmpty = true
  · rw [BufferRef.owned_eq_nil (Or.inl he)] at hB
    rw [if_pos he]
    exact hB
  rw [if_neg he]
  by_cases hp : command.payload.poolId = 1
  · rw [BufferRef.owned_eq (by simp [he, hp])] at hB
    exact hB.release hp
  · rw [BufferRef.owned_eq_nil (Or.inr hp)] at hB
    exact hB.release_foreign hp

theorem inFlight_send (h : Host) (hi : h.toEngine.Inv) (command : Command) (ok : Bool)
    (k : Arena.Handle) :
    (h.send command ok).inFlight.count k =
      h.inFlight.count k + (if ok then command.payload.owned else []).count k := by
  have hp := (CommandChannel.send_pending hi command ok).1
  change ((h.toHost.pending ++ (h.toEngine.send command ok).1.pending).flatMap _).count k = _
  rw [hp, inFlight]
  cases ok <;> simp [List.flatMap_append, Nat.add_assoc]

theorem inFlight_sendToHost (h : Host) (hi : h.toHost.Inv) (command : Command) (ok : Bool)
    (k : Arena.Handle) :
    (h.sendToHost command ok).inFlight.count k =
      h.inFlight.count k + (if ok then command.payload.owned else []).count k := by
  have hp := (CommandChannel.send_pending hi command ok).1
  change (((h.toHost.send command ok).1.pending ++ h.toEngine.pending).flatMap _).count k = _
  rw [hp, inFlight]
  cases ok <;> simp [List.flatMap_append]
  omega

theorem Balanced.send (ok : Bool)
    (hB : Balanced ((if ok then command.payload.owned else []) ++ own) h) :
    Balanced own (h.send command ok) := by
  refine ⟨hB.rep, hB.toHost, hB.toEngine.send command ok, fun k => ?_, fun ref known hm => ?_⟩
  · have hold := hB.count k
    rw [count_append, inFlight_send h hB.toEngine command ok k]
    rw [count_append, count_append] at hold
    change h.pool.owners k = _
    omega
  · rcases mem_append.1 hm with hm | hm
    · exact hB.known ref known hm
    · simp at hm

theorem Balanced.sendToHost (ok : Bool)
    (hB : Balanced ((if ok then command.payload.owned else []) ++ own) h) :
    Balanced own (h.sendToHost command ok) := by
  refine ⟨hB.rep, hB.toHost.send command ok, hB.toEngine, fun k => ?_, hB.known⟩
  have hold := hB.count k
  rw [count_append, inFlight_sendToHost h hB.toHost command ok k]
  rw [count_append, count_append] at hold
  change h.pool.owners k = _
  omega

theorem Balanced.sendCompletion (ok : Bool) (hB : Balanced (command.payload.owned ++ own) h) :
    Balanced own (h.sendCompletion command ok).1 := by
  unfold Host.sendCompletion
  cases ok with
  | false => exact (Balanced.send false hB).releasePayload
  | true => exact Balanced.send true hB

variable {ok : Bool}

theorem Balanced.completeError {status : ℤ} (hB : Balanced (ref.owned ++ own) h) :
    Balanced own (h.completeError command status ref ok) :=
  Balanced.sendCompletion ok hB

theorem Balanced.completeBare (hB : Balanced own h) {status : ℤ} :
    Balanced own (h.completeError command status {} ok) :=
  Balanced.sendCompletion ok hB

theorem Balanced.unsupported (hB : Balanced (command.payload.owned ++ own) h) :
    Balanced own (h.unsupported command ok) :=
  hB.releasePayload.completeBare

theorem Balanced.allocate (hB : Balanced own h) {len : ℕ} {addr : Option ℕ} {appendOk : Bool}
    {r : Option BufferRef} (ha : h.allocate len addr appendOk = some (h', r)) :
    Balanced ((r.map BufferRef.handle).toList ++ own) h'
      ∧ ∀ ref ∈ r, ref.poolId = 1 ∧ ref.length.toNat = len ∧ (h'.pool.map ref).isSome := by
  unfold Host.allocate at ha
  split_ifs at ha with hfit
  simp only [bind_eq_bind, bind_eq_some_iff, Option.pure_def, some.injEq,
    Prod.mk.injEq, Prod.exists] at ha
  obtain ⟨pool, ref, hal, rfl, rfl⟩ := ha
  obtain ⟨L, hrep⟩ := hB.rep
  have hrep' := hrep.allocate hfit hal
  rcases DataPool.allocate_cases hal with ⟨rfl, rfl⟩ | ⟨x, ref', rfl, rfl, hp⟩
  · exact ⟨hB, by simp⟩
  refine ⟨⟨⟨_, hrep'⟩, hB.toHost, hB.toEngine, fun k => ?_, hB.known⟩, ?_⟩
  · have hold := hB.count k
    rw [count_append] at hold
    change pool.owners k = (h.inFlight ++ ([ref'.handle] ++ own)).count k
    rw [hp.owners, count_append, count_append]
    omega
  · intro ref hr
    obtain rfl : ref' = ref := by simpa using hr
    refine ⟨hp.poolId, hp.length, ?_⟩
    have hfn : pool.find ref' = some ⟨⟨x, len⟩, 1⟩ := by
      rw [hrep'.find_iff hp.poolId]
      exact mem_append_right _ (mem_singleton.2 rfl)
    change (pool.map ref').isSome
    rw [DataPool.map_eq, hfn, bind_some, hp.offset, hp.length]
    simp

theorem Balanced.retain (hB : Balanced own h) (hp : ref.poolId = 1)
    (hown : 0 < own.count ref.handle) :
    Balanced (if (h.pool.retain ref).2 then ref.handle :: own else own)
      { h with pool := (h.pool.retain ref).1 } := by
  obtain ⟨L, hrep⟩ := hB.rep
  obtain ⟨v, hf, -, -⟩ := hrep.find_of_owners hp (by
    rw [hB.count, count_append]
    omega)
  refine ⟨⟨_, hrep.retain ref⟩, hB.toHost, hB.toEngine, fun k => ?_, hB.known⟩
  have hold := hB.count k
  rw [count_append] at hold
  by_cases hok : (h.pool.retain ref).2 = true
  · rw [if_pos hok, ← singleton_append, count_append, count_append]
    change (h.pool.retain ref).1.owners k = h.inFlight.count k + _
    rw [DataPool.owners_retain hf hok]
    omega
  · have hret := DataPool.retain_of_find hf
    split_ifs at hret
    · rw [if_neg hok, hret]
      exact hB.count k
    · exact absurd hret.1 hok

end

/-! ## Resource commands -/

section

variable {h h' : Host} {own : List Arena.Handle} {command : Command} {a : Answers}

theorem Balanced.addResource (hB : Balanced own h) {fd : Fd} {appendOk : Bool} {id : UInt64}
    (ha : h.addResource fd appendOk = some (some (h', id))) : Balanced own h' := by
  unfold Host.addResource at ha
  split at ha
  · simp only [bind_eq_bind, bind_eq_some_iff, Option.pure_def, some.injEq,
      Prod.mk.injEq] at ha
    obtain ⟨id', -, rfl, -⟩ := ha
    exact hB.congr rfl rfl rfl (by simp)
  · split_ifs at ha
    · simp only [bind_eq_bind, bind_eq_some_iff, Option.pure_def, some.injEq,
        Prod.mk.injEq] at ha
      obtain ⟨id', -, rfl, -⟩ := ha
      exact hB.congr rfl rfl rfl (by simp)
    · simp at ha

theorem Balanced.removeResource (hB : Balanced own h) (id : UInt64) :
    Balanced own (h.removeResource id).1 := by
  unfold Host.removeResource
  split
  · exact hB
  · exact hB.congr rfl rfl rfl (by simp)

theorem Balanced.openPath (hB : Balanced own h) {path : List UInt8}
    (ho : h.openPath command path a = some h') : Balanced own h' := by
  unfold Host.openPath at ho
  split at ho
  · rw [← some.inj ho]
    exact hB.completeBare
  split at ho
  · rw [← some.inj ho]
    exact hB.completeBare
  split at ho
  · rw [← some.inj ho]
    exact hB.completeBare
  rename_i fd hfd
  have hB' := hB.record (e := .opened path (toSystemOpenFlags (.decode command.arg1))
    (command.arg1.toNat / 2 ^ 32) fd) (by simp)
  simp only at ho
  split at ho
  · simp at ho
  · rw [← some.inj ho]
    exact (hB'.record (by simp)).completeBare
  rename_i h₁ id hadd
  have hB₁ : Balanced own (h₁.sendCompletion { completionFor command with resourceId := id }
      a.sendOk).1 := Balanced.sendCompletion a.sendOk (hB'.addResource hadd)
  split_ifs at ho
  · rw [← some.inj ho]
    exact hB₁
  · rw [← some.inj ho]
    exact hB₁.removeResource id

/-- `defer release` after a map gives back the reference that the payload carried. -/
theorem Balanced.openFile (hB : Balanced (command.payload.owned ++ own) h)
    (hset : command.arg0.toNat % 2 ^ 8 = resourceKindFile →
      ((h.pool.map command.payload).isSome ↔ command.payload.owned ≠ []))
    (ho : h.openFile command a = some h') : Balanced own h' := by
  unfold Host.openFile at ho
  split at ho
  · rw [← some.inj ho]
    exact hB.unsupported
  rename_i hkn
  have hset := hset (not_not.1 hkn)
  split at ho
  · rename_i hmap
    rw [hmap] at hset
    have hnil : command.payload.owned = [] := by
      by_contra hne
      simpa using hset.2 hne
    rw [hnil] at hB
    rw [← some.inj ho]
    exact hB.completeBare
  · rename_i mapped hmap
    rw [hmap] at hset
    have hne := hset.1 rfl
    by_cases hem : command.payload.isEmpty = true ∨ command.payload.poolId ≠ 1
    · exact absurd (BufferRef.owned_eq_nil hem) hne
    obtain ⟨h₁, hpt, rfl⟩ := map_eq_some_iff.1 ho
    have hB₁ := hB.openPath hpt
    rw [BufferRef.owned_eq hem] at hB₁
    exact hB₁.release (by simpa using fun hp => hem (Or.inr hp))

theorem Balanced.closeResource (hB : Balanced (command.payload.owned ++ own) h) :
    Balanced own (h.closeResource command a) := by
  have hB' := hB.releasePayload.removeResource command.resourceId
  unfold Host.closeResource
  simp only
  split
  · exact Balanced.sendCompletion a.sendOk hB'
  · exact hB'.completeBare

/-- Serving a read settles the command's payload, unless it moves nothing into one that is owned. -/
theorem Balanced.readResource (hB : Balanced (command.payload.owned ++ own) h)
    (hset : (h.getResource command.resourceId).isSome → (h.pool.map command.payload).isSome →
      a.moved = .ok 0 → command.payload.owned = [])
    (hmv : ∀ n, a.moved = .ok n → n ≤ command.payload.length.toNat)
    (hr : h.readResource command a = some h') : Balanced own h' := by
  unfold Host.readResource at hr
  split at hr
  · rw [← some.inj hr]
    exact hB.completeError
  rename_i fd hget
  split at hr
  · rw [← some.inj hr]
    exact hB.completeError
  rename_i mapped hmap
  have hB' := hB.record (e := .read command.resourceId fd (position command)) (by simp)
  simp only at hr
  split at hr
  · rw [← some.inj hr]
    exact hB'.completeError
  rename_i n hn
  simp only [bind_eq_bind, bind_eq_some_iff, Option.pure_def, some.injEq] at hr
  obtain ⟨length, hlen, rfl⟩ := hr
  obtain ⟨hlen, -⟩ := DataPool.intCastU32_eq_some hlen
  refine Balanced.sendCompletion a.sendOk ?_
  -- a shortened payload still carries the reference, unless nothing was read
  have hsm : ({ command.payload with length } : BufferRef).owned = command.payload.owned := by
    by_cases h0 : n = 0
    · rw [hset (by rw [hget]; rfl) (by rw [hmap]; rfl) (by rw [hn, h0])]
      have : length = 0 := by rw [← UInt32.toNat_inj, hlen, h0]; rfl
      exact BufferRef.owned_eq_nil (Or.inl (by simp [BufferRef.isEmpty, this]))
    · have h1 : length ≠ 0 := fun hz => h0 (by rw [← hlen, hz]; rfl)
      have h2 : command.payload.length ≠ 0 := fun hz => by
        have := hmv n hn
        rw [hz, show (0 : UInt32).toNat = 0 from rfl] at this
        omega
      simp [BufferRef.owned, BufferRef.isEmpty, BufferRef.handle, h1, h2]
  simp only
  rw [hsm]
  exact hB'

theorem Balanced.writeResource (hB : Balanced (command.payload.owned ++ own) h) :
    Balanced own (h.writeResource command a) := by
  unfold Host.writeResource
  split
  · exact hB.completeBare.releasePayload
  rename_i fd hget
  split
  · exact hB.completeBare.releasePayload
  have hB' := hB.record (e := .wrote command.resourceId fd (position command)) (by simp)
  simp only
  split
  · exact hB'.completeBare.releasePayload
  · refine Balanced.releasePayload ?_
    exact Balanced.sendCompletion a.sendOk hB'

/-! ## HTTP commands -/

theorem Balanced.httpStart (hB : Balanced (command.payload.owned ++ own) h)
    (hs : h.httpStart command a = some h') : Balanced own h' := by
  simp only [Host.httpStart, bind_eq_bind, bind_eq_some_iff] at hs
  obtain ⟨r, hr, hs⟩ := hs
  split at hs <;> simp only [Option.pure_def, some.injEq] at hs <;> rw [← hs]
  · obtain ⟨request, -, rfl⟩ := createRequest_eq_ok hr
    refine Balanced.releasePayload (Balanced.record ?_ (by simp))
    exact hB.congr rfl rfl rfl fun _ _ hm => hm
  · refine Balanced.releasePayload (Balanced.send a.sendOk ?_)
    cases a.sendOk <;> exact hB

theorem Balanced.httpWriteBody (hB : Balanced (command.payload.owned ++ own) h) :
    Balanced own (h.httpWriteBody command a) := by
  unfold Host.httpWriteBody
  repeat' split
  · exact hB.releasePayload
  · exact hB.releasePayload
  · exact hB.releasePayload
  · exact hB.releasePayload
  · exact (hB.record (by simp)).releasePayload

/-- What each command needs so that its payload is accounted for; the commands that `dispatch`
settles in any case need nothing. -/
def Settles (h : Host) (command : Command) (a : Answers) : Prop :=
  match command.messageKind, command.operationKind with
  | .submit, .resourceOpen => command.arg0.toNat % 2 ^ 8 = resourceKindFile →
      ((h.pool.map command.payload).isSome ↔ command.payload.owned ≠ [])
  | .submit, .resourceRead => (h.getResource command.resourceId).isSome →
      (h.pool.map command.payload).isSome → a.moved = .ok 0 → command.payload.owned = []
  | .submit, .httpRequestEnd => command.payload.owned = []
  | .cancel, .httpRequestStart => command.payload.owned = []
  | .shutdown, _ => command.payload.owned = []
  | _, _ => True

instance : Decidable (h.Settles command a) := by
  unfold Settles
  split <;> infer_instance

/-- The host lets go of the payload of a command, or hands it on. -/
theorem Balanced.dispatch (hB : Balanced (command.payload.owned ++ own) h)
    (hset : h.Settles command a)
    (hmv : ∀ n, a.moved = .ok n → n ≤ command.payload.length.toNat)
    (hd : h.dispatch command a = some h') : Balanced own h' := by
  unfold Host.dispatch at hd
  unfold Settles at hset
  rcases hk : command.messageKind with _ | _ | _ | _ | _ | _ <;> rw [hk] at hd hset
  · rcases ho : command.operationKind with _ | _ | _ | _ | _ | _ | _ | _ | _ | _ | _ | _ | _ | _ | _ <;>
      rw [ho] at hd hset <;> simp only at hd hset
    case resourceOpen => exact hB.openFile hset hd
    case resourceClose =>
      rw [← some.inj hd]
      exact hB.closeResource
    case resourceRead => exact hB.readResource hset hmv hd
    case resourceWrite =>
      rw [← some.inj hd]
      exact hB.writeResource
    case httpRequestStart => exact hB.httpStart hd
    case httpRequestBody =>
      rw [← some.inj hd]
      exact hB.httpWriteBody
    case httpRequestEnd =>
      rw [hset] at hB
      rw [← some.inj hd]
      unfold httpEndBody
      split
      · exact hB
      · exact hB.record (by simp)
    all_goals
      rw [← some.inj hd]
      exact hB.unsupported
  · rw [← some.inj hd]
    exact hB.releasePayload
  · rw [← some.inj hd]
    exact hB.releasePayload
  · rcases ho : command.operationKind with _ | _ | _ | _ | _ | _ | _ | _ | _ | _ | _ | _ | _ | _ | _ <;>
      rw [ho] at hd hset <;> simp only at hd hset
    case httpRequestStart =>
      rw [hset] at hB
      rw [← some.inj hd]
      unfold httpCancel
      split
      · exact hB
      · exact hB.record (by simp)
    all_goals
      rw [← some.inj hd]
      exact hB.unsupported
  · simp only at hset
    rw [hset] at hB
    rw [← some.inj hd]
    exact hB.congr rfl rfl rfl fun _ _ hm => hm
  · rw [← some.inj hd]
    exact hB.releasePayload

end

/-! ## Callbacks and server requests -/

section

variable {h h' : Host} {own : List Arena.Handle}

theorem owned_of_length {ref : BufferRef} (hp : ref.poolId = 1) (hl : 0 < ref.length.toNat) :
    ref.owned = [ref.handle] := by
  refine BufferRef.owned_eq ?_
  rintro (he | hne)
  · rw [BufferRef.isEmpty, beq_iff_eq] at he
    rw [he] at hl
    exact absurd hl (lt_irrefl 0)
  · exact hne hp

variable {requestId : UInt64} {ok : Bool}

theorem Balanced.sendBytes (hB : Balanced own h) {kind : MessageKind}
    {operation : Operation} {bytes : List UInt8} (hby : 0 < bytes.length) {status : ℤ}
    {arg0 : UInt64} {a : BytesAnswers}
    (hs : h.sendBytes requestId kind operation bytes status arg0 a = some (h', ok)) :
    Balanced own h' := by
  simp only [Host.sendBytes, bind_eq_bind, bind_eq_some_iff, Prod.exists] at hs
  obtain ⟨h₁, r, hal, hs⟩ := hs
  obtain ⟨hB₁, href⟩ := hB.allocate hal
  rcases r with _ | ref
  · simp only [Option.pure_def, some.injEq, Prod.mk.injEq] at hs
    rw [← hs.1]
    exact hB₁
  obtain ⟨hp, hl, -⟩ := href ref rfl
  simp only at hs
  split at hs
  · simp only [Option.pure_def, some.injEq, Prod.mk.injEq] at hs
    rw [← hs.1]
    exact hB₁.release hp
  have hown := owned_of_length hp (by omega)
  split_ifs at hs with hm hok
  · simp only [Option.pure_def, some.injEq, Prod.mk.injEq] at hs
    rw [← hs.1]
    refine Balanced.send a.sendOk ?_
    rw [if_pos hok]
    simp only [hown]
    exact hB₁
  · simp only [Option.pure_def, some.injEq, Prod.mk.injEq] at hs
    rw [← hs.1]
    refine Balanced.release (Balanced.send a.sendOk ?_) hp
    rw [if_neg hok]
    exact hB₁

theorem Balanced.sendTerminal (hB : Balanced own h) {status : ℤ}
    {reason : UInt64} : Balanced own (h.sendTerminal requestId status reason ok) := by
  refine Balanced.send ok ?_
  cases ok <;> exact hB

theorem encode_length_pos {P : Type} {F : Format P} (hF : 0 < F.layout.size)
    {make : UInt32 → Range → List Range → P} {fields : List (List UInt8)} {headers : List Header}
    {alloc : (n : ℕ) → Option (List.Vector UInt8 n)} {bytes : List UInt8}
    (he : F.encode make fields headers alloc = some (.ok bytes)) : 0 < bytes.length := by
  unfold Format.encode at he
  split at he
  · simp at he
  split_ifs at he
  · simp at he
  split at he
  · simp at he
  rename_i size _ _ buffer _
  obtain ⟨bytes', hfl, heq⟩ := map_eq_some_iff.1 he
  obtain rfl : bytes' = bytes := Except.ok.inj heq
  simp only [Format.fill, bind_eq_bind, bind_eq_some_iff] at hfl
  obtain ⟨c, -, o, -, l, -, puts, -, b, -, hw⟩ := hfl
  obtain ⟨hle, -⟩ := splice_eq_some hw
  have hlen := (agree_splice hw).length
  rw [Layout.length_encode] at hle
  omega

theorem Balanced.sendMetadata (hB : Balanced own h) {metadata : Response}
    {a : CallbackAnswers}
    (hs : h.sendMetadata requestId metadata a = some (h', ok)) : Balanced own h' := by
  unfold Host.sendMetadata at hs
  by_cases hh : a.headersOk = true
  · rw [if_neg (not_not.2 hh)] at hs
    split at hs
    · simp at hs
    · obtain ⟨rfl, -⟩ := Prod.mk.inj (some.inj hs)
      exact hB
    · rename_i he
      exact hB.sendBytes (encode_length_pos (by decide) he) hs
  · rw [if_pos hh] at hs
    obtain ⟨rfl, -⟩ := Prod.mk.inj (some.inj hs)
    exact hB

/-- What a callback allocates is handed on. -/
theorem Balanced.callback (hB : Balanced own h) {request : HttpRequest} {r : CallbackResult}
    {a : CallbackAnswers} (hc : h.callback request r a = some h') : Balanced own h' := by
  simp only [Host.callback, bind_eq_bind, bind_eq_some_iff] at hc
  obtain ⟨h₁, h1, h₂, h2, hc⟩ := hc
  have hB₀ : Balanced own (if r.canStream then
      h.sendReady request.requestId r.isHttp2 a.readyOk else h) := by
    by_cases hcan : r.canStream = true
    · rw [if_pos hcan]
      refine Balanced.send a.readyOk ?_
      cases a.readyOk <;> exact hB
    · rw [if_neg hcan]
      exact hB
  generalize (if r.canStream then
    h.sendReady request.requestId r.isHttp2 a.readyOk else h) = h₀ at h1 hB₀
  have hB₁ : Balanced own h₁ := by
    unfold callbackMetadata at h1
    split at h1
    · rw [← some.inj h1]
      exact hB₀
    simp only [bind_eq_bind, bind_eq_some_iff, Option.pure_def, some.injEq,
      Prod.exists] at h1
    obtain ⟨h₃, ok, hm, rfl⟩ := h1
    have hB₃ := hB₀.sendMetadata hm
    split
    · exact hB₃
    · exact hB₃.sendTerminal
  have hB₂ : Balanced own h₂ := by
    unfold callbackBody at h2
    split_ifs at h2 with hl
    · rw [← some.inj h2]
      exact hB₁
    simp only [bind_eq_bind, bind_eq_some_iff, Option.pure_def, some.injEq,
      Prod.exists] at h2
    obtain ⟨h₃, ok, hb, rfl⟩ := h2
    have hB₃ := hB₁.sendBytes (Nat.pos_of_ne_zero hl) hb
    split
    · exact hB₃
    · exact hB₃.sendTerminal
  by_cases hmr : r.hasMore = true
  · rw [if_pos hmr] at hc
    rw [← some.inj hc]
    exact hB₂
  · rw [if_neg hmr] at hc
    rw [← some.inj hc]
    exact hB₂.sendTerminal.congr rfl rfl rfl (by simp [destroy, removeRequest])

/-- A server request is settled unless its handler's empty output got a buffer and was sent. -/
def SettlesRequest (h : Host) (request : Command) (a : ServeAnswers) : Prop :=
  (h.pool.map request.payload).isSome → a.output = some [] → a.sendOk = true →
    ∀ pool ref, h.pool.allocate 0 a.addr a.appendOk = some (pool, ref) → ref = none

instance (h : Host) (request : Command) (a : ServeAnswers) :
    Decidable (h.SettlesRequest request a) :=
  decidable_of_iff ((h.pool.map request.payload).isSome → a.output = some [] → a.sendOk = true →
    ∀ r ∈ h.pool.allocate 0 a.addr a.appendOk, r.2 = none) <| by
      simp only [SettlesRequest, Prod.forall, mem_def]

/-- The engine's handlers hold what they took, and give the rest back. -/
theorem Balanced.answerRequest (hB : Balanced own h) {request : Command} {a : ServeAnswers}
    (hset : h.SettlesRequest request a) (hs : h.answerRequest request a = some h') :
    Balanced own h' := by
  have hError : ∀ {h : Host} {status : ℤ}, Balanced own h →
      Balanced own (h.sendError request.requestId status a.sendOk) := fun hB => by
    refine Balanced.sendToHost a.sendOk ?_
    cases a.sendOk <;> exact hB
  unfold Host.answerRequest at hs
  split at hs
  · rw [← some.inj hs]
    exact hError hB
  rename_i mapped hmap
  split at hs
  · rw [← some.inj hs]
    exact hError hB
  rename_i output hout
  simp only [bind_eq_bind, bind_eq_some_iff, Prod.exists] at hs
  obtain ⟨h₁, r, hal, hs⟩ := hs
  obtain ⟨hB₁, href⟩ := hB.allocate hal
  rcases r with _ | ref
  · rw [← some.inj hs]
    exact hError hB₁
  obtain ⟨hp, hl, -⟩ := href ref rfl
  simp only at hs
  split at hs
  · rw [← some.inj hs]
    exact hError (hB₁.release hp)
  split_ifs at hs with hm hok
  · rw [← some.inj hs]
    have hpos : 0 < output.length := by
      rcases output with _ | ⟨b, bs⟩
      · unfold Host.allocate at hal
        split_ifs at hal
        simp only [bind_eq_bind, bind_eq_some_iff, Option.pure_def,
          some.injEq, Prod.mk.injEq, Prod.exists] at hal
        obtain ⟨pool, ref', hal, -, rfl⟩ := hal
        have := hset (by rw [hmap]; rfl) hout hok pool _ hal
        simp at this
      · simp
    refine Balanced.sendToHost a.sendOk ?_
    rw [if_pos hok]
    simp only [owned_of_length hp (by omega)]
    exact hB₁
  · rw [← some.inj hs]
    refine Balanced.release (Balanced.sendToHost a.sendOk ?_) hp
    rw [if_neg hok]
    exact hB₁

theorem Balanced.receiveToHost (hB : Balanced own h) {ch : CommandChannel} {command : Command}
    (hr : h.toHost.receive = (ch, some command)) :
    Balanced (command.payload.owned ++ own) { h with toHost := ch } := by
  obtain ⟨hp, hi⟩ := CommandChannel.receive_pending hB.toHost
  rw [hr] at hp hi
  refine ⟨hB.rep, hi, hB.toEngine, fun k => ?_, hB.known⟩
  have hold := hB.count k
  rw [count_append] at hold
  rw [inFlight, hp] at hold
  change h.pool.owners k = _
  rw [hold]
  simp only [inFlight, toList_some, List.flatMap_append, flatMap_cons,
    flatMap_nil, append_nil, count_append]
  omega

theorem Balanced.receiveToEngine (hB : Balanced own h) {ch : CommandChannel} {command : Command}
    (hr : h.toEngine.receive = (ch, some command)) :
    Balanced (command.payload.owned ++ own) { h with toEngine := ch } := by
  obtain ⟨hp, hi⟩ := CommandChannel.receive_pending hB.toEngine
  rw [hr] at hp hi
  refine ⟨hB.rep, hB.toHost, hi, fun k => ?_, hB.known⟩
  have hold := hB.count k
  rw [count_append] at hold
  rw [inFlight, hp] at hold
  change h.pool.owners k = _
  rw [hold]
  simp only [inFlight, toList_some, List.flatMap_append, flatMap_cons,
    flatMap_nil, append_nil, count_append]
  omega

end

end Host

/-! ## The system -/

namespace System

variable {s t : System}

theorem Holds.perm {ref : BufferRef} (h : s.Holds ref) :
    s.held.Perm (ref.owned ++ s.held.diff ref.owned) := by
  unfold Holds at h
  unfold BufferRef.owned at h ⊢
  split_ifs at h ⊢
  · simp
  · rw [diff_cons, diff_nil]
    exact perm_cons_erase (h ref.handle (mem_singleton.2 rfl))

variable {command : Command}

theorem balanced_bridgeDispatch {terminal : Bool}
    (hB : s.host.Balanced (command.payload.owned ++ s.held)) :
    (s.bridgeDispatch command terminal).host.Balanced (s.bridgeDispatch command terminal).held := by
  unfold bridgeDispatch
  split
  · exact hB
  · exact hB.releasePayload

/-- What each step needs so that every payload is accounted for. -/
def Settles (s : System) : Input → Prop
  | .host a => ∀ ch command, s.host.toHost.receive = (ch, some command) → s.host.Settles command a
  | .serve a => ∀ ch command, s.host.toEngine.receive = (ch, some command) →
      command.messageKind = .event → command.operationKind = .serverRequest →
        s.host.SettlesRequest command a
  | _ => True

instance (s : System) : ∀ i : Input, Decidable (s.Settles i)
  | .host a => decidable_of_iff (∀ command ∈ s.host.toHost.receive.2, s.host.Settles command a)
      ⟨fun h _ command hr => h command (by rw [hr]; rfl),
        fun h command hr => h _ command (Prod.ext rfl hr)⟩
  | .serve a => decidable_of_iff (∀ command ∈ s.host.toEngine.receive.2,
      command.messageKind = .event → command.operationKind = .serverRequest →
        s.host.SettlesRequest command a)
      ⟨fun h _ command hr => h command (by rw [hr]; rfl),
        fun h command hr => h _ command (Prod.ext rfl hr)⟩
  | .callback .. | .poll _ | .allocate .. | .retain _ | .release _ | .submit .. | .cancel ..
  | .sendToHost .. | .sendToEngine .. => isTrue trivial

theorem balanced_serve {a : ServeAnswers}
    (hB : s.host.Balanced (command.payload.owned ++ s.held))
    (hset : command.messageKind = .event → command.operationKind = .serverRequest →
      s.host.SettlesRequest command a) (hs : s.serve command a = some t) :
    t.host.Balanced t.held := by
  unfold serve at hs
  split_ifs at hs with hk hr
  · rw [← some.inj hs]
    exact hB.releasePayload
  · obtain ⟨host, hd, rfl⟩ := map_eq_some_iff.1 hs
    unfold Host.dispatchRequest at hd
    obtain ⟨host', hans, rfl⟩ := map_eq_some_iff.1 hd
    exact (hB.answerRequest (hset hr.1 hr.2) hans).releasePayload
  · rw [← some.inj hs]
    exact balanced_bridgeDispatch hB

theorem balanced_give {h : Host} {ok : Bool}
    (hhl : s.Holds command.payload)
    (hsn : ∀ own, s.host.Balanced ((if ok then command.payload.owned else []) ++ own) →
      h.Balanced own) (hB : s.host.Balanced s.held) :
    ({ s with host := h }.give command ok).host.Balanced
      ({ s with host := h }.give command ok).held := by
  unfold give
  cases ok with
  | false => exact hsn _ hB
  | true => exact hsn _ (hB.perm hhl.perm)

/-- Every step that is settled keeps the balance. -/
theorem balanced_perform {i : Input} (hB : s.host.Balanced s.held) (hset : s.Settles i)
    (hp : s.perform i = some t) : t.host.Balanced t.held := by
  cases i with
  | host a =>
    simp only [perform] at hp
    rcases hr : s.host.toHost.receive with ⟨ch, _ | command⟩ <;> rw [hr] at hp
    · rw [← some.inj hp]
      exact hB
    simp only at hp
    split_ifs at hp with hm
    obtain ⟨host, hd, rfl⟩ := map_eq_some_iff.1 hp
    have hmv : ∀ n, a.moved = .ok n → n ≤ command.payload.length.toNat := fun n hn => by
      simpa [movesWithin, hn] using hm
    exact (hB.receiveToHost hr).dispatch (hset ch command hr) hmv hd
  | callback request r a =>
    simp only [perform] at hp
    split_ifs at hp
    obtain ⟨host, hc, rfl⟩ := map_eq_some_iff.1 hp
    exact hB.callback hc
  | serve a =>
    simp only [perform] at hp
    rcases hr : s.host.toEngine.receive with ⟨ch, _ | command⟩ <;> rw [hr] at hp
    · rw [← some.inj hp]
      exact hB
    · exact balanced_serve (s := { s with host := { s.host with toEngine := ch } })
        (hB.receiveToEngine hr) (hset ch command hr) hp
  | poll terminal =>
    simp only [perform] at hp
    rcases hr : s.host.toEngine.receive with ⟨ch, _ | command⟩ <;> rw [hr] at hp
    · rw [← some.inj hp]
      exact hB
    · rw [← some.inj hp]
      exact balanced_bridgeDispatch (s := { s with host := { s.host with toEngine := ch } })
        (hB.receiveToEngine hr)
  | allocate len addr appendOk =>
    simp only [perform, bind_eq_bind, bind_eq_some_iff, Option.pure_def,
      some.injEq, Prod.exists] at hp
    obtain ⟨host, ref, hal, rfl⟩ := hp
    exact (hB.allocate hal).1
  | retain ref =>
    simp only [perform] at hp
    by_cases hown : ref.poolId = DataPool.poolId ∧ ref.handle ∈ s.held
    · rw [if_pos hown] at hp
      rw [← some.inj hp]
      exact hB.retain hown.1 (count_pos_iff.2 hown.2)
    · rw [if_neg hown] at hp
      simp at hp
  | release ref =>
    simp only [perform] at hp
    split_ifs at hp with hown
    rw [← some.inj hp]
    exact (hB.perm (perm_cons_erase hown.2)).release hown.1
  | submit command putOk sendOk =>
    simp only [perform] at hp
    split_ifs at hp with hhl
    rw [← some.inj hp]
    unfold submit
    by_cases hbad : command.messageKind ≠ .submit ∨ command.requestId = 0
    · rw [if_pos hbad]
      exact hB
    rw [if_neg hbad]
    by_cases hput : putOk = true
    · rw [if_neg (not_not.2 hput)]
      cases sendOk with
      | true =>
        exact Host.Balanced.sendToHost true (hB.perm hhl.perm)
      | false => exact hB
    · rw [if_pos hput]
      exact hB
  | cancel requestId operation sendOk =>
    simp only [perform] at hp
    rw [← some.inj hp]
    refine Host.Balanced.sendToHost sendOk ?_
    cases sendOk <;> exact hB
  | sendToHost command sendOk =>
    simp only [perform] at hp
    split_ifs at hp with hhl
    rw [← some.inj hp]
    exact balanced_give hhl (fun own hB => Host.Balanced.sendToHost sendOk hB) hB
  | sendToEngine command sendOk =>
    simp only [perform] at hp
    split_ifs at hp with hhl
    rw [← some.inj hp]
    exact balanced_give hhl (fun own hB => Host.Balanced.send sendOk hB) hB

/-- Nothing is owned and nothing in flight when the host starts. -/
theorem balanced_init : Host.Balanced [] {} where
  rep := ⟨[], DataPool.rep_init⟩
  toHost := CommandChannel.inv_init
  toEngine := CommandChannel.inv_init
  count := by simp [DataPool.owners, Arena.lookup, Slot.cells, Host.inFlight]
  known := by simp

/-- Along a run in which every step settles, the counts are right. -/
theorem balanced_run : ∀ {is : List Input} {s t : System} {es : List (System × Input)},
    s.host.Balanced s.held → run step s is = some (t, es) → (∀ e ∈ es, e.1.Settles e.2) →
      t.host.Balanced t.held
  | [], s, t, es, hB, hr, _ => by
    simp only [run_nil, some.injEq, Prod.mk.injEq] at hr
    rw [← hr.1]
    exact hB
  | i :: is, s, t, es, hB, hr, hset => by
    obtain ⟨u, e, es', hs, hrs, rfl⟩ := run_cons.1 hr
    obtain ⟨u', hp, heq⟩ := map_eq_some_iff.1 hs
    obtain ⟨rfl, rfl⟩ := Prod.mk.inj heq
    exact balanced_run (balanced_perform hB (hset _ mem_cons_self) hp) hrs
      fun e he => hset e (mem_cons_of_mem _ he)

theorem step_input {s t : System} {i : Input} {e : System × Input} (hs : step s i = some (t, e)) :
    e.2 = i := by
  obtain ⟨u, -, heq⟩ := map_eq_some_iff.1 hs
  rw [← (Prod.mk.inj heq).2]

end System

/-- No owner is left when no message is in flight and nobody holds a reference, so no buffer
is. -/
theorem Host.Balanced.no_buffer {h : Host} (hB : h.Balanced []) (ho : h.toHost.pending = [])
    (he : h.toEngine.pending = []) : h.pool.allocator.live = [] := by
  obtain ⟨L, hrep⟩ := hB.rep
  have hno : liveBlocks L = [] := by
    rw [eq_nil_iff_forall_not_mem]
    intro b hb
    obtain ⟨e, hm, v, hv, rfl⟩ := mem_liveBlocks.1 hb
    have hcn := hB.count e.handle
    rw [Host.inFlight, ho, he, DataPool.owners, hrep.arena.live e hm v hv] at hcn
    have hpos := hrep.owned e hm v hv
    simp at hcn
    omega
  have hpr := hrep.out
  rw [hno] at hpr
  exact hpr.eq_nil

/-- In every run whose steps are settled, each slot's reference count is the number of messages
that carry its reference and of parties that hold it, every release gives back a reference that
the pool knew, and when all messages are consumed and nobody holds anything, no buffer is
allocated. -/
theorem payload_ownership {is : List System.Input} {s : System}
    {es : List (System × System.Input)} (hr : run System.step {} is = some (s, es))
    (hset : ∀ e ∈ es, e.1.Settles e.2) :
    (∀ k, s.host.pool.owners k = s.host.inFlight.count k + s.held.count k)
      ∧ (∀ ref known, .released ref known ∈ s.host.trace → ref.poolId = DataPool.poolId →
        known = true)
      ∧ (s.host.toHost.pending = [] → s.host.toEngine.pending = [] → s.held = [] →
        s.host.pool.allocator.live = []) := by
  have hB := System.balanced_run System.balanced_init hr hset
  refine ⟨fun k => ?_, hB.known, fun ho he hh => ?_⟩
  · rw [hB.count k, count_append]
  · rw [hh] at hB
    exact hB.no_buffer ho he

/-- A file is opened and one byte of it is read, and a request of the server is answered. -/
def readAndServe : List System.Input :=
  [.allocate 1 (some 0) true,
    .sendToHost { operation := 16, requestId := 1, payload := ⟨1, 0, 1, 0, 1⟩, arg0 := 1 } true,
    .host { mem := fun _ => 97, opened := .ok 7 }, .poll false, .allocate 1 (some 0) true,
    .sendToHost { operation := 18, requestId := 2, resourceId := 2 ^ 32,
                  payload := ⟨1, 0, 2, 0, 1⟩ } true,
    .host { moved := .ok 1 }, .poll false, .allocate 2 (some 0) true,
    .sendToEngine { kind := 3, operation := 65, requestId := 3, payload := ⟨1, 0, 3, 0, 2⟩ } true,
    .serve { output := some [104, 105], addr := some 8 }, .host {}]

/-- Every buffer of that run has been given back. -/
theorem payload_ownership_served :
    ∃ s es, run System.step {} readAndServe = some (s, es) ∧ s.host.pool.slots.length = 2
      ∧ s.host.pool.allocator.live = [] := by
  have hr : run System.step {} readAndServe = some (_, _) := rfl
  have hset : ∀ e ∈ ((run System.step {} readAndServe).map Prod.snd).getD [], e.1.Settles e.2 := by
    decide +kernel
  exact ⟨_, _, hr, rfl, (payload_ownership hr hset).2.2 rfl rfl rfl⟩

/-- A read that comes to the end of the file: the completion carries the buffer with length zero,
so nobody owns it any more and it stays allocated. -/
theorem payload_ownership_end_of_file :
    ∃ s es, run System.step {} [.allocate 1 (some 0) true,
        .sendToHost { operation := 16, requestId := 1, payload := ⟨1, 0, 1, 0, 1⟩, arg0 := 1 } true,
        .host { mem := fun _ => 97, opened := .ok 7 }, .poll false, .allocate 1 (some 0) true,
        .sendToHost { operation := 18, requestId := 2, resourceId := 2 ^ 32,
                      payload := ⟨1, 0, 2, 0, 1⟩ } true,
        .host { moved := .ok 0 }, .poll false] = some (s, es)
      ∧ s.host.toHost.pending = [] ∧ s.host.toEngine.pending = [] ∧ s.held = []
      ∧ s.host.pool.owners ⟨0, 2⟩ = 1 ∧ s.host.pool.allocator.live.length = 1 :=
  ⟨_, _, rfl, rfl, rfl, rfl, rfl, rfl⟩

end Cruller
