import Cruller.Rt.PoolLedger

/-!
# What a pool is for

The contract of a pool without slots, generations or addresses. A reference is the number of its
allocation; behind it are bytes and owners until the last owner releases it. The only trace of
the slots is how many there are, since a pool grows only when every slot is in use.

`Side` is a pool as its callers meet it: the references handed out so far and the memory behind
them. A call names its reference by the number of the allocation, or forges one that nobody was
given. As long as no slot was handed out more than `2 ^ 32 - 1` times, a pool that places its
blocks as `DataPool` does steps as the contract does (`Side.Refines.step`).
-/

namespace Cruller

open List Option

/-- What is behind a live reference; a byte nobody wrote is `none`. -/
structure Buffer where
  bytes : List (Option UInt8)
  owners : ℕ
deriving DecidableEq, Repr

/-- A pool as its users see it: buffers in the order in which they were allocated. -/
structure RefPool where
  entries : List (Option Buffer) := []
  slots : ℕ := 0
deriving DecidableEq, Repr

/-- A reference by what it refers to: the k-th allocation, or nothing that was ever issued. -/
inductive RefName where
  | issued (k : ℕ) (offset length : UInt32)
  | forged
deriving DecidableEq, Repr

/-- A call on a pool, or bytes stored through a mapped reference. -/
inductive PoolCall where
  | allocate (len : ℕ)
  | map (name : RefName)
  | retain (name : RefName)
  | release (name : RefName)
  | store (name : RefName) (data : List UInt8)
deriving DecidableEq, Repr

/-- What a call returns, up to the names of references. -/
inductive Outcome where
  | allocated (ok : Bool)
  | trapped
  | mapped (bytes : Option (List (Option UInt8)))
  | retained (ok : Bool)
  | released
  | stored (ok : Bool)
deriving DecidableEq, Repr

namespace Buffer

/-- Bytes that nobody has written yet, with one owner. -/
def fresh (len : ℕ) : Buffer := ⟨List.replicate len none, 1⟩

/-- The part of a buffer that a reference names. -/
def part (offset length : ℕ) (b : Buffer) : Option (List (Option UInt8)) :=
  if offset + length ≤ b.bytes.length then some ((b.bytes.drop offset).take length) else none

def retain (b : Buffer) : Option Buffer :=
  some { b with owners := b.owners + 1 }

def release (b : Buffer) : Option Buffer :=
  if b.owners = 1 then none else some { b with owners := b.owners - 1 }

def store (offset : ℕ) (data : List UInt8) (b : Buffer) : Option Buffer :=
  some { b with bytes := b.bytes.mapIdx fun i v =>
    if offset ≤ i then data[i - offset]?.or v else v }

end Buffer

/-- Where the part begins. -/
def RefName.offset : RefName → ℕ
  | issued _ offset _ => offset.toNat
  | forged => 0

namespace RefPool

/-- The buffer that is meant, while it lives. -/
def find (A : RefPool) : RefName → Option Buffer
  | .issued k _ _ => A.entries[k]?.join
  | .forged => none

def map (A : RefPool) : RefName → Option (List (Option UInt8))
  | .issued k offset length => A.entries[k]?.join.bind (Buffer.part offset.toNat length.toNat)
  | .forged => none

/-- What happens to one buffer. -/
def alter (A : RefPool) (name : RefName) (f : Buffer → Option Buffer) : RefPool :=
  match name with
  | .issued k _ _ => { A with entries := A.entries.modify k (·.bind f) }
  | .forged => A

def live (A : RefPool) : ℕ :=
  A.entries.countP (·.isSome)

/-- A call; an allocation that needs a slot past the last 32-bit index ends the program. -/
def step (A : RefPool) : PoolCall → RefPool × Outcome
  | .allocate len =>
    if len > maxU32 then (A, .allocated false)
    else if A.live < A.slots then
      ({ A with entries := A.entries ++ [some (.fresh len)] }, .allocated true)
    else if A.slots ≤ maxU32 then
      (⟨A.entries ++ [some (.fresh len)], A.slots + 1⟩, .allocated true)
    else (A, .trapped)
  | .map name => (A, .mapped (A.map name))
  | .retain name =>
    match A.find name with
    | none => (A, .retained false)
    | some b =>
      if b.owners = maxU32 then (A, .retained false)
      else (A.alter name Buffer.retain, .retained true)
  | .release name => (A.alter name Buffer.release, .released)
  | .store name data =>
    match A.map name with
    | none => (A, .stored false)
    | some part =>
      if part.length = data.length then (A.alter name (Buffer.store name.offset data), .stored true)
      else (A, .stored false)

end RefPool

/-- The four functions of `contract.DataTransport`, with allocations that get their memory. -/
structure DataTransport (π : Type) where
  heap : π → Allocator
  allocate : π → ℕ → ℕ → Option (π × Option BufferRef)
  map : π → BufferRef → Option MappedBuffer
  retain : π → BufferRef → π × Bool
  release : π → BufferRef → π

/-- The bytes at each address, where any were written. -/
abbrev Memory := ℕ → Option UInt8

namespace Memory

/-- A new block holds nothing anybody wrote. -/
def clear (mem : Memory) (b : Block) : Memory := fun x =>
  if b.addr ≤ x ∧ x < b.addr + b.len then none else mem x

def write (mem : Memory) (ptr : ℕ) (data : List UInt8) : Memory := fun x =>
  if ptr ≤ x then data[x - ptr]?.or (mem x) else mem x

end Memory

/-- A pool with the references it issued and its memory. -/
structure Side (π : Type) where
  pool : π
  refs : List BufferRef := []
  mem : Memory := fun _ => none

/-- What a run chooses on one side of a call: where a new block lies and what a forged reference
looks like. -/
structure Env where
  addr : ℕ := 0
  forged : BufferRef := {}
deriving DecidableEq, Repr

namespace Side

variable {π : Type}

/-- The reference a name stands for; a forged one is none that was handed out. -/
def resolve (s : Side π) (env : Env) : RefName → Option BufferRef
  | .issued k offset length => s.refs[k]?.map fun ref => { ref with offset, length }
  | .forged =>
    if env.forged.poolId = DataPool.poolId ∧ env.forged.handle ∈ s.refs.map (·.handle) then none
    else some env.forged

/-- A call through the transport, refused when its name stands for nothing or the new block
overlaps one that is out. -/
def step (T : DataTransport π) (s : Side π) (env : Env) : PoolCall → Option (Side π × Outcome)
  | .allocate len =>
    if (T.heap s.pool).Fits ⟨env.addr, len⟩ then
      match T.allocate s.pool len env.addr with
      | none => some (s, .trapped)
      | some (pool, none) => some ({ s with pool }, .allocated false)
      | some (pool, some ref) =>
        some (⟨pool, s.refs ++ [ref], s.mem.clear ⟨env.addr, len⟩⟩, .allocated true)
    else none
  | .map name => do
    let ref ← s.resolve env name
    return (s, .mapped ((T.map s.pool ref).map (·.slice s.mem)))
  | .retain name => do
    let ref ← s.resolve env name
    let (pool, ok) := T.retain s.pool ref
    return ({ s with pool }, .retained ok)
  | .release name => do
    let ref ← s.resolve env name
    return ({ s with pool := T.release s.pool ref }, .released)
  | .store name data => do
    let ref ← s.resolve env name
    match T.map s.pool ref with
    | none => return (s, .stored false)
    | some m =>
      if m.len = data.length then return ({ s with mem := s.mem.write m.ptr data }, .stored true)
      else return (s, .stored false)

/-- No slot was handed out so often that its generations came round. -/
def Fresh (s : Side π) : Prop :=
  ∀ i, (s.refs.countP fun ref => ref.bufferId.toNat = i) ≤ 2 ^ 32 - 1

end Side

def Block.whole (b : Block) : MappedBuffer := ⟨b.addr, b.len⟩

def Holding.buffer (mem : Memory) (v : Holding) : Buffer :=
  ⟨v.block.whole.slice mem, v.owners⟩

section

variable {mem : Memory} {b c : Block}

theorem slice_clear_of_disjoint (h : b.Disjoint c) :
    c.whole.slice (mem.clear b) = c.whole.slice mem := by
  refine ext_getElem? fun i => ?_
  simp only [MappedBuffer.slice_getElem?, Block.whole]
  by_cases hi : i < c.len
  · have hout : ¬ (b.addr ≤ c.addr + i ∧ c.addr + i < b.addr + b.len) := fun hb =>
      Block.disjoint_iff.1 h _ hb.1 hb.2 ⟨by omega, by omega⟩
    rw [Memory.clear, if_neg hout]
  · rw [if_neg hi, if_neg hi]

theorem slice_clear (mem : Memory) (b : Block) :
    b.whole.slice (mem.clear b) = List.replicate b.len none := by
  refine ext_getElem? fun i => ?_
  simp only [MappedBuffer.slice_getElem?, Block.whole, getElem?_replicate]
  by_cases hi : i < b.len
  · rw [if_pos hi, if_pos hi, Memory.clear, if_pos ⟨by omega, by omega⟩]
  · rw [if_neg hi, if_neg hi]

theorem slice_write_of_disjoint (h : b.Disjoint c) {ptr : ℕ} {data : List UInt8}
    (hlo : b.addr ≤ ptr) (hhi : ptr + data.length ≤ b.addr + b.len) :
    c.whole.slice (mem.write ptr data) = c.whole.slice mem := by
  refine ext_getElem? fun i => ?_
  simp only [MappedBuffer.slice_getElem?, Block.whole]
  by_cases hi : i < c.len
  · rw [if_pos hi, if_pos hi, Memory.write]
    by_cases hp : ptr ≤ c.addr + i
    · have hge : data.length ≤ c.addr + i - ptr := by
        by_contra hlt
        exact Block.disjoint_iff.1 h (c.addr + i) (by omega) (by omega) ⟨by omega, by omega⟩
      rw [if_pos hp, getElem?_eq_none hge, none_or]
    · rw [if_neg hp]
  · rw [if_neg hi, if_neg hi]

theorem slice_write (mem : Memory) (b : Block) (offset : ℕ) (data : List UInt8) :
    b.whole.slice (mem.write (b.addr + offset) data) =
      (b.whole.slice mem).mapIdx fun i v =>
        if offset ≤ i then data[i - offset]?.or v else v := by
  refine ext_getElem? fun i => ?_
  rw [getElem?_mapIdx]
  simp only [MappedBuffer.slice_getElem?, Block.whole]
  by_cases hi : i < b.len
  · rw [if_pos hi, if_pos hi, map_some, Memory.write]
    by_cases ho : offset ≤ i
    · rw [if_pos ho, if_pos (by omega), show b.addr + i - (b.addr + offset) = i - offset by omega]
    · rw [if_neg ho, if_neg (by omega)]
  · rw [if_neg hi, if_neg hi, map_none]

theorem Buffer.part_buffer (mem : Memory) (v : Holding) (offset length : ℕ) :
    (v.buffer mem).part offset length =
      if offset + length ≤ v.block.len then
        some ((MappedBuffer.mk (v.block.addr + offset) length).slice mem) else none := by
  unfold Buffer.part Holding.buffer
  simp only [MappedBuffer.slice_length, Block.whole]
  by_cases h : offset + length ≤ v.block.len
  · rw [if_pos h, if_pos h, some.injEq]
    refine ext_getElem? fun i => ?_
    rw [getElem?_take, getElem?_drop]
    simp only [MappedBuffer.slice_getElem?]
    by_cases hi : i < length
    · rw [if_pos hi, if_pos hi, if_pos (by omega), Nat.add_assoc]
    · rw [if_neg hi, if_neg hi]
  · rw [if_neg h, if_neg h]

theorem Holding.buffer_release (mem : Memory) (v : Holding) :
    v.release.map (Holding.buffer mem) = (v.buffer mem).release := by
  unfold Holding.release Buffer.release Holding.buffer
  by_cases h : v.owners = 1
  · simp [h]
  · simp [h]

end

/-- Blocks are placed as `DataPool` places them, and the other three calls are its own. -/
structure DataTransport.Places {π : Type} (T : DataTransport π) (view : π → DataPool)
    (Ok : π → Prop) : Prop where
  heap : ∀ p, T.heap p = (view p).allocator
  map : ∀ p ref, T.map p ref = (view p).map ref
  retain : ∀ p ref, view (T.retain p ref).1 = ((view p).retain ref).1
  retain_ok : ∀ p ref, (T.retain p ref).2 = ((view p).retain ref).2
  release : ∀ p ref, view (T.release p ref) = (view p).release ref
  retain_keeps : ∀ p ref, Ok p → Ok (T.retain p ref).1
  release_keeps : ∀ p ref, Ok p → Ok (T.release p ref)
  long : ∀ p len addr, maxU32 < len → T.allocate p len addr = some (p, none)
  place : ∀ p len addr, Ok p → (view p).slots.length ≤ 2 ^ 32 → len ≤ maxU32 →
    ((∃ slot ∈ (view p).slots, slot.bytes = none) ∨ (view p).slots.length ≤ maxU32) →
    ∃ p' ref, T.allocate p len addr = some (p', some ref)
      ∧ DataPool.Placed (view p) (view p') ⟨addr, len⟩ ref ∧ Ok p'
  full : ∀ p len addr, Ok p → len ≤ maxU32 → (∀ slot ∈ (view p).slots, slot.bytes.isSome) →
    maxU32 < (view p).slots.length → T.allocate p len addr = none

namespace Side

variable {π : Type} {T : DataTransport π} {view : π → DataPool} {Ok : π → Prop}
  {s s' : Side π} {L : Arena.Ledger Holding} {A : RefPool} {env : Env} {o : Outcome}

/-- The contract's entry for an entry of the pool's ledger. -/
def entry (mem : Memory) (e : Arena.Entry Holding) : Option Buffer :=
  e.value.map (Holding.buffer mem)

/-- The pool is the abstract one, with its buffers at addresses. -/
structure Refines (view : π → DataPool) (Ok : π → Prop) (s : Side π)
    (L : Arena.Ledger Holding) (A : RefPool) : Prop where
  rep : DataPool.Rep (view s.pool) L
  ok : Ok s.pool
  handles : L.map (·.handle) = s.refs.map (·.handle)
  own : ∀ ref ∈ s.refs, ref.poolId = DataPool.poolId
  entries : A.entries = L.map (entry s.mem)
  slots : A.slots = (view s.pool).slots.length
  bound : (view s.pool).slots.length ≤ 2 ^ 32

def lookup (L : Arena.Ledger Holding) : RefName → Option Holding
  | .issued k _ _ => L[k]?.bind (·.value)
  | .forged => none

theorem Refines.issued_le (h : Refines view Ok s L A) (hf : s.Fresh) (i : ℕ) :
    L.issued i ≤ 2 ^ 32 - 1 := by
  rw [Arena.issued_eq, h.handles, countP_map]
  exact hf i

theorem Refines.getElem?_refs (h : Refines view Ok s L A) (k : ℕ) :
    s.refs[k]?.map (·.handle) = L[k]?.map (·.handle) := by
  rw [← getElem?_map, ← getElem?_map, h.handles]

variable {name : RefName} {ref : BufferRef} {pool : π}

theorem Refines.find (h : Refines view Ok s L A) (hf : s.Fresh)
    (hr : s.resolve env name = some ref) :
    (view s.pool).find ref = lookup L name := by
  cases name with
  | issued k offset length =>
    simp only [resolve, map_eq_some_iff] at hr
    obtain ⟨r, hr, rfl⟩ := hr
    have hh := h.getElem?_refs k
    rw [hr, map_some] at hh
    obtain ⟨e, he, hh⟩ := map_eq_some_iff.1 hh.symm
    have hp := h.own r (mem_of_getElem? hr)
    have hm := mem_of_getElem? he
    have hhr : BufferRef.handle { r with offset, length } = e.handle := hh.symm
    rw [DataPool.find, if_pos hp, hhr, lookup, he, bind_some]
    rcases hv : e.value with _ | v
    · exact h.rep.arena.lookup_retired (h.issued_le hf) hm hv
    · exact h.rep.arena.live e hm v hv
  | forged =>
    simp only [resolve] at hr
    split_ifs at hr with hc
    obtain rfl := some.inj hr
    rw [lookup]
    rcases hl : (view s.pool).find env.forged with _ | v
    · rfl
    obtain ⟨hp, hm⟩ := h.rep.mem_of_find hl
    refine absurd ⟨hp, ?_⟩ hc
    rw [← h.handles]
    exact List.mem_map.2 ⟨_, hm, rfl⟩

theorem Refines.contract_find (h : Refines view Ok s L A) (name : RefName) :
    A.find name = (lookup L name).map (Holding.buffer s.mem) := by
  cases name with
  | issued k offset length =>
    rw [RefPool.find, lookup, h.entries, getElem?_map]
    rcases L[k]? with _ | e
    · rfl
    · rfl
  | forged => rfl

theorem Refines.map (h : Refines view Ok s L A) (hf : s.Fresh)
    (hr : s.resolve env name = some ref) :
    ((view s.pool).map ref).map (·.slice s.mem) = A.map name := by
  rw [DataPool.map_eq, h.find hf hr]
  cases name with
  | issued k offset length =>
    simp only [resolve, map_eq_some_iff] at hr
    obtain ⟨r, -, rfl⟩ := hr
    have hc : A.map (.issued k offset length) =
        (A.find (.issued k offset length)).bind (Buffer.part offset.toNat length.toNat) := rfl
    rw [hc, h.contract_find]
    rcases lookup L (.issued k offset length) with _ | v
    · rfl
    · rw [map_some, bind_some, bind_some, Buffer.part_buffer]
      split_ifs <;> rfl
  | forged => rfl

theorem Refines.nodup (h : Refines view Ok s L A) (hf : s.Fresh) : (L.map (·.handle)).Nodup :=
  h.rep.arena.nodup (h.issued_le hf)

theorem Refines.disjoint (h : Refines view Ok s L A) {j k : ℕ} (hjk : j ≠ k)
    {e e' : Arena.Entry Holding} {v v' : Holding} (hj : L[j]? = some e) (hk : L[k]? = some e')
    (hv : e.value = some v) (hv' : e'.value = some v') : v.block.Disjoint v'.block := by
  have hp := pairwise_iff_getElem.1
    (liveBlocks_pairwise (h.rep.out.pairwise h.rep.apart fun hd => hd.symm))
  obtain ⟨hjl, rfl⟩ := List.getElem?_eq_some_iff.1 hj
  obtain ⟨hkl, rfl⟩ := List.getElem?_eq_some_iff.1 hk
  rcases lt_or_gt_of_ne hjk with hlt | hlt
  · exact hp j k hjl hkl hlt v v' hv hv'
  · exact (hp k j hkl hjl hlt v' v hv' hv).symm

theorem Refines.entries_alter (h : Refines view Ok s L A) (hf : s.Fresh)
    (hr : s.resolve env name = some ref) {f : Holding → Option Holding}
    {g : Buffer → Option Buffer}
    (hfg : ∀ v, (f v).map (Holding.buffer s.mem) = g (v.buffer s.mem)) :
    (A.alter name g).entries =
      (if ref.poolId = DataPool.poolId then L.alter ref.handle f else L).map (entry s.mem) := by
  cases name with
  | issued k offset length =>
    simp only [resolve, map_eq_some_iff] at hr
    obtain ⟨r, hr, rfl⟩ := hr
    have hh := h.getElem?_refs k
    rw [hr, map_some] at hh
    obtain ⟨e, he, hh⟩ := map_eq_some_iff.1 hh.symm
    have hhr : BufferRef.handle { r with offset, length } = e.handle := hh.symm
    rw [if_pos (h.own r (mem_of_getElem? hr)), hhr,
      Arena.alter_eq_modify (h.nodup hf) he, RefPool.alter]
    simp only
    rw [h.entries]
    refine (Arena.map_modify fun e' _ => ?_).symm
    rcases hv : e'.value with _ | v
    · simp [entry, hv]
    · simp [entry, hv, hfg]
  | forged =>
    have hn := h.find hf hr
    rw [lookup, DataPool.find] at hn
    rw [RefPool.alter, h.entries]
    split_ifs at hn ⊢ with hp
    · rw [h.rep.arena.alter_of_lookup_none hn]
    · rfl

theorem Refines.alter (h : Refines view Ok s L A) (hf : s.Fresh)
    (hr : s.resolve env name = some ref) {f : Holding → Option Holding}
    {g : Buffer → Option Buffer}
    (hfg : ∀ v, (f v).map (Holding.buffer s.mem) = g (v.buffer s.mem))
    (hrep : DataPool.Rep (view pool)
      (if ref.poolId = DataPool.poolId then L.alter ref.handle f else L)) (hok : Ok pool)
    (hlen : (view pool).slots.length = (view s.pool).slots.length) :
    ∃ L', Refines view Ok { s with pool } L' (A.alter name g) := by
  refine ⟨_, hrep, hok, ?_, h.own, h.entries_alter hf hr hfg, ?_, ?_⟩
  · rw [← h.handles]
    split_ifs
    · exact Arena.alter_handles L _ f
    · rfl
  · cases name <;> exact h.slots.trans hlen.symm
  · exact hlen.trans_le h.bound

theorem Refines.store (h : Refines view Ok s L A) {k : ℕ} {offset length : UInt32} {v : Holding}
    (hv : lookup L (.issued k offset length) = some v) {data : List UInt8}
    (hle : offset.toNat + data.length ≤ v.block.len) :
    Refines view Ok { s with mem := s.mem.write (v.block.addr + offset.toNat) data } L
      (A.alter (.issued k offset length) (Buffer.store offset.toNat data)) := by
  refine ⟨h.rep, h.ok, h.handles, h.own, ?_, h.slots, h.bound⟩
  obtain ⟨e, he, hv⟩ := bind_eq_some_iff.1 hv
  rw [RefPool.alter]
  simp only
  rw [h.entries]
  refine ext_getElem? fun j => ?_
  rw [getElem?_modify, getElem?_map, getElem?_map]
  rcases hj : L[j]? with _ | e'
  · rfl
  simp only [Option.map_eq_map, map_some, some.injEq]
  by_cases hkj : k = j
  · subst hkj
    obtain rfl : e = e' := by rw [he] at hj; exact some.inj hj
    rw [if_pos rfl]
    simp only [entry, hv, map_some, bind_some, Holding.buffer, Buffer.store,
      slice_write]
  · rw [if_neg hkj]
    rcases hv' : e'.value with _ | w
    · simp [entry, hv']
    · have hd := h.disjoint hkj he hj hv hv'
      simp only [entry, hv', map_some, some.injEq]
      unfold Holding.buffer
      rw [slice_write_of_disjoint hd (by omega) (by omega)]

theorem Refines.place (h : Refines view Ok s L A) {len addr : ℕ}
    (hfit : (view s.pool).allocator.Fits ⟨addr, len⟩)
    (hp : DataPool.Placed (view s.pool) (view pool) ⟨addr, len⟩ ref) (hok : Ok pool) {n : ℕ}
    (hn : n = (view pool).slots.length) (hb : (view pool).slots.length ≤ 2 ^ 32) :
    ∃ L', Refines view Ok ⟨pool, s.refs ++ [ref], s.mem.clear ⟨addr, len⟩⟩ L'
      ⟨A.entries ++ [some (.fresh len)], n⟩ := by
  refine ⟨_, h.rep.place hfit hp, hok, ?_, ?_, ?_, hn, hb⟩
  · rw [Arena.Ledger.issue, map_append, map_append, h.handles]
    rfl
  · intro r hr
    rcases mem_append.1 hr with hr | hr
    · exact h.own r hr
    · rw [mem_singleton.1 hr]
      exact hp.poolId
  · have hold : L.map (entry s.mem) = L.map (entry (s.mem.clear ⟨addr, len⟩)) := by
      refine map_congr_left fun e he => ?_
      rcases hv : e.value with _ | v
      · simp [entry, hv]
      · have hm : v.block ∈ (view s.pool).allocator.live :=
          h.rep.out.mem_iff.2 (mem_liveBlocks.2 ⟨e, he, v, hv, rfl⟩)
        simp only [entry, hv, map_some, some.injEq, Holding.buffer]
        rw [slice_clear_of_disjoint (hfit _ hm)]
    have hnew : entry (s.mem.clear ⟨addr, len⟩) ⟨ref.handle, some ⟨⟨addr, len⟩, 1⟩⟩ =
        some (.fresh len) := by
      simp only [entry, map_some, Holding.buffer, Buffer.fresh]
      rw [slice_clear]
    simp only [Arena.Ledger.issue, map_append, map_cons, map_nil, hnew]
    rw [h.entries, hold]

theorem Refines.live_lt_iff (h : Refines view Ok s L A) :
    A.live < A.slots ↔ ∃ slot ∈ (view s.pool).slots, slot.bytes = none := by
  have hlv : A.live = L.countP (·.value.isSome) := by
    rw [RefPool.live, h.entries, countP_map]
    refine countP_congr fun e _ => ?_
    simp [entry]
  rw [hlv, h.slots, ← Slot.cells_length, h.rep.arena.live_lt_iff]
  simp [Slot.cells, Slot.cell]

/-- An allocation is one more buffer. -/
theorem Refines.allocate (hT : T.Places view Ok) (h : Refines view Ok s L A) {len : ℕ}
    (hs : s.step T env (.allocate len) = some (s', o)) :
    (A.step (.allocate len)).2 = o ∧ ∃ L', Refines view Ok s' L' (A.step (.allocate len)).1 := by
  simp only [Side.step] at hs
  split_ifs at hs with hfit
  rw [hT.heap] at hfit
  by_cases hln : len > maxU32
  · rw [hT.long _ _ _ hln] at hs
    simp only [some.injEq, Prod.mk.injEq] at hs
    obtain ⟨rfl, rfl⟩ := hs
    simp only [RefPool.step, if_pos hln]
    exact ⟨trivial, L, h⟩
  have hlen : len ≤ maxU32 := not_lt.1 hln
  simp only [RefPool.step, if_neg hln]
  by_cases hrm : (∃ slot ∈ (view s.pool).slots, slot.bytes = none)
      ∨ (view s.pool).slots.length ≤ maxU32
  · obtain ⟨pool, ref, hal, hp, hok⟩ := hT.place _ _ env.addr h.ok h.bound hlen hrm
    rw [hal] at hs
    simp only [some.injEq, Prod.mk.injEq] at hs
    obtain ⟨rfl, rfl⟩ := hs
    rcases hp.slots with ⟨i, slot, hi, hn, -, hsl⟩ | ⟨hall, -, hsl⟩
    · have hem := h.live_lt_iff.2 ⟨slot, mem_of_getElem? hi, hn⟩
      rw [if_pos hem]
      refine ⟨rfl, h.place hfit hp hok ?_ ?_⟩
      · rw [hsl, length_set, h.slots]
      · rw [hsl, length_set]
        exact h.bound
    · have hfl : ¬ ∃ slot ∈ (view s.pool).slots, slot.bytes = none := by
        rintro ⟨slot, hm, hn⟩
        have := hall slot hm
        rw [hn] at this
        simp at this
      have hle := hrm.resolve_left hfl
      rw [if_neg (mt h.live_lt_iff.1 hfl), if_pos (h.slots.trans_le hle)]
      refine ⟨rfl, h.place hfit hp hok ?_ ?_⟩
      · rw [hsl, length_append, h.slots, length_singleton]
      · rw [hsl, length_append, length_singleton]
        unfold maxU32 at hle
        omega
  · rw [not_or] at hrm
    obtain ⟨hfl, hlt⟩ := hrm
    have hall : ∀ slot ∈ (view s.pool).slots, slot.bytes.isSome := fun slot hm =>
      isSome_iff_ne_none.2 fun hn => hfl ⟨slot, hm, hn⟩
    rw [hT.full _ _ _ h.ok hlen hall (not_le.1 hlt)] at hs
    simp only [some.injEq, Prod.mk.injEq] at hs
    obtain ⟨rfl, rfl⟩ := hs
    rw [if_neg (mt h.live_lt_iff.1 hfl), if_neg (by rw [h.slots]; exact hlt)]
    exact ⟨rfl, L, h⟩

theorem Refines.live (h : Refines view Ok s L A) (hf : s.Fresh) :
    (s.refs.map fun ref => ((view s.pool).getSlot ref).isSome) =
      A.entries.map (·.isSome) := by
  refine ext_getElem? fun k => ?_
  rw [getElem?_map, getElem?_map, h.entries, getElem?_map]
  have hk := h.getElem?_refs k
  rcases hr : s.refs[k]? with _ | ref <;> rcases he : L[k]? with _ | e <;> rw [hr, he] at hk
  · rfl
  · simp at hk
  · simp at hk
  have hres : s.resolve {} (.issued k ref.offset ref.length) = some ref := by
    rw [resolve, hr]
    rfl
  have hfn := h.find hf hres
  rw [lookup, he, bind_some] at hfn
  simp only [map_some, some.injEq, entry, isSome_map]
  rw [← hfn]
  rcases hg : (view s.pool).getSlot ref with _ | slot
  · rw [DataPool.getSlot_none.1 hg]
    rfl
  · obtain ⟨b, -, hb⟩ := DataPool.getSlot_find hg
    rw [hb]
    rfl

theorem Refines.congr (h : Refines view Ok s L A) (hv : view pool = view s.pool)
    (hok : Ok pool) : Refines view Ok { s with pool } L A where
  rep := by rw [hv]; exact h.rep
  ok := hok
  handles := h.handles
  own := h.own
  entries := h.entries
  slots := by rw [hv]; exact h.slots
  bound := by rw [hv]; exact h.bound

theorem Refines.retain (hT : T.Places view Ok) (h : Refines view Ok s L A) (hf : s.Fresh)
    (hs : s.step T env (.retain name) = some (s', o)) :
    (A.step (.retain name)).2 = o ∧ ∃ L', Refines view Ok s' L' (A.step (.retain name)).1 := by
  simp only [Side.step, bind_eq_bind, bind_eq_some_iff, Option.pure_def,
    some.injEq, Prod.mk.injEq] at hs
  obtain ⟨ref, hr, rfl, rfl⟩ := hs
  have hfn := h.find hf hr
  have hok := hT.retain_keeps s.pool ref h.ok
  have hvw := hT.retain s.pool ref
  simp only [RefPool.step, h.contract_find]
  rw [hT.retain_ok]
  rcases hl : lookup L name with _ | v
  · rw [hl] at hfn
    rw [DataPool.retain_of_find_none hfn] at hvw ⊢
    exact ⟨rfl, L, h.congr hvw hok⟩
  rw [hl] at hfn
  have hcn := DataPool.retain_of_find hfn
  simp only [map_some, Holding.buffer]
  by_cases hmax : v.owners = maxU32
  · rw [if_pos hmax] at hcn
    rw [hcn] at hvw ⊢
    rw [if_pos hmax]
    exact ⟨rfl, L, h.congr hvw hok⟩
  · rw [if_neg hmax] at hcn
    rw [if_neg hmax, hcn.1]
    refine ⟨rfl, h.alter hf hr (f := Holding.retain) (fun v => rfl) ?_ hok ?_⟩
    · have hrep := h.rep.retain ref
      rw [hcn.1, ← hvw] at hrep
      rw [if_pos (h.rep.mem_of_find hfn).1]
      exact hrep
    · rw [hvw, DataPool.retain_slots_length]

theorem Refines.release (hT : T.Places view Ok) (h : Refines view Ok s L A) (hf : s.Fresh)
    (hs : s.step T env (.release name) = some (s', o)) :
    (A.step (.release name)).2 = o ∧ ∃ L', Refines view Ok s' L' (A.step (.release name)).1 := by
  simp only [Side.step, bind_eq_bind, bind_eq_some_iff, Option.pure_def,
    some.injEq, Prod.mk.injEq] at hs
  obtain ⟨ref, hr, rfl, rfl⟩ := hs
  have hvw := hT.release s.pool ref
  refine ⟨rfl, h.alter hf hr (f := Holding.release) (fun v => v.buffer_release s.mem) ?_
    (hT.release_keeps s.pool ref h.ok) ?_⟩
  · rw [hvw]
    exact h.rep.release ref
  · rw [hvw, DataPool.release_slots_length]

/-- Bytes are written into one buffer and no other. -/
theorem Refines.store_call (hT : T.Places view Ok) (h : Refines view Ok s L A) (hf : s.Fresh)
    {data : List UInt8} (hs : s.step T env (.store name data) = some (s', o)) :
    (A.step (.store name data)).2 = o
      ∧ ∃ L', Refines view Ok s' L' (A.step (.store name data)).1 := by
  simp only [Side.step, bind_eq_bind, bind_eq_some_iff] at hs
  obtain ⟨ref, hr, hs⟩ := hs
  have hmap := h.map hf hr
  rw [hT.map] at hs
  simp only [RefPool.step, ← hmap]
  rcases hm : (view s.pool).map ref with _ | m
  · rw [hm] at hs
    simp only [Option.pure_def, some.injEq, Prod.mk.injEq] at hs
    obtain ⟨rfl, rfl⟩ := hs
    exact ⟨rfl, L, h⟩
  rw [hm] at hs
  simp only [map_some, MappedBuffer.slice_length]
  by_cases hlen : m.len = data.length
  · simp only [if_pos hlen, Option.pure_def, some.injEq, Prod.mk.injEq] at hs
    obtain ⟨rfl, rfl⟩ := hs
    rw [if_pos hlen]
    refine ⟨rfl, L, ?_⟩
    rw [DataPool.map_eq, h.find hf hr, bind_eq_some_iff] at hm
    obtain ⟨v, hv, hm⟩ := hm
    split_ifs at hm with hle
    obtain rfl := some.inj hm
    cases name with
    | issued k offset length =>
      simp only [resolve, map_eq_some_iff] at hr
      obtain ⟨r, -, rfl⟩ := hr
      exact h.store hv (hlen ▸ hle)
    | forged => simp [lookup] at hv
  · simp only [if_neg hlen, Option.pure_def, some.injEq, Prod.mk.injEq] at hs
    obtain ⟨rfl, rfl⟩ := hs
    rw [if_neg hlen]
    exact ⟨rfl, L, h⟩

/-- Every call has the outcome the contract gives, and the two go on together. -/
theorem Refines.step (hT : T.Places view Ok) (h : Refines view Ok s L A) (hf : s.Fresh)
    {call : PoolCall} (hs : s.step T env call = some (s', o)) :
    (A.step call).2 = o ∧ ∃ L', Refines view Ok s' L' (A.step call).1 := by
  cases call with
  | allocate len => exact h.allocate hT hs
  | map name =>
    simp only [Side.step, bind_eq_bind, bind_eq_some_iff, Option.pure_def,
      some.injEq, Prod.mk.injEq] at hs
    obtain ⟨ref, hr, rfl, rfl⟩ := hs
    rw [hT.map, h.map hf hr]
    exact ⟨rfl, L, h⟩
  | retain name => exact h.retain hT hf hs
  | release name => exact h.release hT hf hs
  | store name data => exact h.store_call hT hf hs

/-- References that were handed out stay known. -/
theorem step_refs {call : PoolCall} (hs : s.step T env call = some (s', o)) :
    s.refs <+: s'.refs := by
  cases call with
  | allocate len =>
    simp only [Side.step] at hs
    split_ifs at hs
    split at hs <;> simp only [some.injEq, Prod.mk.injEq] at hs <;> obtain ⟨rfl, -⟩ := hs
    · exact prefix_refl _
    · exact prefix_refl _
    · exact prefix_append _ _
  | map name =>
    simp only [Side.step, bind_eq_bind, bind_eq_some_iff, Option.pure_def,
      some.injEq, Prod.mk.injEq] at hs
    obtain ⟨ref, hr, rfl, -⟩ := hs
    exact prefix_refl _
  | retain name =>
    simp only [Side.step, bind_eq_bind, bind_eq_some_iff, Option.pure_def,
      some.injEq, Prod.mk.injEq] at hs
    obtain ⟨ref, hr, rfl, -⟩ := hs
    exact prefix_refl _
  | release name =>
    simp only [Side.step, bind_eq_bind, bind_eq_some_iff, Option.pure_def,
      some.injEq, Prod.mk.injEq] at hs
    obtain ⟨ref, hr, rfl, -⟩ := hs
    exact prefix_refl _
  | store name data =>
    simp only [Side.step, bind_eq_bind, bind_eq_some_iff] at hs
    obtain ⟨ref, hr, hs⟩ := hs
    split at hs
    · simp only [Option.pure_def, some.injEq, Prod.mk.injEq] at hs
      rw [← hs.1]
    · split_ifs at hs <;> simp only [Option.pure_def, some.injEq, Prod.mk.injEq] at hs <;>
        rw [← hs.1]

theorem fresh_of_length (h : s.refs.length ≤ 2 ^ 32 - 1) : s.Fresh := fun _ =>
  List.countP_le_length.trans h

theorem Fresh.of_prefix (hf : s'.Fresh) (h : s.refs <+: s'.refs) : s.Fresh := fun i =>
  (h.sublist.countP_le).trans (hf i)

end Side

end Cruller
