import Cruller.Lib.Run
import Cruller.Lib.Arena
import Cruller.Rt.Contract

/-!
# The heap-backed data plane

`DataPool` of `rt/direct.zig`: a growing array of slots, each with the bytes it holds, a
generation and a reference count. A reference names a slot and a generation. The slots are a
generational arena whose content is a block and its owners, so the arena's ledger says what the
pool is for: one entry for each reference ever handed out, live until it is released as often as
it was retained and once more.

The general-purpose allocator is outside the pool. Its contract is that a new block overlaps no
block that is still out, and `Allocator.live` lists those. A checked integer cast that fails ends
the program, so it ends the run.
-/

namespace Cruller

open List

/-- Memory that the allocator gave out. -/
structure Block where
  addr : ℕ
  len : ℕ
deriving DecidableEq, Repr

namespace Block

def Disjoint (a b : Block) : Prop :=
  min (a.addr + a.len) (b.addr + b.len) ≤ max a.addr b.addr

instance (a b : Block) : Decidable (a.Disjoint b) :=
  inferInstanceAs (Decidable (_ ≤ _))

theorem Disjoint.symm {a b : Block} (h : a.Disjoint b) : b.Disjoint a := by
  unfold Disjoint at h ⊢
  omega

theorem disjoint_iff {a b : Block} : a.Disjoint b ↔
    ∀ x, a.addr ≤ x → x < a.addr + a.len → ¬ (b.addr ≤ x ∧ x < b.addr + b.len) := by
  unfold Disjoint
  constructor
  · intro h x h1 h2
    omega
  · intro h
    have := h (max a.addr b.addr)
    omega

end Block

/-- What has been given out and not given back. -/
structure Allocator where
  live : List Block := []
deriving DecidableEq, Repr

namespace Allocator

/-- A block the allocator may hand out next. -/
def Fits (A : Allocator) (b : Block) : Prop :=
  ∀ c ∈ A.live, b.Disjoint c

instance (A : Allocator) (b : Block) : Decidable (A.Fits b) :=
  inferInstanceAs (Decidable (∀ c ∈ A.live, _))

def alloc (A : Allocator) (b : Block) : Allocator where
  live := b :: A.live

def free (A : Allocator) (b : Block) : Allocator where
  live := A.live.erase b

end Allocator

/-- `std.math.maxInt(u32)`. -/
def maxU32 : ℕ := 2 ^ 32 - 1

/-- `@intCast` to `u32`; `none` where the check fails. -/
def intCastU32 (n : ℕ) : Option UInt32 :=
  if n ≤ maxU32 then some (UInt32.ofNat n) else none

theorem intCastU32_of_le {n : ℕ} (h : n ≤ maxU32) :
    ∃ x, intCastU32 n = some x ∧ x.toNat = n := by
  refine ⟨_, if_pos h, ?_⟩
  rw [UInt32.toNat_ofNat']
  unfold maxU32 at h
  omega

/-- A place of the pool: what is in it, in which generation, and how many own it. -/
structure Slot where
  bytes : Option Block := none
  generation : UInt32 := 1
  refs : UInt32 := 0
deriving DecidableEq, Repr

/-- The slots of a pool; the free ones are found by looking for them. -/
structure DataPool where
  allocator : Allocator := {}
  slots : List Slot := []
deriving DecidableEq, Repr

/-- A reference is a handle to its slot. -/
def BufferRef.handle (ref : BufferRef) : Arena.Handle :=
  ⟨ref.bufferId.toNat, ref.generation⟩

namespace DataPool

def poolId : UInt32 := 1

def makeRef (index : ℕ) (generation : UInt32) (len : ℕ) : Option BufferRef := do
  let bufferId ← intCastU32 index
  let length ← intCastU32 len
  return { poolId := poolId, bufferId, generation, length }

/-- `addr` is the allocator's answer and `appendOk` whether the slot array can grow. The result is
the reference, or `none` for the C-level `false`. -/
def allocate (pool : DataPool) (len : ℕ) (addr : Option ℕ) (appendOk : Bool) :
    Option (DataPool × Option BufferRef) :=
  if len > maxU32 then some (pool, none)
  else match addr with
    | none => some (pool, none)
    | some addr =>
      let bytes : Block := ⟨addr, len⟩
      let allocator := pool.allocator.alloc bytes
      match pool.slots.zipIdx.find? fun (slot, _) => slot.bytes.isNone with
      | some (slot, index) => do
        let ref ← makeRef index slot.generation len
        let slots := pool.slots.set index { slot with bytes := some bytes, refs := 1 }
        return ({ allocator, slots }, some ref)
      | none =>
        if appendOk then do
          let ref ← makeRef pool.slots.length 1 len
          return ({ allocator, slots := pool.slots ++ [{ bytes := some bytes, refs := 1 }] }, some ref)
        else some ({ pool with allocator := allocator.free bytes }, none)

/-- The slot of a reference that is still valid. -/
def getSlot (pool : DataPool) (ref : BufferRef) : Option Slot :=
  if ref.poolId ≠ poolId then none
  else match pool.slots[ref.bufferId.toNat]? with
    | none => none
    | some slot => if slot.bytes.isNone ∨ slot.generation ≠ ref.generation then none else some slot

/-- The slot `getSlot` finds has bytes, so the inner match never falls through. -/
def map (pool : DataPool) (ref : BufferRef) : Option MappedBuffer :=
  match pool.getSlot ref with
  | none => none
  | some slot =>
    match slot.bytes with
    | none => none
    | some bytes =>
      if ref.offset.toNat > bytes.len ∨ ref.length.toNat > bytes.len - ref.offset.toNat then none
      else some ⟨bytes.addr + ref.offset.toNat, ref.length.toNat⟩

/-- One owner more, unless the count is full. -/
def retain (pool : DataPool) (ref : BufferRef) : DataPool × Bool :=
  match pool.getSlot ref with
  | none => (pool, false)
  | some slot =>
    if slot.refs.toNat = maxU32 then (pool, false)
    else ({ pool with slots := pool.slots.modify ref.bufferId.toNat fun slot =>
      { slot with refs := slot.refs + 1 } }, true)

/-- One owner less; the last one frees the block and begins a new generation. -/
def release (pool : DataPool) (ref : BufferRef) : DataPool :=
  match pool.getSlot ref with
  | none => pool
  | some slot =>
    if slot.refs = 0 then pool
    else if slot.refs - 1 ≠ 0 then
      { pool with slots := pool.slots.modify ref.bufferId.toNat fun slot =>
        { slot with refs := slot.refs - 1 } }
    else
      { allocator := slot.bytes.elim pool.allocator pool.allocator.free
        slots := pool.slots.modify ref.bufferId.toNat fun slot =>
          { bytes := none, generation := Arena.bump slot.generation, refs := slot.refs - 1 } }

end DataPool

/-- What is behind a live reference: the block and how many owners it has. -/
structure Holding where
  block : Block
  owners : ℕ
deriving DecidableEq, Repr

/-- A slot, as a cell of the arena. -/
def Slot.cell (slot : Slot) : Arena.Cell Holding :=
  ⟨slot.bytes.map (⟨·, slot.refs.toNat⟩), slot.generation⟩

def Slot.cells (slots : List Slot) : List (Arena.Cell Holding) :=
  slots.map Slot.cell

namespace Holding

def retain (v : Holding) : Option Holding :=
  some { v with owners := v.owners + 1 }

/-- The last owner's release leaves nothing behind. -/
def release (v : Holding) : Option Holding :=
  if v.owners = 1 then none else some { v with owners := v.owners - 1 }

end Holding

theorem Slot.cells_length (slots : List Slot) : (cells slots).length = slots.length :=
  length_map _

theorem Slot.cells_getElem? (slots : List Slot) (i : ℕ) :
    (cells slots)[i]? = slots[i]?.map Slot.cell :=
  getElem?_map

variable {slots : List Slot} {i : ℕ} {slot : Slot}

theorem Slot.lookup_cells {h : Arena.Handle} {v : Holding} :
    Arena.lookup (cells slots) h = some v ↔ ∃ slot, slots[h.index]? = some slot
      ∧ slot.generation = h.generation ∧ slot.bytes = some v.block ∧ slot.refs.toNat = v.owners := by
  rw [Arena.lookup_eq_some, cells_getElem?, Option.map_eq_some_iff]
  refine exists_congr fun slot => and_congr_right fun _ => ?_
  rcases slot with ⟨bytes, generation, refs⟩
  rcases v with ⟨block, owners⟩
  rcases bytes with _ | b <;> simp [cell, and_comm]

theorem Slot.cells_retain (hs : slots[i]? = some slot)
    (hb : slot.bytes.isSome) (hr : slot.refs.toNat ≠ maxU32) :
    cells (slots.modify i fun slot => { slot with refs := slot.refs + 1 }) =
      (cells slots).modify i (Arena.Cell.alter Holding.retain) := by
  refine Arena.map_modify fun x hx => ?_
  obtain rfl : slot = x := by rw [hs] at hx; exact Option.some.inj hx
  obtain ⟨b, hb⟩ := Option.isSome_iff_exists.1 hb
  have hlt := slot.refs.toNat_lt
  have hadd : (slot.refs + 1).toNat = slot.refs.toNat + 1 := by
    rw [UInt32.toNat_add, show (1 : UInt32).toNat = 1 from rfl]
    unfold maxU32 at hr
    omega
  simp [cell, Arena.Cell.alter, Holding.retain, hb, hadd]

theorem UInt32.toNat_pred {x : UInt32} (h : x ≠ 0) : (x - 1).toNat = x.toNat - 1 := by
  have hx : x.toNat ≠ 0 := fun h0 => h (by rw [← UInt32.toNat_inj, h0]; rfl)
  have hlt := x.toNat_lt
  rw [UInt32.toNat_sub, show (1 : UInt32).toNat = 1 from rfl]
  omega

theorem Slot.cells_release (hs : slots[i]? = some slot)
    (hb : slot.bytes.isSome) (hr : slot.refs ≠ 0) (h1 : slot.refs - 1 ≠ 0) :
    cells (slots.modify i fun slot => { slot with refs := slot.refs - 1 }) =
      (cells slots).modify i (Arena.Cell.alter Holding.release) := by
  refine Arena.map_modify fun x hx => ?_
  obtain rfl : slot = x := by rw [hs] at hx; exact Option.some.inj hx
  obtain ⟨b, hb⟩ := Option.isSome_iff_exists.1 hb
  have hpr := UInt32.toNat_pred hr
  have hone : slot.refs.toNat ≠ 1 := fun h => h1 (by
    rw [← UInt32.toNat_inj, hpr, h]
    rfl)
  simp [cell, Arena.Cell.alter, Holding.release, hb, hone, hpr]

theorem Slot.cells_release_last
    (hs : slots[i]? = some slot) (hb : slot.bytes.isSome) (hr : slot.refs ≠ 0)
    (h1 : slot.refs - 1 = 0) :
    cells (slots.modify i fun slot =>
        { bytes := none, generation := Arena.bump slot.generation, refs := slot.refs - 1 }) =
      (cells slots).modify i (Arena.Cell.alter Holding.release) := by
  refine Arena.map_modify fun x hx => ?_
  obtain rfl : slot = x := by rw [hs] at hx; exact Option.some.inj hx
  obtain ⟨b, hb⟩ := Option.isSome_iff_exists.1 hb
  have hpr := UInt32.toNat_pred hr
  have hpos : slot.refs.toNat ≠ 0 := fun h0 => hr (by rw [← UInt32.toNat_inj, h0]; rfl)
  have hone : slot.refs.toNat = 1 := by
    rw [h1, show (0 : UInt32).toNat = 0 from rfl] at hpr
    omega
  simp [cell, Arena.Cell.alter, Holding.release, hb, hone]

/-- One call on a pool; an allocation comes with the allocator's answers. -/
inductive PoolOp where
  | allocate (len : ℕ) (addr : Option ℕ) (appendOk : Bool)
  | map (ref : BufferRef)
  | retain (ref : BufferRef)
  | release (ref : BufferRef)
deriving DecidableEq, Repr

/-- What a call of the pool did. -/
inductive PoolEvent where
  | allocated (ref : BufferRef) (block : Block)
  | refused
  | mapped (ref : BufferRef) (result : Option MappedBuffer)
  | retained (ref : BufferRef) (ok : Bool)
  | released (ref : BufferRef)
deriving DecidableEq, Repr

/-- An allocation issues a reference with one owner, a successful retain adds one, and a release
of a reference of this pool gives one back. -/
def PoolEvent.record (L : Arena.Ledger Holding) : PoolEvent → Arena.Ledger Holding
  | .allocated ref block => L.issue ref.handle ⟨block, 1⟩
  | .retained ref true => L.alter ref.handle Holding.retain
  | .released ref => if ref.poolId = DataPool.poolId then L.alter ref.handle Holding.release else L
  | _ => L

/-- What the events of a run say that the pool has issued. -/
def poolLedger (es : List PoolEvent) : Arena.Ledger Holding :=
  es.foldl PoolEvent.record []

/-- The allocated block of an event, when the call got a reference. -/
def PoolEvent.ofAllocate (len : ℕ) : Option ℕ → Option BufferRef → PoolEvent
  | some addr, some ref => .allocated ref ⟨addr, len⟩
  | _, _ => .refused

namespace DataPool

/-- A call under the mutex. The allocator keeps its contract, and a failed cast stops the run. -/
def step (pool : DataPool) : PoolOp → Option (DataPool × PoolEvent)
  | .allocate len addr appendOk =>
    if ∀ a ∈ addr, pool.allocator.Fits ⟨a, len⟩ then do
      let (pool', ref) ← pool.allocate len addr appendOk
      return (pool', .ofAllocate len addr ref)
    else none
  | .map ref => some (pool, .mapped ref (pool.map ref))
  | .retain ref =>
    let (pool', ok) := pool.retain ref
    some (pool', .retained ref ok)
  | .release ref => some (pool.release ref, .released ref)

/-- What a reference stands for. -/
def find (pool : DataPool) (ref : BufferRef) : Option Holding :=
  if ref.poolId = poolId then Arena.lookup (Slot.cells pool.slots) ref.handle else none

variable {pool : DataPool} {ref : BufferRef} {slot : Slot}

theorem getSlot_eq_some :
    pool.getSlot ref = some slot ↔ ref.poolId = poolId
      ∧ pool.slots[ref.handle.index]? = some slot ∧ slot.bytes.isSome
      ∧ slot.generation = ref.generation := by
  unfold getSlot
  by_cases hp : ref.poolId = poolId
  · rw [if_neg (not_not.2 hp)]
    simp only [hp, true_and, BufferRef.handle]
    split
    · rename_i hs
      simp [hs]
    · rename_i s hs
      rw [hs]
      rcases s with ⟨bytes, generation, refs⟩
      rcases bytes with _ | b
      · simp only [Option.isNone_none, true_or, if_true, reduceCtorEq, false_iff,
          Option.some.injEq, not_and]
        rintro rfl
        simp
      · by_cases hg : generation = ref.generation
        · simp only [Option.isNone_some, Bool.false_eq_true, hg, ne_eq, not_true_eq_false,
            or_self, if_false, Option.some.injEq]
          constructor
          · rintro rfl
            simp
          · exact fun h => h.1
        · simp only [Option.isNone_some, Bool.false_eq_true, ne_eq, hg, not_false_eq_true,
            or_true, if_true, reduceCtorEq, Option.some.injEq, false_iff, not_and]
          rintro rfl
          simpa using hg
  · simp [hp]

theorem getSlot_find
    (h : pool.getSlot ref = some slot) :
    ∃ b, slot.bytes = some b ∧ pool.find ref = some ⟨b, slot.refs.toNat⟩ := by
  obtain ⟨hp, hs, hb, hg⟩ := getSlot_eq_some.1 h
  obtain ⟨b, hb⟩ := Option.isSome_iff_exists.1 hb
  refine ⟨b, hb, ?_⟩
  rw [find, if_pos hp]
  exact Slot.lookup_cells.2 ⟨slot, hs, hg, hb, rfl⟩

theorem getSlot_none :
    pool.getSlot ref = none ↔ pool.find ref = none := by
  constructor
  · intro h
    unfold find
    split_ifs with hp
    · rcases hl : Arena.lookup (Slot.cells pool.slots) ref.handle with _ | v
      · rfl
      obtain ⟨slot, hs, hg, hb, -⟩ := Slot.lookup_cells.1 hl
      have := getSlot_eq_some.2 ⟨hp, hs, by rw [hb]; rfl, hg⟩
      rw [h] at this
      simp at this
    · rfl
  · intro h
    rcases hs : pool.getSlot ref with _ | slot
    · rfl
    obtain ⟨b, -, hf⟩ := getSlot_find hs
    rw [h] at hf
    simp at hf

theorem map_eq (pool : DataPool) (ref : BufferRef) :
    pool.map ref = (pool.find ref).bind fun v =>
      if ref.offset.toNat + ref.length.toNat ≤ v.block.len then
        some ⟨v.block.addr + ref.offset.toNat, ref.length.toNat⟩ else none := by
  unfold map
  split
  · rename_i h
    rw [getSlot_none.1 h]
    rfl
  · rename_i slot h
    obtain ⟨b, hb, hf⟩ := getSlot_find h
    rw [hf, hb]
    simp only [Option.bind_some]
    by_cases hle : ref.offset.toNat + ref.length.toNat ≤ b.len
    · rw [if_pos hle, if_neg (by omega)]
    · rw [if_neg hle, if_pos (by omega)]

theorem intCastU32_eq_some {n : ℕ} {x : UInt32} (h : intCastU32 n = some x) :
    x.toNat = n ∧ n ≤ maxU32 := by
  unfold intCastU32 at h
  split_ifs at h with hn
  obtain rfl := Option.some.inj h
  refine ⟨?_, hn⟩
  rw [UInt32.toNat_ofNat']
  unfold maxU32 at hn
  omega

theorem makeRef_eq_some {index len : ℕ} {generation : UInt32}
    (h : makeRef index generation len = some ref) :
    ref.poolId = poolId ∧ ref.handle = ⟨index, generation⟩ ∧ ref.offset = 0
      ∧ ref.length.toNat = len := by
  simp only [makeRef, Option.bind_eq_bind, Option.bind_eq_some_iff, Option.pure_def,
    Option.some.injEq] at h
  obtain ⟨bufferId, hb, length, hl, rfl⟩ := h
  exact ⟨rfl, by rw [BufferRef.handle, (intCastU32_eq_some hb).1], rfl, (intCastU32_eq_some hl).1⟩

theorem alloc_free (A : Allocator) (b : Block) : (A.alloc b).free b = A := by
  simp [Allocator.alloc, Allocator.free]

/-- The block sits in an empty slot of the pool, or in a new one when none is empty, under the
reference to the whole of it. -/
structure Placed (pool pool' : DataPool) (b : Block) (ref : BufferRef) : Prop where
  poolId : ref.poolId = poolId
  offset : ref.offset = 0
  length : ref.length.toNat = b.len
  allocator : pool'.allocator = pool.allocator.alloc b
  slots : (∃ i slot, pool.slots[i]? = some slot ∧ slot.bytes = none
      ∧ ref.handle = ⟨i, slot.generation⟩
      ∧ pool'.slots = pool.slots.set i { slot with bytes := some b, refs := 1 })
    ∨ ((∀ slot ∈ pool.slots, slot.bytes.isSome) ∧ ref.handle = ⟨pool.slots.length, 1⟩
      ∧ pool'.slots = pool.slots ++ [{ bytes := some b, refs := 1 }])

theorem find_empty {slots : List Slot} {i : ℕ}
    (h : slots.zipIdx.find? (fun (slot, _) => slot.bytes.isNone) = some (slot, i)) :
    slots[i]? = some slot ∧ slot.bytes = none :=
  ⟨mem_zipIdx_iff_getElem?.1 (mem_of_find?_eq_some h), by simpa using find?_some h⟩

theorem find_empty_none {slots : List Slot}
    (h : slots.zipIdx.find? (fun (slot, _) => slot.bytes.isNone) = none) :
    ∀ slot ∈ slots, slot.bytes.isSome := by
  intro slot hs
  obtain ⟨i, hi⟩ := mem_iff_getElem?.1 hs
  have hf := find?_eq_none.1 h (slot, i) (mem_zipIdx_iff_getElem?.2 hi)
  simpa [Option.isSome_iff_ne_none] using hf

theorem placed_fill {b : Block} {i : ℕ}
    (hi : pool.slots[i]? = some slot) (hn : slot.bytes = none)
    (hm : makeRef i slot.generation b.len = some ref) :
    Placed pool ⟨pool.allocator.alloc b,
      pool.slots.set i { slot with bytes := some b, refs := 1 }⟩ b ref := by
  obtain ⟨hp, hh, ho, hl⟩ := makeRef_eq_some hm
  exact ⟨hp, ho, hl, rfl, Or.inl ⟨i, slot, hi, hn, hh, rfl⟩⟩

theorem placed_append {b : Block}
    (hf : ∀ slot ∈ pool.slots, slot.bytes.isSome)
    (hm : makeRef pool.slots.length 1 b.len = some ref) :
    Placed pool ⟨pool.allocator.alloc b, pool.slots ++ [{ bytes := some b, refs := 1 }]⟩ b ref := by
  obtain ⟨hp, hh, ho, hl⟩ := makeRef_eq_some hm
  exact ⟨hp, ho, hl, rfl, Or.inr ⟨hf, hh, rfl⟩⟩

theorem allocate_cases {pool' : DataPool} {len : ℕ} {addr : Option ℕ} {appendOk : Bool}
    {r : Option BufferRef} (h : pool.allocate len addr appendOk = some (pool', r)) :
    (r = none ∧ pool' = pool)
      ∨ ∃ a ref, addr = some a ∧ r = some ref ∧ Placed pool pool' ⟨a, len⟩ ref := by
  unfold allocate at h
  by_cases hlen : len > maxU32
  · rw [if_pos hlen, Option.some.injEq, Prod.mk.injEq] at h
    exact Or.inl ⟨h.2.symm, h.1.symm⟩
  rw [if_neg hlen] at h
  rcases addr with _ | a
  · simp only [Option.some.injEq, Prod.mk.injEq] at h
    exact Or.inl ⟨h.2.symm, h.1.symm⟩
  simp only at h
  split at h
  · rename_i slot i hfn
    simp only [Option.bind_eq_bind, Option.bind_eq_some_iff, Option.pure_def, Option.some.injEq,
      Prod.mk.injEq] at h
    obtain ⟨ref, hm, rfl, rfl⟩ := h
    obtain ⟨hi, hn⟩ := find_empty hfn
    exact Or.inr ⟨a, ref, rfl, rfl, placed_fill (b := ⟨a, len⟩) hi hn hm⟩
  · rename_i hfn
    split_ifs at h with ha
    · simp only [Option.bind_eq_bind, Option.bind_eq_some_iff, Option.pure_def, Option.some.injEq,
        Prod.mk.injEq] at h
      obtain ⟨ref, hm, rfl, rfl⟩ := h
      exact Or.inr ⟨a, ref, rfl, rfl, placed_append (b := ⟨a, len⟩) (find_empty_none hfn) hm⟩
    · simp only [Option.some.injEq, Prod.mk.injEq] at h
      refine Or.inl ⟨h.2.symm, ?_⟩
      rw [← h.1, alloc_free]

end DataPool

end Cruller
