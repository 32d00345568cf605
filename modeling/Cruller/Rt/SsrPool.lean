import Cruller.Rt.RefPool

/-!
# The free-list pool

`Pool` of `rt/ssr_run.zig` keeps the empty slots' indices in a list and takes the last one put
there, where `DataPool` scans for the first empty slot. The list holds exactly the empty slots and
each once (`SsrPool.FreeOk`), so both pools place their blocks as the contract of `RefPool` needs,
and a run of calls on the two has the same outcomes (`ssrPool_agrees`). Without a bound on how
often a slot is handed out this fails, because the two reuse slots in different orders and their
generations come round at different times (`ssrPool_disagrees`).
-/

namespace Cruller

open List Option

/-- A pool with a list of the free slots. -/
structure SsrPool where
  allocator : Allocator := {}
  slots : List Slot := []
  free : List UInt32 := []
deriving DecidableEq, Repr

namespace SsrPool

/-- The pool without its free list; the functions that do not touch the list are `DataPool`'s. -/
def plain (pool : SsrPool) : DataPool where
  allocator := pool.allocator
  slots := pool.slots

/-- An index in the free list past the slots would trap on the bounds check. -/
def allocate (pool : SsrPool) (len : ℕ) (addr : Option ℕ) (appendOk : Bool) :
    Option (SsrPool × Option BufferRef) :=
  if len > maxU32 then some (pool, none)
  else match addr with
    | none => some (pool, none)
    | some addr =>
      let bytes : Block := ⟨addr, len⟩
      let allocator := pool.allocator.alloc bytes
      match pool.free.getLast? with
      | some index => do
        let slot ← pool.slots[index.toNat]?
        let length ← intCastU32 len
        let slots := pool.slots.set index.toNat { slot with bytes := some bytes, refs := 1 }
        let generation := slot.generation
        return (⟨allocator, slots, pool.free.dropLast⟩,
          some { poolId := DataPool.poolId, bufferId := index, generation, length })
      | none =>
        if appendOk then do
          let ref ← DataPool.makeRef pool.slots.length 1 len
          return (⟨allocator, pool.slots ++ [{ bytes := some bytes, refs := 1 }], pool.free⟩,
            some ref)
        else some ({ pool with allocator := allocator.free bytes }, none)

/-- As in the data pool. -/
def getSlot (pool : SsrPool) (ref : BufferRef) : Option Slot :=
  pool.plain.getSlot ref

def map (pool : SsrPool) (ref : BufferRef) : Option MappedBuffer :=
  pool.plain.map ref

/-- One owner more of a reference that the pool knows. -/
def retain (pool : SsrPool) (ref : BufferRef) : SsrPool × Bool :=
  match pool.getSlot ref with
  | none => (pool, false)
  | some slot =>
    if slot.refs.toNat = maxU32 then (pool, false)
    else ({ pool with slots := pool.slots.modify ref.bufferId.toNat fun slot =>
      { slot with refs := slot.refs + 1 } }, true)

/-- `appendOk` is whether the free list can grow. -/
def release (pool : SsrPool) (ref : BufferRef) (appendOk : Bool) : SsrPool :=
  match pool.getSlot ref with
  | none => pool
  | some slot =>
    if slot.refs = 0 then pool
    else if slot.refs - 1 ≠ 0 then
      { pool with slots := pool.slots.modify ref.bufferId.toNat fun slot =>
        { slot with refs := slot.refs - 1 } }
    else
      { allocator := slot.bytes.elim pool.allocator pool.allocator.free
        slots := pool.slots.modify ref.bufferId.toNat fun slot =>
          { bytes := none, generation := Arena.bump slot.generation, refs := slot.refs - 1 }
        free := if appendOk then pool.free ++ [ref.bufferId] else pool.free }

/-- The free list holds the index of each empty slot once, and no other. -/
structure FreeOk (pool : SsrPool) : Prop where
  nodup : pool.free.Nodup
  mem_iff : ∀ i : ℕ, (∃ x ∈ pool.free, x.toNat = i) ↔
    ∃ slot, pool.slots[i]? = some slot ∧ slot.bytes = none

end SsrPool

/-- `DataPool.transport`, with memory that never runs out. -/
def DataPool.transport : DataTransport DataPool where
  heap pool := pool.allocator
  allocate pool len addr := pool.allocate len (some addr) true
  map := DataPool.map
  retain := DataPool.retain
  release := DataPool.release

/-- `Pool.transport`, with memory that never runs out. -/
def SsrPool.transport : DataTransport SsrPool where
  heap pool := pool.allocator
  allocate pool len addr := pool.allocate len (some addr) true
  map := SsrPool.map
  retain := SsrPool.retain
  release pool ref := pool.release ref true

theorem DataPool.makeRef_of_le {index len : ℕ} (generation : UInt32) (hi : index ≤ maxU32)
    (hl : len ≤ maxU32) : ∃ ref, makeRef index generation len = some ref := by
  obtain ⟨x, hx, -⟩ := intCastU32_of_le hi
  obtain ⟨y, hy, -⟩ := intCastU32_of_le hl
  exact ⟨_, by rw [makeRef, hx, hy]; rfl⟩

theorem DataPool.makeRef_of_lt {index len : ℕ} (generation : UInt32) (hi : maxU32 < index) :
    makeRef index generation len = none := by
  rw [makeRef, intCastU32, if_neg (not_le.2 hi)]
  rfl

/-- The data pool places blocks as itself. -/
theorem DataPool.transport_places :
    DataPool.transport.Places id fun _ => True where
  heap _ := rfl
  map _ _ := rfl
  retain _ _ := rfl
  retain_ok _ _ := rfl
  release _ _ := rfl
  retain_keeps _ _ _ := trivial
  release_keeps _ _ _ := trivial
  long p len addr h := if_pos h
  place := by
    intro p len addr _ hb hlen hrm
    simp only [id_eq] at hb hrm
    have hln : ¬ len > maxU32 := not_lt.2 hlen
    simp only [transport, allocate, if_neg hln]
    rcases hfn : p.slots.zipIdx.find? fun x => x.1.bytes.isNone with _ | ⟨slot, i⟩
    · have hfl := find_empty_none hfn
      have hle : p.slots.length ≤ maxU32 := hrm.resolve_left fun ⟨slot, hm, hn⟩ => by
        have := hfl slot hm
        rw [hn] at this
        simp at this
      obtain ⟨ref, href⟩ := makeRef_of_le 1 hle hlen
      refine ⟨_, ref, by simp [hfn, href]; rfl, ?_, trivial⟩
      exact placed_append (b := ⟨addr, len⟩) hfl href
    · obtain ⟨hi, hn⟩ := find_empty hfn
      have hilt := (List.getElem?_eq_some_iff.1 hi).1
      have hile : i ≤ maxU32 := by
        unfold maxU32
        omega
      obtain ⟨ref, href⟩ := makeRef_of_le slot.generation hile hlen
      refine ⟨_, ref, by simp [hfn, href]; rfl, ?_, trivial⟩
      exact placed_fill (b := ⟨addr, len⟩) hi hn href
  full := by
    intro p len addr _ hlen hfl hlt
    simp only [id_eq] at hfl hlt
    have hln : ¬ len > maxU32 := not_lt.2 hlen
    simp only [transport, allocate, if_neg hln]
    rcases hfn : p.slots.zipIdx.find? fun x => x.1.bytes.isNone with _ | ⟨slot, i⟩
    · simp [hfn, makeRef_of_lt 1 hlt]
    · obtain ⟨hi, hn⟩ := find_empty hfn
      have := hfl slot (mem_of_getElem? hi)
      rw [hn] at this
      simp at this

namespace SsrPool

theorem freeOk_init : FreeOk {} where
  nodup := nodup_nil
  mem_iff := by simp

section

variable {pool pool' : SsrPool} {ref : BufferRef}

theorem FreeOk.congr (h : FreeOk pool) (hf : pool'.free = pool.free)
    (hb : pool'.slots.map (·.bytes) = pool.slots.map (·.bytes)) : FreeOk pool' where
  nodup := by rw [hf]; exact h.nodup
  mem_iff := by
    intro i
    have hi := congrArg (·[i]?) hb
    simp only [getElem?_map] at hi
    rw [hf, h.mem_iff i]
    rcases h1 : pool.slots[i]? with _ | s <;> rcases h2 : pool'.slots[i]? with _ | s' <;>
      rw [h1, h2] at hi <;> simp at hi ⊢
    rw [hi]

theorem map_bytes_modify (slots : List Slot) (i : ℕ) {f : Slot → Slot}
    (hf : ∀ slot, (f slot).bytes = slot.bytes) :
    (slots.modify i f).map (·.bytes) = slots.map (·.bytes) := by
  rw [show (slots.modify i f).map (·.bytes) = (slots.map (·.bytes)).modify i id from
    Arena.map_modify fun slot _ => hf slot, modify_id]

theorem retain_plain (pool : SsrPool) (ref : BufferRef) :
    (pool.retain ref).1.plain = (pool.plain.retain ref).1 := by
  unfold retain DataPool.retain getSlot
  rcases hg : pool.plain.getSlot ref with _ | slot
  · rfl
  · simp only
    split_ifs <;> rfl

theorem retain_ok (pool : SsrPool) (ref : BufferRef) :
    (pool.retain ref).2 = (pool.plain.retain ref).2 := by
  unfold retain DataPool.retain getSlot
  rcases hg : pool.plain.getSlot ref with _ | slot
  · rfl
  · simp only
    split_ifs <;> rfl

theorem FreeOk.retain (h : FreeOk pool) (ref : BufferRef) : FreeOk (pool.retain ref).1 := by
  unfold SsrPool.retain
  split
  · exact h
  · split_ifs
    · exact h
    · exact h.congr rfl (map_bytes_modify _ _ fun _ => rfl)

theorem release_plain (pool : SsrPool) (ref : BufferRef) (appendOk : Bool) :
    (pool.release ref appendOk).plain = pool.plain.release ref := by
  unfold release DataPool.release getSlot
  rcases hg : pool.plain.getSlot ref with _ | slot
  · rfl
  · simp only
    split_ifs <;> rfl

variable {x : UInt32}

theorem FreeOk.mem (h : FreeOk pool) (hx : x ∈ pool.free) :
    ∃ slot, pool.slots[x.toNat]? = some slot ∧ slot.bytes = none :=
  (h.mem_iff x.toNat).1 ⟨x, hx, rfl⟩

theorem FreeOk.not_mem (h : FreeOk pool) {slot : Slot}
    (hs : pool.slots[x.toNat]? = some slot) (hb : slot.bytes.isSome) : x ∉ pool.free := by
  intro hx
  obtain ⟨slot', hs', hn⟩ := h.mem hx
  rw [hs, some.injEq] at hs'
  rw [hs', hn] at hb
  simp at hb

/-- The last owner's release puts the slot on the free list. -/
theorem FreeOk.release (h : FreeOk pool) (ref : BufferRef) : FreeOk (pool.release ref true) := by
  unfold SsrPool.release
  simp only [reduceIte]
  split
  · exact h
  rename_i slot hg
  obtain ⟨-, hs, hb, -⟩ := DataPool.getSlot_eq_some.1 hg
  have hnew := h.not_mem hs hb
  split_ifs
  · exact h
  · exact h.congr rfl (map_bytes_modify _ _ fun _ => rfl)
  · refine ⟨?_, fun i => ?_⟩
    · exact nodup_append.2 ⟨h.nodup, nodup_singleton _, fun x hx y hy => by
        rw [mem_singleton.1 hy]
        rintro rfl
        exact hnew hx⟩
    · simp only [mem_append, mem_singleton]
      by_cases hi : ref.bufferId.toNat = i
      · subst hi
        constructor
        · intro _
          have hs' : pool.slots[ref.bufferId.toNat]? = some slot := hs
          rw [getElem?_modify_eq, hs']
          exact ⟨_, rfl, rfl⟩
        · simp
      · rw [getElem?_modify_ne _ _ hi, ← h.mem_iff i]
        constructor
        · rintro ⟨x, hx | rfl, hxi⟩
          · exact ⟨x, hx, hxi⟩
          · exact absurd hxi hi
        · rintro ⟨x, hx, hxi⟩
          exact ⟨x, Or.inl hx, hxi⟩

theorem FreeOk.pop (h : FreeOk pool) (hx : pool.free.getLast? = some x)
    {slot : Slot} (hb : slot.bytes.isSome) (allocator : Allocator) :
    FreeOk ⟨allocator, pool.slots.set x.toNat slot, pool.free.dropLast⟩ := by
  have hsp := List.dropLast_append_getLast? x hx
  have hnd := h.nodup
  rw [← hsp, nodup_append] at hnd
  obtain ⟨hnd, -, hnew⟩ := hnd
  refine ⟨hnd, fun i => ?_⟩
  have hold := h.mem_iff i
  rw [← hsp] at hold
  simp only [mem_append, mem_singleton] at hold
  by_cases hi : x.toNat = i
  · subst hi
    constructor
    · rintro ⟨y, hy, hyx⟩
      exact absurd (UInt32.toNat_inj.1 hyx) (hnew y hy x (mem_singleton.2 rfl))
    · rintro ⟨s, hs, hn⟩
      rw [getElem?_set_self', Option.map_eq_map, map_eq_some_iff] at hs
      obtain ⟨s', -, hs⟩ := hs
      rw [← hs, Function.const_apply] at hn
      rw [hn] at hb
      simp at hb
  · simp only [getElem?_set_ne hi]
    rw [← hold]
    constructor
    · rintro ⟨y, hy, hyi⟩
      exact ⟨y, Or.inl hy, hyi⟩
    · rintro ⟨y, hy | rfl, hyi⟩
      · exact ⟨y, hy, hyi⟩
      · exact absurd hyi hi

theorem FreeOk.append (h : FreeOk pool) {slot : Slot} (hb : slot.bytes.isSome)
    (allocator : Allocator) : FreeOk ⟨allocator, pool.slots ++ [slot], pool.free⟩ := by
  refine ⟨h.nodup, fun i => ?_⟩
  rw [h.mem_iff i]
  rcases lt_trichotomy i pool.slots.length with hi | rfl | hi
  · simp only [getElem?_append_left hi]
  · simp only [getElem?_eq_none le_rfl, getElem?_concat_length]
    constructor
    · rintro ⟨s, hs, -⟩
      simp at hs
    · rintro ⟨s, hs, hn⟩
      rw [← some.inj hs] at hn
      rw [hn] at hb
      simp at hb
  · rw [getElem?_eq_none hi.le, getElem?_eq_none (by simp; omega)]

theorem FreeOk.full_iff (h : FreeOk pool) :
    pool.free = [] ↔ ∀ slot ∈ pool.slots, slot.bytes.isSome := by
  constructor
  · intro hf slot hm
    obtain ⟨i, hi⟩ := mem_iff_getElem?.1 hm
    rcases hb : slot.bytes with _ | b
    · obtain ⟨x, hx, -⟩ := (h.mem_iff i).2 ⟨slot, hi, hb⟩
      rw [hf] at hx
      simp at hx
    · rfl
  · intro hall
    rw [eq_nil_iff_forall_not_mem]
    intro x hx
    obtain ⟨slot, hs, hn⟩ := h.mem hx
    have := hall slot (mem_of_getElem? hs)
    rw [hn] at this
    simp at this

end

/-- The SSR pool places blocks as the data pool does, by its own free list. -/
theorem transport_places : SsrPool.transport.Places plain FreeOk where
  heap _ := rfl
  map _ _ := rfl
  retain := retain_plain
  retain_ok := retain_ok
  release p ref := release_plain p ref true
  retain_keeps _ ref h := h.retain ref
  release_keeps _ ref h := h.release ref
  long p len addr h := if_pos h
  place := by
    intro p len addr h hb hlen hrm
    have hln : ¬ len > maxU32 := not_lt.2 hlen
    simp only [transport, allocate, if_neg hln]
    rcases hls : p.free.getLast? with _ | x
    · have hfl := h.full_iff.1 (getLast?_eq_none_iff.1 hls)
      have hle : p.slots.length ≤ maxU32 := hrm.resolve_left fun ⟨slot, hm, hn⟩ => by
        have := hfl slot hm
        rw [hn] at this
        simp at this
      obtain ⟨ref, href⟩ := DataPool.makeRef_of_le 1 hle hlen
      refine ⟨_, ref, by simp only [href, if_true]; rfl, ?_, h.append rfl _⟩
      exact DataPool.placed_append (b := ⟨addr, len⟩) hfl href
    · obtain ⟨slot, hs, hn⟩ := h.mem (mem_of_getLast? hls)
      obtain ⟨l, hl, hl'⟩ := intCastU32_of_le hlen
      refine ⟨_, _, by simp only [hs, hl, bind_eq_bind, bind_some]; rfl, ?_, h.pop hls rfl _⟩
      exact ⟨rfl, rfl, hl', rfl, Or.inl ⟨x.toNat, slot, hs, hn, rfl, rfl⟩⟩
  full := by
    intro p len addr h hlen hfl hlt
    have hln : ¬ len > maxU32 := not_lt.2 hlen
    have hm : DataPool.makeRef p.slots.length 1 len = none := DataPool.makeRef_of_lt 1 hlt
    simp only [transport, allocate, if_neg hln, h.full_iff.2 hfl, getLast?_nil]
    simp [hm]

end SsrPool

/-- A call made on both pools, each with its own address for a new block and its own forged
reference. -/
structure PairCall where
  call : PoolCall
  plain : Env := {}
  ssr : Env := {}
deriving DecidableEq, Repr

/-- The two pools, side by side. -/
abbrev Pair := Side DataPool × Side SsrPool

def Pair.init : Pair := ({ pool := {} }, { pool := {} })

/-- One call, made to both. -/
def Pair.step (s : Pair) (c : PairCall) : Option (Pair × Outcome × Outcome) := do
  let (a, o) ← s.1.step DataPool.transport c.plain c.call
  let (b, o') ← s.2.step SsrPool.transport c.ssr c.call
  return ((a, b), o, o')

namespace Pair

/-- Both pools refine one state of the contract. -/
def Refines (s : Pair) : Prop :=
  ∃ A L L', s.1.Refines id (fun _ => True) L A ∧ s.2.Refines SsrPool.plain SsrPool.FreeOk L' A

theorem refines_init : Refines init :=
  ⟨{}, [], [], ⟨DataPool.rep_init, trivial, rfl, by simp [init], rfl, rfl, by simp [init]⟩,
    ⟨DataPool.rep_init, SsrPool.freeOk_init, rfl, by simp [init], rfl, rfl,
      by simp [init, SsrPool.plain]⟩⟩

variable {s : Pair}

theorem step_cases {s' : Pair} {c : PairCall} {o : Outcome × Outcome}
    (h : s.step c = some (s', o)) :
    s.1.step DataPool.transport c.plain c.call = some (s'.1, o.1)
      ∧ s.2.step SsrPool.transport c.ssr c.call = some (s'.2, o.2) := by
  simp only [step, bind_eq_bind, bind_eq_some_iff, Option.pure_def,
    some.injEq, Prod.exists] at h
  obtain ⟨a, oa, ha, b, ob, hb, h⟩ := h
  rw [Prod.mk.injEq] at h
  rw [← h.1, ← h.2]
  exact ⟨ha, hb⟩

/-- A call does the same to both pools, as long as no generation comes round. -/
theorem Refines.step {s' : Pair} {c : PairCall} {o : Outcome × Outcome} (hR : s.Refines)
    (ha : s.1.Fresh) (hb : s.2.Fresh) (h : s.step c = some (s', o)) :
    s'.Refines ∧ o.1 = o.2 := by
  obtain ⟨A, L, L', h1, h2⟩ := hR
  obtain ⟨hs1, hs2⟩ := step_cases h
  obtain ⟨ho1, M, h1⟩ := h1.step DataPool.transport_places ha hs1
  obtain ⟨ho2, M', h2⟩ := h2.step SsrPool.transport_places hb hs2
  exact ⟨⟨_, M, M', h1, h2⟩, ho1.symm.trans ho2⟩

theorem run_fresh {cs : List PairCall} {t : Pair} {os : List (Outcome × Outcome)}
    (h : run Pair.step s cs = some (t, os)) (ha : t.1.Fresh) (hb : t.2.Fresh) :
    s.1.Fresh ∧ s.2.Fresh := by
  have hpre : s.1.refs <+: t.1.refs ∧ s.2.refs <+: t.2.refs := by
    refine run_inv (P := fun u : Pair => s.1.refs <+: u.1.refs ∧ s.2.refs <+: u.2.refs)
      (fun hP hs => ?_) ⟨prefix_refl _, prefix_refl _⟩ h
    obtain ⟨hs1, hs2⟩ := step_cases hs
    exact ⟨hP.1.trans (Side.step_refs hs1), hP.2.trans (Side.step_refs hs2)⟩
  exact ⟨ha.of_prefix hpre.1, hb.of_prefix hpre.2⟩

/-- So does a run of calls. -/
theorem Refines.run : ∀ {cs : List PairCall} {s t : Pair} {os : List (Outcome × Outcome)},
    s.Refines → t.1.Fresh → t.2.Fresh → run Pair.step s cs = some (t, os) →
      t.Refines ∧ ∀ o ∈ os, o.1 = o.2
  | [], s, t, os, hR, ha, hb, h => by
    simp only [run_nil, some.injEq, Prod.mk.injEq] at h
    obtain ⟨rfl, rfl⟩ := h
    exact ⟨hR, by simp⟩
  | c :: cs, s, t, os, hR, ha, hb, h => by
    obtain ⟨hsa, hsb⟩ := run_fresh h ha hb
    obtain ⟨u, o, os', hs, hr, rfl⟩ := run_cons.1 h
    obtain ⟨hRu, ho⟩ := hR.step hsa hsb hs
    obtain ⟨hRt, hos⟩ := Refines.run hRu ha hb hr
    refine ⟨hRt, fun o' ho' => ?_⟩
    rcases mem_cons.1 ho' with rfl | ho'
    · exact ho
    · exact hos o' ho'

end Pair

/-- The two pools agree on every call of every run, with any addresses for the blocks and any
forged references, and at every point on which of the references handed out are live, as long as
no slot of either was handed out more than `2 ^ 32 - 1` times. The free list then holds each empty
slot once and no other. -/
theorem ssrPool_agrees {cs : List PairCall} {a : Side DataPool} {b : Side SsrPool}
    {os : List (Outcome × Outcome)} (h : run Pair.step Pair.init cs = some ((a, b), os))
    (ha : a.Fresh) (hb : b.Fresh) :
    (∀ o ∈ os, o.1 = o.2)
      ∧ (a.refs.map fun ref => (a.pool.getSlot ref).isSome) =
        (b.refs.map fun ref => (b.pool.getSlot ref).isSome)
      ∧ b.pool.FreeOk := by
  obtain ⟨⟨A, L, L', h1, h2⟩, hos⟩ := Pair.refines_init.run ha hb h
  exact ⟨hos, (h1.live ha).trans (h2.live hb).symm, h2.ok⟩

/-- A block that is asked for at another position and after it was released. -/
theorem ssrPool_agrees_stale :
    ∃ a b os, run Pair.step Pair.init [⟨.allocate 2, {}, {}⟩,
        ⟨.store (.issued 0 0 2) [7, 9], {}, {}⟩, ⟨.map (.issued 0 1 1), {}, {}⟩,
        ⟨.release (.issued 0 0 0), {}, {}⟩, ⟨.map (.issued 0 0 2), {}, {}⟩] = some ((a, b), os)
      ∧ (∀ o ∈ os, o.1 = o.2) ∧ b.pool.FreeOk := by
  have h : run Pair.step Pair.init [⟨.allocate 2, {}, {}⟩,
      ⟨.store (.issued 0 0 2) [7, 9], {}, {}⟩, ⟨.map (.issued 0 1 1), {}, {}⟩,
      ⟨.release (.issued 0 0 0), {}, {}⟩, ⟨.map (.issued 0 0 2), {}, {}⟩] =
    some ((_, _), _) := rfl
  obtain ⟨hos, -, hfree⟩ := ssrPool_agrees h (Side.fresh_of_length (by decide))
    (Side.fresh_of_length (by decide))
  exact ⟨_, _, _, h, hos, hfree⟩

section

variable (g : UInt32)

/-- `DataPool` with two emptied slots, before and while the first is in use again. -/
def plainIdle : DataPool := ⟨{}, [⟨none, g, 0⟩, ⟨none, 2, 0⟩]⟩

/-- A data pool in which one block lives. -/
def plainBusy : DataPool := ⟨⟨[⟨0, 1⟩]⟩, [⟨some ⟨0, 1⟩, g, 1⟩, ⟨none, 2, 0⟩]⟩

/-- The free-list pool after the same calls reuses the second slot. -/
def ssrIdle : SsrPool := ⟨{}, [⟨none, 2, 0⟩, ⟨none, g, 0⟩], [0, 1]⟩

/-- The same block in the other pool, which has put it in the other slot. -/
def ssrBusy : SsrPool := ⟨⟨[⟨0, 1⟩]⟩, [⟨none, 2, 0⟩, ⟨some ⟨0, 1⟩, g, 1⟩], [0]⟩

theorem plainIdle_allocate : (plainIdle g).allocate 1 (some 0) true =
    some (plainBusy g, some ⟨1, 0, g, 0, 1⟩) := rfl

theorem ssrIdle_allocate : (ssrIdle g).allocate 1 (some 0) true =
    some (ssrBusy g, some ⟨1, 1, g, 0, 1⟩) := rfl

theorem plainBusy_release : (plainBusy g).release ⟨1, 0, g, 0, 1⟩ = plainIdle (Arena.bump g) := by
  simp [plainBusy, plainIdle, DataPool.release, DataPool.getSlot, DataPool.poolId, Allocator.free]

theorem ssrBusy_release : (ssrBusy g).release ⟨1, 1, g, 0, 1⟩ true = ssrIdle (Arena.bump g) := by
  simp [ssrBusy, ssrIdle, SsrPool.release, SsrPool.getSlot, SsrPool.plain, DataPool.getSlot,
    DataPool.poolId, Allocator.free]

end

/-- After `n` more uses of one slot by each pool; the first reference is stale on both sides. -/
structure Cycled (n : ℕ) (s : Pair) : Prop where
  plain : s.1.pool = plainIdle (Arena.genOf (n + 1))
  ssr : s.2.pool = ssrIdle (Arena.genOf (n + 1))
  count : s.1.refs.length = n + 2
  count' : s.2.refs.length = n + 2
  stale : s.1.refs[0]? = some ⟨1, 0, 1, 0, 1⟩
  stale' : s.2.refs[0]? = some ⟨1, 0, 1, 0, 1⟩

theorem Cycled.allocate {n : ℕ} {s : Pair} (h : Cycled n s) :
    s.step ⟨.allocate 1, {}, {}⟩ = some
      ((⟨plainBusy (Arena.genOf (n + 1)), s.1.refs ++ [⟨1, 0, Arena.genOf (n + 1), 0, 1⟩],
          s.1.mem.clear ⟨0, 1⟩⟩,
        ⟨ssrBusy (Arena.genOf (n + 1)), s.2.refs ++ [⟨1, 1, Arena.genOf (n + 1), 0, 1⟩],
          s.2.mem.clear ⟨0, 1⟩⟩), .allocated true, .allocated true) := by
  simp only [Pair.step, Side.step, DataPool.transport, SsrPool.transport, h.plain, h.ssr,
    plainIdle_allocate, ssrIdle_allocate]
  rfl

/-- A block comes and goes. -/
def cycle (n : ℕ) : List PairCall :=
  [⟨.allocate 1, {}, {}⟩, ⟨.release (.issued (n + 2) 0 1), {}, {}⟩]

theorem Cycled.cycle {n : ℕ} {s : Pair} (h : Cycled n s) :
    ∃ t os, run Pair.step s (cycle n) = some (t, os) ∧ Cycled (n + 1) t := by
  set g := Arena.genOf (n + 1)
  set t : Pair := (⟨plainBusy g, s.1.refs ++ [⟨1, 0, g, 0, 1⟩], s.1.mem.clear ⟨0, 1⟩⟩,
    ⟨ssrBusy g, s.2.refs ++ [⟨1, 1, g, 0, 1⟩], s.2.mem.clear ⟨0, 1⟩⟩)
  have h1 : t.1.resolve {} (.issued (n + 2) 0 1) = some ⟨1, 0, g, 0, 1⟩ := by
    simp [t, Side.resolve, ← h.count]
  have h2 : t.2.resolve {} (.issued (n + 2) 0 1) = some ⟨1, 1, g, 0, 1⟩ := by
    simp [t, Side.resolve, ← h.count']
  have hrel : t.step ⟨.release (.issued (n + 2) 0 1), {}, {}⟩ = some
      (({ t.1 with pool := plainIdle (Arena.bump g) }, { t.2 with pool := ssrIdle (Arena.bump g) }),
        .released, .released) := by
    simp only [Pair.step, Side.step, h1, h2, bind_eq_bind, bind_some,
      DataPool.transport, SsrPool.transport]
    rw [show t.1.pool = plainBusy g from rfl, show t.2.pool = ssrBusy g from rfl,
      plainBusy_release, ssrBusy_release]
    rfl
  refine ⟨_, _, run_cons.2 ⟨_, _, _, h.allocate, run_cons.2 ⟨_, _, _, hrel, rfl, rfl⟩, rfl⟩, ?_⟩
  have hg : Arena.bump g = Arena.genOf (n + 1 + 1) := Arena.bump_genOf (n + 1)
  refine ⟨by rw [hg], by rw [hg], ?_, ?_, ?_, ?_⟩
  · simp [t, h.count]
  · simp [t, h.count']
  · have := h.count
    simp only [t]
    rw [getElem?_append_left (by omega), h.stale]
  · have := h.count'
    simp only [t]
    rw [getElem?_append_left (by omega), h.stale']

/-- The first two references, both released, and `n` more uses of one slot. -/
theorem exists_cycled : ∀ n, ∃ cs s os, run Pair.step Pair.init cs = some (s, os) ∧ Cycled n s
  | 0 => by
    refine ⟨[⟨.allocate 1, {}, {}⟩, ⟨.allocate 1, { addr := 1 }, { addr := 1 }⟩,
      ⟨.release (.issued 0 0 1), {}, {}⟩, ⟨.release (.issued 1 0 1), {}, {}⟩], _, _, rfl, ?_⟩
    exact ⟨rfl, rfl, rfl, rfl, rfl, rfl⟩
  | n + 1 => by
    obtain ⟨cs, s, os, hr, hc⟩ := exists_cycled n
    obtain ⟨t, os', hr', hc'⟩ := hc.cycle
    exact ⟨cs ++ cycle n, t, os ++ os', run_append.2 ⟨s, os, os', hr, hr', rfl⟩, hc'⟩

/-- Slot 0 of `DataPool` was emptied `2 ^ 32 - 1` times and its generation is one again, so the
first reference of all maps the newest block, which the free-list pool put in slot 1. -/
theorem ssrPool_disagrees : ∃ cs s os, run Pair.step Pair.init cs = some (s, os)
    ∧ ∃ o ∈ os, o.1 ≠ o.2 := by
  obtain ⟨cs, s, os, hr, hc⟩ := exists_cycled (2 ^ 32 - 2)
  have hg : Arena.genOf (2 ^ 32 - 2 + 1) = 1 := by decide
  have hal := hc.allocate
  rw [hg] at hal
  set t : Pair := (⟨plainBusy 1, s.1.refs ++ [⟨1, 0, 1, 0, 1⟩], s.1.mem.clear ⟨0, 1⟩⟩,
    ⟨ssrBusy 1, s.2.refs ++ [⟨1, 1, 1, 0, 1⟩], s.2.mem.clear ⟨0, 1⟩⟩)
  have h1 : t.1.resolve {} (.issued 0 0 1) = some ⟨1, 0, 1, 0, 1⟩ := by
    have := hc.count
    simp only [t, Side.resolve]
    rw [getElem?_append_left (by omega), hc.stale]
    rfl
  have h2 : t.2.resolve {} (.issued 0 0 1) = some ⟨1, 0, 1, 0, 1⟩ := by
    have := hc.count'
    simp only [t, Side.resolve]
    rw [getElem?_append_left (by omega), hc.stale']
    rfl
  have hmap : t.step ⟨.map (.issued 0 0 1), {}, {}⟩ = some (t, .mapped (some [none]), .mapped none) := by
    simp only [Pair.step, Side.step, h1, h2, bind_eq_bind, bind_some]
    rfl
  refine ⟨cs ++ [⟨.allocate 1, {}, {}⟩, ⟨.map (.issued 0 0 1), {}, {}⟩], t, _, run_append.2
    ⟨s, os, _, hr, run_cons.2 ⟨_, _, _, hal, run_cons.2 ⟨_, _, _, hmap, rfl, rfl⟩, rfl⟩, rfl⟩, ?_⟩
  exact ⟨(.mapped (some [none]), .mapped none), by simp, by decide⟩

end Cruller
