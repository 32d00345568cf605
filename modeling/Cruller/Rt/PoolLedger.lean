import Cruller.Rt.DataPool

/-!
# The pool and its ledger

Along every run of calls the slots stay an arena for the ledger the calls leave, every live
reference has an owner, and the blocks that are out are exactly those behind live references
(`DataPool.Rep.step`). What the ledger says of a reference is then what the pool does with it
(`dataPool_generational`).
-/

namespace Cruller

open List Option

/-- The blocks that are still in use. -/
def liveBlocks (L : Arena.Ledger Holding) : List Block :=
  L.filterMap fun e => e.value.map Holding.block

theorem liveBlocks_append (L₁ L₂ : Arena.Ledger Holding) :
    liveBlocks (L₁ ++ L₂) = liveBlocks L₁ ++ liveBlocks L₂ :=
  filterMap_append

theorem liveBlocks_cons (h : Arena.Handle) (v : Option Holding) (L : Arena.Ledger Holding) :
    liveBlocks (⟨h, v⟩ :: L) = (v.map Holding.block).toList ++ liveBlocks L := by
  rcases v with _ | v <;> rfl

variable {L : Arena.Ledger Holding} {b : Block}

theorem mem_liveBlocks :
    b ∈ liveBlocks L ↔ ∃ e ∈ L, ∃ v, e.value = some v ∧ v.block = b := by
  simp [liveBlocks]

namespace DataPool

/-- The pool holds what the ledger says, and has its blocks from the allocator. -/
structure Rep (pool : DataPool) (L : Arena.Ledger Holding) : Prop where
  arena : Arena.Inv (Slot.cells pool.slots) L
  owned : ∀ e ∈ L, ∀ v, e.value = some v → 0 < v.owners
  apart : pool.allocator.live.Pairwise Block.Disjoint
  out : pool.allocator.live.Perm (liveBlocks L)

theorem rep_init : Rep {} [] where
  arena := Arena.inv_nil
  owned := by simp
  apart := Pairwise.nil
  out := Perm.nil

section

variable {pool : DataPool} {L : Arena.Ledger Holding} {ref : BufferRef}

variable {v : Holding} {pool' : DataPool} {slots : List Slot} {k : Arena.Handle}

theorem Rep.find_iff (h : Rep pool L) (hp : ref.poolId = poolId) :
    pool.find ref = some v ↔ ⟨ref.handle, some v⟩ ∈ L := by
  rw [find, if_pos hp, h.arena.lookup_iff]

theorem Rep.mem_of_find (h : Rep pool L) (hf : pool.find ref = some v) :
    ref.poolId = poolId ∧ ⟨ref.handle, some v⟩ ∈ L := by
  have hp : ref.poolId = poolId := by
    by_contra hne
    rw [find, if_neg hne] at hf
    simp at hf
  exact ⟨hp, (h.find_iff hp).1 hf⟩

theorem Rep.issue (h : Rep pool L) {b : Block}
    (hfit : pool.allocator.Fits b) (hA : Arena.Inv (Slot.cells slots) (L.issue k ⟨b, 1⟩)) :
    Rep ⟨pool.allocator.alloc b, slots⟩ (L.issue k ⟨b, 1⟩) where
  arena := hA
  owned := by
    intro e he v hv
    rcases mem_append.1 he with he | he
    · exact h.owned e he v hv
    · rw [mem_singleton.1 he, some.injEq] at hv
      rw [← hv]
      exact Nat.one_pos
  apart := pairwise_cons.2 ⟨hfit, h.apart⟩
  out := by
    rw [Arena.Ledger.issue, liveBlocks_append, liveBlocks_cons]
    exact (h.out.cons b).trans (perm_append_singleton b _).symm

theorem Rep.place (h : Rep pool L) {b : Block} (hfit : pool.allocator.Fits b)
    (hp : Placed pool pool' b ref) : Rep pool' (L.issue ref.handle ⟨b, 1⟩) := by
  rcases pool' with ⟨allocator, slots⟩
  obtain rfl : allocator = pool.allocator.alloc b := hp.allocator
  refine h.issue hfit ?_
  rcases hp.slots with ⟨i, slot, hi, hno, hh, hs⟩ | ⟨-, hh, hs⟩
  · have hc : (Slot.cells pool.slots)[i]? = some ⟨none, slot.generation⟩ := by
      rw [Slot.cells_getElem?, hi]
      simp [Slot.cell, hno]
    simp only at hs
    rw [hh, hs, Slot.cells, map_set]
    exact h.arena.fill hc
  · simp only at hs
    rw [hh, hs, Slot.cells, map_append, ← Slot.cells_length]
    exact h.arena.push

theorem Rep.allocate (h : Rep pool L) {len : ℕ} {addr : Option ℕ}
    {appendOk : Bool} {r : Option BufferRef} (hfit : ∀ a ∈ addr, pool.allocator.Fits ⟨a, len⟩)
    (hal : pool.allocate len addr appendOk = some (pool', r)) :
    Rep pool' ((PoolEvent.ofAllocate len addr r).record L) := by
  rcases allocate_cases hal with ⟨rfl, rfl⟩ | ⟨a, ref, rfl, rfl, hp⟩
  · rcases addr with _ | a <;> exact h
  exact h.place (hfit a rfl) hp

theorem Rep.alter_keep (h : Rep pool L) {w : Holding}
    {f : Holding → Option Holding} (hl : Arena.lookup (Slot.cells pool.slots) k = some v)
    (hf : f v = some w) (hb : w.block = v.block) (hw : 0 < w.owners)
    (hs : Slot.cells slots = (Slot.cells pool.slots).modify k.index (Arena.Cell.alter f)) :
    Rep { pool with slots } (L.alter k f) := by
  obtain ⟨L₁, L₂, hL, hal⟩ := h.arena.split hl
  refine ⟨by rw [hs]; exact h.arena.alter hl f, ?_, h.apart, ?_⟩
  · intro e he u hu
    rw [hal f, hf] at he
    rcases mem_append.1 he with he | he
    · exact h.owned e (by rw [hL]; exact mem_append_left _ he) u hu
    · rcases mem_cons.1 he with rfl | he
      · obtain rfl := some.inj hu
        exact hw
      · exact h.owned e (by rw [hL]; exact mem_append_right _ (mem_cons_of_mem _ he)) u hu
  · have hout := h.out
    rw [hL, liveBlocks_append, liveBlocks_cons] at hout
    rw [hal f, hf, liveBlocks_append, liveBlocks_cons]
    simpa [hb] using hout

theorem Rep.alter_retire (h : Rep pool L)
    {f : Holding → Option Holding} (hl : Arena.lookup (Slot.cells pool.slots) k = some v)
    (hf : f v = none)
    (hs : Slot.cells slots = (Slot.cells pool.slots).modify k.index (Arena.Cell.alter f)) :
    Rep ⟨pool.allocator.free v.block, slots⟩ (L.alter k f) := by
  obtain ⟨L₁, L₂, hL, hal⟩ := h.arena.split hl
  refine ⟨by rw [hs]; exact h.arena.alter hl f, ?_, h.apart.sublist erase_sublist, ?_⟩
  · intro e he u hu
    rw [hal f, hf] at he
    rcases mem_append.1 he with he | he
    · exact h.owned e (by rw [hL]; exact mem_append_left _ he) u hu
    · rcases mem_cons.1 he with rfl | he
      · simp at hu
      · exact h.owned e (by rw [hL]; exact mem_append_right _ (mem_cons_of_mem _ he)) u hu
  · have hout := h.out
    rw [hL, liveBlocks_append, liveBlocks_cons] at hout
    rw [hal f, hf, liveBlocks_append, liveBlocks_cons]
    have hmid := hout.trans perm_middle
    have := hmid.erase v.block
    rw [erase_cons_head] at this
    exact this

theorem retain_of_find_none (hf : pool.find ref = none) : pool.retain ref = (pool, false) := by
  rw [retain, getSlot_none.2 hf]

theorem release_of_find_none (hf : pool.find ref = none) : pool.release ref = pool := by
  rw [release, getSlot_none.2 hf]

theorem retain_of_find (hf : pool.find ref = some v) :
    if v.owners = maxU32 then pool.retain ref = (pool, false)
    else (pool.retain ref).2 = true ∧ (pool.retain ref).1.allocator = pool.allocator
      ∧ Slot.cells (pool.retain ref).1.slots =
        (Slot.cells pool.slots).modify ref.handle.index (Arena.Cell.alter Holding.retain) := by
  rcases hg : pool.getSlot ref with _ | slot
  · rw [getSlot_none.1 hg] at hf
    simp at hf
  obtain ⟨b, -, hf'⟩ := getSlot_find hg
  obtain ⟨-, hs, hsm, -⟩ := getSlot_eq_some.1 hg
  obtain rfl : v = ⟨b, slot.refs.toNat⟩ := by rw [hf] at hf'; exact some.inj hf'
  unfold DataPool.retain
  simp only [hg]
  by_cases hmax : slot.refs.toNat = maxU32
  · rw [if_pos hmax, if_pos hmax]
  · rw [if_neg hmax, if_neg hmax]
    exact ⟨rfl, rfl, Slot.cells_retain hs hsm hmax⟩

theorem release_of_find (hf : pool.find ref = some v) (hv : 0 < v.owners) :
    Slot.cells (pool.release ref).slots =
        (Slot.cells pool.slots).modify ref.handle.index (Arena.Cell.alter Holding.release)
      ∧ (pool.release ref).allocator =
        if v.owners = 1 then pool.allocator.free v.block else pool.allocator := by
  rcases hg : pool.getSlot ref with _ | slot
  · rw [getSlot_none.1 hg] at hf
    simp at hf
  obtain ⟨b, hb, hf'⟩ := getSlot_find hg
  obtain ⟨-, hs, hsm, -⟩ := getSlot_eq_some.1 hg
  obtain rfl : v = ⟨b, slot.refs.toNat⟩ := by rw [hf] at hf'; exact some.inj hf'
  have hr : slot.refs ≠ 0 := fun h0 => by
    rw [h0] at hv
    exact absurd hv (lt_irrefl 0)
  have hpr := UInt32.toNat_pred hr
  have hone : slot.refs - 1 = 0 ↔ slot.refs.toNat = 1 := by
    rw [← UInt32.toNat_inj, hpr, show (0 : UInt32).toNat = 0 from rfl]
    simp only at hv
    omega
  unfold DataPool.release
  simp only [hg, if_neg hr]
  by_cases h1 : slot.refs - 1 = 0
  · rw [if_neg (not_not.2 h1), if_pos (hone.1 h1), hb]
    exact ⟨Slot.cells_release_last hs hsm hr h1, rfl⟩
  · rw [if_pos h1, if_neg (mt hone.2 h1)]
    exact ⟨Slot.cells_release hs hsm hr h1, rfl⟩

theorem retain_slots_length (pool : DataPool) (ref : BufferRef) :
    (pool.retain ref).1.slots.length = pool.slots.length := by
  unfold DataPool.retain
  split
  · rfl
  · split_ifs
    · rfl
    · simp

theorem release_slots_length (pool : DataPool) (ref : BufferRef) :
    (pool.release ref).slots.length = pool.slots.length := by
  unfold DataPool.release
  split
  · rfl
  · split_ifs
    · rfl
    · simp
    · simp

theorem Rep.retain (h : Rep pool L) (ref : BufferRef) :
    Rep (pool.retain ref).1 ((PoolEvent.retained ref (pool.retain ref).2).record L) := by
  rcases hf : pool.find ref with _ | v
  · rw [retain_of_find_none hf]
    exact h
  have hret := retain_of_find hf
  split_ifs at hret
  · rw [hret]
    exact h
  · obtain ⟨hok, hA, hs⟩ := hret
    rw [find, if_pos (h.mem_of_find hf).1] at hf
    rw [hok]
    rcases hp : (pool.retain ref).1 with ⟨allocator, slots⟩
    rw [hp] at hA hs
    simp only at hA hs
    rw [hA]
    exact h.alter_keep (w := ⟨v.block, v.owners + 1⟩) hf rfl rfl (Nat.succ_pos _) hs

theorem Rep.release (h : Rep pool L) (ref : BufferRef) :
    Rep (pool.release ref) ((PoolEvent.released ref).record L) := by
  rcases hf : pool.find ref with _ | v
  · rw [release_of_find_none hf]
    simp only [PoolEvent.record]
    split_ifs with hp
    · rw [find, if_pos hp] at hf
      rw [h.arena.alter_of_lookup_none hf]
      exact h
    · exact h
  obtain ⟨hp, hm⟩ := h.mem_of_find hf
  have hpos := h.owned _ hm _ rfl
  obtain ⟨hs, hA⟩ := release_of_find hf hpos
  rw [find, if_pos hp] at hf
  simp only [PoolEvent.record, if_pos hp]
  rcases hrel : pool.release ref with ⟨allocator, slots⟩
  rw [hrel] at hs hA
  simp only at hs hA
  rw [hA]
  by_cases h1 : v.owners = 1
  · rw [if_pos h1]
    exact h.alter_retire hf (by rw [Holding.release, if_pos h1]) hs
  · rw [if_neg h1]
    exact h.alter_keep (w := ⟨v.block, v.owners - 1⟩) hf (by rw [Holding.release, if_neg h1]) rfl
      (by simp only; omega) hs

/-- Every call of the pool does what its event says. -/
theorem Rep.step (h : Rep pool L) {op : PoolOp} {e : PoolEvent}
    (hs : pool.step op = some (pool', e)) : Rep pool' (e.record L) := by
  cases op with
  | allocate len addr appendOk =>
    simp only [DataPool.step] at hs
    split_ifs at hs with hfit
    simp only [bind_eq_bind, bind_eq_some_iff, Option.pure_def, some.injEq,
      Prod.mk.injEq, Prod.exists] at hs
    obtain ⟨p, r, hal, rfl, rfl⟩ := hs
    exact h.allocate hfit hal
  | map ref =>
    simp only [DataPool.step, some.injEq, Prod.mk.injEq] at hs
    obtain ⟨rfl, rfl⟩ := hs
    exact h
  | retain ref =>
    simp only [DataPool.step, some.injEq, Prod.mk.injEq] at hs
    obtain ⟨rfl, rfl⟩ := hs
    exact h.retain ref
  | release ref =>
    simp only [DataPool.step, some.injEq, Prod.mk.injEq] at hs
    obtain ⟨rfl, rfl⟩ := hs
    exact h.release ref

/-- A run of the pool is the record of its events. -/
theorem Rep.run (h : Rep pool L) {ops : List PoolOp} {es : List PoolEvent}
    (hr : run DataPool.step pool ops = some (pool', es)) :
    Rep pool' (es.foldl PoolEvent.record L) :=
  run_foldl (R := Rep) (fun h hs => h.step hs) h hr

end

theorem step_allocated {pool pool' : DataPool} {op : PoolOp} {ref : BufferRef} {b : Block}
    (h : pool.step op = some (pool', .allocated ref b)) :
    ref.poolId = poolId ∧ ref.offset = 0 ∧ ref.length.toNat = b.len := by
  cases op with
  | allocate len addr appendOk =>
    simp only [DataPool.step] at h
    split_ifs at h
    simp only [bind_eq_bind, bind_eq_some_iff, Option.pure_def, some.injEq,
      Prod.mk.injEq, Prod.exists] at h
    obtain ⟨p, r, hal, rfl, he⟩ := h
    rcases allocate_cases hal with ⟨rfl, -⟩ | ⟨a, ref', rfl, rfl, hp⟩
    · rcases addr with _ | a <;> simp [PoolEvent.ofAllocate] at he
    · simp only [PoolEvent.ofAllocate, PoolEvent.allocated.injEq] at he
      obtain ⟨rfl, rfl⟩ := he
      exact ⟨hp.poolId, hp.offset, hp.length⟩
  | map ref' => simp [DataPool.step] at h
  | retain ref' => simp [DataPool.step] at h
  | release ref' => simp [DataPool.step] at h

theorem run_allocated {ops : List PoolOp} {pool pool' : DataPool} {es : List PoolEvent}
    (h : Cruller.run DataPool.step pool ops = some (pool', es)) {ref : BufferRef} {b : Block}
    (hm : .allocated ref b ∈ es) : ref.poolId = poolId ∧ ref.offset = 0 ∧ ref.length.toNat = b.len := by
  induction ops generalizing pool es with
  | nil =>
    simp only [run_nil, some.injEq, Prod.mk.injEq] at h
    rw [← h.2] at hm
    simp at hm
  | cons op ops ih =>
    obtain ⟨p, e, es', hs, hr, rfl⟩ := run_cons.1 h
    rcases mem_cons.1 hm with rfl | hm
    · exact step_allocated hs
    · exact ih hr hm

end DataPool

theorem liveBlocks_pairwise
    (h : (liveBlocks L).Pairwise Block.Disjoint) :
    L.Pairwise fun e e' => ∀ v v', e.value = some v → e'.value = some v' →
      v.block.Disjoint v'.block := by
  rw [liveBlocks, pairwise_filterMap] at h
  refine h.imp fun {e e'} he v v' hv hv' => ?_
  exact he v.block (by rw [hv]; rfl) v'.block (by rw [hv']; rfl)

/-- How many owners the reference of a handle has after an event, from how many it had. -/
def PoolEvent.owners (k : Arena.Handle) (n : ℕ) : PoolEvent → ℕ
  | .retained ref true => if ref.handle = k ∧ n ≠ 0 then n + 1 else n
  | .released ref => if ref.poolId = DataPool.poolId ∧ ref.handle = k then n - 1 else n
  | _ => n

/-- How many owners the reference an allocation returned has after the events that followed: it
starts with one, gains one by each successful retain and loses one by each release. -/
def ownersAfter (ref : BufferRef) (es : List PoolEvent) : ℕ :=
  es.foldl (PoolEvent.owners ref.handle) 1

/-- What is behind a reference with `n` owners. -/
def holdingOf (b : Block) (n : ℕ) : Option Holding :=
  if n = 0 then none else some ⟨b, n⟩

theorem holdingOf_retain (b : Block) (n : ℕ) :
    (holdingOf b n).bind Holding.retain = holdingOf b (if n ≠ 0 then n + 1 else n) := by
  unfold holdingOf
  by_cases hn : n = 0
  · simp [hn]
  · simp [hn, Holding.retain]

theorem holdingOf_release (b : Block) (n : ℕ) :
    (holdingOf b n).bind Holding.release = holdingOf b (n - 1) := by
  unfold holdingOf
  by_cases hn : n = 0
  · simp [hn]
  · by_cases h1 : n = 1
    · simp [h1, Holding.release]
    · have : n - 1 ≠ 0 := by omega
      simp [hn, h1, this, Holding.release]

/-- An event changes the owners of its own reference, and only of that. -/
theorem record_getElem? {i : ℕ} {k : Arena.Handle} {n : ℕ}
    (h : L[i]? = some ⟨k, holdingOf b n⟩) (e : PoolEvent) :
    (e.record L)[i]? = some ⟨k, holdingOf b (e.owners k n)⟩ := by
  have hal : ∀ (ref : BufferRef) (f : Holding → Option Holding), (L.alter ref.handle f)[i]? =
      some ⟨k, if ref.handle = k then (holdingOf b n).bind f else holdingOf b n⟩ := by
    intro ref f
    rw [Arena.Ledger.alter, getElem?_map, h, map_some]
    by_cases hk : ref.handle = k
    · simp [hk]
    · simp [hk, Ne.symm hk]
  cases e with
  | allocated ref b' =>
    have hlt := (List.getElem?_eq_some_iff.1 h).1
    simp only [PoolEvent.record, Arena.Ledger.issue, PoolEvent.owners]
    rw [getElem?_append_left hlt, h]
  | refused => exact h
  | mapped ref result => exact h
  | retained ref ok =>
    cases ok with
    | false => exact h
    | true =>
      simp only [PoolEvent.record, PoolEvent.owners]
      rw [hal, holdingOf_retain]
      by_cases hk : ref.handle = k
      · simp [hk]
      · simp [hk]
  | released ref =>
    simp only [PoolEvent.record, PoolEvent.owners]
    by_cases hp : ref.poolId = DataPool.poolId
    · rw [if_pos hp, hal, holdingOf_release]
      by_cases hk : ref.handle = k
      · simp [hp, hk]
      · simp [hk]
    · simp [hp, h]

theorem foldl_record_getElem? (es : List PoolEvent) {i : ℕ}
    {k : Arena.Handle} {n : ℕ} (h : L[i]? = some ⟨k, holdingOf b n⟩) :
    (es.foldl PoolEvent.record L)[i]? =
      some ⟨k, holdingOf b (es.foldl (PoolEvent.owners k) n)⟩ := by
  induction es generalizing L n with
  | nil => exact h
  | cons e es ih =>
    rw [foldl_cons, foldl_cons]
    exact ih (record_getElem? h e)

theorem mem_poolLedger_of_split {es₁ es₂ : List PoolEvent} {ref : BufferRef} :
    ⟨ref.handle, holdingOf b (ownersAfter ref es₂)⟩ ∈
      poolLedger (es₁ ++ .allocated ref b :: es₂) := by
  have hnew : (PoolEvent.record (poolLedger es₁) (.allocated ref b))[(poolLedger es₁).length]? =
      some ⟨ref.handle, holdingOf b 1⟩ := by
    simp [PoolEvent.record, Arena.Ledger.issue, holdingOf]
  have h := foldl_record_getElem? es₂ hnew
  rw [poolLedger, foldl_append, foldl_cons]
  exact mem_of_getElem? h

/-- The generational contract, at every point of every run of calls with any references. The
reference an allocation returned maps to its own block while it has an owner left, and once it
has none it maps, retains and releases nothing, as long as no slot was handed out more than
`2 ^ 32 - 1` times. Whatever maps lies in the block of a live reference. The blocks of live
references share no address, and they are exactly the blocks that are out, so storage is freed by
the last release and not before. -/
theorem dataPool_generational {ops : List PoolOp} {pool : DataPool} {es : List PoolEvent}
    (h : run DataPool.step {} ops = some (pool, es)) :
    (∀ es₁ ref b es₂, es = es₁ ++ .allocated ref b :: es₂ → 0 < ownersAfter ref es₂ →
        pool.map ref = some ⟨b.addr, b.len⟩)
      ∧ (∀ es₁ ref b es₂, es = es₁ ++ .allocated ref b :: es₂ → ownersAfter ref es₂ = 0 →
        (∀ i, (poolLedger es).issued i ≤ 2 ^ 32 - 1) → ∀ ref', ref'.handle = ref.handle →
          pool.map ref' = none ∧ pool.retain ref' = (pool, false) ∧ pool.release ref' = pool)
      ∧ (∀ ref m, pool.map ref = some m → ∃ v, ⟨ref.handle, some v⟩ ∈ poolLedger es
        ∧ v.block.addr ≤ m.ptr ∧ m.ptr + m.len ≤ v.block.addr + v.block.len)
      ∧ ((poolLedger es).Pairwise fun e e' => ∀ v v', e.value = some v → e'.value = some v' →
        v.block.Disjoint v'.block)
      ∧ pool.allocator.live.Perm (liveBlocks (poolLedger es)) := by
  have hrep : DataPool.Rep pool (poolLedger es) := DataPool.rep_init.run h
  refine ⟨?_, ?_, ?_, ?_, hrep.out⟩
  · rintro es₁ ref b es₂ rfl hn
    have hmem : .allocated ref b ∈ es₁ ++ .allocated ref b :: es₂ := by simp
    obtain ⟨hp, ho, hl⟩ := DataPool.run_allocated h hmem
    have hm : ⟨ref.handle, holdingOf b (ownersAfter ref es₂)⟩ ∈
        poolLedger (es₁ ++ .allocated ref b :: es₂) := mem_poolLedger_of_split
    rw [holdingOf, if_neg hn.ne', ← hrep.find_iff hp] at hm
    rw [DataPool.map_eq, hm, bind_some, ho, hl]
    simp
  · rintro es₁ ref b es₂ rfl hn hb ref' hh
    have hm : ⟨ref.handle, holdingOf b (ownersAfter ref es₂)⟩ ∈
        poolLedger (es₁ ++ .allocated ref b :: es₂) := mem_poolLedger_of_split
    rw [holdingOf, if_pos hn] at hm
    have hf : pool.find ref' = none := by
      rw [DataPool.find]
      split_ifs
      · rw [hh]
        exact hrep.arena.lookup_retired hb hm rfl
      · rfl
    refine ⟨?_, DataPool.retain_of_find_none hf, DataPool.release_of_find_none hf⟩
    rw [DataPool.map_eq, hf, bind_none]
  · intro ref m hm
    rw [DataPool.map_eq, bind_eq_some_iff] at hm
    obtain ⟨v, hf, hm⟩ := hm
    split_ifs at hm with hle
    rw [some.injEq] at hm
    refine ⟨v, (hrep.mem_of_find hf).2, ?_⟩
    rw [← hm]
    simp only
    omega
  · exact liveBlocks_pairwise (hrep.out.pairwise hrep.apart fun hd => hd.symm)

/-- A slot handed out, released and handed out again: the second reference maps to its own block
and the first to nothing. -/
theorem dataPool_generational_reused :
    ∃ pool es, run DataPool.step {} [.allocate 4 (some 100) true,
        .release ⟨1, 0, 1, 0, 4⟩, .allocate 2 (some 200) true] = some (pool, es)
      ∧ pool.map ⟨1, 0, 2, 0, 2⟩ = some ⟨200, 2⟩ ∧ pool.map ⟨1, 0, 1, 0, 4⟩ = none := by
  have h : run DataPool.step {} [.allocate 4 (some 100) true,
      .release ⟨1, 0, 1, 0, 4⟩, .allocate 2 (some 200) true] = some (_, _) := rfl
  obtain ⟨hmaps, hnone, -⟩ := dataPool_generational h
  refine ⟨_, _, h, hmaps [.allocated ⟨1, 0, 1, 0, 4⟩ ⟨100, 4⟩, .released ⟨1, 0, 1, 0, 4⟩]
    ⟨1, 0, 2, 0, 2⟩ ⟨200, 2⟩ [] rfl (by decide), ?_⟩
  refine (hnone [] ⟨1, 0, 1, 0, 4⟩ ⟨100, 4⟩ [.released ⟨1, 0, 1, 0, 4⟩,
    .allocated ⟨1, 0, 2, 0, 2⟩ ⟨200, 2⟩] rfl (by decide) (fun i => ?_) _ rfl).1
  exact countP_le_length.trans (by decide)

end Cruller
