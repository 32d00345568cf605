import Cruller.Lib.Run
import Cruller.SourceMap.Lookup

/-!
# Lookups behind a cache

`FindCache` and `findWithCache` of `sourcemap/InternalSourceMap.zig`. A slot keeps the part of a
window that was decoded, and the reader that goes on behind it (`FindCacheSlot.Filled`); whatever
was asked before, a lookup through the cache finds what `find` does (`findWithCache_run`).
-/

namespace Cruller.SourceMap

open List Option InternalSourceMap

/-- `data` is the address of a blob. What is undefined until the slot is filled is `none` or zero. -/
structure FindCacheSlot where
  data : Option ℕ := none
  syncIdx : ℕ := 0
  decodedCount : ℕ := 0
  reader : Option WindowReader := none
  decoded : List State := List.replicate syncInterval {}

namespace FindCache

def slotCount : ℕ := 16

/-- Which window a slot has. -/
structure Key where
  data : Option ℕ := none
  syncIdx : ℕ := 0
  deriving DecidableEq, Repr

end FindCache

/-- Sixteen decoded windows. -/
structure FindCache where
  keys : List FindCache.Key := List.replicate FindCache.slotCount {}
  slots : List FindCacheSlot := List.replicate FindCache.slotCount {}
  nextVictim : ℕ := 0

namespace FindCache

/-- The windows of a map that is freed. -/
def invalidate (self : FindCache) (data : ℕ) : FindCache :=
  { self with
    keys := self.keys.map fun k => if k.data = some data then { k with data := none } else k
    slots := List.zipWith (fun k s => if k.data = some data then { s with data := none } else s)
      self.keys self.slots }

def invalidateAll (self : FindCache) : FindCache :=
  { self with
    keys := self.keys.map fun k => { k with data := none }
    slots := self.slots.map fun s => { s with data := none } }

/-- The slot of a window: its own, a free one, or the next victim. -/
def slotFor (self : FindCache) (data syncIdx : ℕ) : FindCache × ℕ :=
  match self.keys.findIdx? fun k => k.data = some data ∧ k.syncIdx = syncIdx with
  | some i => (self, i)
  | none =>
    match self.keys.findIdx? fun k => k.data = none with
    | some i => ({ self with keys := self.keys.set i { data, syncIdx } }, i)
    | none =>
      let v := self.nextVictim
      ({ self with
          nextVictim := (v + 1) &&& (slotCount - 1)
          keys := self.keys.set v { data, syncIdx } }, v)

end FindCache

namespace InternalSourceMap

/-- Mappings are decoded until one lies behind the place. -/
def fillLoop (targetLine targetCol : ℤ) :
    ℕ → WindowReader → State → List State → ℕ → Option (WindowReader × List State × ℕ)
  | 0, _, _, _, _ => none
  | n + 1, reader, state, decoded, decodedCount =>
    if !reader.done && state.lessOrEqual targetLine targetCol then do
      let (reader, state) ← reader.next state
      if decodedCount < syncInterval then
        fillLoop targetLine targetCol n reader state (decoded.set decodedCount state)
          (decodedCount + 1)
      else none
    else some (reader, decoded, decodedCount)

/-- The last of the decoded mappings that is not behind the place. -/
def searchDecoded (targetLine targetCol : ℤ) (decoded : List State) (decodedCount : ℕ) :
    Option (Option Mapping) := do
  let lo ← bisect (fun mid => ((decoded.take decodedCount)[mid]?).map fun s =>
    s.lessOrEqual targetLine targetCol) decodedCount 0 decodedCount
  if lo = 0 then some none
  else do
    let best ← (decoded.take decodedCount)[lo - 1]?
    some (if best.generatedLine = targetLine then some best.toMapping else none)

/-- `data` is the address of the blob. -/
def findWithCache (self : InternalSourceMap) (data : ℕ) (targetLine targetCol : ℤ)
    (set : FindCache) : Option (FindCache × Option Mapping) := do
  match ← self.locateWindow targetLine targetCol with
  | none => some (set, none)
  | some syncIdx => do
    let (set, i) := set.slotFor data syncIdx
    let cache ← set.slots[i]?
    let cache : FindCacheSlot ← (
      if cache.data ≠ some data ∨ cache.syncIdx ≠ syncIdx ∨ cache.decodedCount = 0 then do
        let (state, reader) ← self.seedWindow syncIdx
        some {
          data := some data, syncIdx, decodedCount := 1, reader := some reader
          decoded := cache.decoded.set 0 state }
      else some cache)
    let state ← cache.decoded[cache.decodedCount - 1]?
    let reader ← cache.reader
    let (reader, decoded, decodedCount) ← fillLoop targetLine targetCol syncInterval reader state
      cache.decoded cache.decodedCount
    let cache := { cache with reader := some reader, decoded, decodedCount }
    let found ← searchDecoded targetLine targetCol decoded decodedCount
    some ({ set with slots := set.slots.set i cache }, found)

end InternalSourceMap

/-- The blobs that are alive, by their addresses, and the cache. -/
structure CacheWorld where
  memory : ℕ → Option InternalSourceMap
  cache : FindCache := {}

/-- `reuse` is a blob that is freed, and perhaps another at its address; its owner has called
`invalidate`, or `invalidateAll` as `SavedSourceMap.putValue` does. -/
inductive CacheOp
  | findWithCache (data : ℕ) (line column : ℤ)
  | invalidate (data : ℕ)
  | invalidateAll
  | reuse (all : Bool) (data : ℕ) (blob : Option InternalSourceMap)

/-- A lookup and its answer. -/
structure CacheLookup where
  blob : InternalSourceMap
  line : ℤ
  column : ℤ
  found : Option Mapping

/-- One call; an address may be used again. -/
def CacheWorld.step (w : CacheWorld) : CacheOp → Option (CacheWorld × Option CacheLookup)
  | .findWithCache data line column =>
    match w.memory data with
    | none => some (w, none)
    | some blob => do
      let (cache, found) ← blob.findWithCache data line column w.cache
      some ({ w with cache }, some { blob, line, column, found })
  | .invalidate data => some ({ w with cache := w.cache.invalidate data }, none)
  | .invalidateAll => some ({ w with cache := w.cache.invalidateAll }, none)
  | .reuse all data blob => some (
    { memory := Function.update w.memory data blob
      cache := if all then w.cache.invalidateAll else w.cache.invalidate data }, none)

section

variable {m : InternalSourceMap} {wins : List (State × List State)} {w : State × List State}
  {line col : ℤ}

/-- The mappings of each window lie in order. -/
structure Ordered (m : InternalSourceMap) (wins : List (State × List State)) : Prop where
  holds : Holds m wins
  sorted : ∀ w ∈ wins, (w.1 :: w.2).Pairwise fun a b => a.generated.Before b.generated

/-- The mapping at or before a place. -/
def foundIn (line col : ℤ) (states : List State) : Option Mapping :=
  (states.filter fun t => t.lessOrEqual line col).getLast?.bind fun best =>
    if best.generatedLine = line then some best.toMapping else none

theorem Holds.exists_locateWindow (h : Holds m wins) (line col : ℤ) :
    m.locateWindow line col = some none
      ∨ ∃ i w, m.locateWindow line col = some (some i) ∧ wins[i]? = some w
        ∧ w.1.lessOrEqual line col = true := by
  obtain ⟨stream, entries, -, hcn, hen, hall⟩ := h
  have hlen : entries.length = wins.length := hall.length_eq
  rw [InternalSourceMap.locateWindow, hcn]
  simp only [bind_eq_bind, bind_some]
  by_cases h0 : entries.length = 0
  · exact Or.inl (if_pos h0)
  obtain ⟨lo, hlo⟩ : ∃ lo, bisect (fun mid => (m.syncEntry mid).map fun e =>
      e.lessOrEqual line col) entries.length 0 entries.length = some lo :=
    exists_bisect fun i hi => by rw [hen i hi]; rfl
  obtain ⟨-, hle, hyes⟩ := bisect_le hlo (Nat.zero_le _)
  rw [if_neg h0, hlo]
  simp only [bind_some]
  rcases hyes with rfl | hyes
  · exact Or.inl rfl
  · by_cases hz : lo = 0
    · exact Or.inl (by rw [if_pos hz])
    · have hi : lo - 1 < entries.length := by omega
      have hst : Stored stream entries[lo - 1] wins[lo - 1] :=
        (forall₂_iff_get.1 hall).2 (lo - 1) hi (hlen ▸ hi)
      refine Or.inr ⟨lo - 1, wins[lo - 1], by rw [if_neg hz],
        getElem?_eq_getElem (hlen ▸ hi), ?_⟩
      rw [hen _ hi, map_some, some.injEq] at hyes
      rw [← hst.seed]
      exact hyes

/-- A lookup decides among the mappings of the window that is located. -/
theorem Ordered.find (h : Ordered m wins) {i : ℕ} (hi : m.locateWindow line col = some (some i))
    (hw : wins[i]? = some w) (hle : w.1.lessOrEqual line col = true) :
    m.find line col = some (foundIn line col (w.1 :: w.2)) := by
  obtain ⟨r, ds, hsd, hds, hrd, hf, hlen⟩ := h.holds.seedWindow hw
  have htr : Turns (fun t : State => t.lessOrEqual line col) (w.1 :: w.2) :=
    turns_of_sorted (h.sorted w (mem_of_getElem? hw))
  rw [InternalSourceMap.find, hi]
  simp only [bind_eq_bind, bind_some, hsd,
    hrd.findLoop rfl hds hf hlen hle htr, foundIn]
  rw [filter_cons_of_pos (p := fun t : State => t.lessOrEqual line col) hle,
    getLast?_cons, bind_some, bind_some]

/-- Of the mappings `all` of a window, those up to `state` are decoded; the reader stands before
the `rest`. -/
structure Reached (all decoded : List State) (decodedCount : ℕ) (r : WindowReader)
    (done : List State) (state : State) (rest : List State) : Prop where
  split : all = done ++ state :: rest
  count : decodedCount = done.length + 1
  take : decoded.take decodedCount = done ++ [state]
  reads : ∃ ds, deltas state rest = some ds ∧ r.Reads done.length ds

variable {all decoded done rest : List State} {decodedCount : ℕ} {r : WindowReader} {state : State}

theorem Reached.getElem? (h : Reached all decoded decodedCount r done state rest) :
    decoded[decodedCount - 1]? = some state := by
  have hlt : decodedCount - 1 < decodedCount := by
    have := h.count
    omega
  rw [← getElem?_take_of_lt hlt, h.take, h.count, Nat.add_sub_cancel,
    getElem?_concat_length]

/-- Mappings are decoded until one is behind the place. -/
theorem Reached.fillLoop (line col : ℤ)
    (h : Reached all decoded decodedCount r done state rest) (hf : ∀ t ∈ rest, t.Fits)
    (hlen : decoded.length = syncInterval)
    (hall : all.length ≤ syncInterval) {n : ℕ} (hn : rest.length < n) :
    ∃ r' decoded' decodedCount' done' state' rest',
      InternalSourceMap.fillLoop line col n r state decoded decodedCount =
        some (r', decoded', decodedCount')
      ∧ Reached all decoded' decodedCount' r' done' state' rest'
      ∧ decoded'.length = syncInterval
      ∧ (rest' = [] ∨ state'.lessOrEqual line col = false) := by
  induction rest generalizing decoded decodedCount r done state n with
  | nil =>
    obtain ⟨n, rfl⟩ : ∃ k, n = k + 1 := ⟨n - 1, by simp at hn; omega⟩
    obtain ⟨ds, hds, hrd⟩ := h.reads
    obtain rfl := some.inj hds
    refine ⟨r, decoded, decodedCount, done, state, [], ?_, h, hlen, Or.inl rfl⟩
    rw [InternalSourceMap.fillLoop, hrd.done]
    rfl
  | cons t rest ih =>
    obtain ⟨n, rfl⟩ : ∃ k, n = k + 1 := ⟨n - 1, by simp at hn; omega⟩
    obtain ⟨ds, hds, hrd⟩ := h.reads
    obtain ⟨d, ds', hd, hds', rfl⟩ := deltas_cons hds
    have ht := hf t mem_cons_self
    obtain ⟨r', hnx, hrd'⟩ := hrd.next (delta_eq_some ht hd).1 ht
    have hcn := h.count
    have hrm : decodedCount < syncInterval := by
      have := h.split ▸ hall
      simp only [length_append, length_cons] at this
      omega
    have hdn : r.done = false := hrd.done
    by_cases hle : state.lessOrEqual line col = true
    · have hnew : Reached all (decoded.set decodedCount t) (decodedCount + 1) r' (done ++ [state])
          t rest := by
        refine ⟨by rw [h.split]; simp, by simp [hcn], ?_, ds', hds', by simpa using hrd'⟩
        rw [take_add_one, take_set_of_le le_rfl, h.take,
          getElem?_set_self (hlen ▸ hrm), toList_some]
      rw [InternalSourceMap.fillLoop, hdn, hle]
      simp only [Bool.not_false, Bool.and_self, if_true, bind_eq_bind, hnx,
        bind_some, if_pos hrm]
      exact ih hnew (fun u hu => hf u (mem_cons_of_mem _ hu)) (by simpa using hlen)
        (by simpa using hn)
    · have hle' : state.lessOrEqual line col = false := by simpa using hle
      refine ⟨r, decoded, decodedCount, done, state, t :: rest, ?_, h, hlen, Or.inr hle'⟩
      rw [InternalSourceMap.fillLoop, hdn, hle']
      rfl

theorem Reached.searchDecoded (h : Reached all decoded decodedCount r done state rest)
    (hst : rest = [] ∨ state.lessOrEqual line col = false)
    (htr : Turns (fun t : State => t.lessOrEqual line col) all) :
    InternalSourceMap.searchDecoded line col decoded decodedCount =
      some (foundIn line col all) := by
  have hsp : all = (done ++ [state]) ++ rest := by rw [h.split]; simp
  rw [hsp] at htr ⊢
  have hlf := htr.append_left
  have hfl : ((done ++ [state]) ++ rest).filter (fun t => t.lessOrEqual line col) =
      (done ++ [state]).filter fun t => t.lessOrEqual line col := by
    rw [filter_append]
    rcases hst with rfl | hst
    · rw [filter_nil, append_nil]
    · rw [htr.filter_right (a := state) (by simp) (by simp [hst]), append_nil]
  have hlen : (done ++ [state]).length = decodedCount := by simp [h.count]
  have hle : (done ++ [state]).countP (fun t => t.lessOrEqual line col) ≤ decodedCount :=
    hlen ▸ countP_le_length
  have hts : ∀ i < decodedCount,
      ((done ++ [state])[i]?.map fun s : State => s.lessOrEqual line col) =
        some (decide (i < (done ++ [state]).countP fun t => t.lessOrEqual line col)) := by
    intro i hi
    rw [getElem?_eq_getElem (hlen ▸ hi), map_some, hlf.getElem (hlen ▸ hi)]
  have hsr := bisect_eq hts (show decodedCount - 0 ≤ decodedCount from le_rfl)
    (Nat.zero_le _) hle le_rfl
  rw [InternalSourceMap.searchDecoded, h.take, hsr, foundIn, hfl, hlf.getLast?_filter]
  simp only [bind_eq_bind, bind_some]
  split_ifs with h0
  · rfl
  · rw [getElem?_eq_getElem (by omega), bind_some, bind_some]

end

section

variable {m : InternalSourceMap} {line col : ℤ} {memory : ℕ → Option InternalSourceMap}
  {set : FindCache} {slot : FindCacheSlot} {data syncIdx i : ℕ}

/-- The windows of the map are in order. -/
def InternalSourceMap.Sorted (m : InternalSourceMap) : Prop := ∃ wins, Ordered m wins

/-- The slot holds a part of its window of the blob. -/
def FindCacheSlot.Filled (slot : FindCacheSlot) (m : InternalSourceMap) : Prop :=
  ∃ wins w r done state rest, Ordered m wins ∧ wins[slot.syncIdx]? = some w
    ∧ slot.reader = some r
    ∧ Reached (w.1 :: w.2) slot.decoded slot.decodedCount r done state rest

/-- A slot that is in use has the data of its key, and a part of a window of a blob that lives. -/
structure FindCacheSlot.Sound (memory : ℕ → Option InternalSourceMap) (k : FindCache.Key)
    (slot : FindCacheSlot) : Prop where
  length : slot.decoded.length = syncInterval
  key : ∀ data, slot.data = some data → k.data = some data
  filled : ∀ data, slot.data = some data → ∃ m, memory data = some m ∧ slot.Filled m

/-- Each slot has the beginning of its window. -/
structure FindCache.Sound (memory : ℕ → Option InternalSourceMap) (set : FindCache) : Prop where
  length : set.keys.length = slotCount
  nextVictim : set.nextVictim < slotCount
  slots : List.Forall₂ (FindCacheSlot.Sound memory) set.keys set.slots

variable {k : FindCache.Key}

theorem FindCacheSlot.sound_of_none (hlen : slot.decoded.length = syncInterval)
    (h : slot.data = none) : slot.Sound memory k :=
  ⟨hlen, fun data hd => by simp [h] at hd, fun data hd => by simp [h] at hd⟩

theorem FindCache.sound_init (memory : ℕ → Option InternalSourceMap) :
    ({} : FindCache).Sound memory := by
  refine ⟨length_replicate, by decide, forall₂_iff_get.2 ⟨rfl, fun i h h' => ?_⟩⟩
  simp only [get_eq_getElem, getElem_replicate]
  exact FindCacheSlot.sound_of_none length_replicate rfl

theorem forall₂_set {α β : Type} {R : α → β → Prop} {l : List α} {l' : List β} {a : α} {b : β}
    (h : List.Forall₂ R l l') (hab : R a b) (i : ℕ) : List.Forall₂ R (l.set i a) (l'.set i b) := by
  induction h generalizing i with
  | nil => exact Forall₂.nil
  | cons hxy h ih =>
    rcases i with _ | i
    · exact Forall₂.cons hab h
    · exact Forall₂.cons hxy (ih i)

theorem forall₂_zipWith {α β : Type} {R S : α → β → Prop} {f : α → α} {g : α → β → β}
    {l : List α} {l' : List β} (h : List.Forall₂ R l l') (hfg : ∀ a b, R a b → S (f a) (g a b)) :
    List.Forall₂ S (l.map f) (List.zipWith g l l') := by
  induction h with
  | nil => exact Forall₂.nil
  | cons hxy h ih => exact Forall₂.cons (hfg _ _ hxy) ih

/-- A slot that does not hold the blob at `data` does not see what becomes of it. -/
theorem FindCacheSlot.Sound.update (h : slot.Sound memory k)
    (hne : slot.data ≠ some data) (blob : Option InternalSourceMap) :
    slot.Sound (Function.update memory data blob) k := by
  refine ⟨h.length, h.key, fun data' hd => ?_⟩
  have : data' ≠ data := by
    rintro rfl
    exact hne hd
  rw [Function.update_of_ne this]
  exact h.filled data' hd

/-- After `invalidate` no slot holds the blob, and another may lie at its address. -/
theorem FindCache.Sound.invalidate (h : set.Sound memory) (data : ℕ)
    (blob : Option InternalSourceMap) :
    (set.invalidate data).Sound (Function.update memory data blob) := by
  refine ⟨by simpa [FindCache.invalidate] using h.length, h.nextVictim,
    forall₂_zipWith h.slots fun k slot hsl => ?_⟩
  by_cases hk : k.data = some data
  · simp only [if_pos hk]
    exact FindCacheSlot.sound_of_none hsl.length rfl
  · simp only [if_neg hk]
    exact hsl.update (fun hd => hk (hsl.key data hd)) blob

theorem FindCache.Sound.invalidateAll (h : set.Sound memory)
    (memory' : ℕ → Option InternalSourceMap) : set.invalidateAll.Sound memory' := by
  refine ⟨by simpa [FindCache.invalidateAll] using h.length, h.nextVictim, ?_⟩
  simp only [FindCache.invalidateAll, forall₂_map_left_iff, forall₂_map_right_iff]
  exact h.slots.imp fun k slot hsl => FindCacheSlot.sound_of_none hsl.length rfl

theorem FindCache.Sound.slotFor (h : set.Sound memory) (data syncIdx : ℕ) :
    ∃ i nextVictim, set.slotFor data syncIdx = ({ set with
        keys := set.keys.set i ⟨some data, syncIdx⟩, nextVictim }, i)
      ∧ i < slotCount ∧ nextVictim < slotCount := by
  have hlen := h.length
  have hvc := h.nextVictim
  rw [FindCache.slotFor]
  split
  · rename_i i hown
    obtain ⟨hi, hkey, -⟩ := findIdx?_eq_some_iff_getElem.1 hown
    have hkey : set.keys[i] = ⟨some data, syncIdx⟩ := by
      rcases hk : set.keys[i] with ⟨d, s⟩
      simpa [hk] using hkey
    refine ⟨i, set.nextVictim, ?_, hlen ▸ hi, hvc⟩
    rw [← hkey, set_getElem_self]
  · split
    · rename_i i hfr
      obtain ⟨hi, -⟩ := findIdx?_eq_some_iff_getElem.1 hfr
      exact ⟨i, set.nextVictim, rfl, hlen ▸ hi, hvc⟩
    · exact ⟨set.nextVictim, (set.nextVictim + 1) &&& (slotCount - 1), rfl, hvc,
        Nat.lt_of_le_of_lt Nat.and_le_right (by decide)⟩

theorem FindCacheSlot.Sound.seed (h : slot.Sound memory k)
    (hm : memory data = some m) {wins : List (State × List State)} (ho : Ordered m wins)
    {w : State × List State} (hw : wins[syncIdx]? = some w) :
    ∃ slot' : FindCacheSlot,
      (if slot.data ≠ some data ∨ slot.syncIdx ≠ syncIdx ∨ slot.decodedCount = 0 then do
        let (state, reader) ← m.seedWindow syncIdx
        some {
          data := some data, syncIdx, decodedCount := 1, reader := some reader
          decoded := slot.decoded.set 0 state }
      else some slot) = some slot'
      ∧ slot'.data = some data ∧ slot'.syncIdx = syncIdx
      ∧ slot'.decoded.length = syncInterval ∧ slot'.Filled m := by
  split_ifs with hot
  · obtain ⟨r, ds, hsd, hds, hrd, -, -⟩ := ho.holds.seedWindow hw
    simp only [bind_eq_bind, hsd, bind_some]
    refine ⟨_, rfl, rfl, rfl, by simpa using h.length, wins, w, r, [], w.1, w.2, ho, hw, rfl, ?_⟩
    obtain ⟨s, l, hl⟩ : ∃ s l, slot.decoded = s :: l :=
      exists_cons_of_length_pos (h.length ▸ by decide)
    exact ⟨rfl, rfl, by simp [hl], ds, hds, hrd⟩
  · simp only [not_or, not_not] at hot
    obtain ⟨m', hm', hfl⟩ := h.filled data hot.1
    obtain rfl : m = m' := some.inj (hm.symm.trans hm')
    exact ⟨slot, rfl, hot.1, hot.2.1, h.length, hfl⟩

/-- From a part of the window, the lookup goes on to what `find` finds. -/
theorem FindCacheSlot.Filled.lookup (h : slot.Filled m) (hlen : slot.decoded.length = syncInterval)
    (hloc : m.locateWindow line col = some (some slot.syncIdx)) :
    ∃ state reader found reader' decoded' decodedCount',
      slot.decoded[slot.decodedCount - 1]? = some state ∧ slot.reader = some reader
      ∧ fillLoop line col syncInterval reader state slot.decoded slot.decodedCount =
        some (reader', decoded', decodedCount')
      ∧ searchDecoded line col decoded' decodedCount' = some found
      ∧ m.find line col = some found ∧ decoded'.length = syncInterval
      ∧ FindCacheSlot.Filled { slot with
          reader := some reader', decoded := decoded', decodedCount := decodedCount' } m := by
  obtain ⟨wins, w, r, done, state, rest, ho, hw, hr, hrc⟩ := h
  obtain ⟨w', hw', hle⟩ : ∃ w', wins[slot.syncIdx]? = some w' ∧ w'.1.lessOrEqual line col := by
    rcases ho.holds.exists_locateWindow line col with hno | ⟨j, w', hj, hw', hle⟩
    · rw [hloc] at hno
      simp at hno
    · rw [hloc, some.injEq, some.injEq] at hj
      exact ⟨w', hj ▸ hw', hle⟩
  obtain rfl : w = w' := some.inj (hw.symm.trans hw')
  obtain ⟨-, -, -, -, -, hf, hrm⟩ := ho.holds.seedWindow hw
  have hsp := hrc.split
  have hsub : ∀ t ∈ rest, t ∈ w.2 := by
    rcases done with _ | ⟨a, done⟩
    · simp [(List.cons.inj hsp).2]
    · rw [(List.cons.inj hsp).2]
      exact fun t ht => mem_append_right _ (mem_cons_of_mem _ ht)
  have hall : (w.1 :: w.2).length ≤ syncInterval := hrm
  have hrs : rest.length < syncInterval := by
    have := hsp ▸ hall
    simp only [length_append, length_cons] at this
    omega
  obtain ⟨r', decoded', decodedCount', done', state', rest', hfl, hrc', hlen', hst⟩ :=
    hrc.fillLoop line col (fun t ht => hf t (hsub t ht)) hlen hall hrs
  have htr : Turns (fun t : State => t.lessOrEqual line col) (w.1 :: w.2) :=
    turns_of_sorted (ho.sorted w (mem_of_getElem? hw))
  exact ⟨state, r, _, r', decoded', decodedCount', hrc.getElem?, hr, hfl,
    hrc'.searchDecoded hst htr, ho.find hloc hw hle, hlen',
    wins, w, r', done', state', rest', ho, hw, rfl, hrc'⟩

/-- A lookup finds what `find` does, and leaves the cache sound. -/
theorem FindCache.Sound.findWithCache (h : set.Sound memory) (hm : memory data = some m)
    (hs : m.Sorted) (line col : ℤ) :
    ∃ set' found, m.findWithCache data line col set = some (set', found)
      ∧ m.find line col = some found ∧ set'.Sound memory := by
  obtain ⟨wins, ho⟩ := hs
  rcases ho.holds.exists_locateWindow line col with hloc | ⟨syncIdx, w, hloc, hw, -⟩
  · refine ⟨set, none, ?_, ?_, h⟩
    · rw [InternalSourceMap.findWithCache, hloc]
      rfl
    · rw [InternalSourceMap.find, hloc]
      rfl
  · obtain ⟨i, nextVictim, hslotFor, hi, hvc⟩ := h.slotFor data syncIdx
    have hi' : i < set.slots.length := h.slots.length_eq ▸ h.length ▸ hi
    have hk : i < set.keys.length := h.length ▸ hi
    have hsn : set.slots[i].Sound memory set.keys[i] :=
      (forall₂_iff_get.1 h.slots).2 i hk hi'
    obtain ⟨slot, hsd, hdt, rfl, hlen, hfl⟩ := hsn.seed hm ho hw
    obtain ⟨state, r, found, r', decoded', decodedCount', hst, hr, hfi, hsr, hfn, hlen',
      hfl'⟩ := hfl.lookup hlen hloc
    refine ⟨{
        keys := set.keys.set i ⟨some data, slot.syncIdx⟩
        slots := set.slots.set i { slot with
          reader := some r', decoded := decoded', decodedCount := decodedCount' }
        nextVictim }, found, ?_, hfn, ?_⟩
    · rw [InternalSourceMap.findWithCache, hloc]
      simp only [bind_eq_bind, bind_some, hslotFor,
        getElem?_eq_getElem hi'] at hsd ⊢
      simp only [hsd, bind_some, hst, hr, hfi, hsr]
    · refine ⟨by simpa using h.length, hvc, forall₂_set h.slots ⟨hlen', ?_, ?_⟩ i⟩
      · exact fun data' hd => hd.symm.trans hdt ▸ rfl
      · intro data' hd
        obtain rfl : data = data' := some.inj (hdt.symm.trans hd)
        exact ⟨m, hm, hfl'⟩

end

/-- All maps are sorted and the cache is right about them. -/
structure CacheWorld.Sound (w : CacheWorld) : Prop where
  sorted : ∀ data m, w.memory data = some m → m.Sorted
  cache : w.cache.Sound w.memory

/-- The lookup is one that `find` makes too. -/
def CacheLookup.Found (l : CacheLookup) : Prop := l.blob.find l.line l.column = some l.found

instance (l : CacheLookup) : Decidable l.Found := inferInstanceAs (Decidable (_ = _))

/-- Every call leaves a cache that is right, and a lookup finds what the map has. -/
theorem CacheWorld.Sound.step {w : CacheWorld} {op : CacheOp} (h : w.Sound)
    (hop : ∀ all data m, op = .reuse all data (some m) → m.Sorted) :
    ∃ w' e, w.step op = some (w', e) ∧ w'.Sound ∧ ∀ l, e = some l → l.Found := by
  rcases op with ⟨data, line, column⟩ | data | _ | ⟨all, data, blob⟩
  · rcases hm : w.memory data with _ | m
    · exact ⟨w, none, by rw [CacheWorld.step, hm], h, by simp⟩
    · obtain ⟨set', found, hcd, hfn, hset'⟩ :=
        h.cache.findWithCache hm (h.sorted data m hm) line column
      refine ⟨{ w with cache := set' }, some ⟨m, line, column, found⟩, ?_, ⟨h.sorted, hset'⟩, ?_⟩
      · simp [CacheWorld.step, hm, hcd]
      · intro l hl
        obtain rfl := some.inj hl
        exact hfn
  · have hch := h.cache.invalidate data (w.memory data)
    rw [Function.update_eq_self] at hch
    exact ⟨_, none, rfl, ⟨h.sorted, hch⟩, by simp⟩
  · exact ⟨_, none, rfl, ⟨h.sorted, h.cache.invalidateAll w.memory⟩, by simp⟩
  · refine ⟨_, none, rfl, ⟨fun data' m hm => ?_, ?_⟩, by simp⟩
    · by_cases hd : data' = data
      · subst hd
        simp only [Function.update_self] at hm
        exact hop all data' m (by rw [hm])
      · simp only [Function.update_of_ne hd] at hm
        exact h.sorted data' m hm
    · rcases all with _ | _
      · exact h.cache.invalidate data blob
      · exact h.cache.invalidateAll _

/-- Whatever was asked before, the cache finds what `find` does. -/
theorem findWithCache_run {memory : ℕ → Option InternalSourceMap} {ops : List CacheOp}
    (hmemory : ∀ data m, memory data = some m → m.Sorted)
    (hops : ∀ all data m, .reuse all data (some m) ∈ ops → m.Sorted) :
    ∃ w es, run CacheWorld.step { memory } ops = some (w, es) ∧ ∀ l, some l ∈ es → l.Found := by
  have hstep : ∀ {w : CacheWorld} {op : CacheOp}, w.Sound →
      (∀ all data m, op = .reuse all data (some m) → m.Sorted) →
      ∃ w' e, w.step op = some (w', e) ∧ w'.Sound ∧ ∀ l, e = some l → l.Found :=
    fun h hop => h.step hop
  have hinit : CacheWorld.Sound { memory } := ⟨hmemory, FindCache.sound_init memory⟩
  obtain ⟨w, es, hrun, -, hes⟩ := exists_run_inv hstep hinit
    fun op hop all data m heq => hops all data m (heq ▸ hop)
  exact ⟨w, es, hrun, fun l hl => hes _ hl l rfl⟩

theorem encodeBlob_sorted {lines : ℕ} {es : List Event} {blob : List UInt8}
    (hf : ∀ c, .mapping c ∈ es → c.Fits)
    (hs : (recorded 0 es).Pairwise fun a b => a.generated.Before b.generated)
    (hb : encodeBlob lines es = some blob) : (InternalSourceMap.mk blob).Sorted := by
  obtain ⟨-, wins, hpc, hhl⟩ := encode_holds hf hb
  rw [← hpc] at hs
  exact ⟨wins, hhl, fun w hw => hs.sublist (sublist_pieces hw)⟩

/-- The calls that record mappings on the first line, at these columns. -/
def onFirstLine (columns : List ℤ) : List Event :=
  columns.map fun c => .mapping ⟨0, c, 0, 0, 0⟩

/-- Two lookups in one window, the second to the left of the first. -/
theorem findWithCache_run_again :
    ∃ blob, encodeBlob 1 (onFirstLine [0, 3, 5, 10]) = some blob
      ∧ ∃ w es, run CacheWorld.step { memory := Function.update (fun _ => none) 7 (some ⟨blob⟩) }
          [.findWithCache 7 0 20, .findWithCache 7 0 4] = some (w, es)
        ∧ ∀ l, some l ∈ es → l.Found := by
  have hb : (encodeBlob 1 (onFirstLine [0, 3, 5, 10])).isSome := by decide +kernel
  obtain ⟨blob, hb⟩ := isSome_iff_exists.1 hb
  have hf : ∀ c, .mapping c ∈ onFirstLine [0, 3, 5, 10] → c.Fits := by
    intro c hc
    fin_cases hc <;> exact ⟨by decide, by decide, by decide, by decide⟩
  have hs : (recorded 0 (onFirstLine [0, 3, 5, 10])).Pairwise fun a b =>
      a.generated.Before b.generated := by
    simp [onFirstLine, recorded, LineColumnOffset.Before, State.generated, SourceMapState.on]
  refine ⟨blob, hb, findWithCache_run (fun data m hm => ?_) (by simp)⟩
  by_cases hd : data = 7
  · subst hd
    rw [Function.update_self, some.injEq] at hm
    exact hm ▸ encodeBlob_sorted hf hs hb
  · rw [Function.update_of_ne hd] at hm
    simp at hm

/-- In a window that is not sorted, what is decoded further on hides what `find` stops at. -/
theorem findWithCache_run_refuted :
    ¬ ∀ blob w es, encodeBlob 1 (onFirstLine [0, 5, 3, 10]) = some blob →
      run CacheWorld.step { memory := Function.update (fun _ => none) 7 (some ⟨blob⟩) }
        [.findWithCache 7 0 20, .findWithCache 7 0 4] = some (w, es) →
      ∀ l, some l ∈ es → l.Found := by
  intro h
  have hb : (encodeBlob 1 (onFirstLine [0, 5, 3, 10])).any (fun blob =>
      (run CacheWorld.step { memory := Function.update (fun _ => none) 7 (some ⟨blob⟩) }
        [.findWithCache 7 0 20, .findWithCache 7 0 4]).any fun r =>
          r.2.any fun e => e.any fun l => decide ¬ l.Found) := by decide +kernel
  simp only [Option.any_eq_true, List.any_eq_true, decide_eq_true_eq] at hb
  obtain ⟨blob, hblob, r, hr, e, he, l, rfl, hl⟩ := hb
  exact hl (h blob r.1 r.2 hblob hr l he)

end Cruller.SourceMap
