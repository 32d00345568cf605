import Cruller.Collections.FifoRemoval
import Cruller.Collections.FifoSlices
import Cruller.Lib.Run

/-!
# A `LinearFifo` is a list queue

Slices are written and read in at most two pieces, and put back in front of the head, while the
allocator may refuse to grow the buffer. Each call does to the items what it does to a list
(`Holds.step`), so a run hands out and keeps the items of a list queue (`run_refines`). A call
panics where an index is wrapped into a buffer of no length: `unget` of nothing before the buffer
has grown, and for a remainder also `discard` of nothing.
-/

namespace Cruller

open List Option Nat

/-- Zig has no power of two to test for a static buffer of no length. -/
def LinearFifoBufferType.Valid : LinearFifoBufferType → Prop
  | Static size => size ≠ 0
  | _ => True

namespace LinearFifo

variable {ty : FifoType} {α : Type*}

/-- The fifo over a buffer, which only a `Slice` is given. -/
def init (buf : List (Option α)) : LinearFifo ty α :=
  match ty.bufferType with
  | .Static size => initStatic size
  | .Slice => ⟨buf, 0, 0⟩
  | .Dynamic => initDynamic

/-- `ensureTotalCapacity` where the allocator may be out of memory; whether there is room, and the
fifo, which has been turned before the allocator was asked. -/
def tryEnsureTotalCapacity (alloc : Bool) (f : LinearFifo ty α) (size : ℕ) :
    Bool × LinearFifo ty α :=
  if size ≤ f.buf.length then (true, f)
  else if ty.bufferType = .Dynamic ∧ alloc = false then (false, f.realign)
  else
    match f.ensureTotalCapacity size with
    | some f => (true, f)
    | none => (false, f)

/-- Room for `size` more items, if the allocator has it. -/
def tryEnsureUnusedCapacity (alloc : Bool) (f : LinearFifo ty α) (size : ℕ) :
    Bool × LinearFifo ty α :=
  if size ≤ f.writableLength then (true, f) else f.tryEnsureTotalCapacity alloc (f.count + size)

/-- `none` is a panic: an assertion, or a remainder by zero. -/
def tryDiscard (f : LinearFifo ty α) (count : ℕ) : Option (LinearFifo ty α) :=
  if count ≤ f.count ∧ (ty.bufferType.powersOfTwo ∨ 0 < f.buf.length) then some (f.discard count)
  else none

/-- `@memcpy` into a part of the buffer. -/
def copyTo (buf : List (Option α)) (dest : ℕ × ℕ) (src : List α) : Option (List (Option α)) :=
  if src.length ≤ dest.2 then splice buf dest.1 (src.map some) else none

/-- The loop of `writeAssumeCapacity`, of no more rounds than items. -/
def writeLoop : ℕ → LinearFifo ty α → List α → Option (LinearFifo ty α)
  | _, f, [] => some f
  | 0, _, _ :: _ => none
  | n + 1, f, src =>
    let slice := f.writableSlice 0
    if slice.2 = 0 then none
    else
      let k := min slice.2 src.length
      (copyTo f.buf slice (src.take k)).bind fun buf =>
        (({ f with buf } : LinearFifo ty α).update k).bind fun f => writeLoop n f (src.drop k)

/-- The items are written, in as many pieces as the buffer has. -/
def writeAssumeCapacity (f : LinearFifo ty α) (src : List α) : Option (LinearFifo ty α) :=
  if src.length ≤ f.writableLength then writeLoop src.length f src else none

/-- The loop of `read`, of no more rounds than items, and what it has copied. -/
def readLoop : ℕ → LinearFifo ty α → ℕ → Option (List α × LinearFifo ty α)
  | _, f, 0 => some ([], f)
  | 0, _, _ + 1 => none
  | n + 1, f, dst_left =>
    let slice := f.readableSlice 0
    if slice = [] then some ([], f)
    else
      let k := min slice.length dst_left
      (f.tryDiscard k).bind fun f =>
        (readLoop n f (dst_left - k)).map fun r => (slice.take k ++ r.1, r.2)

/-- At most `n` items from the front. -/
def read (f : LinearFifo ty α) (n : ℕ) : Option (List α × LinearFifo ty α) := readLoop n f n

/-- Where `readableSliceMut` starts and how long it is. -/
def readableRegion (f : LinearFifo ty α) (offset : ℕ) : ℕ × ℕ :=
  if f.count < offset then (0, 0)
  else
    let start := f.head + offset
    if f.buf.length ≤ start then (start - f.buf.length, f.count - offset)
    else (start, min (f.head + f.count) f.buf.length - start)

/-- The copies of `unget`, once the head is where the slice is to start. -/
def ungetCopy (f : LinearFifo ty α) (src : List α) : Option (List (Option α)) :=
  let slice := f.readableRegion 0
  if src.length < slice.2 then copyTo f.buf slice src
  else
    (copyTo f.buf slice (src.take slice.2)).bind fun buf =>
      copyTo buf (f.readableRegion slice.2) (src.drop slice.2)

/-- `unget` where there is room. -/
def ungetAssumeCapacity (f : LinearFifo ty α) (src : List α) : Option (LinearFifo ty α) :=
  (f.rewind src.length).bind fun f => (f.ungetCopy src).map fun buf => { f with buf }

/-- The operations of a queue. -/
inductive Op (α : Type*) where
  | write (src : List α)
  | writeItem (item : α)
  | read (n : ℕ)
  | readItem
  | discard (count : ℕ)
  | unget (src : List α)
  | ensureTotalCapacity (size : ℕ)
  | realign

/-- What an operation returned. -/
inductive Event (α : Type*) where
  | OutOfMemory
  | done (items : List α)

/-- What is done once there is room, or `OutOfMemory`. -/
def whenRoom (room : Bool × LinearFifo ty α)
    (act : LinearFifo ty α → Option (LinearFifo ty α)) : Option (LinearFifo ty α × Event α) :=
  if room.1 then (act room.2).map fun f => (f, .done []) else some (room.2, .OutOfMemory)

/-- A call, and whether the allocator has memory; `none` is a panic. -/
def step (f : LinearFifo ty α) : Op α × Bool → Option (LinearFifo ty α × Event α)
  | (.write src, alloc) =>
    whenRoom (f.tryEnsureUnusedCapacity alloc src.length) fun f => f.writeAssumeCapacity src
  | (.writeItem item, alloc) =>
    whenRoom (f.tryEnsureUnusedCapacity alloc 1) fun f => some (f.writeItemAssumeCapacity item)
  | (.read n, _) => (f.read n).map fun r => (r.2, .done r.1)
  | (.readItem, _) => some (f.readItem.2, .done f.readItem.1.toList)
  | (.discard count, _) => (f.tryDiscard count).map fun f => (f, .done [])
  | (.unget src, alloc) =>
    whenRoom (f.tryEnsureUnusedCapacity alloc src.length) fun f => f.ungetAssumeCapacity src
  | (.ensureTotalCapacity size, alloc) => whenRoom (f.tryEnsureTotalCapacity alloc size) some
  | (.realign, _) => some (f.realign, .done [])

/-- A call that may be made: no more is discarded than there is, and no index is wrapped into a
buffer of no length. -/
def Allows (f : LinearFifo ty α) : Op α → Prop
  | .discard count => count ≤ f.count ∧ (ty.bufferType.powersOfTwo ∨ 0 < f.buf.length)
  | .unget src => src ≠ [] ∨ 0 < f.buf.length
  | _ => True

/-- All calls of the run may be made where they are. -/
def AllowsAll : LinearFifo ty α → List (Op α × Bool) → Prop
  | _, [] => True
  | f, call :: calls =>
    f.Allows call.1 ∧ ∀ g event, f.step call = some (g, event) → g.AllowsAll calls

/-- What the operation does to a queue without a buffer. -/
def Op.apply : Op α → List α → List α × List α
  | .write src, xs => ([], xs ++ src)
  | .writeItem item, xs => ([], xs ++ [item])
  | .read n, xs => (xs.take n, xs.drop n)
  | .readItem, xs => (xs.take 1, xs.drop 1)
  | .discard count, xs => ([], xs.drop count)
  | .unget src, xs => ([], src ++ xs)
  | .ensureTotalCapacity _, xs => ([], xs)
  | .realign, xs => ([], xs)

/-- How many items there must be room for. -/
def Op.demand : Op α → List α → ℕ
  | .write src, xs => xs.length + src.length
  | .writeItem _, xs => xs.length + 1
  | .unget src, xs => xs.length + src.length
  | .ensureTotalCapacity size, _ => size
  | _, _ => 0

/-- The event is that of the list queue: out of memory for want of room, of which a dynamic fifo has
no bound (`none`) but what the allocator has. -/
def Op.Makes (capacity : Option ℕ) (call : Op α × Bool) (xs : List α) (event : Event α)
    (ys : List α) : Prop :=
  match event with
  | .done items => (items, ys) = call.1.apply xs ∧ ∀ size ∈ capacity, call.1.demand xs ≤ size
  | .OutOfMemory => ys = xs ∧
      match capacity with
      | some size => size < call.1.demand xs
      | none => call.2 = false

/-- The events of a run are those of the list queue, and so is what remains. -/
inductive Follows (capacity : Option ℕ) :
    List α → List (Op α × Bool) → List (Event α) → List α → Prop
  | nil (xs : List α) : Follows capacity xs [] [] xs
  | cons {xs ys zs : List α} {call : Op α × Bool} {calls : List (Op α × Bool)} {event : Event α}
      {events : List (Event α)} (h : Op.Makes capacity call xs event ys)
      (hrest : Follows capacity ys calls events zs) :
      Follows capacity xs (call :: calls) (event :: events) zs

/-- How many items fit, unless the buffer grows. -/
def capacity (f : LinearFifo ty α) : Option ℕ :=
  if ty.bufferType = .Dynamic then none else some f.buf.length

/-- What asking for room returns: the items are where they were, and there is room, or there is none
for a reason. -/
structure Room (f : LinearFifo ty α) (xs : List α) (alloc : Bool) (size : ℕ)
    (r : Bool × LinearFifo ty α) : Prop where
  holds : r.2.Holds xs
  capacity : r.2.capacity = f.capacity
  grows : f.buf.length ≤ r.2.buf.length
  fits : r.1 = true → size ≤ r.2.buf.length ∧ ∀ c ∈ f.capacity, size ≤ c
  refused : r.1 = false → match f.capacity with
    | some c => c < size
    | none => alloc = false

variable {f : LinearFifo ty α} {buf : List (Option α)} {dest : ℕ × ℕ} {src : List α}

theorem capacity_of_length {g : LinearFifo ty α} (h : g.buf.length = f.buf.length) :
    g.capacity = f.capacity := by
  rw [capacity, capacity, h]

theorem le_of_mem_capacity {c : ℕ} (h : c ∈ f.capacity) :
    ty.bufferType ≠ .Dynamic ∧ c = f.buf.length := by
  rw [capacity] at h
  split_ifs at h with hty
  · cases h
  · exact ⟨hty, (some.inj h).symm⟩

theorem writableSlice_pos (hfr : f.count < f.buf.length) :
    0 < (f.writableSlice 0).2 := by
  rw [writableSlice, if_neg (Nat.not_lt_zero _)]
  simp only [writableLength]
  split_ifs <;> simp only <;> omega

theorem getElem_copyTo {buf' : List (Option α)}
    (h : copyTo buf dest src = some buf') (j : ℕ) : buf'[j]? =
      if dest.1 ≤ j ∧ j < dest.1 + src.length then some src[j - dest.1]? else buf[j]? := by
  rw [copyTo] at h
  split_ifs at h
  obtain ⟨hle, rfl⟩ := splice_eq_some h
  rw [length_map] at hle ⊢
  have htk : (buf.take dest.1).length = dest.1 := by
    rw [List.length_take]
    omega
  rw [append_assoc]
  by_cases hbf : j < dest.1
  · rw [if_neg (by omega), getElem?_append_left (by omega), getElem?_take_of_lt hbf]
  rw [getElem?_append_right (by omega), htk]
  by_cases hin : j < dest.1 + src.length
  · rw [if_pos ⟨by omega, hin⟩, getElem?_append_left (by rw [length_map]; omega),
      getElem?_map, getElem?_eq_getElem (by omega)]
    rfl
  · rw [if_neg (by omega), getElem?_append_right (by rw [length_map]; omega),
      getElem?_drop, length_map]
    congr 1
    omega

theorem length_copyTo {buf' : List (Option α)}
    (h : copyTo buf dest src = some buf') : buf'.length = buf.length := by
  rw [copyTo] at h
  split_ifs at h
  exact (agree_splice h).length

theorem exists_copyTo
    (hle : src.length ≤ dest.2) (hend : dest.1 + src.length ≤ buf.length) :
    ∃ buf', copyTo buf dest src = some buf' := by
  rw [copyTo, if_pos hle]
  exact exists_splice (by rwa [length_map])

namespace Holds

variable {f : LinearFifo ty α} {xs : List α}

theorem tryEnsureTotalCapacity (h : f.Holds xs) (alloc : Bool) (size : ℕ) :
    Room f xs alloc size (f.tryEnsureTotalCapacity alloc size) := by
  rw [LinearFifo.tryEnsureTotalCapacity]
  by_cases hsz : size ≤ f.buf.length
  · rw [if_pos hsz]
    refine ⟨h, rfl, le_rfl, fun _ => ⟨hsz, fun c hc => ?_⟩, by simp⟩
    rw [(le_of_mem_capacity hc).2]
    exact hsz
  rw [if_neg hsz]
  by_cases hty : ty.bufferType = .Dynamic
  · have hno : ∀ g : LinearFifo ty α, g.capacity = none := fun g => if_pos hty
    by_cases hal : alloc = false
    · obtain ⟨hhl, -, hlen⟩ := h.realign
      rw [if_pos ⟨hty, hal⟩]
      refine ⟨hhl, capacity_of_length hlen, hlen.ge, by simp, fun _ => ?_⟩
      rw [hno]
      exact hal
    · obtain ⟨g, hg, hhl, hle⟩ := h.ensureTotalCapacity hty size
      rw [if_neg fun hand => hal hand.2, hg]
      refine ⟨hhl, (hno g).trans (hno f).symm, ?_, fun _ => ⟨hle, ?_⟩, by simp⟩
      · exact (not_le.1 hsz).le.trans hle
      · simp [hno]
  · have hno : f.ensureTotalCapacity size = none := by
      rw [LinearFifo.ensureTotalCapacity, if_neg hsz, if_neg hty]
    rw [if_neg fun hand => hty hand.1, hno]
    refine ⟨h, rfl, le_rfl, by simp, fun _ => ?_⟩
    rw [LinearFifo.capacity, if_neg hty]
    exact not_le.1 hsz

theorem tryEnsureUnusedCapacity (h : f.Holds xs) (alloc : Bool) (size : ℕ) :
    Room f xs alloc (xs.length + size) (f.tryEnsureUnusedCapacity alloc size) := by
  have hc := h.count
  have hle := h.count_le
  rw [LinearFifo.tryEnsureUnusedCapacity, writableLength]
  by_cases hsz : size ≤ f.buf.length - f.count
  · rw [if_pos hsz]
    refine ⟨h, rfl, le_rfl, fun _ => ⟨by simp only; omega, fun c hc => ?_⟩, by simp⟩
    rw [(le_of_mem_capacity hc).2]
    omega
  · rw [if_neg hsz, hc]
    exact h.tryEnsureTotalCapacity alloc (xs.length + size)

variable {src : List α} {n : ℕ}

/-- The loop writes all the items, in one piece or two. -/
theorem writeLoop (h : f.Holds xs) (hn : src.length ≤ n)
    (hfr : f.count + src.length ≤ f.buf.length) :
    ∃ g, LinearFifo.writeLoop n f src = some g ∧ g.Holds (xs ++ src)
      ∧ g.buf.length = f.buf.length := by
  induction n generalizing f xs src with
  | zero =>
    obtain rfl := length_eq_zero_iff.1 (le_zero.1 hn)
    exact ⟨f, rfl, by rwa [append_nil], rfl⟩
  | succ n ih =>
    rcases src with _ | ⟨x, src⟩
    · exact ⟨f, rfl, by rwa [append_nil], rfl⟩
    rw [length_cons] at hn hfr
    obtain ⟨hst, hend, hrm⟩ := h.writableSlice_zero (by omega)
    have hpos := writableSlice_pos (f := f) (by omega)
    rw [LinearFifo.writeLoop]
    swap
    · exact nofun
    dsimp only
    generalize hsrc : x :: src = items at *
    have hlen : items.length = src.length + 1 := by rw [← hsrc, length_cons]
    generalize hk : min (f.writableSlice 0).2 items.length = k
    have htk : (items.take k).length = k := by
      rw [List.length_take]
      omega
    have hcp := h.copied hst (show f.count + (items.take k).length ≤ _ by omega) (by omega)
    have hcy : copyTo f.buf (f.writableSlice 0) (items.take k) =
        some (f.buf.take (f.writableSlice 0).1 ++ (items.take k).map some ++
          f.buf.drop ((f.writableSlice 0).1 + (items.take k).length)) := by
      rw [copyTo, if_pos (by omega), splice, if_pos (by rw [length_map]; omega),
        length_map]
    rw [if_neg (by omega), hcy, bind_some]
    generalize hbuf : f.buf.take (f.writableSlice 0).1 ++ (items.take k).map some ++
      f.buf.drop ((f.writableSlice 0).1 + (items.take k).length) = buf at *
    have hbf : buf.length = f.buf.length := by
      simp [← hbuf]
      omega
    rw [htk] at hcp
    rw [update, if_pos (by simp only; omega), bind_some]
    obtain ⟨g, hg, hhl, hgl⟩ := ih hcp
      (show (items.drop k).length ≤ n by rw [length_drop]; omega) (by rw [length_drop]; simp only; omega)
    refine ⟨g, hg, ?_, hgl.trans hbf⟩
    rwa [append_assoc, take_append_drop] at hhl

theorem writeAssumeCapacity (h : f.Holds xs)
    (hfr : xs.length + src.length ≤ f.buf.length) :
    ∃ g, f.writeAssumeCapacity src = some g ∧ g.Holds (xs ++ src)
      ∧ g.buf.length = f.buf.length := by
  have hc := h.count
  rw [LinearFifo.writeAssumeCapacity, if_pos (by rw [writableLength]; omega)]
  exact h.writeLoop le_rfl (by omega)

theorem tryDiscard (h : f.Holds xs) (hn : n ≤ xs.length)
    (hpos : ty.bufferType.powersOfTwo ∨ 0 < f.buf.length) :
    f.tryDiscard n = some (f.discard n) ∧ (f.discard n).Holds (xs.drop n) :=
  ⟨if_pos ⟨by rw [h.count]; exact hn, hpos⟩, h.discard hn⟩

/-- The loop reads the items in order. -/
theorem readLoop (h : f.Holds xs) {dst_left : ℕ} (hn : dst_left ≤ n) :
    ∃ g, LinearFifo.readLoop n f dst_left = some (xs.take dst_left, g)
      ∧ g.Holds (xs.drop dst_left) ∧ g.buf.length = f.buf.length := by
  induction n generalizing f xs dst_left with
  | zero =>
    obtain rfl := le_zero.1 hn
    exact ⟨f, rfl, h, rfl⟩
  | succ n ih =>
    rcases dst_left with _ | dst_left
    · exact ⟨f, rfl, h, rfl⟩
    have hc := h.count
    have hle := h.count_le
    rw [LinearFifo.readLoop]
    swap
    · exact nofun
    rw [h.readableSlice_zero]
    dsimp only
    rcases xs with _ | ⟨x, xs⟩
    · simp
      omega
    have hhd : f.head < f.buf.length := by
      rw [length_cons] at hc
      rcases h.head with hh | hh <;> omega
    generalize hys : x :: xs = ys at *
    have hpos : 0 < ys.length := by
      rw [← hys]
      exact succ_pos _
    have hslice : ys.take (f.buf.length - f.head) ≠ [] := by
      rw [← length_pos_iff, List.length_take]
      omega
    rw [if_neg hslice]
    generalize hk : min (ys.take (f.buf.length - f.head)).length (dst_left + 1) = k
    have hlen : (ys.take (f.buf.length - f.head)).length = min (f.buf.length - f.head) ys.length :=
      List.length_take
    have hslice_pos := length_pos_iff.2 hslice
    obtain ⟨hds, hhl⟩ := h.tryDiscard (n := k) (by omega) (Or.inr (by omega))
    rw [hds, bind_some]
    obtain ⟨g, hg, hgh, hgl⟩ := ih hhl (show dst_left + 1 - k ≤ n by omega)
    refine ⟨g, ?_, ?_, hgl⟩
    · rw [hg, map_some, take_take, Nat.min_eq_left (by omega), ← take_add,
        Nat.add_sub_cancel' (by omega)]
    · rw [drop_drop] at hgh
      rwa [show k + (dst_left + 1 - k) = dst_left + 1 by omega] at hgh

/-- The slots from the head on are those of the slice, up to the end of the buffer and at its
front. -/
theorem ungetCopy {head' count' : ℕ} (hhd : head' < f.buf.length)
    (hcn : src.length ≤ count') (hle : count' ≤ f.buf.length) :
    ∃ buf, ({ f with head := head', count := count' } : LinearFifo ty α).ungetCopy src = some buf
      ∧ buf.length = f.buf.length ∧ ∀ i < f.buf.length,
        buf[(head' + i) % f.buf.length]? =
          if i < src.length then some src[i]? else f.buf[(head' + i) % f.buf.length]? := by
  generalize hg : ({ f with head := head', count := count' } : LinearFifo ty α) = g
  obtain ⟨hgb, hgh, hgc⟩ : g.buf = f.buf ∧ g.head = head' ∧ g.count = count' := by
    rw [← hg]
    exact ⟨rfl, rfl, rfl⟩
  have hrg : g.readableRegion 0 = (head', min (head' + count') f.buf.length - head') := by
    simp [readableRegion, hgb, hgh, hgc]
    omega
  rw [LinearFifo.ungetCopy, hrg, hgb]
  dsimp only
  by_cases hsh : src.length < min (head' + count') f.buf.length - head'
  · obtain ⟨buf, hbuf⟩ := @exists_copyTo _ f.buf
      (head', min (head' + count') f.buf.length - head') src hsh.le (by simp only; omega)
    rw [if_pos hsh]
    refine ⟨buf, hbuf, length_copyTo hbuf, fun i hi => ?_⟩
    rw [getElem_copyTo hbuf, mod_once (by omega)]
    split_ifs <;> first | omega | (congr 2; omega) | rfl
  · rw [if_neg hsh]
    generalize hm : min (head' + count') f.buf.length - head' = m at *
    have htk : (src.take m).length = m := by
      rw [List.length_take]
      omega
    obtain ⟨front, hfr⟩ := @exists_copyTo _ f.buf (head', m) (src.take m)
      (by simp only; omega) (by simp only; omega)
    have hlen := length_copyTo hfr
    -- either the slice reaches the end of the buffer, or nothing is left of it
    have hrg' : g.readableRegion m = if f.buf.length ≤ head' + m then (0, count' - m)
        else (head' + m, 0) := by
      rw [readableRegion, if_neg (by omega), hgb, hgh, hgc]
      dsimp only
      split_ifs <;> rw [Prod.mk.injEq] <;> omega
    have hdr : (src.drop m).length = src.length - m := length_drop
    obtain ⟨buf, hbuf⟩ := @exists_copyTo _ front (g.readableRegion m) (src.drop m)
      (by rw [hrg']; split_ifs <;> simp only <;> omega)
      (by rw [hrg']; split_ifs <;> simp only <;> omega)
    refine ⟨buf, by rw [hfr, bind_some, hbuf], (length_copyTo hbuf).trans hlen,
      fun i hi => ?_⟩
    rw [getElem_copyTo hbuf, hrg', getElem_copyTo hfr, hdr, htk, mod_once (by omega),
      getElem?_drop, getElem?_take]
    split_ifs <;> simp only at * <;> first | omega | (congr 2; omega)

/-- What is put back lies in front of the items. -/
theorem ungetAssumeCapacity (h : f.Holds xs) (hpos : 0 < f.buf.length)
    (hfr : xs.length + src.length ≤ f.buf.length) :
    ∃ g, f.ungetAssumeCapacity src = some g ∧ g.Holds (src ++ xs)
      ∧ g.buf.length = f.buf.length := by
  have hc := h.count
  have hhd : f.head < f.buf.length := by rcases h.head with hh | hh <;> omega
  have hbc : (f.head + (f.buf.length - src.length)) % f.buf.length =
      if f.head < src.length then f.head + (f.buf.length - src.length)
      else f.head - src.length := by
    rw [mod_once (by omega)]
    split_ifs <;> omega
  rw [LinearFifo.ungetAssumeCapacity, rewind, if_pos ⟨by rw [writableLength]; omega, hpos⟩,
    bind_some, h.wrap_eq hpos, hbc]
  generalize hhd' : (if f.head < src.length then f.head + (f.buf.length - src.length)
    else f.head - src.length) = head'
  have hlt : head' < f.buf.length := by
    rw [← hhd']
    split_ifs <;> omega
  obtain ⟨buf, hbuf, hlen, hsl⟩ := ungetCopy (f := f) hlt
    (show src.length ≤ f.count + src.length by omega) (by omega)
  rw [hbuf]
  refine ⟨_, rfl, ?_, hlen⟩
  refine of_slots ?_ (Or.inl ?_) ?_ ?_ fun i hi => ?_
  · simp only [length_append]
    omega
  · simp only [hlen]
    exact hlt
  · simp only [hlen]
    omega
  · intro hp
    rcases h.mask hp with hnil | ⟨k, hk⟩
    · simp [hnil] at hpos
    · exact Or.inr ⟨k, hlen.trans hk⟩
  · rw [length_append] at hi
    simp only [hlen]
    rw [hsl i (by omega)]
    split_ifs with hin
    · rw [getElem?_append_left hin]
    · have hst : (head' + i) % f.buf.length = (f.head + (i - src.length)) % f.buf.length := by
        rw [← hhd']
        split_ifs with hzr
        · rw [show f.head + (f.buf.length - src.length) + i =
            f.head + (i - src.length) + f.buf.length by omega, add_mod_right]
        · congr 1
          omega
      rw [getElem?_append_right (by omega), hst, h.getElem_slot (by omega)]

end Holds

theorem Room.whenRoom {xs ys : List α} {alloc : Bool} {size : ℕ}
    {r : Bool × LinearFifo ty α} (hrm : Room f xs alloc size r) (op : Op α)
    (act : LinearFifo ty α → Option (LinearFifo ty α))
    (hact : size ≤ r.2.buf.length →
      ∃ g, act r.2 = some g ∧ g.Holds ys ∧ g.buf.length = r.2.buf.length)
    (hdm : op.demand xs = size) (hap : op.apply xs = ([], ys)) :
    ∃ g event zs, LinearFifo.whenRoom r act = some (g, event)
      ∧ Op.Makes f.capacity (op, alloc) xs event zs ∧ g.Holds zs ∧ g.capacity = f.capacity := by
  rw [LinearFifo.whenRoom]
  by_cases hr : r.1 = true
  · obtain ⟨hfits, hcp⟩ := hrm.fits hr
    obtain ⟨g, hg, hhl, hlen⟩ := hact hfits
    rw [if_pos hr, hg]
    refine ⟨g, .done [], ys, rfl, ⟨hap.symm, ?_⟩, hhl,
      (capacity_of_length hlen).trans hrm.capacity⟩
    rw [hdm]
    exact hcp
  · rw [if_neg hr]
    refine ⟨r.2, .OutOfMemory, xs, rfl, ⟨rfl, ?_⟩, hrm.holds, hrm.capacity⟩
    rw [hdm]
    exact hrm.refused (Bool.eq_false_iff.2 hr)

/-- A call does to the items what it does to a list. -/
theorem Holds.step {xs : List α} (h : f.Holds xs) {call : Op α × Bool}
    (hal : f.Allows call.1) :
    ∃ g event ys, f.step call = some (g, event) ∧ Op.Makes f.capacity call xs event ys
      ∧ g.Holds ys ∧ g.capacity = f.capacity := by
  obtain ⟨op, alloc⟩ := call
  cases op with
  | write src =>
    have hrm := h.tryEnsureUnusedCapacity alloc src.length
    exact hrm.whenRoom (.write src) (fun f => f.writeAssumeCapacity src)
      (fun hfits => hrm.holds.writeAssumeCapacity hfits) rfl rfl
  | writeItem item =>
    have hrm := h.tryEnsureUnusedCapacity alloc 1
    refine hrm.whenRoom (.writeItem item) (fun f => some (f.writeItemAssumeCapacity item))
      (fun hfits => ⟨_, rfl, ?_, ?_⟩) rfl rfl
    swap
    · exact length_set
    have hcn := hrm.holds.count
    exact hrm.holds.writeItemAssumeCapacity (by omega) item
  | read n =>
    obtain ⟨g, hg, hhl, hlen⟩ := h.readLoop (le_refl n)
    refine ⟨g, .done (xs.take n), xs.drop n, ?_, ⟨rfl, fun _ _ => Nat.zero_le _⟩, hhl,
      capacity_of_length hlen⟩
    rw [LinearFifo.step, LinearFifo.read, hg]
    rfl
  | readItem =>
    rcases xs with _ | ⟨x, xs⟩
    · refine ⟨f, .done [], [], ?_, ⟨rfl, fun _ _ => Nat.zero_le _⟩, h, rfl⟩
      rw [LinearFifo.step, h.readItem_nil]
      rfl
    · obtain ⟨hrd, hhl⟩ := h.readItem
      refine ⟨f.discard 1, .done [x], xs, ?_, ⟨rfl, fun _ _ => Nat.zero_le _⟩, hhl, rfl⟩
      rw [LinearFifo.step, hrd]
      rfl
  | discard count =>
    obtain ⟨hcn, hpos⟩ := hal
    obtain ⟨hds, hhl⟩ := h.tryDiscard (hcn.trans h.count.le) hpos
    refine ⟨f.discard count, .done [], xs.drop count, ?_, ⟨rfl, fun _ _ => Nat.zero_le _⟩,
      hhl, rfl⟩
    rw [LinearFifo.step, hds]
    rfl
  | unget src =>
    have hrm := h.tryEnsureUnusedCapacity alloc src.length
    refine hrm.whenRoom (.unget src) (fun f => f.ungetAssumeCapacity src)
      (fun hfits => hrm.holds.ungetAssumeCapacity ?_ hfits) rfl rfl
    rcases hal with hne | hpos
    · have := length_pos_iff.2 hne
      omega
    · exact hpos.trans_le hrm.grows
  | ensureTotalCapacity size =>
    have hrm := h.tryEnsureTotalCapacity alloc size
    exact hrm.whenRoom (.ensureTotalCapacity size) some
      (fun _ => ⟨_, rfl, hrm.holds, rfl⟩) rfl rfl
  | realign =>
    obtain ⟨hhl, -, hlen⟩ := h.realign
    exact ⟨f.realign, .done [], xs, rfl, ⟨rfl, fun _ _ => Nat.zero_le _⟩, hhl,
      capacity_of_length hlen⟩

theorem holds_init (hty : ty.bufferType.Valid) (buf : List (Option α)) :
    (init buf : LinearFifo ty α).Holds [] := by
  rw [init]
  split
  · rename_i size hsz
    refine holds_initStatic size fun hp => ?_
    rw [hsz] at hty hp
    rw [LinearFifoBufferType.powersOfTwo, beq_iff_eq] at hp
    exact (and_sub_one_eq_zero_iff_isPowerOfTwo hty).1 hp
  · rename_i hsl
    refine ⟨rfl, Or.inr rfl, fun hp => ?_, rfl⟩
    rw [hsl] at hp
    cases hp
  · exact holds_initDynamic

/-- A run of allowed calls comes to an end, and is one of the list queue. -/
theorem Holds.run {calls : List (Op α × Bool)} : ∀ {f : LinearFifo ty α} {xs : List α},
    f.Holds xs → f.AllowsAll calls → ∃ g events ys,
      Cruller.run LinearFifo.step f calls = some (g, events)
      ∧ Follows f.capacity xs calls events ys ∧ g.Holds ys := by
  induction calls with
  | nil => exact fun {f xs} h _ => ⟨f, [], xs, rfl, .nil xs, h⟩
  | cons call calls ih =>
    intro f xs h hal
    obtain ⟨g, event, ys, hst, hmk, hhl, hcp⟩ := h.step hal.1
    obtain ⟨g', events, zs, hrun, hfl, hhl'⟩ := ih hhl (hal.2 g event hst)
    rw [hcp] at hfl
    exact ⟨g', event :: events, zs, run_cons.2 ⟨g, event, events, hst, hrun, rfl⟩,
      .cons hmk hfl, hhl'⟩

/-- The calls that may be made are answered as those of a list queue, and what remains are its
items. -/
theorem run_refines (hty : ty.bufferType.Valid) (buf : List (Option α))
    (calls : List (Op α × Bool)) (hallows : (init buf : LinearFifo ty α).AllowsAll calls) :
    ∃ g events xs, run step (init buf : LinearFifo ty α) calls = some (g, events)
      ∧ Follows (init buf : LinearFifo ty α).capacity [] calls events xs
      ∧ g.toList = xs ∧ g.count = xs.length := by
  obtain ⟨g, events, xs, hrun, hfollows, hholds⟩ := (holds_init hty buf).run hallows
  exact ⟨g, events, xs, hrun, hfollows, hholds.toList, hholds.count⟩

/-- A fifo of bytes that grows. -/
def dynamicBytes : FifoType where
  bufferType := .Dynamic
  tmpLen := 2048
  tmpLen_pos := by decide

/-- Two items are written, one is read and put back. -/
theorem run_refines_unget :
    ∃ g events xs, run step (init [] : LinearFifo dynamicBytes ℕ)
        [(.write [1, 2], true), (.readItem, true), (.unget [1], true)] = some (g, events)
      ∧ Follows (init [] : LinearFifo dynamicBytes ℕ).capacity []
          [(.write [1, 2], true), (.readItem, true), (.unget [1], true)] events xs
      ∧ g.toList = xs ∧ g.count = xs.length := by
  refine run_refines (show dynamicBytes.bufferType.Valid from trivial) [] _ ?_
  refine ⟨trivial, fun f event _ => ⟨trivial, fun g event _ => ⟨Or.inl ?_, fun _ _ _ => trivial⟩⟩⟩
  exact cons_ne_nil _ _

/-- Nothing put back into a fifo that has no buffer yet is a panic. -/
theorem run_refines_refuted :
    ¬∀ calls : List (Op ℕ × Bool), (∀ call ∈ calls, ∀ count, call.1 ≠ .discard count) →
      ∃ g events xs, run step (init [] : LinearFifo dynamicBytes ℕ) calls = some (g, events)
        ∧ Follows (init [] : LinearFifo dynamicBytes ℕ).capacity [] calls events xs
        ∧ g.toList = xs := by
  intro h
  obtain ⟨g, events, xs, hrun, -⟩ := h [(.unget [], true)] (by simp)
  have hnone : (run step (init [] : LinearFifo dynamicBytes ℕ) [(.unget [], true)]).isNone := by
    decide
  rw [hrun] at hnone
  cases hnone

end LinearFifo

end Cruller
