import Mathlib.Data.List.ReduceOption
import Mathlib.Tactic

/-!
# The ring buffer `LinearFifo`

A fifo is a buffer, the index of its first item and their number; the items go on at the front of
the buffer where they reach its end. Slots without an item are undefined memory, `none` here.

`Holds f xs` says that the items are `xs`, in order: turned so that the head comes first, the buffer
starts with them. Every operation keeps it as a list queue would. What `readableSlice` returns is
the items before the end of the buffer only (`Holds.readableSlice_zero`), so all of them exactly
when the fifo does not wrap around (`Holds.readableSlice_eq_iff`).
-/

namespace Cruller

open List Nat

inductive LinearFifoBufferType where
  | Static (size : ℕ)
  | Slice
  | Dynamic
deriving DecidableEq

/-- `powers_of_two`, for a static buffer a test of its size. -/
def LinearFifoBufferType.powersOfTwo : LinearFifoBufferType → Bool
  | Static size => size &&& (size - 1) == 0
  | Slice => false
  | Dynamic => true

/-- What the fifo is instantiated with: the kind of its buffer, and how many items fit into half a
page, which is how many `realign` moves at a time. -/
structure FifoType where
  bufferType : LinearFifoBufferType
  tmpLen : ℕ
  tmpLen_pos : 0 < tmpLen

/-- `math.ceilPowerOfTwo`. -/
def ceilPowerOfTwo (n : ℕ) : ℕ := if n ≤ 1 then 1 else 2 ^ ((n - 1).log2 + 1)

theorem le_ceilPowerOfTwo (n : ℕ) : n ≤ ceilPowerOfTwo n := by
  unfold ceilPowerOfTwo
  split_ifs with h
  · exact h
  · have := lt_log2_self (n := n - 1)
    omega

theorem exists_ceilPowerOfTwo (n : ℕ) : ∃ k, ceilPowerOfTwo n = 2 ^ k := by
  unfold ceilPowerOfTwo
  split_ifs
  · exact ⟨0, rfl⟩
  · exact ⟨_, rfl⟩

/-- A ring: `count` items from `head` on, around the end of the buffer. -/
structure LinearFifo (ty : FifoType) (α : Type*) where
  buf : List (Option α)
  head : ℕ
  count : ℕ

namespace LinearFifo

variable {ty : FifoType} {α : Type*}

/-- An empty fifo without a buffer. -/
def initDynamic : LinearFifo ty α where
  buf := []
  head := 0
  count := 0

/-- An index brought back into the buffer, by a mask or by a remainder. -/
def wrap (f : LinearFifo ty α) (i : ℕ) : ℕ :=
  if ty.bufferType.powersOfTwo then i &&& (f.buf.length - 1) else i % f.buf.length

/-- The loop of `realign` for items that wrap around: it turns the buffer until the head is at its
start, at most `tmpLen` slots at a time. `n` bounds the rounds. -/
def turn (tmpLen : ℕ) : ℕ → ℕ → List (Option α) → List (Option α)
  | 0, _, buf => buf
  | n + 1, head, buf =>
    if head = 0 then buf
    else
      let k := min head tmpLen
      turn tmpLen n (head - k) (buf.drop k ++ buf.take k)

/-- The items are moved to the beginning of the buffer. -/
def realign (f : LinearFifo ty α) : LinearFifo ty α :=
  let buf :=
    if f.count ≤ f.buf.length - f.head then (f.buf.drop f.head).take f.count ++ f.buf.drop f.count
    else turn ty.tmpLen f.head f.head f.buf
  { f with
    buf := buf.take f.count ++ List.replicate (buf.length - f.count) none
    head := 0 }

/-- From the read end: what lies from `offset` on and before the end of the buffer. -/
def readableSliceMut (f : LinearFifo ty α) (offset : ℕ) : List (Option α) :=
  if f.count < offset then []
  else
    let start := f.head + offset
    if f.buf.length ≤ start then
      (f.buf.drop (start - f.buf.length)).take (f.count - offset)
    else (f.buf.drop start).take (min (f.head + f.count) f.buf.length - start)

/-- The items up to the end of the buffer. -/
def readableSlice (f : LinearFifo ty α) (offset : ℕ) : List α :=
  (f.readableSliceMut offset).reduceOption

def writableLength (f : LinearFifo ty α) : ℕ := f.buf.length - f.count

/-- `none` is being out of memory. -/
def ensureTotalCapacity (f : LinearFifo ty α) (size : ℕ) : Option (LinearFifo ty α) :=
  if size ≤ f.buf.length then some f
  else if ty.bufferType = .Dynamic then
    let f := f.realign
    let newSize := if ty.bufferType.powersOfTwo then ceilPowerOfTwo size else size
    let old := if 0 < f.count then f.readableSliceMut 0 else []
    some { f with buf := old ++ List.replicate (newSize - old.length) none, head := 0 }
  else none

/-- Room for `size` more items. -/
def ensureUnusedCapacity (f : LinearFifo ty α) (size : ℕ) : Option (LinearFifo ty α) :=
  if size ≤ f.writableLength then some f else f.ensureTotalCapacity (f.count + size)

/-- The first items are gone. -/
def discard (f : LinearFifo ty α) (count : ℕ) : LinearFifo ty α :=
  { f with head := f.wrap (f.head + count), count := f.count - count }

/-- The first item, taken out. -/
def readItem (f : LinearFifo ty α) : Option α × LinearFifo ty α :=
  if f.count = 0 then (none, f) else ((f.buf[f.head]?).join, f.discard 1)

/-- With room for one, the item goes to the end, wherever the buffer wraps. -/
def writeItemAssumeCapacity (f : LinearFifo ty α) (item : α) : LinearFifo ty α :=
  { f with buf := f.buf.set (f.wrap (f.head + f.count)) (some item), count := f.count + 1 }

/-- One item at the end. -/
def writeItem (f : LinearFifo ty α) (item : α) : Option (LinearFifo ty α) := do
  let f ← f.ensureUnusedCapacity 1
  return f.writeItemAssumeCapacity item

/-- The item at an offset from the front. -/
def peekItem (f : LinearFifo ty α) (offset : ℕ) : Option α :=
  (f.buf[f.wrap (f.head + offset)]?).join

/-- The items, in order. -/
def toList (f : LinearFifo ty α) : List α := (List.range f.count).filterMap f.peekItem

/-- The fifo is well formed and its items are `xs`. -/
structure Holds (f : LinearFifo ty α) (xs : List α) : Prop where
  count : f.count = xs.length
  head : f.head < f.buf.length ∨ f.head = 0
  mask : ty.bufferType.powersOfTwo → f.buf = [] ∨ ∃ k, f.buf.length = 2 ^ k
  items : (f.buf.rotate f.head).take f.count = xs.map some

/-- The items reach the end of the buffer and go on at its front. -/
def Wraps (f : LinearFifo ty α) : Prop := f.buf.length < f.head + f.count

instance (f : LinearFifo ty α) : Decidable f.Wraps :=
  inferInstanceAs (Decidable (f.buf.length < f.head + f.count))

theorem holds_initDynamic : (initDynamic : LinearFifo ty α).Holds [] where
  count := rfl
  head := Or.inr rfl
  mask := fun _ => Or.inl rfl
  items := rfl

theorem turn_eq_rotate {tmpLen : ℕ} (hpos : 0 < tmpLen) {n head : ℕ} {buf : List (Option α)}
    (hn : head ≤ n) (hlt : head ≤ buf.length) : turn tmpLen n head buf = buf.rotate head := by
  induction n generalizing head buf with
  | zero =>
    obtain rfl : head = 0 := by omega
    rw [turn, rotate_zero]
  | succ n ih =>
    rw [turn]
    split_ifs with h
    · rw [h, rotate_zero]
    · have hk : min head tmpLen ≤ buf.length := by omega
      dsimp only
      rw [← rotate_eq_drop_append_take hk, ih (by omega) (by rw [length_rotate]; omega),
        rotate_rotate]
      congr 1
      omega

namespace Holds

variable {f : LinearFifo ty α} {xs : List α}

theorem count_le (h : f.Holds xs) : f.count ≤ f.buf.length := by
  have hlen := congrArg List.length h.items
  rw [List.length_take, length_rotate, length_map] at hlen
  have := h.count
  omega

theorem head_le (h : f.Holds xs) : f.head ≤ f.buf.length := by
  rcases h.head with hh | hh <;> omega

theorem wrap_eq (h : f.Holds xs) (hpos : 0 < f.buf.length) (i : ℕ) :
    f.wrap i = i % f.buf.length := by
  unfold wrap
  split_ifs with hp
  · rcases h.mask hp with hnil | ⟨k, hk⟩
    · simp [hnil] at hpos
    · rw [hk, and_two_pow_sub_one_eq_mod]
  · rfl

theorem items_split (h : f.Holds xs) :
    xs.map some = ((f.buf.drop f.head) ++ f.buf.take f.head).take f.count := by
  rw [← h.items, rotate_eq_drop_append_take h.head_le]

theorem readableSliceMut_zero (h : f.Holds xs) :
    f.readableSliceMut 0 = (xs.take (f.buf.length - f.head)).map some := by
  rw [map_take, h.items_split, take_take, take_append_of_le_length (by
    rw [length_drop]; omega), readableSliceMut, if_neg (Nat.not_lt_zero _)]
  have hc := h.count_le
  rcases h.head with hh | hh
  · simp only [Nat.add_zero]
    rw [if_neg (by omega)]
    congr 1
    omega
  · rcases Nat.eq_zero_or_pos f.buf.length with hz | hpos
    · have hbuf : f.buf = [] := length_eq_zero_iff.1 hz
      simp [hbuf]
    · simp only [hh, Nat.add_zero, Nat.zero_add, Nat.sub_zero]
      rw [if_neg (by omega)]
      congr 1
      omega

theorem readableSlice_zero (h : f.Holds xs) :
    f.readableSlice 0 = xs.take (f.buf.length - f.head) := by
  rw [readableSlice, h.readableSliceMut_zero, List.reduceOption, filterMap_map]
  exact filterMap_some

theorem discard (h : f.Holds xs) {n : ℕ} (hn : n ≤ xs.length) :
    (f.discard n).Holds (xs.drop n) := by
  have hc := h.count
  have hle := h.count_le
  rcases Nat.eq_zero_or_pos f.buf.length with hz | hpos
  · have hbuf : f.buf = [] := length_eq_zero_iff.1 hz
    obtain rfl : n = 0 := by omega
    have hhd : f.head = 0 := by rcases h.head with hh | hh <;> omega
    have hdis : f.discard 0 = f := by
      obtain ⟨buf, head, count⟩ := f
      obtain rfl : head = 0 := hhd
      obtain rfl : buf = [] := hbuf
      simp [LinearFifo.discard, LinearFifo.wrap]
    rwa [hdis, drop_zero]
  · refine ⟨?_, Or.inl ?_, h.mask, ?_⟩
    · rw [length_drop]
      exact congrArg (· - n) hc
    · rw [LinearFifo.discard, h.wrap_eq hpos]
      exact mod_lt _ hpos
    · have hlen : (f.buf.rotate f.head).length = f.buf.length := length_rotate ..
      change (f.buf.rotate (f.wrap (f.head + n))).take (f.count - n) = _
      rw [h.wrap_eq hpos, rotate_mod, ← rotate_rotate,
        rotate_eq_drop_append_take (by omega), take_append_of_le_length (by
          rw [length_drop]; omega), ← drop_take, h.items, map_drop]

theorem getElem_slot (h : f.Holds xs) {i : ℕ} (hi : i < xs.length) :
    f.buf[(f.head + i) % f.buf.length]? = some xs[i]? := by
  have hc := h.count
  have hle := h.count_le
  have hsl : (f.buf.rotate f.head)[i]? = some (some xs[i]) := by
    have := congrArg (·[i]?) h.items
    simpa [hc, hi] using this
  rwa [getElem?_rotate (by omega), Nat.add_comm, ← getElem?_eq_getElem hi] at hsl

theorem getElem_head {x : α} (h : f.Holds (x :: xs)) : f.buf[f.head]? = some (some x) := by
  have hc : f.count = xs.length + 1 := h.count
  have hle := h.count_le
  have hsl := h.getElem_slot (i := 0) (by simp)
  rwa [Nat.add_zero, mod_eq_of_lt (by rcases h.head with hh | hh <;> omega)] at hsl

theorem readItem {x : α} (h : f.Holds (x :: xs)) :
    f.readItem = (some x, f.discard 1) ∧ (f.discard 1).Holds xs := by
  have hc : f.count = xs.length + 1 := h.count
  refine ⟨?_, h.discard (by simp)⟩
  rw [LinearFifo.readItem, if_neg (by omega), h.getElem_head]
  rfl

theorem readItem_nil (h : f.Holds []) : f.readItem = (none, f) := by
  exact if_pos h.count

theorem peekItem (h : f.Holds xs) {i : ℕ} (hi : i < xs.length) : f.peekItem i = xs[i]? := by
  have hc := h.count
  have hle := h.count_le
  rw [LinearFifo.peekItem, h.wrap_eq (by omega), h.getElem_slot hi]
  rfl

theorem toList (h : f.Holds xs) : f.toList = xs := by
  have hmap : (List.range xs.length).map f.peekItem = xs.map some := by
    refine ext_getElem (by simp) fun i hi _ => ?_
    have hi' : i < xs.length := by simpa using hi
    rw [getElem_map, getElem_map, getElem_range, h.peekItem hi',
      getElem?_eq_getElem hi']
  rw [LinearFifo.toList, h.count, ← Function.id_comp f.peekItem, ← filterMap_map, hmap,
    filterMap_map]
  exact filterMap_some

theorem writeItemAssumeCapacity (h : f.Holds xs) (hfr : f.count < f.buf.length) (x : α) :
    (f.writeItemAssumeCapacity x).Holds (xs ++ [x]) := by
  have hpos : 0 < f.buf.length := by omega
  have hhd : f.head < f.buf.length := by rcases h.head with hh | hh <;> omega
  refine ⟨?_, Or.inl ?_, fun hp => ?_, ?_⟩
  · simp [LinearFifo.writeItemAssumeCapacity, h.count]
  · simpa [LinearFifo.writeItemAssumeCapacity] using hhd
  · rcases h.mask hp with hnil | ⟨k, hk⟩
    · simp [hnil] at hpos
    · exact Or.inr ⟨k, by simpa [LinearFifo.writeItemAssumeCapacity] using hk⟩
  · -- turned, the slot that is written is the one behind the items
    have htr : (f.buf.set (f.wrap (f.head + f.count)) (some x)).rotate f.head =
        (f.buf.rotate f.head).set f.count (some x) := by
      rw [h.wrap_eq hpos]
      refine ext_getElem (by simp) fun i hi _ => ?_
      have hi' : i < f.buf.length := by simpa using hi
      rw [getElem_rotate, getElem_set, getElem_set, getElem_rotate]
      simp only [length_set]
      have hone : ∀ j < f.buf.length, (j + f.head) % f.buf.length =
          if j + f.head < f.buf.length then j + f.head else j + f.head - f.buf.length := by
        intro j hj
        split_ifs with hlt
        · exact mod_eq_of_lt hlt
        · rw [mod_eq_sub_mod (by omega), mod_eq_of_lt (by omega)]
      have hiff : (f.head + f.count) % f.buf.length = (i + f.head) % f.buf.length ↔
          f.count = i := by
        rw [Nat.add_comm f.head, hone _ hfr, hone _ hi']
        split_ifs <;> omega
      simp only [hiff]
    change List.take (f.count + 1) (List.rotate (List.set _ _ _) f.head) = _
    rw [htr, map_append, ← h.items]
    refine ext_getElem? fun i => ?_
    rcases Nat.lt_trichotomy i f.count with hi | rfl | hi
    · rw [getElem?_take_of_lt (by omega), getElem?_set_ne (by omega),
        getElem?_append_left (by rw [List.length_take, length_rotate]; omega),
        getElem?_take_of_lt hi]
    · rw [getElem?_take_of_lt (by omega), getElem?_set_self (by
        rw [length_rotate]; omega), getElem?_append_right (by
          rw [List.length_take]; omega), List.length_take, length_rotate]
      simp [Nat.min_eq_left h.count_le]
    · rw [getElem?_take_eq_none (by omega), getElem?_eq_none (by
        rw [length_append, List.length_take, length_rotate]
        simp
        omega)]

theorem of_start {g : LinearFifo ty α} {rest : List (Option α)} (hhd : g.head = 0)
    (hcn : g.count = xs.length) (hbuf : g.buf = xs.map some ++ rest)
    (hms : ty.bufferType.powersOfTwo → g.buf = [] ∨ ∃ k, g.buf.length = 2 ^ k) :
    g.Holds xs where
  count := hcn
  head := Or.inr hhd
  mask := hms
  items := by
    rw [hhd, rotate_zero, hbuf, hcn,
      ← (length_map some : (xs.map some).length = xs.length),
      take_left]

theorem realign (h : f.Holds xs) : f.realign.Holds xs ∧ f.realign.head = 0
    ∧ f.realign.buf.length = f.buf.length := by
  have hc := h.count_le
  have hle := h.head_le
  have hmv : ∃ rest, (if f.count ≤ f.buf.length - f.head then
      (f.buf.drop f.head).take f.count ++ f.buf.drop f.count
      else turn ty.tmpLen f.head f.head f.buf) = xs.map some ++ rest
        ∧ (xs.map some ++ rest).length = f.buf.length := by
    split_ifs with hfit
    · refine ⟨f.buf.drop f.count, ?_, ?_⟩
      · rw [h.items_split, take_append_of_le_length (by rw [length_drop]; omega)]
      · rw [length_append, length_map, ← h.count, length_drop]
        omega
    · rw [turn_eq_rotate ty.tmpLen_pos le_rfl hle]
      refine ⟨(f.buf.rotate f.head).drop f.count, ?_, ?_⟩
      · rw [← h.items, take_append_drop]
      · rw [← h.items, take_append_drop, length_rotate]
  obtain ⟨rest, hmv, hlen⟩ := hmv
  have hbuf : f.realign.buf = xs.map some ++ List.replicate rest.length none := by
    rw [LinearFifo.realign]
    dsimp only
    rw [hmv, h.count, ← (length_map some : (xs.map some).length = xs.length),
      take_left,
      length_append, Nat.add_sub_cancel_left]
  have hbf : f.realign.buf.length = f.buf.length := by
    rw [hbuf, ← hlen, length_append, length_append, length_replicate]
  refine ⟨of_start rfl h.count hbuf fun hp => ?_, rfl, hbf⟩
  rw [hbf, ← length_eq_zero_iff, hbf, length_eq_zero_iff]
  exact h.mask hp

theorem ensureTotalCapacity (h : f.Holds xs) (hty : ty.bufferType = .Dynamic) (size : ℕ) :
    ∃ g, f.ensureTotalCapacity size = some g ∧ g.Holds xs ∧ size ≤ g.buf.length := by
  by_cases hsz : size ≤ f.buf.length
  · exact ⟨f, if_pos hsz, h, hsz⟩
  · obtain ⟨hr, hhd, hlen⟩ := h.realign
    have hc := h.count
    have hle := h.count_le
    have hold : (if 0 < f.realign.count then f.realign.readableSliceMut 0 else []) =
        xs.map some := by
      rw [hr.readableSliceMut_zero, hhd, hlen, take_of_length_le (by omega), hr.count]
      rcases xs with _ | ⟨x, xs⟩ <;> simp
    have hge := le_ceilPowerOfTwo size
    obtain ⟨k, hk⟩ := exists_ceilPowerOfTwo size
    refine ⟨{ f.realign with
      buf := xs.map some ++ List.replicate (ceilPowerOfTwo size - xs.length) none, head := 0 },
      ?_, of_start rfl hr.count rfl fun _ => Or.inr ⟨k, ?_⟩, ?_⟩
    · rw [LinearFifo.ensureTotalCapacity, if_neg hsz, if_pos hty]
      simp only [hold, hty, LinearFifoBufferType.powersOfTwo, if_true, length_map]
    all_goals
      simp only [length_append, length_map, length_replicate]
      omega

theorem ensureUnusedCapacity (h : f.Holds xs) (hty : ty.bufferType = .Dynamic) (size : ℕ) :
    ∃ g, f.ensureUnusedCapacity size = some g ∧ g.Holds xs
      ∧ xs.length + size ≤ g.buf.length := by
  have hc := h.count
  have hle := h.count_le
  rw [LinearFifo.ensureUnusedCapacity, writableLength]
  split_ifs with hsz
  · exact ⟨f, rfl, h, by omega⟩
  · rw [hc]
    exact h.ensureTotalCapacity hty (xs.length + size)

theorem writeItem (h : f.Holds xs) (hty : ty.bufferType = .Dynamic) (x : α) :
    ∃ g, f.writeItem x = some g ∧ g.Holds (xs ++ [x]) := by
  obtain ⟨g, hg, hhl, hfr⟩ := h.ensureUnusedCapacity hty 1
  have hc := hhl.count
  refine ⟨g.writeItemAssumeCapacity x, ?_, hhl.writeItemAssumeCapacity (by omega) x⟩
  simp [LinearFifo.writeItem, hg]

end Holds

end LinearFifo

end Cruller
