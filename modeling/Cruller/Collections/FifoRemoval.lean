import Cruller.Collections.LinearFifo

/-!
# Removing an item of a `LinearFifo`

`orderedRemoveItem` moves the items behind the removed one up. Where the items wrap around the end
of the buffer, the slots at its front that are moved are not those that hold items, and the slices
that it takes there may not even exist. The item is removed exactly where `Removes` says so.
-/

namespace Cruller

open List Option Nat

namespace LinearFifo

variable {ty : FifoType} {α : Type*}

/-- An empty fifo in a buffer that stays as it is. -/
def initStatic (size : ℕ) : LinearFifo ty α where
  buf := List.replicate size none
  head := 0
  count := 0

/-- A copy of `buf[start + 1..stop]` to where `buf[start..]` is; `none` where the slices are out of
bounds. -/
def moveUp (buf : List (Option α)) (start stop : ℕ) : Option (List (Option α)) :=
  if start < stop ∧ stop ≤ buf.length then
    some (buf.take start ++ (buf.take stop).drop (start + 1) ++ buf.drop (stop - 1))
  else none

/-- An unsigned difference. -/
def checkedSub (a b : ℕ) : Option ℕ := if b ≤ a then some (a - b) else none

/-- `none` is a panic. -/
def orderedRemoveItem (f : LinearFifo ty α) (offset : ℕ) : Option (LinearFifo ty α) :=
  if offset = 0 then some (f.discard 1)
  else
    let buf :=
      if f.count ≤ f.buf.length - f.head then moveUp f.buf (f.head + offset) f.buf.length
      else
        let index := f.wrap (f.head + offset)
        if index < f.head then
          (checkedSub f.count f.head).bind fun stop => moveUp f.buf index stop
        else
          let wrapped := (f.buf[0]?).join
          (moveUp f.buf index f.buf.length).bind fun right =>
            (checkedSub f.head f.count).bind fun stop =>
              moveUp (right.set (f.buf.length - 1) wrapped) 0 stop
    buf.map fun buf => { f with buf := buf, count := f.count - 1 }

/-- What is written through the pointer of `peekItemMut`. -/
def modifyItem (f : LinearFifo ty α) (offset : ℕ) (g : α → α) : LinearFifo ty α :=
  { f with buf := f.buf.modify (f.wrap (f.head + offset)) (Option.map g) }

/-- `none` is a panic, which the mask or the remainder of an empty buffer is as well. -/
def rewind (f : LinearFifo ty α) (count : ℕ) : Option (LinearFifo ty α) :=
  if count ≤ f.writableLength ∧ 0 < f.buf.length then
    some { f with head := f.wrap (f.head + (f.buf.length - count)), count := f.count + count }
  else none

/-- `unget` of one item; `none` is being out of memory. -/
def ungetItem (f : LinearFifo ty α) (item : α) : Option (LinearFifo ty α) := do
  let f ← f.ensureUnusedCapacity 1
  let f ← f.rewind 1
  return { f with buf := f.buf.set f.head (some item) }

/-- The item is removed: the first one, or one of items that do not wrap around; or the slots that
are moved at the front of the buffer reach over those of the items and, where the item lies there
itself, not beyond the head. -/
def Removes (f : LinearFifo ty α) (offset : ℕ) : Prop :=
  offset = 0 ∨ ¬ f.Wraps
    ∨ (f.buf.length ≤ f.head + offset ∧ 2 * f.head ≤ f.buf.length ∧ f.count ≤ 2 * f.head + 1)
    ∨ (f.head + offset < f.buf.length ∧ 2 * f.count ≤ f.buf.length)

instance (f : LinearFifo ty α) (offset : ℕ) : Decidable (f.Removes offset) :=
  inferInstanceAs (Decidable (_ ∨ _))

theorem removes_modifyItem {f : LinearFifo ty α} {i offset : ℕ} {g : α → α} :
    (f.modifyItem i g).Removes offset ↔ f.Removes offset := by
  simp [Removes, Wraps, modifyItem]

theorem holds_initStatic (size : ℕ) (hsz : ty.bufferType.powersOfTwo → ∃ k, size = 2 ^ k) :
    (initStatic size : LinearFifo ty α).Holds [] where
  count := rfl
  head := Or.inr rfl
  mask hp := Or.inr (by
    obtain ⟨k, hk⟩ := hsz hp
    exact ⟨k, List.length_replicate.trans hk⟩)
  items := by simp [initStatic]

theorem length_moveUp {buf buf' : List (Option α)} {start stop : ℕ}
    (h : moveUp buf start stop = some buf') : buf'.length = buf.length := by
  rw [moveUp] at h
  split_ifs at h with hb
  simp only [some.injEq] at h
  rw [← h]
  simp
  omega

theorem getElem_moveUp {buf buf' : List (Option α)} {start stop : ℕ}
    (h : moveUp buf start stop = some buf') (i : ℕ) :
    buf'[i]? = if start ≤ i ∧ i + 1 < stop then buf[i + 1]? else buf[i]? := by
  rw [moveUp] at h
  split_ifs at h with hb
  simp only [some.injEq] at h
  rw [← h, append_assoc]
  rcases Nat.lt_or_ge i start with hlt | hge
  · rw [getElem?_append_left (by simp; omega), getElem?_take_of_lt hlt,
      if_neg (by omega)]
  have hlen : (buf.take start).length = start := by simp; omega
  have hmid : ((buf.take stop).drop (start + 1)).length = stop - (start + 1) := by
    simp
    omega
  rw [getElem?_append_right (by omega), hlen]
  by_cases hi : i + 1 < stop
  · rw [if_pos ⟨hge, hi⟩, getElem?_append_left (by omega), getElem?_drop,
      getElem?_take_of_lt (by omega)]
    congr 1
    omega
  · rw [if_neg (by omega), getElem?_append_right (by omega), hmid, getElem?_drop]
    congr 1
    omega

theorem Holds.of_slots {f : LinearFifo ty α} {xs : List α} (hcn : f.count = xs.length)
    (hhd : f.head < f.buf.length ∨ f.head = 0) (hle : f.count ≤ f.buf.length)
    (hms : ty.bufferType.powersOfTwo → f.buf = [] ∨ ∃ k, f.buf.length = 2 ^ k)
    (hsl : ∀ i < xs.length, f.buf[(f.head + i) % f.buf.length]? = some xs[i]?) :
    f.Holds xs where
  count := hcn
  head := hhd
  mask := hms
  items := by
    refine ext_getElem? fun i => ?_
    rcases Nat.lt_or_ge i xs.length with hi | hi
    · rw [getElem?_take_of_lt (by omega), getElem?_rotate (by omega), Nat.add_comm,
        hsl i hi, getElem?_map, getElem?_eq_getElem hi]
      rfl
    · rw [getElem?_take_eq_none (by omega), getElem?_map, getElem?_eq_none hi]
      rfl

theorem mod_once {i n : ℕ} (h : i < 2 * n) : i % n = if i < n then i else i - n := by
  split_ifs with hlt
  · exact mod_eq_of_lt hlt
  · rw [mod_eq_sub_mod (by omega), mod_eq_of_lt (by omega)]

namespace Holds

variable {f : LinearFifo ty α} {xs : List α}

variable {offset : ℕ}

theorem erased (h : f.Holds xs) (hoff : offset < xs.length)
    {buf : List (Option α)} (hlen : buf.length = f.buf.length)
    (hsl : ∀ i, i + 1 < xs.length → buf[(f.head + i) % f.buf.length]? =
      some (if i < offset then xs[i]? else xs[i + 1]?)) :
    ({ f with buf := buf, count := f.count - 1 } : LinearFifo ty α).Holds (xs.eraseIdx offset) := by
  have hc := h.count
  have hle := h.count_le
  have hlen' : (xs.eraseIdx offset).length = xs.length - 1 := length_eraseIdx_of_lt hoff
  refine of_slots ?_ ?_ ?_ ?_ fun i hi => ?_
  · simp only
    omega
  · simp only [hlen]
    exact h.head
  · simp only
    omega
  · intro hp
    simp only
    rw [← length_eq_zero_iff, hlen, length_eq_zero_iff]
    exact h.mask hp
  · simp only [hlen]
    rw [hsl i (by omega), getElem?_eraseIdx]

theorem orderedRemoveItem_flat (h : f.Holds xs) (hoff : offset < xs.length)
    (hfl : offset = 0 ∨ ¬ f.Wraps) :
    ∃ g, f.orderedRemoveItem offset = some g ∧ g.Holds (xs.eraseIdx offset) := by
  have hc := h.count
  have hle := h.count_le
  have hhd : f.head < f.buf.length := by rcases h.head with hh | hh <;> omega
  rw [LinearFifo.orderedRemoveItem]
  by_cases hzr : offset = 0
  · refine ⟨f.discard 1, if_pos hzr, ?_⟩
    have := h.discard (n := 1) (by omega)
    rwa [hzr, eraseIdx_zero, ← drop_one]
  have hfits : f.count ≤ f.buf.length - f.head := by
    have hnot := hfl.resolve_left hzr
    unfold Wraps at hnot
    omega
  have hmv : moveUp f.buf (f.head + offset) f.buf.length = some _ := if_pos ⟨by omega, le_rfl⟩
  rw [if_neg hzr, if_pos hfits, hmv]
  refine ⟨_, rfl, h.erased hoff (length_moveUp hmv) fun i hi => ?_⟩
  have hold := h.getElem_slot (i := i) (by omega)
  have hnx := h.getElem_slot hi
  rw [← Nat.add_assoc, mod_eq_of_lt (by omega)] at hnx
  rw [mod_eq_of_lt (by omega)] at hold ⊢
  rw [getElem_moveUp hmv, hold, hnx]
  split_ifs <;> first | rfl | omega

theorem modifyItem (h : f.Holds xs) (hoff : offset < xs.length) (g : α → α) :
    (f.modifyItem offset g).Holds (xs.modify offset g)
      ∧ (f.modifyItem offset g).buf.length = f.buf.length := by
  have hc := h.count
  have hle := h.count_le
  have hpos : 0 < f.buf.length := by omega
  have hhd : f.head < f.buf.length := by rcases h.head with hh | hh <;> omega
  have hlen : (f.modifyItem offset g).buf.length = f.buf.length := length_modify ..
  refine ⟨of_slots (hc.trans (length_modify ..).symm) ?_ ?_ ?_ ?_, hlen⟩
  · rw [hlen]
    exact h.head
  · rw [hlen]
    exact hle
  · intro hp
    rcases h.mask hp with hnil | ⟨k, hk⟩
    · simp [hnil] at hpos
    · exact Or.inr ⟨k, hlen.trans hk⟩
  · intro i hi
    rw [length_modify] at hi
    have hsm : (f.head + offset) % f.buf.length = (f.head + i) % f.buf.length ↔ offset = i := by
      rw [mod_once (by omega), mod_once (by omega)]
      split_ifs <;> omega
    have hsl := h.getElem_slot hi
    rw [hlen]
    change (f.buf.modify (f.wrap (f.head + offset)) (Option.map g))[
      (f.head + i) % f.buf.length]? = _
    rw [getElem?_modify, h.wrap_eq hpos, hsl, getElem?_modify]
    simp only [hsm]
    split_ifs <;> simp

/-- With room for one, the item goes to the front. -/
theorem ungetItem (h : f.Holds xs) (hfr : f.count < f.buf.length) (x : α) :
    ∃ g, f.ungetItem x = some g ∧ g.Holds (x :: xs) ∧ g.buf.length = f.buf.length := by
  have hc := h.count
  have hpos : 0 < f.buf.length := by omega
  have hhd : f.head < f.buf.length := by rcases h.head with hh | hh <;> omega
  have hrm : 1 ≤ f.writableLength := by
    unfold writableLength
    omega
  have hbc : (f.head + (f.buf.length - 1)) % f.buf.length =
      if f.head = 0 then f.buf.length - 1 else f.head - 1 := by
    rw [mod_once (by omega)]
    split_ifs <;> omega
  refine ⟨_, by
    rw [LinearFifo.ungetItem, LinearFifo.ensureUnusedCapacity, if_pos hrm, bind_eq_bind,
      bind_some, rewind, if_pos ⟨hrm, hpos⟩]
    rfl, ?_, by simp⟩
  refine of_slots (by simp [hc]) (Or.inl ?_) (by simpa using hfr) ?_ ?_
  · simpa [h.wrap_eq hpos] using mod_lt _ hpos
  · intro hp
    rcases h.mask hp with hnil | ⟨k, hk⟩
    · simp [hnil] at hpos
    · exact Or.inr ⟨k, by simpa using hk⟩
  · intro i hi
    simp only [length_cons] at hi
    simp only [length_set, h.wrap_eq hpos, hbc]
    rcases i with _ | i
    · have hlt : (if f.head = 0 then f.buf.length - 1 else f.head - 1) < f.buf.length := by
        split_ifs <;> omega
      rw [Nat.add_zero, mod_eq_of_lt hlt, getElem?_set_self hlt]
      rfl
    · have hnx : ((if f.head = 0 then f.buf.length - 1 else f.head - 1) + (i + 1)) %
          f.buf.length = (f.head + i) % f.buf.length := by
        split_ifs with hzr
        · rw [hzr, show f.buf.length - 1 + (i + 1) = 0 + i + f.buf.length by omega,
            add_mod_right]
        · congr 1
          omega
      have hne : (if f.head = 0 then f.buf.length - 1 else f.head - 1) ≠
          (f.head + i) % f.buf.length := by
        rw [mod_once (by omega)]
        split_ifs <;> omega
      rw [hnx, getElem?_set_ne hne, h.getElem_slot (by omega)]
      rfl

theorem writeItem_of_room (h : f.Holds xs) (hfr : f.count < f.buf.length) (x : α) :
    ∃ g, f.writeItem x = some g ∧ g.Holds (xs ++ [x]) ∧ g.buf.length = f.buf.length := by
  have hrm : 1 ≤ f.writableLength := by
    unfold writableLength
    omega
  refine ⟨f.writeItemAssumeCapacity x, ?_, h.writeItemAssumeCapacity hfr x, length_set⟩
  rw [LinearFifo.writeItem, LinearFifo.ensureUnusedCapacity, if_pos hrm]
  rfl

end Holds

end LinearFifo

end Cruller
