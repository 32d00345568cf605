import Cruller.Collections.LinearFifo
import Cruller.Lib.Bytes

/-!
# Writing slices into a `LinearFifo`

`writableWithSize` finds room in one piece, for which it may move the items; what is copied there
and counted in goes on behind the items (`Holds.writeWithSize`).
-/

namespace Cruller

open List Option Nat

namespace LinearFifo

variable {ty : FifoType} {α : Type*}

/-- Where the next items go, in one piece: its beginning and its length. -/
def writableSlice (f : LinearFifo ty α) (offset : ℕ) : ℕ × ℕ :=
  if f.buf.length < offset then (0, 0)
  else
    let tail := f.head + offset + f.count
    if tail < f.buf.length then (tail, f.buf.length - tail)
    else (tail - f.buf.length, f.writableLength - offset)

/-- The fifo and where the slice starts; `none` is being out of memory. -/
def writableWithSize (f : LinearFifo ty α) (size : ℕ) : Option (LinearFifo ty α × ℕ) := do
  let f ← f.ensureUnusedCapacity size
  let slice := f.writableSlice 0
  let (f, slice) := if slice.2 < size then (f.realign, f.realign.writableSlice 0) else (f, slice)
  if size ≤ slice.2 then some (f, slice.1) else none

/-- What was written into the slice is counted. -/
def update (f : LinearFifo ty α) (count : ℕ) : Option (LinearFifo ty α) :=
  if f.count + count ≤ f.buf.length then some { f with count := f.count + count } else none

/-- `writableWithSize`, a copy to what it has found, and `update`. -/
def writeWithSize (f : LinearFifo ty α) (items : List α) : Option (LinearFifo ty α) := do
  let (f, start) ← f.writableWithSize items.length
  let buf ← splice f.buf start (items.map some)
  { f with buf := buf }.update items.length

namespace Holds

variable {f g : LinearFifo ty α} {xs items : List α} {start : ℕ}

/-- Not more than reaches the end of the buffer, copied behind the items. -/
theorem copied (h : f.Holds xs) (hst : start = f.wrap (f.head + f.count))
    (hfr : f.count + items.length ≤ f.buf.length)
    (hend : start + items.length ≤ f.buf.length) :
    ({ f with
      buf := f.buf.take start ++ items.map some ++ f.buf.drop (start + items.length)
      count := f.count + items.length } : LinearFifo ty α).Holds (xs ++ items) := by
  induction items generalizing f xs start with
  | nil => simpa using h
  | cons x items ih =>
    rw [length_cons] at hfr hend
    have hpos : 0 < f.buf.length := by omega
    -- one item after the other, each next to the last
    have hone := h.writeItemAssumeCapacity (by omega) x
    have hlen : (f.writeItemAssumeCapacity x).buf.length = f.buf.length := by
      simp [LinearFifo.writeItemAssumeCapacity]
    rcases items.eq_nil_or_concat with rfl | hne
    · have hset : f.buf.set start (some x) = f.buf.take start ++ [some x] ++
          f.buf.drop (start + 1) := by
        rw [set_eq_take_append_cons_drop, if_pos (by omega)]
        simp
      simpa [LinearFifo.writeItemAssumeCapacity, ← hst, hset] using hone
    have hls : 0 < items.length := by
      obtain ⟨l, y, rfl⟩ := hne
      simp
    have hnx : start + 1 = (f.writeItemAssumeCapacity x).wrap
        ((f.writeItemAssumeCapacity x).head + (f.writeItemAssumeCapacity x).count) := by
      rw [hone.wrap_eq (by omega), hlen]
      rw [h.wrap_eq hpos] at hst
      change start + 1 = (f.head + (f.count + 1)) % f.buf.length
      rw [← Nat.add_assoc, add_mod, ← hst, mod_eq_of_lt (a := 1) (by omega),
        mod_eq_of_lt (by omega)]
    have hrs := ih hone hnx (by
      rw [hlen]
      change f.count + 1 + items.length ≤ f.buf.length
      omega) (by omega)
    have hbuf : (f.writeItemAssumeCapacity x).buf = f.buf.take start ++ some x ::
        f.buf.drop (start + 1) := by
      rw [LinearFifo.writeItemAssumeCapacity, ← hst, set_eq_take_append_cons_drop,
        if_pos (by omega)]
    have htk : (f.writeItemAssumeCapacity x).buf.take (start + 1) =
        f.buf.take start ++ [some x] := by
      rw [hbuf, take_append, take_of_length_le (by simp), List.length_take,
        show start + 1 - min start f.buf.length = 1 by omega]
      simp
    have hdr : (f.writeItemAssumeCapacity x).buf.drop (start + 1 + items.length) =
        f.buf.drop (start + (items.length + 1)) := by
      rw [hbuf, drop_append, drop_of_length_le (by simp; omega), List.length_take,
        show start + 1 + items.length - min start f.buf.length = items.length + 1 by omega,
        nil_append, drop_succ_cons, drop_drop]
      congr 1
      omega
    rw [htk, hdr] at hrs
    have hcn : (f.writeItemAssumeCapacity x).count + items.length =
        f.count + (items.length + 1) := by
      change f.count + 1 + items.length = _
      omega
    rw [hcn] at hrs
    simpa [LinearFifo.writeItemAssumeCapacity] using hrs

theorem writableSlice_zero (h : f.Holds xs) (hpos : 0 < f.buf.length) :
    (f.writableSlice 0).1 = f.wrap (f.head + f.count) ∧
      (f.writableSlice 0).1 + (f.writableSlice 0).2 ≤ f.buf.length ∧
      f.count + (f.writableSlice 0).2 ≤ f.buf.length := by
  have hc := h.count_le
  have hhd := h.head
  rw [h.wrap_eq hpos, writableSlice, if_neg (by omega), Nat.add_zero]
  simp only [writableLength]
  split_ifs with htl
  · exact ⟨(mod_eq_of_lt htl).symm, by simp only; omega, by simp only; omega⟩
  · refine ⟨?_, by simp only; omega, by simp only; omega⟩
    rw [mod_eq_sub_mod (by omega), mod_eq_of_lt (by omega)]

theorem writableSlice_realign (h : f.Holds xs) :
    (f.realign.writableSlice 0).2 = f.buf.length - f.count := by
  obtain ⟨hr, hhd, hlen⟩ := h.realign
  have hc := h.count_le
  have hcn : f.realign.count = f.count := rfl
  rw [writableSlice, if_neg (by omega), hhd, hlen, hcn]
  simp only [writableLength, hlen, hcn]
  split_ifs with htl
  · simp
  · omega

/-- A dynamic fifo has room for every slice, and its head stays at the start. -/
theorem writableWithSize (h : f.Holds xs) (hty : ty.bufferType = .Dynamic) {size : ℕ}
    (hsz : 0 < size) :
    ∃ g start, f.writableWithSize size = some (g, start) ∧ g.Holds xs
      ∧ start = g.wrap (g.head + g.count) ∧ g.count + size ≤ g.buf.length
      ∧ start + size ≤ g.buf.length ∧ (f.head = 0 → g.head = 0) := by
  obtain ⟨g, hg, hhl, hfr⟩ := h.ensureUnusedCapacity hty size
  have hcn := hhl.count
  have hhd : f.head = 0 → g.head = 0 := by
    intro hzr
    rw [LinearFifo.ensureUnusedCapacity, LinearFifo.ensureTotalCapacity] at hg
    split_ifs at hg
    · exact some.inj hg ▸ hzr
    · exact some.inj hg ▸ hzr
    all_goals exact some.inj hg ▸ rfl
  obtain ⟨hst, hend, hrm⟩ := hhl.writableSlice_zero (by omega)
  rw [LinearFifo.writableWithSize, hg]
  by_cases hsh : (g.writableSlice 0).2 < size
  · obtain ⟨hr, hrh, hrl⟩ := hhl.realign
    obtain ⟨hrs, hrn, hrr⟩ := hr.writableSlice_zero (by omega)
    have hln := hhl.writableSlice_realign
    refine ⟨g.realign, (g.realign.writableSlice 0).1, ?_, hr, hrs, ?_, ?_, fun _ => hrh⟩
    · simp [hsh, hln]
      omega
    · omega
    · omega
  · refine ⟨g, (g.writableSlice 0).1, ?_, hhl, hst, by omega, by omega, hhd⟩
    simp only [bind_eq_bind, bind_some, hsh, if_false]
    rw [if_pos (by omega)]

theorem writeWithSize (h : f.Holds xs) (hty : ty.bufferType = .Dynamic) (hne : items ≠ []) :
    ∃ g, f.writeWithSize items = some g ∧ g.Holds (xs ++ items) ∧ (f.head = 0 → g.head = 0) := by
  obtain ⟨g, start, hg, hhl, hst, hfr, hend, hhd⟩ :=
    h.writableWithSize hty (length_pos_iff.2 hne)
  have hcp := hhl.copied hst hfr hend
  refine ⟨_, ?_, hcp, hhd⟩
  have hlen := hcp.count_le
  simp only [length_append, List.length_take, length_map, length_drop] at hlen
  rw [LinearFifo.writeWithSize, hg]
  simp only [bind_eq_bind, bind_some, splice, length_map, hend, if_true,
    update, length_append, List.length_take, length_drop]
  rw [if_pos (by omega)]

end Holds

end LinearFifo

end Cruller
