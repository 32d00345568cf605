import Mathlib.Tactic

/-!
# Lines out of a buffer

`jsc/JSONLineBuffer.zig`: bytes are appended at the end of a buffer and lines are consumed at its
head; a line is found as soon as its newline is there, and no byte is scanned twice. Bytes are moved
to the front of the buffer only past a threshold.

What has not been consumed is the active slice, and the position of the newline that the buffer
knows is that of the first newline there (`Scanned`). Appending to the buffer appends to the slice,
and consuming a line drops it (`active_append`, `active_consume`).
-/

namespace Cruller.Jsc

open List Option

/-- The capacity that a list of the standard library gets when it grows, from its capacity and from
what it has to hold. -/
abbrev GrowCapacity := ℕ → ℕ → ℕ

/-- `bun.ByteList`: its length and its capacity are `u32`s. -/
structure ByteList where
  slice : List UInt8
  cap : ℕ
  len_le : slice.length ≤ cap
  cap_lt : cap < 2 ^ 32

namespace ByteList

def empty : ByteList := ⟨[], 0, le_rfl, by norm_num⟩

def len (b : ByteList) : ℕ := b.slice.length

/-- `none` is a crash: the length or the capacity does not fit. -/
def write (grow : GrowCapacity) (b : ByteList) (bytes : List UInt8) : Option ByteList :=
  let items := b.slice ++ bytes
  let cap := if items.length ≤ b.cap then b.cap else grow b.cap items.length
  if h : items.length ≤ cap ∧ cap < 2 ^ 32 then some ⟨items, cap, h.1, h.2⟩ else none

/-- What lies behind `n` bytes moves to the front. -/
def moveToFront (b : ByteList) (n : ℕ) : ByteList :=
  ⟨b.slice.drop n, b.cap, by have := b.len_le; simp; omega, b.cap_lt⟩

@[simp]
theorem slice_moveToFront (b : ByteList) (n : ℕ) : (b.moveToFront n).slice = b.slice.drop n := rfl

theorem len_lt (b : ByteList) : b.len < 2 ^ 32 := lt_of_le_of_lt b.len_le b.cap_lt

theorem slice_write {grow : GrowCapacity} {b b' : ByteList} {bytes : List UInt8}
    (h : b.write grow bytes = some b') : b'.slice = b.slice ++ bytes := by
  simp only [write] at h
  split_ifs at h
  all_goals
    cases h
    rfl

end ByteList

/-- `bun.strings.indexOfChar`: the position is truncated to a `u32`. -/
def indexOfChar (slice : List UInt8) (char : UInt8) : Option ℕ :=
  (slice.findIdx? (· = char)).map (· % 2 ^ 32)

def newline : UInt8 := 10

/-- `a +| b` of two `u32`s. -/
def satAdd (a b : ℕ) : ℕ := min (a + b) (2 ^ 32 - 1)

/-- Lines that come in pieces; what has been searched for an end is not searched again. -/
structure JSONLineBuffer where
  data : ByteList
  head : ℕ
  /-- Relative to the head, as `scanned_pos` is. -/
  newline_pos : Option ℕ
  scanned_pos : ℕ

namespace JSONLineBuffer

def compaction_threshold : ℕ := 16 * 1024 * 1024

def init : JSONLineBuffer := ⟨.empty, 0, none, 0⟩

/-- What has not been consumed. -/
def activeSlice (self : JSONLineBuffer) : List UInt8 := self.data.slice.drop self.head

/-- The end of the first line is looked for in what is new. -/
def scanForNewline (self : JSONLineBuffer) : JSONLineBuffer :=
  if self.newline_pos.isSome then self
  else
    let slice := self.activeSlice
    if slice.length ≤ self.scanned_pos then self
    else
      match indexOfChar (slice.drop self.scanned_pos) newline with
      | some local_idx =>
        let pos := satAdd self.scanned_pos local_idx
        { self with newline_pos := some pos, scanned_pos := satAdd pos 1 }
      | none => { self with scanned_pos := slice.length }

/-- What has been consumed is dropped. -/
def compact (self : JSONLineBuffer) : JSONLineBuffer :=
  if self.head = 0 then self
  else { self with data := self.data.moveToFront self.head, head := 0 }

/-- `none` is a crash. -/
def append (grow : GrowCapacity) (self : JSONLineBuffer) (bytes : List UInt8) : Option JSONLineBuffer :=
  (self.data.write grow bytes).map fun data => { self with data := data }.scanForNewline

/-- The first line with its end. -/
def next (self : JSONLineBuffer) : Option (List UInt8 × ℕ) :=
  self.newline_pos.map fun pos => (self.activeSlice.take (pos + 1), pos)

/-- Everything is consumed: a buffer that has grown large is given back. -/
def reset (self : JSONLineBuffer) : JSONLineBuffer where
  data := if compaction_threshold ≤ self.data.cap then .empty else self.data.moveToFront self.data.len
  head := 0
  newline_pos := none
  scanned_pos := 0

/-- The bytes are consumed, and the newline is looked for anew if it was among them. -/
def advance (self : JSONLineBuffer) (bytes : ℕ) : JSONLineBuffer :=
  let self := { self with
    head := satAdd self.head bytes
    scanned_pos := if self.scanned_pos ≤ bytes then 0 else self.scanned_pos - bytes }
  match self.newline_pos with
  | some pos =>
    if pos < bytes then { self with newline_pos := none }.scanForNewline
    else { self with newline_pos := some (pos - bytes) }
  | none => self

/-- A line has been handled. -/
def consume (self : JSONLineBuffer) (bytes : ℕ) : JSONLineBuffer :=
  let self := self.advance bytes
  if self.data.len ≤ self.head then self.reset
  else if compaction_threshold ≤ self.head then self.compact
  else self

/-- The head is in the buffer, everything up to `scanned_pos` has been scanned, and the newline that
is known is the first one. -/
structure Scanned (b : JSONLineBuffer) : Prop where
  head_le : b.head ≤ b.data.len
  newline_pos_eq : b.newline_pos = b.activeSlice.findIdx? (· = newline)
  scanned_pos_eq : b.scanned_pos = (b.newline_pos.map (· + 1)).getD b.activeSlice.length

theorem scanned_init : init.Scanned := ⟨le_rfl, rfl, rfl⟩

theorem length_activeSlice (self : JSONLineBuffer) :
    self.activeSlice.length = self.data.len - self.head := by
  simp [activeSlice, ByteList.len]

theorem satAdd_eq {a b : ℕ} (h : a + b < 2 ^ 32) : satAdd a b = a + b := by
  unfold satAdd
  omega

theorem findIdx?_drop {p : UInt8 → Bool} {xs : List UInt8} {n : ℕ} (h : ∀ x ∈ xs.take n, p x = false)
    (hn : n ≤ xs.length) : xs.findIdx? p = ((xs.drop n).findIdx? p).map (n + ·) := by
  conv_lhs => rw [← take_append_drop n xs, findIdx?_append,
    findIdx?_eq_none_iff.2 h, List.length_take, min_eq_left hn]
  simp [Nat.add_comm]

@[simp]
theorem activeSlice_scanForNewline (self : JSONLineBuffer) :
    self.scanForNewline.activeSlice = self.activeSlice := by
  simp only [scanForNewline]
  split_ifs
  · rfl
  · rfl
  · split <;> rfl

@[simp]
theorem data_scanForNewline (self : JSONLineBuffer) : self.scanForNewline.data = self.data := by
  simp only [scanForNewline]
  split_ifs
  · rfl
  · rfl
  · split <;> rfl

@[simp]
theorem head_scanForNewline (self : JSONLineBuffer) : self.scanForNewline.head = self.head := by
  simp only [scanForNewline]
  split_ifs
  · rfl
  · rfl
  · split <;> rfl

variable {self : JSONLineBuffer}

/-- A scan from `scanned_pos` finds the first newline, or has scanned it all. -/
theorem scanned_scanForNewline (hhd : self.head ≤ self.data.len)
    (hno : self.newline_pos = none) (hle : self.scanned_pos ≤ self.activeSlice.length)
    (hbf : ∀ x ∈ self.activeSlice.take self.scanned_pos, x ≠ newline) :
    self.scanForNewline.Scanned := by
  have hlen := self.length_activeSlice
  have hlt := self.data.len_lt
  have hfn := findIdx?_drop (p := (· = newline)) (by simpa using hbf) hle
  refine ⟨by simpa using hhd, ?_, ?_⟩ <;> rw [activeSlice_scanForNewline, scanForNewline,
    if_neg (by simp [hno])]
  all_goals
    dsimp only
    split_ifs with hall
  · rw [hfn, drop_eq_nil_of_le hall, hno]
    rfl
  · simp only [indexOfChar]
    rcases hidx : (self.activeSlice.drop self.scanned_pos).findIdx? (· = newline) with _ | i
    · rw [hidx] at hfn
      simpa [hno] using hfn.symm
    · have hi := (findIdx?_eq_some_iff_getElem.1 hidx).1
      rw [length_drop] at hi
      rw [hidx] at hfn
      simp only [map_some, hfn, Nat.mod_eq_of_lt (show i < 2 ^ 32 by omega)]
      rw [satAdd_eq (by omega)]
  · rw [hno]
    simpa using le_antisymm hle hall
  · simp only [indexOfChar]
    rcases hidx : (self.activeSlice.drop self.scanned_pos).findIdx? (· = newline) with _ | i
    · simp [hno]
    · have hi := (findIdx?_eq_some_iff_getElem.1 hidx).1
      rw [length_drop] at hi
      have hpos : satAdd self.scanned_pos i = self.scanned_pos + i := satAdd_eq (by omega)
      simp only [map_some, Nat.mod_eq_of_lt (show i < 2 ^ 32 by omega), hpos]
      rw [satAdd_eq (by omega)]
      rfl

theorem active_append {grow : GrowCapacity} {self' : JSONLineBuffer} {bytes : List UInt8}
    (hs : self.Scanned) (h : self.append grow bytes = some self') :
    self'.activeSlice = self.activeSlice ++ bytes := by
  obtain ⟨data, hdt, rfl⟩ := map_eq_some_iff.1 h
  rw [activeSlice_scanForNewline, activeSlice, ByteList.slice_write hdt,
    drop_append_of_le_length hs.head_le]
  rfl

theorem scanned_append {grow : GrowCapacity} {self' : JSONLineBuffer} {bytes : List UInt8}
    (hs : self.Scanned) (h : self.append grow bytes = some self') : self'.Scanned := by
  have hac := active_append hs h
  obtain ⟨data, hdt, rfl⟩ := map_eq_some_iff.1 h
  have hsl := ByteList.slice_write hdt
  have hhd : self.head ≤ data.len := by
    rw [ByteList.len, hsl, length_append]
    exact le_trans hs.head_le (Nat.le_add_right _ _)
  rw [activeSlice_scanForNewline] at hac
  obtain hpos | ⟨pos, hpos⟩ := eq_none_or_eq_some self.newline_pos
  · -- nothing that was there before has a newline
    have hsc := hs.scanned_pos_eq
    have hfn := hs.newline_pos_eq
    rw [hpos] at hsc hfn
    refine scanned_scanForNewline hhd hpos ?_ ?_
    · simpa [hac] using hsc.trans_le (Nat.le_add_right _ _)
    · rw [hac, show self.scanned_pos = self.activeSlice.length from hsc, take_left]
      simpa using findIdx?_eq_none_iff.1 hfn.symm
  · have hfn := hs.newline_pos_eq
    rw [hpos] at hfn
    have hsm : ({ self with data := data } : JSONLineBuffer).scanForNewline =
        { self with data := data } := by
      rw [scanForNewline, if_pos (by simp [hpos])]
    rw [hsm]
    refine ⟨hhd, ?_, ?_⟩
    · rw [hac, findIdx?_append, ← hfn, hpos]
      rfl
    · have hsc := hs.scanned_pos_eq
      rw [hpos] at hsc
      simpa [hpos] using hsc

theorem next_eq (hs : self.Scanned) :
    self.next = (self.activeSlice.findIdx? (· = newline)).map fun pos =>
      (self.activeSlice.take (pos + 1), pos) := by
  rw [next, hs.newline_pos_eq]

theorem scanned_reset (self : JSONLineBuffer) :
    self.reset.activeSlice = [] ∧ self.reset.Scanned := by
  have hnil : self.reset.data.slice = [] := by
    simp only [reset]
    split_ifs
    · rfl
    · simp [ByteList.len]
  have hac : self.reset.activeSlice = [] := by rw [activeSlice, hnil, drop_nil]
  refine ⟨hac, Nat.zero_le _, ?_, ?_⟩
  · rw [hac]
    rfl
  · rw [hac]
    rfl

theorem scanned_compact (hs : self.Scanned) :
    self.compact.activeSlice = self.activeSlice ∧ self.compact.Scanned := by
  unfold compact
  split_ifs with hzr
  · exact ⟨rfl, hs⟩
  · have hac : ({ self with data := self.data.moveToFront self.head, head := 0 } :
        JSONLineBuffer).activeSlice = self.activeSlice := drop_zero
    refine ⟨hac, Nat.zero_le _, ?_, ?_⟩
    · rw [hac]
      exact hs.newline_pos_eq
    · rw [hac]
      exact hs.scanned_pos_eq

theorem scanned_consume {pos : ℕ} (hs : self.Scanned)
    (hpos : self.newline_pos = some pos) :
    (self.consume (pos + 1)).activeSlice = self.activeSlice.drop (pos + 1)
      ∧ (self.consume (pos + 1)).Scanned := by
  have hfn := hs.newline_pos_eq
  rw [hpos] at hfn
  have hlt := (findIdx?_eq_some_iff_getElem.1 hfn.symm).1
  have hlen := self.length_activeSlice
  have hmax := self.data.len_lt
  have hsc := hs.scanned_pos_eq
  rw [hpos] at hsc
  have had : self.advance (pos + 1) = ({ self with
      head := self.head + (pos + 1), scanned_pos := 0, newline_pos := none } :
        JSONLineBuffer).scanForNewline := by
    simp only [advance, hpos, satAdd_eq (show self.head + (pos + 1) < 2 ^ 32 by omega),
      if_pos (Nat.lt_succ_self pos), if_pos (show self.scanned_pos ≤ pos + 1 from hsc.le)]
  have hac : (self.advance (pos + 1)).activeSlice = self.activeSlice.drop (pos + 1) := by
    simp [had, activeSlice]
  have hav : (self.advance (pos + 1)).Scanned := by
    rw [had]
    refine scanned_scanForNewline (by simp only; omega) rfl (Nat.zero_le _) (by simp)
  rw [← hac]
  simp only [consume]
  split_ifs with hall
  · refine ⟨?_, (scanned_reset _).2⟩
    rw [(scanned_reset _).1, activeSlice, drop_eq_nil_of_le hall]
  · exact scanned_compact hav
  · exact ⟨rfl, hav⟩

theorem len_consume (self : JSONLineBuffer) (bytes : ℕ) :
    (self.consume bytes).data.len ≤ self.data.len := by
  have had : (self.advance bytes).data = self.data := by
    simp only [advance]
    split
    · split
      · rw [data_scanForNewline]
      · rfl
    · rfl
  rw [← had]
  simp only [consume]
  split_ifs
  · simp only [reset]
    split_ifs
    · exact Nat.zero_le _
    · simp [ByteList.len]
  · unfold compact
    split_ifs
    · rfl
    · simp [ByteList.len]
  · rfl

end JSONLineBuffer

end Cruller.Jsc
