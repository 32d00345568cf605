import Mathlib.Tactic

/-!
# Bytes at offsets

Reading and overwriting parts of a byte buffer, and fixed-layout values in it. A layout carries the
laws of its own encoding, so layouts compose without further proof. Two buffers agree on a set of
positions when they have one length and the same bytes there (`Agree`); what overwrites a part
leaves every slice outside it alone. A part written into a buffer lies there (`Lies`), and so do the
parts it is put together from.
-/

namespace Cruller

open List Option

/-- The `n` low bytes of a number, the least first. -/
def leBytes : ℕ → ℕ → List UInt8
  | 0, _ => []
  | n + 1, v => UInt8.ofNat v :: leBytes n (v / 256)

/-- The number of which these are the bytes, the least first. -/
def leValue : List UInt8 → ℕ
  | [] => 0
  | b :: bs => b.toNat + 256 * leValue bs

attribute [local simp] leBytes leValue

@[simp]
theorem leBytes_length (n v : ℕ) : (leBytes n v).length = n := by
  induction n generalizing v with
  | zero => rfl
  | succ n ih => simp [ih]

theorem leValue_leBytes {n v : ℕ} (h : v < 256 ^ n) : leValue (leBytes n v) = v := by
  induction n generalizing v with
  | zero =>
    rw [pow_zero] at h
    simp
    omega
  | succ n ih =>
    have hdiv : v / 256 < 256 ^ n := by
      rw [Nat.div_lt_iff_lt_mul (by norm_num), ← pow_succ]
      exact h
    rw [leBytes, leValue, ih hdiv, UInt8.toNat_ofNat']
    omega

theorem leValue_lt (bs : List UInt8) : leValue bs < 256 ^ bs.length := by
  induction bs with
  | nil => simp
  | cons b bs ih =>
    have hb := b.toNat_lt
    rw [leValue, length_cons, pow_succ]
    omega

theorem leBytes_leValue (bs : List UInt8) : leBytes bs.length (leValue bs) = bs := by
  induction bs with
  | nil => rfl
  | cons b bs ih =>
    have hb := b.toNat_lt
    have hdiv : (b.toNat + 256 * leValue bs) / 256 = leValue bs := by omega
    rw [length_cons, leValue, leBytes, hdiv, ih]
    congr 1
    apply UInt8.toNat_inj.1
    rw [UInt8.toNat_ofNat']
    omega

/-- How a value lies in `size` bytes. -/
structure Layout (α : Type*) where
  size : ℕ
  encode : α → List UInt8
  decode : List UInt8 → α
  length_encode : ∀ a, (encode a).length = size
  decode_encode : ∀ a, decode (encode a) = a

namespace Layout

variable {α β : Type*}

def u8 : Layout UInt8 where
  size := 1
  encode v := leBytes 1 v.toNat
  decode bs := UInt8.ofNat (leValue bs)
  length_encode _ := leBytes_length 1 _
  decode_encode v := by
    rw [leValue_leBytes v.toNat_lt]
    exact UInt8.ofNat_toNat

def u16 : Layout UInt16 where
  size := 2
  encode v := leBytes 2 v.toNat
  decode bs := UInt16.ofNat (leValue bs)
  length_encode _ := leBytes_length 2 _
  decode_encode v := by
    rw [leValue_leBytes v.toNat_lt]
    exact UInt16.ofNat_toNat

def u32 : Layout UInt32 where
  size := 4
  encode v := leBytes 4 v.toNat
  decode bs := UInt32.ofNat (leValue bs)
  length_encode _ := leBytes_length 4 _
  decode_encode v := by
    rw [leValue_leBytes v.toNat_lt]
    exact UInt32.ofNat_toNat

def u64 : Layout UInt64 where
  size := 8
  encode v := leBytes 8 v.toNat
  decode bs := UInt64.ofNat (leValue bs)
  length_encode _ := leBytes_length 8 _
  decode_encode v := by
    rw [leValue_leBytes v.toNat_lt]
    exact UInt64.ofNat_toNat

/-- Every byte string of the size is the encoding of a value. -/
def Exact (L : Layout α) : Prop := ∀ bs : List UInt8, bs.length = L.size → L.encode (L.decode bs) = bs

theorem exact_u8 : u8.Exact := fun bs h => by
  have hlt := leValue_lt bs
  rw [show bs.length = 1 from h] at hlt
  change leBytes 1 (UInt8.ofNat (leValue bs)).toNat = bs
  rw [UInt8.toNat_ofNat_of_lt' hlt, ← show bs.length = 1 from h, leBytes_leValue]

theorem exact_u16 : u16.Exact := fun bs h => by
  have hlt := leValue_lt bs
  rw [show bs.length = 2 from h] at hlt
  change leBytes 2 (UInt16.ofNat (leValue bs)).toNat = bs
  rw [UInt16.toNat_ofNat_of_lt' hlt, ← show bs.length = 2 from h, leBytes_leValue]

theorem exact_u32 : u32.Exact := fun bs h => by
  have hlt := leValue_lt bs
  rw [show bs.length = 4 from h] at hlt
  change leBytes 4 (UInt32.ofNat (leValue bs)).toNat = bs
  rw [UInt32.toNat_ofNat_of_lt' hlt, ← show bs.length = 4 from h, leBytes_leValue]

theorem exact_u64 : u64.Exact := fun bs h => by
  have hlt := leValue_lt bs
  rw [show bs.length = 8 from h] at hlt
  change leBytes 8 (UInt64.ofNat (leValue bs)).toNat = bs
  rw [UInt64.toNat_ofNat_of_lt' hlt, ← show bs.length = 8 from h, leBytes_leValue]

/-- One value right behind another. -/
def prod (L : Layout α) (M : Layout β) : Layout (α × β) where
  size := L.size + M.size
  encode v := L.encode v.1 ++ M.encode v.2
  decode bs := (L.decode (bs.take L.size), M.decode (bs.drop L.size))
  length_encode v := by rw [List.length_append, L.length_encode, M.length_encode]
  decode_encode v := by
    rw [List.take_left' (L.length_encode _), List.drop_left' (L.length_encode _),
      L.decode_encode, M.decode_encode]

/-- The layout of a record whose fields make up the value. -/
def imap (L : Layout α) (f : α → β) (g : β → α) (h : ∀ b, f (g b) = b) : Layout β where
  size := L.size
  encode b := L.encode (g b)
  decode bs := f (L.decode bs)
  length_encode b := L.length_encode (g b)
  decode_encode b := by rw [L.decode_encode, h]

end Layout

/-- `length` bytes from `offset` on, when they lie in the buffer. -/
def slice {α : Type*} (bytes : List α) (offset length : ℕ) : Option (List α) :=
  if offset > bytes.length ∨ length > bytes.length - offset then none
  else some ((bytes.drop offset).take length)

/-- `@memcpy` into the buffer at `offset`; `none` where the bounds check fails. -/
def splice {α : Type*} (bytes : List α) (offset : ℕ) (value : List α) : Option (List α) :=
  if offset + value.length ≤ bytes.length then
    some (bytes.take offset ++ value ++ bytes.drop (offset + value.length))
  else none

/-- The value at an offset, if there are enough bytes. -/
def Layout.read {α : Type*} (L : Layout α) (bytes : List UInt8) (offset : ℕ) : Option α :=
  (slice bytes offset L.size).map L.decode

/-- The bytes with the value in the place of what was at the offset. -/
def Layout.write {α : Type*} (L : Layout α) (bytes : List UInt8) (offset : ℕ) (value : α) :
    Option (List UInt8) :=
  splice bytes offset (L.encode value)

/-- The same length, and the same bytes wherever `P` holds. -/
structure Agree {α : Type*} (P : ℕ → Prop) (bytes bytes' : List α) : Prop where
  length : bytes'.length = bytes.length
  getElem? : ∀ i, P i → bytes'[i]? = bytes[i]?

section

variable {α : Type*} {bytes bytes' bytes'' value s : List α} {offset n : ℕ} {P Q : ℕ → Prop}

theorem slice_eq_some :
    slice bytes offset n = some s ↔ offset + n ≤ bytes.length ∧ s = (bytes.drop offset).take n := by
  unfold slice
  by_cases h : offset + n ≤ bytes.length
  · rw [if_neg (by omega), some.injEq]
    exact ⟨fun hs => ⟨h, hs.symm⟩, fun hs => hs.2.symm⟩
  · rw [if_pos (by omega)]
    exact ⟨fun hs => by simp at hs, fun hs => absurd hs.1 h⟩

theorem slice_isSome : (slice bytes offset n).isSome ↔ offset + n ≤ bytes.length := by
  rw [isSome_iff_exists]
  exact ⟨fun ⟨_, hs⟩ => (slice_eq_some.1 hs).1, fun h => ⟨_, slice_eq_some.2 ⟨h, rfl⟩⟩⟩

theorem Agree.refl (P : ℕ → Prop) (bytes : List α) : Agree P bytes bytes := ⟨rfl, fun _ _ => rfl⟩

theorem Agree.trans (h : Agree P bytes bytes') (h' : Agree P bytes' bytes'') :
    Agree P bytes bytes'' :=
  ⟨h'.length.trans h.length, fun i hi => (h'.getElem? i hi).trans (h.getElem? i hi)⟩

theorem Agree.mono (h : Agree P bytes bytes') (hQ : ∀ i, Q i → P i) : Agree Q bytes bytes' :=
  ⟨h.length, fun i hi => h.getElem? i (hQ i hi)⟩

theorem Agree.slice (h : Agree P bytes bytes')
    (hP : ∀ i, offset ≤ i → i < offset + n → P i) :
    slice bytes' offset n = slice bytes offset n := by
  unfold Cruller.slice
  rw [h.length]
  congr 1
  rw [some.injEq]
  refine ext_getElem? fun i => ?_
  rw [getElem?_take, getElem?_take, getElem?_drop, getElem?_drop]
  by_cases hi : i < n
  · rw [if_pos hi, if_pos hi, h.getElem? _ (hP _ (by omega) (by omega))]
  · rw [if_neg hi, if_neg hi]

theorem Agree.read {β : Type*} {L : Layout β} {bytes bytes' : List UInt8}
    (h : Agree P bytes bytes') (hP : ∀ i, offset ≤ i → i < offset + L.size → P i) :
    L.read bytes' offset = L.read bytes offset := by
  rw [Layout.read, Layout.read, h.slice hP]

theorem exists_splice (h : offset + value.length ≤ bytes.length) :
    ∃ bytes', splice bytes offset value = some bytes' := ⟨_, if_pos h⟩

theorem splice_eq_some (h : splice bytes offset value = some bytes') :
    offset + value.length ≤ bytes.length
      ∧ bytes' = bytes.take offset ++ value ++ bytes.drop (offset + value.length) := by
  unfold splice at h
  split_ifs at h with hle
  exact ⟨hle, (some.inj h).symm⟩

theorem splice_append {old : List α} (h : value.length = old.length) (before after : List α) :
    splice (before ++ (old ++ after)) before.length value = some (before ++ (value ++ after)) := by
  rw [splice, if_pos (by simp; omega), take_left, ← append_assoc before old after,
    drop_left' (by simp [h]), append_assoc]

theorem agree_splice (h : splice bytes offset value = some bytes') :
    Agree (fun i => i < offset ∨ offset + value.length ≤ i) bytes bytes' := by
  obtain ⟨hle, rfl⟩ := splice_eq_some h
  refine ⟨by simp; omega, fun i hi => ?_⟩
  rcases hi with hi | hi
  · rw [append_assoc, getElem?_append_left (by simp; omega), getElem?_take,
      if_pos hi]
  · rw [getElem?_append_right (by simp; omega), getElem?_drop]
    congr 1
    simp
    omega

theorem slice_splice (h : splice bytes offset value = some bytes') :
    slice bytes' offset value.length = some value := by
  obtain ⟨hle, rfl⟩ := splice_eq_some h
  refine slice_eq_some.2 ⟨by simp; omega, ?_⟩
  rw [append_assoc, drop_append_of_le_length (by simp; omega),
    drop_of_length_le (by simp), nil_append, take_left' rfl]

theorem read_write {β : Type*} {L : Layout β} {bytes bytes' : List UInt8} {v : β}
    (h : L.write bytes offset v = some bytes') : L.read bytes' offset = some v := by
  have hs := slice_splice h
  rw [L.length_encode] at hs
  rw [Layout.read, hs, map_some, L.decode_encode]

end

/-- `part` lies in the buffer at `offset`. -/
def Lies {α : Type*} (bytes : List α) (offset : ℕ) (part : List α) : Prop :=
  part <+: bytes.drop offset

section

variable {α : Type*} {bytes part part' : List α} {offset i : ℕ} {a : α}

theorem lies_append :
    Lies bytes offset (part ++ part') ↔
      Lies bytes offset part ∧ Lies bytes (offset + part.length) part' := by
  unfold Lies
  rw [← drop_drop]
  constructor
  · rintro ⟨t, ht⟩
    rw [← ht, append_assoc, drop_left]
    exact ⟨⟨_, rfl⟩, ⟨_, rfl⟩⟩
  · rintro ⟨⟨t, ht⟩, h⟩
    rw [← ht, drop_left] at h
    rw [← ht]
    exact (prefix_append_right_inj part).2 h

theorem Lies.at {offset' : ℕ} (h : Lies bytes offset part) (he : offset = offset') :
    Lies bytes offset' part := he ▸ h

theorem Lies.getElem? (h : Lies bytes offset part) (hi : i < part.length) :
    bytes[offset + i]? = some part[i] := by
  obtain ⟨t, ht⟩ := h
  rw [← getElem?_drop, ← ht, getElem?_append_left hi, getElem?_eq_getElem hi]

theorem lies_cons :
    Lies bytes offset (a :: part) ↔ bytes[offset]? = some a ∧ Lies bytes (offset + 1) part := by
  constructor
  · intro h
    exact ⟨h.getElem? (i := 0) (by simp), (lies_append.1 (show Lies bytes offset ([a] ++ part) from h)).2⟩
  · rintro ⟨ha, h⟩
    obtain ⟨hi, rfl⟩ := List.getElem?_eq_some_iff.1 ha
    unfold Lies at *
    rw [drop_eq_getElem_cons hi]
    exact (prefix_cons_inj _).2 h

theorem Lies.length_le (h : Lies bytes offset part) (hp : part ≠ []) :
    offset + part.length ≤ bytes.length := by
  have hl := IsPrefix.length_le h
  have := length_pos_iff.2 hp
  rw [length_drop] at hl
  omega

theorem Lies.append_right (h : Lies bytes offset part) (more : List α) :
    Lies (bytes ++ more) offset part := by
  unfold Lies at *
  rw [drop_append]
  exact h.trans (prefix_append _ _)

theorem lies_append_length (bytes part more : List α) :
    Lies (bytes ++ (part ++ more)) bytes.length part := by
  unfold Lies
  rw [drop_left]
  exact prefix_append _ _

theorem Lies.splice {bytes' value : List α} (h : Lies bytes offset part)
    (hs : Cruller.splice bytes (offset + part.length) value = some bytes') :
    Lies bytes' offset (part ++ value) := by
  obtain ⟨t, ht⟩ := h
  obtain ⟨hle, rfl⟩ := splice_eq_some hs
  have hoff : offset + part.length ≤ bytes.length := by omega
  have htk : (bytes.take (offset + part.length)).drop offset = part := by
    rw [drop_take, ← ht, Nat.add_sub_cancel_left, take_left]
  refine ⟨bytes.drop (offset + part.length + value.length), ?_⟩
  rw [append_assoc (bytes.take _), drop_append_of_le_length (by
    rw [List.length_take]
    omega), htk, append_assoc]

theorem Lies.slice (h : Lies bytes offset part) (hp : part ≠ []) :
    Cruller.slice bytes offset part.length = some part :=
  slice_eq_some.2 ⟨h.length_le hp, prefix_iff_eq_take.1 h⟩

theorem Lies.read {β : Type*} {L : Layout β} {bytes : List UInt8} {v : β}
    (h : Lies bytes offset (L.encode v)) (hp : 0 < L.size) : L.read bytes offset = some v := by
  have hs := h.slice (ne_nil_of_length_pos (by rw [L.length_encode]; exact hp))
  rw [L.length_encode] at hs
  rw [Layout.read, hs, map_some, L.decode_encode]

end

end Cruller
