import Cruller.Collections.FifoQueue

/-!
# What `orderedRemoveItem` erases

The fifos that calls lead to hold the items of a list (`Reachable.holds`). Of these an item is
erased just when `Erases` holds: where the items wrap around the end of the buffer, the slots that
are moved at its front end at the wrong one, and that goes unnoticed only among items that are
alike.
-/

namespace Cruller

open List Option Nat

namespace LinearFifo

variable {ty : FifoType} {α : Type*}

/-- The items from `a` on and before `b` are all alike. -/
def Alike (xs : List α) (a b : ℕ) : Prop := ∀ i, a ≤ i → i + 1 < b → xs[i]? = xs[i + 1]?

/-- The first item is removed, or one of items that do not wrap around. Otherwise the slots that are
moved at the front of the buffer end before `stop`, which lies behind the removed item; and the
items that they fall short of are alike, as are the first ones, if they reach these. -/
def Erases (f : LinearFifo ty α) (offset : ℕ) : Prop :=
  offset = 0 ∨ ¬f.Wraps ∨ ∃ stop,
    (if f.buf.length ≤ f.head + offset then
      f.head + stop = f.count ∧ f.head + offset < f.buf.length + stop
    else f.count + stop = f.head ∧ 0 < stop)
    ∧ Alike f.toList (f.buf.length - f.head + stop - 1) f.count
    ∧ Alike f.toList 0 (stop - f.head)

theorem map_eq_of_filterMap {β : Type*} {p : β → Option α} : ∀ {l : List β} {ys : List α},
    l.filterMap p = ys → l.length ≤ ys.length → l.map p = ys.map some
  | [], _, rfl, _ => rfl
  | b :: l, ys, h, hlen => by
    rw [filterMap_cons] at h
    rcases hb : p b with _ | a
    · simp only [hb] at h
      subst h
      have := length_filterMap_le p l
      rw [length_cons] at hlen
      omega
    · simp only [hb] at h
      subst h
      rw [map_cons, map_cons, hb, map_eq_of_filterMap rfl (le_of_succ_le_succ hlen)]

namespace Holds

variable {f : LinearFifo ty α} {xs : List α}

variable {offset : ℕ} {buf : List (Option α)}

theorem erased_iff (h : f.Holds xs) (hoff : offset < xs.length)
    (hlen : buf.length = f.buf.length) :
    ({ f with buf := buf, count := f.count - 1 } : LinearFifo ty α).toList = xs.eraseIdx offset ↔
      ∀ i, i + 1 < xs.length → buf[(f.head + i) % f.buf.length]? =
        some (if i < offset then xs[i]? else xs[i + 1]?) := by
  have hc := h.count
  have hle := h.count_le
  have hpos : 0 < f.buf.length := by omega
  have hlen' : (xs.eraseIdx offset).length = xs.length - 1 := length_eraseIdx_of_lt hoff
  have hwr : ∀ i, ({ f with buf := buf, count := f.count - 1 } : LinearFifo ty α).wrap i =
      i % f.buf.length := by
    intro i
    rw [← h.wrap_eq hpos, wrap, wrap, hlen]
  constructor
  · intro hls i hi
    have hmap := map_eq_of_filterMap hls (by rw [length_range]; simp only; omega)
    have hpk := congrArg (·[i]?) hmap
    have hrn : (List.range (f.count - 1))[i]? = some i := List.getElem?_range (by omega)
    simp only [getElem?_map, hrn, map_some, LinearFifo.peekItem, hwr] at hpk
    have hsl : (f.head + i) % f.buf.length < buf.length := by
      rw [hlen]
      exact mod_lt _ hpos
    rw [getElem?_eq_getElem hsl] at hpk ⊢
    rw [← getElem?_eraseIdx]
    rw [getElem?_eq_getElem (show i < (xs.eraseIdx offset).length by omega)] at hpk ⊢
    exact congrArg some (some.inj hpk)
  · exact fun hst => (h.erased hoff hlen hst).toList

/-- An item at the front of the buffer: the slots from it on are moved up, to before `stop`. -/
theorem erased_front (h : f.Holds xs) {stop : ℕ} (hoff : offset < xs.length)
    (hfn : f.buf.length ≤ f.head + offset) (hst : f.head + stop = f.count)
    (hmv : moveUp f.buf (f.head + offset - f.buf.length) stop = some buf) :
    ({ f with buf := buf, count := f.count - 1 } : LinearFifo ty α).toList = xs.eraseIdx offset ↔
      Alike xs (f.buf.length - f.head + stop - 1) f.count ∧ Alike xs 0 (stop - f.head) := by
  have hc := h.count
  have hle := h.count_le
  have hhd : f.head < f.buf.length := by rcases h.head with hh | hh <;> omega
  have hlt : f.head + offset - f.buf.length < stop := by
    rw [moveUp] at hmv
    split_ifs at hmv with hbn
    exact hbn.1
  -- where the slots are moved, an item is the one behind it
  have hbf : ∀ i < offset, i + 1 < xs.length → buf[(f.head + i) % f.buf.length]? =
      some (if i + 1 < stop - f.head then xs[i + 1]? else xs[i]?) := by
    intro i hi hlen
    rw [getElem_moveUp hmv]
    by_cases hlow : f.head + i < f.buf.length
    · have hmod : (f.head + i) % f.buf.length = f.head + i := mod_eq_of_lt hlow
      by_cases hin : i + 1 < stop - f.head
      · have hnx := h.getElem_slot hlen
        rw [← Nat.add_assoc, mod_eq_of_lt (by omega)] at hnx
        rw [if_pos (by omega), if_pos hin, hmod, hnx]
      · rw [if_neg (by omega), if_neg hin, h.getElem_slot (by omega)]
    · have hmod : (f.head + i) % f.buf.length = f.head + i - f.buf.length := by
        rw [mod_once (by omega), if_neg hlow]
      rw [if_neg (by omega), if_neg (by omega), h.getElem_slot (by omega)]
  have hbh : ∀ i, offset ≤ i → i + 1 < xs.length → buf[(f.head + i) % f.buf.length]? =
      some (if f.head + i + 1 < f.buf.length + stop then xs[i + 1]? else xs[i]?) := by
    intro i hi hlen
    have hmod : (f.head + i) % f.buf.length = f.head + i - f.buf.length := by
      rw [mod_once (by omega), if_neg (by omega)]
    rw [getElem_moveUp hmv]
    by_cases hin : f.head + i + 1 < f.buf.length + stop
    · have hnx := h.getElem_slot hlen
      rw [mod_once (by omega), if_neg (by omega)] at hnx
      rw [if_pos (by omega), if_pos hin, hmod, ← hnx]
      congr 1
      omega
    · rw [if_neg (by omega), if_neg hin, h.getElem_slot (by omega)]
  rw [h.erased_iff hoff (length_moveUp hmv)]
  constructor
  · intro hall
    refine ⟨fun i hi hls => ?_, fun i _ hls => ?_⟩
    · have := (hbh i (by omega) (by omega)).symm.trans (hall i (by omega))
      rw [if_neg (by omega), if_neg (by omega)] at this
      exact some.inj this
    · have := (hbf i (by omega) (by omega)).symm.trans (hall i (by omega))
      rw [if_pos hls, if_pos (by omega)] at this
      exact (some.inj this).symm
  · rintro ⟨hbc, hfr⟩ i hi
    by_cases hlt : i < offset
    · rw [hbf i hlt hi, if_pos hlt]
      split_ifs with hin
      · rw [hfr i (Nat.zero_le _) hin]
      · rfl
    · rw [hbh i (by omega) hi, if_neg hlt]
      split_ifs with hin
      · rfl
      · rw [hbc i (by omega) (by omega)]

/-- An item at the back of the buffer: the slots from it on take in the first slot, and those at the
front are moved up, to before `stop`. -/
theorem erased_back (h : f.Holds xs) {stop : ℕ} (hoff : offset < xs.length)
    (hbc : f.head + offset < f.buf.length) (hwr : f.Wraps) (hst : f.count + stop = f.head)
    (hpos : 0 < stop) {right : List (Option α)}
    (hrg : moveUp f.buf (f.head + offset) f.buf.length = some right)
    (hlf : moveUp (right.set (f.buf.length - 1) ((f.buf[0]?).join)) 0 stop = some buf) :
    ({ f with buf := buf, count := f.count - 1 } : LinearFifo ty α).toList = xs.eraseIdx offset ↔
      Alike xs (f.buf.length - f.head + stop - 1) f.count := by
  have hc := h.count
  have hle := h.count_le
  unfold Wraps at hwr
  have hlen : (right.set (f.buf.length - 1) ((f.buf[0]?).join)).length = f.buf.length := by
    rw [length_set, length_moveUp hrg]
  rw [h.erased_iff hoff ((length_moveUp hlf).trans hlen)]
  have hsl : ∀ i, (right.set (f.buf.length - 1) ((f.buf[0]?).join))[i]? =
      if i + 1 = f.buf.length then f.buf[0]?
      else if f.head + offset ≤ i ∧ i + 1 < f.buf.length then f.buf[i + 1]? else f.buf[i]? := by
    intro i
    have hfr : some ((f.buf[0]?).join) = f.buf[0]? := by
      rw [getElem?_eq_getElem (by omega)]
      rfl
    rw [getElem?_set, length_moveUp hrg, getElem_moveUp hrg]
    by_cases hi : i + 1 = f.buf.length
    · rw [if_pos (by omega), if_pos (by omega), if_pos hi, hfr]
    · rw [if_neg (by omega), if_neg hi]
  have hbf : ∀ i < offset, buf[(f.head + i) % f.buf.length]? = some xs[i]? := by
    intro i hi
    have hold := h.getElem_slot (i := i) (by omega)
    rw [mod_eq_of_lt (by omega)] at hold ⊢
    rw [getElem_moveUp hlf, if_neg (by omega), hsl, if_neg (by omega), if_neg (by omega), hold]
  have hbh : ∀ i, offset ≤ i → i + 1 < xs.length → buf[(f.head + i) % f.buf.length]? =
      some (if f.head + i + 1 < f.buf.length + stop then xs[i + 1]? else xs[i]?) := by
    intro i hi hnx
    have hold := h.getElem_slot (i := i) (by omega)
    have hnew := h.getElem_slot hnx
    rw [getElem_moveUp hlf]
    by_cases hend : f.head + i < f.buf.length
    · rw [mod_eq_of_lt hend, if_neg (by omega), if_pos (by omega), hsl]
      by_cases hls : f.head + i + 1 = f.buf.length
      · rw [← Nat.add_assoc, hls, mod_self] at hnew
        rw [if_pos hls, hnew]
      · rw [← Nat.add_assoc, mod_eq_of_lt (by omega)] at hnew
        rw [if_neg hls, if_pos (by omega), hnew]
    · have hmod : (f.head + i) % f.buf.length = f.head + i - f.buf.length := by
        rw [mod_once (by omega), if_neg hend]
      rw [mod_once (by omega), if_neg (by omega)] at hnew
      rw [hmod] at hold ⊢
      by_cases hin : f.head + i + 1 < f.buf.length + stop
      · rw [if_pos (by omega), hsl, if_neg (by omega), if_neg (by omega), if_pos hin, ← hnew]
        congr 1
        omega
      · rw [if_neg (by omega), hsl, if_neg (by omega), if_neg (by omega), if_neg hin, hold]
  constructor
  · intro hall i hi hls
    have := (hbh i (by omega) (by omega)).symm.trans (hall i (by omega))
    rw [if_neg (by omega), if_neg (by omega)] at this
    exact some.inj this
  · intro hal i hi
    by_cases hlt : i < offset
    · rw [hbf i hlt, if_pos hlt]
    · rw [hbh i (by omega) hi, if_neg hlt]
      split_ifs with hin
      · rfl
      · rw [hal i (by omega) (by omega)]

/-- Removing works as on a list just where `Erases` says. -/
theorem orderedRemoveItem_iff (h : f.Holds xs) (hoff : offset < xs.length) :
    (∃ g, f.orderedRemoveItem offset = some g ∧ g.toList = xs.eraseIdx offset
      ∧ g.count + 1 = f.count) ↔ f.Erases offset := by
  have hc := h.count
  have hle := h.count_le
  have hpos : 0 < f.buf.length := by omega
  have hhd : f.head < f.buf.length := by rcases h.head with hh | hh <;> omega
  have hrm (hfl : offset = 0 ∨ ¬ f.Wraps) : ∃ g, f.orderedRemoveItem offset = some g
      ∧ g.toList = xs.eraseIdx offset ∧ g.count + 1 = f.count := by
    obtain ⟨g, hg, hhl⟩ := h.orderedRemoveItem_flat hoff hfl
    have hcn := hhl.count
    rw [length_eraseIdx_of_lt hoff] at hcn
    exact ⟨g, hg, hhl.toList, by omega⟩
  by_cases hzr : offset = 0
  · exact ⟨fun _ => .inl hzr, fun _ => hrm (.inl hzr)⟩
  by_cases hwr : f.Wraps
  swap
  · exact ⟨fun _ => .inr (.inl hwr), fun _ => hrm (.inr hwr)⟩
  have hwr' := hwr
  unfold Wraps at hwr'
  rw [LinearFifo.orderedRemoveItem, if_neg hzr, Erases, h.toList, if_neg (by omega),
    h.wrap_eq hpos]
  simp only [hzr, hwr, not_true, false_or]
  by_cases hfr : f.buf.length ≤ f.head + offset
  · have hin : (f.head + offset) % f.buf.length = f.head + offset - f.buf.length := by
      rw [mod_once (by omega), if_neg (by omega)]
    simp only [hin, if_pos hfr]
    rw [if_pos (by omega)]
    constructor
    · rintro ⟨g, hg, hls, -⟩
      obtain ⟨buf, hbuf, rfl⟩ := map_eq_some_iff.1 hg
      obtain ⟨stop, hst, hmv⟩ := bind_eq_some_iff.1 hbuf
      rw [checkedSub] at hst
      split_ifs at hst with hsub
      obtain rfl := some.inj hst
      have hbn : f.head + offset - f.buf.length < f.count - f.head := by
        rw [moveUp] at hmv
        split_ifs at hmv with hb
        exact hb.1
      exact ⟨_, ⟨by omega, by omega⟩, (h.erased_front hoff hfr (by omega) hmv).1 hls⟩
    · rintro ⟨stop, ⟨hst, hlt⟩, hal⟩
      have hsub : checkedSub f.count f.head = some stop := by
        simp [checkedSub]
        omega
      have hmv : moveUp f.buf (f.head + offset - f.buf.length) stop = some _ :=
        if_pos ⟨by omega, by omega⟩
      rw [hsub, bind_some, hmv]
      exact ⟨_, rfl, (h.erased_front hoff hfr hst hmv).2 hal,
        Nat.sub_add_cancel (by omega)⟩
  · have hin : (f.head + offset) % f.buf.length = f.head + offset :=
      mod_eq_of_lt (by omega)
    have hrg : moveUp f.buf (f.head + offset) f.buf.length = some _ :=
      if_pos ⟨by omega, le_rfl⟩
    simp only [hin, if_neg hfr]
    rw [if_neg (by omega), hrg, bind_some]
    constructor
    · rintro ⟨g, hg, hls, -⟩
      obtain ⟨buf, hbuf, rfl⟩ := map_eq_some_iff.1 hg
      obtain ⟨stop, hst, hlf⟩ := bind_eq_some_iff.1 hbuf
      rw [checkedSub] at hst
      split_ifs at hst with hsub
      obtain rfl := some.inj hst
      have hbn : 0 < f.head - f.count := by
        rw [moveUp] at hlf
        split_ifs at hlf with hb
        exact hb.1
      refine ⟨_, ⟨by omega, hbn⟩, (h.erased_back hoff (by omega) hwr (by omega) hbn
        hrg hlf).1 hls, fun i _ hi => ?_⟩
      omega
    · rintro ⟨stop, ⟨hst, hlt⟩, hal, -⟩
      have hsub : checkedSub f.head f.count = some stop := by
        simp [checkedSub]
        omega
      have hlf : moveUp (List.set _ (f.buf.length - 1) ((f.buf[0]?).join)) 0 stop = some _ :=
        if_pos ⟨hlt, by rw [length_set, length_moveUp hrg]; omega⟩
      rw [hsub, bind_some, hlf]
      exact ⟨_, rfl, (h.erased_back hoff (by omega) hwr hst hlt hrg hlf).2 hal,
        Nat.sub_add_cancel (by omega)⟩

theorem of_orderedRemoveItem (h : f.Holds xs) {g : LinearFifo ty α}
    (hoff : offset < xs.length) (hg : f.orderedRemoveItem offset = some g)
    (hls : g.toList = xs.eraseIdx offset) :
    g.Holds (xs.eraseIdx offset) ∧ g.buf.length = f.buf.length := by
  rw [LinearFifo.orderedRemoveItem] at hg
  by_cases hzr : offset = 0
  · rw [if_pos hzr] at hg
    obtain rfl := some.inj hg
    have := h.discard (n := 1) (by omega)
    rw [hzr, eraseIdx_zero, ← drop_one]
    exact ⟨this, rfl⟩
  rw [if_neg hzr] at hg
  obtain ⟨buf, hbuf, rfl⟩ := map_eq_some_iff.1 hg
  have hlen : buf.length = f.buf.length := by
    dsimp only at hbuf
    split_ifs at hbuf
    · exact length_moveUp hbuf
    · obtain ⟨stop, -, hmv⟩ := bind_eq_some_iff.1 hbuf
      exact length_moveUp hmv
    · obtain ⟨right, hrg, hbuf⟩ := bind_eq_some_iff.1 hbuf
      obtain ⟨stop, -, hlf⟩ := bind_eq_some_iff.1 hbuf
      rw [length_moveUp hlf, length_set, length_moveUp hrg]
  exact ⟨h.erased hoff hlen ((h.erased_iff hoff hlen).1 hls), hlen⟩

/-- Where the slots that are moved reach far enough, no items need be alike. -/
theorem erases_of_removes (h : f.Holds xs) (hoff : offset < xs.length) (hr : f.Removes offset) :
    f.Erases offset := by
  have hc := h.count
  have hle := h.count_le
  have hvd (a b : ℕ) (hab : b ≤ a + 1) : Alike f.toList a b := fun i hi hls => by omega
  by_cases hwr : f.Wraps
  swap
  · exact .inr (.inl hwr)
  have hwr' := hwr
  unfold Wraps at hwr'
  rcases hr with hzr | hfl | ⟨hfr, hhd, hcn⟩ | ⟨hbc, hcn⟩
  · exact .inl hzr
  · exact absurd hwr hfl
  · refine .inr (.inr ⟨f.count - f.head, ?_, hvd _ _ (by omega), hvd _ _ (by omega)⟩)
    rw [if_pos hfr]
    omega
  · refine .inr (.inr ⟨f.head - f.count, ?_, hvd _ _ (by omega), hvd _ _ (by omega)⟩)
    rw [if_neg (by omega)]
    omega

theorem orderedRemoveItem (h : f.Holds xs) (hoff : offset < xs.length) (hr : f.Removes offset) :
    ∃ g, f.orderedRemoveItem offset = some g ∧ g.Holds (xs.eraseIdx offset)
      ∧ g.buf.length = f.buf.length := by
  obtain ⟨g, hg, hls, -⟩ := (h.orderedRemoveItem_iff hoff).2 (h.erases_of_removes hoff hr)
  exact ⟨g, hg, h.of_orderedRemoveItem hoff hg hls⟩

end Holds

/-- A fifo that calls lead to, and removals that erase the item. -/
inductive Reachable : LinearFifo ty α → Prop
  | init (hty : ty.bufferType.Valid) (buf : List (Option α)) : Reachable (init buf)
  | step {f g : LinearFifo ty α} {call : Op α × Bool} {event : Event α} (h : Reachable f)
      (hallows : f.Allows call.1) (hstep : f.step call = some (g, event)) : Reachable g
  | remove {f g : LinearFifo ty α} {offset : ℕ} (h : Reachable f) (hoff : offset < f.count)
      (herases : f.Erases offset) (hg : f.orderedRemoveItem offset = some g) : Reachable g

theorem Reachable.holds {f : LinearFifo ty α} (h : Reachable f) : f.Holds f.toList := by
  have hsm : ∃ xs, f.Holds xs := by
    induction h with
    | init hty buf => exact ⟨[], holds_init hty buf⟩
    | step _ hal hst ih =>
      obtain ⟨xs, hxs⟩ := ih
      obtain ⟨g, event, ys, hg, -, hys, -⟩ := hxs.step hal
      rw [hst] at hg
      obtain ⟨rfl, -⟩ := Prod.mk.inj (some.inj hg)
      exact ⟨ys, hys⟩
    | remove _ hoff her hrm ih =>
      obtain ⟨xs, hxs⟩ := ih
      rw [hxs.count] at hoff
      obtain ⟨g, hg, hls, -⟩ := (hxs.orderedRemoveItem_iff hoff).2 her
      rw [hrm] at hg
      obtain rfl := some.inj hg
      exact ⟨_, (hxs.of_orderedRemoveItem hoff hrm hls).1⟩
  obtain ⟨xs, hxs⟩ := hsm
  rwa [hxs.toList]

/-- `orderedRemoveItem` erases just the item in the fifos that `Erases` says. -/
theorem erases_iff {f : LinearFifo ty α} (h : Reachable f) {offset : ℕ} (hoff : offset < f.count) :
    (∃ g, f.orderedRemoveItem offset = some g ∧ g.toList = f.toList.eraseIdx offset
      ∧ g.count + 1 = f.count) ↔ f.Erases offset := by
  have hholds := h.holds
  exact hholds.orderedRemoveItem_iff (by rwa [← hholds.count])

/-- A fifo of four bytes. -/
def fourBytes : FifoType where
  bufferType := .Static 4
  tmpLen := 2048
  tmpLen_pos := Nat.succ_pos 2047

/-- Three items from the third slot on, the last of which lies at the front of the buffer. -/
def wrapped : LinearFifo fourBytes ℕ := ⟨[some 7, some 2, some 5, some 6], 2, 3⟩

theorem reachable_wrapped : Reachable wrapped := by
  have hty : fourBytes.bufferType.Valid := succ_ne_zero 3
  have hin : Reachable (init [] : LinearFifo fourBytes ℕ) := .init hty []
  have hwr : (init [] : LinearFifo fourBytes ℕ).step (.write [1, 2, 5, 6], true) =
      some (⟨[some 1, some 2, some 5, some 6], 0, 4⟩, .done []) := rfl
  have hrd : (⟨[some 1, some 2, some 5, some 6], 0, 4⟩ : LinearFifo fourBytes ℕ).step
      (.read 2, true) = some (⟨[some 1, some 2, some 5, some 6], 2, 2⟩, .done [1, 2]) := rfl
  have him : (⟨[some 1, some 2, some 5, some 6], 2, 2⟩ : LinearFifo fourBytes ℕ).step
      (.writeItem 7, true) = some (wrapped, .done []) := rfl
  have hwt := Reachable.step hin (by trivial) hwr
  have hlf := Reachable.step hwt (by trivial) hrd
  exact Reachable.step hlf (by trivial) him

/-- The last item, at the front of the buffer, is removed as it should be. -/
theorem erases_wrapped_last : ∃ g, wrapped.orderedRemoveItem 2 = some g
    ∧ g.toList = wrapped.toList.eraseIdx 2 ∧ g.count + 1 = wrapped.count := by
  refine (erases_iff reachable_wrapped (by decide)).2 (.inr (.inr ⟨1, by decide, ?_, ?_⟩))
  · intro i hle hlt
    change 2 ≤ i at hle
    change i + 1 < 3 at hlt
    omega
  · exact fun i _ hlt => absurd hlt (Nat.not_lt_zero _)

/-- The second of its items is not removed; the slice at the front of the buffer does not exist. -/
theorem erases_refuted : ¬∀ (f : LinearFifo fourBytes ℕ) (offset : ℕ), Reachable f →
    offset < f.count → ∃ g, f.orderedRemoveItem offset = some g
      ∧ g.toList = f.toList.eraseIdx offset ∧ g.count + 1 = f.count := by
  intro h
  obtain ⟨g, hg, -⟩ := h wrapped 1 reachable_wrapped (by decide)
  have hnone : (wrapped.orderedRemoveItem 1).isNone := by decide
  rw [hg] at hnone
  cases hnone

end LinearFifo

end Cruller
