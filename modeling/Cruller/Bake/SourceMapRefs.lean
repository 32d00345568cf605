import Cruller.Bake.SourceMapStore
import Cruller.Collections.FifoErase
import Cruller.Lib.Throughout

/-!
# The counts of the source map store

A reference that an operation has taken off one place and not put to the other yet counts as a
strong one; with that every part of an operation keeps `Counts`, the strong and weak references to
each key add up to the count of its entry. An item that the ring removes wrongly loses a weak
reference and doubles another.
-/

namespace Cruller.Bake

open List Option

/-- How often the weak references have the key. -/
def weakCount (refs : List WeakRef) (key : Key) : ℕ :=
  (refs.map fun ref => if ref.key = key then ref.count else 0).sum

/-- An entry that is referenced `n` times: there is none when it is not. -/
def counted (n : ℕ) : Option ℕ := if n = 0 then none else some n

variable {n : ℕ}

theorem counted_of_pos (h : 0 < n) : counted n = some n := if_neg (by omega)

theorem counted_eq_some {m : ℕ} : counted n = some m ↔ n = m ∧ 0 < n := by
  rw [counted]
  split_ifs <;> simp <;> omega

theorem counted_eq_none : counted n = none ↔ n = 0 := by
  rw [counted]
  split_ifs <;> simp_all

section WeakCount

variable {refs : List WeakRef} {ref : WeakRef} {key : Key}

theorem weakCount_cons (ref : WeakRef) (refs : List WeakRef) (key : Key) :
    weakCount (ref :: refs) key = (if ref.key = key then ref.count else 0) + weakCount refs key :=
  sum_cons

theorem weakCount_append {refs' : List WeakRef} :
    weakCount (refs ++ refs') key = weakCount refs key + weakCount refs' key := by
  simp [weakCount]

theorem weakCount_eraseIdx {i : ℕ} (h : refs[i]? = some ref) (key : Key) :
    weakCount refs key =
      (if ref.key = key then ref.count else 0) + weakCount (refs.eraseIdx i) key := by
  induction refs generalizing i with
  | nil => simp at h
  | cons r refs ih =>
    rcases i with _ | i
    · simp only [getElem?_cons_zero, some.injEq] at h
      rw [weakCount_cons, h]
      rfl
    · simp [weakCount_cons, ih h]
      omega

theorem weakCount_modify {i : ℕ} (h : refs[i]? = some ref) {g : WeakRef → WeakRef}
    (hkey : (g ref).key = ref.key) (key : Key) :
    weakCount (refs.modify i g) key + (if ref.key = key then ref.count else 0) =
      weakCount refs key + (if ref.key = key then (g ref).count else 0) := by
  induction refs generalizing i with
  | nil => simp at h
  | cons r refs ih =>
    rcases i with _ | i
    · simp only [getElem?_cons_zero, some.injEq] at h
      rw [modify_zero_cons, weakCount_cons, weakCount_cons, h, hkey]
      omega
    · rw [getElem?_cons_succ] at h
      have := ih h
      rw [modify_succ_cons, weakCount_cons, weakCount_cons]
      omega

end WeakCount

theorem WeakRef.key_init {key : Key} (h : key.IsRoute) (count : ℕ) (expire : ℤ) :
    (WeakRef.init key count expire).key = key := by
  unfold Key.IsRoute at h
  have hlt := key.toNat_lt
  apply UInt64.toNat.inj
  simp [WeakRef.key, WeakRef.init, Nat.shiftRight_eq_div_pow, Nat.shiftLeft_eq]
  omega

namespace SourceMapStore

/-- The ring holds the weak references, one to a key, and the strong and weak references to a key
are what its entry counts. -/
structure Counts (store : SourceMapStore) (strong : Key → ℕ) (refs : List WeakRef) : Prop where
  holds : store.weak_refs.Holds refs
  length_buf : store.weak_refs.buf.length = weak_ref_entry_max
  nodup : (refs.map WeakRef.key).Nodup
  entries : ∀ key, store.entries key = counted (strong key + weakCount refs key)

variable {store : SourceMapStore} {strong : Key → ℕ} {refs : List WeakRef}

theorem counts_empty : Counts .empty (fun _ => 0) [] where
  holds := LinearFifo.holds_initStatic _ fun _ => ⟨4, rfl⟩
  length_buf := rfl
  nodup := nodup_nil
  entries _ := rfl

theorem unrefCount_eq {key : Key} {n count : ℕ} (h : store.entries key = counted n) (hn : 0 < n)
    (hle : count ≤ n) :
    store.unrefCount key count = .ok (store.setCount key (counted (n - count))) := by
  rw [unrefCount, h, counted_of_pos hn]
  simp only [subCount, if_pos hle]
  rfl

namespace Counts

theorem length_le (h : Counts store strong refs) : refs.length ≤ weak_ref_entry_max := by
  rw [← h.holds.count, ← h.length_buf]
  exact h.holds.count_le

variable {i n : ℕ} {ref : WeakRef}

theorem entries_eq_some (h : Counts store strong refs) {key : Key} :
    store.entries key = some n ↔ strong key + weakCount refs key = n ∧ 0 < n := by
  rw [h.entries, counted_eq_some]
  constructor
  · rintro ⟨rfl, hpos⟩
    exact ⟨rfl, hpos⟩
  · rintro ⟨rfl, hpos⟩
    exact ⟨rfl, hpos⟩

theorem locateWeakRef_eq_some (h : Counts store strong refs) {key : Key}
    (hloc : store.locateWeakRef key = some (i, ref)) : refs[i]? = some ref ∧ ref.key = key := by
  obtain ⟨j, hj, hsm⟩ := exists_of_findSome?_eq_some hloc
  rw [mem_range, h.holds.count] at hj
  rw [h.holds.peekItem hj] at hsm
  obtain ⟨ref', hget, hif⟩ := bind_eq_some_iff.1 hsm
  split_ifs at hif with hkey
  simp only [some.injEq, Prod.mk.injEq] at hif
  obtain ⟨rfl, rfl⟩ := hif
  exact ⟨hget, hkey⟩

theorem locateWeakRef_eq_none (h : Counts store strong refs) {key : Key}
    (hloc : store.locateWeakRef key = none) : ∀ ref ∈ refs, ref.key ≠ key := by
  intro ref hmem hkey
  obtain ⟨i, hi, hget⟩ := getElem_of_mem hmem
  have hno := findSome?_eq_none_iff.1 hloc i (mem_range.2 (h.holds.count ▸ hi))
  rw [h.holds.peekItem hi, getElem?_eq_getElem hi, hget, bind_some, if_pos hkey]
    at hno
  cases hno

theorem key_ne_of_mem_eraseIdx (h : Counts store strong refs)
    (hget : refs[i]? = some ref) : ∀ other ∈ refs.eraseIdx i, other.key ≠ ref.key := by
  intro other hmem hkey
  obtain ⟨j, hj, hne, hot⟩ := mem_eraseIdx_iff_getElem.1 hmem
  obtain ⟨hi, href⟩ := List.getElem?_eq_some_iff.1 hget
  have heq : (refs.map WeakRef.key)[j]? = (refs.map WeakRef.key)[i]? := by
    rw [getElem?_map, getElem?_map, hget, getElem?_eq_getElem hj, hot,
      map_some, map_some, hkey]
  exact hne ((getElem?_inj (by simpa using hj) h.nodup).1 heq)

theorem congr {strong' : Key → ℕ} (h : Counts store strong refs)
    (heq : ∀ key, strong' key = strong key) : Counts store strong' refs := by
  rwa [funext heq]

/-- `n` more strong references to the key. -/
theorem retained (h : Counts store strong refs) (key : Key) (strong' : ℕ)
    (hn : strong' + weakCount refs key = n) :
    Counts (store.setCount key (counted n)) (Function.update strong key strong') refs where
  holds := h.holds
  length_buf := h.length_buf
  nodup := h.nodup
  entries key' := by
    by_cases hkey : key' = key
    · subst hkey
      simp [setCount, hn]
    · simp [setCount, hkey, h.entries]

theorem unref (h : Counts store strong refs) {key : Key} (hpos : 0 < strong key) :
    ∃ store', store.unref key = .ok store' ∧ store'.weak_refs = store.weak_refs
      ∧ Counts store' (Function.update strong key (strong key - 1)) refs :=
  ⟨_, unrefCount_eq (h.entries key) (by omega) (by omega), rfl,
    h.retained key (strong key - 1) (by omega)⟩

theorem moved (h : Counts store strong refs) {weak_refs : WeakRefs} {strong' : Key → ℕ}
    {refs' : List WeakRef} (hhl : weak_refs.Holds refs')
    (hlen : weak_refs.buf.length = store.weak_refs.buf.length)
    (hnd : (refs'.map WeakRef.key).Nodup)
    (hsum : ∀ key, strong' key + weakCount refs' key = strong key + weakCount refs key) :
    Counts { store with weak_refs := weak_refs } strong' refs' where
  holds := hhl
  length_buf := hlen.trans h.length_buf
  nodup := hnd
  entries key := by rw [hsum, h.entries]

theorem giveUp {first : WeakRef} (h : Counts store strong (first :: refs))
    (hpos : 0 < first.count) :
    ∃ store', { store with weak_refs := store.weak_refs.discard 1 }.unrefCount
        first.key first.count = .ok store' ∧ Counts store' strong refs := by
  have hfr := weakCount_cons first refs first.key
  rw [if_pos rfl] at hfr
  have hmv : Counts { store with weak_refs := store.weak_refs.discard 1 }
      (Function.update strong first.key (strong first.key + first.count)) refs := by
    refine h.moved h.holds.readItem.2 rfl (nodup_cons.1 h.nodup).2 fun key => ?_
    rw [weakCount_cons, Function.update_apply]
    split_ifs with hl hr hr
    · subst hl
      omega
    · exact absurd hl.symm hr
    · exact absurd hr.symm hl
    · omega
  refine ⟨_, unrefCount_eq (hmv.entries first.key) ?_ ?_, ?_⟩
  · simp
    omega
  · simp
    omega
  · refine (hmv.retained first.key (strong first.key) ?_).congr fun key => by simp
    simp
    omega

theorem removed (h : Counts store strong refs) (hget : refs[i]? = some ref)
    (hr : store.weak_refs.Removes i) :
    ∃ weak_refs, store.weak_refs.orderedRemoveItem i = some weak_refs
      ∧ Counts { store with weak_refs := weak_refs }
          (Function.update strong ref.key (strong ref.key + ref.count)) (refs.eraseIdx i) := by
  obtain ⟨weak_refs, hrem, hhl, hlen⟩ :=
    h.holds.orderedRemoveItem (List.getElem?_eq_some_iff.1 hget).1 hr
  refine ⟨weak_refs, hrem, h.moved hhl hlen ?_ fun key => ?_⟩
  · exact h.nodup.sublist ((eraseIdx_sublist ..).map _)
  · rw [weakCount_eraseIdx hget, Function.update_apply]
    split_ifs with hl hr hr
    · subst hl
      omega
    · exact absurd hl.symm hr
    · exact absurd hr.symm hl
    · omega

theorem upgraded (h : Counts store strong refs) (hget : refs[i]? = some ref)
    (hpos : 0 < ref.count) :
    Counts { store with
        weak_refs := store.weak_refs.modifyItem i fun ref => { ref with count := ref.count - 1 } }
      (Function.update strong ref.key (strong ref.key + 1))
      (refs.modify i fun ref => { ref with count := ref.count - 1 }) := by
  obtain ⟨hhl, hlen⟩ := h.holds.modifyItem (List.getElem?_eq_some_iff.1 hget).1
    fun ref : WeakRef => { ref with count := ref.count - 1 }
  refine h.moved hhl hlen ?_ fun key => ?_
  · have hky : (refs.modify i fun ref => { ref with count := ref.count - 1 }).map WeakRef.key =
        refs.map WeakRef.key := by
      refine ext_getElem (by simp) fun j _ _ => ?_
      rw [getElem_map, getElem_map, getElem_modify]
      split_ifs <;> rfl
    exact hky ▸ h.nodup
  · have hmd := weakCount_modify (g := fun ref => { ref with count := ref.count - 1 })
      hget rfl key
    simp only at hmd
    rw [Function.update_apply]
    split_ifs at hmd ⊢ with hl hr hr
    · subst hl
      omega
    · exact absurd hl.symm hr
    · exact absurd hr.symm hl
    · omega

/-- `count` strong references become one weak reference that counts as many. -/
theorem written (h : Counts store strong refs) (hrm : refs.length < weak_ref_entry_max)
    {key : Key} (hrt : key.IsRoute) (hnew : ∀ ref ∈ refs, ref.key ≠ key) {count : ℕ}
    (hle : count ≤ strong key) (expire : ℤ) :
    ∃ weak_refs, store.weak_refs.writeItem (.init key count expire) = some weak_refs
      ∧ Counts { store with weak_refs := weak_refs }
          (Function.update strong key (strong key - count)) (refs ++ [.init key count expire]) := by
  have hkey := WeakRef.key_init hrt count expire
  obtain ⟨weak_refs, hwr, hhl, hlen⟩ :=
    h.holds.writeItem_of_room (by rw [h.holds.count, h.length_buf]; exact hrm)
      (WeakRef.init key count expire)
  refine ⟨weak_refs, hwr, h.moved hhl hlen ?_ fun key' => ?_⟩
  · rw [map_append, map_singleton, hkey, ← concat_eq_append]
    refine h.nodup.concat fun hmem => ?_
    obtain ⟨ref, href, heq⟩ := List.mem_map.1 hmem
    exact hnew ref href heq
  · rw [weakCount_append, weakCount_cons, hkey, Function.update_apply]
    have hcn : (WeakRef.init key count expire).count = count := rfl
    have hnil : weakCount [] key' = 0 := rfl
    split_ifs with hl hr hr
    · subst hl
      omega
    · exact absurd hl.symm hr
    · exact absurd hr.symm hl
    · omega

theorem makeRoom (h : Counts store strong refs) (hpos : ∀ ref ∈ refs, 0 < ref.count) :
    ∃ store' refs', store.makeRoom = .ok store' ∧ Counts store' strong refs' ∧ refs' <:+ refs
      ∧ refs'.length < weak_ref_entry_max := by
  have hle := h.length_le
  rw [SourceMapStore.makeRoom, h.holds.count]
  by_cases hfl : weak_ref_entry_max ≤ refs.length
  · rw [if_pos hfl]
    cases refs with
    | nil => cases hfl
    | cons first refs =>
      obtain ⟨store', hun, hst'⟩ := h.giveUp (hpos first mem_cons_self)
      rw [h.holds.readItem.1]
      refine ⟨store', refs, hun, hst', suffix_cons .., ?_⟩
      simpa using hle
  · rw [if_neg hfl]
    exact ⟨store, refs, rfl, h, suffix_rfl, by omega⟩

/-- The sweep drops the weak references from the front of the ring that have expired. -/
theorem sweep (now : ℤ) (hn : refs.length < n) (h : Counts store strong refs)
    (hpos : ∀ ref ∈ refs, 0 < ref.count) :
    ∃ store' refs', SourceMapStore.sweep now n store = .ok store' ∧ Counts store' strong refs'
      ∧ refs' <:+ refs := by
  induction n generalizing store refs with
  | zero => cases hn
  | succ n ih =>
    cases refs with
    | nil =>
      refine ⟨store, [], ?_, h, suffix_rfl⟩
      rw [SourceMapStore.sweep, h.holds.readItem_nil]
    | cons item refs =>
      obtain ⟨hrd, hrs⟩ := h.holds.readItem
      rw [SourceMapStore.sweep, hrd]
      by_cases hexp : item.expire ≤ now
      · obtain ⟨store₁, hun, hst₁⟩ := h.giveUp (hpos item mem_cons_self)
        obtain ⟨store', refs', hsw, hst', hsuf⟩ :=
          ih (Nat.lt_of_succ_lt_succ hn) hst₁ fun ref hmem =>
            hpos ref (mem_cons_of_mem _ hmem)
        refine ⟨store', refs', ?_, hst', hsuf.trans (suffix_cons ..)⟩
        simp only [if_pos hexp, hun]
        exact hsw
      · have hlen := h.length_buf
        have hle := h.length_le
        obtain ⟨weak_refs, hug, hhl, hlen'⟩ := hrs.ungetItem (by
          rw [hrs.count]
          change refs.length < store.weak_refs.buf.length
          simp only [length_cons] at hle
          omega) item
        refine ⟨{ store with weak_refs := weak_refs }, item :: refs, ?_, ?_, suffix_rfl⟩
        · simp only [if_neg hexp, hug]
          rfl
        · exact h.moved hhl hlen' h.nodup fun key => rfl

end Counts

/-- The strong references are counted right together with some weak ones, all of them positive. -/
def Sound (strong : Key → ℕ) (store : SourceMapStore) : Prop :=
  ∃ refs, Counts store strong refs ∧ ∀ ref ∈ refs, 0 < ref.count

variable {key : Key}

theorem Sound.putOrIncrementRefCount (h : store.Sound strong) {n : ℕ}
    (hnew : store.entries key = none → 0 < n) :
    Ends (Sound (Function.update strong key (strong key + n))) (· = Panic.overflow)
      (store.putOrIncrementRefCount key n) := by
  obtain ⟨refs, hc, hpos⟩ := h
  rw [SourceMapStore.putOrIncrementRefCount]
  cases hen : store.entries key with
  | none =>
    have hzr := counted_eq_none.1 ((hc.entries key).symm.trans hen)
    have hn := hnew hen
    simp only [if_pos hn]
    rw [← counted_of_pos hn]
    exact ⟨refs, hc.retained key _ (by omega), hpos⟩
  | some old =>
    obtain ⟨hold, hold'⟩ := hc.entries_eq_some.1 hen
    simp only [addCount]
    split_ifs
    · change Sound _ (store.setCount key (some (old + n)))
      rw [← counted_of_pos (by omega)]
      exact ⟨refs, hc.retained key _ (by omega), hpos⟩
    · rfl

theorem Sound.unref (h : store.Sound strong) (hhl : 0 < strong key) :
    Ends (Sound (Function.update strong key (strong key - 1))) (· = Panic.overflow)
      (store.unref key) := by
  obtain ⟨refs, hc, hpos⟩ := h
  obtain ⟨store', hun, -, hst'⟩ := hc.unref hhl
  rw [hun]
  exact ⟨refs, hst', hpos⟩

theorem Sound.sweepWeakRefs (h : store.Sound strong) (now : ℤ) :
    Ends (Sound strong) (· = Panic.overflow) (store.sweepWeakRefs now) := by
  obtain ⟨refs, hc, hpos⟩ := h
  have hlt : refs.length < store.weak_refs.count + 1 := by rw [hc.holds.count]; omega
  obtain ⟨store', refs', hsw, hst', hsuf⟩ := hc.sweep (max now 0) hlt hpos
  rw [SourceMapStore.sweepWeakRefs, hsw]
  exact ⟨refs', hst', fun ref hmem => hpos ref (hsuf.subset hmem)⟩

/-- A weak reference may push the oldest one out of the ring. -/
theorem Sound.addWeakRef (h : store.Sound strong) (hrt : key.IsRoute)
    (hen : store.entries key ≠ none)
    (hr : ∀ found ∈ store.locateWeakRef key, store.weak_refs.Removes found.1) (now : ℤ) :
    Ends (Sound strong) (· = Panic.overflow) (store.addWeakRef key now) := by
  obtain ⟨refs, hc, hpos⟩ := h
  obtain ⟨old, hold⟩ := ne_none_iff_exists'.1 hen
  obtain ⟨hsum, hpos'⟩ := hc.entries_eq_some.1 hold
  simp only [SourceMapStore.addWeakRef, hold]
  by_cases hfit : old + 1 < 2 ^ 32
  swap
  · rw [addCount, if_neg hfit]
    rfl
  rw [addCount, if_pos hfit]
  -- the new reference counts as a strong one until it is in the ring
  have hnew := hc.retained key (strong key + 1) (n := old + 1) (by omega)
  rw [counted_of_pos (by omega)] at hnew
  have hloc : (store.setCount key (some (old + 1))).locateWeakRef key = store.locateWeakRef key :=
    rfl
  simp only [bind, Except.bind, hloc]
  cases hlc : store.locateWeakRef key with
  | some found =>
    obtain ⟨i, ref⟩ := found
    obtain ⟨hget, hkey⟩ := hc.locateWeakRef_eq_some hlc
    obtain ⟨weak_refs, hrem, hrv⟩ := hnew.removed hget (hr (i, ref) hlc)
    have hlt : 1 + ref.count < 2 ^ 32 := by
      have := weakCount_eraseIdx hget key
      rw [if_pos hkey] at this
      omega
    have hle : 1 + ref.count ≤ Function.update (Function.update strong key (strong key + 1)) ref.key
        (Function.update strong key (strong key + 1) ref.key + ref.count) key := by
      rw [hkey]
      simp
    have hrm : (refs.eraseIdx i).length < weak_ref_entry_max := by
      have := hc.length_le
      have hi := (List.getElem?_eq_some_iff.1 hget).1
      rw [length_eraseIdx_of_lt hi]
      omega
    obtain ⟨weak_refs', hwr, hwt⟩ :=
      hrv.written hrm hrt (hkey ▸ hc.key_ne_of_mem_eraseIdx hget) hle
        (now + weak_ref_expiry_seconds)
    simp only [addCount, if_pos hlt, hrem, orPanic, pure, Except.pure, hwr]
    refine ⟨_, hwt.congr fun key' => ?_, fun ref' hmem => ?_⟩
    · by_cases hkey' : key' = key
      · subst hkey' hkey
        simp
        omega
      · simp [hkey, hkey']
    · rcases mem_append.1 hmem with hmem | hmem
      · exact hpos ref' ((eraseIdx_sublist ..).subset hmem)
      · rw [mem_singleton.1 hmem]
        exact Nat.lt_of_lt_of_le Nat.one_pos (Nat.le_add_right ..)
  | none =>
    have hno := hc.locateWeakRef_eq_none hlc
    obtain ⟨store', refs', hmk, hmd, hsuf, hrm⟩ := hnew.makeRoom hpos
    have hone : 1 ≤ Function.update strong key (strong key + 1) key := by simp
    obtain ⟨weak_refs', hwr, hwt⟩ :=
      hmd.written hrm hrt (fun ref hmem => hno ref (hsuf.subset hmem)) hone
        (now + weak_ref_expiry_seconds)
    simp only [hmk, orPanic, pure, Except.pure, hwr]
    refine ⟨_, hwt.congr fun key' => ?_, fun ref' hmem => ?_⟩
    · by_cases hkey' : key' = key
      · subst hkey'
        simp
      · simp [hkey']
    · rcases mem_append.1 hmem with hmem | hmem
      · exact hpos ref' (hsuf.subset hmem)
      · rw [mem_singleton.1 hmem]
        exact Nat.one_pos

theorem dropEmpty (h : Counts store strong refs) {i : ℕ} {ref : WeakRef}
    (hget : refs[i]? = some ref) (hpos : ∀ other ∈ refs.eraseIdx i, 0 < other.count)
    (hr : ref.count = 0 → store.weak_refs.Removes i) {strong' : Key → ℕ} :
    Ends (fun r => r.1.Sound (if r.2 then strong else strong')) (· = Panic.overflow)
      (if ref.count = 0 then do
        let weak_refs ← orPanic .outOfBounds (store.weak_refs.orderedRemoveItem i)
        return ({ store with weak_refs := weak_refs }, true)
      else return (store, true)) := by
  by_cases hls : ref.count = 0
  · obtain ⟨weak_refs, hrem, hrm⟩ := h.removed hget (hr hls)
    rw [if_pos hls, hrem]
    exact ⟨_, hrm.congr fun key => by simp [hls], hpos⟩
  · rw [if_neg hls]
    refine ⟨_, h, fun other hmem => ?_⟩
    obtain ⟨j, hj, rfl⟩ := getElem_of_mem hmem
    by_cases hij : j = i
    · subst hij
      rw [(List.getElem?_eq_some_iff.1 hget).2]
      exact Nat.pos_of_ne_zero hls
    · exact hpos _ (mem_eraseIdx_iff_getElem.2 ⟨j, hj, hij, rfl⟩)

/-- The reference goes, or becomes a strong one. -/
theorem Sound.removeOrUpgradeWeakRef (h : store.Sound strong)
    (hr : ∀ found ∈ store.locateWeakRef key, found.2.count = 1 →
      store.weak_refs.Removes found.1) (mode : Mode) :
    Ends (fun r => r.1.Sound
        (if r.2 then Function.update strong key (strong key + mode.toNat) else strong))
      (· = Panic.overflow) (store.removeOrUpgradeWeakRef key mode) := by
  have h' := h
  obtain ⟨refs, hc, hpos⟩ := h
  rw [SourceMapStore.removeOrUpgradeWeakRef]
  cases hen : store.entries key with
  | none => exact h'
  | some old =>
    obtain ⟨hsum, hpos'⟩ := hc.entries_eq_some.1 hen
    cases hlc : store.locateWeakRef key with
    | none =>
      simp only [addCount]
      by_cases hfit : old + mode.toNat < 2 ^ 32
      · rw [if_pos hfit]
        change Sound _ (store.setCount key (some (old + mode.toNat)))
        rw [← counted_of_pos (by omega)]
        exact ⟨refs, hc.retained key _ (by omega), hpos⟩
      · rw [if_neg hfit]
        rfl
    | some found =>
      obtain ⟨i, ref⟩ := found
      obtain ⟨hget, rfl⟩ := hc.locateWeakRef_eq_some hlc
      have hi := (List.getElem?_eq_some_iff.1 hget).1
      have hcn := hpos ref (mem_of_getElem? hget)
      have hup := hc.upgraded hget hcn
      have hget₁ : (refs.modify i fun ref => { ref with count := ref.count - 1 })[i]? =
          some { ref with count := ref.count - 1 } := by
        rw [getElem?_modify_eq, hget]
        rfl
      have hrs : ∀ other ∈
          (refs.modify i fun ref => { ref with count := ref.count - 1 }).eraseIdx i,
          0 < other.count := by
        rw [eraseIdx_modify_of_eq]
        exact fun other hmem => hpos other ((eraseIdx_sublist ..).subset hmem)
      have hr₁ : ref.count - 1 = 0 → (store.weak_refs.modifyItem i fun ref =>
          { ref with count := ref.count - 1 }).Removes i := fun hls =>
        LinearFifo.removes_modifyItem.2 (hr (i, ref) hlc (by simp only; omega))
      cases mode with
      | remove =>
        -- the reference that is given up is the one just taken from the weak reference
        have hhl : 0 < Function.update strong ref.key (strong ref.key + 1) ref.key := by simp
        obtain ⟨store₁, hun, hrf₁, hc₁⟩ := hup.unref hhl
        simp only [if_true, hun]
        refine dropEmpty (hc₁.congr fun key => ?_) hget₁ hrs (by rwa [hrf₁])
        by_cases hkey : key = ref.key
        · subst hkey
          simp [Mode.toNat]
        · simp [hkey]
      | upgrade =>
        simp only [reduceCtorEq, if_false]
        exact dropEmpty hup hget₁ hrs hr₁

end SourceMapStore

namespace Held

instance (s : Held) : DecidablePred s.Allowed := fun event => by
  cases event <;> unfold Allowed <;> infer_instance

/-- What the step removes from the ring is removed rightly. -/
def Removable (s : Held) : StoreEvent → Prop
  | .addWeakRef key _ =>
    ∀ found ∈ s.store.locateWeakRef key, s.store.weak_refs.Removes found.1
  | .removeOrUpgradeWeakRef key _ =>
    ∀ found ∈ s.store.locateWeakRef key, found.2.count = 1 → s.store.weak_refs.Removes found.1
  | _ => True

instance (s : Held) : DecidablePred s.Removable := fun event => by
  cases event <;> unfold Removable <;> infer_instance

/-- How many hold the entry, strongly or weakly. -/
def total (s : Held) (key : Key) : ℕ := s.strong key + weakCount s.store.weak_refs.toList key

/-- The entries count the references to them, and there are at most sixteen weak references, of
different keys and to entries that exist. -/
structure Counted (s : Held) : Prop where
  ref_count : ∀ key n, s.store.entries key = some n → n = s.total key
  exists_iff : ∀ key, s.store.entries key ≠ none ↔ 0 < s.total key
  length_le : s.store.weak_refs.toList.length ≤ 16
  nodup : (s.store.weak_refs.toList.map WeakRef.key).Nodup
  weak_exists : ∀ ref ∈ s.store.weak_refs.toList, s.store.entries ref.key ≠ none

theorem counted_of_sound {s : Held} (h : s.store.Sound s.strong) : s.Counted := by
  obtain ⟨refs, hc, hpos⟩ := h
  have hls := hc.holds.toList
  have hen : ∀ key, s.store.entries key = counted (s.total key) := fun key => by
    rw [hc.entries, total, hls]
  refine ⟨fun key n hn => ?_, fun key => ?_, ?_, ?_, fun ref hmem => ?_⟩
  · exact (counted_eq_some.1 ((hen key).symm.trans hn)).1.symm
  · rw [hen, Ne, counted_eq_none]
    omega
  · rw [hls]
    exact hc.length_le
  · rw [hls]
    exact hc.nodup
  · rw [hls] at hmem
    obtain ⟨i, hi, hget⟩ := getElem_of_mem hmem
    have hcn := weakCount_eraseIdx (List.getElem?_eq_some_iff.2 ⟨hi, hget⟩) ref.key
    rw [if_pos rfl] at hcn
    have hpos' := hpos ref hmem
    rw [hc.entries, Ne, counted_eq_none]
    omega

/-- Every event of the server keeps the counts right. -/
theorem step_sound (s : Held) (event : StoreEvent) (h : s.store.Sound s.strong)
    (hal : s.Allowed event ∧ s.Removable event) :
    Ends (fun s => s.store.Sound s.strong) (· = Panic.overflow) (s.step event) := by
  obtain ⟨hal, hr⟩ := hal
  cases event with
  | putOrIncrementRefCount script_id ref_count =>
    exact (h.putOrIncrementRefCount hal).bind fun store hst => hst
  | addWeakRef key now =>
    exact (h.addWeakRef hal.1 hal.2 hr now).bind fun store hst => hst
  | removeOrUpgradeWeakRef key mode =>
    refine (h.removeOrUpgradeWeakRef hr mode).bind fun r hr => ?_
    obtain ⟨store, found⟩ := r
    cases found <;> exact hr
  | sweepWeakRefs now => exact (h.sweepWeakRefs now).bind fun store hst => hst
  | unref key => exact (h.unref hal).bind fun store hst => hst

/-- Every state that a run reaches counts rightly, when each event is one the server makes
(`Allowed`) and what leaves the ring is removed rightly. A count that overflows ends the run. -/
theorem counted_of_run (events : List StoreEvent)
    (h : Meets step (fun s event => s.Allowed event ∧ s.Removable event) empty events) :
    Ends Counted (· = Panic.overflow) (events.foldlM step empty) :=
  (ends_foldlM (I := fun s => s.store.Sound s.strong) step_sound
    ⟨[], SourceMapStore.counts_empty, by simp⟩ h).imp fun _ => counted_of_sound

/-- A page that is served, and whose socket opens. -/
def connectedPage : List StoreEvent :=
  let key : Key := (1 : UInt64) <<< 32
  [.putOrIncrementRefCount key 1, .addWeakRef key 0, .removeOrUpgradeWeakRef key .upgrade]

/-- A page is served and connects. -/
theorem counted_of_run_connectedPage :
    Ends Counted (· = Panic.overflow) (connectedPage.foldlM step empty) :=
  counted_of_run connectedPage (by decide +kernel)

/-- A page of each of seventeen route bundles is served, and that of the last one connects. -/
def seventeenPages : List StoreEvent :=
  ((List.range 17).flatMap fun i =>
    let key : Key := UInt64.ofNat (i + 1) <<< 32
    [.putOrIncrementRefCount key 1, .addWeakRef key 0])
    ++ [.removeOrUpgradeWeakRef ((17 : UInt64) <<< 32) .upgrade]

/-- Removing from a ring that wraps around leaves one reference twice and loses another. -/
theorem counted_of_run_refuted :
    ¬ ∀ events, Meets step Allowed empty events →
      Ends Counted (· = Panic.overflow) (events.foldlM step empty) := by
  intro h
  have hnodup := (h seventeenPages (by decide +kernel)).imp fun _ => Counted.nodup
  -- the ring holds the fifteenth weak reference twice
  exact absurd hnodup (by decide +kernel)

end Held

end Cruller.Bake
