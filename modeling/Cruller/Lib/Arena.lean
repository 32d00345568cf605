import Mathlib.Tactic
import Mathlib.Data.List.Nodup

/-!
# Generational arenas

An arena is a list of cells, each empty or full and stamped with a generation that moves on when
the cell is emptied. A handle names an index and a generation, and finds the content only while
the stamps agree. Generations are 32-bit and skip zero, so they come back after `2 ^ 32 - 1`
steps.

The ledger is what the arena is for: one entry for each handle ever issued, in order, with the
value behind it until it is retired. `Inv` ties the two together, and every operation on the
cells keeps it with the matching operation on the ledger. As long as no index was issued more
than `2 ^ 32 - 1` times, no two entries share a handle (`Inv.nodup`), so the handle of a retired
entry finds nothing (`Inv.lookup_retired`).
-/

namespace Cruller.Arena

open List Option

/-- A reference: a cell, and the generation it was issued in. -/
structure Handle where
  index : ℕ
  generation : UInt32
deriving DecidableEq, Repr

/-- What is in a cell, and in which generation. -/
structure Cell (β : Type*) where
  content : Option β
  generation : UInt32

/-- A handle that was issued, and what it still stands for. -/
structure Entry (β : Type*) where
  handle : Handle
  value : Option β

/-- Everything that was ever issued. -/
abbrev Ledger (β : Type*) := List (Entry β)

/-- The generation after `g`, skipping zero. -/
def bump (g : UInt32) : UInt32 :=
  if g + 1 = 0 then 1 else g + 1

/-- The generation of a cell that was emptied `n` times. -/
def genOf (n : ℕ) : UInt32 :=
  UInt32.ofNat (n % (2 ^ 32 - 1) + 1)

theorem genOf_toNat (n : ℕ) : (genOf n).toNat = n % (2 ^ 32 - 1) + 1 := by
  rw [genOf, UInt32.toNat_ofNat']
  omega

theorem bump_toNat (g : UInt32) :
    (bump g).toNat = if g.toNat + 1 = 2 ^ 32 then 1 else g.toNat + 1 := by
  have hg := g.toNat_lt
  have hadd : (g + 1).toNat = (g.toNat + 1) % 2 ^ 32 := by
    rw [UInt32.toNat_add]
    rfl
  have hz : g + 1 = 0 ↔ g.toNat + 1 = 2 ^ 32 := by
    rw [← UInt32.toNat_inj, hadd]
    simp only [UInt32.toNat_zero]
    omega
  unfold bump
  by_cases h : g + 1 = 0
  · rw [if_pos h, if_pos (hz.1 h)]
    rfl
  · rw [if_neg h, if_neg (mt hz.2 h), hadd]
    have := mt hz.2 h
    omega

@[simp]
theorem genOf_zero : genOf 0 = 1 := rfl

theorem bump_genOf (n : ℕ) : bump (genOf n) = genOf (n + 1) := by
  rw [← UInt32.toNat_inj, bump_toNat, genOf_toNat, genOf_toNat]
  split_ifs <;> omega

theorem genOf_inj {m n : ℕ} (hm : m < 2 ^ 32 - 1) (hn : n < 2 ^ 32 - 1) (h : genOf m = genOf n) :
    m = n := by
  rw [← UInt32.toNat_inj, genOf_toNat, genOf_toNat, Nat.mod_eq_of_lt hm, Nat.mod_eq_of_lt hn] at h
  omega

variable {β : Type*}

/-- A handle finds what is in its cell only while their generations agree. -/
def lookup (cells : List (Cell β)) (h : Handle) : Option β :=
  match cells[h.index]? with
  | some c => if c.generation = h.generation then c.content else none
  | none => none

/-- Changes the content of a full cell; no new content empties the cell and moves it on. -/
def Cell.alter (f : β → Option β) (c : Cell β) : Cell β :=
  match c.content.bind f with
  | some v => ⟨some v, c.generation⟩
  | none => ⟨none, bump c.generation⟩

namespace Ledger

/-- One more handle, for `v`. -/
def issue (L : Ledger β) (h : Handle) (v : β) : Ledger β :=
  L ++ [⟨h, some v⟩]

/-- Changes the value behind the live entry of a handle; no new value retires it. -/
def alter (L : Ledger β) (h : Handle) (f : β → Option β) : Ledger β :=
  L.map fun e => if e.handle = h then { e with value := e.value.bind f } else e

/-- How many handles were issued at an index. -/
def issued (L : Ledger β) (i : ℕ) : ℕ :=
  L.countP fun e => e.handle.index = i

/-- How many of the handles issued at an index are retired. -/
def retired (L : Ledger β) (i : ℕ) : ℕ :=
  L.countP fun e => e.handle.index = i ∧ e.value.isNone

end Ledger

theorem map_modify {α γ : Type*} {g : α → γ} {f : α → α} {f' : γ → γ} {l : List α} {i : ℕ}
    (h : ∀ x, l[i]? = some x → g (f x) = f' (g x)) :
    (l.modify i f).map g = (l.map g).modify i f' := by
  refine ext_getElem? fun j => ?_
  rw [getElem?_map, getElem?_modify, getElem?_modify, getElem?_map]
  rcases hx : l[j]? with _ | x
  · rfl
  · by_cases hij : i = j
    · subst hij
      simp [h x hx]
    · simp [hij]

open Ledger

/-- The cells hold what the ledger says that they hold, and nothing else. -/
structure Inv (cells : List (Cell β)) (L : Ledger β) : Prop where
  bound : ∀ e ∈ L, e.handle.index < cells.length
  live : ∀ e ∈ L, ∀ v, e.value = some v → lookup cells e.handle = some v
  held : ∀ h v, lookup cells h = some v → ⟨h, some v⟩ ∈ L
  one : L.Pairwise fun e e' => e.value.isSome → e'.value.isSome → e.handle.index ≠ e'.handle.index
  stamp : ∀ i c, cells[i]? = some c → c.generation = genOf (retired L i)
  history : ∀ i, (L.filter fun e => e.handle.index = i).map (·.handle.generation) =
    (List.range (issued L i)).map genOf

theorem inv_nil : Inv ([] : List (Cell β)) [] where
  bound := by simp
  live := by simp
  held := by simp [lookup]
  one := Pairwise.nil
  stamp := by simp
  history := by simp [issued]

theorem lookup_eq_some {cells : List (Cell β)} {h : Handle} {v : β} :
    lookup cells h = some v ↔ cells[h.index]? = some ⟨some v, h.generation⟩ := by
  unfold lookup
  split
  · rename_i c hc
    rw [hc]
    rcases c with ⟨content, generation⟩
    by_cases hg : generation = h.generation
    · simp [hg]
    · simp [hg]
  · rename_i hc
    simp [hc]

section

variable {cells : List (Cell β)} {L : Ledger β} {h : Handle} {v : β}

theorem Inv.lookup_iff (hI : Inv cells L) : lookup cells h = some v ↔ ⟨h, some v⟩ ∈ L :=
  ⟨hI.held h v, fun hm => hI.live _ hm v rfl⟩

variable {i : ℕ} {g : UInt32} {e : Entry β}

theorem Inv.value_none_of_empty (hI : Inv cells L)
    (hc : cells[i]? = some ⟨none, g⟩) (he : e ∈ L) (hi : e.handle.index = i) :
    e.value = none := by
  rcases hv : e.value with _ | v
  · rfl
  have hl := lookup_eq_some.1 (hI.live e he v hv)
  rw [hi, hc] at hl
  simp at hl

theorem retired_eq_issued (hall : ∀ e ∈ L, e.handle.index = i → e.value = none) :
    retired L i = issued L i := by
  unfold retired issued
  refine countP_congr fun e he => ?_
  simp only [decide_eq_true_eq, isNone_iff_eq_none, and_iff_left_iff_imp]
  exact hall e he

/-- While no index is issued more than `2 ^ 32 - 1` times, all handles differ. -/
theorem Inv.nodup (hI : Inv cells L) (hb : ∀ i, issued L i ≤ 2 ^ 32 - 1) :
    (L.map (·.handle)).Nodup := by
  rw [List.Nodup, pairwise_map, pairwise_iff_getElem]
  intro a b ha hb' hab heq
  set i := L[a].handle.index
  have hnd : ((L.filter fun e => e.handle.index = i).map (·.handle.generation)).Nodup := by
    rw [hI.history]
    refine (nodup_map_iff_inj_on nodup_range).2 fun m hm n hn hmn => ?_
    have := hb i
    simp only [mem_range] at hm hn
    exact genOf_inj (by omega) (by omega) hmn
  have hsub : List.Sublist [L[a], L[b]] L := by
    have h1 : List.Sublist [L[b]] (L.drop (a + 1)) := by
      rw [singleton_sublist, mem_iff_getElem]
      exact ⟨b - (a + 1), by simp only [length_drop]; omega, by
        rw [getElem_drop]; congr 1; omega⟩
    have h2 : List.Sublist (L[a] :: L.drop (a + 1)) L := by
      simpa using drop_sublist a L
    exact (Sublist.cons_cons _ h1).trans h2
  have hfil := hsub.filter fun e => decide (e.handle.index = i)
  have hbi : L[b].handle.index = i := by rw [← heq]
  rw [filter_cons_of_pos (by simp [i]), filter_cons_of_pos (by simp [hbi]),
    filter_nil] at hfil
  have := (hfil.map (·.handle.generation)).nodup hnd
  simp only [map_cons, map_nil, nodup_cons, mem_singleton] at this
  exact this.1 (congrArg Handle.generation heq)

/-- The handle of a retired entry finds nothing. -/
theorem Inv.lookup_retired (hI : Inv cells L) (hb : ∀ i, issued L i ≤ 2 ^ 32 - 1)
    (he : e ∈ L) (hv : e.value = none) : lookup cells e.handle = none := by
  rcases hl : lookup cells e.handle with _ | v
  · rfl
  have hm := hI.held _ _ hl
  have hne : e ≠ ⟨e.handle, some v⟩ := fun heq => by
    rw [heq] at hv
    simp at hv
  exact absurd (inj_on_of_nodup_map (hI.nodup hb) he hm rfl) hne

/-- A cell that is free gets a value, in a generation that was never issued for it. -/
theorem Inv.issue_aux (hI : Inv cells L) {cells' : List (Cell β)}
    (hlen : cells.length ≤ cells'.length) (hi : i < cells'.length)
    (hnew : cells'[i]? = some ⟨some v, g⟩) (hsm : ∀ j, j ≠ i → cells'[j]? = cells[j]?)
    (hem : ∀ e ∈ L, e.handle.index = i → e.value = none) (hg : g = genOf (issued L i)) :
    Inv cells' (L.issue ⟨i, g⟩ v) where
  bound := by
    intro e he
    rcases mem_append.1 he with he | he
    · exact (hI.bound e he).trans_le hlen
    · rw [mem_singleton.1 he]
      exact hi
  live := by
    intro e he w hw
    rcases mem_append.1 he with he | he
    · have hne : e.handle.index ≠ i := fun h => by
        rw [hem e he h] at hw
        simp at hw
      have hl := lookup_eq_some.1 (hI.live e he w hw)
      exact lookup_eq_some.2 (by rw [hsm _ hne, hl])
    · rw [mem_singleton.1 he] at hw ⊢
      rw [← hw]
      exact lookup_eq_some.2 hnew
  held := by
    intro k w hk
    have hk' := lookup_eq_some.1 hk
    by_cases hki : k.index = i
    · rw [hki, hnew] at hk'
      simp only [some.injEq, Cell.mk.injEq] at hk'
      obtain ⟨rfl, hgk⟩ := hk'
      refine mem_append_right _ (mem_singleton.2 ?_)
      rcases k with ⟨ki, kg⟩
      simp only at hki hgk
      rw [hki, hgk]
    · rw [hsm _ hki] at hk'
      exact mem_append_left _ (hI.held k w (lookup_eq_some.2 hk'))
  one := by
    refine pairwise_append.2 ⟨hI.one, pairwise_singleton _ _, ?_⟩
    intro e he e' he' hlv _ heq
    rw [mem_singleton.1 he'] at heq
    rw [hem e he heq] at hlv
    simp at hlv
  stamp := by
    intro j c hc
    have hret : retired (L.issue ⟨i, g⟩ v) j = retired L j := by
      simp [retired, issue]
    rw [hret]
    by_cases hj : j = i
    · subst hj
      rw [hnew, some.injEq] at hc
      rw [← hc, retired_eq_issued hem]
      exact hg
    · rw [hsm j hj] at hc
      exact hI.stamp j c hc
  history := by
    intro j
    unfold issued issue
    rw [filter_append, map_append, hI.history j, countP_append]
    by_cases hj : i = j
    · subst hj
      simp [range_succ, hg, issued]
    · simp [hj, issued]

theorem Inv.fill (hI : Inv cells L) (hc : cells[i]? = some ⟨none, g⟩) :
    Inv (cells.set i ⟨some v, g⟩) (L.issue ⟨i, g⟩ v) := by
  have hlt := (List.getElem?_eq_some_iff.1 hc).1
  have hem : ∀ e ∈ L, e.handle.index = i → e.value = none := fun e he hi =>
    hI.value_none_of_empty hc he hi
  refine hI.issue_aux (by simp) (by simpa using hlt) (by simp [hlt])
    (fun j hj => by rw [getElem?_set_ne hj.symm]) hem ?_
  rw [← retired_eq_issued hem]
  exact hI.stamp i _ hc

theorem Inv.push (hI : Inv cells L) :
    Inv (cells ++ [⟨some v, 1⟩]) (L.issue ⟨cells.length, 1⟩ v) := by
  have hno : ∀ e ∈ L, e.handle.index ≠ cells.length := fun e he => (hI.bound e he).ne
  refine hI.issue_aux (by simp) (by simp) (by simp) (fun j hj => ?_)
    (fun e he hi => absurd hi (hno e he)) ?_
  · rcases lt_or_gt_of_ne hj with h | h
    · rw [getElem?_append_left h]
    · rw [getElem?_eq_none (by simp; omega), getElem?_eq_none (by omega)]
  · rw [show issued L cells.length = 0 from countP_eq_zero.2 fun e he => by
      simpa using hno e he]
    rfl

theorem Inv.split (hI : Inv cells L) (hl : lookup cells h = some v) :
    ∃ L₁ L₂, L = L₁ ++ ⟨h, some v⟩ :: L₂ ∧ ∀ f, L.alter h f = L₁ ++ ⟨h, f v⟩ :: L₂ := by
  obtain ⟨L₁, L₂, hL⟩ := mem_iff_append.1 (hI.held h v hl)
  refine ⟨L₁, L₂, hL, fun f => ?_⟩
  have hone := hI.one
  rw [hL, pairwise_append, pairwise_cons] at hone
  obtain ⟨-, ⟨h2, -⟩, h1⟩ := hone
  have hkp : ∀ e : Entry β, (e.value.isSome → e.handle.index ≠ h.index) →
      (if e.handle = h then { e with value := e.value.bind f } else e) = e := by
    intro e he
    by_cases heh : e.handle = h
    · rcases e with ⟨eh, ev⟩
      rcases ev with _ | w
      · simp
      · exact absurd (congrArg Handle.index heh) (he rfl)
    · rw [if_neg heh]
  have hmap : ∀ M : Ledger β, (∀ e ∈ M, e.value.isSome → e.handle.index ≠ h.index) →
      M.alter h f = M := fun M hM => by
    unfold alter
    conv_rhs => rw [← List.map_id M]
    exact map_congr_left fun e he => hkp e (hM e he)
  have hL₁ := hmap L₁ fun e he hs => h1 e he _ mem_cons_self hs rfl
  have hL₂ := hmap L₂ fun e he hs => (h2 e he rfl hs).symm
  unfold alter at hL₁ hL₂ ⊢
  rw [hL, map_append, map_cons, hL₁, hL₂]
  simp

theorem Inv.alter_of_lookup_none (hI : Inv cells L) (hl : lookup cells h = none)
    (f : β → Option β) : L.alter h f = L := by
  unfold alter
  conv_rhs => rw [← List.map_id L]
  refine map_congr_left fun e he => ?_
  by_cases heh : e.handle = h
  · rcases hv : e.value with _ | w
    · rcases e with ⟨eh, ev⟩
      simp_all
    · have := hI.live e he w hv
      rw [heh, hl] at this
      simp at this
  · rw [if_neg heh, id]

theorem alter_handles (L : Ledger β) (h : Handle) (f : β → Option β) :
    (L.alter h f).map (·.handle) = L.map (·.handle) := by
  unfold alter
  rw [List.map_map]
  refine map_congr_left fun e _ => ?_
  by_cases heh : e.handle = h <;> simp [heh]

theorem issued_eq (L : Ledger β) (i : ℕ) :
    issued L i = (L.map (·.handle)).countP fun h => h.index = i := by
  rw [issued, countP_map]
  rfl

@[simp]
theorem issued_alter (L : Ledger β) (h : Handle) (f : β → Option β) (i : ℕ) :
    issued (L.alter h f) i = issued L i := by
  rw [issued_eq, issued_eq, alter_handles]

theorem filter_generation_eq (L : Ledger β) (i : ℕ) :
    (L.filter fun e => e.handle.index = i).map (·.handle.generation) =
      ((L.map (·.handle)).filter fun h => h.index = i).map (·.generation) := by
  rw [List.filter_map, List.map_map]
  rfl

/-- Changing the content behind a handle changes its live entry the same way. -/
theorem Inv.alter (hI : Inv cells L) (hl : lookup cells h = some v) (f : β → Option β) :
    Inv (cells.modify h.index (Cell.alter f)) (L.alter h f) := by
  obtain ⟨L₁, L₂, hL, hal⟩ := hI.split hl
  have hcl := lookup_eq_some.1 hl
  have hnew : (cells.modify h.index (Cell.alter f))[h.index]? =
      some (Cell.alter f ⟨some v, h.generation⟩) := by
    rw [getElem?_modify_eq, hcl]
    rfl
  have hsm : ∀ j, j ≠ h.index → (cells.modify h.index (Cell.alter f))[j]? = cells[j]? :=
    fun j hj => getElem?_modify_ne _ _ hj.symm
  have hone := hI.one
  rw [hL, pairwise_append, pairwise_cons] at hone
  obtain ⟨hp₁, ⟨hx₂, hp₂⟩, hx₁⟩ := hone
  have hot : ∀ e, e ∈ L₁ ∨ e ∈ L₂ → e.value.isSome → e.handle.index ≠ h.index := by
    rintro e (he | he) hs
    · exact hx₁ e he _ mem_cons_self hs rfl
    · exact (hx₂ e he rfl hs).symm
  refine ⟨?_, ?_, ?_, ?_, ?_, ?_⟩
  · intro e he
    obtain ⟨e', he', heq⟩ := List.mem_map.1 (show e ∈ L.map _ from he)
    have := hI.bound e' he'
    rw [length_modify]
    split_ifs at heq <;> rw [← heq] <;> exact this
  · intro e he w hw
    rw [hal f] at he
    rcases mem_append.1 he with he' | he'
    · have hmem : e ∈ L := by rw [hL]; exact mem_append_left _ he'
      have hne := hot e (Or.inl he') (by rw [hw]; rfl)
      rw [lookup_eq_some, hsm _ hne, ← lookup_eq_some]
      exact hI.live e hmem w hw
    · rcases mem_cons.1 he' with rfl | he'
      · simp only at hw ⊢
        rw [lookup_eq_some, hnew]
        simp [Cell.alter, hw]
      · have hmem : e ∈ L := by rw [hL]; exact mem_append_right _ (mem_cons_of_mem _ he')
        have hne := hot e (Or.inr he') (by rw [hw]; rfl)
        rw [lookup_eq_some, hsm _ hne, ← lookup_eq_some]
        exact hI.live e hmem w hw
  · intro k w hk
    rw [lookup_eq_some] at hk
    rw [hal f]
    by_cases hki : k.index = h.index
    · rw [hki, hnew, some.injEq] at hk
      rcases hf : f v with _ | v'
      · simp [Cell.alter, hf] at hk
      · simp only [Cell.alter, bind_some, hf, Cell.mk.injEq, some.injEq] at hk
        obtain ⟨rfl, hg⟩ := hk
        have : k = h := by
          rcases k with ⟨ki, kg⟩
          simp only at hki hg
          rw [hki, ← hg]
        rw [this]
        simp
    · rw [hsm _ hki, ← lookup_eq_some] at hk
      have hm := hI.held k w hk
      rw [hL] at hm
      rcases mem_append.1 hm with hm | hm
      · exact mem_append_left _ hm
      · rcases mem_cons.1 hm with hm | hm
        · exact absurd (congrArg (fun e : Entry β => e.handle.index) hm) hki
        · exact mem_append_right _ (mem_cons_of_mem _ hm)
  · rw [hal f, pairwise_append, pairwise_cons]
    refine ⟨hp₁, ⟨fun e he _ hs => (hot e (Or.inr he) hs).symm, hp₂⟩, ?_⟩
    intro e he e' he' hs hs'
    rcases mem_cons.1 he' with rfl | he'
    · exact hot e (Or.inl he) hs
    · exact hx₁ e he e' (mem_cons_of_mem _ he') hs hs'
  · intro j c hc
    by_cases hj : j = h.index
    · subst hj
      have hst := hI.stamp _ _ hcl
      rw [hnew, some.injEq] at hc
      rw [hal f, ← hc]
      rw [hL] at hst
      simp only [retired, countP_append, countP_cons] at hst ⊢
      rcases hf : f v with _ | v'
      · simp only [Cell.alter, bind_some, hf, isNone_none, and_true,
          decide_true, if_true]
        simp only [isNone_some, Bool.false_eq_true, and_false, decide_false, if_false,
          add_zero] at hst
        rw [hst, bump_genOf]
        rfl
      · simpa [Cell.alter, hf] using hst
    · rw [hsm j hj] at hc
      have hst := hI.stamp j c hc
      rw [hal f]
      rw [hL] at hst
      simpa [retired, countP_append, countP_cons, Ne.symm hj] using hst
  · intro i
    rw [filter_generation_eq, alter_handles, ← filter_generation_eq, hI.history i, issued_alter]

theorem lookup_modify (hl : lookup cells h = some v) (f : β → Option β) (k : Handle) :
    lookup (cells.modify h.index (Cell.alter f)) k = if k = h then f v else lookup cells k := by
  have hcl := lookup_eq_some.1 hl
  unfold lookup
  by_cases hi : k.index = h.index
  · rw [hi, getElem?_modify_eq, hcl]
    rcases k with ⟨i, g⟩
    rcases h with ⟨j, g'⟩
    simp only at hi
    subst hi
    rcases hf : f v with _ | v'
    · simp only [Option.map_eq_map, map_some, Cell.alter, bind_some, hf,
        Handle.mk.injEq, true_and]
      by_cases hg : g = g'
      · simp [hg]
      · simp [hg, Ne.symm hg]
    · simp only [Option.map_eq_map, map_some, Cell.alter, bind_some, hf,
        Handle.mk.injEq, true_and]
      by_cases hg : g = g'
      · simp [hg]
      · simp [hg, Ne.symm hg]
  · rw [getElem?_modify_ne _ _ (Ne.symm hi), if_neg fun hk => hi (by rw [hk])]

theorem lookup_fill (hc : cells[i]? = some ⟨none, g⟩) (v : β) (k : Handle) :
    lookup (cells.set i ⟨some v, g⟩) k = if k = ⟨i, g⟩ then some v else lookup cells k := by
  have hlt := (List.getElem?_eq_some_iff.1 hc).1
  unfold lookup
  rcases k with ⟨j, g'⟩
  by_cases hi : j = i
  · subst hi
    rw [getElem?_set_self hlt, hc]
    by_cases hg : g' = g
    · simp [hg]
    · simp [hg, Ne.symm hg]
  · rw [getElem?_set_ne (Ne.symm hi), if_neg fun hk => hi (congrArg Handle.index hk)]

theorem lookup_push (cells : List (Cell β)) (v : β) (k : Handle) :
    lookup (cells ++ [⟨some v, 1⟩]) k =
      if k = ⟨cells.length, 1⟩ then some v else lookup cells k := by
  unfold lookup
  rcases k with ⟨j, g⟩
  rcases lt_trichotomy j cells.length with hj | rfl | hj
  · rw [getElem?_append_left hj, if_neg fun hk => hj.ne (congrArg Handle.index hk)]
  · rw [getElem?_concat_length, getElem?_eq_none le_rfl]
    by_cases hg : g = 1
    · simp [hg]
    · simp [hg, Ne.symm hg]
  · rw [getElem?_eq_none (by simp; omega), getElem?_eq_none (by simp only; omega),
      if_neg fun hk => hj.ne' (congrArg Handle.index hk)]

theorem Inv.live_perm (hI : Inv cells L) :
    ((L.filter (·.value.isSome)).map (·.handle.index)).Perm
      ((List.range cells.length).filter fun i => (cells[i]?.bind (·.content)).isSome) := by
  rw [perm_ext_iff_of_nodup]
  · intro i
    simp only [List.mem_map, mem_filter, mem_range]
    constructor
    · rintro ⟨e, ⟨he, hv⟩, rfl⟩
      obtain ⟨v, hv⟩ := isSome_iff_exists.1 hv
      have hl := lookup_eq_some.1 (hI.live e he v hv)
      exact ⟨hI.bound e he, by rw [hl]; rfl⟩
    · rintro ⟨-, hi⟩
      obtain ⟨v, hv⟩ := isSome_iff_exists.1 hi
      obtain ⟨⟨content, g⟩, hc, rfl⟩ := bind_eq_some_iff.1 hv
      exact ⟨⟨⟨i, g⟩, some v⟩, ⟨hI.held _ _ (lookup_eq_some.2 hc), rfl⟩, rfl⟩
  · rw [List.Nodup, pairwise_map, pairwise_filter]
    exact hI.one.imp fun h hs hs' => h hs hs'
  · exact List.nodup_range.filter _

theorem Inv.live_lt_iff (hI : Inv cells L) :
    L.countP (·.value.isSome) < cells.length ↔ ∃ c ∈ cells, c.content = none := by
  have hlen := hI.live_perm.length_eq
  rw [length_map, ← countP_eq_length_filter, ← countP_eq_length_filter] at hlen
  have hle := countP_le_length (l := List.range cells.length)
    (p := fun i => (cells[i]?.bind (·.content)).isSome)
  have hall := countP_eq_length (l := List.range cells.length)
    (p := fun i => (cells[i]?.bind (·.content)).isSome)
  rw [length_range] at hle hall
  rw [hlen, lt_iff_le_and_ne, Ne, hall]
  constructor
  · rintro ⟨-, hne⟩
    push Not at hne
    obtain ⟨i, hi, hn⟩ := hne
    rw [mem_range] at hi
    refine ⟨cells[i], getElem_mem hi, ?_⟩
    simpa [getElem?_eq_getElem hi] using hn
  · rintro ⟨c, hc, hn⟩
    obtain ⟨i, hi, rfl⟩ := mem_iff_getElem.1 hc
    refine ⟨hle, fun hf => ?_⟩
    have := hf i (mem_range.2 hi)
    simp [getElem?_eq_getElem hi, hn] at this

theorem alter_eq_modify (hn : (L.map (·.handle)).Nodup) {k : ℕ}
    (he : L[k]? = some e) (f : β → Option β) :
    L.alter e.handle f = L.modify k fun e => { e with value := e.value.bind f } := by
  refine ext_getElem? fun j => ?_
  rw [Ledger.alter, getElem?_map, getElem?_modify]
  rcases hj : L[j]? with _ | e'
  · rfl
  by_cases hkj : k = j
  · subst hkj
    rw [he, some.injEq] at hj
    simp [hj]
  · have hne : e'.handle ≠ e.handle := fun h => by
      have hk := (List.getElem?_eq_some_iff.1 he).1
      refine hkj ((getElem?_inj (by simpa using hk) hn).1 ?_)
      rw [getElem?_map, getElem?_map, he, hj, map_some, map_some, h]
    simp [hkj, hne]

end

end Cruller.Arena
