import Mathlib.Data.List.Nodup
import Mathlib.Data.List.Chain

/-!
# Linked lists

The nodes are of any type, and what comes after a node, and before it, is given by functions. A
list stays what it is where only links of other nodes are written (`IsList.congr`,
`IsDList.congr`), and a node is put behind it (`IsList.concat`). In a doubly linked one the links
backwards are a condition of their own (`IsBack`, `isDList_iff`); a node is put in front
(`IsDList.push`), and taken out wherever it is (`IsDList.remove`). The links of any order of nodes
are `after` and `before` (`isDList_links`).
-/

namespace Cruller

open List Option

variable {ι : Type*} {next next' prev prev' : ι → Option ι}

/-- The links lead through just these nodes. -/
def IsList (next : ι → Option ι) : Option ι → List ι → Prop
  | it, [] => it = none
  | it, i :: is => it = some i ∧ IsList next (next i) is

theorem IsList.congr : ∀ {l : List ι} {it : Option ι}, IsList next it l →
    (∀ i ∈ l, next' i = next i) → IsList next' it l
  | [], _, h, _ => h
  | i :: is, it, ⟨hit, h⟩, hnx => by
    refine ⟨hit, ?_⟩
    rw [hnx i mem_cons_self]
    exact h.congr fun j hj => hnx j (mem_cons_of_mem i hj)

theorem IsList.unique : ∀ {l l' : List ι} {it : Option ι}, IsList next it l → IsList next it l' →
    l = l'
  | [], [], _, _, _ => rfl
  | [], _ :: _, _, h, ⟨hit, _⟩ => nomatch h.symm.trans hit
  | _ :: _, [], _, ⟨hit, _⟩, h => nomatch h.symm.trans hit
  | i :: _, j :: _, _, ⟨hit, h⟩, ⟨hit', h'⟩ => by
    cases some.inj (hit.symm.trans hit')
    rw [h.unique h']

variable {i : ι} {l : List ι} {it : Option ι}

theorem IsList.it_eq (h : IsList next it l) : it = l.head? := by
  cases l with
  | nil => exact h
  | cons i is => exact h.1

theorem IsList.of_mem : ∀ {l : List ι} {it : Option ι}, IsList next it l → i ∈ l →
    ∃ a b, l = a ++ i :: b ∧ IsList next (some i) (i :: b)
  | j :: l, it, ⟨_, h⟩, hi => by
    rcases mem_cons.1 hi with rfl | hi
    · exact ⟨[], l, rfl, rfl, h⟩
    · obtain ⟨a, b, rfl, hrs⟩ := h.of_mem hi
      exact ⟨j :: a, b, rfl, hrs⟩

theorem IsList.nodup : ∀ {l : List ι} {it : Option ι}, IsList next it l → l.Nodup
  | [], _, _ => nodup_nil
  | i :: l, it, ⟨_, h⟩ => by
    refine nodup_cons.2 ⟨fun hi => ?_, h.nodup⟩
    obtain ⟨a, b, heq, hrs⟩ := h.of_mem hi
    have hlength := congrArg List.length (hrs.2.unique h)
    rw [heq] at hlength
    simp only [length_append, length_cons] at hlength
    omega

theorem IsList.isChain : ∀ {l : List ι} {it : Option ι}, IsList next it l →
    l.IsChain (next · = some ·)
  | [], _, _ => .nil
  | i :: l, it, ⟨_, h⟩ => by
    refine isChain_cons.2 ⟨fun j hj => ?_, h.isChain⟩
    rw [h.it_eq, hj]

theorem IsList.last (h : IsList next it l)
    (hi : l.getLast? = some i) : next i = none := by
  obtain ⟨a, b, heq, -, hrs⟩ := h.of_mem (mem_of_getLast? hi)
  have hb : b = [] := by
    cases b with
    | nil => rfl
    | cons j b =>
      rw [heq, getLast?_append_cons, getLast?_cons_cons] at hi
      have hnd := heq ▸ h.nodup
      have := (nodup_append.1 hnd).2.1
      exact absurd (mem_of_getLast? hi) (nodup_cons.1 this).1
  rw [hrs.it_eq, hb]
  rfl

theorem IsList.append {m : List ι} : ∀ {l : List ι} {it : Option ι}, IsList next it l → l ≠ [] →
    (∀ j ∈ l, l.getLast? ≠ some j → next' j = next j) →
    (∀ j ∈ l.getLast?, IsList next' (next' j) m) → IsList next' it (l ++ m)
  | [j], _, ⟨hit, _⟩, _, _, hls => ⟨hit, hls j rfl⟩
  | j :: k :: l, it, h, _, hnx, hls => by
    have hj : j ∉ k :: l := (nodup_cons.1 h.nodup).1
    obtain ⟨hit, h⟩ := h
    rw [getLast?_cons_cons] at hnx hls
    have hne : (k :: l).getLast? ≠ some j := fun heq => hj (mem_of_getLast? heq)
    refine ⟨hit, ?_⟩
    rw [hnx j mem_cons_self hne]
    exact h.append (cons_ne_nil k l)
      (fun m hm => hnx m (mem_cons_of_mem j hm)) hls

/-- A node put behind a list. -/
theorem IsList.concat (h : IsList next it l)
    (hnx : ∀ j ∈ l, l.getLast? ≠ some j → next' j = next j)
    (hls : ∀ j ∈ l.getLast?, next' j = some i) (hi : next' i = none) :
    IsList next' (if l = [] then some i else it) (l ++ [i]) := by
  cases l with
  | nil => exact ⟨rfl, hi⟩
  | cons k l =>
    rw [if_neg (cons_ne_nil k l)]
    exact h.append (cons_ne_nil k l) hnx fun j hj => ⟨hls j hj, hi⟩

/-- The links backwards, and what comes before the first node. -/
def IsBack (prev : ι → Option ι) : Option ι → List ι → Prop
  | _, [] => True
  | before, i :: is => prev i = before ∧ IsBack prev (some i) is

theorem isBack_concat : ∀ {l : List ι} {before : Option ι},
    IsBack prev before (l ++ [i]) ↔ IsBack prev before l ∧ prev i = l.getLast?.or before
  | [], before => by
    change prev i = before ∧ True ↔ True ∧ prev i = before
    rw [and_true, true_and]
  | j :: l, before => by
    change prev j = before ∧ IsBack prev (some j) (l ++ [i]) ↔ (_ ∧ _) ∧ _
    rw [isBack_concat, and_assoc]
    cases l with
    | nil => rfl
    | cons k l =>
      rw [getLast?_cons_cons]
      cases hls : (k :: l).getLast? with
      | none => exact absurd (getLast?_eq_none_iff.1 hls) (cons_ne_nil k l)
      | some last => rfl

theorem isBack_congr : ∀ {l : List ι} {before : Option ι}, (∀ i ∈ l, prev' i = prev i) →
    (IsBack prev' before l ↔ IsBack prev before l)
  | [], _, _ => Iff.rfl
  | i :: l, before, h => by
    change prev' i = before ∧ _ ↔ prev i = before ∧ _
    rw [h i mem_cons_self, isBack_congr fun j hj => h j (mem_cons_of_mem i hj)]

/-- The same with links backwards, and with what comes before the first node. -/
def IsDList (next prev : ι → Option ι) : Option ι → Option ι → List ι → Prop
  | _, it, [] => it = none
  | before, it, i :: is => it = some i ∧ prev i = before ∧ IsDList next prev (some i) (next i) is

theorem IsDList.isList : ∀ {l : List ι} {before it : Option ι}, IsDList next prev before it l →
    IsList next it l
  | [], _, _, h => h
  | _ :: _, _, _, ⟨hit, _, h⟩ => ⟨hit, h.isList⟩

theorem isDList_iff : ∀ {l : List ι} {before it : Option ι},
    IsDList next prev before it l ↔ IsList next it l ∧ IsBack prev before l
  | [], _, _ => (and_true _).symm ▸ Iff.rfl
  | i :: l, before, it => by
    change _ ∧ _ ∧ IsDList next prev (some i) (next i) l ↔ (_ ∧ _) ∧ _ ∧ _
    rw [isDList_iff]
    tauto

theorem IsDList.congr : ∀ {l : List ι} {before it : Option ι}, IsDList next prev before it l →
    (∀ i ∈ l, next' i = next i) → (∀ i ∈ l, prev' i = prev i) → IsDList next' prev' before it l
  | [], _, _, h, _, _ => h
  | i :: is, before, it, ⟨hit, hbf, h⟩, hnx, hpr => by
    refine ⟨hit, (hpr i mem_cons_self).trans hbf, ?_⟩
    rw [hnx i mem_cons_self]
    exact h.congr (fun j hj => hnx j (mem_cons_of_mem i hj))
      fun j hj => hpr j (mem_cons_of_mem i hj)

theorem IsDList.it_eq {before : Option ι} (h : IsDList next prev before it l) :
    it = l.head? := by
  cases l with
  | nil => exact h
  | cons i is => exact h.1

theorem IsDList.links {b : List ι} : ∀ {a : List ι} {before it : Option ι},
    IsDList next prev before it (a ++ i :: b) →
      prev i = a.getLast?.or before ∧ next i = b.head?
  | [], _, _, ⟨_, hpr, h⟩ => ⟨hpr, h.it_eq⟩
  | j :: a, before, it, ⟨_, _, h⟩ => by
    obtain ⟨hpr, hnx⟩ := links (a := a) h
    refine ⟨?_, hnx⟩
    rw [hpr]
    cases a with
    | nil => rfl
    | cons k a =>
      rw [getLast?_cons_cons]
      cases hls : (k :: a).getLast? with
      | none => exact absurd (getLast?_eq_none_iff.1 hls) (cons_ne_nil k a)
      | some last => rfl

theorem IsDList.push (h : IsDList next prev none it l)
    (hnd : l.Nodup) (hnext_new : next' i = it) (hprev_new : prev' i = none)
    (hnext : ∀ j ∈ l, next' j = next j) (hhd : ∀ j ∈ it, prev' j = some i)
    (hprev : ∀ j ∈ l, it ≠ some j → prev' j = prev j) :
    IsDList next' prev' none (some i) (i :: l) := by
  refine ⟨rfl, hprev_new, ?_⟩
  rw [hnext_new]
  cases l with
  | nil => exact h
  | cons j l =>
    obtain ⟨hit, -, h⟩ := h
    refine ⟨hit, hhd j hit, ?_⟩
    rw [hnext j mem_cons_self]
    refine h.congr (fun k hk => hnext k (mem_cons_of_mem j hk)) fun k hk => ?_
    refine hprev k (mem_cons_of_mem j hk) fun heq => ?_
    cases some.inj (hit.symm.trans heq)
    exact (nodup_cons.1 hnd).1 hk

/-- Without a node, the one before it and the one after it are neighbours. -/
theorem IsDList.remove {b : List ι} : ∀ {a : List ι} {before it : Option ι},
    IsDList next prev before it (a ++ i :: b) → (a ++ i :: b).Nodup →
    (∀ j ∈ before, j ∉ a ++ i :: b) →
    (∀ j ∈ a ++ b, prev i = some j → next' j = next i) →
    (∀ j ∈ a ++ b, prev i ≠ some j → next' j = next j) →
    (∀ j ∈ a ++ b, next i = some j → prev' j = prev i) →
    (∀ j ∈ a ++ b, next i ≠ some j → prev' j = prev j) →
    IsDList next' prev' before (if a = [] then next i else it) (a ++ b)
  | [], before, it, ⟨_, hbf, h⟩, hnd, hnew, _, hnext, hprev_eq, hprev => by
    rw [if_pos rfl]
    have hoff : ∀ j ∈ b, prev i ≠ some j := by
      rintro j hj heq
      exact hnew j (hbf ▸ heq) (mem_cons_of_mem i hj)
    cases b with
    | nil => exact h
    | cons j b =>
      obtain ⟨hit, -, h⟩ := h
      refine ⟨hit, (hprev_eq j mem_cons_self hit).trans hbf, ?_⟩
      rw [hnext j mem_cons_self (hoff j mem_cons_self)]
      refine h.congr (fun k hk => ?_) fun k hk => ?_
      · exact hnext k (mem_cons_of_mem j hk) (hoff k (mem_cons_of_mem j hk))
      · refine hprev k (mem_cons_of_mem j hk) fun heq => ?_
        cases some.inj (hit.symm.trans heq)
        exact (nodup_cons.1 (nodup_cons.1 hnd).2).1 hk
  | j :: a, before, it, ⟨hit, hbf, h⟩, hnd, hnew, hnext_eq, hnext, hprev_eq, hprev => by
    obtain ⟨hls, hhd⟩ := h.links
    obtain ⟨hj, hnd'⟩ := nodup_cons.1 hnd
    have hjb : ∀ k ∈ next i, k ∈ b := by
      intro k hk
      rw [hhd] at hk
      exact mem_of_mem_head? hk
    rw [if_neg (cons_ne_nil j a)]
    refine ⟨hit, ?_, ?_⟩
    · refine (hprev j mem_cons_self fun heq => hj ?_).trans hbf
      exact mem_append_right a (mem_cons_of_mem i (hjb j heq))
    · have hln : next' j = if a = [] then next i else next j := by
        split_ifs with ha
        · subst ha
          exact hnext_eq j mem_cons_self hls
        · refine hnext j mem_cons_self fun heq => hj ?_
          rw [hls, getLast?_eq_some_getLast ha, some_or] at heq
          cases heq
          exact mem_append_left _ (getLast_mem ha)
      change IsDList next' prev' (some j) (next' j) (a ++ b)
      rw [hln]
      exact remove (a := a) h hnd' (fun k hk => by cases hk; exact hj)
        (fun k hk => hnext_eq k (mem_cons_of_mem j hk))
        (fun k hk => hnext k (mem_cons_of_mem j hk))
        (fun k hk => hprev_eq k (mem_cons_of_mem j hk))
        fun k hk => hprev k (mem_cons_of_mem j hk)

section Links

variable [DecidableEq ι]

/-- The node behind `i`. -/
def after : List ι → ι → Option ι
  | [], _ => none
  | j :: is, i => if j = i then is.head? else after is i

/-- What comes before a node, and `origin` before the first one. -/
def before : Option ι → List ι → ι → Option ι
  | _, [], _ => none
  | origin, j :: is, i => if j = i then origin else before (some j) is i

theorem isDList_links : ∀ {l : List ι} {origin : Option ι}, l.Nodup →
    (∀ i ∈ l, next i = after l i) → (∀ i ∈ l, prev i = before origin l i) →
    IsDList next prev origin l.head? l
  | [], _, _, _, _ => rfl
  | i :: is, origin, hnd, hnx, hpr => by
    obtain ⟨hi, hnd⟩ := nodup_cons.1 hnd
    refine ⟨rfl, (hpr i mem_cons_self).trans (if_pos rfl), ?_⟩
    have hhd : next i = is.head? := (hnx i mem_cons_self).trans (if_pos rfl)
    rw [hhd]
    have hne : ∀ j ∈ is, i ≠ j := fun j hj heq => hi (heq ▸ hj)
    exact isDList_links hnd
      (fun j hj => (hnx j (mem_cons_of_mem i hj)).trans (if_neg (hne j hj)))
      fun j hj => (hpr j (mem_cons_of_mem i hj)).trans (if_neg (hne j hj))

end Links

end Cruller
