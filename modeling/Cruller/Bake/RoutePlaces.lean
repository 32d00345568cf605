import Cruller.Lib.LinkedList
import Cruller.Bake.RouteTree

/-!
# Where routes stand

A route's place is its type and the parts on the way down to it. The places are listed as the routes
are, and they say everything about the tree but the files and the links backwards (`Grown`): the
children of a route are the routes right under its place, in the order in which they were made. A
new route keeps this (`Grown.newRoute`), and so do the routes for a pattern (`Grown.routeFor`). The
links backwards are right where no route is made beside an older sibling as the first of several
(`backs_routeFor`).
-/

namespace Cruller.Bake.FrameworkRouter

open List

/-- A node of the tree by its type and the parts that lead to it. -/
abbrev Place := ℕ × List Part

/-- The children of a place. -/
def kids (places : List Place) (q : Place) : List ℕ :=
  (List.range places.length).filter fun j =>
    places[j]?.any fun p => p.1 = q.1 ∧ p.2 ≠ [] ∧ p.2.dropLast = q.2

variable {q : Place} {j : ℕ}

theorem mem_kids {places : List Place} :
    j ∈ kids places q ↔ ∃ a, places[j]? = some (q.1, q.2 ++ [a]) := by
  rw [kids, mem_filter, mem_range, Option.any_eq_true]
  constructor
  · rintro ⟨-, ⟨ty, ps⟩, hj, hp⟩
    obtain ⟨rfl, hne, hdr⟩ := of_decide_eq_true hp
    refine ⟨ps.getLast hne, ?_⟩
    rw [hj, ← hdr, dropLast_concat_getLast]
  · rintro ⟨a, hj⟩
    refine ⟨(List.getElem?_eq_some_iff.1 hj).1, _, hj, decide_eq_true ⟨rfl, ?_, ?_⟩⟩
    · simp
    · exact dropLast_concat

theorem lt_of_mem_kids {places : List Place} (hj : j ∈ kids places q) :
    j < places.length := by
  obtain ⟨a, hj⟩ := mem_kids.1 hj
  exact (List.getElem?_eq_some_iff.1 hj).1

theorem length_kids_le (places : List Place) (q : Place) :
    (kids places q).length ≤ places.length :=
  (length_filter_le _ _).trans List.length_range.le

theorem kids_concat (places : List Place) (q : Place) (a : Part) (q' : Place) :
    kids (places ++ [(q.1, q.2 ++ [a])]) q' =
      if q' = q then kids places q' ++ [places.length] else kids places q' := by
  have hold : ∀ j ∈ List.range places.length,
      ((places ++ [(q.1, q.2 ++ [a])])[j]?.any fun p =>
        decide (p.1 = q'.1 ∧ p.2 ≠ [] ∧ p.2.dropLast = q'.2)) =
      (places[j]?.any fun p => decide (p.1 = q'.1 ∧ p.2 ≠ [] ∧ p.2.dropLast = q'.2)) := by
    intro j hj
    rw [getElem?_append_left (mem_range.1 hj)]
  rw [kids, length_append, length_singleton, range_succ, filter_append,
    filter_congr hold, filter_singleton, getElem?_concat_length]
  have hls : (decide (q.1 = q'.1 ∧ q.2 ++ [a] ≠ [] ∧ (q.2 ++ [a]).dropLast = q'.2)) =
      decide (q' = q) := by
    rw [decide_eq_decide, dropLast_concat]
    constructor
    · rintro ⟨h1, -, h2⟩
      exact Prod.ext h1.symm h2.symm
    · rintro rfl
      exact ⟨rfl, append_ne_nil_of_right_ne_nil _ (cons_ne_nil a []), rfl⟩
  rw [Option.any_some, hls]
  by_cases heq : q' = q
  · rw [if_pos heq, decide_eq_true heq]
    rfl
  · rw [if_neg heq, decide_eq_false heq]
    exact append_nil _

def nextOf (routes : List Route) (j : ℕ) : Option ℕ := (routes[j]?).bind Route.next_sibling

def prevOf (routes : List Route) (j : ℕ) : Option ℕ := (routes[j]?).bind Route.prev_sibling

/-- The routes are a tree in which each node stands at its place. -/
structure Grown (routes : List Route) (places : List Place) : Prop where
  length : routes.length = places.length
  nodup : places.Nodup
  type : ∀ {i : ℕ} {r : Route} {p : Place}, routes[i]? = some r → places[i]? = some p →
    r.type = p.1
  part : ∀ {i : ℕ} {r : Route} {p : Place}, routes[i]? = some r → places[i]? = some p →
    r.part = p.2.getLast?.getD (.text [])
  root : ∀ {i : ℕ} {r : Route} {ty : ℕ}, routes[i]? = some r → places[i]? = some (ty, []) →
    r.parent = none
  parent : ∀ {i : ℕ} {r : Route} {ty : ℕ} {ps : List Part} {a : Part}, routes[i]? = some r →
    places[i]? = some (ty, ps ++ [a]) → ∃ j, r.parent = some j ∧ places[j]? = some (ty, ps)
  children : ∀ {i : ℕ} {r : Route} {p : Place}, routes[i]? = some r → places[i]? = some p →
    IsList (nextOf routes) r.first_child (kids places p)

/-- Every route's links backwards are right. -/
def Backs (routes : List Route) (places : List Place) : Prop :=
  ∀ p ∈ places, IsBack (prevOf routes) none (kids places p)

variable {routes : List Route} {places : List Place}

variable {p : Place}

theorem Grown.exists_route (h : Grown routes places) {i : ℕ}
    (hi : places[i]? = some p) : ∃ r, routes[i]? = some r := by
  have hlt := (List.getElem?_eq_some_iff.1 hi).1
  rw [← h.length] at hlt
  exact ⟨_, getElem?_eq_getElem hlt⟩

theorem Grown.exists_place (h : Grown routes places) {i : ℕ} {r : Route}
    (hi : routes[i]? = some r) : ∃ p, places[i]? = some p := by
  have hlt := (List.getElem?_eq_some_iff.1 hi).1
  rw [h.length] at hlt
  exact ⟨_, getElem?_eq_getElem hlt⟩

theorem Grown.mem_of_concat (h : Grown routes places) {ty : ℕ} {ps : List Part} {a : Part}
    (hmem : (ty, ps ++ [a]) ∈ places) : (ty, ps) ∈ places := by
  obtain ⟨i, hi⟩ := mem_iff_getElem?.1 hmem
  obtain ⟨r, hr⟩ := h.exists_route hi
  obtain ⟨j, -, hj⟩ := h.parent hr hi
  exact mem_of_getElem? hj

theorem Grown.mem_of_append (h : Grown routes places) {ty : ℕ} {ps : List Part}
    (qs : List Part) : (ty, ps ++ qs) ∈ places → (ty, ps) ∈ places := by
  induction qs using List.reverseRecOn with
  | nil => rw [append_nil]; exact id
  | append_singleton qs a ih =>
    rw [← append_assoc]
    exact fun hmem => ih (h.mem_of_concat hmem)

theorem Grown.inj (h : Grown routes places) {i : ℕ} (hi : places[i]? = some p)
    (hj : places[j]? = some p) : i = j :=
  (getElem?_inj (List.getElem?_eq_some_iff.1 hi).1 h.nodup).1 (hi.trans hj.symm)

section New

variable {ty i : ℕ} {a : Part} {attach prev_sibling : Option ℕ}

theorem length_newRoute :
    (newRoute routes ty a i attach prev_sibling).length = routes.length + 1 := by
  unfold newRoute
  cases attach <;> simp only [length_modify, length_append, length_singleton]

/-- What a new node makes of the link that leads to it. -/
def linked (attach : Option ℕ) (parent new j : ℕ) (r : Route) : Route :=
  match attach with
  | some attach => if attach = j then { r with next_sibling := some new } else r
  | none => if parent = j then { r with first_child := some new } else r

variable {j : ℕ}

theorem getElem?_newRoute (hj : j < routes.length) :
    (newRoute routes ty a i attach prev_sibling)[j]? =
      (routes[j]?).map (linked attach i routes.length j) := by
  unfold newRoute linked
  cases attach with
  | none =>
    simp only [getElem?_modify, getElem?_append_left hj]
    cases routes[j]? with
    | none => rfl
    | some r => rfl
  | some attach =>
    simp only [getElem?_modify, getElem?_append_left hj]
    cases routes[j]? with
    | none => rfl
    | some r => rfl

theorem getElem?_newRoute_length (hi : i < routes.length)
    (hat : ∀ j ∈ attach, j < routes.length) :
    (newRoute routes ty a i attach prev_sibling)[routes.length]? =
      some ⟨a, ty, some i, none, prev_sibling, none, none, none⟩ := by
  unfold newRoute
  cases attach with
  | none => simp only [getElem?_modify, getElem?_concat_length, if_neg hi.ne]; rfl
  | some attach =>
    have hne := (hat attach rfl).ne
    simp only [getElem?_modify, getElem?_concat_length, if_neg hne]
    rfl

theorem linked_same (attach : Option ℕ) (parent new j : ℕ) (r : Route) :
    (linked attach parent new j r).type = r.type ∧ (linked attach parent new j r).part = r.part ∧
      (linked attach parent new j r).parent = r.parent ∧
      (linked attach parent new j r).prev_sibling = r.prev_sibling ∧
      ∀ kind, (linked attach parent new j r).file kind = r.file kind := by
  cases attach with
  | none =>
    rw [linked]
    split_ifs
    · exact ⟨rfl, rfl, rfl, rfl, fun kind => by cases kind <;> rfl⟩
    · simp
  | some attach =>
    rw [linked]
    split_ifs
    · exact ⟨rfl, rfl, rfl, rfl, fun kind => by cases kind <;> rfl⟩
    · simp

theorem linked_next_sibling (attach : Option ℕ) (parent new j : ℕ) (r : Route) :
    (linked attach parent new j r).next_sibling =
      if attach = some j then some new else r.next_sibling := by
  cases attach with
  | none =>
    rw [linked, if_neg (show ¬(none : Option ℕ) = some j from nofun)]
    split_ifs <;> rfl
  | some attach =>
    simp only [linked, Option.some.injEq]
    split_ifs <;> rfl

theorem linked_first_child (attach : Option ℕ) (parent new j : ℕ) (r : Route) :
    (linked attach parent new j r).first_child =
      if attach = none ∧ parent = j then some new else r.first_child := by
  cases attach with
  | none =>
    simp only [linked, true_and]
    split_ifs <;> rfl
  | some attach =>
    rw [linked, if_neg (show ¬(some attach = none ∧ parent = j) from fun h => nomatch h.1)]
    split_ifs <;> rfl

theorem newRoute_cases {r' : Route} (hi : i < routes.length)
    (hat : ∀ j ∈ attach, j < routes.length)
    (h : (newRoute routes ty a i attach prev_sibling)[j]? = some r') :
    (∃ r, routes[j]? = some r ∧ r' = linked attach i routes.length j r) ∨
      j = routes.length ∧ r' = ⟨a, ty, some i, none, prev_sibling, none, none, none⟩ := by
  have hlt := (List.getElem?_eq_some_iff.1 h).1
  rw [length_newRoute] at hlt
  rcases Nat.lt_succ_iff_lt_or_eq.1 hlt with hj | rfl
  · rw [getElem?_newRoute hj] at h
    obtain ⟨r, hr, rfl⟩ := Option.map_eq_some_iff.1 h
    exact .inl ⟨r, hr, rfl⟩
  · rw [getElem?_newRoute_length hi hat] at h
    exact .inr ⟨rfl, (Option.some.inj h).symm⟩

theorem getElem?_concat_cases {q p : Place} (h : (places ++ [q])[j]? = some p) :
    places[j]? = some p ∨ j = places.length ∧ p = q := by
  have hlt := (List.getElem?_eq_some_iff.1 h).1
  rw [length_append, length_singleton] at hlt
  rcases Nat.lt_succ_iff_lt_or_eq.1 hlt with hj | rfl
  · rw [getElem?_append_left hj] at h
    exact .inl h
  · rw [getElem?_concat_length] at h
    exact .inr ⟨rfl, (Option.some.inj h).symm⟩

theorem nextOf_newRoute (hj : j < routes.length) :
    nextOf (newRoute routes ty a i attach prev_sibling) j =
      if attach = some j then some routes.length else nextOf routes j := by
  simp only [nextOf, getElem?_newRoute hj, getElem?_eq_getElem hj, Option.map_some,
    Option.bind_some, linked_next_sibling]

theorem prevOf_newRoute (hj : j < routes.length) :
    prevOf (newRoute routes ty a i attach prev_sibling) j = prevOf routes j := by
  simp only [prevOf, getElem?_newRoute hj, getElem?_eq_getElem hj, Option.map_some,
    Option.bind_some, (linked_same _ _ _ _ _).2.2.2.1]

end New

theorem Grown.kids_lt (h : Grown routes places) (p : Place) :
    ∀ j ∈ (kids places p).getLast?, j < routes.length :=
  fun _ hj => h.length ▸ lt_of_mem_kids (mem_of_getLast? hj)

theorem eq_of_mem_kids (hp : j ∈ kids places p) (hq : j ∈ kids places q) :
    p = q := by
  obtain ⟨a, hp⟩ := mem_kids.1 hp
  obtain ⟨b, hq⟩ := mem_kids.1 hq
  obtain ⟨h1, h2⟩ := Prod.mk.injEq .. ▸ Option.some.inj (hp.symm.trans hq)
  exact Prod.ext h1 (append_inj' h2 rfl).1

theorem Grown.kids_eq_nil (h : Grown routes places) (hp : p ∉ places) :
    kids places p = [] := by
  refine eq_nil_iff_forall_not_mem.2 fun j hj => hp ?_
  obtain ⟨a, hj⟩ := mem_kids.1 hj
  exact h.mem_of_concat (mem_of_getElem? hj)

section Grow

variable {ty i : ℕ} {ps : List Part} {a : Part} (prev_sibling : Option ℕ)

/-- A new node at a new place. -/
theorem Grown.newRoute (h : Grown routes places) (hi : places[i]? = some (ty, ps))
    (hnew : (ty, ps ++ [a]) ∉ places) :
    Grown (newRoute routes ty a i (kids places (ty, ps)).getLast? prev_sibling)
      (places ++ [(ty, ps ++ [a])]) := by
  have hilt : i < routes.length := h.length ▸ (List.getElem?_eq_some_iff.1 hi).1
  have hat := h.kids_lt (ty, ps)
  have hold : ∀ {j : ℕ} {r : Route} {p : Place}, routes[j]? = some r →
      (places ++ [(ty, ps ++ [a])])[j]? = some p → places[j]? = some p := by
    intro j r p hr hp
    rcases getElem?_concat_cases hp with hp | ⟨rfl, -⟩
    · exact hp
    · exact absurd (List.getElem?_eq_some_iff.1 hr).1 (h.length ▸ lt_irrefl _)
  have hls : ∀ {p : Place}, (places ++ [(ty, ps ++ [a])])[routes.length]? = some p →
      p = (ty, ps ++ [a]) := by
    intro p hp
    rw [h.length, getElem?_concat_length] at hp
    exact (Option.some.inj hp).symm
  refine ⟨?_, ?_, ?_, ?_, ?_, ?_, ?_⟩
  · simp [length_newRoute, h.length]
  · exact concat_eq_append ▸ h.nodup.concat hnew
  · intro j r' p hr' hp
    rcases newRoute_cases hilt hat hr' with ⟨r, hr, rfl⟩ | ⟨rfl, rfl⟩
    · rw [(linked_same _ _ _ _ _).1]
      exact h.type hr (hold hr hp)
    · rw [hls hp]
  · intro j r' p hr' hp
    rcases newRoute_cases hilt hat hr' with ⟨r, hr, rfl⟩ | ⟨rfl, rfl⟩
    · rw [(linked_same _ _ _ _ _).2.1]
      exact h.part hr (hold hr hp)
    · simp [hls hp]
  · intro j r' ty' hr' hp
    rcases newRoute_cases hilt hat hr' with ⟨r, hr, rfl⟩ | ⟨rfl, rfl⟩
    · rw [(linked_same _ _ _ _ _).2.2.1]
      exact h.root hr (hold hr hp)
    · exact absurd (Prod.mk.inj (hls hp)).2.symm (append_ne_nil_of_right_ne_nil _ nofun)
  · intro j r' ty' ps' a' hr' hp
    rcases newRoute_cases hilt hat hr' with ⟨r, hr, rfl⟩ | ⟨rfl, rfl⟩
    · rw [(linked_same _ _ _ _ _).2.2.1]
      obtain ⟨k, hk, hpl⟩ := h.parent hr (hold hr hp)
      refine ⟨k, hk, ?_⟩
      rw [getElem?_append_left (List.getElem?_eq_some_iff.1 hpl).1, hpl]
    · obtain ⟨rfl, heq⟩ := Prod.mk.inj (hls hp)
      obtain ⟨rfl, -⟩ := append_inj' heq rfl
      refine ⟨i, rfl, ?_⟩
      rw [getElem?_append_left (List.getElem?_eq_some_iff.1 hi).1, hi]
  · intro j r' p hr' hp
    have hnx : ∀ k ∈ kids places p, (kids places (ty, ps)).getLast? ≠ some k →
        nextOf (FrameworkRouter.newRoute routes ty a i (kids places (ty, ps)).getLast?
          prev_sibling) k = nextOf routes k := by
      intro k hk hne
      rw [nextOf_newRoute (h.length ▸ lt_of_mem_kids hk), if_neg hne]
    rw [kids_concat places (ty, ps) a]
    rcases newRoute_cases hilt hat hr' with ⟨r, hr, rfl⟩ | ⟨rfl, rfl⟩
    · have hp := hold hr hp
      have hlt := h.children hr hp
      rw [linked_first_child]
      by_cases heq : p = (ty, ps)
      · subst heq
        rw [if_pos rfl]
        have hj : i = j := h.inj hi hp
        have hcn : ((kids places (ty, ps)).getLast? = none ∧ i = j) ↔ kids places (ty, ps) = [] :=
          (and_iff_left hj).trans getLast?_eq_none_iff
        rw [if_congr hcn rfl rfl, ← h.length]
        refine hlt.concat hnx (fun k hk => ?_) ?_
        · rw [nextOf_newRoute (hat k hk), if_pos (Option.mem_def.1 hk)]
        · rw [nextOf, getElem?_newRoute_length hilt hat]
          rfl
      · have hfr : ¬((kids places (ty, ps)).getLast? = none ∧ i = j) := by
          rintro ⟨-, rfl⟩
          exact heq (Option.some.inj (hp.symm.trans hi))
        rw [if_neg heq, if_neg hfr]
        refine hlt.congr fun k hk => hnx k hk fun hls => heq ?_
        exact eq_of_mem_kids hk (mem_of_getLast? hls)
    · have hp := hls hp
      subst hp
      have hne : ((ty, ps ++ [a]) : Place) ≠ (ty, ps) := by
        intro heq
        have hlen := congrArg (fun q : Place => q.2.length) heq
        simp only [length_append, length_singleton] at hlen
        omega
      rw [if_neg hne, h.kids_eq_nil hnew]
      rfl

/-- A new route links backwards as it should just if it is given the last of its new siblings. -/
theorem Grown.backs_newRoute (h : Grown routes places) (hi : places[i]? = some (ty, ps))
    (hnew : (ty, ps ++ [a]) ∉ places) :
    Backs (FrameworkRouter.newRoute routes ty a i (kids places (ty, ps)).getLast? prev_sibling)
        (places ++ [(ty, ps ++ [a])]) ↔
      Backs routes places ∧ prev_sibling = (kids places (ty, ps)).getLast? := by
  have hilt : i < routes.length := h.length ▸ (List.getElem?_eq_some_iff.1 hi).1
  have hat := h.kids_lt (ty, ps)
  have hcn : ∀ p, IsBack (prevOf (FrameworkRouter.newRoute routes ty a i
      (kids places (ty, ps)).getLast? prev_sibling)) none (kids places p) ↔
        IsBack (prevOf routes) none (kids places p) := fun p =>
    isBack_congr fun j hj => prevOf_newRoute (h.length ▸ lt_of_mem_kids hj)
  have hpr : prevOf (FrameworkRouter.newRoute routes ty a i (kids places (ty, ps)).getLast?
      prev_sibling) places.length = prev_sibling := by
    rw [prevOf, ← h.length, getElem?_newRoute_length hilt hat]
    rfl
  have hsl : IsBack (prevOf (FrameworkRouter.newRoute routes ty a i
      (kids places (ty, ps)).getLast? prev_sibling)) none
        (kids (places ++ [(ty, ps ++ [a])]) (ty, ps)) ↔
      IsBack (prevOf routes) none (kids places (ty, ps)) ∧
        prev_sibling = (kids places (ty, ps)).getLast? := by
    rw [kids_concat places (ty, ps) a, if_pos rfl, isBack_concat, hcn, hpr, Option.or_none]
  constructor
  · intro hall
    have hown := hsl.1 (hall _ (mem_append_left _ (mem_of_getElem? hi)))
    refine ⟨fun p hp => ?_, hown.2⟩
    have hth := hall p (mem_append_left _ hp)
    by_cases heq : p = (ty, ps)
    · subst heq
      exact hown.1
    · rwa [kids_concat places (ty, ps) a, if_neg heq, hcn] at hth
  · rintro ⟨hall, hown⟩ p hp
    by_cases heq : p = (ty, ps)
    · subst heq
      exact hsl.2 ⟨hall _ (mem_of_getElem? hi), hown⟩
    · rw [kids_concat places (ty, ps) a, if_neg heq, hcn]
      rcases mem_append.1 hp with hp | hp
      · exact hall p hp
      · rw [mem_singleton.1 hp, h.kids_eq_nil hnew]
        exact trivial

end Grow

/-- The search among the children finds the part, or stops at the last child. -/
theorem seek_spec {a : Part} : ∀ {l : List ℕ} {it : Option ℕ} {n : ℕ},
    IsList (nextOf routes) it l → (∀ j ∈ l, j < routes.length) → l.length < n →
      (∃ c ∈ l, (∃ r, routes[c]? = some r ∧ r.part = a) ∧
        seek routes a n it = some (.found c)) ∨
      (∀ c ∈ l, ∀ r, routes[c]? = some r → r.part ≠ a) ∧
        seek routes a n it = some (.missing l.getLast?)
  | _, _, 0, _, _, hn => absurd hn (Nat.not_lt_zero _)
  | [], it, n + 1, h, _, _ => by
    obtain rfl : it = none := h
    exact .inr ⟨nofun, rfl⟩
  | c :: l, it, n + 1, h, hlt, hn => by
    obtain ⟨rfl, h⟩ := h
    have hc := hlt c mem_cons_self
    have hr : routes[c]? = some routes[c] := getElem?_eq_getElem hc
    have hsk : seek routes a (n + 1) (some c) =
        if a = routes[c].part then some (.found c)
        else (nextOf routes c).elim (some (.missing (some c))) fun next =>
          seek routes a n (some next) := by
      rw [seek, nextOf, hr, Option.bind_some, Option.bind_some]
      cases routes[c].next_sibling <;> rfl
    by_cases heq : a = routes[c].part
    · rw [if_pos heq] at hsk
      exact .inl ⟨c, mem_cons_self, ⟨_, hr, heq.symm⟩, hsk⟩
    · rw [if_neg heq] at hsk
      have hot : ∀ r, routes[c]? = some r → r.part ≠ a := by
        rintro r hr' rfl
        exact heq (congrArg Route.part (Option.some.inj (hr'.symm.trans hr)))
      cases l with
      | nil =>
        have hno : nextOf routes c = none := h
        rw [hno] at hsk
        refine .inr ⟨fun d hd => ?_, hsk⟩
        rw [mem_singleton.1 hd]
        exact hot
      | cons d l =>
        have hsm : nextOf routes c = some d := h.1
        rw [hsm] at h hsk
        have hlt' : ∀ j ∈ d :: l, j < routes.length := fun j hj => hlt j (mem_cons_of_mem c hj)
        rcases seek_spec (a := a) h hlt' (Nat.lt_of_succ_lt_succ hn) with
          ⟨e, he, hpr, hfn⟩ | ⟨hall, hms⟩
        · exact .inl ⟨e, mem_cons_of_mem c he, hpr, hsk.trans hfn⟩
        · refine .inr ⟨fun e he => ?_, hsk.trans hms⟩
          rcases mem_cons.1 he with rfl | he
          · exact hot
          · exact hall e he

theorem Grown.seek (h : Grown routes places) {i ty : ℕ} {r : Route} {cs : List Part}
    (hr : routes[i]? = some r) (hi : places[i]? = some (ty, cs)) (a : Part) :
    (∃ c, places[c]? = some (ty, cs ++ [a]) ∧
        seek routes a (routes.length + 1) r.first_child = some (.found c)) ∨
      (ty, cs ++ [a]) ∉ places ∧
        seek routes a (routes.length + 1) r.first_child =
          some (.missing (kids places (ty, cs)).getLast?) := by
  have hlength : (kids places (ty, cs)).length < routes.length + 1 := by
    rw [h.length]
    exact Nat.lt_succ_of_le (length_kids_le _ _)
  have hlt : ∀ j ∈ kids places (ty, cs), j < routes.length :=
    fun j hj => h.length ▸ lt_of_mem_kids hj
  have hpr : ∀ {c : ℕ} {b : Part} {r' : Route}, places[c]? = some (ty, cs ++ [b]) →
      routes[c]? = some r' → r'.part = b := by
    intro c b r' hc hr'
    rw [h.part hr' hc, getLast?_concat]
    rfl
  rcases seek_spec (a := a) (h.children hr hi) hlt hlength with
    ⟨c, hc, ⟨r', hr', rfl⟩, hfn⟩ | ⟨hall, hms⟩
  · obtain ⟨b, hb⟩ := mem_kids.1 hc
    refine .inl ⟨c, ?_, hfn⟩
    rw [hpr hb hr', hb]
  · refine .inr ⟨fun hmem => ?_, hms⟩
    obtain ⟨c, hc⟩ := mem_iff_getElem?.1 hmem
    obtain ⟨r', hr'⟩ := h.exists_route hc
    exact hall c (mem_kids.2 ⟨a, hc⟩) r' hr' (hpr hc hr')

theorem Grown.descend (h : Grown routes places) {ty : ℕ} : ∀ (ps : List Part) {cs : List Part}
    {i : ℕ}, places[i]? = some (ty, cs) →
      (∃ c, places[c]? = some (ty, cs ++ ps) ∧ descend routes ps i = some (.found c)) ∨
      ∃ qs a rest j, ps = qs ++ a :: rest ∧ places[j]? = some (ty, cs ++ qs) ∧
        (ty, cs ++ qs ++ [a]) ∉ places ∧
        descend routes ps i =
          some (.missing j (kids places (ty, cs ++ qs)).getLast? a rest)
  | [], cs, i, hi => .inl ⟨i, by rwa [append_nil], rfl⟩
  | a :: ps, cs, i, hi => by
    obtain ⟨r, hr⟩ := h.exists_route hi
    rcases h.seek hr hi a with ⟨c, hc, hfn⟩ | ⟨hnew, hms⟩
    · have hst : FrameworkRouter.descend routes (a :: ps) i =
          FrameworkRouter.descend routes ps c := by
        rw [FrameworkRouter.descend, hr, Option.bind_some, hfn]
        rfl
      rw [hst]
      rcases h.descend ps hc with ⟨d, hd, heq⟩ | ⟨qs, b, rest, j, rfl, hj, hb, heq⟩
      · refine .inl ⟨d, ?_, heq⟩
        rw [hd, append_assoc]
        rfl
      · have hac : cs ++ [a] ++ qs = cs ++ a :: qs := by
          rw [append_assoc]
          rfl
        rw [hac] at hj hb heq
        exact .inr ⟨a :: qs, b, rest, j, rfl, hj, hb, heq⟩
    · refine .inr ⟨[], a, ps, i, rfl, by rwa [append_nil], by rwa [append_nil], ?_⟩
      rw [FrameworkRouter.descend, hr, Option.bind_some, hms, append_nil]
      rfl

/-- Each node has the files of its place. -/
def Filed (routes : List Route) (places : List Place) (files : Place → FileKind → Option ℕ) :
    Prop :=
  ∀ (i : ℕ) (r : Route) (p : Place), routes[i]? = some r → places[i]? = some p →
    ∀ kind, r.file kind = files p kind

theorem Grown.filed_newRoute (h : Grown routes places) {ty i : ℕ} {ps : List Part} {a : Part}
    (prev_sibling : Option ℕ) {files : Place → FileKind → Option ℕ}
    (hi : places[i]? = some (ty, ps)) (hfl : ∀ kind, files (ty, ps ++ [a]) kind = none)
    (hfd : Filed routes places files) :
    Filed (FrameworkRouter.newRoute routes ty a i (kids places (ty, ps)).getLast? prev_sibling)
      (places ++ [(ty, ps ++ [a])]) files := by
  intro j r' p hr' hp kind
  have hilt : i < routes.length := h.length ▸ (List.getElem?_eq_some_iff.1 hi).1
  rcases newRoute_cases hilt (h.kids_lt (ty, ps)) hr' with ⟨r, hr, rfl⟩ | ⟨rfl, rfl⟩
  · rw [(linked_same _ _ _ _ _).2.2.2.2]
    refine hfd j r p hr ?_ kind
    rwa [getElem?_append_left (h.length ▸ (List.getElem?_eq_some_iff.1 hr).1)] at hp
  · rw [h.length, getElem?_concat_length] at hp
    rw [← Option.some.inj hp, hfl]
    cases kind <;> rfl

/-- What became of the routes: there are more, at places that did not exist before. -/
structure Grows (routes : List Route) (places : List Place) (routes' : List Route)
    (places' : List Place) : Prop where
  grown : Grown routes' places'
  kept : places <+: places'
  filed : ∀ {files : Place → FileKind → Option ℕ}, (∀ q ∉ places, ∀ kind, files q kind = none) →
    Filed routes places files → Filed routes' places' files

theorem Grows.trans {routes' routes'' : List Route} {places' places'' : List Place}
    (h : Grows routes places routes' places') (h' : Grows routes' places' routes'' places'') :
    Grows routes places routes'' places'' :=
  ⟨h'.grown, h.kept.trans h'.kept, fun hno hfl =>
    h'.filed (fun q hq => hno q fun hmem => hq (h.kept.mem hmem)) (h.filed hno hfl)⟩

theorem Grown.grows_newRoute (h : Grown routes places) {ty i : ℕ} {ps : List Part} {a : Part}
    (prev_sibling : Option ℕ) (hi : places[i]? = some (ty, ps)) (hnew : (ty, ps ++ [a]) ∉ places) :
    Grows routes places
      (FrameworkRouter.newRoute routes ty a i (kids places (ty, ps)).getLast? prev_sibling)
      (places ++ [(ty, ps ++ [a])]) :=
  ⟨h.newRoute prev_sibling hi hnew, prefix_append _ _,
    fun hno => h.filed_newRoute prev_sibling hi (hno _ hnew)⟩

/-- Under a new route the rest is added; each link backwards is `next`, where there is nothing
before a first child. -/
theorem Grown.newRoutes {ty : ℕ} (next : Option ℕ) : ∀ (rest : List Part) {ps : List Part} {i : ℕ}
    {routes : List Route} {places : List Place}, Grown routes places →
    places[i]? = some (ty, ps) → kids places (ty, ps) = [] →
    ∃ places', Grows routes places (newRoutes ty next rest routes i).1 places' ∧
      places'[(newRoutes ty next rest routes i).2]? = some (ty, ps ++ rest) ∧
      (∀ q, q ∈ places' ↔ q ∈ places ∨ ∃ qs, qs ≠ [] ∧ qs <+: rest ∧ q = (ty, ps ++ qs)) ∧
      (Backs (newRoutes ty next rest routes i).1 places' ↔
        Backs routes places ∧ (rest = [] ∨ next = none))
  | [], ps, i, routes, places, h, hi, _ => by
    refine ⟨places, ⟨h, prefix_rfl, fun _ => id⟩, by rwa [append_nil], fun q => ?_, ?_⟩
    · refine ⟨.inl, ?_⟩
      rintro (hq | ⟨qs, hne, hqs, -⟩)
      · exact hq
      · exact absurd (prefix_nil.1 hqs) hne
    · exact (and_iff_left (.inl rfl)).symm
  | a :: rest, ps, i, routes, places, h, hi, hkd => by
    have hnew : (ty, ps ++ [a]) ∉ places := by
      intro hmem
      obtain ⟨j, hj⟩ := mem_iff_getElem?.1 hmem
      exact not_mem_nil (hkd ▸ mem_kids.2 ⟨a, hj⟩)
    have hgr := h.grows_newRoute next hi hnew
    have hbc := h.backs_newRoute next hi hnew
    rw [hkd, getLast?_nil] at hgr hbc
    have hpl : (places ++ [(ty, ps ++ [a])])[routes.length]? = some (ty, ps ++ [a]) := by
      rw [h.length, getElem?_concat_length]
    have hkd' : kids (places ++ [(ty, ps ++ [a])]) (ty, ps ++ [a]) = [] := by
      have hne : ((ty, ps ++ [a]) : Place) ≠ (ty, ps) := fun heq =>
        hnew (heq ▸ mem_of_getElem? hi)
      rw [kids_concat places (ty, ps) a, if_neg hne, h.kids_eq_nil hnew]
    obtain ⟨places', hgr', hls, hmem, hbc'⟩ := newRoutes next rest
      hgr.grown hpl hkd'
    refine ⟨places', hgr.trans hgr', ?_, fun q => ?_, ?_⟩
    · simp [FrameworkRouter.newRoutes, hls]
    · rw [hmem, mem_append, mem_singleton, or_assoc]
      refine or_congr_right ⟨?_, ?_⟩
      · rintro (rfl | ⟨qs, -, hqs, rfl⟩)
        · simp
        · exact ⟨a :: qs, nofun, (prefix_cons_inj a).2 hqs, by rw [append_assoc]; rfl⟩
      · rintro ⟨qs, hne, hqs, rfl⟩
        obtain ⟨b, qs, rfl⟩ := exists_cons_of_ne_nil hne
        obtain ⟨rfl, htl⟩ := cons_prefix_cons.1 hqs
        cases qs with
        | nil => exact .inl rfl
        | cons c qs => exact .inr ⟨c :: qs, nofun, htl, by rw [append_assoc]; rfl⟩
    · rw [FrameworkRouter.newRoutes, hbc', hbc, and_assoc]
      refine and_congr_right fun _ => ?_
      constructor
      · exact fun hnx => .inr hnx.1
      · rintro (hnil | hno)
        · exact absurd hnil (cons_ne_nil a rest)
        · exact ⟨hno, .inr hno⟩

/-- For these parts a route is made beside an older sibling, and another one under it. -/
def MadeBeside (places : List Place) (ty : ℕ) (ps : List Part) : Prop :=
  ∃ cs a b rest c, ps = cs ++ a :: b :: rest ∧ (ty, cs ++ [c]) ∈ places ∧
    (ty, cs ++ [a]) ∉ places

theorem Grown.missing_unique (h : Grown routes places) {ty : ℕ} {qs rest cs tail : List Part}
    {a b : Part} (hq : (ty, qs) ∈ places) (hqa : (ty, qs ++ [a]) ∉ places)
    (hc : (ty, cs) ∈ places) (hcb : (ty, cs ++ [b]) ∉ places)
    (heq : qs ++ a :: rest = cs ++ b :: tail) : qs = cs ∧ a :: rest = b :: tail := by
  rcases append_eq_append_iff.1 heq with ⟨ds, rfl, hds⟩ | ⟨ds, rfl, hds⟩
  · cases ds with
    | nil => exact ⟨(append_nil qs).symm, hds⟩
    | cons d ds =>
      obtain ⟨rfl, -⟩ := List.cons.inj hds
      refine absurd (h.mem_of_append ds ?_) hqa
      rwa [append_assoc]
  · cases ds with
    | nil => exact ⟨append_nil cs, hds.symm⟩
    | cons d ds =>
      obtain ⟨rfl, -⟩ := List.cons.inj hds
      refine absurd (h.mem_of_append ds ?_) hcb
      rwa [append_assoc]

/-- After a walk there is the route for the parts, with all on the way. -/
theorem Grown.routeFor (h : Grown routes places) {ty : ℕ} (hrt : places[ty]? = some (ty, []))
    (ps : List Part) :
    ∃ routes' new places', routeFor routes ty ps = some (routes', new) ∧
      Grows routes places routes' places' ∧ places'[new]? = some (ty, ps) ∧
      (∀ q, q ∈ places' ↔ q ∈ places ∨ ∃ qs, qs <+: ps ∧ q = (ty, qs)) ∧
      (Backs routes' places' ↔ Backs routes places ∧ ¬MadeBeside places ty ps) := by
  rcases h.descend ps hrt with ⟨c, hc, heq⟩ | ⟨qs, a, rest, j, rfl, hj, hnew, heq⟩
  · have hmem : (ty, ps) ∈ places := mem_of_getElem? hc
    refine ⟨routes, c, places, ?_, ⟨h, prefix_rfl, fun _ => id⟩, hc, fun q => ?_, ?_⟩
    · rw [FrameworkRouter.routeFor, heq]
      rfl
    · refine ⟨.inl, ?_⟩
      rintro (hq | ⟨qs, ⟨ds, rfl⟩, rfl⟩)
      · exact hq
      · exact h.mem_of_append _ hmem
    · refine (and_iff_left ?_).symm
      rintro ⟨cs, a, b, rest, c, rfl, -, ha⟩
      refine ha (h.mem_of_append (b :: rest) ?_)
      rwa [append_assoc]
  · rw [nil_append] at hj hnew heq
    have hqs : (ty, qs) ∈ places := mem_of_getElem? hj
    have hgr := h.grows_newRoute (kids places (ty, qs)).getLast? hj hnew
    have hbc := h.backs_newRoute (kids places (ty, qs)).getLast? hj hnew
    have hpl : (places ++ [(ty, qs ++ [a])])[routes.length]? = some (ty, qs ++ [a]) := by
      rw [h.length, getElem?_concat_length]
    have hkd : kids (places ++ [(ty, qs ++ [a])]) (ty, qs ++ [a]) = [] := by
      have hne : ((ty, qs ++ [a]) : Place) ≠ (ty, qs) := fun heq => hnew (heq ▸ hqs)
      rw [kids_concat places (ty, qs) a, if_neg hne, h.kids_eq_nil hnew]
    obtain ⟨places', hgr', hls, hmem, hbc'⟩ := Grown.newRoutes
      (kids places (ty, qs)).getLast? rest hgr.grown hpl hkd
    have hrouteFor : FrameworkRouter.routeFor routes ty (qs ++ a :: rest) =
        some (FrameworkRouter.newRoutes ty (kids places (ty, qs)).getLast? rest
          (FrameworkRouter.newRoute routes ty a j (kids places (ty, qs)).getLast?
            (kids places (ty, qs)).getLast?) routes.length) := by
      rw [FrameworkRouter.routeFor, heq]
      rfl
    refine ⟨_, _, places', hrouteFor, hgr.trans hgr', ?_, fun q => ?_, ?_⟩
    · rw [hls, append_assoc]
      rfl
    · rw [hmem, mem_append, mem_singleton, or_assoc]
      constructor
      · rintro (hq | rfl | ⟨ds, -, ⟨es, rfl⟩, rfl⟩)
        · exact .inl hq
        · exact .inr ⟨qs ++ [a], ⟨rest, by rw [append_assoc]; rfl⟩, rfl⟩
        · refine .inr ⟨qs ++ [a] ++ ds, ⟨es, ?_⟩, rfl⟩
          simp only [append_assoc, cons_append, nil_append]
      · rintro (hq | ⟨ds, hds, rfl⟩)
        · exact .inl hq
        · rcases prefix_or_prefix_of_prefix hds (prefix_append qs (a :: rest)) with
            ⟨fs, rfl⟩ | ⟨es, rfl⟩
          · exact .inl (h.mem_of_append _ hqs)
          · have hes := (prefix_append_right_inj qs).1 hds
            cases es with
            | nil => exact .inl (by rwa [append_nil])
            | cons e es =>
              obtain ⟨rfl, htl⟩ := cons_prefix_cons.1 hes
              cases es with
              | nil => exact .inr (.inl rfl)
              | cons f es =>
                exact .inr (.inr ⟨f :: es, nofun, htl, by rw [append_assoc]; rfl⟩)
    · rw [hbc', hbc, and_iff_left rfl]
      refine and_congr_right fun _ => ⟨?_, fun hnot => ?_⟩
      · rintro hln ⟨cs, b, d, tail, c, hps, hc, hb⟩
        obtain ⟨rfl, hcn⟩ := h.missing_unique hqs hnew (h.mem_of_concat hc) hb hps
        obtain ⟨-, rfl⟩ := List.cons.inj hcn
        rcases hln with hnil | hno
        · exact cons_ne_nil _ _ hnil
        · obtain ⟨k, hk⟩ := mem_iff_getElem?.1 hc
          exact not_mem_nil (getLast?_eq_none_iff.1 hno ▸ mem_kids.2 ⟨c, hk⟩)
      · cases rest with
        | nil => exact .inl rfl
        | cons b rest =>
          refine .inr (getLast?_eq_none_iff.2 (eq_nil_iff_forall_not_mem.2 ?_))
          intro k hk
          obtain ⟨c, hc⟩ := mem_kids.1 hk
          exact hnot ⟨qs, a, b, rest, c, rfl, mem_of_getElem? hc, hnew⟩

end Cruller.Bake.FrameworkRouter
