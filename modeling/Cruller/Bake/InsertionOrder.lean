import Cruller.Bake.RouteMatching
import Cruller.Bake.RoutePlaces

/-!
# The order of insertions

Scans of the same files in different orders. After a scan the routes stand at the places of the
files and above them; a route has the file that was first at its place, and a page is registered
under the URL of its place. So the trees of two orders are the same up to a renumbering, unless
different files compete for a place or two places for a URL. The links backwards are right unless
routes are made for a file beside an older sibling, one under the other: then all of them link to
that sibling, where only the first should.
-/

namespace Cruller.Bake.FrameworkRouter

open List Option Nat

/-! ## Patterns -/

theorem behind_cons (t : List UInt8) (ts : List (List UInt8)) :
    behind (t :: ts) = 0x2F :: t ++ behind ts := by
  rw [behind, if_neg (cons_ne_nil t ts), intercalate_cons_behind]
  rfl

theorem staticPartsFrom_eq {route_path : List UInt8} : ∀ {ts : List (List UInt8)} {n offset : ℕ},
    Proper ts → route_path.drop offset = behind ts → (behind ts).length < n →
      staticPartsFrom route_path n offset = some (ts.map .text)
  | [], n, offset, _, hdr, hn => by
    have hle := drop_eq_nil_iff.1 hdr
    obtain ⟨n, rfl⟩ := exists_eq_succ_of_ne_zero (by omega : n ≠ 0)
    rw [staticPartsFrom, staticNext, if_pos hle]
    rfl
  | t :: ts, n, offset, hp, hdr, hn => by
    have hst : Stands route_path (offset + 1) false (t :: ts) := by
      refine ⟨rfl, ?_⟩
      rw [← drop_drop, hdr, behind_cons, intercalate_cons_behind]
      rfl
    have hlt := hst.lt hp
    rw [behind_cons] at hn
    simp only [length_append, length_cons] at hn
    obtain ⟨n, rfl⟩ := exists_eq_succ_of_ne_zero (by omega : n ≠ 0)
    have hdr' : route_path.drop (offset + (t.length + 1)) = behind ts := by
      rw [show offset + (t.length + 1) = offset + 1 + t.length by omega, ← drop_drop,
        hst.drop_eq, drop_left]
    have hnx : staticNext route_path offset =
        some (some (.text t, offset + (t.length + 1))) := by
      rw [staticNext, if_neg (by omega), hst.segment_end hp]
      simp only
      rw [hst.slice_eq hp]
      rfl
    rw [staticPartsFrom, hnx, bind_some]
    simp only
    rw [staticPartsFrom_eq hp.tail hdr' (by omega)]
    rfl

/-- What the parsers promise of the files a scan finds, for `n` types. -/
structure Insertion.Parsed (n : ℕ) (ins : Insertion) : Prop where
  type : ins.ty < n
  asserted : ∀ p ∈ ins.parts, p.asserted = true
  small : ∀ p ∈ ins.parts, p.payload.length < 2 ^ 29
  /-- the upper bound is known (file path limits) -/
  short : (effectiveURL ins.parts).length ≤ 2 * max_path_bytes

/-- Only the texts of a static pattern make routes. -/
def Insertion.path (ins : Insertion) : List Part :=
  if ins.parts.countP Part.isParam = 0 then visible ins.parts else ins.parts

/-- The node that a file is inserted at. -/
def Insertion.place (ins : Insertion) : Place := (ins.ty, ins.path)

/-- The key of the routes map: a URL, or a hash of the pattern. -/
def urlKey (hash : List UInt8 → ℕ) (parts : List Part) : List UInt8 ⊕ ℕ :=
  if parts.countP Part.isParam = 0 then
    .inl (if effectiveURL parts = [] then [0x2F] else effectiveURL parts)
  else .inr (hash (effectiveURL parts))

def Insertion.key (hash : List UInt8 → ℕ) (ins : Insertion) : List UInt8 ⊕ ℕ :=
  urlKey hash ins.parts

theorem visible_spec : ∀ ps : List Part,
    (visible ps).countP Part.isParam = ps.countP Part.isParam ∧
      effectiveURL (visible ps) = effectiveURL ps
  | [] => ⟨rfl, rfl⟩
  | p :: ps => by
    obtain ⟨hcn, hurl⟩ := visible_spec ps
    cases hp : p.isGroup with
    | true =>
      obtain ⟨label, rfl⟩ : ∃ label, p = .group label := by
        cases p with
        | group label => exact ⟨label, rfl⟩
        | _ => cases hp
      rw [visible_group]
      exact ⟨hcn, hurl⟩
    | false =>
      rw [visible_cons hp, countP_cons, countP_cons, hcn]
      rw [effectiveURL] at hurl ⊢
      exact ⟨rfl, (flatMap_cons ..).trans (congrArg _ hurl)⟩

theorem Insertion.key_eq (hash : List UInt8 → ℕ) (ins : Insertion) :
    ins.key hash = urlKey hash ins.path := by
  rw [Insertion.key, Insertion.path]
  split_ifs
  · rw [urlKey, urlKey, (visible_spec ins.parts).1, (visible_spec ins.parts).2]
  · rfl

/-- A pattern without parameters is its texts, and its URL is these behind slashes. -/
theorem exists_texts {ps : List Part} (hst : ps.countP Part.isParam = 0)
    (ha : ∀ p ∈ ps, p.asserted = true) :
    ∃ ts, Proper ts ∧ visible ps = ts.map .text ∧ effectiveURL ps = behind ts ∧
      ps.flatMap Part.static = behind ts := by
  induction ps with
  | nil => exact ⟨[], ⟨nofun, nofun⟩, rfl, rfl, rfl⟩
  | cons p ps ih =>
    have hnot : ∀ q ∈ p :: ps, ¬q.isParam = true := countP_eq_zero.1 hst
    obtain ⟨ts, hp, hvs, hurl, hfl⟩ := ih
      (countP_eq_zero.2 fun q hq => hnot q (mem_cons_of_mem p hq))
      fun q hq => ha q (mem_cons_of_mem p hq)
    rw [effectiveURL] at hurl ⊢
    rw [flatMap_cons, flatMap_cons, hurl, hfl]
    cases p with
    | group label => exact ⟨ts, hp, (visible_group label ps).trans hvs, rfl, rfl⟩
    | text t =>
      obtain ⟨hne, hfr⟩ := of_decide_eq_true (ha (.text t) mem_cons_self)
      refine ⟨t :: ts, ⟨?_, ?_⟩, ?_, (behind_cons t ts).symm, (behind_cons t ts).symm⟩
      · intro s hs
        rcases mem_cons.1 hs with rfl | hs
        · exact hfr
        · exact hp.free s hs
      · rw [getLast?_cons]
        intro hls
        cases hts : ts.getLast? with
        | none =>
          rw [hts] at hls
          exact hne (some.inj hls)
        | some s =>
          rw [hts] at hls
          exact hp.last (hts.trans hls)
      · rw [visible_cons rfl, hvs]
        rfl
    | param name => exact absurd rfl (hnot _ mem_cons_self)
    | catch_all name => exact absurd rfl (hnot _ mem_cons_self)
    | catch_all_optional name => exact absurd rfl (hnot _ mem_cons_self)

def Pattern.key (hash : List UInt8 → ℕ) : Pattern → Option (List UInt8 ⊕ ℕ)
  | static route_path => some (.inl (if route_path = [] then [0x2F] else route_path))
  | dynamic data => (effectiveURLHash hash data).map .inr

variable {n : ℕ} {hash : List UInt8 → ℕ} {is done is' : List Insertion} {ins : Insertion}

theorem Insertion.Parsed.pattern (h : ins.Parsed n)
    (hash : List UInt8 → ℕ) :
    ∃ pattern, patternOf ins.parts = some pattern ∧ pattern.parts = some ins.path ∧
      pattern.key hash = some (ins.key hash) := by
  by_cases hst : ins.parts.countP Part.isParam = 0
  · obtain ⟨ts, hp, hvs, hurl, hfl⟩ := exists_texts hst h.asserted
    refine ⟨.static (behind ts), ?_, ?_, ?_⟩
    · rw [patternOf, if_pos hst, hfl]
    · rw [Insertion.path, if_pos hst, hvs]
      exact staticPartsFrom_eq hp rfl (lt_succ_self _)
    · rw [Insertion.key, urlKey, if_pos hst, hurl]
      rfl
  · obtain ⟨data, hdt⟩ := exists_initFromParts h.asserted h.small
    have hpr : (Pattern.dynamic data).parts = some ins.parts :=
      partsFrom_eq hdt rfl (lt_succ_self _)
    refine ⟨.dynamic data, ?_, ?_, ?_⟩
    · rw [patternOf, if_neg hst, hdt]
      rfl
    · rw [Insertion.path, if_neg hst, hpr]
    · rw [Insertion.key, urlKey, if_neg hst, Pattern.key, effectiveURLHash, hpr,
        bind_some, if_pos h.short]
      rfl

/-! ## One insertion -/

/-- The router knows the route of the key. -/
def Router.Registered (hash : List UInt8 → ℕ) (fr : Router) : List UInt8 ⊕ ℕ → Prop
  | .inl url => ∃ e ∈ fr.static_routes, e.1 = url
  | .inr url_hash => ∃ e ∈ fr.dynamic_routes, effectiveURLHash hash e.1 = some url_hash

section Register

variable {hash : List UInt8 → ℕ} {fr : Router} {pattern : Pattern} {key : List UInt8 ⊕ ℕ}

theorem register_eq_none (new_route_index : ℕ) (hkey : pattern.key hash = some key)
    (h : fr.Registered hash key) : fr.register hash new_route_index pattern = none := by
  cases pattern with
  | static route_path =>
    obtain rfl := some.inj hkey
    obtain ⟨e, he, heq⟩ := h
    exact if_pos (List.any_eq_true.2 ⟨e, he, decide_eq_true heq⟩)
  | dynamic data =>
    obtain ⟨url_hash, hhs, rfl⟩ := map_eq_some_iff.1 hkey
    obtain ⟨e, he, heq⟩ := h
    rw [Router.register, hhs, bind_some]
    exact if_pos (List.any_eq_true.2 ⟨e, he, decide_eq_true heq⟩)

theorem exists_register (new_route_index : ℕ) (hkey : pattern.key hash = some key)
    (h : ¬fr.Registered hash key) :
    ∃ fr', fr.register hash new_route_index pattern = some fr' ∧ fr'.routes = fr.routes ∧
      ∀ k, fr'.Registered hash k ↔ fr.Registered hash k ∨ k = key := by
  cases pattern with
  | static route_path =>
    obtain rfl := some.inj hkey
    refine ⟨_, if_neg fun hany => h ?_, rfl, fun k => ?_⟩
    · obtain ⟨e, he, heq⟩ := List.any_eq_true.1 hany
      exact ⟨e, he, of_decide_eq_true heq⟩
    · cases k with
      | inl url =>
        simp only [Router.Registered, mem_append, mem_singleton, or_and_right,
          exists_or, exists_eq_left, Sum.inl.injEq, eq_comm]
      | inr url_hash => simp only [Router.Registered, reduceCtorEq, or_false]
  | dynamic data =>
    obtain ⟨url_hash, hhs, rfl⟩ := map_eq_some_iff.1 hkey
    rw [Router.register, hhs, bind_some]
    refine ⟨_, if_neg fun hany => h ?_, rfl, fun k => ?_⟩
    · obtain ⟨e, he, heq⟩ := List.any_eq_true.1 hany
      exact ⟨e, he, of_decide_eq_true heq⟩
    · cases k with
      | inl url => simp only [Router.Registered, reduceCtorEq, or_false]
      | inr url_hash' =>
        simp only [Router.Registered, mem_append, mem_singleton, or_and_right,
          exists_or, exists_eq_left, hhs, Sum.inr.injEq, some.injEq, eq_comm]

end Register

/-- The first of the files at a place. -/
def firstFile (done : List Insertion) (p : Place) (file_kind : FileKind) : Option ℕ :=
  (done.find? fun ins => ins.place = p ∧ ins.file_kind = file_kind).map Insertion.file_id

theorem firstFile_concat (done : List Insertion) (ins : Insertion) (p : Place) (kind : FileKind) :
    firstFile (done ++ [ins]) p kind =
      (firstFile done p kind).or
        (if ins.place = p ∧ ins.file_kind = kind then some ins.file_id else none) := by
  rw [firstFile, firstFile, find?_append]
  cases done.find? fun ins => ins.place = p ∧ ins.file_kind = kind with
  | some e => rfl
  | none =>
    rw [none_or, map_none, none_or, find?_singleton]
    by_cases h : ins.place = p ∧ ins.file_kind = kind
    · rw [if_pos h, if_pos (decide_eq_true h)]
      rfl
    · rw [if_neg h, if_neg (by rwa [decide_eq_true_iff])]
      rfl

theorem exists_of_firstFile {p : Place} {kind : FileKind} {file_id : ℕ}
    (h : firstFile done p kind = some file_id) :
    ∃ ins ∈ done, (ins.place = p ∧ ins.file_kind = kind) ∧ ins.file_id = file_id := by
  obtain ⟨ins, hfn, hfl⟩ := map_eq_some_iff.1 h
  have hsp := find?_some hfn
  exact ⟨ins, mem_of_find?_eq_some hfn, decide_eq_true_iff.1 hsp, hfl⟩

theorem firstFile_eq_none {p : Place} {kind : FileKind} :
    firstFile done p kind = none ↔ ∀ ins ∈ done, ¬(ins.place = p ∧ ins.file_kind = kind) := by
  rw [firstFile, map_eq_none_iff, find?_eq_none]
  exact forall₂_congr fun ins _ => not_congr decide_eq_true_iff

/-- No two pages at different places have the same URL. -/
def Unaliased (hash : List UInt8 → ℕ) (is : List Insertion) : Prop :=
  ∀ a ∈ is, ∀ b ∈ is, a.file_kind = .page → b.file_kind = .page → a.key hash = b.key hash →
    a.place = b.place

theorem Unaliased.of_append {js : List Insertion}
    (h : Unaliased hash (is ++ js)) : Unaliased hash is :=
  fun a ha b hb => h a (mem_append_left js ha) b (mem_append_left js hb)

theorem unaliased_concat :
    Unaliased hash (done ++ [ins]) ↔
      Unaliased hash done ∧ (ins.file_kind = .page → ∀ e ∈ done, e.file_kind = .page →
        e.key hash = ins.key hash → e.place = ins.place) := by
  constructor
  · refine fun h => ⟨h.of_append, fun hpg e he hpg' hkey => ?_⟩
    exact h e (mem_append_left _ he) ins mem_concat_self hpg' hpg hkey
  · rintro ⟨h, hins⟩ a ha b hb hpg hpg' hkey
    rcases mem_append.1 ha with hold | hnew <;> rcases mem_append.1 hb with hold' | hnew'
    · exact h a hold b hold' hpg hpg' hkey
    · obtain rfl := mem_singleton.1 hnew'
      exact hins hpg' a hold hpg hkey
    · obtain rfl := mem_singleton.1 hnew
      exact (hins hpg b hold' hpg' hkey.symm).symm
    · rw [mem_singleton.1 hnew, mem_singleton.1 hnew']

theorem Insertion.key_eq_of_place {a b : Insertion}
    (h : a.place = b.place) : a.key hash = b.key hash := by
  rw [a.key_eq, b.key_eq, (Prod.mk.inj h).2]

/-- What the router has after these insertions. -/
structure Stored (hash : List UInt8 → ℕ) (n : ℕ) (done : List Insertion) (fr : Router)
    (places : List Place) : Prop where
  grown : Grown fr.routes places
  parsed : ∀ ins ∈ done, ins.Parsed n
  roots : ∀ ty < n, places[ty]? = some (ty, [])
  mem : ∀ ty ps, (ty, ps) ∈ places ↔
    ty < n ∧ (ps = [] ∨ ∃ ins ∈ done, ins.ty = ty ∧ ps <+: ins.path)
  filed : Filed fr.routes places (firstFile done)
  keys : ∀ k, fr.Registered hash k ↔
    ∃ ins ∈ done, ins.file_kind = .page ∧ ins.key hash = k
  unaliased : Unaliased hash done

/-- Earlier files stand beside the first route that is missing for this one, and a second one is
missing below. -/
def Beside (done : List Insertion) (ins : Insertion) : Prop :=
  ∃ cs a b rest c, ins.path = cs ++ a :: b :: rest ∧
    (∃ e ∈ done, e.ty = ins.ty ∧ cs ++ [c] <+: e.path) ∧
    ∀ e ∈ done, e.ty = ins.ty → ¬cs ++ [a] <+: e.path

section Step

variable {hash : List UInt8 → ℕ} {n : ℕ} {done : List Insertion} {fr : Router}
  {places : List Place} {ins : Insertion}

theorem Stored.madeBeside_iff (h : Stored hash n done fr places) (hty : ins.ty < n) :
    MadeBeside places ins.ty ins.path ↔ Beside done ins := by
  have hmem : ∀ (cs : List Part) (c : Part), (ins.ty, cs ++ [c]) ∈ places ↔
      ∃ e ∈ done, e.ty = ins.ty ∧ cs ++ [c] <+: e.path := by
    intro cs c
    have hne : cs ++ [c] ≠ [] := append_ne_nil_of_right_ne_nil cs (cons_ne_nil c [])
    rw [h.mem, and_iff_right hty, or_iff_right hne]
  simp only [MadeBeside, Beside, hmem, not_exists, not_and]

theorem Stored.firstFile_eq_none (h : Stored hash n done fr places) :
    ∀ q ∉ places, ∀ kind, firstFile done q kind = none := by
  refine fun q hq kind => FrameworkRouter.firstFile_eq_none.2 ?_
  rintro e he ⟨rfl, -⟩
  exact hq ((h.mem e.ty e.path).2 ⟨(h.parsed e he).type, .inr ⟨e, he, rfl, prefix_rfl⟩⟩)

/-! Writing a file moves no route. -/

theorem getElem?_setFile (routes : List Route) (i : ℕ) (kind : FileKind) (file_id j : ℕ) :
    (routes.modify i (Route.setFile kind file_id))[j]? =
      (routes[j]?).map fun r => if i = j then r.setFile kind file_id else r := by
  rw [getElem?_modify]
  cases routes[j]? with
  | none => rfl
  | some r => rfl

theorem setFile_same (kind : FileKind) (file_id i j : ℕ) (r : Route) :
    (if i = j then r.setFile kind file_id else r) =
      { r with
        file_page := if i = j ∧ kind = .page then some file_id else r.file_page
        file_layout := if i = j ∧ kind = .layout then some file_id else r.file_layout } := by
  by_cases hij : i = j
  · cases kind <;> simp [hij, Route.setFile]
  · simp [hij]

/-- Setting a file changes no link and no place. -/
theorem Grown.setFile {routes : List Route} (h : Grown routes places) (i : ℕ) (kind : FileKind)
    (file_id : ℕ) : Grown (routes.modify i (Route.setFile kind file_id)) places := by
  have hold : ∀ {j : ℕ} {r' : Route}, (routes.modify i (Route.setFile kind file_id))[j]? = some r' →
      ∃ r, routes[j]? = some r ∧ r'.type = r.type ∧ r'.part = r.part ∧ r'.parent = r.parent ∧
        r'.first_child = r.first_child := by
    intro j r' hr'
    rw [getElem?_setFile] at hr'
    obtain ⟨r, hr, rfl⟩ := map_eq_some_iff.1 hr'
    rw [setFile_same]
    exact ⟨r, hr, rfl, rfl, rfl, rfl⟩
  have hnx : nextOf (routes.modify i (Route.setFile kind file_id)) = nextOf routes := by
    funext j
    rw [nextOf, nextOf, getElem?_setFile]
    cases routes[j]? with
    | none => rfl
    | some r =>
      rw [map_some, setFile_same]
      rfl
  refine ⟨?_, h.nodup, ?_, ?_, ?_, ?_, ?_⟩
  · rw [length_modify, h.length]
  · intro j r' p hr' hp
    obtain ⟨r, hr, heq, -⟩ := hold hr'
    rw [heq, h.type hr hp]
  · intro j r' p hr' hp
    obtain ⟨r, hr, -, heq, -⟩ := hold hr'
    rw [heq, h.part hr hp]
  · intro j r' ty hr' hp
    obtain ⟨r, hr, -, -, heq, -⟩ := hold hr'
    rw [heq, h.root hr hp]
  · intro j r' ty ps a hr' hp
    obtain ⟨r, hr, -, -, heq, -⟩ := hold hr'
    rw [heq]
    exact h.parent hr hp
  · intro j r' p hr' hp
    obtain ⟨r, hr, -, -, -, heq⟩ := hold hr'
    rw [heq, hnx]
    exact h.children hr hp

theorem backs_setFile (routes : List Route) (i : ℕ) (kind : FileKind) (file_id : ℕ) :
    Backs (routes.modify i (Route.setFile kind file_id)) places ↔ Backs routes places := by
  have hpr : prevOf (routes.modify i (Route.setFile kind file_id)) = prevOf routes := by
    funext j
    rw [prevOf, prevOf, getElem?_setFile]
    cases routes[j]? with
    | none => rfl
    | some r =>
      rw [map_some, setFile_same]
      rfl
  rw [Backs, Backs, hpr]

theorem Route.setFile_file (r : Route) (kind kind' : FileKind) (file_id : ℕ) :
    (r.setFile kind file_id).file kind' = if kind = kind' then some file_id else r.file kind' := by
  cases kind <;> cases kind' <;> rfl

theorem Grown.filed_setFile {routes : List Route} (h : Grown routes places) {i : ℕ}
    (hi : places[i]? = some ins.place) (hfl : Filed routes places (firstFile done))
    (hno : firstFile done ins.place ins.file_kind = none) :
    Filed (routes.modify i (Route.setFile ins.file_kind ins.file_id)) places
      (firstFile (done ++ [ins])) := by
  intro j r' p hr' hp kind
  rw [getElem?_setFile] at hr'
  obtain ⟨r, hr, rfl⟩ := map_eq_some_iff.1 hr'
  rw [firstFile_concat]
  by_cases hij : i = j
  · subst hij
    obtain rfl := some.inj (hi.symm.trans hp)
    rw [if_pos rfl, Route.setFile_file, hfl i r _ hr hp kind]
    by_cases hkn : ins.file_kind = kind
    · subst hkn
      rw [if_pos rfl, hno, if_pos ⟨rfl, rfl⟩, none_or]
    · rw [if_neg hkn, if_neg fun hand => hkn hand.2, or_none]
  · have hne : ¬(ins.place = p ∧ ins.file_kind = kind) := by
      rintro ⟨rfl, -⟩
      exact hij (h.inj hi hp)
    rw [if_neg hij, if_neg hne, or_none]
    exact hfl j r p hr hp kind

/-- An insertion keeps what is stored, or panics because of an alias. -/
theorem Stored.insert (h : Stored hash n done fr places) (hins : ins.Parsed n) {pattern : Pattern}
    (hpt : pattern.parts = some ins.path) (hkey : pattern.key hash = some (ins.key hash)) :
    fr.insert hash ins.ty pattern ins.file_kind ins.file_id = none ∧
        ¬Unaliased hash (done ++ [ins]) ∨
      ∃ fr' result places', fr.insert hash ins.ty pattern ins.file_kind ins.file_id =
          some (fr', result) ∧ Stored hash n (done ++ [ins]) fr' places' ∧
        (Backs fr'.routes places' ↔ Backs fr.routes places ∧ ¬Beside done ins) := by
  obtain ⟨routes', new, places', hru, hgr, hnew, hmem, hbc⟩ :=
    h.grown.routeFor (h.roots ins.ty hins.type) ins.path
  rw [h.madeBeside_iff hins.type] at hbc
  obtain ⟨r, hr⟩ := hgr.grown.exists_route hnew
  have hfl := hgr.filed h.firstFile_eq_none h.filed
  have hfi : r.file ins.file_kind = firstFile done ins.place ins.file_kind :=
    hfl new r _ hr hnew _
  have hpr : ∀ e ∈ done ++ [ins], e.Parsed n := by
    intro e he
    rcases mem_append.1 he with he | he
    · exact h.parsed e he
    · rwa [mem_singleton.1 he]
  have hrt : ∀ ty < n, places'[ty]? = some (ty, []) := by
    intro ty hty
    obtain ⟨more, rfl⟩ := hgr.kept
    have hold := h.roots ty hty
    rw [getElem?_append_left (List.getElem?_eq_some_iff.1 hold).1, hold]
  have hmem' : ∀ ty ps, (ty, ps) ∈ places' ↔
      ty < n ∧ (ps = [] ∨ ∃ e ∈ done ++ [ins], e.ty = ty ∧ ps <+: e.path) := by
    intro ty ps
    rw [hmem, h.mem]
    constructor
    · rintro (⟨hty, rfl | ⟨e, he, heq, hps⟩⟩ | ⟨qs, hqs, heq⟩)
      · exact ⟨hty, .inl rfl⟩
      · exact ⟨hty, .inr ⟨e, mem_append_left _ he, heq, hps⟩⟩
      · obtain ⟨rfl, rfl⟩ := Prod.mk.inj heq
        exact ⟨hins.type, .inr ⟨ins, mem_concat_self, rfl, hqs⟩⟩
    · rintro ⟨hty, rfl | ⟨e, he, rfl, hps⟩⟩
      · exact .inl ⟨hty, .inl rfl⟩
      · rcases mem_append.1 he with he | he
        · exact .inl ⟨hty, .inr ⟨e, he, rfl, hps⟩⟩
        · obtain rfl := mem_singleton.1 he
          exact .inr ⟨ps, hps, rfl⟩
  have huf : fr.insert hash ins.ty pattern ins.file_kind ins.file_id =
      (r.file ins.file_kind).elim
        (ins.file_kind.casesOn
          (((⟨routes'.modify new (Route.setFile ins.file_kind ins.file_id), fr.static_routes,
            fr.dynamic_routes⟩ : Router).register hash new pattern).map fun fr => (fr, .ok))
          (some (⟨routes'.modify new (Route.setFile ins.file_kind ins.file_id), fr.static_routes,
            fr.dynamic_routes⟩, .ok)))
        fun existing =>
          if existing = ins.file_id then some ({ fr with routes := routes' }, .ok)
          else some ({ fr with routes := routes' }, .RouteCollision existing) := by
    rw [Router.insert, hpt, bind_some, hru, bind_some]
    refine (congrArg (fun o => Option.bind o _) hr).trans ?_
    rw [bind_some]
    rcases r.file ins.file_kind with _ | existing
    · cases ins.file_kind <;> rfl
    · rfl
  rw [huf, hfi]
  cases hfr : firstFile done ins.place ins.file_kind with
  | some existing =>
    obtain ⟨e, he, ⟨hpl, hkn⟩, -⟩ := exists_of_firstFile hfr
    have hsm : firstFile (done ++ [ins]) = firstFile done := by
      funext p kind
      rw [firstFile_concat]
      by_cases hp : ins.place = p ∧ ins.file_kind = kind
      · obtain ⟨rfl, rfl⟩ := hp
        rw [hfr]
        rfl
      · rw [if_neg hp, or_none]
    have hst : Stored hash n (done ++ [ins])
        ⟨routes', fr.static_routes, fr.dynamic_routes⟩ places' := by
      refine ⟨hgr.grown, hpr, hrt, hmem', hsm ▸ hfl, fun k => ?_, ?_⟩
      · refine (h.keys k).trans ⟨?_, ?_⟩
        · rintro ⟨d, hd, hrs⟩
          exact ⟨d, mem_append_left _ hd, hrs⟩
        · rintro ⟨d, hd, hpg, rfl⟩
          rcases mem_append.1 hd with hd | hd
          · exact ⟨d, hd, hpg, rfl⟩
          · obtain rfl := mem_singleton.1 hd
            exact ⟨e, he, hkn.trans hpg, Insertion.key_eq_of_place hpl⟩
      · refine unaliased_concat.2 ⟨h.unaliased, fun hpg d hd hpg' hkey' => ?_⟩
        rw [← hpl]
        refine h.unaliased d hd e he hpg' (hkn.trans hpg) ?_
        rw [hkey', Insertion.key_eq_of_place hpl]
    by_cases heq : existing = ins.file_id
    · exact .inr ⟨_, _, places', if_pos heq, hst, hbc⟩
    · exact .inr ⟨_, _, places', if_neg heq, hst, hbc⟩
  | none =>
    have hgw' := hgr.grown.setFile new ins.file_kind ins.file_id
    have hfl' := hgr.grown.filed_setFile hnew hfl hfr
    rw [← backs_setFile routes' new ins.file_kind ins.file_id] at hbc
    cases hkn : ins.file_kind with
    | layout =>
      rw [hkn] at hgw' hfl' hbc
      refine .inr ⟨_, _, places', rfl, ⟨hgw', hpr, hrt, hmem', hfl', fun k => ?_, ?_⟩,
        hbc⟩
      · refine (h.keys k).trans ⟨?_, ?_⟩
        · rintro ⟨d, hd, hrs⟩
          exact ⟨d, mem_append_left _ hd, hrs⟩
        · rintro ⟨d, hd, hpg, rfl⟩
          rcases mem_append.1 hd with hd | hd
          · exact ⟨d, hd, hpg, rfl⟩
          · rw [mem_singleton.1 hd, hkn] at hpg
            exact nomatch hpg
      · refine unaliased_concat.2 ⟨h.unaliased, fun hpg => ?_⟩
        rw [hkn] at hpg
        exact nomatch hpg
    | page =>
      have hfe : ∀ e ∈ done, e.file_kind = .page → e.place ≠ ins.place := fun e he hpg heq =>
        FrameworkRouter.firstFile_eq_none.1 hfr e he ⟨heq, hpg.trans hkn.symm⟩
      rw [hkn] at hgw' hfl' hbc
      by_cases hreg : Router.Registered hash ⟨routes'.modify new (Route.setFile .page ins.file_id),
        fr.static_routes, fr.dynamic_routes⟩ (ins.key hash)
      · refine .inl ⟨?_, fun hun => ?_⟩
        · simp only
          rw [register_eq_none new hkey hreg]
          rfl
        · obtain ⟨e, he, hpg, hkey'⟩ := (h.keys _).1 hreg
          exact hfe e he hpg ((unaliased_concat.1 hun).2 hkn e he hpg hkey')
      · obtain ⟨fr', hfr', hro, hky⟩ := exists_register new hkey hreg
        have hin : (Router.register hash ⟨routes'.modify new
            (Route.setFile .page ins.file_id), fr.static_routes, fr.dynamic_routes⟩ new
              pattern).map (fun fr => (fr, InsertResult.ok)) = some (fr', .ok) := by
          rw [hfr']
          rfl
        have hro : fr'.routes = routes'.modify new (Route.setFile .page ins.file_id) := hro
        rw [← hro] at hgw' hfl' hbc
        refine .inr ⟨fr', .ok, places', hin, ⟨hgw', hpr, hrt, hmem', hfl',
          fun k => ?_, ?_⟩, hbc⟩
        · refine (hky k).trans ⟨?_, ?_⟩
          · rintro (hk | rfl)
            · obtain ⟨d, hd, hrs⟩ := (h.keys k).1 hk
              exact ⟨d, mem_append_left _ hd, hrs⟩
            · exact ⟨ins, mem_concat_self, hkn, rfl⟩
          · rintro ⟨d, hd, hpg, rfl⟩
            rcases mem_append.1 hd with hd | hd
            · exact .inl ((h.keys _).2 ⟨d, hd, hpg, rfl⟩)
            · exact .inr (by rw [mem_singleton.1 hd])
        · refine unaliased_concat.2 ⟨h.unaliased, fun _ e he hpg hkey' => ?_⟩
          exact absurd ((h.keys _).2 ⟨e, he, hpg, hkey'⟩) hreg

end Step

/-! ## A whole scan -/

/-- Somewhere in the order, a file has its routes made beside an older sibling. -/
def SomeBeside (is : List Insertion) : Prop :=
  ∃ done ins rest, is = done ++ ins :: rest ∧ Beside done ins

/-- The same, of what comes behind the first insertions. -/
def SomeBesideFrom (done is : List Insertion) : Prop :=
  ∃ more ins rest, is = more ++ ins :: rest ∧ Beside (done ++ more) ins

theorem someBesideFrom_cons {rest : List Insertion} :
    SomeBesideFrom done (ins :: rest) ↔
      Beside done ins ∨ SomeBesideFrom (done ++ [ins]) rest := by
  constructor
  · rintro ⟨more, e, tail, heq, h⟩
    cases more with
    | nil =>
      obtain ⟨rfl, -⟩ := List.cons.inj heq
      rw [append_nil] at h
      exact .inl h
    | cons d more =>
      obtain ⟨rfl, rfl⟩ := List.cons.inj heq
      refine .inr ⟨more, e, tail, rfl, ?_⟩
      rwa [append_assoc]
  · rintro (h | ⟨more, e, tail, rfl, h⟩)
    · exact ⟨[], ins, rest, rfl, by rwa [append_nil]⟩
    · refine ⟨ins :: more, e, tail, rfl, ?_⟩
      rwa [append_assoc] at h

theorem someBesideFrom_nil : SomeBesideFrom [] is ↔ SomeBeside is := Iff.rfl

theorem Stored.scan : ∀ {is done : List Insertion} {fr : Router}
    {places : List Place}, Stored hash n done fr places → (∀ ins ∈ is, ins.Parsed n) →
      fr.scan hash is = none ∧ ¬Unaliased hash (done ++ is) ∨
        ∃ fr' places', fr.scan hash is = some fr' ∧ Stored hash n (done ++ is) fr' places' ∧
          (Backs fr'.routes places' ↔ Backs fr.routes places ∧ ¬SomeBesideFrom done is)
  | [], done, fr, places, h, _ => by
    refine .inr ⟨fr, places, rfl, by rwa [append_nil], (and_iff_left ?_).symm⟩
    rintro ⟨more, ins, rest, heq, -⟩
    exact absurd heq.symm (append_ne_nil_of_right_ne_nil _ (cons_ne_nil _ _))
  | ins :: rest, done, fr, places, h, his => by
    have hins := his ins mem_cons_self
    obtain ⟨pattern, hpt, hpr, hkey⟩ := hins.pattern hash
    have hac : done ++ ins :: rest = done ++ [ins] ++ rest := by
      rw [append_assoc]
      rfl
    rw [Router.scan, hpt, bind_some, hac]
    rcases h.insert hins hpr hkey with
      ⟨hno, hal⟩ | ⟨fr', result, places', hin, hst, hbc⟩
    · rw [hno]
      exact .inl ⟨rfl, fun hun => hal hun.of_append⟩
    · rw [hin, bind_some]
      rcases hst.scan fun e he => his e (mem_cons_of_mem ins he) with
        hfl | ⟨fr'', places'', hsc, hst', hbc'⟩
      · exact .inl hfl
      · refine .inr ⟨fr'', places'', hsc, hst', ?_⟩
        rw [hbc', hbc, someBesideFrom_cons, not_or, and_assoc]

theorem getElem?_roots {ty : ℕ} (hty : ty < n) :
    ((List.range n).map fun ty => ((ty, []) : Place))[ty]? = some (ty, []) := by
  rw [getElem?_map, List.getElem?_range hty]
  rfl

theorem kids_roots (n : ℕ) (p : Place) :
    kids ((List.range n).map fun ty => ((ty, []) : Place)) p = [] := by
  refine eq_nil_iff_forall_not_mem.2 fun j hj => ?_
  obtain ⟨a, hj⟩ := mem_kids.1 hj
  obtain ⟨ty, -, heq⟩ := List.mem_map.1 (mem_of_getElem? hj)
  exact append_ne_nil_of_right_ne_nil _ (cons_ne_nil a []) (Prod.mk.inj heq).2.symm

/-- Before any insertion there are the roots. -/
theorem stored_initEmpty (hash : List UInt8 → ℕ) (n : ℕ) :
    Stored hash n [] (initEmpty n) ((List.range n).map fun ty => (ty, [])) ∧
      Backs (initEmpty n).routes ((List.range n).map fun ty => (ty, [])) := by
  have hrt : ∀ {i : ℕ} {r : Route}, (initEmpty n).routes[i]? = some r →
      r = ⟨.text [], i, none, none, none, none, none, none⟩ := by
    intro i r hr
    rw [initEmpty, getElem?_map] at hr
    obtain ⟨ty, hty, rfl⟩ := map_eq_some_iff.1 hr
    obtain ⟨hlt, rfl⟩ := List.getElem?_eq_some_iff.1 hty
    rw [getElem_range]
  have hpl : ∀ {i : ℕ} {p : Place},
      ((List.range n).map fun ty => ((ty, []) : Place))[i]? = some p → p = (i, []) := by
    intro i p hp
    rw [getElem?_map] at hp
    obtain ⟨ty, hty, rfl⟩ := map_eq_some_iff.1 hp
    obtain ⟨hlt, rfl⟩ := List.getElem?_eq_some_iff.1 hty
    rw [getElem_range]
  refine ⟨⟨⟨?_, ?_, ?_, ?_, ?_, ?_, ?_⟩, nofun, fun ty => getElem?_roots, ?_, ?_, ?_, nofun⟩, ?_⟩
  · rw [initEmpty, length_map, length_map]
  · exact List.nodup_range.map fun a b hab => (Prod.mk.inj hab).1
  · intro i r p hr hp
    rw [hrt hr, hpl hp]
  · intro i r p hr hp
    rw [hrt hr, hpl hp]
    rfl
  · intro i r ty hr hp
    rw [hrt hr]
  · intro i r ty ps a hr hp
    exact absurd (Prod.mk.inj (hpl hp)).2
      (append_ne_nil_of_right_ne_nil _ (cons_ne_nil a []))
  · intro i r p hr hp
    rw [hrt hr, kids_roots]
    rfl
  · intro ty ps
    rw [List.mem_map]
    constructor
    · rintro ⟨ty', hty, heq⟩
      obtain ⟨rfl, rfl⟩ := Prod.mk.inj heq
      exact ⟨mem_range.1 hty, .inl rfl⟩
    · rintro ⟨hty, rfl | ⟨e, he, -⟩⟩
      · exact ⟨ty, mem_range.2 hty, rfl⟩
      · exact absurd he not_mem_nil
  · intro i r p hr hp kind
    rw [hrt hr]
    cases kind <;> rfl
  · intro k
    cases k with
    | inl url =>
      constructor <;> rintro ⟨e, he, -⟩ <;> exact nomatch he
    | inr url_hash =>
      constructor <;> rintro ⟨e, he, -⟩ <;> exact nomatch he
  · intro p _
    rw [kids_roots]
    exact trivial

/-! ## Two orders -/

def partOf (routes : List Route) (j : ℕ) : Option Part := (routes[j]?).map Route.part

/-- Every route's children form a doubly linked list, link to it and differ in their parts. -/
def Linked (routes : List Route) : Prop :=
  ∀ (i : ℕ) (r : Route), routes[i]? = some r →
    ∃ cs, IsDList (nextOf routes) (prevOf routes) none r.first_child cs ∧
      (∀ j, j ∈ cs ↔ ∃ c, routes[j]? = some c ∧ c.parent = some i) ∧
      (cs.map (partOf routes)).Nodup

/-- Two trees under a renumbering of the routes; the children of a route come in any order. -/
structure Renumbers (σ : ℕ → ℕ) (routes routes' : List Route) : Prop where
  lt : ∀ i < routes.length, σ i < routes'.length
  inj : ∀ i < routes.length, ∀ j < routes.length, σ i = σ j → i = j
  onto : ∀ j < routes'.length, ∃ i < routes.length, σ i = j
  same : ∀ (i : ℕ) (r r' : Route), routes[i]? = some r → routes'[σ i]? = some r' →
    r'.part = r.part ∧ r'.type = r.type ∧ (∀ kind, r'.file kind = r.file kind) ∧
      r'.parent = r.parent.map σ ∧
      ∃ cs cs', IsList (nextOf routes) r.first_child cs ∧
        IsList (nextOf routes') r'.first_child cs' ∧ cs'.Perm (cs.map σ)

/-- The same tree, with its nodes numbered differently. -/
def SameTree (routes routes' : List Route) : Prop := ∃ σ, Renumbers σ routes routes'

section Orders

variable {routes routes' : List Route} {places places' : List Place}

theorem nodup_kids (places : List Place) (p : Place) : (kids places p).Nodup :=
  List.nodup_range.filter _

/-- The children of a node are the nodes that name it as their parent. -/
theorem Grown.parent_iff (h : Grown routes places) {i j : ℕ} {p : Place}
    (hi : places[i]? = some p) :
    j ∈ kids places p ↔ ∃ c, routes[j]? = some c ∧ c.parent = some i := by
  constructor
  · intro hj
    obtain ⟨a, hj⟩ := mem_kids.1 hj
    obtain ⟨c, hc⟩ := h.exists_route hj
    obtain ⟨k, hk, hpl⟩ := h.parent hc hj
    exact ⟨c, hc, by rw [hk, h.inj hpl hi]⟩
  · rintro ⟨c, hc, hpr⟩
    obtain ⟨⟨ty, ps⟩, hj⟩ := h.exists_place hc
    induction ps using List.reverseRecOn with
    | nil => rw [h.root hc hj] at hpr; exact nomatch hpr
    | append_singleton ps a _ =>
      obtain ⟨k, hk, hpl⟩ := h.parent hc hj
      obtain rfl : k = i := some.inj (hk.symm.trans hpr)
      obtain rfl := some.inj (hpl.symm.trans hi)
      exact mem_kids.2 ⟨a, hj⟩

theorem Grown.nodup_parts (h : Grown routes places) (p : Place) :
    ((kids places p).map (partOf routes)).Nodup := by
  refine (nodup_kids places p).map_on fun j hj k hk heq => ?_
  obtain ⟨a, hj⟩ := mem_kids.1 hj
  obtain ⟨b, hk⟩ := mem_kids.1 hk
  obtain ⟨r, hr⟩ := h.exists_route hj
  obtain ⟨s, hs⟩ := h.exists_route hk
  rw [partOf, partOf, hr, hs, map_some, map_some, h.part hr hj, h.part hs hk,
    getLast?_concat, getLast?_concat] at heq
  obtain rfl : a = b := some.inj heq
  exact h.inj hj hk

theorem Grown.linked_iff (h : Grown routes places) : Linked routes ↔ Backs routes places := by
  constructor
  · intro hln p hp
    obtain ⟨i, hi⟩ := mem_iff_getElem?.1 hp
    obtain ⟨r, hr⟩ := h.exists_route hi
    obtain ⟨cs, hls, -⟩ := hln i r hr
    rw [isDList_iff] at hls
    rw [← hls.1.unique (h.children hr hi)]
    exact hls.2
  · intro hbc i r hr
    obtain ⟨p, hi⟩ := h.exists_place hr
    exact ⟨kids places p, isDList_iff.2 ⟨h.children hr hi, hbc p (mem_of_getElem? hi)⟩,
      fun j => h.parent_iff hi, h.nodup_parts p⟩

/-- The number of a node's place. -/
def indexOf (places : List Place) (p : Option Place) : ℕ := p.elim 0 (places.idxOf ·)

theorem getElem?_indexOf {p : Place} (hp : p ∈ places) :
    places[indexOf places (some p)]? = some p := by
  rw [indexOf, elim_some, getElem?_idxOf hp]

/-- Routes at the same places with the same files are the same tree. -/
theorem Grown.sameTree (h : Grown routes places) (h' : Grown routes' places')
    (hmem : ∀ p, p ∈ places ↔ p ∈ places') {files : Place → FileKind → Option ℕ}
    (hfl : Filed routes places files) (hfl' : Filed routes' places' files) :
    SameTree routes routes' := by
  have hpl : ∀ {i : ℕ} {p : Place}, places[i]? = some p →
      places'[indexOf places' places[i]?]? = some p := by
    intro i p hi
    rw [hi]
    exact getElem?_indexOf ((hmem p).1 (mem_of_getElem? hi))
  refine ⟨fun i => indexOf places' places[i]?, ?_, ?_, ?_, ?_⟩
  · intro i hi
    rw [h.length] at hi
    have hp := hpl (getElem?_eq_getElem hi)
    exact h'.length ▸ (List.getElem?_eq_some_iff.1 hp).1
  · intro i hi j hj heq
    rw [h.length] at hi hj
    have hp := hpl (getElem?_eq_getElem hi)
    have hq := hpl (getElem?_eq_getElem hj)
    rw [heq, hq] at hp
    exact h.inj (getElem?_eq_getElem hi) (hp ▸ getElem?_eq_getElem hj)
  · intro j hj
    rw [h'.length] at hj
    have hp := (hmem _).2 (getElem_mem hj)
    obtain ⟨i, hi⟩ := mem_iff_getElem?.1 hp
    exact ⟨i, h.length ▸ (List.getElem?_eq_some_iff.1 hi).1,
      h'.inj (hpl hi) (getElem?_eq_getElem hj)⟩
  · intro i r r' hr hr'
    obtain ⟨p, hi⟩ := h.exists_place hr
    have hi' := hpl hi
    refine ⟨?_, ?_, fun kind => ?_, ?_, kids places p, kids places' p, h.children hr hi,
      h'.children hr' hi', ?_⟩
    · rw [h'.part hr' hi', h.part hr hi]
    · rw [h'.type hr' hi', h.type hr hi]
    · rw [hfl' _ _ _ hr' hi', hfl _ _ _ hr hi]
    · obtain ⟨ty, ps⟩ := p
      induction ps using List.reverseRecOn with
      | nil => rw [h.root hr hi, h'.root hr' hi']; rfl
      | append_singleton ps a _ =>
        obtain ⟨k, hk, hup⟩ := h.parent hr hi
        obtain ⟨k', hk', hup'⟩ := h'.parent hr' hi'
        rw [hk, hk', map_some, h'.inj hup' (hpl hup)]
    · refine (perm_ext_iff_of_nodup (nodup_kids places' p) ?_).2 fun j => ?_
      · refine (nodup_kids places p).map_on fun j hj k hk heq => ?_
        obtain ⟨a, hj⟩ := mem_kids.1 hj
        obtain ⟨b, hk⟩ := mem_kids.1 hk
        have hj' := hpl hj
        rw [heq, hpl hk] at hj'
        exact h.inj hj (hj' ▸ hk)
      · rw [List.mem_map]
        constructor
        · intro hj
          obtain ⟨a, hj⟩ := mem_kids.1 hj
          obtain ⟨k, hk⟩ := mem_iff_getElem?.1 ((hmem _).2 (mem_of_getElem? hj))
          exact ⟨k, mem_kids.2 ⟨a, hk⟩, h'.inj (hpl hk) hj⟩
        · rintro ⟨k, hk, rfl⟩
          obtain ⟨a, hk⟩ := mem_kids.1 hk
          exact mem_kids.2 ⟨a, hpl hk⟩

/-- A renumbering keeps the place of each node. -/
theorem Renumbers.place {σ : ℕ → ℕ} (hσ : Renumbers σ routes routes') (h : Grown routes places)
    (h' : Grown routes' places') {ty : ℕ} {ps : List Part} : ∀ {i : ℕ},
      places[i]? = some (ty, ps) → places'[σ i]? = some (ty, ps) := by
  induction ps using List.reverseRecOn with
  | nil =>
    intro i hi
    obtain ⟨r, hr⟩ := h.exists_route hi
    have hlt := hσ.lt i (List.getElem?_eq_some_iff.1 hr).1
    have hr' := getElem?_eq_getElem hlt
    obtain ⟨⟨ty', qs⟩, hi'⟩ := h'.exists_place hr'
    obtain ⟨-, hty, -, hpr, -⟩ := hσ.same i r _ hr hr'
    rw [h'.type hr' hi', h.type hr hi] at hty
    rw [h.root hr hi] at hpr
    obtain rfl : ty' = ty := hty
    rw [hi']
    induction qs using List.reverseRecOn with
    | nil => rfl
    | append_singleton qs a _ =>
      obtain ⟨k, hk, -⟩ := h'.parent hr' hi'
      rw [hk] at hpr
      exact nomatch hpr
  | append_singleton ps a ih =>
    intro i hi
    obtain ⟨r, hr⟩ := h.exists_route hi
    have hlt := hσ.lt i (List.getElem?_eq_some_iff.1 hr).1
    have hr' := getElem?_eq_getElem hlt
    obtain ⟨⟨ty', qs⟩, hi'⟩ := h'.exists_place hr'
    obtain ⟨hpt, -, -, hpr, -⟩ := hσ.same i r _ hr hr'
    obtain ⟨j, hj, hup⟩ := h.parent hr hi
    rw [h'.part hr' hi', h.part hr hi] at hpt
    rw [hj] at hpr
    induction qs using List.reverseRecOn with
    | nil =>
      rw [h'.root hr' hi'] at hpr
      exact nomatch hpr
    | append_singleton qs b _ =>
      obtain ⟨k, hk, hup'⟩ := h'.parent hr' hi'
      rw [hk] at hpr
      obtain rfl : k = σ j := some.inj hpr
      obtain ⟨rfl, rfl⟩ := Prod.mk.inj (some.inj (hup'.symm.trans (ih hup)))
      rw [getLast?_concat, getLast?_concat] at hpt
      obtain rfl : b = a := hpt
      exact hi'

end Orders

/-- The same file comes first at each place, in both orders. -/
def SameFirst (is is' : List Insertion) : Prop :=
  ∀ p kind, firstFile is p kind = firstFile is' p kind

theorem sameFirst_of_perm (hpr : is.Perm is')
    (h : ∀ a ∈ is, ∀ b ∈ is, a.place = b.place → a.file_kind = b.file_kind →
      a.file_id = b.file_id) : SameFirst is is' := by
  intro p kind
  cases hfr : firstFile is p kind with
  | none =>
    refine (firstFile_eq_none.2 fun ins hins => ?_).symm
    exact firstFile_eq_none.1 hfr ins (hpr.mem_iff.2 hins)
  | some file_id =>
    obtain ⟨a, ha, hat, rfl⟩ := exists_of_firstFile hfr
    cases hfr' : firstFile is' p kind with
    | none => exact absurd hat (firstFile_eq_none.1 hfr' a (hpr.mem_iff.1 ha))
    | some file_id' =>
      obtain ⟨b, hb, hbt, rfl⟩ := exists_of_firstFile hfr'
      have heq := h a ha b (hpr.mem_iff.2 hb) (hat.1.trans hbt.1.symm) (hat.2.trans hbt.2.symm)
      rw [heq]

/-- Two scans of the same files make the same tree, and both link it rightly. -/
def OrderFree (hash : List UInt8 → ℕ) (n : ℕ) (is is' : List Insertion) : Prop :=
  ∃ fr fr', (initEmpty n).scan hash is = some fr ∧ (initEmpty n).scan hash is' = some fr' ∧
    SameTree fr.routes fr'.routes ∧ Linked fr.routes ∧ Linked fr'.routes

theorem scan_initEmpty (hash : List UInt8 → ℕ)
    (his : ∀ ins ∈ is, ins.Parsed n) :
    (initEmpty n).scan hash is = none ∧ ¬Unaliased hash is ∨
      ∃ fr places, (initEmpty n).scan hash is = some fr ∧ Stored hash n is fr places ∧
        (Linked fr.routes ↔ ¬SomeBeside is) := by
  obtain ⟨hst, hbc⟩ := stored_initEmpty hash n
  rcases hst.scan his with hfl | ⟨fr, places, hsc, hst', hbc'⟩
  · exact .inl hfl
  · refine .inr ⟨fr, places, hsc, hst', ?_⟩
    rw [hst'.grown.linked_iff, hbc', and_iff_right hbc, someBesideFrom_nil]

theorem Stored.mem_iff_of_perm
    {fr fr' : Router} {places places' : List Place} (h : Stored hash n is fr places)
    (h' : Stored hash n is' fr' places') (hpr : is.Perm is') (p : Place) :
    p ∈ places ↔ p ∈ places' := by
  obtain ⟨ty, ps⟩ := p
  rw [h.mem, h'.mem]
  simp only [hpr.mem_iff]

/-- Exactly when the order of insertions makes no difference, and every list is linked. -/
theorem orderFree_iff {hash : List UInt8 → ℕ} {n : ℕ} {is is' : List Insertion}
    (hperm : is.Perm is') (his : ∀ ins ∈ is, ins.Parsed n) :
    OrderFree hash n is is' ↔
      Unaliased hash is ∧ SameFirst is is' ∧ ¬SomeBeside is ∧ ¬SomeBeside is' := by
  have his' : ∀ ins ∈ is', ins.Parsed n := fun ins hins => his ins (hperm.mem_iff.2 hins)
  have halias : Unaliased hash is ↔ Unaliased hash is' := by
    simp only [Unaliased, hperm.mem_iff]
  rcases scan_initEmpty hash his with
    ⟨hnone, hun⟩ | ⟨fr, places, hscan, hstored, hlinked⟩
  · refine iff_of_false ?_ fun hall => hun hall.1
    rintro ⟨fr, -, hsome, -⟩
    rw [hnone] at hsome
    exact nomatch hsome
  rcases scan_initEmpty hash his' with
    ⟨hnone, hun⟩ | ⟨fr', places', hscan', hstored', hlinked'⟩
  · refine iff_of_false ?_ fun hall => hun (halias.1 hall.1)
    rintro ⟨-, fr', -, hsome, -⟩
    rw [hnone] at hsome
    exact nomatch hsome
  have hmem := hstored.mem_iff_of_perm hstored' hperm
  constructor
  · rintro ⟨r, r', hr, hr', ⟨σ, hσ⟩, hl, hl'⟩
    obtain rfl := some.inj (hr.symm.trans hscan)
    obtain rfl := some.inj (hr'.symm.trans hscan')
    refine ⟨hstored.unaliased, fun p kind => ?_, hlinked.1 hl, hlinked'.1 hl'⟩
    by_cases hp : p ∈ places
    · obtain ⟨i, hi⟩ := mem_iff_getElem?.1 hp
      obtain ⟨s, hs⟩ := hstored.grown.exists_route hi
      have hi' := hσ.place hstored.grown hstored'.grown hi
      obtain ⟨s', hs'⟩ := hstored'.grown.exists_route hi'
      rw [← hstored.filed i s p hs hi kind, ← hstored'.filed _ s' p hs' hi' kind]
      exact ((hσ.same i s s' hs hs').2.2.1 kind).symm
    · rw [hstored.firstFile_eq_none p hp, hstored'.firstFile_eq_none p fun h => hp ((hmem p).2 h)]
  · rintro ⟨-, hfirst, hside, hside'⟩
    refine ⟨fr, fr', hscan, hscan', ?_, hlinked.2 hside, hlinked'.2 hside'⟩
    have hfiles : firstFile is = firstFile is' := funext fun p => funext fun kind => hfirst p kind
    exact hstored.grown.sameTree hstored'.grown hmem (hfiles ▸ hstored.filed) hstored'.filed

/-- `/a` and `/b` -/
theorem orderFree_siblings :
    OrderFree (fun _ => 0) 1 [⟨0, [.text [0x61]], .page, 1⟩, ⟨0, [.text [0x62]], .page, 2⟩]
      [⟨0, [.text [0x62]], .page, 2⟩, ⟨0, [.text [0x61]], .page, 1⟩] := by
  have hshort : ∀ {is : List Insertion}, (∀ ins ∈ is, ins.path.length ≤ 1) → ¬SomeBeside is := by
    rintro is hle ⟨done, ins, rest, rfl, cs, a, b, tail, c, hpath, -⟩
    have hlen := hle ins (mem_append_right done mem_cons_self)
    rw [hpath] at hlen
    simp only [length_append, length_cons] at hlen
    omega
  have hperm := Perm.swap (⟨0, [.text [0x62]], .page, 2⟩ : Insertion)
    ⟨0, [.text [0x61]], .page, 1⟩ []
  refine (orderFree_iff hperm fun ins hins => ?_).2 ⟨fun a ha b hb _ _ hkey => ?_,
    sameFirst_of_perm hperm fun a ha b hb hplace _ => ?_, hshort ?_, hshort ?_⟩
  · rcases mem_pair.1 hins with rfl | rfl <;>
      exact ⟨by decide, by decide, by decide, by decide⟩
  · rcases mem_pair.1 ha with rfl | rfl <;> rcases mem_pair.1 hb with rfl | rfl <;>
      first | rfl | exact absurd hkey (by decide)
  · rcases mem_pair.1 ha with rfl | rfl <;> rcases mem_pair.1 hb with rfl | rfl <;>
      first | rfl | exact absurd hplace (by decide)
  · decide
  · decide

/-- `/a` and then `/b/c`: the route of `c` links back to `a`. -/
theorem not_orderFree_nested :
    ¬OrderFree (fun _ => 0) 1
      [⟨0, [.text [0x61]], .page, 1⟩, ⟨0, [.text [0x62], .text [0x63]], .page, 2⟩]
      [⟨0, [.text [0x62], .text [0x63]], .page, 2⟩, ⟨0, [.text [0x61]], .page, 1⟩] := by
  rintro ⟨fr, -, hscan, -, -, hlinked, -⟩
  have hparsed : ∀ ins ∈ [(⟨0, [.text [0x61]], .page, 1⟩ : Insertion),
      ⟨0, [.text [0x62], .text [0x63]], .page, 2⟩], ins.Parsed 1 := by
    intro ins hins
    rcases mem_pair.1 hins with rfl | rfl <;>
      exact ⟨by decide, by decide, by decide, by decide⟩
  rcases scan_initEmpty (fun _ => 0) hparsed with ⟨hnone, -⟩ | ⟨fr', -, hscan', -, hiff⟩
  · rw [hnone] at hscan
    exact nomatch hscan
  · obtain rfl := some.inj (hscan.symm.trans hscan')
    refine hiff.1 hlinked ⟨[_], _, [], rfl, [], .text [0x62], .text [0x63], [], .text [0x61],
      rfl, ⟨_, mem_singleton_self _, rfl, prefix_rfl⟩, fun e he _ hprefix => ?_⟩
    obtain rfl := mem_singleton.1 he
    exact absurd hprefix (by decide)

/-- The tree after a scan is the table of what was inserted: a route for every front of an inserted
path, and in it the first file of each kind that was inserted there. The scan fails just when two
pages have one key and different places. -/
theorem scan_table (hash : List UInt8 → ℕ) {n : ℕ} {is : List Insertion}
    (his : ∀ ins ∈ is, ins.Parsed n) :
    (((initEmpty n).scan hash is).isSome ↔ Unaliased hash is) ∧
      ∀ fr, (initEmpty n).scan hash is = some fr → ∃ places, Grown fr.routes places
        ∧ (∀ ty ps, (ty, ps) ∈ places ↔
          ty < n ∧ (ps = [] ∨ ∃ ins ∈ is, ins.ty = ty ∧ ps <+: ins.path))
        ∧ Filed fr.routes places (firstFile is) := by
  rcases scan_initEmpty hash his with ⟨hnone, hun⟩ | ⟨fr, places, hscan, hstored, -⟩
  · simp [hnone, hun]
  · rw [hscan]
    refine ⟨iff_of_true rfl hstored.unaliased, fun fr' heq => ?_⟩
    obtain rfl := Option.some.inj heq
    exact ⟨places, hstored.grown, hstored.mem, hstored.filed⟩

/-- `/a` and `/b`. -/
theorem scan_table_siblings :
    ((initEmpty 1).scan (fun _ => 0)
      [⟨0, [.text [0x61]], .page, 1⟩, ⟨0, [.text [0x62]], .page, 2⟩]).isSome := by
  refine (scan_table (fun _ => 0) fun ins hins => ?_).1.2 fun a ha b hb _ _ hkey => ?_
  · rcases mem_pair.1 hins with rfl | rfl <;>
      exact ⟨by decide, by decide, by decide, by decide⟩
  · rcases mem_pair.1 ha with rfl | rfl <;> rcases mem_pair.1 hb with rfl | rfl <;>
      first | rfl | exact absurd hkey (by decide)

end Cruller.Bake.FrameworkRouter
