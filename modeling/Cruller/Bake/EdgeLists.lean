import Cruller.Bake.HotUpdate
import Cruller.Lib.LinkedList
import Cruller.Lib.Throughout

/-!
# The lists of the edges

An edge that is not free is in the import list of the file that depends and in the dependency list
of the file that is imported, once in each. An import list is made anew from the edges that a file
has (`Detached`): each is kept, made, or taken out, and then the new list takes the old one's place.
-/

namespace Cruller.Bake

open List Option

namespace IncrementalGraph

variable {allow_assert : Bool} {side : Side} {g g' : IncrementalGraph side} {e : EdgeIndex}
  {f i : FileIndex}

/-- The two files of an edge that is in use. -/
def files (g : IncrementalGraph side) (e : EdgeIndex) : Option (FileIndex × FileIndex) :=
  if e ∈ g.edges_free_list then none
  else g.edges[e]?.map fun edge => (edge.dependency, edge.imported)

/-- The link of the import lists. -/
def nextImport (g : IncrementalGraph side) (e : EdgeIndex) : Option EdgeIndex :=
  g.edges[e]?.bind Edge.next_import

/-- The link of the dependency lists. -/
def nextDependency (g : IncrementalGraph side) (e : EdgeIndex) : Option EdgeIndex :=
  g.edges[e]?.bind Edge.next_dependency

def prevDependency (g : IncrementalGraph side) (e : EdgeIndex) : Option EdgeIndex :=
  g.edges[e]?.bind Edge.prev_dependency

/-- These are the edges of the imports of a file, no two of them to the same file. -/
structure EdgesOf (g : IncrementalGraph side) (f : FileIndex) (es : List EdgeIndex) : Prop where
  nodup : es.Nodup
  mem : ∀ e, e ∈ es ↔ ∃ i, g.files e = some (f, i)
  distinct : ∀ e ∈ es, ∀ e' ∈ es, g.files e = g.files e' → e = e'

/-- The list that begins at `first_import` of a file is the edges from it. -/
structure IsImportList (g : IncrementalGraph side) (f : FileIndex) (es : List EdgeIndex) :
    Prop extends g.EdgesOf f es where
  list : ∃ it, g.first_import[f]? = some it ∧ IsList g.nextImport it es

/-- These are the edges to a file. -/
structure IsDependencyList (g : IncrementalGraph side) (i : FileIndex) (es : List EdgeIndex) :
    Prop where
  nodup : es.Nodup
  mem : ∀ e, e ∈ es ↔ ∃ f, g.files e = some (f, i)
  list : ∃ it, g.first_dep[i]? = some it ∧
    IsDList g.nextDependency g.prevDependency none it es

/-- What holds of the edges and the free list all the time. -/
structure Core (g : IncrementalGraph side) : Prop where
  free_lt : ∀ e ∈ g.edges_free_list, e < g.edges.length
  free_nodup : g.edges_free_list.Nodup
  first_dep_length : g.first_dep.length = g.bundled_files.length
  first_import_length : g.first_import.length = g.bundled_files.length
  in_range : ∀ e f i, g.files e = some (f, i) →
    f < g.bundled_files.length ∧ i < g.bundled_files.length
  dependencies : ∀ i < g.bundled_files.length, ∃ es, g.IsDependencyList i es

/-- A slot is free, and listed once as such, or its edge is in two lists. -/
structure Represented (g : IncrementalGraph side) : Prop extends g.Core where
  imports : ∀ f < g.bundled_files.length, ∃ es, g.IsImportList f es

/-- The edges of one file are in no import list, all the others are. -/
structure Detached (g : IncrementalGraph side) (f : FileIndex) (es : List EdgeIndex) :
    Prop extends g.Core, g.EdgesOf f es where
  others : ∀ f' < g.bundled_files.length, f' ≠ f → ∃ es', g.IsImportList f' es'

theorem exists_of_files {files : FileIndex × FileIndex} (h : g.files e = some files) :
    e ∉ g.edges_free_list ∧
      ∃ edge, g.edges[e]? = some edge ∧ (edge.dependency, edge.imported) = files := by
  rw [IncrementalGraph.files] at h
  split_ifs at h with hfr
  exact ⟨hfr, map_eq_some_iff.1 h⟩

theorem lt_of_files {files : FileIndex × FileIndex} (h : g.files e = some files) :
    e < g.edges.length := by
  obtain ⟨-, edge, hed, -⟩ := exists_of_files h
  exact (List.getElem?_eq_some_iff.1 hed).1

/-- One link of an edge is written, if there is such an edge. -/
def relink (edges : List Edge) (link : Option EdgeIndex) (write : Edge → Edge) : List Edge :=
  link.elim edges fun index => edges.modify index write

theorem getElem?_relink (edges : List Edge) (link : Option EdgeIndex) (write : Edge → Edge)
    (j : EdgeIndex) : (relink edges link write)[j]? =
      if link = some j then edges[j]?.map write else edges[j]? := by
  cases link with
  | none => rw [if_neg (fun h => nomatch h)]; rfl
  | some index =>
    rw [relink, elim_some, getElem?_modify]
    simp only [some.injEq]
    split_ifs
    · rfl
    · rw [id_map']

@[simp]
theorem length_relink (edges : List Edge) (link : Option EdgeIndex) (write : Edge → Edge) :
    (relink edges link write).length = edges.length := by
  cases link with
  | none => rfl
  | some index => exact length_modify ..

theorem modifyEdge_of_lt (hlt : e < g.edges.length) (write : Edge → Edge) :
    g.modifyEdge e write = .ok { g with edges := relink g.edges (some e) write } := by
  rw [modifyEdge, if_pos hlt]
  rfl

/-- The neighbours of an edge in its dependency list linked to each other. -/
def disconnected (g : IncrementalGraph side) (edge : Edge) : IncrementalGraph side :=
  { g with
    edges := relink (relink g.edges edge.prev_dependency
      fun prev => { prev with next_dependency := edge.next_dependency }) edge.next_dependency
      fun next => { next with prev_dependency := edge.prev_dependency }
    first_dep := if edge.prev_dependency = none then
      g.first_dep.set edge.imported edge.next_dependency else g.first_dep }

theorem disconnectEdgeFromDependencyList_eq {edge : Edge} (hed : g.edges[e]? = some edge)
    (hpr : ∀ p ∈ edge.prev_dependency, p < g.edges.length)
    (hnx : ∀ n ∈ edge.next_dependency, n < g.edges.length)
    (hfr : edge.prev_dependency = none → g.first_dep[edge.imported]? = some (some e)) :
    g.disconnectEdgeFromDependencyList allow_assert e = .ok (g.disconnected edge) := by
  obtain ⟨_, imported, _, next, prev⟩ := edge
  unfold disconnected
  rw [disconnectEdgeFromDependencyList, hed]
  cases prev with
  | some prev =>
    simp only [orElsePanic, bind, Except.bind, modifyEdge_of_lt (hpr prev rfl)]
    cases next with
    | some next => exact modifyEdge_of_lt (by simpa [length_relink] using hnx next rfl) _
    | none => rfl
  | none =>
    have har : assert allow_assert (decide True) = .ok () := by
      cases allow_assert <;> simp [assert]
    simp only [orElsePanic, bind, Except.bind, hfr rfl, har]
    cases next with
    | some next =>
      simp only [modifyEdge_of_lt (hnx next rfl)]
      rfl
    | none => rfl

variable (edge : Edge)

theorem files_disconnected (j : EdgeIndex) :
    (g.disconnected edge).files j = g.files j := by
  rw [files, files]
  simp only [disconnected, getElem?_relink]
  split_ifs <;> simp only [Option.map_map] <;> rfl

theorem nextImport_disconnected (j : EdgeIndex) :
    (g.disconnected edge).nextImport j = g.nextImport j := by
  rw [nextImport, nextImport]
  simp only [disconnected, getElem?_relink]
  split_ifs <;> simp only [bind_map] <;> rfl

variable {es : List EdgeIndex} {j : EdgeIndex}

theorem nextDependency_disconnected (hlt : j < g.edges.length) :
    (g.disconnected edge).nextDependency j =
      if edge.prev_dependency = some j then edge.next_dependency else g.nextDependency j := by
  rw [nextDependency, nextDependency]
  simp only [disconnected, getElem?_relink, getElem?_eq_getElem hlt]
  split_ifs <;> rfl

theorem prevDependency_disconnected (hlt : j < g.edges.length) :
    (g.disconnected edge).prevDependency j =
      if edge.next_dependency = some j then edge.prev_dependency else g.prevDependency j := by
  rw [prevDependency, prevDependency]
  simp only [disconnected, getElem?_relink, getElem?_eq_getElem hlt]
  split_ifs <;> rfl

theorem getElem?_freeEdge {j e : ℕ} (hne : j ≠ e) : (g.freeEdge e).edges[j]? = g.edges[j]? := by
  unfold freeEdge
  split_ifs with hls
  · rw [getElem?_dropLast]
    split_ifs with hlt
    · rfl
    · rw [getElem?_eq_none (by omega)]
  · rfl

theorem mem_freeEdge (hne : j ≠ e) :
    j ∈ (g.freeEdge e).edges_free_list ↔ j ∈ g.edges_free_list := by
  unfold freeEdge
  split_ifs
  · rfl
  · simpa using or_iff_left hne

theorem files_freeEdge {e : ℕ} (hlt : e < g.edges.length) (j : ℕ) :
    (g.freeEdge e).files j = if j = e then none else g.files j := by
  split_ifs with hj
  · subst hj
    unfold freeEdge
    split_ifs with hls
    · have hno : g.edges.dropLast[j]? = none := by
        simp
        omega
      rw [files]
      simp only [hno, map_none, ite_self]
    · simp [files]
  · simp only [files, mem_freeEdge hj, getElem?_freeEdge hj]

theorem free_freeEdge {e : ℕ} (hfr : ∀ j : ℕ, j ∈ g.edges_free_list → j < g.edges.length)
    (hnd : g.edges_free_list.Nodup) (hlt : e < g.edges.length) (hnew : e ∉ g.edges_free_list) :
    (∀ j : ℕ, j ∈ (g.freeEdge e).edges_free_list → j < (g.freeEdge e).edges.length)
      ∧ (g.freeEdge e).edges_free_list.Nodup := by
  unfold freeEdge
  split_ifs with hls
  · refine ⟨fun j hj => ?_, hnd⟩
    have hne : j ≠ e := fun heq => hnew (heq ▸ hj)
    have := hfr j hj
    rw [length_dropLast]
    omega
  · refine ⟨fun j hj => ?_, ?_⟩
    · rcases mem_append.1 hj with hj | hj
      · exact hfr j hj
      · rwa [mem_singleton.1 hj]
    · rw [nodup_append_comm, singleton_append, nodup_cons]
      exact ⟨hnew, hnd⟩

theorem first_dep_freeEdge (e : EdgeIndex) : (g.freeEdge e).first_dep = g.first_dep := by
  unfold freeEdge
  split_ifs <;> rfl

theorem first_import_freeEdge (e : EdgeIndex) : (g.freeEdge e).first_import = g.first_import := by
  unfold freeEdge
  split_ifs <;> rfl

/-- An edge has been taken out of its dependency list and freed. -/
structure Removed (g : IncrementalGraph side) (e : EdgeIndex) (g' : IncrementalGraph side) :
    Prop where
  core : g'.Core
  bundled_files : g'.bundled_files = g.bundled_files
  first_import : g'.first_import = g.first_import
  files : ∀ j, g'.files j = if j = e then none else g.files j
  nextImport : ∀ j, j ≠ e → g'.nextImport j = g.nextImport j

/-- An edge is taken out of the middle or off the front of the list of its file. -/
theorem IsDependencyList.remove {a b : List EdgeIndex}
    (h : g.IsDependencyList i (a ++ e :: b)) (hfl : g.files e = some (f, i)) {it : Option EdgeIndex}
    (hit : g'.first_dep[i]? = some it)
    (hfr : it = if a = [] then g.nextDependency e else (a ++ e :: b).head?)
    (hfl' : ∀ j, g'.files j = if j = e then none else g.files j)
    (hnx : ∀ j, j ≠ e → j < g.edges.length → g'.nextDependency j =
      if g.prevDependency e = some j then g.nextDependency e else g.nextDependency j)
    (hpv : ∀ j, j ≠ e → j < g.edges.length → g'.prevDependency j =
      if g.nextDependency e = some j then g.prevDependency e else g.prevDependency j) :
    g'.IsDependencyList i (a ++ b) := by
  obtain ⟨it₀, hit₀, hls⟩ := h.list
  have hpr : (a ++ e :: b).Perm (e :: (a ++ b)) := perm_middle
  obtain ⟨hnot, hnd⟩ := nodup_cons.1 (hpr.nodup_iff.1 h.nodup)
  have hmem : ∀ j ∈ a ++ b, j ≠ e ∧ j < g.edges.length := by
    intro j hj
    obtain ⟨f', hf'⟩ := (h.mem j).1 (hpr.mem_iff.2 (mem_cons_of_mem e hj))
    exact ⟨fun heq => hnot (heq ▸ hj), lt_of_files hf'⟩
  refine ⟨hnd, fun j => ?_, it, hit, ?_⟩
  · rw [hfl']
    split_ifs with hj
    · subst hj
      exact iff_of_false hnot (fun hex => by obtain ⟨_, hno⟩ := hex; exact nomatch hno)
    · rw [← h.mem j, hpr.mem_iff, mem_cons]
      exact (or_iff_right hj).symm
  · rw [hfr, ← hls.it_eq]
    refine hls.remove h.nodup (fun j hj => nomatch hj) ?_ ?_ ?_ ?_
    · intro j hj heq
      rw [hnx j (hmem j hj).1 (hmem j hj).2, if_pos heq]
    · intro j hj hne
      rw [hnx j (hmem j hj).1 (hmem j hj).2, if_neg hne]
    · intro j hj heq
      rw [hpv j (hmem j hj).1 (hmem j hj).2, if_pos heq]
    · intro j hj hne
      rw [hpv j (hmem j hj).1 (hmem j hj).2, if_neg hne]

theorem IsDependencyList.congr (h : g.IsDependencyList i es)
    (hfr : g'.first_dep[i]? = g.first_dep[i]?)
    (hfl : ∀ e, (∃ f, g'.files e = some (f, i)) ↔ ∃ f, g.files e = some (f, i))
    (hnx : ∀ e ∈ es, g'.nextDependency e = g.nextDependency e)
    (hpr : ∀ e ∈ es, g'.prevDependency e = g.prevDependency e) : g'.IsDependencyList i es := by
  obtain ⟨it, hit, hls⟩ := h.list
  exact ⟨h.nodup, fun e => (h.mem e).trans (hfl e).symm, it, hfr.trans hit,
    hls.congr hnx hpr⟩

/-- An edge in use can be taken out of its dependency list and freed. -/
theorem Core.remove (h : g.Core) (hfl : g.files e = some (f, i)) (allow_assert : Bool) :
    ∃ g₁, g.disconnectEdgeFromDependencyList allow_assert e = .ok g₁
      ∧ g.Removed e (g₁.freeEdge e) := by
  obtain ⟨hnew, edge, hed, hpa⟩ := exists_of_files hfl
  obtain ⟨rfl, rfl⟩ := Prod.mk.inj hpa
  obtain ⟨hf, hi⟩ := h.in_range e _ _ hfl
  obtain ⟨es, hes⟩ := h.dependencies _ hi
  obtain ⟨a, b, rfl⟩ := append_of_mem ((hes.mem e).2 ⟨_, hfl⟩)
  obtain ⟨it, hit, hls⟩ := hes.list
  have hlt : e < g.edges.length := lt_of_files hfl
  have hnx : g.nextDependency e = edge.next_dependency := by rw [nextDependency, hed]; rfl
  have hpr : g.prevDependency e = edge.prev_dependency := by rw [prevDependency, hed]; rfl
  obtain ⟨hla, hhd⟩ := hls.links
  rw [or_none, hpr] at hla
  rw [hnx] at hhd
  have hin : ∀ p ∈ edge.prev_dependency, p ∈ a ++ e :: b := fun p hp =>
    mem_append_left _ (mem_of_getLast? (hla.symm.trans hp))
  have hix : ∀ n ∈ edge.next_dependency, n ∈ a ++ e :: b := fun n hn =>
    mem_append_right _ (mem_cons_of_mem _
      (mem_of_mem_head? (hhd.symm.trans hn)))
  have hlm : ∀ j ∈ a ++ e :: b, j < g.edges.length := fun j hj => by
    obtain ⟨_, hj⟩ := (hes.mem j).1 hj
    exact lt_of_files hj
  have hem : edge.prev_dependency = none ↔ a = [] := by
    rw [hla, getLast?_eq_none_iff]
  have hds := @disconnectEdgeFromDependencyList_eq allow_assert _ _ _ _ hed
    (fun p hp => hlm p (hin p hp)) (fun n hn => hlm n (hix n hn)) fun hno => by
      rw [hit, hls.it_eq, hem.1 hno]
      rfl
  refine ⟨_, hds, ?_⟩
  have hlen : (g.disconnected edge).edges.length = g.edges.length := by
    simp only [disconnected, length_relink]
  have hfl' : ∀ j, ((g.disconnected edge).freeEdge e).files j =
      if j = e then none else g.files j := by
    intro j
    rw [files_freeEdge (hlen ▸ hlt), files_disconnected]
  have hnt' : ∀ j, j ≠ e → j < g.edges.length →
      ((g.disconnected edge).freeEdge e).nextDependency j =
        if edge.prev_dependency = some j then edge.next_dependency else g.nextDependency j := by
    intro j hne hj
    rw [← nextDependency_disconnected edge hj, nextDependency, nextDependency,
      getElem?_freeEdge hne]
  have hpv' : ∀ j, j ≠ e → j < g.edges.length →
      ((g.disconnected edge).freeEdge e).prevDependency j =
        if edge.next_dependency = some j then edge.prev_dependency else g.prevDependency j := by
    intro j hne hj
    rw [← prevDependency_disconnected edge hj, prevDependency, prevDependency,
      getElem?_freeEdge hne]
  have hfr' : ((g.disconnected edge).freeEdge e).first_dep =
      if edge.prev_dependency = none then g.first_dep.set edge.imported edge.next_dependency
      else g.first_dep := first_dep_freeEdge e
  have hkp : ((g.disconnected edge).freeEdge e).bundled_files = g.bundled_files :=
    bundled_files_freeEdge _ e
  have him' : ((g.disconnected edge).freeEdge e).first_import = g.first_import :=
    first_import_freeEdge e
  obtain ⟨hfe, hnd⟩ := free_freeEdge (g := g.disconnected edge) (e := e)
    (fun j hj => hlen.symm ▸ h.free_lt j hj) h.free_nodup (hlen ▸ hlt) hnew
  refine ⟨⟨hfe, hnd, ?_, ?_, ?_, ?_⟩, hkp, him', hfl', ?_⟩
  · rw [hfr', hkp, ← h.first_dep_length]
    split_ifs
    · exact length_set
    · rfl
  · rw [him', hkp]
    exact h.first_import_length
  · intro j f' i' hj
    rw [hfl'] at hj
    split_ifs at hj
    rw [hkp]
    exact h.in_range j f' i' hj
  · intro i' hi'
    rw [hkp] at hi'
    by_cases heq : i' = edge.imported
    · subst heq
      refine ⟨a ++ b, @IsDependencyList.remove _ _ _ _ _ _ _ _ hes hfl
        (if a = [] then edge.next_dependency else it) ?_ ?_ hfl' (hnx ▸ hpr ▸ hnt') (hnx ▸ hpr ▸ hpv')⟩
      · rw [hfr']
        simp only [hem]
        split_ifs
        · rw [getElem?_set_self]
          rwa [h.first_dep_length]
        · exact hit
      · rw [hnx, ← hls.it_eq]
    · obtain ⟨es', hes'⟩ := h.dependencies i' hi'
      have hot : ∀ j ∈ es', j ∉ a ++ e :: b := by
        intro j hj hj'
        obtain ⟨f₁, h₁⟩ := (hes'.mem j).1 hj
        obtain ⟨f₂, h₂⟩ := (hes.mem j).1 hj'
        rw [h₁] at h₂
        exact heq (Prod.mk.inj (some.inj h₂)).2
      have hne : ∀ j ∈ es', j ≠ e := fun j hj hje =>
        hot j hj (hje ▸ mem_append_right _ mem_cons_self)
      have hj : ∀ j ∈ es', j < g.edges.length := fun j hj => by
        obtain ⟨_, hj⟩ := (hes'.mem j).1 hj
        exact lt_of_files hj
      refine ⟨es', hes'.congr ?_ ?_ (fun j hjm => ?_) fun j hjm => ?_⟩
      · rw [hfr']
        split_ifs
        · exact getElem?_set_ne (Ne.symm heq)
        · rfl
      · intro j
        rw [hfl']
        split_ifs with hje
        · subst hje
          refine iff_of_false (fun hex => by obtain ⟨_, hno⟩ := hex; exact nomatch hno) ?_
          rintro ⟨f₁, h₁⟩
          rw [hfl] at h₁
          exact heq (Prod.mk.inj (some.inj h₁)).2.symm
        · rfl
      · exact (hnt' j (hne j hjm) (hj j hjm)).trans
          (if_neg fun hp => hot j hjm (hin j hp))
      · exact (hpv' j (hne j hjm) (hj j hjm)).trans
          (if_neg fun hn => hot j hjm (hix j hn))
  · intro j hne
    refine Eq.trans ?_ (nextImport_disconnected edge j)
    rw [nextImport, nextImport, getElem?_freeEdge hne]

theorem IsImportList.congr (h : g.IsImportList f es)
    (hfr : g'.first_import[f]? = g.first_import[f]?)
    (hfl : ∀ e i, g'.files e = some (f, i) ↔ g.files e = some (f, i))
    (hnx : ∀ e ∈ es, g'.nextImport e = g.nextImport e) : g'.IsImportList f es := by
  obtain ⟨it, hit, hls⟩ := h.list
  have hsm : ∀ e ∈ es, g'.files e = g.files e := by
    intro e he
    obtain ⟨i, hi⟩ := (h.mem e).1 he
    rw [hi, hfl, hi]
  refine ⟨⟨h.nodup, fun e => ?_, fun e he e' he' heq => ?_⟩, it, hfr.trans hit,
    hls.congr hnx⟩
  · simp only [h.mem e, hfl]
  · rw [hsm e he, hsm e' he'] at heq
    exact h.distinct e he e' he' heq

theorem Detached.remove (h : g.Detached f es) (he : e ∈ es)
    (allow_assert : Bool) : ∃ g₁, g.disconnectEdgeFromDependencyList allow_assert e = .ok g₁
      ∧ (g₁.freeEdge e).Detached f (es.erase e) ∧ g.Removed e (g₁.freeEdge e) := by
  obtain ⟨i, hi⟩ := (h.mem e).1 he
  obtain ⟨g₁, hds, hrm⟩ := h.toCore.remove hi allow_assert
  refine ⟨g₁, hds, ⟨hrm.core, ⟨h.nodup.erase e, fun j => ?_, ?_⟩, ?_⟩, hrm⟩
  · rw [h.nodup.mem_erase_iff, h.mem j, hrm.files]
    split_ifs with hj
    · exact iff_of_false (fun hne => hne.1 hj) fun ⟨_, hno⟩ => nomatch hno
    · exact and_iff_right hj
  · intro j hj j' hj' heq
    obtain ⟨hne, hj⟩ := h.nodup.mem_erase_iff.1 hj
    obtain ⟨hne', hj'⟩ := h.nodup.mem_erase_iff.1 hj'
    rw [hrm.files, hrm.files, if_neg hne, if_neg hne'] at heq
    exact h.distinct j hj j' hj' heq
  · intro f' hf' hne
    rw [hrm.bundled_files] at hf'
    obtain ⟨es', hes'⟩ := h.others f' hf' hne
    have hoff : ∀ j i', g.files j = some (f', i') → j ≠ e := by
      intro j i' hj heq
      rw [heq, hi] at hj
      exact hne (Prod.mk.inj (some.inj hj)).1.symm
    refine ⟨es', hes'.congr (by rw [hrm.first_import]) (fun j i' => ?_) fun j hj => ?_⟩
    · rw [hrm.files]
      split_ifs with hje
      · exact iff_of_false (fun hno => nomatch hno) fun hj => hoff j i' hj hje
      · rfl
    · obtain ⟨i', hi'⟩ := (hes'.mem j).1 hj
      exact hrm.nextImport j (hoff j i' hi')

/-- There are files more, without edges, and nothing else that the lists are made of differs. -/
structure Grown (g : IncrementalGraph side) (count : ℕ) (g' : IncrementalGraph side) : Prop where
  edges : g'.edges = g.edges
  edges_free_list : g'.edges_free_list = g.edges_free_list
  first_dep : g'.first_dep = g.first_dep ++ List.replicate count none
  first_import : g'.first_import = g.first_import ++ List.replicate count none
  length : g'.bundled_files.length = g.bundled_files.length + count

theorem getElem?_append_replicate {α : Type} (l : List (Option α)) (count i : ℕ) :
    (l ++ List.replicate count none)[i]? =
      if i < l.length then l[i]? else if i < l.length + count then some none else none := by
  rw [getElem?_append]
  split_ifs with hlt hnew
  · rfl
  · rw [getElem?_replicate, if_pos (by omega)]
  · simp
    omega

namespace Grown

variable {count : ℕ} (h : g.Grown count g')
include h

theorem files : g'.files = g.files := by
  funext e
  rw [IncrementalGraph.files, IncrementalGraph.files, h.edges, h.edges_free_list]

theorem nextImport : g'.nextImport = g.nextImport := by
  funext e
  rw [IncrementalGraph.nextImport, IncrementalGraph.nextImport, h.edges]

theorem le : g.bundled_files.length ≤ g'.bundled_files.length := by
  rw [h.length]
  exact Nat.le_add_right ..

theorem core (hcr : g.Core) : g'.Core := by
  refine ⟨?_, ?_, ?_, ?_, ?_, ?_⟩
  · rw [h.edges_free_list, h.edges]
    exact hcr.free_lt
  · rw [h.edges_free_list]
    exact hcr.free_nodup
  · simp [h.first_dep, h.length, hcr.first_dep_length]
  · simp [h.first_import, h.length, hcr.first_import_length]
  · intro e f i hfl
    rw [h.files] at hfl
    obtain ⟨hf, hi⟩ := hcr.in_range e f i hfl
    exact ⟨hf.trans_le h.le, hi.trans_le h.le⟩
  · intro i hi
    rw [h.length, ← hcr.first_dep_length] at hi
    have hst := getElem?_append_replicate g.first_dep count i
    rw [← h.first_dep] at hst
    by_cases hold : i < g.first_dep.length
    · rw [if_pos hold] at hst
      obtain ⟨es, hes⟩ := hcr.dependencies i (hcr.first_dep_length ▸ hold)
      refine ⟨es, hes.congr hst (fun e => by rw [h.files]) ?_ ?_⟩
      · intro e _
        rw [nextDependency, nextDependency, h.edges]
      · intro e _
        rw [prevDependency, prevDependency, h.edges]
    · rw [if_neg hold, if_pos hi] at hst
      refine ⟨[], nodup_nil, fun e => iff_of_false (fun hmem => nomatch hmem) ?_, none,
        hst, rfl⟩
      rintro ⟨f, hf⟩
      rw [h.files] at hf
      exact hold (hcr.first_dep_length ▸ (hcr.in_range e f i hf).2)

variable {es : List EdgeIndex}

theorem isImportList (hes : g.IsImportList f es) : g'.IsImportList f es := by
  obtain ⟨it, hit, -⟩ := hes.list
  have hlt : f < g.first_import.length := (List.getElem?_eq_some_iff.1 hit).1
  refine hes.congr ?_ (fun e i => by rw [h.files]) fun e _ => by rw [h.nextImport]
  rw [h.first_import, getElem?_append_left hlt]

theorem isImportList_of_le (hcr : g.Core) (hold : g.bundled_files.length ≤ f)
    (hf : f < g'.bundled_files.length) : g'.IsImportList f [] := by
  have hst := getElem?_append_replicate g.first_import count f
  rw [← h.first_import, if_neg (hcr.first_import_length ▸ not_lt.2 hold),
    if_pos (hcr.first_import_length ▸ h.length ▸ hf)] at hst
  refine ⟨⟨nodup_nil, fun e => iff_of_false (fun hmem => nomatch hmem) ?_,
    fun e he => nomatch he⟩, none, hst, rfl⟩
  rintro ⟨i, hi⟩
  rw [h.files] at hi
  exact not_lt.2 hold (hcr.in_range e f i hi).1

theorem represented (hrep : g.Represented) : g'.Represented :=
  ⟨h.core hrep.toCore, fun f hf => by
    rcases Nat.lt_or_ge f g.bundled_files.length with hlt | hge
    · obtain ⟨es, hes⟩ := hrep.imports f hlt
      exact ⟨es, h.isImportList hes⟩
    · exact ⟨[], h.isImportList_of_le hrep.toCore hge hf⟩⟩

theorem edgesOf (hes : g.EdgesOf f es) : g'.EdgesOf f es :=
  ⟨hes.nodup, fun e => by rw [h.files, hes.mem], by rw [h.files]; exact hes.distinct⟩

theorem detached (hdet : g.Detached f es) : g'.Detached f es :=
  ⟨h.core hdet.toCore, h.edgesOf hdet.toEdgesOf, fun f' hf' hne => by
    rcases Nat.lt_or_ge f' g.bundled_files.length with hlt | hge
    · obtain ⟨es', hes'⟩ := hdet.others f' hlt hne
      exact ⟨es', h.isImportList hes'⟩
    · exact ⟨[], h.isImportList_of_le hdet.toCore hge hf'⟩⟩

omit h in
theorem of_eq (hedges : g'.edges = g.edges) (hfree : g'.edges_free_list = g.edges_free_list)
    (hdep : g'.first_dep = g.first_dep) (himport : g'.first_import = g.first_import)
    (hlength : g'.bundled_files.length = g.bundled_files.length) : g.Grown 0 g' :=
  ⟨hedges, hfree, by rw [hdep, replicate_zero, append_nil],
    by rw [himport, replicate_zero, append_nil], hlength⟩

theorem trans {count' : ℕ} {g'' : IncrementalGraph side} (h' : g'.Grown count' g'') :
    g.Grown (count + count') g'' :=
  ⟨h'.edges.trans h.edges, h'.edges_free_list.trans h.edges_free_list,
    by rw [h'.first_dep, h.first_dep, append_assoc, replicate_append_replicate],
    by rw [h'.first_import, h.first_import, append_assoc, replicate_append_replicate],
    by rw [h'.length, h.length, Nat.add_assoc]⟩

end Grown

theorem Detached.setFirstImport (h : g.Detached f es)
    (it : Option EdgeIndex) :
    ({ g with first_import := g.first_import.set f it } : IncrementalGraph side).Detached f es :=
  ⟨⟨h.free_lt, h.free_nodup, h.first_dep_length,
      List.length_set.trans h.first_import_length, h.in_range, fun i hi => by
        obtain ⟨es', hes'⟩ := h.dependencies i hi
        exact ⟨es', hes'.congr rfl (fun _ => Iff.rfl) (fun _ _ => rfl) fun _ _ => rfl⟩⟩,
    ⟨h.nodup, h.mem, h.distinct⟩, fun f' hf' hne => by
      obtain ⟨es', hes'⟩ := h.others f' hf' hne
      exact ⟨es', hes'.congr (getElem?_set_ne hne.symm) (fun _ _ => Iff.rfl)
        fun _ _ => rfl⟩⟩

theorem Represented.detached (h : g.Represented) (hf : f < g.bundled_files.length) :
    ∃ es it, g.first_import[f]? = some it ∧ IsList g.nextImport it es ∧ g.Detached f es := by
  obtain ⟨es, hes⟩ := h.imports f hf
  obtain ⟨it, hit, hls⟩ := hes.list
  exact ⟨es, it, hit, hls, h.toCore, hes.toEdgesOf, fun f' hf' _ => h.imports f' hf'⟩

theorem Detached.represented (h : g.Detached f es) {it : Option EdgeIndex}
    (hit : IsList g.nextImport it es) :
    ({ g with first_import := g.first_import.set f it } : IncrementalGraph side).Represented := by
  have hset := h.setFirstImport it
  refine ⟨hset.toCore, fun f' hf' => ?_⟩
  by_cases hne : f' = f
  · subst hne
    refine ⟨es, hset.toEdgesOf, it, ?_, hit⟩
    exact getElem?_set_self (h.first_import_length.symm ▸ hf')
  · exact hset.others f' hf' hne

theorem EdgesOf.congr_mem {es' : List EdgeIndex} (h : g.EdgesOf f es) (hnd : es'.Nodup)
    (hmem : ∀ e, e ∈ es' ↔ e ∈ es) : g.EdgesOf f es' :=
  ⟨hnd, fun e => (hmem e).trans (h.mem e), fun e he e' he' =>
    h.distinct e ((hmem e).1 he) e' ((hmem e').1 he')⟩

theorem EdgesOf.length_le (h : g.EdgesOf f es) :
    es.length ≤ g.edges.length := by
  have hsub : es ⊆ List.range g.edges.length := by
    intro e he
    obtain ⟨i, hi⟩ := (h.mem e).1 he
    exact mem_range.2 (lt_of_files hi)
  simpa using (subperm_of_subset h.nodup hsub).length_le

/-- The loop frees every edge of the file and comes to the end of its list. -/
theorem disconnectImports_eq (allow_assert : Bool) : ∀ (es : List EdgeIndex) (fuel : ℕ)
    (it : Option EdgeIndex) {g : IncrementalGraph side}, g.Detached f es →
      IsList g.nextImport it es → es.length ≤ fuel →
      ∃ g', disconnectImports allow_assert f fuel it g = .ok g' ∧ g'.Detached f []
        ∧ g'.bundled_files = g.bundled_files ∧ g'.first_import = g.first_import
  | [], fuel, it, g, h, hit, _ => by
    cases hit
    refine ⟨g, ?_, h, rfl, rfl⟩
    cases fuel <;> rfl
  | e :: es, 0, it, g, _, _, hfl => absurd hfl (Nat.not_succ_le_zero _)
  | e :: es, fuel + 1, it, g, h, ⟨hit, hls⟩, hfl => by
    obtain ⟨i, hi⟩ := (h.mem e).1 mem_cons_self
    obtain ⟨-, edge, hed, hpr⟩ := exists_of_files hi
    obtain ⟨hdp, -⟩ := Prod.mk.inj hpr
    obtain ⟨g₁, hds, hdt, hrm⟩ := h.remove mem_cons_self allow_assert
    rw [erase_cons_head] at hdt
    have hnx : g.nextImport e = edge.next_import := by rw [nextImport, hed]; rfl
    rw [hnx] at hls
    have hls' : IsList (g₁.freeEdge e).nextImport edge.next_import es :=
      hls.congr fun j hj => hrm.nextImport j fun heq =>
        (nodup_cons.1 h.nodup).1 (heq ▸ hj)
    obtain ⟨g', hrs, hdt', hfs', him'⟩ :=
      disconnectImports_eq allow_assert es fuel edge.next_import hdt hls'
        (Nat.le_of_succ_le_succ hfl)
    refine ⟨g', ?_, hdt', hfs'.trans hrm.bundled_files,
      him'.trans hrm.first_import⟩
    have har : assert allow_assert (decide (edge.dependency = f)) = .ok () := by
      rw [decide_eq_true hdp]
      cases allow_assert <;> rfl
    rw [hit, disconnectImports, hed]
    change (assert allow_assert (decide (edge.dependency = f)) >>= fun _ => _) = _
    rw [har]
    change (g.disconnectEdgeFromDependencyList allow_assert e >>= fun g => _) = _
    rw [hds]
    exact hrs

theorem disconnectAll_eq (h : g.Represented) (hf : f < g.bundled_files.length)
    (allow_assert : Bool) : ∃ g', g.disconnectAll allow_assert f = .ok g' ∧ g'.Represented
      ∧ g'.bundled_files = g.bundled_files := by
  obtain ⟨es, it, hit, hls, hdt⟩ := h.detached hf
  obtain ⟨g', hall, hdt', hfl', him'⟩ := disconnectImports_eq allow_assert es
    g.edges.length it (hdt.setFirstImport none) hls hdt.toEdgesOf.length_le
  refine ⟨g', ?_, ?_, hfl'⟩
  · rw [disconnectAll, hit]
    exact hall
  · have him : g'.first_import = g.first_import.set f none := him'
    have hrep := @Detached.represented _ _ _ _ hdt' none rfl
    rw [him, set_set, ← him] at hrep
    exact hrep

end IncrementalGraph

end Cruller.Bake
