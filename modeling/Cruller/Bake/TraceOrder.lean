import Cruller.Bake.HotTraces

/-!
# Whether a hot update depends on an order

The files that are reached do not depend on the order of the changed files, nor on that of the
dependency lists. An HTML file is a hard change if what it is first visited from is an asset; any
reached file that it imports can be the first. So nothing depends on an order exactly if these files
are all assets where it has to be hard, and none of them is where it has not (`Unmixed`).
-/

namespace Cruller.Bake

open List Option

namespace IncrementalGraph

variable {side : Side} {g : IncrementalGraph side} {i : FileIndex}
  {order : FileIndex → List EdgeIndex}

/-- The dependency lists in another order. -/
def relinked (g : IncrementalGraph side) (order : FileIndex → List EdgeIndex) :
    IncrementalGraph side :=
  { g with
    edges := g.edges.mapIdx fun e edge => { edge with
      next_dependency := after (order edge.imported) e
      prev_dependency := before none (order edge.imported) e }
    first_dep := g.first_dep.mapIdx fun i _ => (order i).head? }

theorem files_relinked (e : EdgeIndex) : (g.relinked order).files e = g.files e := by
  rw [files, files, relinked, getElem?_mapIdx, Option.map_map]
  rfl

theorem nextImport_relinked (e : EdgeIndex) : (g.relinked order).nextImport e = g.nextImport e := by
  rw [nextImport, nextImport, relinked, getElem?_mapIdx, bind_map]
  rfl

theorem nextDependency_relinked {e : EdgeIndex} {f : FileIndex} (h : g.files e = some (f, i)) :
    (g.relinked order).nextDependency e = after (order i) e := by
  obtain ⟨-, edge, hed, hpr⟩ := exists_of_files h
  rw [nextDependency, relinked, getElem?_mapIdx, hed, ← (Prod.mk.inj hpr).2]
  rfl

theorem prevDependency_relinked {e : EdgeIndex} {f : FileIndex} (h : g.files e = some (f, i)) :
    (g.relinked order).prevDependency e = before none (order i) e := by
  obtain ⟨-, edge, hed, hpr⟩ := exists_of_files h
  rw [prevDependency, relinked, getElem?_mapIdx, hed, ← (Prod.mk.inj hpr).2]
  rfl

/-- What `order` says of a file is its dependency list in some order. -/
def Orders (g : IncrementalGraph side) (order : FileIndex → List EdgeIndex) : Prop :=
  ∀ i < g.bundled_files.length, ∃ es, g.IsDependencyList i es ∧ (order i).Perm es

theorem isDependencyList_relinked (h : g.Core) (hor : g.Orders order)
    (hi : i < g.bundled_files.length) : (g.relinked order).IsDependencyList i (order i) := by
  obtain ⟨es, hes, hpr⟩ := hor i hi
  have hnd := hpr.nodup_iff.2 hes.nodup
  have hmem : ∀ e, e ∈ order i ↔ ∃ f, g.files e = some (f, i) := fun e =>
    hpr.mem_iff.trans (hes.mem e)
  refine ⟨hnd, fun e => ?_, (order i).head?, ?_, isDList_links hnd ?_ ?_⟩
  · simp only [files_relinked]
    exact hmem e
  · rw [relinked, getElem?_mapIdx, getElem?_eq_getElem (h.first_dep_length ▸ hi)]
    rfl
  · intro e he
    obtain ⟨f, hf⟩ := (hmem e).1 he
    exact nextDependency_relinked hf
  · intro e he
    obtain ⟨f, hf⟩ := (hmem e).1 he
    exact prevDependency_relinked hf

theorem represented_relinked (h : g.Represented) (hor : g.Orders order) :
    (g.relinked order).Represented where
  free_lt e he := by
    rw [relinked, length_mapIdx]
    exact h.free_lt e he
  free_nodup := h.free_nodup
  first_dep_length := by
    rw [relinked, length_mapIdx]
    exact h.first_dep_length
  first_import_length := h.first_import_length
  in_range e f i hfl := h.in_range e f i (by rwa [files_relinked] at hfl)
  dependencies i hi := ⟨order i, isDependencyList_relinked h.toCore hor hi⟩
  imports f hf := by
    obtain ⟨es, hes⟩ := h.imports f hf
    obtain ⟨it, hit, hls⟩ := hes.list
    refine ⟨es, ⟨hes.nodup, fun e => ?_, fun e he e' he' heq => ?_⟩, it, hit,
      hls.congr fun e _ => nextImport_relinked e⟩
    · simp only [files_relinked]
      exact hes.mem e
    · rw [files_relinked, files_relinked] at heq
      exact hes.distinct e he e' he' heq

theorem dependents_relinked (h : g.Core) (hor : g.Orders order)
    (hi : i < g.bundled_files.length) :
    (g.relinked order).dependents i = (order i).filterMap fun e => (g.files e).map Prod.fst := by
  rw [dependents_eq (isDependencyList_relinked h hor hi)]
  simp only [files_relinked]

/-- Another graph with the same files and edges. -/
structure Reordered (g g' : IncrementalGraph side) : Prop where
  represented : g'.Represented
  bundled_files : g'.bundled_files = g.bundled_files
  dependents : ∀ i < g.bundled_files.length, (g'.dependents i).Perm (g.dependents i)

theorem Reordered.refl (h : g.Represented) : g.Reordered g := ⟨h, rfl, fun _ _ => .refl _⟩

theorem exists_reordered (h : g.Represented) (successor : FileIndex → Option FileIndex)
    (hsc : ∀ i f, successor i = some f → f ∈ g.dependents i) :
    ∃ g', g.Reordered g' ∧ ∀ i < g.bundled_files.length, ∀ f, successor i = some f →
      (g'.dependents i).head? = some f := by
  have hls : ∀ i, ∃ es' : List EdgeIndex, i < g.bundled_files.length →
      (∃ es, g.IsDependencyList i es ∧ es'.Perm es) ∧ ∀ f, successor i = some f →
        (es'.filterMap fun e => (g.files e).map Prod.fst).head? = some f := by
    intro i
    by_cases hi : i < g.bundled_files.length
    · obtain ⟨es, hes⟩ := h.dependencies i hi
      cases hf : successor i with
      | none => exact ⟨es, fun _ => ⟨⟨es, hes, .refl _⟩, fun _ hno => by cases hno⟩⟩
      | some f =>
        obtain ⟨e, he⟩ := (mem_dependents h.toCore hi).1 (hsc i f hf)
        have hmem : e ∈ es := (hes.mem e).2 ⟨f, he⟩
        refine ⟨e :: es.erase e, fun _ => ⟨⟨es, hes, (perm_cons_erase hmem).symm⟩, ?_⟩⟩
        rintro _ ⟨⟩
        rw [filterMap_cons, he]
        rfl
    · exact ⟨[], fun hlt => absurd hlt hi⟩
  choose order hod using hls
  have hor : g.Orders order := fun i hi => (hod i hi).1
  refine ⟨g.relinked order, ⟨represented_relinked h hor, rfl, fun i hi => ?_⟩,
    fun i hi f hf => ?_⟩
  · obtain ⟨es, hes, hpr⟩ := hor i hi
    rw [dependents_relinked h.toCore hor hi, dependents_eq hes]
    exact hpr.filterMap _
  · rw [dependents_relinked h.toCore hor hi]
    exact (hod i hi).2 f hf

end IncrementalGraph

namespace DevServer

/-- The same graphs, with their dependency lists in other orders. -/
structure Reordered (dev dev' : DevServer) : Prop where
  client : dev.client_graph.Reordered dev'.client_graph
  server : dev.server_graph.Reordered dev'.server_graph
  route_lookup : dev'.route_lookup = dev.route_lookup

/-- A change is seen in this file of the client. -/
def Reached (dev : DevServer) (changed : Finset FileIndex) (i : FileIndex) : Prop :=
  ∃ s ∈ changed, Search.Reach dev.clientNext s i

/-- The file changed, or an asset that it depends on. -/
def Hard (dev : DevServer) (changed : Finset FileIndex) (i : FileIndex) : Prop :=
  i ∈ changed ∨ ∃ u ∈ changed, dev.isAsset u = true ∧ i ∈ dev.client_graph.dependents u

/-- The routes of an update are those that the changed files reach. -/
structure Affected (dev : DevServer) (changed : Finset FileIndex) (result : IncrementalResult) :
    Prop where
  framework : ∀ r, r ∈ result.framework_routes_affected ↔ ∃ i j k, dev.Reached changed i
    ∧ dev.rootOf i = some j ∧ Search.Reach dev.serverNext j k ∧ dev.serverRoute k = some r
  hard : ∀ r, r ∈ result.html_routes_hard_affected ↔
    ∃ i, dev.Reached changed i ∧ dev.htmlRoute i = some r ∧ dev.Hard changed i
  soft : ∀ r, r ∈ result.html_routes_soft_affected ↔
    ∃ i, dev.Reached changed i ∧ dev.htmlRoute i = some r ∧ ¬ dev.Hard changed i

/-- In whatever order the lists and the changed files stand, the same is affected. -/
def OrderIndependent (dev : DevServer) (changed : Finset FileIndex) : Prop :=
  ∀ dev', dev.Reordered dev' → ∀ files : List FileIndex, files.Nodup → files.toFinset = changed →
    ∃ trace, dev'.traceFiles files ⟨.empty, .empty⟩ = .ok trace
      ∧ dev.Affected changed trace.incremental_result

/-- Of the files that an HTML file imports and a trace gets to, all are assets where the HTML file
is a hard change, and none is where it is not. -/
def Unmixed (dev : DevServer) (changed : Finset FileIndex) : Prop :=
  ∀ i u, (dev.htmlRoute i).isSome → dev.Reached changed u → i ∈ dev.clientNext u →
    (dev.isAsset u = true ↔ dev.Hard changed i)

variable {dev dev' : DevServer} {changed : Finset FileIndex} {i u : FileIndex}

theorem Reordered.clientFile_eq (h : dev.Reordered dev') : dev'.clientFile = dev.clientFile := by
  funext i
  rw [clientFile, clientFile, h.client.bundled_files]

theorem Reordered.serverFile_eq (h : dev.Reordered dev') : dev'.serverFile = dev.serverFile := by
  funext i
  rw [serverFile, serverFile, h.server.bundled_files]

theorem Reordered.htmlRoute_eq (h : dev.Reordered dev') : dev'.htmlRoute = dev.htmlRoute := by
  funext i
  rw [htmlRoute, htmlRoute, h.clientFile_eq]

theorem Reordered.isAsset_eq (h : dev.Reordered dev') : dev'.isAsset = dev.isAsset := by
  funext i
  rw [isAsset, isAsset, h.clientFile_eq]

theorem Reordered.isHard_eq (h : dev.Reordered dev') : dev'.isHard = dev.isHard := by
  funext visit
  rw [isHard, isHard, h.isAsset_eq]

theorem Reordered.rootOf_eq (h : dev.Reordered dev') : dev'.rootOf = dev.rootOf := by
  have hin : dev'.server_graph.getFileIndex = dev.server_graph.getFileIndex := by
    funext key
    rw [IncrementalGraph.getFileIndex, IncrementalGraph.getFileIndex, h.server.bundled_files]
  funext i
  rw [rootOf, rootOf, h.client.bundled_files, hin]

theorem Reordered.serverRoute_eq (h : dev.Reordered dev') : dev'.serverRoute = dev.serverRoute := by
  funext i
  rw [serverRoute, serverRoute, h.serverFile_eq, h.route_lookup]

theorem Reordered.clientNodes_eq (h : dev.Reordered dev') : dev'.clientNodes = dev.clientNodes := by
  rw [clientNodes, clientNodes, h.client.bundled_files]

theorem Reordered.clientNext_perm (h : dev.Reordered dev') (hi : i ∈ dev.clientNodes) :
    (dev'.clientNext i).Perm (dev.clientNext i) := by
  rw [clientNext, clientNext, h.htmlRoute_eq]
  split_ifs
  · exact .refl _
  · exact h.client.dependents i (Finset.mem_range.1 hi)

theorem Reordered.serverNext_perm (h : dev.Reordered dev') (hi : i ∈ dev.serverNodes) :
    (dev'.serverNext i).Perm (dev.serverNext i) := by
  rw [serverNext, serverNext, isBoundary, isBoundary, h.serverFile_eq]
  split_ifs
  · exact .refl _
  · exact h.server.dependents i (Finset.mem_range.1 hi)

theorem Reordered.traceable (h : dev.Reordered dev') (hdev : dev.Traceable) : dev'.Traceable where
  represented := fun side => match side with
    | .client => h.client.represented
    | .server => h.server.represented
  component := by
    rw [h.clientFile_eq, h.rootOf_eq]
    exact hdev.component
  route := by
    rw [h.serverFile_eq, h.route_lookup]
    exact hdev.route
  html := by
    rw [h.htmlRoute_eq]
    exact hdev.html

theorem Reordered.reach_client (h : dev.Reordered dev') (hdev : dev.Traceable)
    (hi : i ∈ dev.clientNodes) :
    Search.Reach dev'.clientNext i u ↔ Search.Reach dev.clientNext i u :=
  Search.reach_congr (clientNext_subset hdev) (fun _ hv _ => (h.clientNext_perm hv).mem_iff) hi

theorem Reordered.reach_server (h : dev.Reordered dev') (hdev : dev.Traceable)
    (hi : i ∈ dev.serverNodes) :
    Search.Reach dev'.serverNext i u ↔ Search.Reach dev.serverNext i u :=
  Search.reach_congr (serverNext_subset hdev) (fun _ hv _ => (h.serverNext_perm hv).mem_iff) hi

variable {files : List FileIndex} {trace : DependencyTrace} {c : Search FileIndex}

theorem ne_of_mem_clientNext (hht : (dev.htmlRoute i).isSome) (hi : i ∈ dev.clientNext u) :
    u ≠ i := by
  rintro rfl
  rw [clientNext, if_pos hht] at hi
  cases hi

theorem mem_routes (h : dev.ClientShows c trace) (r : RouteIndex) :
    r ∈ trace.incremental_result.framework_routes_affected ↔ ∃ i j k, i ∈ c.log.map Prod.fst
      ∧ dev.rootOf i = some j ∧ Search.Reach dev.serverNext j k ∧ dev.serverRoute k = some r := by
  obtain ⟨s, hsh, hep⟩ := h.server
  rw [hsh.routes, mem_filterMap]
  simp only [hep.mem_log, hep.mem_seen, rootCalls, mem_filterMap, List.mem_map]
  constructor
  · rintro ⟨k, ⟨call, ⟨visit, hvs, hcl⟩, hrc⟩, hr⟩
    obtain ⟨j, hj, rfl⟩ := map_eq_some_iff.1 hcl
    exact ⟨visit.1, j, k, ⟨visit, hvs, rfl⟩, hj, hrc, hr⟩
  · rintro ⟨_, j, k, ⟨visit, hvs, rfl⟩, hj, hrc, hr⟩
    exact ⟨k, ⟨(j, j), ⟨visit, hvs, by rw [hj]; rfl⟩, hrc⟩, hr⟩

theorem mem_hard (h : dev.ClientShows c trace) (r : RouteBundleIndex) :
    r ∈ trace.incremental_result.html_routes_hard_affected ↔
      ∃ visit ∈ c.log, dev.isHard visit = true ∧ dev.htmlRoute visit.1 = some r := by
  rw [h.hard, mem_filterMap]
  simp only [mem_filter, and_assoc]

theorem mem_soft (h : dev.ClientShows c trace) (r : RouteBundleIndex) :
    r ∈ trace.incremental_result.html_routes_soft_affected ↔
      ∃ visit ∈ c.log, dev.isHard visit = false ∧ dev.htmlRoute visit.1 = some r := by
  rw [h.soft, mem_filterMap]
  simp only [mem_filter, Bool.not_eq_true', and_assoc]

/-- Where nothing is mixed, a visit is hard just when its page is. -/
theorem isHard_iff (hmx : dev.Unmixed changed)
    (hrc : ∀ i, i ∈ c.seen → dev.Reached changed i)
    (hep : Search.Explored dev.clientNext (files.map fun i => (i, i)) .start c)
    (hfl : files.toFinset = changed) {visit : FileIndex × FileIndex} (hvs : visit ∈ c.log)
    (hht : (dev.htmlRoute visit.1).isSome) :
    dev.isHard visit = true ↔ dev.Hard changed visit.1 := by
  rcases hep.origin hvs with hcl | ⟨hsn, hnx⟩
  · obtain ⟨i, hi, rfl⟩ := List.mem_map.1 hcl
    refine iff_of_true ?_ (Or.inl (hfl ▸ List.mem_toFinset.2 hi))
    rw [isHard, decide_eq_true rfl, Bool.true_or]
  · have hne := ne_of_mem_clientNext hht hnx
    rw [isHard, decide_eq_false hne, Bool.false_or]
    exact hmx visit.1 visit.2 hht (hrc visit.2 hsn) hnx

theorem Reordered.reached_iff (h : dev.Reordered dev') (hdev : dev.Traceable)
    (hch : ∀ i ∈ changed, i ∈ dev.clientNodes) (i : FileIndex) :
    dev'.Reached changed i ↔ dev.Reached changed i :=
  exists_congr fun s => and_congr_right fun hs => h.reach_client hdev (hch s hs)

theorem Reordered.hard_iff (h : dev.Reordered dev')
    (hch : ∀ i ∈ changed, i ∈ dev.clientNodes) (i : FileIndex) :
    dev'.Hard changed i ↔ dev.Hard changed i := by
  refine or_congr_right (exists_congr fun u => and_congr_right fun hu => ?_)
  rw [h.isAsset_eq, (h.client.dependents u (Finset.mem_range.1 (hch u hu))).mem_iff]

theorem Reordered.affected (h : dev.Reordered dev') (hdev : dev.Traceable)
    (hch : ∀ i ∈ changed, i ∈ dev.clientNodes) {result : IncrementalResult}
    (haf : dev'.Affected changed result) : dev.Affected changed result := by
  refine ⟨fun r => (haf.framework r).trans ?_, fun r => (haf.hard r).trans ?_,
    fun r => (haf.soft r).trans ?_⟩
  · rw [h.rootOf_eq, h.serverRoute_eq]
    refine exists_congr fun i => exists_congr fun j => exists_congr fun k => ?_
    rw [h.reached_iff hdev hch]
    refine and_congr_right fun _ => and_congr_right fun hj => ?_
    rw [h.reach_server hdev (rootOf_mem hj)]
  · simp only [h.reached_iff hdev hch, h.hard_iff hch, h.htmlRoute_eq]
  · simp only [h.reached_iff hdev hch, h.hard_iff hch, h.htmlRoute_eq]

theorem mem_dependents_of_next (hi : i ∈ dev.clientNext u) : i ∈ dev.client_graph.dependents u := by
  rw [clientNext] at hi
  split_ifs at hi
  · cases hi
  · exact hi

theorem htmlRoute_of_next (hi : i ∈ dev.clientNext u) : dev.htmlRoute u = none := by
  rw [clientNext] at hi
  split_ifs at hi with hht
  · cases hi
  · exact not_isSome_iff_eq_none.1 hht

theorem mem_clientNodes_of_next (hdev : dev.Traceable) (hi : i ∈ dev.clientNext u) :
    u ∈ dev.clientNodes :=
  Finset.mem_range.2 (IncrementalGraph.lt_of_dependents (hdev.represented .client).toCore
    (mem_dependents_of_next hi))

theorem Reordered.unmixed (h : dev.Reordered dev') (hdev : dev.Traceable)
    (hch : ∀ i ∈ changed, i ∈ dev.clientNodes) (hmx : dev.Unmixed changed) :
    dev'.Unmixed changed := by
  intro i u hht hu hi
  have hnd : u ∈ dev.clientNodes :=
    h.clientNodes_eq ▸ mem_clientNodes_of_next (h.traceable hdev) hi
  rw [h.isAsset_eq, h.hard_iff hch]
  rw [h.htmlRoute_eq] at hht
  exact hmx i u hht ((h.reached_iff hdev hch u).1 hu)
    ((h.clientNext_perm hnd).mem_iff.1 hi)

/-- Under `Unmixed` a trace in any order finds the routes that the changed files reach. -/
theorem affected_of_unmixed (hdev : dev.Traceable) (hch : ∀ i ∈ changed, i ∈ dev.clientNodes)
    (hmx : dev.Unmixed changed) (hfl : files.toFinset = changed) :
    ∃ trace, dev.traceFiles files ⟨.empty, .empty⟩ = .ok trace
      ∧ dev.Affected changed trace.incremental_result := by
  have hmem : ∀ i, i ∈ files ↔ i ∈ changed := fun i => by rw [← hfl, List.mem_toFinset]
  have hnd : ∀ i ∈ files, i ∈ dev.clientNodes := fun i hi => hch i ((hmem i).1 hi)
  obtain ⟨trace, htr, hsh⟩ := traceFiles_shows hdev hnd clientShows_start
  have hep := explored_clientSearch hdev hnd
  have hsn : ∀ i, i ∈ (dev.clientSearch files .start).seen ↔ dev.Reached changed i := by
    intro i
    rw [hep.mem_seen]
    simp only [List.mem_map, hmem, Reached]
    constructor
    · rintro ⟨_, ⟨s, hs, rfl⟩, hrc⟩
      exact ⟨s, hs, hrc⟩
    · rintro ⟨s, hs, hrc⟩
      exact ⟨_, ⟨s, hs, rfl⟩, hrc⟩
  have hvt : ∀ i, dev.Reached changed i ↔
      ∃ visit ∈ (dev.clientSearch files .start).log, visit.1 = i := by
    intro i
    rw [← hsn, ← hep.mem_log, List.mem_map]
  have hhr : ∀ visit ∈ (dev.clientSearch files .start).log, (dev.htmlRoute visit.1).isSome →
      (dev.isHard visit = true ↔ dev.Hard changed visit.1) := fun visit hvs hht =>
    isHard_iff hmx (fun i => (hsn i).1) hep hfl hvs hht
  refine ⟨trace, htr, fun r => ?_, fun r => ?_, fun r => ?_⟩
  · rw [mem_routes hsh]
    simp only [hep.mem_log, hsn]
  · rw [mem_hard hsh]
    constructor
    · rintro ⟨visit, hvs, hvh, hr⟩
      exact ⟨visit.1, (hvt _).2 ⟨visit, hvs, rfl⟩, hr,
        (hhr visit hvs (isSome_of_mem hr)).1 hvh⟩
    · rintro ⟨i, hi, hr, hih⟩
      obtain ⟨visit, hvs, rfl⟩ := (hvt i).1 hi
      exact ⟨visit, hvs, (hhr visit hvs (isSome_of_mem hr)).2 hih, hr⟩
  · rw [mem_soft hsh]
    constructor
    · rintro ⟨visit, hvs, hvf, hr⟩
      refine ⟨visit.1, (hvt _).2 ⟨visit, hvs, rfl⟩, hr, fun hih => ?_⟩
      rw [(hhr visit hvs (isSome_of_mem hr)).2 hih] at hvf
      exact nomatch hvf
    · rintro ⟨i, hi, hr, his⟩
      obtain ⟨visit, hvs, rfl⟩ := (hvt i).1 hi
      refine ⟨visit, hvs, Bool.eq_false_iff.2 fun hvh => his ?_, hr⟩
      exact (hhr visit hvs (isSome_of_mem hr)).1 hvh

/-- Any way to a page can be the first one that is gone. -/
theorem exists_first (hdev : dev.Traceable) (hcn : ∀ i ∈ changed, i ∈ dev.clientNodes)
    (hht : (dev.htmlRoute i).isSome) (hu : dev.Reached changed u) (hi : i ∈ dev.clientNext u) :
    ∃ dev', dev.Reordered dev' ∧ ∃ files : List FileIndex, files.Nodup ∧ files.toFinset = changed
      ∧ (i, u) ∈ (dev'.clientSearch files .start).log := by
  obtain ⟨s, hs, hrc⟩ := hu
  obtain ⟨path, hnd, hch, hls⟩ := Search.exists_path hrc
  have hst : dev.clientNext i = [] := if_pos hht
  -- the file comes last, since a trace stops there
  have hnew : i ∉ s :: path := by
    intro hmem
    have hls' := Search.last_of_stuck hch hmem hst
    rw [hls] at hls'
    exact ne_of_mem_clientNext hht hi (some.inj hls')
  have hnd' : (s :: (path ++ [i])).Nodup :=
    (@List.nodup_append' _ (s :: path) _).2 ⟨hnd, nodup_singleton i, by simpa using hnew⟩
  have hch' : (s :: (path ++ [i])).IsChain fun v w => w ∈ dev.clientNext v := by
    refine @List.IsChain.append _ _ (s :: path) _ hch (isChain_singleton i) ?_
    rintro v hv _ ⟨⟩
    rw [hls] at hv
    cases hv
    exact hi
  obtain ⟨successor, hsc, hmem⟩ := Search.exists_successor hnd' hch'
  obtain ⟨g', hg', hhd⟩ := IncrementalGraph.exists_reordered (g := dev.client_graph)
    (hdev.represented .client) successor fun v w hvw => mem_dependents_of_next (hmem v w hvw).2
  have hdev' : dev.Reordered { dev with client_graph := g' } :=
    ⟨hg', .refl (hdev.represented .server), rfl⟩
  refine ⟨_, hdev', s :: (changed.erase s).toList, ?_, ?_, ?_⟩
  · rw [nodup_cons, Finset.mem_toList]
    exact ⟨Finset.notMem_erase s changed, Finset.nodup_toList _⟩
  · rw [toFinset_cons, Finset.toList_toFinset, Finset.insert_erase hs]
  · have hsr : (s :: (path ++ [i])).IsChain fun v w =>
        ({ dev with client_graph := g' }.clientNext v).head? = some w := by
      refine hsc.imp fun v w hvw => ?_
      have hw := (hmem v w hvw).2
      rw [clientNext, hdev'.htmlRoute_eq, htmlRoute_of_next hw]
      exact hhd v (Finset.mem_range.1 (mem_clientNodes_of_next hdev hw)) w hvw
    have hlength : (path ++ [i]).length < g'.bundled_files.length + 1 := by
      have hsub : s :: (path ++ [i]) ⊆ List.range dev.client_graph.bundled_files.length := fun v hv =>
        mem_range.2 (Finset.mem_range.1
          (Search.mem_of_chain (clientNext_subset hdev) (hcn s hs) hch' v hv))
      have hle := (subperm_of_subset hnd' hsub).length_le
      rw [length_range, length_cons, ← hg'.bundled_files] at hle
      exact Nat.lt_succ_of_lt hle
    have hfr := Search.dfs_straight (path ++ [i]) (g'.bundled_files.length + 1) s s .start
      hnd' (fun v _ => Finset.notMem_empty v) hsr hlength _ (Search.mem_visits i hls)
    exact (Search.prefix_dfsAll _ (changed.erase s).toList _).subset hfr

theorem unmixed_of_orderIndependent (hdev : dev.Traceable)
    (hch : ∀ i ∈ changed, i ∈ dev.clientNodes) (h : dev.OrderIndependent changed) :
    dev.Unmixed changed := by
  intro i u hht hu hi
  obtain ⟨dev', hdev', files, hnd, hfl, hlog⟩ := exists_first hdev hch hht hu hi
  obtain ⟨trace, htr, haf⟩ := h dev' hdev' files hnd hfl
  have hns : ∀ j ∈ files, j ∈ dev'.clientNodes := fun j hj =>
    hdev'.clientNodes_eq ▸ hch j (hfl ▸ List.mem_toFinset.2 hj)
  obtain ⟨trace', htr', hsh⟩ :=
    traceFiles_shows (hdev'.traceable hdev) hns clientShows_start
  cases htr.symm.trans htr'
  obtain ⟨r, hr⟩ := isSome_iff_exists.1 hht
  have hsm : ∀ j, dev.htmlRoute j = some r → j = i := fun j hj => hdev.html j i r hj hr
  have hvs : dev.isHard (i, u) = dev.isAsset u := by
    rw [isHard, decide_eq_false (ne_of_mem_clientNext hht hi), Bool.false_or]
  cases hat : dev.isAsset u with
  | true =>
    have hmem := (mem_hard hsh r).2 ⟨(i, u), hlog, by rw [hdev'.isHard_eq, hvs, hat],
      by rw [hdev'.htmlRoute_eq]; exact hr⟩
    obtain ⟨j, -, hj, hhr⟩ := (haf.hard r).1 hmem
    exact iff_of_true rfl (hsm j hj ▸ hhr)
  | false =>
    have hmem := (mem_soft hsh r).2 ⟨(i, u), hlog, by rw [hdev'.isHard_eq, hvs, hat],
      by rw [hdev'.htmlRoute_eq]; exact hr⟩
    obtain ⟨j, -, hj, hsf⟩ := (haf.soft r).1 hmem
    exact iff_of_false (by decide) (hsm j hj ▸ hsf)

/-- What a hot update affects depends on no order exactly if the files are not mixed. -/
theorem orderIndependent_iff (hdev : dev.Traceable)
    (hchanged : ∀ i ∈ changed, i ∈ dev.clientNodes) :
    dev.OrderIndependent changed ↔ dev.Unmixed changed := by
  refine ⟨unmixed_of_orderIndependent hdev hchanged, fun hmixed dev' hdev' files _ hfiles => ?_⟩
  have hchanged' : ∀ i ∈ changed, i ∈ dev'.clientNodes := by rwa [hdev'.clientNodes_eq]
  obtain ⟨trace, htrace, haffected⟩ := affected_of_unmixed (hdev'.traceable hdev) hchanged'
    (hdev'.unmixed hdev hchanged hmixed) hfiles
  exact ⟨trace, htrace, hdev'.affected hdev hchanged haffected⟩

/-- The page is the file 0; it imports a script, 1, and an image, 2. -/
def pageGraph : IncrementalGraph .client where
  bundled_files := [
    (some [104], { ClientFile.init (.js []) with html_route_bundle_index := some 0 }),
    (some [106], .init (.js [])),
    (some [112], .init (.asset []))]
  stale_files := [false, false, false]
  first_dep := [none, some 0, some 1]
  first_import := [some 0, none, none]
  edges := [⟨0, 1, some 1, none, none⟩, ⟨0, 2, none, none, none⟩]
  edges_free_list := []
  current_chunk_len := 0
  current_chunk_parts := []
  current_css_files := []
  current_chunk_source_maps := []

def pageDev : DevServer := { init fun _ => none with client_graph := pageGraph }

theorem files_pageGraph {e : EdgeIndex} {f i : FileIndex} (h : pageGraph.files e = some (f, i)) :
    f = 0 ∧ (e = 0 ∧ i = 1 ∨ e = 1 ∧ i = 2) := by
  match e with
  | 0 => cases h; decide
  | 1 => cases h; decide
  | e + 2 => exact nomatch h

/-- The page and its two imports are represented. -/
theorem represented_pageGraph : pageGraph.Represented := by
  have hfl : pageGraph.files 0 = some (0, 1) ∧ pageGraph.files 1 = some (0, 2) := by decide
  have hlt : ∀ {e f i : ℕ}, pageGraph.files e = some (f, i) → f < 3 ∧ i < 3 := by
    intro e f i h
    obtain ⟨rfl, ⟨-, rfl⟩ | ⟨-, rfl⟩⟩ := files_pageGraph h <;> decide
  have hcr : pageGraph.Core := by
    refine ⟨fun e he => (nomatch he), nodup_nil, rfl, rfl, fun e f i h => hlt h, ?_⟩
    intro i hi
    match i, hi with
    | 0, _ =>
      refine ⟨[], nodup_nil, fun e => iff_of_false (fun h => nomatch h) ?_, _, rfl, rfl⟩
      rintro ⟨f, hf⟩
      obtain ⟨-, ⟨-, h⟩ | ⟨-, h⟩⟩ := files_pageGraph hf <;> exact nomatch h
    | 1, _ =>
      refine ⟨[0], nodup_singleton _, fun e => ?_, _, rfl, rfl, rfl, rfl⟩
      rw [mem_singleton]
      refine ⟨fun h => ⟨0, h ▸ hfl.1⟩, fun ⟨f, hf⟩ => ?_⟩
      obtain ⟨-, ⟨h, -⟩ | ⟨-, h⟩⟩ := files_pageGraph hf
      · exact h
      · exact nomatch h
    | 2, _ =>
      refine ⟨[1], nodup_singleton _, fun e => ?_, _, rfl, rfl, rfl, rfl⟩
      rw [mem_singleton]
      refine ⟨fun h => ⟨0, h ▸ hfl.2⟩, fun ⟨f, hf⟩ => ?_⟩
      obtain ⟨-, ⟨-, h⟩ | ⟨h, -⟩⟩ := files_pageGraph hf
      · exact nomatch h
      · exact h
  refine ⟨hcr, fun f hf => ?_⟩
  by_cases hf0 : f = 0
  · subst hf0
    refine ⟨[0, 1], ⟨by decide, fun e => ?_, ?_⟩, _, rfl, rfl, rfl, rfl⟩
    · rw [mem_pair]
      constructor
      · rintro (rfl | rfl)
        · exact ⟨1, hfl.1⟩
        · exact ⟨2, hfl.2⟩
      · rintro ⟨i, hi⟩
        obtain ⟨-, ⟨h, -⟩ | ⟨h, -⟩⟩ := files_pageGraph hi
        · exact Or.inl h
        · exact Or.inr h
    · decide
  · refine ⟨[], ⟨nodup_nil, fun e => iff_of_false (fun h => nomatch h) ?_, fun e he => nomatch he⟩,
      none, ?_, rfl⟩
    · rintro ⟨i, hi⟩
      exact hf0 (files_pageGraph hi).1
    · match f, hf with
      | 1, _ => rfl
      | 2, _ => rfl

theorem traceable_pageDev : pageDev.Traceable where
  represented := fun side => match side with
    | .client => represented_pageGraph
    | .server => represented_init (fun _ => none) .server
  component i file hfl hrt := by
    match i with
    | 0 | 1 | 2 => cases hfl; exact nomatch hrt
    | i + 3 => exact nomatch hfl
  route i file hfl _ := nomatch hfl
  html i j r hi hj := by
    have hpg : ∀ k, pageDev.htmlRoute k = some r → k = 0 := by
      intro k hk
      match k with
      | 0 => rfl
      | 1 | 2 | k + 3 => exact nomatch hk
    rw [hpg i hi, hpg j hj]

theorem unmixed_pageAndImage : pageDev.Unmixed {0, 2} := by
  rintro i u hht ⟨s, hs, hrc⟩ hi
  rw [Finset.mem_insert, Finset.mem_singleton] at hs
  have hu : u = 0 ∨ u = 2 := by
    clear hi
    induction hrc with
    | refl => exact hs
    | tail _ hnx ih =>
      rcases ih with rfl | rfl
      · exact nomatch hnx
      · exact Or.inl (mem_singleton.1 hnx)
  rcases hu with rfl | rfl
  · cases hi
  · obtain rfl : i = 0 := mem_singleton.1 hi
    exact iff_of_true (by decide) (Or.inl (by decide))

/-- The page has to be reloaded, whether it or the image is traced first. -/
theorem orderIndependent_pageAndImage : pageDev.OrderIndependent {0, 2} :=
  (orderIndependent_iff traceable_pageDev (by decide)).2 unmixed_pageAndImage

/-- The script is traced before the image: the page is first visited from the script. -/
theorem not_orderIndependent_scriptAndImage :
    pageDev.Traceable ∧ ¬ pageDev.OrderIndependent {1, 2} := by
  refine ⟨traceable_pageDev, fun h => ?_⟩
  obtain ⟨trace, htrace, haffected⟩ := h pageDev
    ⟨.refl represented_pageGraph, .refl (represented_init (fun _ => none) .server), rfl⟩
    [1, 2] (by decide) rfl
  have hnone : (pageDev.traceFiles [1, 2] ⟨.empty, .empty⟩).toOption.map
      (·.incremental_result.html_routes_hard_affected) = some [] := by rfl
  rw [htrace] at hnone
  have hempty : trace.incremental_result.html_routes_hard_affected = [] := some.inj hnone
  have hhard : 0 ∈ trace.incremental_result.html_routes_hard_affected :=
    (haffected.hard 0).2 ⟨0, ⟨1, by decide, .single (by decide)⟩, rfl,
      Or.inr ⟨2, by decide, rfl, by decide⟩⟩
  rw [hempty] at hhard
  exact nomatch hhard

end DevServer

end Cruller.Bake
