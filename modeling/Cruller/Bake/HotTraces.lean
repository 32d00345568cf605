import Cruller.Bake.GraphRuns
import Cruller.Lib.Dfs

/-!
# What a change of the client's files affects

A trace is a depth-first search along the dependencies, that of the client with one of the server
for each root of it. What is visited does not depend on any order. Whether an HTML file is affected
hard does: it is what the file it is first visited from is.
-/

namespace Cruller.Bake

open List Option Nat

namespace IncrementalGraph

variable {side : Side} {g g' : IncrementalGraph side} {f i : FileIndex}

/-- The files that import this one. -/
def dependents (g : IncrementalGraph side) (i : FileIndex) : List FileIndex :=
  match g.dependencies i with
  | .ok es => es.map (·.dependency)
  | .error _ => []

theorem edgesFrom_eq {edges : List Edge} {next : Edge → Option EdgeIndex} :
    ∀ {es : List EdgeIndex} {fuel : ℕ} {it : Option EdgeIndex},
      IsList (fun e => edges[e]?.bind next) it es → (∀ e ∈ es, e < edges.length) →
      es.length ≤ fuel → edgesFrom edges next fuel it = .ok (es.filterMap (edges[·]?))
  | [], fuel, it, h, _, _ => by
    cases h
    cases fuel <;> rfl
  | e :: es, fuel + 1, it, ⟨hit, h⟩, hlt, hfl => by
    have he := hlt e mem_cons_self
    simp only [getElem?_eq_getElem he] at h
    have hrs := @edgesFrom_eq _ _ es fuel _ h (fun j hj => hlt j (mem_cons_of_mem e hj))
      (le_of_succ_le_succ hfl)
    rw [hit, edgesFrom, getElem?_eq_getElem he]
    simp only [bind_some] at hrs
    change (edgesFrom edges next fuel (next edges[e]) >>= fun rest => _) = _
    rw [hrs, filterMap_cons, getElem?_eq_getElem he]
    rfl

variable {es : List EdgeIndex}

theorem IsDependencyList.length_le (h : g.IsDependencyList i es) :
    es.length ≤ g.edges.length := by
  have hsub : es ⊆ List.range g.edges.length := fun e he => mem_range.2 (h.lt he)
  simpa using (subperm_of_subset h.nodup hsub).length_le

theorem dependencies_eq (h : g.IsDependencyList i es) :
    g.dependencies i = .ok (es.filterMap (g.edges[·]?)) := by
  obtain ⟨it, hit, hls⟩ := h.list
  rw [dependencies, hit]
  exact edgesFrom_eq hls.isList (fun e he => h.lt he) h.length_le

theorem dependents_eq (h : g.IsDependencyList i es) :
    g.dependents i = es.filterMap fun e => (g.files e).map Prod.fst := by
  rw [dependents, dependencies_eq h]
  simp only [map_filterMap]
  refine filterMap_congr fun e he => ?_
  obtain ⟨f, hf⟩ := (h.mem e).1 he
  obtain ⟨-, edge, hed, hpr⟩ := exists_of_files hf
  rw [hf, hed]
  exact congrArg some (Prod.mk.inj hpr).1

theorem mem_dependents (h : g.Core) (hi : i < g.bundled_files.length) :
    f ∈ g.dependents i ↔ ∃ e, g.files e = some (f, i) := by
  obtain ⟨es, hes⟩ := h.dependencies i hi
  rw [dependents_eq hes, mem_filterMap]
  constructor
  · rintro ⟨e, he, hf⟩
    obtain ⟨f', hf'⟩ := (hes.mem e).1 he
    rw [hf'] at hf
    cases hf
    exact ⟨e, hf'⟩
  · rintro ⟨e, he⟩
    exact ⟨e, (hes.mem e).2 ⟨f, he⟩, by rw [he]; rfl⟩

theorem lt_of_mem_dependents (h : g.Core) (hi : i < g.bundled_files.length)
    (hf : f ∈ g.dependents i) : f < g.bundled_files.length := by
  obtain ⟨e, he⟩ := (mem_dependents h hi).1 hf
  exact (h.in_range e f i he).1

theorem lt_of_dependents (h : g.Core) (hf : f ∈ g.dependents i) :
    i < g.bundled_files.length := by
  by_contra hi
  have hno : g.first_dep[i]? = none := by
    simpa using h.first_dep_length ▸ Nat.le_of_not_lt hi
  rw [dependents, dependencies, hno] at hf
  exact nomatch hf

theorem exists_dependencies (h : g.Core) (hi : i < g.bundled_files.length) :
    ∃ es, g.dependencies i = .ok es ∧ es.map (·.dependency) = g.dependents i := by
  obtain ⟨es, hes⟩ := h.dependencies i hi
  refine ⟨_, dependencies_eq hes, ?_⟩
  rw [dependents, dependencies_eq hes]

end IncrementalGraph

namespace DevServer

variable (dev : DevServer)

def clientFile (i : FileIndex) : Option ClientFile :=
  dev.client_graph.bundled_files[i]?.map (·.2)

def serverFile (i : FileIndex) : Option ServerFile :=
  dev.server_graph.bundled_files[i]?.map (·.2)

/-- The page whose script the file is. -/
def htmlRoute (i : FileIndex) : Option RouteBundleIndex :=
  (dev.clientFile i).bind fun file =>
    if file.is_hmr_root then none else file.html_route_bundle_index

/-- The file of the server that a root of hot updates stands for. -/
def rootOf (i : FileIndex) : Option FileIndex :=
  dev.client_graph.bundled_files[i]?.bind fun entry =>
    if entry.2.is_hmr_root then entry.1.bind dev.server_graph.getFileIndex else none

def isAsset (i : FileIndex) : Bool := (dev.clientFile i).any (·.content.isAsset)

def isBoundary (i : FileIndex) : Bool :=
  (dev.serverFile i).any (·.is_client_component_boundary)

/-- The route that a file of the server is. -/
def serverRoute (i : FileIndex) : Option RouteIndex :=
  (dev.serverFile i).bind fun file => if file.is_route then dev.route_lookup i else none

/-- Where the trace goes on from a file of the client. -/
def clientNext (i : FileIndex) : List FileIndex :=
  if (dev.htmlRoute i).isSome then [] else dev.client_graph.dependents i

/-- Where the trace goes on from a file of the server. -/
def serverNext (i : FileIndex) : List FileIndex :=
  if dev.isBoundary i then [] else dev.server_graph.dependents i

/-- The page itself, or an asset of it, changed. -/
def isHard (visit : FileIndex × FileIndex) : Bool := visit.2 = visit.1 || dev.isAsset visit.2

/-- The lists are right, what a trace looks up is there, and an HTML file has a route of its own. -/
structure Traceable (dev : DevServer) : Prop where
  represented : dev.Represented
  component : ∀ i file, dev.clientFile i = some file → file.is_hmr_root = true →
    (dev.rootOf i).isSome
  route : ∀ i file, dev.serverFile i = some file → file.is_route = true →
    (dev.route_lookup i).isSome
  html : ∀ i j r, dev.htmlRoute i = some r → dev.htmlRoute j = some r → i = j

def clientNodes : Finset FileIndex := Finset.range dev.client_graph.bundled_files.length

def serverNodes : Finset FileIndex := Finset.range dev.server_graph.bundled_files.length

variable {dev} {trace : DependencyTrace}

theorem clientNext_subset (h : dev.Traceable) : ∀ v ∈ dev.clientNodes, ∀ w ∈ dev.clientNext v,
    w ∈ dev.clientNodes := by
  intro v hv w hw
  unfold clientNext at hw
  split_ifs at hw
  · exact nomatch hw
  · exact Finset.mem_range.2 (IncrementalGraph.lt_of_mem_dependents (h.represented .client).toCore
      (Finset.mem_range.1 hv) hw)

theorem serverNext_subset (h : dev.Traceable) : ∀ v ∈ dev.serverNodes, ∀ w ∈ dev.serverNext v,
    w ∈ dev.serverNodes := by
  intro v hv w hw
  unfold serverNext at hw
  split_ifs at hw
  · exact nomatch hw
  · exact Finset.mem_range.2 (IncrementalGraph.lt_of_mem_dependents (h.represented .server).toCore
      (Finset.mem_range.1 hv) hw)

/-- The trace of the server shows what the search has visited. -/
structure ServerShows (dev : DevServer) (s : Search FileIndex) (trace : DependencyTrace) :
    Prop where
  bits : trace.gts.bits .server = s.seen
  routes : trace.incremental_result.framework_routes_affected =
    (s.log.map Prod.fst).filterMap dev.serverRoute

/-- Nothing that the trace of the client writes is different. -/
structure SameClient (trace trace' : DependencyTrace) : Prop where
  bits : trace'.gts.bits .client = trace.gts.bits .client
  hard : trace'.incremental_result.html_routes_hard_affected =
    trace.incremental_result.html_routes_hard_affected
  soft : trace'.incremental_result.html_routes_soft_affected =
    trace.incremental_result.html_routes_soft_affected

theorem bits_set (gts : GraphTraceState) (side : Side) (i : FileIndex) :
    (gts.set side i).bits side = insert i (gts.bits side) := Function.update_self ..

theorem bits_set_of_ne (gts : GraphTraceState) {side side' : Side} (hne : side' ≠ side)
    (i : FileIndex) : (gts.set side i).bits side' = gts.bits side' :=
  Function.update_of_ne hne ..

theorem affectServerFile_eq (h : dev.Traceable) {i : FileIndex} {file : ServerFile}
    (hfl : dev.serverFile i = some file) (result : IncrementalResult) :
    ∃ result', dev.affectServerFile file i result = .ok result'
      ∧ result'.framework_routes_affected =
        result.framework_routes_affected ++ (dev.serverRoute i).toList
      ∧ result'.html_routes_hard_affected = result.html_routes_hard_affected
      ∧ result'.html_routes_soft_affected = result.html_routes_soft_affected := by
  have hrt : dev.affectedRoutes file i = .ok (dev.serverRoute i).toList := by
    rw [affectedRoutes, serverRoute, hfl, bind_some]
    split_ifs with hro
    · obtain ⟨route, hlk⟩ := isSome_iff_exists.1 (h.route i file hfl hro)
      rw [hlk]
      rfl
    · rfl
  rw [affectServerFile, hrt]
  exact ⟨_, rfl, rfl, rfl, rfl⟩

theorem getFileByIndex_eq {side : Side} {g : IncrementalGraph side} {i : FileIndex}
    (hi : i < g.bundled_files.length) : g.getFileByIndex i = .ok g.bundled_files[i].2 := by
  rw [IncrementalGraph.getFileByIndex, getElem?_eq_getElem hi]
  rfl

theorem foldlM_dependency {τ : Type} (es : List Edge)
    (call : FileIndex → τ → Outcome τ) (t : τ) :
    es.foldlM (fun t edge => call edge.dependency t) t =
      (es.map (·.dependency)).foldlM (fun t f => call f t) t := by
  rw [foldlM_map]

/-- The call visits a file that has not been seen, and goes on with its dependents. -/
theorem traceDependenciesServer_visit (h : dev.Traceable) (fuel : ℕ) {i : FileIndex}
    (origin : FileIndex) {s : Search FileIndex} (hi : i ∈ dev.serverNodes)
    (hsh : dev.ServerShows s trace) (hsn : i ∉ s.seen) :
    ∃ trace', dev.ServerShows (s.visit i origin) trace' ∧ SameClient trace trace'
      ∧ dev.traceDependenciesServer .stop_at_boundary (fuel + 1) i trace =
        (dev.serverNext i).foldlM
          (fun t w => dev.traceDependenciesServer .stop_at_boundary fuel w t) trace' := by
  have hlt := Finset.mem_range.1 hi
  have hfl : dev.serverFile i = some dev.server_graph.bundled_files[i].2 := by
    rw [serverFile, getElem?_eq_getElem hlt]
    rfl
  obtain ⟨result, haf, hrt, hhr, hsf⟩ :=
    affectServerFile_eq h hfl trace.incremental_result
  refine ⟨⟨trace.gts.set .server i, result⟩, ⟨?_, ?_⟩, ⟨?_, hhr, hsf⟩, ?_⟩
  · rw [bits_set, hsh.bits]
    rfl
  · rw [hrt, hsh.routes, Search.visit, map_append, filterMap_append]
    congr 1
  · exact bits_set_of_ne _ (by decide) i
  · obtain ⟨es, hes, hmap⟩ := IncrementalGraph.exists_dependencies (g := dev.server_graph)
      (h.represented .server).toCore hlt
    have hnot : trace.gts.isSet .server i = false := by
      rw [GraphTraceState.isSet, hsh.bits]
      exact decide_eq_false hsn
    rw [traceDependenciesServer, hnot]
    change (dev.server_graph.getFileByIndex i >>= fun file => _) = _
    rw [getFileByIndex_eq hlt]
    change (dev.affectServerFile _ i trace.incremental_result >>= fun result => _) = _
    rw [haf]
    change (if _ then _ else dev.server_graph.dependencies i >>= fun es => _) = _
    rw [serverNext, isBoundary, hfl, any_some, hes]
    cases dev.server_graph.bundled_files[i].2.is_client_component_boundary with
    | true => rfl
    | false =>
      change List.foldlM _ _ es = _
      rw [foldlM_dependency, hmap]
      rfl

theorem traceDependenciesServer_shows (h : dev.Traceable) {fuel : ℕ} {i : FileIndex}
    {s : Search FileIndex} (hi : i ∈ dev.serverNodes)
    (hfl : (dev.serverNodes \ s.seen).card < fuel) (hsh : dev.ServerShows s trace) :
    ∃ trace', dev.traceDependenciesServer .stop_at_boundary fuel i trace = .ok trace'
      ∧ dev.ServerShows (Search.dfs dev.serverNext fuel i i s) trace'
      ∧ SameClient trace trace' := by
  refine @Search.dfs_simulated _ _ _ _ _ _ (fun s t => dev.ServerShows s t ∧ SameClient trace t)
    (fun fuel v _ t => dev.traceDependenciesServer .stop_at_boundary fuel v t)
    (serverNext_subset h) ?_ ?_ fuel i i s trace hi hi hfl ⟨hsh, rfl, rfl, rfl⟩
  · rintro fuel v origin s t ⟨hsh, -⟩ hsn
    have hset : t.gts.isSet .server v = true := by
      rw [GraphTraceState.isSet, hsh.bits]
      exact decide_eq_true hsn
    rw [traceDependenciesServer, hset]
    rfl
  · rintro fuel v origin s t hv - ⟨hsh, hsm⟩ hsn
    obtain ⟨t', hsh', hsm', heq⟩ :=
      traceDependenciesServer_visit h fuel origin hv hsh hsn
    exact ⟨t', ⟨hsh', hsm'.bits.trans hsm.bits, hsm'.hard.trans hsm.hard,
      hsm'.soft.trans hsm.soft⟩, heq⟩

/-- The files of the server that the visits lead to. -/
def rootCalls (dev : DevServer) (log : List (FileIndex × FileIndex)) :
    List (FileIndex × FileIndex) :=
  log.filterMap fun c => (dev.rootOf c.1).map fun j => (j, j)

/-- The trace of the client shows what the search has visited. -/
structure ClientShows (dev : DevServer) (c : Search FileIndex) (trace : DependencyTrace) :
    Prop where
  bits : trace.gts.bits .client = c.seen
  hard : trace.incremental_result.html_routes_hard_affected =
    (c.log.filter dev.isHard).filterMap fun visit => dev.htmlRoute visit.1
  soft : trace.incremental_result.html_routes_soft_affected =
    (c.log.filter fun visit => !dev.isHard visit).filterMap fun visit => dev.htmlRoute visit.1
  server : ∃ s, dev.ServerShows s trace
    ∧ Search.Explored dev.serverNext (dev.rootCalls c.log) .start s

theorem rootOf_mem {i j : FileIndex} (h : dev.rootOf i = some j) : j ∈ dev.serverNodes := by
  obtain ⟨entry, -, hen⟩ := bind_eq_some_iff.1 h
  split_ifs at hen
  obtain ⟨key, -, hin⟩ := bind_eq_some_iff.1 hen
  exact Finset.mem_range.2 (findIdx?_eq_some_iff_getElem.1 hin).1

variable {i origin : FileIndex} {c : Search FileIndex}

theorem ClientShows.visit (h : dev.ClientShows c trace) (origin : FileIndex)
    (hrt : dev.rootOf i = none) (hht : dev.htmlRoute i = none) :
    dev.ClientShows (c.visit i origin) { trace with gts := trace.gts.set .client i } where
  bits := by
    rw [bits_set, h.bits]
    rfl
  hard := by
    simp [h.hard, Search.visit, hht]
  soft := by
    simp [h.soft, Search.visit, hht]
  server := by
    obtain ⟨s, hs, hep⟩ := h.server
    refine ⟨s, ⟨?_, hs.routes⟩, ?_⟩
    · rw [← hs.bits]
      exact bits_set_of_ne _ (by decide) i
    · rwa [Search.visit, rootCalls, filterMap_append, ← rootCalls, filterMap_cons, hrt,
        map_none, filterMap_nil, append_nil]

theorem ClientShows.visit_html (h : dev.ClientShows c trace) {r : RouteBundleIndex}
    (hrt : dev.rootOf i = none) (hht : dev.htmlRoute i = some r) :
    dev.ClientShows (c.visit i origin) { trace with
      gts := trace.gts.set .client i
      incremental_result := affectHtmlRoute trace.incremental_result (dev.isHard (i, origin)) r }
    where
  bits := by
    rw [bits_set, h.bits]
    rfl
  hard := by
    rw [Search.visit, filter_append, filterMap_append, ← h.hard, affectHtmlRoute]
    cases hhr : dev.isHard (i, origin) <;> simp [hhr, hht]
  soft := by
    rw [Search.visit, filter_append, filterMap_append, ← h.soft, affectHtmlRoute]
    cases hhr : dev.isHard (i, origin) <;> simp [hhr, hht]
  server := by
    obtain ⟨s, hs, hep⟩ := h.server
    refine ⟨s, ⟨?_, ?_⟩, ?_⟩
    · rw [← hs.bits]
      exact bits_set_of_ne _ (by decide) i
    · rw [← hs.routes, affectHtmlRoute]
      split_ifs <;> rfl
    · rwa [Search.visit, rootCalls, filterMap_append, ← rootCalls, filterMap_cons, hrt,
        map_none, filterMap_nil, append_nil]

theorem ClientShows.visit_root (hdev : dev.Traceable) (h : dev.ClientShows c trace) {j : FileIndex}
    (origin : FileIndex) (hrt : dev.rootOf i = some j) (hht : dev.htmlRoute i = none) :
    ∃ trace', dev.traceDependenciesServer .stop_at_boundary
        (dev.server_graph.bundled_files.length + 1) j
        { trace with gts := trace.gts.set .client i } = .ok trace'
      ∧ dev.ClientShows (c.visit i origin) trace' := by
  obtain ⟨s, hs, hep⟩ := h.server
  have hj := rootOf_mem hrt
  have hcr : (dev.serverNodes \ s.seen).card < dev.server_graph.bundled_files.length + 1 := by
    refine lt_succ_of_le ((Finset.card_le_card Finset.sdiff_subset).trans ?_)
    exact (Finset.card_range _).le
  have hs' : dev.ServerShows s { trace with gts := trace.gts.set .client i } :=
    ⟨(bits_set_of_ne _ (by decide) i).trans hs.bits, hs.routes⟩
  obtain ⟨trace', htr, hsh, hsm⟩ := traceDependenciesServer_shows hdev hj hcr hs'
  refine ⟨trace', htr, ?_, ?_, ?_, _, hsh, ?_⟩
  · rw [hsm.bits, bits_set, h.bits]
    rfl
  · simp [hsm.hard, h.hard, Search.visit, hht]
  · simp [hsm.soft, h.soft, Search.visit, hht]
  · rw [Search.visit, rootCalls, filterMap_append, ← rootCalls, filterMap_cons, hrt,
      map_some, filterMap_nil]
    exact hep.append (Search.explored_dfs (serverNext_subset hdev) _ j j s hj hcr)

/-- The call visits a file that has not been seen, and goes on as the search does. -/
theorem traceDependenciesClient_visit (hdev : dev.Traceable) (fuel : ℕ)
    (hi : i ∈ dev.clientNodes) (hor : origin ∈ dev.clientNodes)
    (h : dev.ClientShows c trace) (hsn : i ∉ c.seen) :
    ∃ trace', dev.ClientShows (c.visit i origin) trace'
      ∧ dev.traceDependenciesClient .stop_at_boundary (dev.server_graph.bundled_files.length + 1)
          (fuel + 1) i origin trace =
        (dev.clientNext i).foldlM (fun t w => dev.traceDependenciesClient .stop_at_boundary
          (dev.server_graph.bundled_files.length + 1) fuel w i t) trace' := by
  have hlt := Finset.mem_range.1 hi
  have hen : dev.client_graph.bundled_files[i]? = some dev.client_graph.bundled_files[i] :=
    getElem?_eq_getElem hlt
  have hfl : dev.clientFile i = some dev.client_graph.bundled_files[i].2 := by
    rw [clientFile, hen]
    rfl
  obtain ⟨es, hes, hmap⟩ := IncrementalGraph.exists_dependencies (g := dev.client_graph)
    (hdev.represented .client).toCore hlt
  have hnot : trace.gts.isSet .client i = false := by
    rw [GraphTraceState.isSet, h.bits]
    exact decide_eq_false hsn
  have hrec : ∀ t : DependencyTrace, (dev.client_graph.dependencies i >>= fun es =>
      es.foldlM (fun t edge => dev.traceDependenciesClient .stop_at_boundary
        (dev.server_graph.bundled_files.length + 1) fuel edge.dependency i t) t) =
      (dev.client_graph.dependents i).foldlM (fun t w => dev.traceDependenciesClient
        .stop_at_boundary (dev.server_graph.bundled_files.length + 1) fuel w i t) t := by
    intro t
    rw [hes, ← hmap, foldlM_map]
    rfl
  rw [traceDependenciesClient, hnot]
  change ∃ trace', _ ∧ (dev.client_graph.getFileByIndex i >>= fun file => _) = _
  rw [getFileByIndex_eq hlt]
  cases hhmr : dev.client_graph.bundled_files[i].2.is_hmr_root with
  | true =>
    have hht : dev.htmlRoute i = none := by
      rw [htmlRoute, hfl, bind_some, if_pos hhmr]
    obtain ⟨j, hrt⟩ := isSome_iff_exists.1 (hdev.component i _ hfl hhmr)
    obtain ⟨trace', htr, hsh⟩ := h.visit_root hdev origin hrt hht
    refine ⟨trace', hsh, ?_⟩
    have hin : dev.client_graph.bundled_files[i].1.bind dev.server_graph.getFileIndex =
        some j := by
      rwa [rootOf, hen, bind_some, if_pos hhmr] at hrt
    rw [clientNext, hht]
    change (if dev.client_graph.bundled_files[i].2.is_hmr_root = true then _ else _) = _
    rw [if_pos hhmr, hen]
    change (orElsePanic _ (dev.client_graph.bundled_files[i].1.bind _) >>= fun index => _) = _
    rw [hin]
    change (dev.traceDependenciesServer _ _ j _ >>= fun t => _) = _
    rw [htr]
    exact hrec trace'
  | false =>
    have hrt : dev.rootOf i = none := by
      rw [rootOf, hen, bind_some, if_neg (by rw [hhmr]; decide)]
    cases hht : dev.client_graph.bundled_files[i].2.html_route_bundle_index with
    | none =>
      have hno : dev.htmlRoute i = none := by
        rw [htmlRoute, hfl, bind_some, hht, ite_self]
      refine ⟨_, h.visit origin hrt hno, ?_⟩
      rw [clientNext, hno]
      change (if dev.client_graph.bundled_files[i].2.is_hmr_root = true then _ else _) = _
      rw [if_neg (by rw [hhmr]; decide), hht]
      exact hrec _
    | some r =>
      have hsm : dev.htmlRoute i = some r := by
        simp [htmlRoute, hfl, hht]
        omega
      refine ⟨_, h.visit_html hrt hsm, ?_⟩
      have hlt' := Finset.mem_range.1 hor
      have hhr : dev.isHard (i, origin) = (decide (origin = i) ||
          dev.client_graph.bundled_files[origin].2.content.isAsset) := by
        rw [isHard, isAsset, clientFile, getElem?_eq_getElem hlt']
        rfl
      rw [clientNext, hsm, hhr]
      change (if dev.client_graph.bundled_files[i].2.is_hmr_root = true then _ else _) = _
      rw [if_neg (by rw [hhmr]; decide), hht]
      change (dev.client_graph.getFileByIndex origin >>= fun from_file => _) = _
      rw [getFileByIndex_eq hlt']
      rfl

theorem traceDependenciesClient_shows (hdev : dev.Traceable) {fuel : ℕ}
    (hi : i ∈ dev.clientNodes) (hor : origin ∈ dev.clientNodes)
    (hfl : (dev.clientNodes \ c.seen).card < fuel) (h : dev.ClientShows c trace) :
    ∃ trace', dev.traceDependenciesClient .stop_at_boundary
        (dev.server_graph.bundled_files.length + 1) fuel i origin trace = .ok trace'
      ∧ dev.ClientShows (Search.dfs dev.clientNext fuel i origin c) trace' := by
  refine Search.dfs_simulated (R := fun c t => dev.ClientShows c t) (clientNext_subset hdev)
    ?_ ?_ fuel i origin c trace hi hor hfl h
  · intro fuel v origin c t h hsn
    have hset : t.gts.isSet .client v = true := by
      rw [GraphTraceState.isSet, h.bits]
      exact decide_eq_true hsn
    rw [traceDependenciesClient, hset]
    rfl
  · exact fun fuel v origin c t hv ho h hsn =>
      traceDependenciesClient_visit hdev fuel hv ho h hsn

/-- Files that changed are traced one after another, with one set of visited files. -/
def traceFiles (dev : DevServer) (files : List FileIndex) (trace : DependencyTrace) :
    Outcome DependencyTrace :=
  files.foldlM (fun trace i => dev.traceDependencies .stop_at_boundary .client i i trace) trace

/-- The search from each of the files that changed. -/
def clientSearch (dev : DevServer) (files : List FileIndex) (c : Search FileIndex) :
    Search FileIndex :=
  Search.dfsAll dev.clientNext (dev.client_graph.bundled_files.length + 1) files c

theorem traceFiles_shows (hdev : dev.Traceable) : ∀ {files : List FileIndex}
    {c : Search FileIndex} {trace : DependencyTrace}, (∀ i ∈ files, i ∈ dev.clientNodes) →
      dev.ClientShows c trace → ∃ trace', dev.traceFiles files trace = .ok trace'
        ∧ dev.ClientShows (dev.clientSearch files c) trace'
  | [], _, trace, _, h => ⟨trace, rfl, h⟩
  | i :: files, c, trace, hfl, h => by
    have hi := hfl i mem_cons_self
    have hcr : (dev.clientNodes \ c.seen).card < dev.client_graph.bundled_files.length + 1 :=
      lt_succ_of_le ((Finset.card_le_card Finset.sdiff_subset).trans (Finset.card_range _).le)
    obtain ⟨trace', htr, hsh⟩ := traceDependenciesClient_shows hdev hi hi hcr h
    obtain ⟨trace'', htc, hsh'⟩ := @traceFiles_shows hdev files _ _
      (fun j hj => hfl j (mem_cons_of_mem i hj)) hsh
    refine ⟨trace'', ?_, hsh'⟩
    rw [traceFiles, foldlM_cons, traceDependencies, htr]
    exact htc

theorem clientShows_start : dev.ClientShows .start ⟨.empty, .empty⟩ :=
  ⟨rfl, rfl, rfl, .start, ⟨rfl, rfl⟩, .nil _⟩

theorem explored_clientSearch (hdev : dev.Traceable) {files : List FileIndex}
    (hfl : ∀ i ∈ files, i ∈ dev.clientNodes) :
    Search.Explored dev.clientNext (files.map fun i => (i, i)) .start
      (dev.clientSearch files .start) :=
  Search.explored_dfsAll (clientNext_subset hdev)
    (by rw [clientNodes, Finset.card_range]; exact lt_succ_self _) files .start hfl

end DevServer

end Cruller.Bake
