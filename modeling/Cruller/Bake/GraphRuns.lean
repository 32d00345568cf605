import Cruller.Bake.ImportLists

/-!
# The lists of the edges throughout a run

Each operation on a graph leaves its lists right, but one: a file whose bit is set in
`server_seen_bit_set` loses its import list, and keeps the edges that were in it.
-/

namespace Cruller.Bake

open List Option

namespace DevServer

open IncrementalGraph

variable {allow_assert : Bool} {dev dev' : DevServer}

/-- Both graphs are what their lists say. -/
def Represented (dev : DevServer) : Prop := ∀ side, (dev.graph side).Represented

theorem Represented.setGraph (h : dev.Represented) {side : Side} {g : IncrementalGraph side}
    (hg : g.Represented) : (dev.setGraph g).Represented := by
  intro side'
  cases side <;> cases side' <;> first
    | exact hg
    | exact h .client
    | exact h .server

theorem Represented.grow (h : dev.Represented) {side : Side} {g : IncrementalGraph side}
    {count : ℕ} (hgr : (dev.graph side).Grown count g) : (dev.setGraph g).Represented :=
  h.setGraph (hgr.represented (h side))

theorem Represented.of_graphs (h : dev.Represented) (hgr : ∀ side, dev'.graph side = dev.graph side) :
    dev'.Represented :=
  fun side => hgr side ▸ h side

/-- The import list of a file that `server_seen_bit_set` has is not to be made anew, so that there
must be nothing in it. -/
def KeepsEdges (dev : DevServer) : GraphOp → Prop
  | .processChunkDependencies ctx _ .server .normal index =>
    ∀ file_index ∈ ctx.getCachedIndex .server index, ctx.server_seen_bit_set file_index = true →
      dev.server_graph.first_import[file_index]? = some none
  | _ => True

instance : ∀ op, Decidable (dev.KeepsEdges op)
  | .processChunkDependencies ctx _ .server .normal index =>
    inferInstanceAs (Decidable (∀ file_index ∈ ctx.getCachedIndex .server index,
      ctx.server_seen_bit_set file_index = true →
        dev.server_graph.first_import[file_index]? = some none))
  | .processChunkDependencies _ _ .server .css _ | .processChunkDependencies _ _ .client _ _
  | .receiveChunk .. | .insertCssFileOnServer .. | .insertEmpty .. | .insertStale ..
  | .insertFailure .. | .onFileDeleted .. | .disconnectAndDeleteFile .. | .traceImports .. =>
    isTrue trivial

variable {side : Side}

theorem lt_of_first_import {g : IncrementalGraph side} (h : g.Represented)
    {f : FileIndex} {it : Option EdgeIndex} (hit : g.first_import[f]? = some it) :
    f < g.bundled_files.length :=
  h.first_import_length ▸ (List.getElem?_eq_some_iff.1 hit).1

/-- The import list of a file is made anew without losing an edge. -/
theorem processChunkDependencies_represented (h : dev.Represented) (ctx : HotUpdateContext)
    (fuel : ℕ) (side : Side) (mode : ChunkMode) (index : BundleIndex)
    (hkp : dev.KeepsEdges (.processChunkDependencies ctx fuel side mode index)) :
    Ends (fun r => r.1.Represented) (fun _ => True)
      (dev.processChunkDependencies allow_assert ctx fuel side mode index) := by
  unfold processChunkDependencies
  cases hch : ctx.getCachedIndex side index with
  | none => trivial
  | some f =>
    change Ends _ _ (orElsePanic .outOfBounds (dev.graph side).first_import[f]? >>= _)
    cases hit : (dev.graph side).first_import[f]? with
    | none => trivial
    | some it =>
      have hlt := lt_of_first_import (h side) hit
      obtain ⟨es, it', hit', hls, hdt⟩ := (h side).detached hlt
      cases some.inj (hit.symm.trans hit')
      refine (@quickLookup_eq allow_assert _ _ _ _ (fun e he => (hdt.mem e).1 he)
        (dev.graph side).edges.length it [] hls).bind ?_
      rintro lookup ⟨added, heq, hmap, had⟩
      obtain rfl : lookup = added := heq
      simp only
      split_ifs with hsn
      · obtain ⟨hmd, hbit⟩ := Bool.and_eq_true_iff.1 hsn
        obtain ⟨hmd, hsd⟩ := Bool.and_eq_true_iff.1 hmd
        have hmd := of_decide_eq_true hmd
        have hsd := of_decide_eq_true hsd
        subst hmd
        subst hsd
        have hno := hkp f hch hbit
        have hrep := @Detached.represented _ _ _ _ hdt none (by
          cases some.inj (hit.symm.trans hno)
          exact hls)
        exact h.setGraph hrep
      · have hst : Rebuilding f lookup.length {
            g := dev.graph side
            quick_lookup := lookup
            new_imports := none
            had_adjusted_edges := dev.incremental_result.had_adjusted_edges
            gts := ctx.gts } := by
          refine ⟨hlt, hmap.symm ▸ hdt, fun entry hen => (had entry hen).1,
            ⟨[], rfl, nodup_nil, fun e => ?_⟩, fun entry hen => ?_⟩
          · refine iff_of_false (fun hmem => nomatch hmem) ?_
            rintro ⟨entry, hen, heq⟩
            have hsn := (had entry hen).2
            rw [heq] at hsn
            exact nomatch hsn
          · rw [drop_length] at hen
            exact nomatch hen
        refine (processRecords_rebuilding allow_assert ctx fuel mode index hst).bind
          fun a ha => ?_
        refine (freeUnseen_represented ha allow_assert).bind fun g hg => ?_
        refine (ends_true _).bind fun trace _ => ?_
        exact (h.setGraph hg).of_graphs fun side' => by cases side' <;> rfl

theorem disconnectAll_represented {g : IncrementalGraph side} (h : g.Represented)
    (f : FileIndex) :
    Ends (fun g' => g'.Represented) (fun _ => True) (g.disconnectAll allow_assert f) := by
  cases hit : g.first_import[f]? with
  | none =>
    unfold disconnectAll
    rw [hit]
    trivial
  | some it =>
    obtain ⟨g', hall, hg', -⟩ := disconnectAll_eq h (lt_of_first_import h hit) allow_assert
    rw [hall]
    exact hg'

theorem onFileDeleted_represented {g : IncrementalGraph side} (h : g.Represented)
    (abs_path : GraphKey) : Ends (fun r => r.1.Represented) (fun _ => True)
      (g.onFileDeleted allow_assert abs_path) := by
  unfold onFileDeleted
  split
  · exact h
  · refine (disconnectAll_represented h _).bind fun g' hg' => ?_
    refine (ends_true _).bind fun deps _ => ?_
    exact (ends_true (deps.mapM _)).bind fun _ _ => hg'

theorem disconnectAndDeleteFile_represented {g : IncrementalGraph side}
    (h : g.Represented) (f : FileIndex) : Ends (fun g' => g'.Represented) (fun _ => True)
      (g.disconnectAndDeleteFile allow_assert f) := by
  unfold disconnectAndDeleteFile
  refine (ends_true (assert _ _)).bind fun _ _ => ?_
  refine (disconnectAll_represented h _).bind fun g' hg' => ?_
  refine (ends_true (assert _ _)).bind fun _ _ => ?_
  refine (ends_true (assert _ _)).bind fun _ _ => ?_
  exact Grown.represented (g := g') (.of_eq rfl rfl rfl rfl (length_modify ..)) hg'

theorem solveFailure_graph (dev : DevServer) (failed : Bool) (owner : SerializedFailure.Owner)
    (missing : GraphPanic) : Ends (fun dev' => ∀ side, dev'.graph side = dev.graph side)
      (fun _ => True) (dev.solveFailure failed owner missing) := by
  unfold solveFailure
  split_ifs
  · refine (ends_true (orElsePanic _ _)).bind fun r _ => ?_
    intro side
    cases side <;> rfl
  · exact fun _ => rfl

theorem updateBoundary_represented (h : dev.Represented) (key : GraphKey) (f : FileIndex)
    (was_boundary is_boundary : Bool) : Ends Represented (fun _ => True)
      (dev.updateBoundary allow_assert key f was_boundary is_boundary) := by
  unfold updateBoundary
  split_ifs
  · exact h.of_graphs fun side => by cases side <;> rfl
  · refine (ends_true (orElsePanic _ _)).bind fun client_index _ => ?_
    refine (disconnectAndDeleteFile_represented (h .client) _).bind fun g hg => ?_
    exact (@Represented.setGraph _ h .client _ hg).of_graphs fun side => by cases side <;> rfl
  · exact h

theorem trackClientChunk_grown (g : IncrementalGraph .client) (f : FileIndex)
    (content : ChunkContent) : g.Grown 0 (trackClientChunk g f content) := by
  cases content <;> exact .of_eq rfl rfl rfl rfl rfl

theorem trackServerChunk_grown (g : IncrementalGraph .server) (f : FileIndex)
    (content : ChunkContent) : g.Grown 0 (trackServerChunk g f content) := by
  cases content <;> exact .of_eq rfl rfl rfl rfl rfl

theorem receiveChunkClient_represented (h : dev.Represented) (ctx : HotUpdateContext)
    (index : BundleIndex) (content : ChunkContent) : Ends (fun r => r.1.Represented)
      (fun _ => True) (dev.receiveChunkClient allow_assert ctx index content) := by
  unfold receiveChunkClient
  refine (ends_true (assertNotEmpty _ _)).bind fun _ _ => ?_
  refine (getOrPut_grown _).bind fun r ⟨count, hgr⟩ => ?_
  have hst := @Represented.grow _ h .client _ _ (hgr.trans
    (@Grown.of_eq _ _ (r.2.setStale r.1.index false) rfl rfl rfl rfl rfl))
  refine (solveFailure_graph _ _ _ _).bind fun dev' hdev' => ?_
  refine (ends_true (clientSourceMap _ _ _)).bind fun source_map _ => ?_
  refine (ends_true (pack _ _)).bind fun file _ => ?_
  exact @Represented.grow _ (hst.of_graphs hdev') .client _ _
    ((setFile_grown _ _).trans (trackClientChunk_grown _ _ _))

theorem receiveChunkServer_represented (h : dev.Represented) (ctx : HotUpdateContext)
    (index : BundleIndex) (content : ChunkContent) (is_ssr_graph : Bool) :
    Ends (fun r => r.1.Represented) (fun _ => True)
      (dev.receiveChunkServer allow_assert ctx index content is_ssr_graph) := by
  unfold receiveChunkServer
  refine (ends_true (assertNotEmpty _ _)).bind fun _ _ => ?_
  refine (getOrPut_grown _).bind fun r ⟨count, hgr⟩ => ?_
  have hst := @Represented.grow _ h .server _ _ (hgr.trans
    (@Grown.of_eq _ _ (r.2.setStale r.1.index false) rfl rfl rfl rfl rfl))
  refine (updateBoundary_represented hst _ _ _ _).bind fun dev' hdev' => ?_
  have hset : ∀ file, Represented { dev' with
      server_graph := dev'.server_graph.setFile r.1.index file } := fun file =>
    @Represented.grow _ hdev' .server _ _ (setFile_grown r.1.index file)
  refine (solveFailure_graph _ _ _ _).bind fun dev'' hdev'' => ?_
  exact @Represented.grow _ ((hset _).of_graphs hdev'') .server _ _ (trackServerChunk_grown _ _ _)

theorem insertFailure_represented (h : dev.Represented) (side : Side) (key : FailureKey)
    (messages : List (List UInt8)) (is_ssr_graph : Bool) : Ends Represented (fun _ => True)
      (dev.insertFailure allow_assert side key messages is_ssr_graph) := by
  unfold insertFailure
  have hfn : Ends (fun r => ∃ count, (dev.graph side).Grown count r.2) (fun _ => True)
      (key.find (dev.graph side)) := by
    cases key with
    | abs_path path => exact getOrPut_grown path
    | index index => exact (ends_true _).bind fun _ _ => ⟨0, .of_eq rfl rfl rfl rfl rfl⟩
  refine hfn.bind fun r ⟨count, hgr⟩ => ?_
  refine (ends_true (staleFile _ _ _ _)).bind fun file _ => ?_
  refine (ends_true (assert _ _)).bind fun _ _ => ?_
  have hset := h.grow (hgr.trans (@Grown.of_eq _ _
    (((r.2.ensureStaleBitCapacity true).setStale r.1.index true).setFile r.1.index
      (setFailed file)) rfl rfl rfl rfl (length_modify ..)))
  refine hset.of_graphs fun side' => ?_
  unfold addFailure
  cases side' <;> simp only <;> split <;> rfl

/-- Every operation keeps the graph represented. -/
theorem step_represented (op : GraphOp) (h : dev.Represented) (hkp : dev.KeepsEdges op) :
    Ends Represented (fun _ => True) (dev.step allow_assert op) := by
  cases op with
  | receiveChunk side ctx index content is_ssr_graph =>
    cases side with
    | client => exact (receiveChunkClient_represented h ctx index content).map fun r hr => hr
    | server =>
      exact (receiveChunkServer_represented h ctx index content is_ssr_graph).map fun r hr => hr
  | insertCssFileOnServer ctx index abs_path =>
    refine Ends.map (I := fun r => r.1.Represented) ?_ fun r hr => hr
    refine (getOrPut_grown abs_path).bind fun r ⟨count, hgr⟩ => ?_
    exact @Represented.grow _ h .server _ _ (hgr.trans (setFile_grown _ _))
  | insertEmpty side abs_path kind =>
    exact (insertEmpty_grown _ abs_path kind).map fun r ⟨count, hgr⟩ => h.grow hgr
  | insertStale side abs_path is_ssr_graph is_route =>
    refine Ends.map (I := fun r => r.2.Represented) ?_ fun r hr => hr
    refine (getOrPut_grown abs_path).bind fun r ⟨count, hgr⟩ => ?_
    refine (ends_true (staleFile _ _ _ _)).bind fun file _ => ?_
    exact h.grow (hgr.trans (@Grown.of_eq _ _ ((r.2.setStale r.1.index true).setFile r.1.index file)
      rfl rfl rfl rfl (length_modify ..)))
  | insertFailure side key messages is_ssr_graph =>
    exact insertFailure_represented h side key messages is_ssr_graph
  | processChunkDependencies ctx fuel side mode index =>
    exact (processChunkDependencies_represented h ctx fuel side mode index hkp).map
      fun r hr => hr
  | onFileDeleted side abs_path =>
    exact (onFileDeleted_represented (h side) abs_path).map fun r hr => h.setGraph hr
  | disconnectAndDeleteFile side file_index =>
    exact (disconnectAndDeleteFile_represented (h side) file_index).map
      fun g hg => h.setGraph hg
  | traceImports side file_index gts goal =>
    refine Ends.map (I := fun r => r.2.Represented) ?_ fun r hr => hr
    have hdn : ∀ (trace : ImportTrace) (result : IncrementalResult), Represented { dev with
        client_graph := { dev.client_graph with
          current_css_files := trace.current_css_files
          current_chunk_parts := trace.current_chunk_parts
          current_chunk_len := trace.current_chunk_len }
        incremental_result := result } := by
      intro trace result
      have hset := @Represented.grow _ h .client _ _ (@Grown.of_eq _ _ { dev.client_graph with
        current_css_files := trace.current_css_files
        current_chunk_parts := trace.current_chunk_parts
        current_chunk_len := trace.current_chunk_len } rfl rfl rfl rfl rfl)
      exact hset.of_graphs fun side' => by cases side' <;> rfl
    unfold traceImports
    cases side with
    | client =>
      exact (ends_true (traceImportsClient _ _ _ _ _ _)).bind fun trace _ => hdn trace _
    | server =>
      exact (ends_true (traceImportsServer _ _ _ _ _ _ _)).bind fun trace _ => hdn trace _

/-- The empty graphs are represented. -/
theorem represented_init (route_lookup : FileIndex → Option RouteIndex) :
    (init route_lookup).Represented := by
  intro side
  have hem : (IncrementalGraph.empty : IncrementalGraph side).Represented := by
    have hcr : (IncrementalGraph.empty : IncrementalGraph side).Core := by
      refine ⟨?_, nodup_nil, rfl, rfl, ?_, fun i hi => absurd hi (Nat.not_lt_zero i)⟩
      · intro e he
        exact nomatch he
      · intro e f i hfl
        exact nomatch hfl
    exact ⟨hcr, fun f hf => absurd hf (Nat.not_lt_zero f)⟩
  cases side <;> exact hem

/-- In a run that does not leave a file's edges without their list, the lists are right after every
operation. An operation may also panic or, where the files of a CSS bundle go round, not end. -/
theorem represented_of_run (allow_assert : Bool) (route_lookup : FileIndex → Option RouteIndex)
    (ops : List GraphOp) (hkeeps : Meets (step allow_assert) KeepsEdges (init route_lookup) ops) :
    Ends Represented (fun _ => True) ((init route_lookup).run allow_assert ops) :=
  ends_foldlM (fun _ op h hop => step_represented op h hop) (represented_init route_lookup) hkeeps

/-- A bundle whose source 1 is the first file of the server, which imports the path `b`. -/
def importContext (seen : Bool) : HotUpdateContext where
  path _ := [97]
  loaders _ := .js
  import_records _ := [⟨false, some 2, [98]⟩]
  server_to_client_bitset _ := false
  server_seen_bit_set _ := seen
  resolved_index_cache _ index := if index = 1 then some 0 else none
  gts := .empty

/-- Two files, and the import of one of them by the other. -/
def importOps (seen : Bool) : List GraphOp :=
  [.insertStale .server [97] false false, .insertStale .server [98] false false,
    .processChunkDependencies (importContext false) 0 .server .normal 1,
    .processChunkDependencies (importContext seen) 0 .server .normal 1]

/-- One file imports the other, and is traced twice. -/
theorem represented_importOps :
    Meets (step true) KeepsEdges (init fun _ => none) (importOps false)
      ∧ Ends Represented (fun _ => True) ((init fun _ => none).run true (importOps false))
      ∧ ((init fun _ => none).run true (importOps false)).isOk = true :=
  have hkeeps : Meets (step true) KeepsEdges (init fun _ => none) (importOps false) := by decide
  ⟨hkeeps, represented_of_run true (fun _ => none) (importOps false) hkeeps, by decide⟩

/-- The edge is in no import list when its file has been seen before. -/
theorem not_represented_seen :
    ¬ ∀ (allow_assert : Bool) (route_lookup : FileIndex → Option RouteIndex)
      (ops : List GraphOp),
      Ends Represented (fun _ => True) ((init route_lookup).run allow_assert ops) := by
  intro hall
  have hend := hall true (fun _ => none) (importOps true)
  have hat : ((init fun _ => none).run true (importOps true)).toOption.map (fun dev =>
      (dev.server_graph.bundled_files.length, dev.server_graph.first_import[0]?,
        dev.server_graph.files 0)) = some (2, some none, some (0, 1)) := by decide
  cases hrun : (init fun _ => none).run true (importOps true) with
  | error p =>
    rw [hrun] at hat
    cases hat
  | ok dev =>
    rw [hrun] at hend hat
    simp only [Except.toOption, map_some, some.injEq, Prod.mk.injEq] at hat
    obtain ⟨hlength, hfirst, hfiles⟩ := hat
    obtain ⟨es, hes⟩ := (hend .server).imports 0 (by
      change 0 < dev.server_graph.bundled_files.length
      omega)
    obtain ⟨it, hit, hlist⟩ := hes.list
    cases some.inj (hfirst.symm.trans hit)
    have hempty : es = [] := hlist.unique rfl
    have hmem := (hes.mem 0).2 ⟨1, hfiles⟩
    rw [hempty] at hmem
    exact nomatch hmem

end DevServer

end Cruller.Bake
