import Cruller.Bake.HotUpdate
import Cruller.Lib.Throughout

/-!
# The failures of the files

A file that failed has a failure in the list of those that are shown, and no other file has one.
The flag and the list are written by different lines; `insertCssFileOnServer` writes a file anew,
its flag with it, and leaves the list alone.
-/

namespace Cruller.Bake

open List Option

/-- The panics that say that a failure was not found. -/
def GraphPanic.isMissingFailure : GraphPanic → Bool
  | missingSerializedFailure | missingFailure | failedToGetBundlingFailure => true
  | _ => false

/-- A panic of another kind, which the invariant does not speak of. -/
abbrev GraphPanic.Other (p : GraphPanic) : Prop := p.isMissingFailure = false

theorem ends_orElsePanic {α : Type} {p : GraphPanic} (hp : p.Other) (o : Option α) :
    Ends (o = some ·) GraphPanic.Other (orElsePanic p o) := by
  cases o with
  | none => exact hp
  | some a => rfl

theorem ends_assert (allow_assert ok : Bool) :
    Ends (fun _ => True) GraphPanic.Other (assert allow_assert ok) := by
  unfold assert
  split_ifs
  · rfl
  · trivial

namespace IncrementalGraph

variable {side : Side} {allow_assert : Bool} {g g' g'' : IncrementalGraph side} {i : FileIndex}

/-! ## What keeps the files -/

/-- The file has its `failed` set. -/
def FailedAt (g : IncrementalGraph side) (i : FileIndex) : Prop :=
  (g.bundled_files.map fun entry => Side.failed entry.2)[i]? = some true

instance : Decidable (g.FailedAt i) := inferInstanceAs (Decidable (_ = _))

/-- The same files have failed. -/
def SameFailed (g g' : IncrementalGraph side) : Prop := ∀ i, g'.FailedAt i ↔ g.FailedAt i

theorem SameFailed.of_files (h : g'.bundled_files = g.bundled_files) : g.SameFailed g' := by
  intro i
  rw [FailedAt, FailedAt, h]

theorem SameFailed.trans (h : g.SameFailed g') (h' : g'.SameFailed g'') : g.SameFailed g'' :=
  fun i => (h' i).trans (h i)

theorem ends_modifyEdge (index : EdgeIndex) (f : Edge → Edge) :
    Ends (·.bundled_files = g.bundled_files) GraphPanic.Other (g.modifyEdge index f) := by
  unfold modifyEdge
  split_ifs <;> rfl

theorem ends_newEdge (edge : Edge) :
    Ends (·.2.bundled_files = g.bundled_files) GraphPanic.Other (g.newEdge edge) := by
  unfold newEdge
  split
  · exact (ends_modifyEdge _ _).bind fun _ h => h
  · split_ifs <;> rfl

theorem ends_disconnectEdgeFromDependencyList (index : EdgeIndex) :
    Ends (·.bundled_files = g.bundled_files) GraphPanic.Other
      (g.disconnectEdgeFromDependencyList allow_assert index) := by
  unfold disconnectEdgeFromDependencyList
  refine (ends_orElsePanic rfl _).bind fun edge _ => ?_
  split
  · refine (ends_modifyEdge _ _).bind fun g' hg' => ?_
    rw [← hg']
    split
    · exact ends_modifyEdge _ _
    · rfl
  · refine (ends_assert _ _).bind fun _ _ => ?_
    split
    · exact (ends_modifyEdge _ _).bind fun g' hg' => hg'
    · rfl

theorem ends_disconnectImports (index : FileIndex) : ∀ (fuel : ℕ) (it : Option EdgeIndex)
    (g : IncrementalGraph side), Ends (·.bundled_files = g.bundled_files) GraphPanic.Other
      (disconnectImports allow_assert index fuel it g)
  | 0, none, _ => rfl
  | _ + 1, none, _ => rfl
  | 0, some _, _ => rfl
  | fuel + 1, some edge_index, g => by
    rw [disconnectImports]
    refine (ends_orElsePanic rfl _).bind fun dep _ => ?_
    refine (ends_assert _ _).bind fun _ _ => ?_
    refine (ends_disconnectEdgeFromDependencyList _).bind fun g' hg' => ?_
    rw [← hg', ← bundled_files_freeEdge g' edge_index]
    exact ends_disconnectImports index fuel _ _

theorem ends_disconnectAll (index : FileIndex) :
    Ends (·.bundled_files = g.bundled_files) GraphPanic.Other
      (g.disconnectAll allow_assert index) := by
  unfold disconnectAll
  exact (ends_orElsePanic rfl _).bind fun it _ => ends_disconnectImports index _ _ _

theorem ends_edgesFrom (edges : List Edge) (next : Edge → Option EdgeIndex) :
    ∀ (fuel : ℕ) (it : Option EdgeIndex),
      Ends (fun _ => True) GraphPanic.Other (edgesFrom edges next fuel it)
  | 0, none => trivial
  | _ + 1, none => trivial
  | 0, some _ => rfl
  | fuel + 1, some edge_index => by
    rw [edgesFrom]
    refine (ends_orElsePanic rfl _).bind fun edge _ => ?_
    exact (ends_edgesFrom edges next fuel _).bind fun _ _ => trivial

theorem ends_dependencies (index : FileIndex) :
    Ends (fun _ => True) GraphPanic.Other (g.dependencies index) :=
  (ends_orElsePanic rfl _).bind fun _ _ => ends_edgesFrom _ _ _ _

theorem ends_imports (index : FileIndex) :
    Ends (fun _ => True) GraphPanic.Other (g.imports index) :=
  (ends_orElsePanic rfl _).bind fun _ _ => ends_edgesFrom _ _ _ _

theorem ends_onFileDeleted (abs_path : GraphKey) :
    Ends (fun r => g.SameFailed r.1) GraphPanic.Other
      (g.onFileDeleted allow_assert abs_path) := by
  unfold onFileDeleted
  split
  · exact SameFailed.of_files rfl
  · refine (ends_disconnectAll _).bind fun g' hg' => ?_
    refine (ends_dependencies _).bind fun deps _ => ?_
    refine Ends.bind (I := fun _ => True) ?_ fun _ _ => SameFailed.of_files hg'
    induction deps with
    | nil => trivial
    | cons dep deps ih =>
      rw [mapM_cons]
      exact (ends_orElsePanic rfl _).bind fun _ _ => ih.bind fun _ _ => trivial

theorem ends_disconnectAndDeleteFile (index : FileIndex) :
    Ends g.SameFailed GraphPanic.Other (g.disconnectAndDeleteFile allow_assert index) := by
  unfold disconnectAndDeleteFile
  refine (ends_assert _ _).bind fun _ _ => ?_
  refine (ends_disconnectAll _).bind fun g' hg' => ?_
  refine (ends_assert _ _).bind fun _ _ => ?_
  refine (ends_assert _ _).bind fun _ _ => ?_
  intro i
  rw [FailedAt, FailedAt, ← hg', getElem?_map, getElem?_map, getElem?_modify]
  split_ifs
  · simp
  · rw [id_map']

theorem failed_default : Side.failed (default : side.File) = false := by
  cases side <;> rfl

theorem getFileByIndex_eq_ok {index : FileIndex} {file : side.File}
    (h : g.getFileByIndex index = .ok file) :
    index < g.bundled_files.length ∧ (g.FailedAt index ↔ Side.failed file = true) := by
  rw [getFileByIndex] at h
  cases hen : g.bundled_files[index]? with
  | none =>
    rw [hen] at h
    cases h
  | some entry =>
    rw [hen] at h
    cases h
    refine ⟨(List.getElem?_eq_some_iff.1 hen).1, ?_⟩
    rw [FailedAt, getElem?_map, hen, map_some, some.injEq]

theorem not_failedAt_of_le {index : FileIndex} (h : g.bundled_files.length ≤ index) :
    ¬ g.FailedAt index := by
  rw [FailedAt, getElem?_eq_none (by rwa [length_map])]
  exact fun heq => nomatch heq

theorem sameFailed_append (key : Option GraphKey) {file : side.File}
    (hfl : Side.failed file = false)
    (hfs : g'.bundled_files = g.bundled_files ++ [(key, file)]) : g.SameFailed g' := by
  intro i
  rw [FailedAt, FailedAt, hfs, map_append, getElem?_append]
  split_ifs with hlt
  · rfl
  · rw [getElem?_eq_none (not_lt.1 hlt)]
    rcases Nat.eq_zero_or_pos (i - (g.bundled_files.map fun entry => Side.failed entry.2).length)
      with hzr | hpos
    · rw [hzr]
      simp [hfl]
    · rw [getElem?_eq_none hpos]

/-- Getting or putting a file fails none and solves none. -/
structure Found (g : IncrementalGraph side)
    (r : GetOrPutResult side × IncrementalGraph side) : Prop where
  same : g.SameFailed r.2
  lt : r.1.index < r.2.bundled_files.length
  failed : g.FailedAt r.1.index ↔ (r.1.found_existing && Side.failed r.1.value) = true
  fresh : r.1.found_existing = false → Side.failed r.1.value = false

theorem ends_getFileByIndex (index : FileIndex) :
    Ends (fun file => g.getFileByIndex index = .ok file) GraphPanic.Other
      (g.getFileByIndex index) := by
  cases h : g.getFileByIndex index with
  | ok file => rfl
  | error p =>
    have hen := ends_orElsePanic (p := .outOfBounds) rfl (g.bundled_files[index]?.map (·.2))
    rw [getFileByIndex] at h
    rwa [h] at hen

theorem found_of_index {index : FileIndex} {file : side.File}
    (h : g.getFileByIndex index = .ok file) : g.Found (⟨index, true, file⟩, g) := by
  obtain ⟨hlt, hfl⟩ := getFileByIndex_eq_ok h
  exact ⟨fun _ => Iff.rfl, hlt, by rwa [Bool.true_and], fun heq => nomatch heq⟩

theorem ends_getOrPut (key : GraphKey) : Ends g.Found GraphPanic.Other (g.getOrPut key) := by
  unfold getOrPut
  split
  · rename_i index _
    exact (ends_getFileByIndex index).bind fun file hfl => found_of_index hfl
  · split_ifs
    · refine ⟨sameFailed_append _ failed_default rfl, ?_, ?_, fun _ => failed_default⟩
      · simp
      · simpa using not_failedAt_of_le le_rfl
    · rfl

theorem failedAt_setFile {index : FileIndex} (hlt : index < g.bundled_files.length)
    (file : side.File) : (g.setFile index file).FailedAt i ↔
      if i = index then Side.failed file = true else g.FailedAt i := by
  rw [setFile, FailedAt, FailedAt, getElem?_map, getElem?_modify]
  split_ifs with h h' h'
  · rw [h', getElem?_eq_getElem hlt]
    simp
  · exact absurd h.symm h'
  · exact absurd h'.symm h
  · rw [id_map', getElem?_map]

end IncrementalGraph

namespace DevServer

open IncrementalGraph
open SerializedFailure (Owner)

variable {allow_assert : Bool} {dev dev' : DevServer}

/-! ## The failures that are listed -/

/-- There is a failure of this owner. -/
def Listed (failures : List SerializedFailure) (owner : Owner) : Prop :=
  ∃ failure ∈ failures, failure.owner = owner

instance (failures : List SerializedFailure) (owner : Owner) :
    Decidable (Listed failures owner) :=
  inferInstanceAs (Decidable (∃ failure ∈ failures, failure.owner = owner))

/-- The file that owns the failures has its `failed` set. -/
def FailedAt (dev : DevServer) : Owner → Prop
  | .client i => dev.client_graph.FailedAt i
  | .server i => dev.server_graph.FailedAt i
  | _ => False

/-- A file has failed just when there is a failure of it. -/
def FailedIffListed (dev : DevServer) : Prop :=
  ∀ (side : Side) (i : FileIndex),
    dev.FailedAt (.file side i) ↔ Listed dev.bundling_failures (.file side i)

/-- A file has one failure at most, and has failed just when it has one. -/
structure Inv (dev : DevServer) : Prop where
  nodup : (dev.bundling_failures.map (·.owner)).Nodup
  failed_iff : dev.FailedIffListed

theorem swapRemove_perm {α : Type} {l : List α} {index : ℕ} (h : index < l.length) :
    (swapRemove l index).Perm (l.eraseIdx index) := by
  obtain ⟨init, last, rfl⟩ := eq_nil_or_concat l |>.resolve_left (by rintro rfl; cases h)
  rw [swapRemove, concat_eq_append, getLast?_append]
  simp only [getLast?_singleton, some_or]
  rw [concat_eq_append, length_append] at h
  rcases Nat.lt_or_ge index init.length with hlt | hge
  · rw [set_append_left _ _ hlt, dropLast_concat, eraseIdx_append_of_lt_length hlt]
    rw [set_eq_take_append_cons_drop, if_pos hlt, eraseIdx_eq_take_drop_succ]
    rw [append_assoc]
    exact Perm.append_left _ (perm_append_singleton _ _).symm
  · obtain rfl : index = init.length := by
      simp only [length_singleton] at h
      omega
    rw [set_append_right _ _ le_rfl, Nat.sub_self, eraseIdx_append_of_length_le le_rfl,
      Nat.sub_self]
    simp

/-- A failure that is listed is found, and only it goes. -/
theorem fetchSwapRemove_of_listed (hnd : (dev.bundling_failures.map (·.owner)).Nodup)
    {owner : Owner} (h : Listed dev.bundling_failures owner) :
    ∃ failure failures, dev.fetchSwapRemove owner = some (failure, failures)
      ∧ (failures.map (·.owner)).Nodup
      ∧ ∀ other, Listed failures other ↔ other ≠ owner ∧ Listed dev.bundling_failures other := by
  obtain ⟨failure, hmem, how⟩ := h
  cases hfn : dev.bundling_failures.findIdx? (·.owner = owner) with
  | none =>
    have hno := findIdx?_eq_none_iff.1 hfn failure hmem
    simp [how] at hno
  | some index =>
    obtain ⟨hlt, hat, -⟩ := findIdx?_eq_some_iff_getElem.1 hfn
    have hat : (dev.bundling_failures[index]).owner = owner := by simpa using hat
    have hpr := swapRemove_perm hlt
    refine ⟨_, _, by
      rw [fetchSwapRemove, hfn]
      simp only [bind_eq_bind, bind_some, getElem?_eq_getElem hlt]
      rfl, ?_, ?_⟩
    · rw [(hpr.map _).nodup_iff]
      exact hnd.sublist ((eraseIdx_sublist ..).map _)
    · intro other
      have hsp := getElem_cons_eraseIdx_perm hlt
      have hnot : ∀ f ∈ dev.bundling_failures.eraseIdx index, f.owner ≠ owner := by
        have hcn := ((hsp.map (·.owner)).nodup_iff).2 hnd
        rw [map_cons, nodup_cons, hat] at hcn
        intro f hf heq
        exact hcn.1 (heq ▸ List.mem_map_of_mem hf)
      constructor
      · rintro ⟨f, hf, rfl⟩
        have hf' := hpr.mem_iff.1 hf
        exact ⟨hnot f hf', f, mem_of_mem_eraseIdx hf', rfl⟩
      · rintro ⟨hne, f, hf, rfl⟩
        refine ⟨f, hpr.mem_iff.2 ?_, rfl⟩
        rcases mem_cons.1 (hsp.mem_iff.2 hf) with rfl | hrs
        · exact absurd hat hne
        · exact hrs

/-- A failure takes the place of the one of its owner. -/
theorem listed_addFailure (hnd : (dev.bundling_failures.map (·.owner)).Nodup)
    (failure : SerializedFailure) :
    ((dev.addFailure failure).bundling_failures.map (·.owner)).Nodup
      ∧ ∀ other, Listed (dev.addFailure failure).bundling_failures other ↔
        other = failure.owner ∨ Listed dev.bundling_failures other := by
  have hls : ∀ (l : List SerializedFailure) other, Listed l other ↔ other ∈ l.map (·.owner) :=
    fun l other => List.mem_map.symm
  simp only [hls]
  unfold addFailure
  split
  · rename_i index hfn
    obtain ⟨hlt, hat, -⟩ := findIdx?_eq_some_iff_getElem.1 hfn
    have hat : (dev.bundling_failures[index]).owner = failure.owner := by simpa using hat
    have hsm : (dev.bundling_failures.set index failure).map (·.owner) =
        dev.bundling_failures.map (·.owner) := by
      refine ext_getElem? fun i => ?_
      rw [getElem?_map, getElem?_map, getElem?_set]
      split_ifs with hi
      · rw [← hi, getElem?_eq_getElem hlt, map_some, map_some, hat]
      · rfl
    have hmem : failure.owner ∈ dev.bundling_failures.map (·.owner) :=
      hat ▸ List.mem_map_of_mem (getElem_mem hlt)
    simp only [hsm]
    exact ⟨hnd, fun other => ⟨Or.inr, fun h => h.elim (fun heq => heq ▸ hmem) id⟩⟩
  · rename_i hfn
    have hnot : failure.owner ∉ dev.bundling_failures.map (·.owner) := by
      rintro hmem
      obtain ⟨f, hf, how⟩ := List.mem_map.1 hmem
      have hno := findIdx?_eq_none_iff.1 hfn f hf
      simp [how] at hno
    simp only [map_append, map_cons, map_nil]
    refine ⟨?_, fun other => ?_⟩
    · rw [nodup_append_comm, singleton_append, nodup_cons]
      exact ⟨hnot, hnd⟩
    · simp [or_comm]

/-! ## What an operation does to the failures -/

theorem failedAt_file (dev : DevServer) (side : Side) (i : FileIndex) :
    dev.FailedAt (.file side i) ↔ (dev.graph side).FailedAt i := by
  cases side <;> rfl

theorem file_injective {side side' : Side} {i j : FileIndex} :
    Owner.file side i = Owner.file side' j ↔ side = side' ∧ i = j := by
  cases side <;> cases side' <;> simp [Owner.file]

theorem Inv.of_same (h : dev.Inv) (hfl : dev'.bundling_failures = dev.bundling_failures)
    (hsm : ∀ side, (dev.graph side).SameFailed (dev'.graph side)) : dev'.Inv := by
  refine ⟨hfl ▸ h.nodup, fun side i => ?_⟩
  rw [failedAt_file, hsm side i, ← failedAt_file, hfl]
  exact h.failed_iff side i

theorem Inv.setGraph (h : dev.Inv) {side : Side} {g : IncrementalGraph side}
    (hsm : (dev.graph side).SameFailed g) : (dev.setGraph g).Inv := by
  refine h.of_same (by cases side <;> rfl) fun side' => ?_
  cases side <;> cases side' <;> first | exact hsm | exact SameFailed.of_files rfl

/-- The graphs stay, and a failure goes if the owner has one. -/
structure Solved (dev : DevServer) (owner : Owner) (dev' : DevServer) : Prop where
  client_graph : dev'.client_graph = dev.client_graph
  server_graph : dev'.server_graph = dev.server_graph
  nodup : (dev'.bundling_failures.map (·.owner)).Nodup
  listed : ∀ other, Listed dev'.bundling_failures other ↔
    other ≠ owner ∧ Listed dev.bundling_failures other

theorem ends_solveFailure (hnd : (dev.bundling_failures.map (·.owner)).Nodup) {failed : Bool}
    {owner : Owner} (hfl : Listed dev.bundling_failures owner ↔ failed = true)
    (missing : GraphPanic) :
    Ends (dev.Solved owner) GraphPanic.Other (dev.solveFailure failed owner missing) := by
  unfold solveFailure
  split_ifs with h
  · obtain ⟨failure, failures, hft, hnd', hls⟩ :=
      fetchSwapRemove_of_listed hnd (hfl.2 h)
    rw [removeFailure, hft]
    exact ⟨rfl, rfl, hnd', hls⟩
  · exact ⟨rfl, rfl, hnd, fun other =>
      ⟨fun hot => ⟨fun heq => h (hfl.1 (heq ▸ hot)), hot⟩, And.right⟩⟩

/-- One file has been solved, with its failure. -/
theorem Inv.of_solved (h : dev.Inv) {side : Side} {index : FileIndex}
    (hnd : (dev'.bundling_failures.map (·.owner)).Nodup)
    (hls : ∀ other, Listed dev'.bundling_failures other ↔
      other ≠ .file side index ∧ Listed dev.bundling_failures other)
    (hsd : ∀ i, (dev'.graph side).FailedAt i ↔ i ≠ index ∧ (dev.graph side).FailedAt i)
    (hot : ∀ side', side' ≠ side → (dev.graph side').SameFailed (dev'.graph side')) :
    dev'.Inv := by
  refine ⟨hnd, fun side' i => ?_⟩
  rw [failedAt_file, hls, ← h.failed_iff side' i, failedAt_file, Ne, file_injective]
  by_cases hsm : side' = side
  · subst hsm
    rw [hsd]
    simp
  · rw [hot side' hsm i]
    simp [hsm]

theorem ends_assertNotEmpty (content : ChunkContent) :
    Ends (fun _ => True) GraphPanic.Other (assertNotEmpty allow_assert content) := by
  unfold assertNotEmpty
  split
  · split_ifs
    · rfl
    · trivial
  · trivial

/-- Receiving a client chunk keeps the invariant, or panics for another reason than a missing
failure. -/
theorem ends_receiveChunkClient (h : dev.Inv) (ctx : HotUpdateContext) (index : BundleIndex)
    (content : ChunkContent) : Ends (fun r => r.1.Inv) GraphPanic.Other
      (dev.receiveChunkClient allow_assert ctx index content) := by
  unfold receiveChunkClient
  refine (ends_assertNotEmpty content).bind fun _ _ => ?_
  refine (ends_getOrPut _).bind fun r hr => ?_
  have hst : ({ dev with client_graph := r.2.setStale r.1.index false } : DevServer).Inv :=
    @Inv.setGraph _ h .client _ hr.same
  have hfl := (hst.failed_iff .client r.1.index).symm.trans
    ((hr.same r.1.index).trans hr.failed)
  refine (ends_solveFailure hst.nodup hfl _).bind fun dev' hdev' => ?_
  refine Ends.bind (I := fun _ => True) ?_ fun source_map _ => ?_
  · unfold clientSourceMap
    split
    · trivial
    · trivial
    · refine (ends_assert _ _).bind fun _ _ => ?_
      split_ifs
      · exact (ends_orElsePanic rfl _).bind fun _ _ => trivial
      · trivial
  refine Ends.bind (I := fun file => file.failed = false) ?_ fun file hfi => ?_
  · exact (ends_assert _ _).bind fun _ _ => rfl
  refine @Inv.of_solved _ _ hst .client r.1.index hdev'.nodup hdev'.listed
    (fun i => ?_) fun side hsd => ?_
  · have hfs : dev'.client_graph.bundled_files = r.2.bundled_files := by
      rw [hdev'.client_graph]
      rfl
    have hset : IncrementalGraph.FailedAt (trackClientChunk (dev'.client_graph.setFile r.1.index file)
        r.1.index content) i ↔ (dev'.client_graph.setFile r.1.index file).FailedAt i := by
      cases content <;> rfl
    refine hset.trans ((failedAt_setFile (hfs ▸ hr.lt) file).trans ?_)
    split_ifs with hi
    · exact iff_of_false (fun heq => Bool.noConfusion (hfi.symm.trans heq)) fun hne => hne.1 hi
    · rw [hdev'.client_graph]
      exact (and_iff_right hi).symm
  · cases side with
    | client => exact absurd rfl hsd
    | server =>
      refine SameFailed.of_files ?_
      change dev'.server_graph.bundled_files = _
      rw [hdev'.server_graph]
      rfl

theorem ends_updateBoundary (key : GraphKey) (index : FileIndex) (was_boundary is_boundary : Bool) :
    Ends (fun dev' => dev'.bundling_failures = dev.bundling_failures
        ∧ dev'.server_graph = dev.server_graph ∧ dev.client_graph.SameFailed dev'.client_graph)
      GraphPanic.Other (dev.updateBoundary allow_assert key index was_boundary is_boundary) := by
  unfold updateBoundary
  split_ifs
  · exact ⟨rfl, rfl, SameFailed.of_files rfl⟩
  · refine (ends_orElsePanic rfl _).bind fun client_index _ => ?_
    exact (ends_disconnectAndDeleteFile _).bind fun g hg => ⟨rfl, rfl, hg⟩
  · exact ⟨rfl, rfl, SameFailed.of_files rfl⟩

/-- Receiving a server chunk keeps the invariant, or panics for another reason than a missing
failure. -/
theorem ends_receiveChunkServer (h : dev.Inv) (ctx : HotUpdateContext) (index : BundleIndex)
    (content : ChunkContent) (is_ssr_graph : Bool) : Ends (fun r => r.1.Inv) GraphPanic.Other
      (dev.receiveChunkServer allow_assert ctx index content is_ssr_graph) := by
  unfold receiveChunkServer
  refine (ends_assertNotEmpty content).bind fun _ _ => ?_
  refine (ends_getOrPut _).bind fun r hr => ?_
  have hst : ({ dev with server_graph := r.2.setStale r.1.index false } : DevServer).Inv :=
    @Inv.setGraph _ h .server _ hr.same
  have hfd := (hst.failed_iff .server r.1.index).symm.trans
    ((hr.same r.1.index).trans hr.failed)
  refine (ends_updateBoundary _ _ _ _).bind fun dev' hdev' => ?_
  obtain ⟨hfl, hsr, hcl⟩ := hdev'
  simp only
  generalize hfi : (if r.1.found_existing = true then _ else _ : ServerFile) = file
  have hfi : file.failed = false := by
    rw [← hfi]
    split_ifs <;> rfl
  have hnd := hfl ▸ hst.nodup
  refine (@ends_solveFailure
    { dev' with server_graph := dev'.server_graph.setFile r.1.index file } hnd _ _
    (hfl ▸ hfd) _).bind fun dev'' hdev'' => ?_
  have hls := hdev''.listed
  simp only [hfl] at hls
  refine @Inv.of_solved _ _ hst .server r.1.index hdev''.nodup hls
    (fun i => ?_) fun side hsd => ?_
  · have hset : IncrementalGraph.FailedAt
        (trackServerChunk dev''.server_graph r.1.index content) i ↔
        (dev'.server_graph.setFile r.1.index file).FailedAt i := by
      rw [hdev''.server_graph]
      cases content <;> rfl
    have hlt : r.1.index < dev'.server_graph.bundled_files.length := hsr ▸ hr.lt
    refine hset.trans ((failedAt_setFile hlt file).trans ?_)
    split_ifs with hi
    · exact iff_of_false (fun heq => Bool.noConfusion (hfi.symm.trans heq)) fun hne => hne.1 hi
    · rw [hsr]
      exact (and_iff_right hi).symm
  · cases side with
    | server => exact absurd rfl hsd
    | client =>
      refine hcl.trans (SameFailed.of_files ?_)
      change dev''.client_graph.bundled_files = _
      rw [hdev''.client_graph]

theorem ends_insertEmpty {side : Side} (g : IncrementalGraph side) (abs_path : GraphKey)
    (kind : FileKind) :
    Ends (fun r => g.SameFailed r.2) GraphPanic.Other (insertEmpty g abs_path kind) := by
  unfold insertEmpty
  refine (ends_getOrPut _).bind fun r hr => ?_
  simp only
  split_ifs with hfn
  · exact hr.same
  · refine hr.same.trans fun i => (failedAt_setFile hr.lt _).trans ?_
    split_ifs with hi
    · have hnot : ¬ r.2.FailedAt i := by
        rw [hi, hr.same, hr.failed, Bool.eq_false_of_not_eq_true hfn, Bool.false_and]
        exact Bool.false_ne_true
      refine iff_of_false ?_ hnot
      cases side <;> exact Bool.false_ne_true
    · rfl

theorem ends_staleFile {side : Side} (is_ssr_graph is_route : Bool) (gop : GetOrPutResult side) :
    Ends (fun file => Side.failed file = (gop.found_existing && Side.failed gop.value))
      GraphPanic.Other (staleFile allow_assert is_ssr_graph is_route gop) := by
  obtain ⟨index, found_existing, value⟩ := gop
  cases side with
  | client =>
    refine (ends_assert _ _).bind fun _ _ => ?_
    cases found_existing <;> rfl
  | server => cases found_existing <;> rfl

theorem ends_insertStaleExtra (h : dev.Inv) (side : Side) (abs_path : GraphKey)
    (is_ssr_graph is_route : Bool) : Ends (fun r => r.2.Inv) GraphPanic.Other
      (dev.insertStaleExtra allow_assert side abs_path is_ssr_graph is_route) := by
  unfold insertStaleExtra
  refine (ends_getOrPut _).bind fun r hr => ?_
  refine (ends_staleFile is_ssr_graph is_route r.1).bind fun file hfl => ?_
  refine h.setGraph (hr.same.trans fun i => ?_)
  refine (failedAt_setFile (g := r.2.setStale r.1.index true) hr.lt file).trans ?_
  split_ifs with hi
  · rw [hi, hfl, ← hr.failed, ← hr.same]
  · rfl

theorem ends_find {side : Side} (g : IncrementalGraph side) (key : FailureKey) :
    Ends g.Found GraphPanic.Other (key.find g) := by
  cases key with
  | abs_path path => exact ends_getOrPut path
  | index index => exact (ends_getFileByIndex index).bind fun file hfl => found_of_index hfl

theorem failed_setFailed {side : Side} (file : side.File) :
    Side.failed (setFailed file) = true := by
  cases side <;> rfl

/-- Inserting a failure keeps the invariant: its file is marked, and the failure is listed. -/
theorem ends_insertFailure (h : dev.Inv) (side : Side) (key : FailureKey)
    (messages : List (List UInt8)) (is_ssr_graph : Bool) : Ends Inv GraphPanic.Other
      (dev.insertFailure allow_assert side key messages is_ssr_graph) := by
  unfold insertFailure
  refine (ends_find _ key).bind fun r hr => ?_
  refine (ends_staleFile is_ssr_graph false r.1).bind fun file _ => ?_
  refine (ends_assert _ _).bind fun _ _ => ?_
  generalize hg : IncrementalGraph.setFile _ r.1.index (setFailed file) = g
  have hg : ∀ i, g.FailedAt i ↔ i = r.1.index ∨ (dev.graph side).FailedAt i := by
    intro i
    rw [← hg]
    refine (failedAt_setFile
      (g := (r.2.ensureStaleBitCapacity true).setStale r.1.index true) hr.lt _).trans ?_
    split_ifs with hi
    · exact iff_of_true (failed_setFailed file) (Or.inl hi)
    · exact (hr.same i).trans (or_iff_right hi).symm
  have hfl : (dev.setGraph g).bundling_failures = dev.bundling_failures := by
    cases side <;> rfl
  obtain ⟨hnd, hls⟩ := @listed_addFailure (dev.setGraph g)
    (hfl ▸ h.nodup) ⟨.file side r.1.index, messages⟩
  refine ⟨hnd, fun side' i => ?_⟩
  rw [hls, hfl, ← h.failed_iff side' i, file_injective, failedAt_file, failedAt_file]
  have hgr : ∀ failure, ((dev.setGraph g).addFailure failure).graph side' =
      (dev.setGraph g).graph side' := by
    intro failure
    unfold addFailure
    cases side' <;> simp only <;> split <;> rfl
  rw [hgr]
  by_cases hsd : side' = side
  · subst hsd
    have hsl : (dev.setGraph g).graph side' = g := by cases side' <;> rfl
    rw [hsl, hg]
    simp
  · have hsm : (dev.setGraph g).graph side' = dev.graph side' := by
      cases side <;> cases side' <;> first | rfl | exact absurd rfl hsd
    rw [hsm]
    simp [hsd]

/-- What `insertCssFileOnServer` relies on: the file that it writes anew did not fail. -/
def KeepsFailures (dev : DevServer) : GraphOp → Prop
  | .insertCssFileOnServer _ _ abs_path =>
    ∀ index ∈ dev.server_graph.getFileIndex abs_path, ¬ dev.server_graph.FailedAt index
  | _ => True

instance : ∀ op, Decidable (dev.KeepsFailures op)
  | .insertCssFileOnServer _ _ abs_path =>
    match h : dev.server_graph.getFileIndex abs_path with
    | none => isTrue fun _ hmem => nomatch h.symm.trans hmem
    | some index => decidable_of_iff (¬ dev.server_graph.FailedAt index) (by simp [h, KeepsFailures])
  | .receiveChunk .. | .insertEmpty .. | .insertStale .. | .insertFailure ..
  | .processChunkDependencies .. | .onFileDeleted .. | .disconnectAndDeleteFile ..
  | .traceImports .. => isTrue trivial

theorem getOrPut_of_getFileIndex {side : Side} {g : IncrementalGraph side} {key : GraphKey} :
    Ends (fun r => r.1.found_existing = true → r.1.index ∈ g.getFileIndex key) (fun _ => True)
      (g.getOrPut key) := by
  unfold getOrPut
  cases hin : g.getFileIndex key with
  | some index =>
    simp only
    cases g.getFileByIndex index with
    | ok file => exact fun _ => rfl
    | error p => trivial
  | none =>
    simp only
    split_ifs
    · exact fun heq => nomatch heq
    · trivial

theorem ends_insertCssFileOnServer (h : dev.Inv) (ctx : HotUpdateContext) (index : BundleIndex)
    (abs_path : GraphKey)
    (hkp : dev.KeepsFailures (.insertCssFileOnServer ctx index abs_path)) :
    Ends (fun r => r.1.Inv) GraphPanic.Other (dev.insertCssFileOnServer ctx index abs_path) := by
  unfold insertCssFileOnServer
  have hfn := @getOrPut_of_getFileIndex _ dev.server_graph abs_path
  have hen := ends_getOrPut (g := dev.server_graph) abs_path
  cases hput : dev.server_graph.getOrPut abs_path with
  | error p =>
    rw [hput] at hen
    exact hen
  | ok r =>
    rw [hput] at hen hfn
    refine @Inv.setGraph _ h .server _ (hen.same.trans fun i => ?_)
    refine (failedAt_setFile hen.lt _).trans ?_
    split_ifs with hi
    · refine iff_of_false Bool.false_ne_true fun hfl => ?_
      rw [hi, hen.same] at hfl
      have hfd := (Bool.and_eq_true_iff.1 (hen.failed.1 hfl)).1
      exact hkp _ (hfn hfd) hfl
    · rfl

/-! ## Imports and traces -/

theorem ends_quickLookup {side : Side} (g : IncrementalGraph side) (index : FileIndex) :
    ∀ (fuel : ℕ) (it : Option EdgeIndex) (lookup : List (FileIndex × TempLookup)),
      Ends (fun _ => True) GraphPanic.Other (quickLookup allow_assert g index fuel it lookup)
  | 0, none, _ => trivial
  | _ + 1, none, _ => trivial
  | 0, some _, _ => rfl
  | fuel + 1, some edge_index, lookup => by
    rw [quickLookup]
    refine (ends_orElsePanic rfl _).bind fun dep _ => ?_
    refine (ends_assert _ _).bind fun _ _ => ?_
    split_ifs
    · rfl
    · exact ends_quickLookup g index fuel _ _

theorem ends_attachEdge {side : Side} (file_index imported_file_index : FileIndex)
    (a : Attachment side) : Ends (fun a' => a.g.SameFailed a'.g) GraphPanic.Other
      (attachEdge file_index imported_file_index a) := by
  unfold attachEdge
  split
  · split_ifs
    · exact fun _ => Iff.rfl
    · exact (ends_modifyEdge _ _).bind fun g hg => SameFailed.of_files hg
  · refine (ends_orElsePanic rfl _).bind fun first_dep _ => ?_
    refine (ends_newEdge _).bind fun r hr => ?_
    simp only
    split
    · exact (ends_modifyEdge _ _).bind fun g hg => SameFailed.of_files (hg.trans hr)
    · exact SameFailed.of_files hr

theorem ends_processImportRecord {side : Side} (ctx : HotUpdateContext) (file_index : FileIndex)
    (a : Attachment side) (record : ImportRecord) : Ends (fun a' => a.g.SameFailed a'.g)
      GraphPanic.Other (processImportRecord ctx file_index a record) := by
  unfold processImportRecord
  split_ifs
  · exact fun _ => Iff.rfl
  · exact fun _ => Iff.rfl
  · split
    · exact fun _ => Iff.rfl
    · exact ends_attachEdge _ _ _

theorem ends_cssFileIndex {side : Side} (cached : Option FileIndex) (key : GraphKey)
    (kind : FileKind) (a : Attachment side) : Ends (fun r => a.g.SameFailed r.2.g)
      GraphPanic.Other (cssFileIndex cached key kind a) := by
  unfold cssFileIndex
  split
  · exact fun _ => Iff.rfl
  · exact (ends_insertEmpty _ _ _).bind fun r hr => hr

theorem ends_processEdgeAttachment {side : Side} (ctx : HotUpdateContext) (file_index : FileIndex)
    (record : ImportRecord) (a : Attachment side) : Ends (fun r => a.g.SameFailed r.2.g)
      GraphPanic.Other (processEdgeAttachment ctx file_index record a) := by
  unfold processEdgeAttachment
  split_ifs
  · exact fun _ => Iff.rfl
  · exact fun _ => Iff.rfl
  · split
    · exact fun _ => Iff.rfl
    · refine (ends_cssFileIndex _ _ _ a).bind fun r hr => ?_
      simp only
      split_ifs <;> first
        | exact hr
        | exact (ends_attachEdge _ _ _).bind fun a' ha' => hr.trans ha'

theorem ends_processCSSRecords {side : Side} (ctx : HotUpdateContext) (file_index : FileIndex)
    (index : BundleIndex) (queue : List BundleIndex) {g : IncrementalGraph side}
    {a : Attachment side} (ha : g.SameFailed a.g) : Ends (fun r => g.SameFailed r.2.g)
      GraphPanic.Other (processCSSRecords ctx file_index index queue a) := by
  refine ends_foldlM_of_step (I := fun r : List BundleIndex × Attachment side =>
    g.SameFailed r.2.g) (fun r record hr => ?_) ha _
  exact (ends_processEdgeAttachment ctx file_index record r.2).bind fun r' hr' => hr.trans hr'

theorem ends_processCSSQueue {side : Side} (ctx : HotUpdateContext) (file_index : FileIndex)
    {g : IncrementalGraph side} : ∀ (fuel : ℕ) (queue : List BundleIndex) {a : Attachment side},
      g.SameFailed a.g → Ends (fun a' => g.SameFailed a'.g) GraphPanic.Other
        (processCSSQueue ctx file_index fuel queue a)
  | 0, queue, a, ha => by
    rw [processCSSQueue]
    split_ifs
    · exact ha
    · rfl
  | fuel + 1, queue, a, ha => by
    rw [processCSSQueue]
    split
    · exact ha
    · exact (ends_processCSSRecords ctx file_index _ _ ha).bind fun r hr =>
        ends_processCSSQueue ctx file_index fuel r.1 hr

theorem ends_freeUnseen {side : Side} (lookup : List (FileIndex × TempLookup))
    {g g' : IncrementalGraph side} (hg : g.SameFailed g') :
    Ends g.SameFailed GraphPanic.Other (freeUnseen allow_assert lookup g') := by
  refine ends_foldlM_of_step (fun g' entry hg' => ?_) hg _
  split_ifs
  · exact hg'
  · refine (ends_disconnectEdgeFromDependencyList _).bind fun g'' hg'' => ?_
    exact hg'.trans (SameFailed.of_files ((bundled_files_freeEdge _ _).trans hg''))

theorem ends_affectServerFile (file : ServerFile) (index : FileIndex)
    (result : IncrementalResult) : Ends (fun _ => True) GraphPanic.Other
      (dev.affectServerFile file index result) := by
  refine Ends.bind (I := fun _ => True) ?_ fun _ _ => trivial
  unfold affectedRoutes
  split
  · exact (ends_orElsePanic rfl _).bind fun _ _ => trivial
  · trivial

theorem ends_traceDependenciesServer (goal : TraceDependencyGoal) : ∀ (fuel : ℕ)
    (index : FileIndex) (trace : DependencyTrace), Ends (fun _ => True) GraphPanic.Other
      (dev.traceDependenciesServer goal fuel index trace)
  | 0, _, _ => rfl
  | fuel + 1, index, trace => by
    rw [traceDependenciesServer]
    split_ifs
    · trivial
    · refine (ends_getFileByIndex _).bind fun file _ => ?_
      refine (ends_affectServerFile file index _).bind fun result _ => ?_
      simp only
      split_ifs
      · trivial
      · exact (ends_dependencies _).bind fun deps _ => ends_foldlM_of_step
          (fun trace edge _ => ends_traceDependenciesServer goal fuel _ trace) trivial deps

theorem ends_traceDependenciesClient (goal : TraceDependencyGoal) (server_fuel : ℕ) :
    ∀ (fuel : ℕ) (index from_index : FileIndex) (trace : DependencyTrace),
      Ends (fun _ => True) GraphPanic.Other
        (dev.traceDependenciesClient goal server_fuel fuel index from_index trace)
  | 0, _, _, _ => rfl
  | fuel + 1, index, from_index, trace => by
    have hrc : ∀ trace : DependencyTrace, Ends (fun _ => True) GraphPanic.Other (do
        (← dev.client_graph.dependencies index).foldlM (fun trace edge =>
          dev.traceDependenciesClient goal server_fuel fuel edge.dependency index trace) trace) :=
      fun trace => (ends_dependencies _).bind fun deps _ => ends_foldlM_of_step
        (fun trace edge _ => ends_traceDependenciesClient goal server_fuel fuel _ _ trace)
        trivial deps
    rw [traceDependenciesClient]
    split
    · trivial
    · refine (ends_getFileByIndex _).bind fun file _ => ?_
      simp only
      split
      · refine (ends_orElsePanic rfl _).bind fun entry _ => ?_
        refine (ends_orElsePanic rfl _).bind fun server_index _ => ?_
        exact (ends_traceDependenciesServer goal _ _ _).bind fun trace _ => hrc trace
      · split
        · refine (ends_getFileByIndex _).bind fun from_file _ => ?_
          split
          · trivial
          · exact hrc _
        · exact hrc _

theorem ends_traceDependencies (goal : TraceDependencyGoal) (side : Side)
    (index from_index : FileIndex) (trace : DependencyTrace) :
    Ends (fun _ => True) GraphPanic.Other
      (dev.traceDependencies goal side index from_index trace) := by
  cases side with
  | client => exact ends_traceDependenciesClient goal _ _ _ _ _
  | server => exact ends_traceDependenciesServer goal _ _ _

theorem ends_processChunkDependencies (h : dev.Inv) (ctx : HotUpdateContext) (fuel : ℕ)
    (side : Side) (mode : ChunkMode) (index : BundleIndex) :
    Ends (fun r => r.1.Inv) GraphPanic.Other
      (dev.processChunkDependencies allow_assert ctx fuel side mode index) := by
  unfold processChunkDependencies
  refine (ends_orElsePanic rfl _).bind fun file_index _ => ?_
  refine (ends_orElsePanic rfl _).bind fun it _ => ?_
  refine (ends_quickLookup _ _ _ _ _).bind fun lookup _ => ?_
  simp only
  split_ifs
  · exact h.setGraph (SameFailed.of_files rfl)
  refine Ends.bind (I := fun a : Attachment side => (dev.graph side).SameFailed a.g) ?_
    fun a ha => ?_
  · unfold processRecords
    split
    · refine (ends_assert _ _).bind fun _ _ => ?_
      refine ends_foldlM_of_step (I := fun a : Attachment side => (dev.graph side).SameFailed a.g)
        (fun a record ha => ?_) (fun _ => Iff.rfl) _
      exact (ends_processImportRecord ctx _ a record).imp fun a' ha' => ha.trans ha'
    · refine (ends_assert _ _).bind fun _ _ => ?_
      refine (ends_processCSSRecords ctx _ _ _ (fun _ => Iff.rfl)).bind fun r hr => ?_
      exact ends_processCSSQueue ctx _ _ _ hr
  refine (ends_freeUnseen _ ha).bind fun g hg => ?_
  refine (ends_traceDependencies _ _ _ _ _).bind fun trace _ => ?_
  have hset := h.setGraph (g := { g with
    first_import := g.first_import.set file_index a.new_imports }) hg
  exact hset.of_same rfl fun side' => by cases side' <;> exact fun _ => Iff.rfl

theorem ends_getFailure (h : dev.Inv) {side : Side} {index : FileIndex}
    (hfl : (dev.graph side).FailedAt index) :
    Ends (fun _ => True) GraphPanic.Other (dev.getFailure (.file side index)) := by
  obtain ⟨failure, hmem, how⟩ := (h.failed_iff side index).1
    ((failedAt_file dev side index).2 hfl)
  rw [getFailure]
  cases hfn : dev.bundling_failures.find? (·.owner = .file side index) with
  | none =>
    have hno := find?_eq_none.1 hfn failure hmem
    simp [how] at hno
  | some failure => trivial

theorem ends_findError (h : dev.Inv) (goal : TraceImportGoal) {side : Side} {index : FileIndex}
    {failed : Bool} (hfl : failed = true → (dev.graph side).FailedAt index)
    (trace : ImportTrace) : Ends (fun _ => True) GraphPanic.Other
      (dev.findError goal failed (.file side index) trace) := by
  unfold findError
  split_ifs with hbt
  · have hat := hfl (Bool.and_eq_true_iff.1 hbt).2
    exact (ends_getFailure h hat).bind fun _ _ => trivial
  · trivial

theorem ends_traceImportsClient (h : dev.Inv) (goal : TraceImportGoal) : ∀ (fuel : ℕ)
    (index : FileIndex) (trace : ImportTrace), Ends (fun _ => True) GraphPanic.Other
      (dev.traceImportsClient allow_assert goal fuel index trace)
  | 0, _, _ => rfl
  | fuel + 1, index, trace => by
    rw [traceImportsClient]
    split
    · trivial
    · refine (ends_getFileByIndex _).bind fun file hfl => ?_
      obtain ⟨-, hfd⟩ := getFileByIndex_eq_ok hfl
      split
      · split <;> trivial
      · refine (ends_assert _ _).bind fun _ _ => ?_
        refine (@ends_findError _ h goal .client _ _ hfd.2 _).bind fun trace _ => ?_
        split_ifs
        · trivial
        · exact (ends_imports _).bind fun deps _ => ends_foldlM_of_step
            (fun trace edge _ => ends_traceImportsClient h goal fuel _ trace) trivial deps

theorem ends_traceImportsServer (h : dev.Inv) (goal : TraceImportGoal) (client_fuel : ℕ) :
    ∀ (fuel : ℕ) (index : FileIndex) (trace : ImportTrace),
      Ends (fun _ => True) GraphPanic.Other
        (dev.traceImportsServer allow_assert goal client_fuel fuel index trace)
  | 0, _, _ => rfl
  | fuel + 1, index, trace => by
    rw [traceImportsServer]
    split
    · trivial
    · refine (ends_getFileByIndex _).bind fun file hfl => ?_
      obtain ⟨-, hfd⟩ := getFileByIndex_eq_ok hfl
      refine Ends.bind (I := fun _ => True) ?_ fun trace _ => ?_
      · unfold enterClient
        split_ifs
        · refine (ends_orElsePanic rfl _).bind fun entry _ => ?_
          refine (ends_orElsePanic rfl _).bind fun client_index _ => ?_
          exact ends_traceImportsClient h goal _ _ _
        · trivial
      · refine (@ends_findError _ h goal .server _ _ hfd.2 _).bind fun trace _ => ?_
        exact (ends_imports _).bind fun deps _ => ends_foldlM_of_step
          (fun trace edge _ => ends_traceImportsServer h goal client_fuel fuel _ trace)
          trivial deps

theorem ends_traceImports (h : dev.Inv) (side : Side) (index : FileIndex) (gts : GraphTraceState)
    (goal : TraceImportGoal) : Ends (fun r => r.2.Inv) GraphPanic.Other
      (dev.traceImports allow_assert side index gts goal) := by
  unfold traceImports
  cases side with
  | client =>
    exact (ends_traceImportsClient h goal _ _ _).bind fun trace _ =>
      h.of_same rfl fun side => by cases side <;> exact fun _ => Iff.rfl
  | server =>
    exact (ends_traceImportsServer h goal _ _ _ _).bind fun trace _ =>
      h.of_same rfl fun side => by cases side <;> exact fun _ => Iff.rfl

/-! ## Runs -/

/-- Every operation fails a file and lists it, or solves it and takes it off the list. -/
theorem step_inv (op : GraphOp) (h : dev.Inv) (hkp : dev.KeepsFailures op) :
    Ends Inv GraphPanic.Other (dev.step allow_assert op) := by
  cases op with
  | receiveChunk side ctx index content is_ssr_graph =>
    cases side with
    | client => exact (ends_receiveChunkClient h ctx index content).map fun r hr => hr
    | server =>
      exact (ends_receiveChunkServer h ctx index content is_ssr_graph).map fun r hr => hr
  | insertCssFileOnServer ctx index abs_path =>
    exact (ends_insertCssFileOnServer h ctx index abs_path hkp).map fun r hr => hr
  | insertEmpty side abs_path kind =>
    exact (ends_insertEmpty _ abs_path kind).map fun r hr => h.setGraph hr
  | insertStale side abs_path is_ssr_graph is_route =>
    exact (ends_insertStaleExtra h side abs_path is_ssr_graph is_route).map fun r hr => hr
  | insertFailure side key messages is_ssr_graph =>
    exact ends_insertFailure h side key messages is_ssr_graph
  | processChunkDependencies ctx fuel side mode index =>
    exact (ends_processChunkDependencies h ctx fuel side mode index).map fun r hr => hr
  | onFileDeleted side abs_path =>
    exact (ends_onFileDeleted abs_path).map fun r hr => h.setGraph hr
  | disconnectAndDeleteFile side file_index =>
    exact (ends_disconnectAndDeleteFile file_index).map fun g hg => h.setGraph hg
  | traceImports side file_index gts goal =>
    exact (ends_traceImports h side file_index gts goal).map fun r hr => hr

/-- No file has failed when the server starts. -/
theorem inv_init (route_lookup : FileIndex → Option RouteIndex) : (init route_lookup).Inv := by
  refine ⟨nodup_nil, fun side i => ?_⟩
  refine iff_of_false ?_ fun hls => ?_
  · cases side <;> exact fun hno => nomatch hno
  · obtain ⟨failure, hmem, -⟩ := hls
    exact nomatch hmem

/-- In a run whose files are not written anew over a failure, the files that failed are the ones
with a failure, and no lookup misses one. -/
theorem failedIffListed_of_run (allow_assert : Bool) (route_lookup : FileIndex → Option RouteIndex)
    (ops : List GraphOp)
    (hkeeps : Meets (step allow_assert) KeepsFailures (init route_lookup) ops) :
    Ends FailedIffListed GraphPanic.Other ((init route_lookup).run allow_assert ops) :=
  (ends_foldlM (fun _ op h hop => step_inv op h hop) (inv_init route_lookup) hkeeps).imp
    fun _ h => h.failed_iff

/-- A bundle of one CSS file, of the path `a`. -/
def cssContext : HotUpdateContext where
  path _ := [97]
  loaders _ := .css
  import_records _ := []
  server_to_client_bitset _ := false
  server_seen_bit_set _ := false
  resolved_index_cache _ _ := none
  gts := .empty

/-- A CSS file that fails and is then bundled. -/
def solvedOps : List GraphOp :=
  [.insertFailure .server (.abs_path [97]) [[98]] false,
    .receiveChunk .server cssContext 1 (.css 0) false,
    .insertCssFileOnServer cssContext 1 [97]]

/-- A CSS file fails, is bundled again without an error, and is inserted anew. -/
theorem failedIffListed_solvedOps :
    Meets (step true) KeepsFailures (init fun _ => none) solvedOps
      ∧ Ends FailedIffListed GraphPanic.Other ((init fun _ => none).run true solvedOps)
      ∧ ((init fun _ => none).run true solvedOps).isOk = true :=
  have hkeeps : Meets (step true) KeepsFailures (init fun _ => none) solvedOps := by decide
  ⟨hkeeps, failedIffListed_of_run true (fun _ => none) solvedOps hkeeps, by decide⟩

/-- The file fails, and then it is written anew. -/
def overwrittenOps : List GraphOp :=
  [.insertFailure .server (.abs_path [97]) [[98]] false,
    .insertCssFileOnServer cssContext 1 [97]]

/-- Without the condition a file that is written anew keeps its failure on the list. -/
theorem not_failedIffListed_overwrittenOps :
    ¬ ∀ (allow_assert : Bool) (route_lookup : FileIndex → Option RouteIndex)
      (ops : List GraphOp),
      Ends FailedIffListed GraphPanic.Other ((init route_lookup).run allow_assert ops) := by
  intro hall
  have hend := hall true (fun _ => none) overwrittenOps
  have hat : ((init fun _ => none).run true overwrittenOps).toOption.map (fun dev =>
      (decide (dev.server_graph.FailedAt 0),
        decide (Listed dev.bundling_failures (.server 0)))) = some (false, true) := by decide
  cases hrun : (init fun _ => none).run true overwrittenOps with
  | error p =>
    rw [hrun] at hat
    cases hat
  | ok dev =>
    rw [hrun] at hend hat
    simp only [Except.toOption, map_some, some.injEq, Prod.mk.injEq,
      decide_eq_false_iff_not, decide_eq_true_eq] at hat
    exact hat.1 ((hend .server 0).2 hat.2)

end DevServer

end Cruller.Bake
