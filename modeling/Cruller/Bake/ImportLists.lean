import Cruller.Bake.EdgeLists

/-!
# An import list made anew

The imports of the last build are looked up by the file that is imported. Each record finds its
edge there, which is put in front of the new list, or an edge is made for it; those that no record
has found are freed.
-/

namespace Cruller.Bake

open List Option

namespace IncrementalGraph

variable {allow_assert : Bool} {side : Side} {g g' : IncrementalGraph side} {e : EdgeIndex}
  {f i : FileIndex}

/-- `newEdge` has put an edge into the graph. -/
structure Made (g : IncrementalGraph side) (edge : Edge) (e : EdgeIndex)
    (g' : IncrementalGraph side) : Prop where
  free_lt : ∀ j ∈ g'.edges_free_list, j < g'.edges.length
  free_nodup : g'.edges_free_list.Nodup
  fresh : g.files e = none
  files : ∀ j, g'.files j = if j = e then some (edge.dependency, edge.imported) else g.files j
  self : g'.edges[e]? = some edge
  others : ∀ j, j ≠ e → g'.edges[j]? = g.edges[j]?
  bundled_files : g'.bundled_files = g.bundled_files
  first_dep : g'.first_dep = g.first_dep
  first_import : g'.first_import = g.first_import

/-- An edge is taken from the free list, or put at the end. -/
theorem newEdge_made (h : g.Core) (edge : Edge) :
    Ends (fun r => g.Made edge r.1 r.2) (fun _ => True) (g.newEdge edge) := by
  unfold newEdge
  split
  · rename_i index hls
    have hsp : g.edges_free_list = g.edges_free_list.dropLast ++ [index] :=
      (List.dropLast_append_getLast? index hls).symm
    have hmem : index ∈ g.edges_free_list := mem_of_getLast? hls
    have hlt := h.free_lt index hmem
    have hnd := h.free_nodup
    rw [hsp, nodup_append_comm, singleton_append, nodup_cons] at hnd
    rw [modifyEdge_of_lt hlt]
    have hed : ∀ j, (relink g.edges (some index) fun _ => edge)[j]? =
        if j = index then some edge else g.edges[j]? := by
      intro j
      rw [getElem?_relink]
      simp only [some.injEq, eq_comm (a := index)]
      split_ifs with hj
      · rw [hj, getElem?_eq_getElem hlt]
        rfl
      · rfl
    refine ⟨fun j hj => ?_, hnd.2, ?_, fun j => ?_, ?_, fun j hj => ?_, rfl, rfl, rfl⟩
    · simpa using h.free_lt j (List.mem_of_mem_dropLast hj)
    · rw [files, if_pos hmem]
    · rw [files, files]
      simp only [hed]
      split_ifs with hin hj hfr hj hfr
      · exact absurd (hj ▸ hin) hnd.1
      · rfl
      · exact absurd (List.mem_of_mem_dropLast hin) hfr
      · rfl
      · rw [hsp, mem_append, mem_singleton] at hfr
        exact absurd hfr (not_or.2 ⟨hin, hj⟩)
      · rfl
    · exact (hed index).trans (if_pos rfl)
    · exact (hed j).trans (if_neg hj)
  · rename_i hls
    have hnil : g.edges_free_list = [] := getLast?_eq_none_iff.1 hls
    split_ifs
    · have hed : ∀ j, (g.edges ++ [edge])[j]? =
          if j = g.edges.length then some edge else g.edges[j]? := by
        intro j
        split_ifs with hj
        · simp [hj]
        · rcases Nat.lt_or_ge j g.edges.length with hlt | hge
          · exact getElem?_append_left hlt
          · rw [getElem?_eq_none hge, getElem?_eq_none]
            rw [length_append, length_singleton]
            omega
      refine ⟨fun j hj => ?_, h.free_nodup, ?_, fun j => ?_, ?_, fun j hj => ?_, rfl, rfl, rfl⟩
      · rw [hnil] at hj
        cases hj
      · simp [files]
      · rw [files, files]
        simp only [hed, hnil, not_mem_nil, if_false]
        split_ifs <;> rfl
      · exact (hed _).trans (if_pos rfl)
      · exact (hed j).trans (if_neg hj)
    · trivial

/-- The graph with a new edge in front of the dependency list of what it imports. -/
def attached (g : IncrementalGraph side) (i : FileIndex) (first_dep : Option EdgeIndex)
    (e : EdgeIndex) : IncrementalGraph side :=
  { g with
    edges := relink g.edges first_dep fun edge => { edge with prev_dependency := some e }
    first_dep := g.first_dep.set i (some e) }

theorem files_attached (first_dep : Option EdgeIndex) (j : EdgeIndex) :
    (g.attached i first_dep e).files j = g.files j := by
  rw [files, files]
  simp only [attached, getElem?_relink]
  split_ifs
  · rfl
  · rw [Option.map_map]
    rfl
  · rfl

theorem nextImport_attached (first_dep : Option EdgeIndex) (j : EdgeIndex) :
    (g.attached i first_dep e).nextImport j = g.nextImport j := by
  rw [nextImport, nextImport]
  simp only [attached, getElem?_relink]
  split_ifs
  · rw [bind_map]
    rfl
  · rfl

theorem nextDependency_attached (first_dep : Option EdgeIndex) (j : EdgeIndex) :
    (g.attached i first_dep e).nextDependency j = g.nextDependency j := by
  rw [nextDependency, nextDependency]
  simp only [attached, getElem?_relink]
  split_ifs
  · rw [bind_map]
    rfl
  · rfl

theorem prevDependency_attached (first_dep : Option EdgeIndex) {j : EdgeIndex}
    (hlt : j < g.edges.length) : (g.attached i first_dep e).prevDependency j =
      if first_dep = some j then some e else g.prevDependency j := by
  rw [prevDependency, prevDependency]
  simp only [attached, getElem?_relink, getElem?_eq_getElem hlt]
  split_ifs <;> rfl

/-- An edge at the front of both its lists. -/
def newImport (f i : FileIndex) (new_imports first_dep : Option EdgeIndex) : Edge where
  next_import := new_imports
  next_dependency := first_dep
  prev_dependency := none
  imported := i
  dependency := f

section Attach

variable {new_imports first_dep : Option EdgeIndex}

theorem IsDependencyList.lt {es : List EdgeIndex} (h : g.IsDependencyList i es) {j : EdgeIndex}
    (hj : j ∈ es) : j < g.edges.length := by
  obtain ⟨_, hfl⟩ := (h.mem j).1 hj
  exact lt_of_files hfl

/-- A new edge goes to the front of the dependency list of its file. -/
theorem Core.attach (h : g.Core) (hf : f < g.bundled_files.length)
    (hmd : g.Made (newImport f i new_imports first_dep) e g')
    (hfr : g.first_dep[i]? = some first_dep) : (g'.attached i first_dep e).Core := by
  have hi : i < g.bundled_files.length := by
    rw [← h.first_dep_length]
    exact (List.getElem?_eq_some_iff.1 hfr).1
  have hsl : g'.files e = some (f, i) := (hmd.files e).trans (if_pos rfl)
  have hnot : ∀ {j : EdgeIndex} {f' i' : FileIndex}, g.files j = some (f', i') → j ≠ e := by
    rintro j f' i' hj rfl
    rw [hmd.fresh] at hj
    cases hj
  have hln : ∀ j, j ≠ e → (g'.attached i first_dep e).nextDependency j = g.nextDependency j := by
    intro j hj
    rw [nextDependency_attached, nextDependency, nextDependency, hmd.others j hj]
  have hpr : ∀ j, j ≠ e → j < g.edges.length → (g'.attached i first_dep e).prevDependency j =
      if first_dep = some j then some e else g.prevDependency j := by
    intro j hj hlt
    have hlt' : j < g'.edges.length := by
      have := hmd.others j hj
      rw [getElem?_eq_getElem hlt] at this
      exact (List.getElem?_eq_some_iff.1 this).1
    rw [prevDependency_attached _ hlt']
    rw [prevDependency, prevDependency, hmd.others j hj]
  refine ⟨?_, hmd.free_nodup, ?_, ?_, ?_, ?_⟩
  · intro j hj
    change j < (relink g'.edges _ _).length
    rw [length_relink]
    exact hmd.free_lt j hj
  · change (g'.first_dep.set i (some e)).length = g'.bundled_files.length
    rw [length_set, hmd.first_dep, hmd.bundled_files]
    exact h.first_dep_length
  · change g'.first_import.length = g'.bundled_files.length
    rw [hmd.first_import, hmd.bundled_files]
    exact h.first_import_length
  · intro j f' i' hj
    change f' < g'.bundled_files.length ∧ i' < g'.bundled_files.length
    rw [files_attached, hmd.files] at hj
    rw [hmd.bundled_files]
    split_ifs at hj
    · cases hj
      exact ⟨hf, hi⟩
    · exact h.in_range j f' i' hj
  · intro i' hi'
    change i' < g'.bundled_files.length at hi'
    rw [hmd.bundled_files] at hi'
    obtain ⟨es, hes⟩ := h.dependencies i' hi'
    have hne : ∀ j ∈ es, j ≠ e := fun j hj => by
      obtain ⟨_, hj⟩ := (hes.mem j).1 hj
      exact hnot hj
    by_cases heq : i' = i
    · subst heq
      obtain ⟨it, hit, hls⟩ := hes.list
      cases some.inj (hfr.symm.trans hit)
      refine ⟨e :: es, nodup_cons.2 ⟨fun hmem => hne e hmem rfl, hes.nodup⟩, fun j => ?_,
        some e, ?_, hls.push hes.nodup ?_ ?_ (fun j hj => hln j (hne j hj))
          (fun j hj => ?_) fun j hj hoff => ?_⟩
      · rw [files_attached, hmd.files, mem_cons]
        split_ifs with hj
        · exact iff_of_true (Or.inl hj) ⟨f, rfl⟩
        · rw [← hes.mem j]
          exact or_iff_right hj
      · change (g'.first_dep.set i' (some e))[i']? = _
        rw [hmd.first_dep, getElem?_set_self (h.first_dep_length.symm ▸ hi')]
      · rw [nextDependency_attached, nextDependency, hmd.self]
        rfl
      · have hlt : e < g'.edges.length := (List.getElem?_eq_some_iff.1 hmd.self).1
        rw [prevDependency_attached _ hlt, prevDependency, hmd.self]
        refine if_neg fun hhd => hne e ?_ rfl
        exact mem_of_mem_head? (hls.it_eq ▸ hhd)
      · have hmem : j ∈ es := mem_of_mem_head? (hls.it_eq ▸ hj)
        exact (hpr j (hne j hmem) (hes.lt hmem)).trans (if_pos hj)
      · rw [hpr j (hne j hj) (hes.lt hj), if_neg hoff]
    · refine ⟨es, hes.congr ?_ (fun j => ?_) (fun j hj => hln j (hne j hj)) fun j hj => ?_⟩
      · change (g'.first_dep.set i (some e))[i']? = _
        rw [hmd.first_dep, getElem?_set_ne (Ne.symm heq)]
      · rw [files_attached, hmd.files]
        split_ifs with hj
        · subst hj
          refine iff_of_false ?_ ?_
          · rintro ⟨f', hf'⟩
            exact heq (Prod.mk.inj (some.inj hf')).2.symm
          · rintro ⟨f', hf'⟩
            rw [hmd.fresh] at hf'
            cases hf'
        · rfl
      · rw [hpr j (hne j hj) (hes.lt hj), if_neg]
        rintro rfl
        obtain ⟨es₁, hes₁⟩ := h.dependencies i hi
        obtain ⟨it, hit, hls⟩ := hes₁.list
        cases some.inj (hfr.symm.trans hit)
        obtain ⟨f₁, h₁⟩ := (hes₁.mem j).1 (mem_of_mem_head? hls.it_eq.symm)
        obtain ⟨f₂, h₂⟩ := (hes.mem j).1 hj
        rw [h₁] at h₂
        exact heq (Prod.mk.inj (some.inj h₂)).2.symm

/-- A new edge is one more of its file's that is in no import list, and one of the edges to its
target. -/
theorem Detached.attach {es : List EdgeIndex} (h : g.Detached f es)
    (hf : f < g.bundled_files.length)
    (hmd : g.Made (newImport f i new_imports first_dep) e g')
    (hfr : g.first_dep[i]? = some first_dep) (hnew : ∀ j, g.files j ≠ some (f, i)) :
    (g'.attached i first_dep e).Detached f (es ++ [e]) := by
  have hfl : ∀ j, (g'.attached i first_dep e).files j =
      if j = e then some (f, i) else g.files j :=
    fun j => (files_attached _ j).trans (hmd.files j)
  have hne : ∀ {j : EdgeIndex} {files : FileIndex × FileIndex}, g.files j = some files → j ≠ e := by
    rintro j files hj rfl
    rw [hmd.fresh] at hj
    cases hj
  have hes : ∀ j ∈ es, j ≠ e := fun j hj => by
    obtain ⟨_, hj⟩ := (h.mem j).1 hj
    exact hne hj
  refine ⟨h.toCore.attach hf hmd hfr, ⟨?_, fun j => ?_, ?_⟩, fun f' hf' hoff => ?_⟩
  · rw [nodup_append_comm, singleton_append, nodup_cons]
    exact ⟨fun he => hes e he rfl, h.nodup⟩
  · rw [mem_append, mem_singleton, hfl, h.mem j]
    split_ifs with hj
    · exact iff_of_true (Or.inr hj) ⟨i, rfl⟩
    · exact or_iff_left hj
  · intro j hj j' hj' heq
    rw [hfl, hfl] at heq
    rw [mem_append, mem_singleton] at hj hj'
    split_ifs at heq with h₁ h₂ h₂
    · rw [h₁, h₂]
    · exact absurd heq.symm (hnew j')
    · exact absurd heq (hnew j)
    · exact h.distinct j (hj.resolve_right h₁) j' (hj'.resolve_right h₂) heq
  · change f' < g'.bundled_files.length at hf'
    rw [hmd.bundled_files] at hf'
    obtain ⟨es', hes'⟩ := h.others f' hf' hoff
    refine ⟨es', hes'.congr ?_ (fun j i' => ?_) fun j hj => ?_⟩
    · change g'.first_import[f']? = _
      rw [hmd.first_import]
    · rw [hfl]
      split_ifs with hj
      · subst hj
        rw [hmd.fresh]
        refine iff_of_false (fun heq => ?_) fun hno => nomatch hno
        exact hoff (Prod.mk.inj (some.inj heq)).1.symm
      · rfl
    · obtain ⟨i', hi'⟩ := (hes'.mem j).1 hj
      rw [nextImport_attached, nextImport, nextImport, hmd.others j (hne hi')]

end Attach

/-- The edges that have been found are the new list; those of the last build that have not are among
the first entries. -/
structure Rebuilding (f : FileIndex) (count : ℕ) (a : DevServer.Attachment side) : Prop where
  lt : f < a.g.bundled_files.length
  detached : a.g.Detached f (a.quick_lookup.map fun entry => entry.2.edge_index)
  files : ∀ entry ∈ a.quick_lookup, a.g.files entry.2.edge_index = some (f, entry.1)
  list : ∃ es, IsList a.g.nextImport a.new_imports es ∧ es.Nodup ∧
    ∀ e, e ∈ es ↔ ∃ entry ∈ a.quick_lookup, entry.2 = ⟨e, true⟩
  fresh : ∀ entry ∈ a.quick_lookup.drop count, entry.2.seen = true

theorem lookup_eq_some {α β : Type} [BEq α] [LawfulBEq α] {k : α} {v : β} :
    ∀ {l : List (α × β)}, l.lookup k = some v → (k, v) ∈ l
  | (k', v') :: l, h => by
    rw [lookup_cons] at h
    split at h
    · rename_i hk
      cases h
      rw [eq_of_beq hk]
      exact mem_cons_self
    · exact mem_cons_of_mem _ (lookup_eq_some h)

theorem lookup_eq_none {α β : Type} [BEq α] [LawfulBEq α] {k : α} :
    ∀ {l : List (α × β)}, l.lookup k = none → ∀ entry ∈ l, entry.1 ≠ k
  | (k', v') :: l, h, entry, hmem => by
    rw [lookup_cons] at h
    split at h
    · exact nomatch h
    · rename_i hk
      rcases mem_cons.1 hmem with rfl | hmem
      · rintro rfl
        exact Bool.noConfusion ((beq_self_eq_true _).symm.trans hk)
      · exact lookup_eq_none h entry hmem

/-- The edge of an entry, moved to the front of the new list. -/
theorem Detached.setNextImport {es : List EdgeIndex} (h : g.Detached f es) (he : e ∈ es)
    (it : Option EdgeIndex) :
    ({ g with edges := relink g.edges (some e) fun edge => { edge with next_import := it } } :
      IncrementalGraph side).Detached f es := by
  generalize hg : ({ g with edges := relink g.edges (some e) fun edge =>
    { edge with next_import := it } } : IncrementalGraph side) = g'
  have hed : g'.edges = relink g.edges (some e) fun edge => { edge with next_import := it } := by
    rw [← hg]
  have hfr : g'.edges_free_list = g.edges_free_list := by rw [← hg]
  have hdep : g'.first_dep = g.first_dep := by rw [← hg]
  have him : g'.first_import = g.first_import := by rw [← hg]
  have hbn : g'.bundled_files = g.bundled_files := by rw [← hg]
  have hfl : ∀ j, g'.files j = g.files j := by
    intro j
    rw [IncrementalGraph.files, IncrementalGraph.files, hfr, hed, getElem?_relink]
    split_ifs
    · rfl
    · rw [Option.map_map]
      rfl
    · rfl
  have hnx : ∀ j, g'.nextDependency j = g.nextDependency j := by
    intro j
    rw [nextDependency, nextDependency, hed, getElem?_relink]
    split_ifs
    · rw [bind_map]
      rfl
    · rfl
  have hpr : ∀ j, g'.prevDependency j = g.prevDependency j := by
    intro j
    rw [prevDependency, prevDependency, hed, getElem?_relink]
    split_ifs
    · rw [bind_map]
      rfl
    · rfl
  have hnt : ∀ j, j ≠ e → g'.nextImport j = g.nextImport j := by
    intro j hj
    rw [nextImport, nextImport, hed, getElem?_relink, if_neg]
    exact fun heq => hj (some.inj heq).symm
  refine ⟨⟨?_, hfr ▸ h.free_nodup, ?_, ?_, ?_, fun i hi => ?_⟩, ⟨h.nodup, fun j => ?_, ?_⟩,
    fun f' hf' hne => ?_⟩
  · rw [hfr, hed, length_relink]
    exact h.free_lt
  · rw [hdep, hbn]
    exact h.first_dep_length
  · rw [him, hbn]
    exact h.first_import_length
  · simp only [hfl, hbn]
    exact h.in_range
  · obtain ⟨es', hes'⟩ := h.dependencies i (hbn ▸ hi)
    exact ⟨es', hes'.congr (by rw [hdep]) (fun j => by rw [hfl]) (fun j _ => hnx j)
      fun j _ => hpr j⟩
  · rw [hfl, h.mem]
  · simp only [hfl]
    exact h.distinct
  · obtain ⟨es', hes'⟩ := h.others f' (hbn ▸ hf') hne
    refine ⟨es', hes'.congr (by rw [him]) (fun j i' => by rw [hfl]) fun j hj => ?_⟩
    refine hnt j fun heq => hne ?_
    obtain ⟨i₁, h₁⟩ := (hes'.mem j).1 hj
    obtain ⟨i₂, h₂⟩ := (h.mem e).1 he
    rw [heq, h₂] at h₁
    exact (Prod.mk.inj (some.inj h₁)).1.symm

open DevServer (Attachment TempLookup attachEdge markSeen)

variable {count : ℕ} {a : Attachment side}

theorem Rebuilding.entry_unique (h : Rebuilding f count a) {entry entry' : FileIndex × TempLookup}
    (hmem : entry ∈ a.quick_lookup) (hmem' : entry' ∈ a.quick_lookup) (hkey : entry.1 = entry'.1) :
    entry = entry' := by
  refine inj_on_of_nodup_map h.detached.nodup hmem hmem' ?_
  refine h.detached.distinct _ (List.mem_map_of_mem hmem) _ (List.mem_map_of_mem hmem') ?_
  rw [h.files entry hmem, h.files entry' hmem', hkey]

theorem map_edge_index_markSeen (i : FileIndex) (lookup : List (FileIndex × TempLookup)) :
    (markSeen i lookup).map (fun entry => entry.2.edge_index) =
      lookup.map fun entry => entry.2.edge_index := by
  rw [markSeen, List.map_map]
  refine map_congr_left fun entry _ => ?_
  simp only [Function.comp_apply]
  split_ifs <;> rfl

theorem mem_markSeen {i : FileIndex} {lookup : List (FileIndex × TempLookup)}
    {entry : FileIndex × TempLookup} (hmem : entry ∈ markSeen i lookup) :
    ∃ old ∈ lookup, old.1 = entry.1 ∧ old.2.edge_index = entry.2.edge_index
      ∧ (entry.2.seen = true ↔ old.2.seen = true ∨ old.1 = i) := by
  obtain ⟨old, hold, rfl⟩ := List.mem_map.1 hmem
  refine ⟨old, hold, ?_⟩
  split_ifs with hkey
  · exact ⟨rfl, rfl, iff_of_true rfl (Or.inr hkey)⟩
  · exact ⟨rfl, rfl, (or_iff_left hkey).symm⟩

/-- An edge there was goes to the new import list. -/
theorem Rebuilding.keep (h : Rebuilding f count a) {lookup : TempLookup}
    (hlk : (i, lookup) ∈ a.quick_lookup) (hsn : lookup.seen = false) :
    Rebuilding f count { a with
      g := { a.g with edges := relink a.g.edges (some lookup.edge_index) fun dep =>
        { dep with next_import := a.new_imports } }
      quick_lookup := markSeen i a.quick_lookup
      new_imports := some lookup.edge_index } := by
  obtain ⟨es, hls, hnd, hmem⟩ := h.list
  have hed : lookup.edge_index ∈ a.quick_lookup.map fun entry => entry.2.edge_index :=
    List.mem_map.2 ⟨_, hlk, rfl⟩
  have hdt := h.detached.setNextImport hed a.new_imports
  have hnew : lookup.edge_index ∉ es := by
    intro he
    obtain ⟨entry, hen, heq⟩ := (hmem _).1 he
    have hsm := inj_on_of_nodup_map h.detached.nodup hen hlk (by rw [heq])
    rw [hsm] at heq
    change lookup = _ at heq
    rw [heq] at hsn
    exact nomatch hsn
  obtain ⟨j, hj⟩ := (h.detached.mem _).1 hed
  have hfl : ∀ j, ({ a.g with edges := relink a.g.edges (some lookup.edge_index) fun dep =>
      { dep with next_import := a.new_imports } } : IncrementalGraph side).files j =
        a.g.files j := by
    intro j
    rw [IncrementalGraph.files, IncrementalGraph.files]
    simp only [getElem?_relink]
    split_ifs
    · rfl
    · rw [Option.map_map]
      rfl
    · rfl
  refine ⟨h.lt, ?_, fun entry hen => ?_, ⟨lookup.edge_index :: es, ⟨rfl, ?_⟩,
    nodup_cons.2 ⟨hnew, hnd⟩, fun e => ?_⟩, fun entry hen => ?_⟩
  · rw [map_edge_index_markSeen]
    exact hdt
  · obtain ⟨old, hold, hkey, hin, -⟩ := mem_markSeen hen
    rw [hfl, ← hin, ← hkey]
    exact h.files old hold
  · have hnx : ∀ j, ({ a.g with edges := relink a.g.edges (some lookup.edge_index) fun dep =>
        { dep with next_import := a.new_imports } } : IncrementalGraph side).nextImport j =
          if j = lookup.edge_index then a.new_imports else a.g.nextImport j := by
      intro j'
      rw [nextImport, nextImport]
      simp only [getElem?_relink, some.injEq, eq_comm (a := lookup.edge_index)]
      split_ifs with heq
      · rw [heq, getElem?_eq_getElem (lt_of_files hj)]
        rfl
      · rfl
    rw [hnx, if_pos rfl]
    refine hls.congr fun j hj => (hnx j).trans (if_neg ?_)
    rintro rfl
    exact hnew hj
  · rw [mem_cons, hmem]
    constructor
    · rintro (rfl | ⟨entry, hen, heq⟩)
      · exact ⟨(i, { lookup with seen := true }), List.mem_map.2 ⟨_, hlk, if_pos rfl⟩, rfl⟩
      · refine ⟨entry, List.mem_map.2 ⟨entry, hen, ?_⟩, heq⟩
        split_ifs
        · exact Prod.ext rfl (by simp only [heq])
        · rfl
    · rintro ⟨entry, hen, heq⟩
      obtain ⟨old, hold, hkey, hin, hsaw⟩ := mem_markSeen hen
      rw [heq] at hin hsaw
      rcases hsaw.1 rfl with hsn' | hi
      · refine Or.inr ⟨old, hold, ?_⟩
        cases hold' : old.2 with
        | mk edge_index seen =>
          rw [hold'] at hin hsn'
          cases hin
          cases hsn'
          rfl
      · have hen : old = (i, lookup) := h.entry_unique hold hlk hi
        exact Or.inl (hin.symm.trans (congrArg (·.2.edge_index) hen))
  · rw [markSeen, ← map_drop] at hen
    obtain ⟨old, hold, rfl⟩ := List.mem_map.1 hen
    split_ifs
    · rfl
    · exact h.fresh old hold

/-- A new edge goes to the new import list. -/
theorem Rebuilding.make (h : Rebuilding f count a) {first_dep : Option EdgeIndex}
    (hmd : a.g.Made (newImport f i a.new_imports first_dep) e g')
    (hfs : a.g.first_dep[i]? = some first_dep)
    (hnew : ∀ entry ∈ a.quick_lookup, entry.1 ≠ i) :
    Rebuilding f count { a with
      g := g'.attached i first_dep e
      quick_lookup := a.quick_lookup ++ [(i, ⟨e, true⟩)]
      new_imports := some e
      had_adjusted_edges := true } := by
  obtain ⟨es, hls, hnd, hmem⟩ := h.list
  have hfl : ∀ j, (g'.attached i first_dep e).files j =
      if j = e then some (f, i) else a.g.files j :=
    fun j => (files_attached _ j).trans (hmd.files j)
  have hno : ∀ j, a.g.files j ≠ some (f, i) := by
    intro j hj
    obtain ⟨entry, hen, rfl⟩ := List.mem_map.1 ((h.detached.mem j).2 ⟨i, hj⟩)
    rw [h.files entry hen] at hj
    exact hnew entry hen (Prod.mk.inj (some.inj hj)).2
  have hne : ∀ entry ∈ a.quick_lookup, entry.2.edge_index ≠ e := by
    rintro entry hen rfl
    have hfr := hmd.fresh
    rw [h.files entry hen] at hfr
    exact nomatch hfr
  have hes : ∀ j ∈ es, j ≠ e := by
    intro j hj
    obtain ⟨entry, hen, heq⟩ := (hmem j).1 hj
    have hin := hne entry hen
    rwa [heq] at hin
  refine ⟨?_, ?_, fun entry hen => ?_, ⟨e :: es, ⟨rfl, ?_⟩,
    nodup_cons.2 ⟨fun he => hes e he rfl, hnd⟩, fun j => ?_⟩, fun entry hen => ?_⟩
  · change f < g'.bundled_files.length
    rw [hmd.bundled_files]
    exact h.lt
  · rw [map_append]
    exact h.detached.attach h.lt hmd hfs hno
  · rw [hfl]
    rcases mem_append.1 hen with hen | hen
    · rw [if_neg (hne entry hen)]
      exact h.files entry hen
    · rw [mem_singleton.1 hen]
      exact if_pos rfl
  · have hsl : (g'.attached i first_dep e).nextImport e = a.new_imports := by
      rw [nextImport_attached, nextImport, hmd.self]
      rfl
    rw [hsl]
    refine hls.congr fun j hj => ?_
    rw [nextImport_attached, nextImport, nextImport, hmd.others j (hes j hj)]
  · rw [mem_cons, hmem]
    constructor
    · rintro (rfl | ⟨entry, hen, heq⟩)
      · simp
      · exact ⟨entry, mem_append_left _ hen, heq⟩
    · rintro ⟨entry, hen, heq⟩
      rcases mem_append.1 hen with hen | hen
      · exact Or.inr ⟨entry, hen, heq⟩
      · rw [mem_singleton.1 hen] at heq
        cases heq
        exact Or.inl rfl
  · rw [drop_append] at hen
    rcases mem_append.1 hen with hen | hen
    · exact h.fresh entry hen
    · rw [mem_singleton.1 (mem_of_mem_drop hen)]

theorem attachEdge_rebuilding (h : Rebuilding f count a) (i : FileIndex) :
    Ends (Rebuilding f count) (fun _ => True) (attachEdge f i a) := by
  unfold attachEdge
  split
  · rename_i lookup hlk
    have hmem := lookup_eq_some hlk
    split_ifs with hsn
    · exact h
    · have hed : lookup.edge_index ∈ a.quick_lookup.map fun entry => entry.2.edge_index :=
        List.mem_map.2 ⟨_, hmem, rfl⟩
      obtain ⟨j, hj⟩ := (h.detached.mem _).1 hed
      rw [modifyEdge_of_lt (lt_of_files hj)]
      exact h.keep hmem (Bool.eq_false_of_not_eq_true hsn)
  · rename_i hlk
    cases hfr : a.g.first_dep[i]? with
    | none => trivial
    | some first_dep =>
      refine (newEdge_made h.detached.toCore (newImport f i a.new_imports first_dep)).bind
        fun r hmd => ?_
      have hmk := h.make hmd hfr (lookup_eq_none hlk)
      cases first_dep with
      | none => exact hmk
      | some dep =>
        change Ends _ _ (r.2.modifyEdge dep _ >>= _)
        unfold modifyEdge
        split_ifs
        · exact hmk
        · trivial

theorem getOrPut_grown (key : GraphKey) :
    Ends (fun r => ∃ count, g.Grown count r.2) (fun _ => True) (g.getOrPut key) := by
  unfold getOrPut
  split
  · cases g.getFileByIndex _ with
    | ok file => exact ⟨0, .of_eq rfl rfl rfl rfl rfl⟩
    | error p => trivial
  · split_ifs
    · exact ⟨1, rfl, rfl, rfl, rfl, length_append⟩
    · trivial

theorem setFile_grown (index : FileIndex) (file : side.File) :
    g.Grown 0 (g.setFile index file) :=
  .of_eq rfl rfl rfl rfl (length_modify ..)

theorem insertEmpty_grown (g : IncrementalGraph side) (key : GraphKey) (kind : FileKind) :
    Ends (fun r => ∃ count, g.Grown count r.2) (fun _ => True)
      (DevServer.insertEmpty g key kind) := by
  refine (getOrPut_grown key).bind fun r ⟨count, hgr⟩ => ?_
  simp only
  split_ifs
  · exact ⟨count, hgr⟩
  · exact ⟨_, hgr.trans (.of_eq rfl rfl rfl rfl (length_modify ..))⟩

theorem Rebuilding.grow (h : Rebuilding f count a) {grown : ℕ} (hgr : a.g.Grown grown g') :
    Rebuilding f count { a with g := g' } := by
  obtain ⟨es, hls, hes⟩ := h.list
  exact ⟨h.lt.trans_le hgr.le, hgr.detached h.detached,
    fun entry hen => by rw [hgr.files]; exact h.files entry hen,
    ⟨es, hgr.nextImport ▸ hls, hes⟩, h.fresh⟩

theorem Rebuilding.of_gts (h : Rebuilding f count a) (gts : GraphTraceState) :
    Rebuilding f count { a with gts := gts } :=
  ⟨h.lt, h.detached, h.files, h.list, h.fresh⟩

theorem processImportRecord_rebuilding (ctx : HotUpdateContext) (h : Rebuilding f count a)
    (record : ImportRecord) : Ends (Rebuilding f count) (fun _ => True)
      (DevServer.processImportRecord ctx f a record) := by
  unfold DevServer.processImportRecord
  split_ifs
  · exact h
  · exact h
  · split
    · exact h
    · exact attachEdge_rebuilding h _

theorem cssFileIndex_rebuilding (h : Rebuilding f count a) (cached : Option FileIndex)
    (key : GraphKey) (kind : FileKind) : Ends (fun r => Rebuilding f count r.2) (fun _ => True)
      (DevServer.cssFileIndex cached key kind a) := by
  unfold DevServer.cssFileIndex
  split
  · exact h
  · exact (insertEmpty_grown _ _ _).bind fun r ⟨grown, hgr⟩ => h.grow hgr

theorem processEdgeAttachment_rebuilding (ctx : HotUpdateContext) (h : Rebuilding f count a)
    (record : ImportRecord) : Ends (fun r => Rebuilding f count r.2) (fun _ => True)
      (DevServer.processEdgeAttachment ctx f record a) := by
  unfold DevServer.processEdgeAttachment
  split_ifs
  · exact h
  · exact h
  · split
    · exact h
    · refine (cssFileIndex_rebuilding h _ _ _).bind fun r hr => ?_
      simp only
      split_ifs <;> first
        | exact hr
        | exact (attachEdge_rebuilding hr _).bind fun _ ha => ha
        | exact (attachEdge_rebuilding (hr.of_gts _) _).bind fun _ ha => ha

theorem processCSSRecords_rebuilding (ctx : HotUpdateContext) (index : BundleIndex)
    (queue : List BundleIndex) (h : Rebuilding f count a) :
    Ends (fun r => Rebuilding f count r.2) (fun _ => True)
      (DevServer.processCSSRecords ctx f index queue a) := by
  refine ends_foldlM_of_step (I := fun r : List BundleIndex × Attachment side =>
    Rebuilding f count r.2) (fun r record hr => ?_) h _
  exact (processEdgeAttachment_rebuilding ctx hr record).bind fun r' hr' => hr'

theorem processCSSQueue_rebuilding (ctx : HotUpdateContext) : ∀ (fuel : ℕ)
    (queue : List BundleIndex) {a : Attachment side}, Rebuilding f count a →
      Ends (Rebuilding f count) (fun _ => True) (DevServer.processCSSQueue ctx f fuel queue a)
  | 0, queue, a, h => by
    rw [DevServer.processCSSQueue]
    split_ifs
    · exact h
    · trivial
  | fuel + 1, queue, a, h => by
    rw [DevServer.processCSSQueue]
    split
    · exact h
    · exact (processCSSRecords_rebuilding ctx _ _ h).bind fun r hr =>
        processCSSQueue_rebuilding ctx fuel r.1 hr

theorem ends_true {α : Type} (r : Outcome α) : Ends (fun _ => True) (fun _ => True) r := by
  cases r <;> trivial

theorem processRecords_rebuilding (allow_assert : Bool) (ctx : HotUpdateContext) (fuel : ℕ)
    (mode : DevServer.ChunkMode) (index : BundleIndex) (h : Rebuilding f count a) :
    Ends (Rebuilding f count) (fun _ => True)
      (DevServer.processRecords allow_assert ctx fuel mode f index a) := by
  unfold DevServer.processRecords
  split
  · refine (ends_true _).bind fun _ _ => ?_
    exact ends_foldlM_of_step (fun _ record ha => processImportRecord_rebuilding ctx ha record) h _
  · refine (ends_true _).bind fun _ _ => ?_
    exact (processCSSRecords_rebuilding ctx _ _ h).bind fun r hr =>
      processCSSQueue_rebuilding ctx fuel r.1 hr

/-- The table has one entry for each edge of the list, in order, none of them seen. -/
theorem quickLookup_eq {es : List EdgeIndex} (hes : ∀ e ∈ es, ∃ i, g.files e = some (f, i)) :
    ∀ (fuel : ℕ) (it : Option EdgeIndex) (lookup : List (FileIndex × TempLookup)),
      IsList g.nextImport it es → Ends (fun lookup' => ∃ added, lookup' = lookup ++ added
          ∧ added.map (fun entry => entry.2.edge_index) = es
          ∧ ∀ entry ∈ added, g.files entry.2.edge_index = some (f, entry.1)
            ∧ entry.2.seen = false) (fun _ => True)
        (DevServer.quickLookup allow_assert g f fuel it lookup) := by
  induction es with
  | nil =>
    rintro fuel it lookup rfl
    have hno : DevServer.quickLookup allow_assert g f fuel none lookup = .ok lookup := by
      cases fuel <;> rfl
    rw [hno]
    exact ⟨[], (append_nil _).symm, rfl, fun entry hen => nomatch hen⟩
  | cons e es ih =>
    rintro fuel it lookup ⟨rfl, hls⟩
    cases fuel with
    | zero => trivial
    | succ fuel =>
      obtain ⟨i, hi⟩ := hes e mem_cons_self
      obtain ⟨-, edge, hed, hpr⟩ := exists_of_files hi
      cases hpr
      have hnx : g.nextImport e = edge.next_import := by rw [nextImport, hed]; rfl
      rw [DevServer.quickLookup, hed]
      refine (ends_true (assert allow_assert _)).bind fun _ _ => ?_
      split_ifs
      · trivial
      · refine Ends.imp ?_ (ih (fun e he => hes e (mem_cons_of_mem _ he)) fuel
          edge.next_import (lookup ++ [(edge.imported, ⟨e, false⟩)]) (hnx ▸ hls))
        rintro lookup' ⟨added, rfl, hmap, had⟩
        refine ⟨(edge.imported, ⟨e, false⟩) :: added, by simp, by rw [map_cons, hmap],
          fun entry hen => ?_⟩
        rcases mem_cons.1 hen with rfl | hen
        · exact ⟨hi, rfl⟩
        · exact had entry hen

/-- What is left is the edges that are not those of the entries. -/
theorem freeUnseen_detached (allow_assert : Bool) (lookup : List (FileIndex × TempLookup)) :
    ∀ {g : IncrementalGraph side} {es : List EdgeIndex}, g.Detached f es →
      (lookup.map fun entry => entry.2.edge_index).Nodup →
      (∀ entry ∈ lookup, entry.2.edge_index ∈ es) →
      Ends (fun g' => ∃ es', g'.Detached f es' ∧ g'.bundled_files = g.bundled_files
          ∧ (∀ e, e ∈ es' ↔ e ∈ es ∧ ∀ entry ∈ lookup, entry.2 ≠ ⟨e, false⟩)
          ∧ ∀ e ∈ es', g'.nextImport e = g.nextImport e)
        (fun _ => True) (DevServer.freeUnseen allow_assert lookup g) := by
  induction lookup with
  | nil =>
    intro g es h _ _
    exact ⟨es, h, rfl, fun e => (and_iff_left fun entry hen => nomatch hen).symm,
      fun _ _ => rfl⟩
  | cons entry lookup ih =>
    intro g es h hnd hin
    rw [map_cons, nodup_cons] at hnd
    change Ends _ _ (List.foldlM _ g (entry :: lookup))
    rw [foldlM_cons]
    cases hsn : entry.2.seen with
    | true =>
      rw [if_pos rfl]
      refine Ends.imp ?_ (ih h hnd.2 fun entry' hen' => hin entry' (mem_cons_of_mem _ hen'))
      rintro g' ⟨es', hdet, hbn, hmem, hnx⟩
      refine ⟨es', hdet, hbn, fun e => (hmem e).trans ?_, hnx⟩
      rw [forall_mem_cons]
      refine and_congr_right fun _ => (and_iff_right ?_).symm
      intro heq
      rw [heq] at hsn
      exact nomatch hsn
    | false =>
      have hed := hin entry mem_cons_self
      obtain ⟨g₁, hds, hdet, hrm⟩ := h.remove hed allow_assert
      rw [if_neg Bool.false_ne_true, hds]
      have hrs : ∀ entry' ∈ lookup, entry'.2.edge_index ∈ es.erase entry.2.edge_index := by
        intro entry' hen'
        refine (h.nodup.mem_erase_iff).2 ⟨fun heq => hnd.1 ?_,
          hin entry' (mem_cons_of_mem _ hen')⟩
        exact List.mem_map.2 ⟨entry', hen', heq⟩
      refine Ends.imp ?_ (ih hdet hnd.2 hrs)
      rintro g' ⟨es', hdet', hbn, hmem, hnx⟩
      refine ⟨es', hdet', hbn.trans hrm.bundled_files, fun e => (hmem e).trans ?_,
        fun e he => ?_⟩
      · rw [forall_mem_cons, h.nodup.mem_erase_iff]
        have hen : entry.2 ≠ ⟨e, false⟩ ↔ e ≠ entry.2.edge_index := by
          rw [ne_comm, ne_eq, ne_eq, not_iff_not]
          constructor
          · intro heq
            exact congrArg TempLookup.edge_index heq
          · intro heq
            cases hen : entry.2 with
            | mk edge_index seen =>
              rw [hen] at heq hsn
              cases heq
              cases hsn
              rfl
        rw [hen]
        tauto
      · have hne : e ≠ entry.2.edge_index := ((h.nodup.mem_erase_iff).1 ((hmem e).1 he).1).1
        rw [hnx e he, hrm.nextImport e hne]

/-- With the edges that nobody imports gone, every list is right again. -/
theorem freeUnseen_represented (h : Rebuilding f count a) (allow_assert : Bool) :
    Ends (fun g' => ({ g' with first_import := g'.first_import.set f a.new_imports } :
      IncrementalGraph side).Represented) (fun _ => True)
      (DevServer.freeUnseen allow_assert (a.quick_lookup.take count) a.g) := by
  obtain ⟨es, hls, hnd, hmem⟩ := h.list
  refine (freeUnseen_detached allow_assert (a.quick_lookup.take count) h.detached
    (h.detached.nodup.sublist ((take_sublist ..).map _)) fun entry hen =>
      List.mem_map.2 ⟨entry, mem_of_mem_take hen, rfl⟩).imp ?_
  rintro g' ⟨es', hdet, -, hlf, hnx⟩
  have hsm : ∀ e, e ∈ es ↔ e ∈ es' := by
    intro e
    rw [hmem, hlf, List.mem_map]
    constructor
    · rintro ⟨entry, hen, heq⟩
      refine ⟨⟨entry, hen, by rw [heq]⟩, fun other hot hun => ?_⟩
      have het := inj_on_of_nodup_map h.detached.nodup hen
        (mem_of_mem_take hot) (by rw [heq, hun])
      rw [het, hun] at heq
      exact nomatch heq
    · rintro ⟨⟨entry, hen, rfl⟩, hun⟩
      refine ⟨entry, hen, ?_⟩
      cases hsn : entry.2.seen with
      | true =>
        rw [← hsn]
      | false =>
        rw [← take_append_drop count a.quick_lookup] at hen
        rcases mem_append.1 hen with hen | hen
        · refine absurd ?_ (hun entry hen)
          rw [← hsn]
        · rw [h.fresh entry hen] at hsn
          exact nomatch hsn
  have hdet' : g'.Detached f es :=
    ⟨hdet.toCore, hdet.toEdgesOf.congr_mem hnd hsm, hdet.others⟩
  exact hdet'.represented (hls.congr fun e he => hnx e ((hsm e).1 he))

end IncrementalGraph

end Cruller.Bake
