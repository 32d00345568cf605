import Mathlib.Tactic

/-!
# A depth-first search that keeps its visited set

The set may be shared by searches from many nodes. Whatever the order of the starts and of the
successors, what is visited in the end is what can be reached (`Explored.mem_seen`), each node once,
from a start or from a node that was visited (`Explored.log`). From where a node is visited first
depends on the order: a path is gone straight whose nodes are each the first successor of the one
before (`dfs_straight`). A program that does at each node what a search does is one (`dfs_simulated`).
-/

namespace Cruller

open List

variable {ν : Type*}

/-- What has been visited, and each node with the one it was visited from. -/
structure Search (ν : Type*) where
  seen : Finset ν
  log : List (ν × ν)

namespace Search

/-- Before anything has been visited. -/
def start : Search ν := ⟨∅, []⟩

/-- What can be reached along `next`. -/
def Reach (next : ν → List ν) : ν → ν → Prop := Relation.ReflTransGen fun v w => w ∈ next v

/-- What calls add: `added` is logged, once each, and closed under successors. -/
structure Explored (next : ν → List ν) (calls : List (ν × ν)) (s s' : Search ν) : Prop where
  seen_subset : s.seen ⊆ s'.seen
  called : ∀ c ∈ calls, c.1 ∈ s'.seen
  log : ∃ added, s'.log = s.log ++ added ∧ (added.map Prod.fst).Nodup
    ∧ (∀ v, v ∈ added.map Prod.fst ↔ v ∈ s'.seen ∧ v ∉ s.seen)
    ∧ ∀ c ∈ added, c ∈ calls ∨ c.2 ∈ s'.seen ∧ c.2 ∉ s.seen ∧ c.1 ∈ next c.2
  closed : ∀ v ∈ s'.seen, v ∉ s.seen → ∀ w ∈ next v, w ∈ s'.seen
  reach : ∀ v ∈ s'.seen, v ∉ s.seen → ∃ c ∈ calls, Reach next c.1 v

variable {next : ν → List ν} {calls calls' : List (ν × ν)} {s s' s'' : Search ν}

theorem Explored.nil (s : Search ν) : Explored next [] s s where
  seen_subset := Finset.Subset.refl _
  called _ hc := nomatch hc
  log := ⟨[], (append_nil _).symm, nodup_nil,
    fun _ => iff_of_false (fun h => nomatch h) fun h => h.2 h.1, fun _ h => nomatch h⟩
  closed _ hv hn := absurd hv hn
  reach _ hv hn := absurd hv hn

variable {v : ν}

theorem Explored.of_reach (h : Explored next calls start s) {w : ν} (hv : v ∈ s.seen)
    (hrc : Reach next v w) : w ∈ s.seen := by
  induction hrc with
  | refl => exact hv
  | tail _ hw ih => exact h.closed _ ih (Finset.notMem_empty _) _ hw

/-- From nothing, what is visited is what can be reached. -/
theorem Explored.mem_seen (h : Explored next calls start s) :
    v ∈ s.seen ↔ ∃ c ∈ calls, Reach next c.1 v :=
  ⟨fun hv => h.reach v hv (Finset.notMem_empty v),
    fun ⟨c, hc, hrc⟩ => h.of_reach (h.called c hc) hrc⟩

theorem Explored.mem_log (h : Explored next calls start s) :
    v ∈ s.log.map Prod.fst ↔ v ∈ s.seen := by
  obtain ⟨added, hlog, -, hmem, -⟩ := h.log
  rw [hlog, start, nil_append, hmem]
  exact and_iff_left (Finset.notMem_empty v)

theorem Explored.origin (h : Explored next calls start s) {c : ν × ν} (hc : c ∈ s.log) :
    c ∈ calls ∨ c.2 ∈ s.seen ∧ c.1 ∈ next c.2 := by
  obtain ⟨added, hlog, -, -, hor⟩ := h.log
  rw [hlog, start, nil_append] at hc
  exact (hor c hc).imp_right fun ⟨ho, _, hw⟩ => ⟨ho, hw⟩

theorem reach_congr {next' : ν → List ν} {nodes : Finset ν}
    (hnx : ∀ v ∈ nodes, ∀ w ∈ next v, w ∈ nodes)
    (hsm : ∀ v ∈ nodes, ∀ w, w ∈ next' v ↔ w ∈ next v) {w : ν} (hv : v ∈ nodes) :
    Reach next' v w ↔ Reach next v w := by
  constructor
  · refine fun h => (?_ : w ∈ nodes ∧ Reach next v w).2
    induction h with
    | refl => exact ⟨hv, .refl⟩
    | tail _ hw ih =>
      have hw := (hsm _ ih.1 _).1 hw
      exact ⟨hnx _ ih.1 _ hw, ih.2.tail hw⟩
  · refine fun h => (?_ : w ∈ nodes ∧ Reach next' v w).2
    induction h with
    | refl => exact ⟨hv, .refl⟩
    | tail _ hw ih => exact ⟨hnx _ ih.1 _ hw, ih.2.tail ((hsm _ ih.1 _).2 hw)⟩

variable [DecidableEq ν]

def visit (s : Search ν) (v origin : ν) : Search ν := ⟨insert v s.seen, s.log ++ [(v, origin)]⟩

/-- A call for a node, with where it comes from. The fuel bounds the depth. -/
def dfs (next : ν → List ν) : ℕ → ν → ν → Search ν → Search ν
  | 0, _, _, s => s
  | fuel + 1, v, origin, s =>
    if v ∈ s.seen then s
    else (next v).foldl (fun s w => dfs next fuel w v s) (s.visit v origin)

/-- A search from each of `starts`, one after the other. -/
def dfsAll (next : ν → List ν) (fuel : ℕ) (starts : List ν) (s : Search ν) : Search ν :=
  starts.foldl (fun s v => dfs next fuel v v s) s

/-- Two lists of calls, one after the other, explore what both of them do. -/
theorem Explored.append (h : Explored next calls s s') (h' : Explored next calls' s' s'') :
    Explored next (calls ++ calls') s s'' := by
  obtain ⟨added, hlog, hnd, hmem, hor⟩ := h.log
  obtain ⟨added', hlog', hnd', hmem', hor'⟩ := h'.log
  refine ⟨h.seen_subset.trans h'.seen_subset, fun c hc => ?_,
    ⟨added ++ added', ?_, ?_, fun v => ?_, fun c hc => ?_⟩, fun v hv hn w hw => ?_,
    fun v hv hn => ?_⟩
  · rcases mem_append.1 hc with hc | hc
    · exact h'.seen_subset (h.called c hc)
    · exact h'.called c hc
  · rw [hlog', hlog, append_assoc]
  · rw [map_append, nodup_append']
    exact ⟨hnd, hnd', fun v hv hv' => ((hmem' v).1 hv').2 ((hmem v).1 hv).1⟩
  · rw [map_append, mem_append, hmem, hmem']
    constructor
    · rintro (⟨hv, hn⟩ | ⟨hv, hn⟩)
      · exact ⟨h'.seen_subset hv, hn⟩
      · exact ⟨hv, fun hs => hn (h.seen_subset hs)⟩
    · rintro ⟨hv, hn⟩
      by_cases hs : v ∈ s'.seen
      · exact Or.inl ⟨hs, hn⟩
      · exact Or.inr ⟨hv, hs⟩
  · rcases mem_append.1 hc with hc | hc
    · rcases hor c hc with hcl | ⟨ho, hn, hw⟩
      · exact Or.inl (mem_append_left _ hcl)
      · exact Or.inr ⟨h'.seen_subset ho, hn, hw⟩
    · rcases hor' c hc with hcl | ⟨ho, hn, hw⟩
      · exact Or.inl (mem_append_right _ hcl)
      · exact Or.inr ⟨ho, fun hs => hn (h.seen_subset hs), hw⟩
  · by_cases hs : v ∈ s'.seen
    · exact h'.seen_subset (h.closed v hs hn w hw)
    · exact h'.closed v hv hs w hw
  · by_cases hs : v ∈ s'.seen
    · obtain ⟨c, hc, hrc⟩ := h.reach v hs hn
      exact ⟨c, mem_append_left _ hc, hrc⟩
    · obtain ⟨c, hc, hrc⟩ := h'.reach v hv hs
      exact ⟨c, mem_append_right _ hc, hrc⟩

omit [DecidableEq ν] in
theorem Explored.of_mem {v : ν} (hv : v ∈ s.seen) (origin : ν) :
    Explored next [(v, origin)] s s :=
  { Explored.nil s with
    called := fun c hc => by rwa [mem_singleton.1 hc]
    reach := fun _ hw hn => absurd hw hn
    log := by
      obtain ⟨added, hlog, hnodup, hmem, horigin⟩ := (@Explored.nil _ next s).log
      exact ⟨added, hlog, hnodup, hmem, fun c hc => (horigin c hc).imp_left fun h => nomatch h⟩ }

/-- A search of a node is a visit and the search of what is next. -/
theorem Explored.visit (hv : v ∉ s.seen) (origin : ν)
    (h : Explored next ((next v).map fun w => (w, v)) (s.visit v origin) s') :
    Explored next [(v, origin)] s s' := by
  obtain ⟨added, hlog, hnd, hmem, hor⟩ := h.log
  have hsn : v ∈ s'.seen := h.seen_subset (Finset.mem_insert_self v s.seen)
  have hnot : ∀ {w : ν}, w ∉ (s.visit v origin).seen ↔ w ≠ v ∧ w ∉ s.seen := by
    intro w
    rw [Search.visit, Finset.mem_insert, not_or]
  have hcl : ∀ c ∈ (next v).map fun w => (w, v), c.2 = v ∧ c.1 ∈ next v := by
    intro c hc
    obtain ⟨w, hw, rfl⟩ := mem_map.1 hc
    exact ⟨rfl, hw⟩
  refine ⟨fun w hw => h.seen_subset (Finset.mem_insert_of_mem hw), fun c hc => ?_,
    ⟨(v, origin) :: added, ?_, ?_, fun w => ?_, fun c hc => ?_⟩, fun w hw hn u hu => ?_,
    fun w hw hn => ?_⟩
  · rwa [mem_singleton.1 hc]
  · simp [hlog, Search.visit]
  · rw [map_cons, nodup_cons, hmem]
    exact ⟨fun hbt => hbt.2 (Finset.mem_insert_self v s.seen), hnd⟩
  · rw [map_cons, mem_cons, hmem, hnot]
    by_cases hw : w = v
    · rw [hw]
      exact iff_of_true (Or.inl rfl) ⟨hsn, hv⟩
    · simp only [hw, ne_eq, not_false_eq_true, true_and, false_or]
  · rcases mem_cons.1 hc with rfl | hc
    · exact Or.inl (mem_singleton_self _)
    · rcases hor c hc with hca | ⟨ho, hn, hw⟩
      · obtain ⟨heq, hw⟩ := hcl c hca
        exact Or.inr ⟨heq ▸ hsn, heq ▸ hv, heq.symm ▸ hw⟩
      · exact Or.inr ⟨ho, (hnot.1 hn).2, hw⟩
  · by_cases hwv : w = v
    · rw [hwv] at hu
      exact h.called (u, v) (mem_map_of_mem hu)
    · exact h.closed w hw (hnot.2 ⟨hwv, hn⟩) u hu
  · refine ⟨(v, origin), mem_singleton_self _, ?_⟩
    by_cases hwv : w = v
    · rw [hwv]
      exact Relation.ReflTransGen.refl
    · obtain ⟨c, hc, hrc⟩ := h.reach w hw (hnot.2 ⟨hwv, hn⟩)
      exact Relation.ReflTransGen.head (hcl c hc).2 hrc

variable {nodes : Finset ν}

theorem card_visit (hv : v ∈ nodes) (hn : v ∉ s.seen) (origin : ν) :
    (nodes \ (s.visit v origin).seen).card < (nodes \ s.seen).card := by
  refine Finset.card_lt_card ⟨fun w hw => ?_, fun hsub => ?_⟩
  · rw [Finset.mem_sdiff, visit, Finset.mem_insert, not_or] at hw
    exact Finset.mem_sdiff.2 ⟨hw.1, hw.2.2⟩
  · have hmem := hsub (Finset.mem_sdiff.2 ⟨hv, hn⟩)
    exact (Finset.mem_sdiff.1 hmem).2 (Finset.mem_insert_self v s.seen)

theorem card_le_of_subset (h : s.seen ⊆ s'.seen) :
    (nodes \ s'.seen).card ≤ (nodes \ s.seen).card :=
  Finset.card_le_card (Finset.sdiff_subset_sdiff (Finset.Subset.refl _) h)

theorem explored_dfs (hnx : ∀ v ∈ nodes, ∀ w ∈ next v, w ∈ nodes) : ∀ (fuel : ℕ) (v origin : ν)
    (s : Search ν), v ∈ nodes → (nodes \ s.seen).card < fuel →
      Explored next [(v, origin)] s (dfs next fuel v origin s)
  | 0, _, _, _, _, hfl => absurd hfl (Nat.not_lt_zero _)
  | fuel + 1, v, origin, s, hv, hfl => by
    rw [dfs]
    split_ifs with hsn
    · exact .of_mem hsn origin
    · refine .visit hsn origin ?_
      have hcr := (card_visit hv hsn origin).trans_le (Nat.le_of_lt_succ hfl)
      have hall : ∀ (ws : List ν) (s' : Search ν), (∀ w ∈ ws, w ∈ nodes) →
          (nodes \ s'.seen).card < fuel → Explored next (ws.map fun w => (w, v)) s'
            (ws.foldl (fun s w => dfs next fuel w v s) s') := by
        intro ws
        induction ws with
        | nil => exact fun s' _ _ => .nil s'
        | cons w ws ih =>
          intro s' hws hcr
          have hw := explored_dfs hnx fuel w v s' (hws w mem_cons_self) hcr
          exact hw.append (ih _ (fun u hu => hws u (mem_cons_of_mem w hu))
            ((card_le_of_subset hw.seen_subset).trans_lt hcr))
      exact hall (next v) _ (hnx v hv) hcr

theorem explored_dfsAll (hnx : ∀ v ∈ nodes, ∀ w ∈ next v, w ∈ nodes) {fuel : ℕ}
    (hfl : nodes.card < fuel) : ∀ (starts : List ν) (s : Search ν), (∀ v ∈ starts, v ∈ nodes) →
      Explored next (starts.map fun v => (v, v)) s (dfsAll next fuel starts s)
  | [], s, _ => .nil s
  | v :: starts, s, hst => by
    have hv := explored_dfs hnx fuel v v s (hst v mem_cons_self)
      ((Finset.card_le_card Finset.sdiff_subset).trans_lt hfl)
    exact hv.append (explored_dfsAll hnx hfl starts _
      fun w hw => hst w (mem_cons_of_mem v hw))

/-- A program that stops at a node that is visited, and else calls itself for the successors. -/
theorem dfs_simulated {τ ε : Type*} {R : Search ν → τ → Prop}
    {call : ℕ → ν → ν → τ → Except ε τ} (hnx : ∀ v ∈ nodes, ∀ w ∈ next v, w ∈ nodes)
    (hsn : ∀ fuel v origin s t, R s t → v ∈ s.seen → call (fuel + 1) v origin t = .ok t)
    (hvs : ∀ fuel v origin s t, v ∈ nodes → origin ∈ nodes → R s t → v ∉ s.seen →
      ∃ t', R (s.visit v origin) t' ∧ call (fuel + 1) v origin t =
        (next v).foldlM (fun t w => call fuel w v t) t') :
    ∀ (fuel : ℕ) (v origin : ν) (s : Search ν) (t : τ), v ∈ nodes → origin ∈ nodes →
      (nodes \ s.seen).card < fuel → R s t →
      ∃ t', call fuel v origin t = .ok t' ∧ R (dfs next fuel v origin s) t'
  | 0, _, _, _, _, _, _, hfl, _ => absurd hfl (Nat.not_lt_zero _)
  | fuel + 1, v, origin, s, t, hv, hor, hfl, hR => by
    rw [dfs]
    split_ifs with hs
    · exact ⟨t, hsn fuel v origin s t hR hs, hR⟩
    · obtain ⟨t', hR', hcl⟩ := hvs fuel v origin s t hv hor hR hs
      have hcr := (card_visit hv hs origin).trans_le (Nat.le_of_lt_succ hfl)
      have hall : ∀ (ws : List ν) (s' : Search ν) (t' : τ), (∀ w ∈ ws, w ∈ nodes) →
          (nodes \ s'.seen).card < fuel → R s' t' →
          ∃ t'', ws.foldlM (fun t w => call fuel w v t) t' = .ok t''
            ∧ R (ws.foldl (fun s w => dfs next fuel w v s) s') t'' := by
        intro ws
        induction ws with
        | nil => exact fun s' t' _ _ hR' => ⟨t', rfl, hR'⟩
        | cons w ws ih =>
          intro s' t' hws hcr hR'
          have hw := hws w mem_cons_self
          obtain ⟨u, hu, hRu⟩ := dfs_simulated hnx hsn hvs fuel w v s' t' hw hv hcr hR'
          obtain ⟨u', hu', hRu'⟩ := ih _ u (fun x hx => hws x (mem_cons_of_mem w hx))
            ((card_le_of_subset (explored_dfs hnx fuel w v s' hw hcr).seen_subset).trans_lt
              hcr) hRu
          refine ⟨u', ?_, hRu'⟩
          rw [foldlM_cons, hu]
          exact hu'
      rw [hcl]
      exact hall (next v) _ t' (hnx v hv) hcr hR'

theorem prefix_dfs : ∀ (fuel : ℕ) (v origin : ν) (s : Search ν),
    s.log <+: (dfs next fuel v origin s).log
  | 0, _, _, _ => prefix_refl _
  | fuel + 1, v, origin, s => by
    rw [dfs]
    split_ifs
    · exact prefix_refl _
    · have hall : ∀ (ws : List ν) (s' : Search ν),
          s'.log <+: (ws.foldl (fun s w => dfs next fuel w v s) s').log := by
        intro ws
        induction ws with
        | nil => exact fun _ => prefix_refl _
        | cons w ws ih => exact fun s' => (prefix_dfs fuel w v s').trans (ih _)
      exact (prefix_append _ _).trans (hall (next v) (s.visit v origin))

theorem prefix_dfsAll (fuel : ℕ) : ∀ (starts : List ν) (s : Search ν),
    s.log <+: (dfsAll next fuel starts s).log
  | [], _ => prefix_refl _
  | v :: starts, s => (prefix_dfs fuel v v s).trans (prefix_dfsAll fuel starts _)

/-- The nodes of a path, each with the one before it. -/
def visits : ν → List ν → List (ν × ν)
  | _, [] => []
  | origin, v :: path => (v, origin) :: visits v path

omit [DecidableEq ν] in
theorem mem_visits : ∀ {path : List ν} {v origin u : ν} (w : ν), (v :: path).getLast? = some u →
    (w, u) ∈ visits origin (v :: (path ++ [w]))
  | [], v, origin, u, w, hlast => by
    cases hlast
    exact mem_cons_of_mem _ mem_cons_self
  | x :: path, v, origin, u, w, hlast =>
    mem_cons_of_mem _ (mem_visits w (by rwa [getLast?_cons_cons] at hlast))

/-- Where each node of a path is the first successor of the one before, all are visited from it. -/
theorem dfs_straight : ∀ (path : List ν) (fuel : ℕ) (v origin : ν) (s : Search ν),
    (v :: path).Nodup → (∀ w ∈ v :: path, w ∉ s.seen) →
    (v :: path).IsChain (fun w u => (next w).head? = some u) → path.length < fuel →
    ∀ c ∈ visits origin (v :: path), c ∈ (dfs next fuel v origin s).log
  | path, fuel + 1, v, origin, s, hnd, hnew, hch, hfl => by
    rw [dfs, if_neg (hnew v mem_cons_self)]
    have hfr : (v, origin) ∈ (s.visit v origin).log :=
      mem_append_right _ (mem_singleton_self _)
    have hbf : ∀ (ws : List ν) (s' : Search ν),
        s'.log <+: (ws.foldl (fun s w => dfs next fuel w v s) s').log := by
      intro ws
      induction ws with
      | nil => exact fun _ => prefix_refl _
      | cons w ws ih => exact fun s' => (prefix_dfs fuel w v s').trans (ih _)
    intro c hc
    rcases mem_cons.1 hc with rfl | hc
    · exact (hbf (next v) _).subset hfr
    · cases path with
      | nil => exact nomatch hc
      | cons w path =>
        rw [isChain_cons_cons] at hch
        obtain ⟨ws, hws⟩ : ∃ ws, next v = w :: ws := by
          cases hnx : next v with
          | nil =>
            rw [hnx] at hch
            exact nomatch hch.1
          | cons u ws =>
            rw [hnx] at hch
            exact ⟨ws, by rw [Option.some.inj hch.1]⟩
        obtain ⟨hv, hnd'⟩ := nodup_cons.1 hnd
        have hnew' : ∀ u ∈ w :: path, u ∉ (s.visit v origin).seen := by
          intro u hu
          rw [visit, Finset.mem_insert, not_or]
          exact ⟨fun heq => hv (heq ▸ hu), hnew u (mem_cons_of_mem v hu)⟩
        have hst := dfs_straight path fuel w v (s.visit v origin) hnd' hnew' hch.2
          (by simp only [length_cons] at hfl; omega) c hc
        rw [hws, foldl_cons]
        exact (hbf ws _).subset hst

omit [DecidableEq ν] in
theorem exists_path {v w : ν} (h : Reach next v w) : ∃ path, (v :: path).Nodup
    ∧ (v :: path).IsChain (fun v w => w ∈ next v) ∧ (v :: path).getLast? = some w := by
  induction h using Relation.ReflTransGen.head_induction_on with
  | refl => exact ⟨[], nodup_singleton w, isChain_singleton w, rfl⟩
  | @head v u huv _ ih =>
    obtain ⟨path, hnodup, hchain, hlast⟩ := ih
    by_cases hv : v ∈ u :: path
    · obtain ⟨before, after, hsplit⟩ := append_of_mem hv
      rw [hsplit] at hnodup hchain hlast
      refine ⟨after, hnodup.sublist (sublist_append_right _ _),
        hchain.right_of_append, ?_⟩
      rwa [getLast?_append_of_ne_nil _ (cons_ne_nil v after)] at hlast
    · refine ⟨u :: path, nodup_cons.2 ⟨hv, hnodup⟩, isChain_cons_cons.2 ⟨huv, hchain⟩, ?_⟩
      rwa [getLast?_cons_cons]

omit [DecidableEq ν] in
theorem last_of_stuck : ∀ {path : List ν} {v : ν}, path.IsChain (fun v w => w ∈ next v) →
    v ∈ path → next v = [] → path.getLast? = some v
  | [w], v, _, hv, _ => by rw [mem_singleton.1 hv]; rfl
  | w :: u :: path, v, hchain, hv, hstuck => by
    obtain ⟨hw, hchain⟩ := isChain_cons_cons.1 hchain
    rw [getLast?_cons_cons]
    rcases mem_cons.1 hv with rfl | hv
    · rw [hstuck] at hw
      exact nomatch hw
    · exact last_of_stuck hchain hv hstuck

omit [DecidableEq ν] in
theorem mem_of_chain (hnext : ∀ v ∈ nodes, ∀ w ∈ next v, w ∈ nodes) : ∀ {path : List ν} {v : ν},
    v ∈ nodes → (v :: path).IsChain (fun v w => w ∈ next v) → ∀ w ∈ v :: path, w ∈ nodes
  | [], v, hv, _ => fun w hw => by rwa [mem_singleton.1 hw]
  | u :: path, v, hv, hchain => by
    obtain ⟨hu, hchain⟩ := isChain_cons_cons.1 hchain
    intro w hw
    rcases mem_cons.1 hw with rfl | hw
    · exact hv
    · exact mem_of_chain hnext (hnext v hv u hu) hchain w hw

theorem exists_successor : ∀ {path : List ν}, path.Nodup →
    path.IsChain (fun v w => w ∈ next v) → ∃ successor : ν → Option ν,
      path.IsChain (fun v w => successor v = some w) ∧
        ∀ v w, successor v = some w → v ∈ path ∧ w ∈ next v
  | [], _, _ => ⟨fun _ => none, isChain_nil, fun _ _ h => nomatch h⟩
  | [v], _, _ => ⟨fun _ => none, isChain_singleton v, fun _ _ h => nomatch h⟩
  | v :: w :: path, hnd, hch => by
    obtain ⟨hv, hnd⟩ := nodup_cons.1 hnd
    obtain ⟨hw, hch⟩ := isChain_cons_cons.1 hch
    obtain ⟨successor, hsc, hmem⟩ := exists_successor hnd hch
    refine ⟨Function.update successor v (some w), isChain_cons_cons.2 ⟨?_, ?_⟩, ?_⟩
    · exact Function.update_self ..
    · refine hsc.imp_of_mem_imp fun x y hx _ hxy => ?_
      have hne : x ≠ v := fun heq => hv (heq ▸ hx)
      rwa [Function.update_of_ne hne]
    · intro x y hxy
      by_cases hx : x = v
      · subst hx
        rw [Function.update_self] at hxy
        cases hxy
        exact ⟨mem_cons_self, hw⟩
      · rw [Function.update_of_ne hx] at hxy
        exact ⟨mem_cons_of_mem v (hmem x y hxy).1, (hmem x y hxy).2⟩

end Search

end Cruller
