import Cruller.Bake.WatcherAtomics

/-!
# When no file change is lost

A submission that finds an event in the slot takes its place. The displaced event keeps its
changes and is the next one that the watcher acquires, so they are handed over with its next
submission; if there is none they are lost.
-/

namespace Cruller.Bake

open List

/-! ## What an event lists -/

theorem mem_put {keys : List Bytes} {key k : Bytes} : k ∈ put keys key ↔ k ∈ keys ∨ k = key := by
  rw [put]
  split_ifs with h
  · constructor
    · exact Or.inl
    · rintro (hk | rfl)
      · exact hk
      · exact h
  · simp

theorem mem_foldl_put {added keys : List Bytes} {k : Bytes} :
    k ∈ added.foldl put keys ↔ k ∈ keys ∨ k ∈ added := by
  induction added generalizing keys with
  | nil => simp
  | cons key added ih => rw [foldl_cons, ih, mem_put, mem_cons, or_assoc]

theorem extraFiles_append_zero (str a b : Bytes) :
    extraFiles str (a ++ 0 :: b) = extraFiles str (a ++ [0]) ++ extraFiles [] b := by
  induction a generalizing str with
  | nil => simp [extraFiles]
  | cons c a ih =>
    rw [cons_append, cons_append, extraFiles, extraFiles, ih, ih]
    split_ifs <;> rfl

theorem extraFiles_of_no_zero {str a : Bytes} (h : 0 ∉ a) :
    extraFiles str (a ++ [0]) = [str ++ a] := by
  induction a generalizing str with
  | nil => simp [extraFiles]
  | cons c a ih =>
    rw [mem_cons, not_or] at h
    rw [cons_append, extraFiles, if_neg (Ne.symm h.1), ih h.2, append_assoc]
    rfl

namespace HotReloadEvent

/-- The extra files end with a zero byte, and there are none without a directory. -/
structure WellFormed (ev : HotReloadEvent) : Prop where
  terminated : ev.extra_files = [] ∨ ∃ a, ev.extra_files = a ++ [0]
  extra : ev.dirs = [] → ev.extra_files = []

variable {ev : HotReloadEvent} {change : Change}

theorem wellFormed_empty : WellFormed {} := ⟨Or.inl rfl, fun _ => rfl⟩

theorem not_lists_empty : ¬ Lists {} change := by
  cases change <;> simp [Lists, extraFiles]

theorem WellFormed.eq_empty (h : ev.WellFormed) (hem : ev.isEmpty = true) : ev = {} := by
  simp only [isEmpty, decide_eq_true_eq, Nat.add_eq_zero_iff, length_eq_zero_iff] at hem
  obtain ⟨files, dirs, extra_files⟩ := ev
  have := h.extra hem.2
  simp_all

theorem WellFormed.appendFile (h : ev.WellFormed) (file_path : Bytes) :
    (ev.appendFile file_path).WellFormed :=
  ⟨h.terminated, h.extra⟩

theorem put_ne_nil {keys : List Bytes} {key : Bytes} : put keys key ≠ [] := by
  have : key ∈ put keys key := mem_put.2 (Or.inr rfl)
  exact ne_nil_of_mem this

theorem WellFormed.appendDir (h : ev.WellFormed) (platform : Platform) (dir_path : Bytes)
    (maybe_sub_path : Option Bytes) :
    (ev.appendDir platform dir_path maybe_sub_path).WellFormed := by
  rw [HotReloadEvent.appendDir]
  split_ifs with hdir
  · exact h
  cases maybe_sub_path with
  | none => exact ⟨h.terminated, fun hnil => absurd hnil put_ne_nil⟩
  | some sub_path =>
    simp only
    split_ifs
    · exact ⟨h.terminated, fun hnil => absurd hnil put_ne_nil⟩
    · exact ⟨Or.inr ⟨_, rfl⟩, fun hnil => absurd hnil put_ne_nil⟩

theorem lists_appendFile (h : ev.Lists change) (file_path : Bytes) :
    (ev.appendFile file_path).Lists change := by
  cases change with
  | file path => exact h.imp_left fun hmem => mem_put.2 (Or.inl hmem)
  | dir path => exact h

theorem lists_appendFile_self (file_path : Bytes) :
    (ev.appendFile file_path).Lists (.file file_path) :=
  Or.inl (mem_put.2 (Or.inr rfl))

theorem WellFormed.extraFiles_append (h : ev.WellFormed) (b : Bytes) :
    extraFiles [] (ev.extra_files ++ b) = extraFiles [] ev.extra_files ++ extraFiles [] b := by
  rcases h.terminated with hnil | ⟨a, ha⟩
  · rw [hnil]
    rfl
  · rw [ha, append_assoc, singleton_append, extraFiles_append_zero]

theorem WellFormed.lists_appendDir (h : ev.WellFormed) (hl : ev.Lists change) (platform : Platform)
    (dir_path : Bytes) (maybe_sub_path : Option Bytes) :
    (ev.appendDir platform dir_path maybe_sub_path).Lists change := by
  rw [HotReloadEvent.appendDir]
  split_ifs with hdir
  · exact hl
  have hput : Lists { ev with dirs := put ev.dirs dir_path } change := by
    cases change with
    | file path => exact hl
    | dir path => exact mem_put.2 (Or.inl hl)
  cases maybe_sub_path with
  | none => exact hput
  | some sub_path =>
    simp only
    split_ifs
    · exact hput
    · cases change with
      | file path =>
        refine hput.imp_right fun hmem => ?_
        rw [append_assoc, h.extraFiles_append]
        exact mem_append_left _ hmem
      | dir path => exact hput

theorem no_zero_subPath {platform : Platform} {dir_path sub_path : Bytes} (hdir : 0 ∉ dir_path)
    (hsub : 0 ∉ sub_path) : 0 ∉ subPath platform dir_path sub_path := by
  have hsep := platform.separator_ne_zero
  rw [subPath, mem_append, mem_append, mem_singleton, not_or, not_or]
  refine ⟨⟨?_, hsep.symm⟩, hsub⟩
  split_ifs
  · exact fun hmem => hdir (dropLast_subset _ hmem)
  · exact hdir

theorem WellFormed.lists_reported (h : ev.WellFormed) {platform : Platform} {dir_path : Bytes}
    {maybe_sub_path : Option Bytes} (hdir : 0 ∉ dir_path) (hsub : ∀ p ∈ maybe_sub_path, 0 ∉ p)
    (hmem : change ∈ reported platform dir_path maybe_sub_path) :
    (ev.appendDir platform dir_path maybe_sub_path).Lists change := by
  unfold reported at hmem
  rw [HotReloadEvent.appendDir]
  split_ifs at hmem ⊢ with hnil
  · cases hmem
  have hput : Lists { ev with dirs := put ev.dirs dir_path } (.dir dir_path) :=
    mem_put.2 (Or.inr rfl)
  cases maybe_sub_path with
  | none =>
    rw [mem_singleton.1 hmem]
    exact hput
  | some sub_path =>
    simp only at hmem ⊢
    split_ifs at hmem ⊢
    · rw [mem_singleton.1 hmem]
      exact hput
    · rcases mem_cons.1 hmem with rfl | hmem
      · exact hput
      · rw [mem_singleton.1 hmem]
        refine Or.inr ?_
        rw [append_assoc, h.extraFiles_append,
          extraFiles_of_no_zero (no_zero_subPath hdir (hsub _ rfl)), nil_append]
        exact mem_append_right _ mem_cons_self

theorem WellFormed.processFileList (h : ev.WellFormed) (resolved : List Bytes) :
    (ev.processFileList resolved).WellFormed :=
  ⟨h.terminated, h.extra⟩

theorem lists_processFileList (h : ev.Lists change) (resolved : List Bytes) :
    (ev.processFileList resolved).Lists change := by
  cases change with
  | file path =>
    refine h.imp_left fun hmem => ?_
    exact mem_foldl_put.2 (Or.inl (mem_foldl_put.2 (Or.inl hmem)))
  | dir path => exact h

end HotReloadEvent

/-! ## Who has which event -/

namespace HandOff

/-- The running event is the current one, or the pending one once the server has taken it from the
slot; every other event that the watcher may not touch is empty, and with no pending event so is
every one that it does not hold. A change that has not been run is in an event. -/
structure Inv (s : HandOff) : Prop where
  done_iff : s.atomics.next_event = .done ↔ s.server = .idle
  active : s.server ≠ .idle → s.atomics.current_event ≠ none
  pending : ∀ i, s.atomics.pending_event = some i →
    ∃ j, s.atomics.current_event = some j ∧ j ≠ i
  slot : ∀ i, s.atomics.next_event = .event i → s.atomics.pending_event = some i
  running : ∀ i, s.server.event = some i →
    s.atomics.current_event = some i ∧ (s.atomics.next_event = .waiting →
      s.atomics.pending_event = none)
    ∨ s.atomics.pending_event = some i ∧ s.atomics.next_event = .waiting
  held : ∀ i, s.watcher = some i →
    s.atomics.current_event ≠ some i ∧ s.atomics.pending_event ≠ some i
  recycled : ∀ i, s.atomics.current_event = some i ∨ s.atomics.pending_event = some i →
    s.server.event ≠ some i → s.atomics.next_event ≠ .event i → s.atomics.events i = {}
  spare : s.atomics.pending_event = none → ∀ i, s.atomics.current_event ≠ some i →
    s.watcher ≠ some i → s.atomics.events i = {}
  wellFormed : ∀ i, (s.atomics.events i).WellFormed
  listed : ∀ change ∈ s.unrun, ∃ i, s.server ≠ .processed i ∧ (s.atomics.events i).Lists change

/-- Nothing has been handed off when the server starts. -/
theorem inv_init : Inv init where
  done_iff := ⟨fun _ => rfl, fun _ => rfl⟩
  active h := absurd rfl h
  pending _ h := by cases h
  slot _ h := by cases h
  running _ h := by cases h
  held _ h := by cases h
  recycled _ h := by rcases h with h | h <;> cases h
  spare _ _ _ _ := rfl
  wellFormed _ := HotReloadEvent.wellFormed_empty
  listed _ h := by cases h

/-- Every change that has not been run is in an event that will be handed over or run. -/
def Safe (s : HandOff) : Prop :=
  ∀ change ∈ s.unrun, ∃ i, (s.atomics.next_event = .event i ∨ s.server.toRun = some i
    ∨ s.watcher = some i) ∧ (s.atomics.events i).Lists change

theorem Safe.unrun_of_idle {s : HandOff} (h : s.Safe) (hinv : s.Inv) (hid : s.Idle) :
    s.unrun = [] := by
  refine eq_nil_iff_forall_not_mem.2 fun change hmem => ?_
  obtain ⟨i, hi, -⟩ := h change hmem
  rw [hinv.done_iff.2 hid.2, hid.1, hid.2] at hi
  rcases hi with hi | hi | hi <;> cases hi

/-- The submission takes the place of an event with a change that has not been run and that is
neither in the submitted event nor in one that the server is about to run. -/
def Loses (s : HandOff) : ThreadStep → Prop
  | .watcherReleaseAndSubmitEvent =>
    ∃ index ∈ s.watcher, (s.atomics.events index).isEmpty = false ∧
      ∃ change ∈ s.unrun,
        (∃ old_index ∈ s.atomics.next_event.index, (s.atomics.events old_index).Lists change)
          ∧ ¬ (s.atomics.events index).Lists change
          ∧ ∀ i ∈ s.server.toRun, ¬ (s.atomics.events i).Lists change
  | _ => False

instance (s : HandOff) : DecidablePred s.Loses := fun a => by
  cases a <;> unfold Loses <;> infer_instance

theorem index_cases : ∀ a b c : Index, a ≠ b → a ≠ c → b ≠ c → ∀ i, i = a ∨ i = b ∨ i = c := by
  decide

variable {platform : Platform} {s : HandOff}

theorem exists_available (s : HandOff) : ∃ index,
    s.atomics.watcherAcquireEvent = .ok index ∧ s.atomics.current_event ≠ some index
      ∧ s.atomics.pending_event ≠ some index := by
  have hsm : ∀ c p : Option Index, ∃ i, [0, 1, 2].find? (fun i =>
      decide (c ≠ some i) && decide (p ≠ some i)) = some i ∧ c ≠ some i ∧ p ≠ some i := by
    decide
  obtain ⟨i, hfn, hi⟩ := hsm s.atomics.current_event s.atomics.pending_event
  refine ⟨i, ?_, hi⟩
  rw [WatcherAtomics.watcherAcquireEvent, hfn]

namespace Inv

variable {index i : Index}

theorem ne_held (h : s.Inv) {j : Index} (hhl : s.watcher = some i)
    (hj : s.server.event = some j ∨ s.atomics.next_event = .event j) : j ≠ i := by
  obtain ⟨hc, hp⟩ := h.held i hhl
  rintro rfl
  rcases hj with hj | hj
  · rcases h.running j hj with ⟨hcur, -⟩ | ⟨hpn, -⟩
    · exact hc hcur
    · exact hp hpn
  · exact hp (h.slot j hj)

theorem ne_running (h : s.Inv) {j : Index} (hi : s.server.event = some i)
    (hj : s.atomics.next_event = .event j) : j ≠ i := by
  rcases h.running i hi with ⟨hcur, -⟩ | ⟨-, hwt⟩
  · rintro rfl
    obtain ⟨k, hk, hne⟩ := h.pending j (h.slot j hj)
    rw [hcur] at hk
    exact hne (Option.some.inj hk).symm
  · rw [hwt] at hj
    cases hj

/-- An event with changes in it is held, about to be handed over or run, being run or, where there
is a pending event, none of those. -/
theorem place (h : s.Inv) (hne : s.atomics.events i ≠ {}) :
    s.watcher = some i ∨ s.atomics.next_event = .event i ∨ s.server.event = some i
      ∨ s.atomics.pending_event ≠ none ∧ s.atomics.current_event ≠ some i
        ∧ s.atomics.pending_event ≠ some i := by
  by_contra hnot
  simp only [not_or, not_and, not_not] at hnot
  obtain ⟨hhl, hsl, hrun, hrs⟩ := hnot
  by_cases hc : s.atomics.current_event = some i
  · exact hne (h.recycled i (Or.inl hc) hrun hsl)
  by_cases hp : s.atomics.pending_event = none
  · exact hne (h.spare hp i hc hhl)
  · exact hne (h.recycled i (Or.inr (hrs hp hc)) hrun hsl)

theorem acquire (h : s.Inv) (hfr : s.watcher = none)
    (hc : s.atomics.current_event ≠ some index) (hp : s.atomics.pending_event ≠ some index) :
    Inv { s with watcher := some index } where
  done_iff := h.done_iff
  active := h.active
  pending := h.pending
  slot := h.slot
  running := h.running
  held i hi := by
    cases hi
    exact ⟨hc, hp⟩
  recycled := h.recycled
  spare hno i hi _ := h.spare hno i hi (by simp [hfr])
  wellFormed := h.wellFormed
  listed := h.listed

theorem safe_of_held (h : s.Inv) (hhl : s.watcher = some index) : s.Safe := by
  intro change hmem
  obtain ⟨i, hpr, hl⟩ := h.listed change hmem
  refine ⟨i, ?_, hl⟩
  have hne : s.atomics.events i ≠ {} := fun hnil =>
    HotReloadEvent.not_lists_empty (hnil ▸ hl)
  rcases h.place hne with hi | hi | hi | ⟨hp, hc, hp'⟩
  · exact Or.inr (Or.inr hi)
  · exact Or.inl hi
  · refine Or.inr (Or.inl ?_)
    cases hs : s.server <;> rw [hs] at hi hpr <;> cases hi
    · rfl
    · rfl
    · rfl
    · exact absurd rfl hpr
  · obtain ⟨p, hp⟩ := Option.ne_none_iff_exists'.1 hp
    obtain ⟨c, hcur, hcp⟩ := h.pending p hp
    obtain ⟨hhc, hhp⟩ := h.held index hhl
    rw [hcur] at hc hhc
    rw [hp] at hp' hhp
    rcases index_cases c p index hcp (fun he => hhc (he ▸ rfl)) (fun he => hhp (he ▸ rfl)) i
      with rfl | rfl | rfl
    · exact absurd rfl hc
    · exact absurd rfl hp'
    · exact Or.inr (Or.inr hhl)

/-- The watcher lists more changes in the event it holds: each of them is one that waits. -/
theorem append (h : s.Inv) (hhl : s.watcher = some index) {ev : HotReloadEvent}
    (hev : ev.WellFormed)
    (hkp : ∀ change, (s.atomics.events index).Lists change → ev.Lists change)
    {changes : List Change} (hadd : ∀ change ∈ changes, ev.Lists change) :
    Inv { s with atomics := s.atomics.setEvent index ev, unrun := changes ++ s.unrun } := by
  obtain ⟨hc, hp⟩ := h.held index hhl
  have hot : ∀ i, i ≠ index → (s.atomics.setEvent index ev).events i = s.atomics.events i :=
    fun i hi => Function.update_of_ne hi ..
  have hsl : (s.atomics.setEvent index ev).events index = ev := Function.update_self ..
  refine ⟨h.done_iff, h.active, h.pending, h.slot, h.running, h.held, ?_, ?_, ?_, ?_⟩
  · intro i hi hrun hst
    have hne : i ≠ index := by
      rintro rfl
      exact hi.elim hc hp
    exact (hot i hne).trans (h.recycled i hi hrun hst)
  · intro hno i hi hhl'
    have hne : i ≠ index := by
      rintro rfl
      exact hhl' hhl
    exact (hot i hne).trans (h.spare hno i hi hhl')
  · intro i
    by_cases hi : i = index
    · subst hi
      change ((s.atomics.setEvent i ev).events i).WellFormed
      rw [hsl]
      exact hev
    · exact (hot i hi) ▸ h.wellFormed i
  · intro change hmem
    have hpr : s.server ≠ .processed index := fun hs =>
      h.ne_held hhl (Or.inl (by rw [hs]; rfl)) rfl
    rcases mem_append.1 hmem with hmem | hmem
    · exact ⟨index, hpr, hsl.symm ▸ hadd change hmem⟩
    · obtain ⟨i, hi, hl⟩ := h.listed change hmem
      by_cases hii : i = index
      · subst hii
        exact ⟨i, hi, hsl.symm ▸ hkp change hl⟩
      · exact ⟨i, hi, (hot i hii).symm ▸ hl⟩

theorem release_empty (h : s.Inv) (hhl : s.watcher = some index)
    (hem : s.atomics.events index = {}) : Inv { s with watcher := none } where
  done_iff := h.done_iff
  active := h.active
  pending := h.pending
  slot := h.slot
  running := h.running
  held _ hi := by cases hi
  recycled := h.recycled
  spare hno i hi _ := by
    by_cases hii : i = index
    · rw [hii]
      exact hem
    · exact h.spare hno i hi (by simpa [hhl] using Ne.symm hii)
  wellFormed := h.wellFormed
  listed := h.listed

/-- The server was idle, so that the event is handed to it. -/
theorem release_done (h : s.Inv) (hhl : s.watcher = some index)
    (hsl : s.atomics.next_event = .done) :
    Inv { s with
      atomics := { s.atomics with
        current_event := some index, pending_event := none, next_event := .waiting }
      watcher := none, server := .queued index } where
  done_iff := by simp
  active _ := by simp
  pending _ hi := by cases hi
  slot _ hi := by cases hi
  running i hi := Or.inl ⟨hi, fun _ => rfl⟩
  held _ hi := by cases hi
  recycled i hi hrun _ := by
    rcases hi with hi | hi
    · exact absurd hi hrun
    · cases hi
  spare _ i hi _ := by
    by_contra hne
    have hii : i ≠ index := fun heq => hi (heq ▸ rfl)
    rcases h.place hne with hp | hp | hp | ⟨hp, hc, hp'⟩
    · rw [hhl] at hp
      exact hii (Option.some.inj hp).symm
    · rw [hsl] at hp
      cases hp
    · rw [h.done_iff.1 hsl] at hp
      cases hp
    · obtain ⟨p, hp⟩ := Option.ne_none_iff_exists'.1 hp
      obtain ⟨c, hcur, hcp⟩ := h.pending p hp
      obtain ⟨hhc, hhp⟩ := h.held index hhl
      rw [hcur] at hc hhc
      rw [hp] at hp' hhp
      rcases index_cases c p index hcp (fun he => hhc (he ▸ rfl)) (fun he => hhp (he ▸ rfl)) i
        with rfl | rfl | rfl
      · exact hc rfl
      · exact hp' rfl
      · exact hii rfl
  wellFormed := h.wellFormed
  listed change hmem := by
    obtain ⟨i, -, hl⟩ := h.listed change hmem
    exact ⟨i, by simp, hl⟩

/-- The server takes the event when it comes back. -/
theorem release_waiting (h : s.Inv) (hhl : s.watcher = some index)
    (hsl : s.atomics.next_event = .waiting) :
    Inv { s with
      atomics := { s.atomics with
        current_event :=
          if s.atomics.pending_event ≠ none then s.atomics.pending_event
          else s.atomics.current_event
        pending_event := some index, next_event := .event index }
      watcher := none } where
  done_iff := by
    have hid : s.server ≠ .idle := fun hid => by
      rw [h.done_iff.2 hid] at hsl
      cases hsl
    simp [hid]
  active _ := by
    have hid : s.server ≠ .idle := fun hid => by
      rw [h.done_iff.2 hid] at hsl
      cases hsl
    simp only
    split_ifs with hp
    · exact hp
    · exact h.active hid
  pending i hi := by
    cases hi
    obtain ⟨hc, hp⟩ := h.held _ hhl
    have hid : s.server ≠ .idle := fun hid => by
      rw [h.done_iff.2 hid] at hsl
      cases hsl
    simp only
    split_ifs with hpn
    · obtain ⟨p, hp'⟩ := Option.ne_none_iff_exists'.1 hpn
      exact ⟨p, hp', fun he => hp (he ▸ hp')⟩
    · obtain ⟨c, hc'⟩ := Option.ne_none_iff_exists'.1 (h.active hid)
      exact ⟨c, hc', fun he => hc (he ▸ hc')⟩
  slot i hi := by
    cases hi
    rfl
  running i hi := by
    refine Or.inl ⟨?_, fun hw => by cases hw⟩
    simp only
    rcases h.running i hi with ⟨hc, hp⟩ | ⟨hp, -⟩
    · rw [if_neg (not_not.2 (hp hsl))]
      exact hc
    · rw [if_pos (by simp [hp])]
      exact hp
  held _ hi := by cases hi
  recycled i hi hrun hnot := by
    rcases hi with hi | hi
    · refine h.recycled i ?_ hrun (by simp [hsl])
      simp only at hi
      split_ifs at hi
      · exact Or.inr hi
      · exact Or.inl hi
    · cases hi
      exact absurd rfl hnot
  spare hno := by cases hno
  wellFormed := h.wellFormed
  listed := h.listed

/-- The submission takes the place of one that the server has not taken. -/
theorem release_event (h : s.Inv) {old_index : Index} (hhl : s.watcher = some index)
    (hsl : s.atomics.next_event = .event old_index) :
    Inv { s with
      atomics := { s.atomics with pending_event := some index, next_event := .event index }
      watcher := none } where
  done_iff := by
    have hid : s.server ≠ .idle := fun hid => by
      rw [h.done_iff.2 hid] at hsl
      cases hsl
    simp [hid]
  active := h.active
  pending i hi := by
    cases hi
    obtain ⟨c, hc, -⟩ := h.pending old_index (h.slot old_index hsl)
    exact ⟨c, hc, fun he => (h.held _ hhl).1 (he ▸ hc)⟩
  slot i hi := by
    cases hi
    rfl
  running i hi := by
    rcases h.running i hi with ⟨hc, -⟩ | ⟨-, hw⟩
    · exact Or.inl ⟨hc, fun hw => by cases hw⟩
    · rw [hsl] at hw
      cases hw
  held _ hi := by cases hi
  recycled i hi hrun hnot := by
    rcases hi with hi | hi
    · refine h.recycled i (Or.inl hi) hrun fun hold => ?_
      obtain ⟨c, hc, hne⟩ := h.pending i (h.slot i hold)
      simp only at hi
      rw [hc] at hi
      exact hne (Option.some.inj hi)
    · cases hi
      exact absurd rfl hnot
  spare hno := by cases hno
  wellFormed := h.wellFormed
  listed := h.listed

/-- Running an event takes its changes out of those that wait. -/
theorem runEvent (h : s.Inv) (hev : s.server.event = some index)
    (resolved : List Bytes) {server : ServerThread} (hsr : server.event = some index) :
    Inv (s.runEvent index resolved server) := by
  have hot : ∀ i, i ≠ index →
      (s.runEvent index resolved server).atomics.events i = s.atomics.events i :=
    fun i hi => Function.update_of_ne hi ..
  have hsl : (s.runEvent index resolved server).atomics.events index =
      (s.atomics.events index).processFileList resolved := Function.update_self ..
  have hac : ∀ {server : ServerThread}, server.event = some index → server ≠ .idle := by
    rintro server hs rfl
    cases hs
  refine ⟨?_, fun _ => h.active (hac hev), h.pending, h.slot, ?_, h.held, ?_, ?_, ?_, ?_⟩
  · exact iff_of_false (fun hd => hac hev (h.done_iff.1 hd)) (hac hsr)
  · intro i hi
    change server.event = some i at hi
    exact h.running i (by rw [hev, ← hsr, hi])
  · intro i hi hrun hst
    change server.event ≠ some i at hrun
    have hne : i ≠ index := fun heq => hrun (heq ▸ hsr)
    exact (hot i hne).trans (h.recycled i hi (by rwa [hev, ← hsr]) hst)
  · intro hno i hi hhl
    have hne : i ≠ index := by
      rintro rfl
      rcases h.running i hev with ⟨hc, -⟩ | ⟨hp, -⟩
      · exact hi hc
      · cases hp.symm.trans hno
    exact (hot i hne).trans (h.spare hno i hi hhl)
  · intro i
    by_cases hi : i = index
    · rw [hi, hsl]
      exact (h.wellFormed index).processFileList resolved
    · rw [hot i hi]
      exact h.wellFormed i
  · intro change hmem
    obtain ⟨hmem, hnot⟩ := mem_filter.1 hmem
    obtain ⟨i, -, hl⟩ := h.listed change hmem
    have hne : i ≠ index := by
      rintro rfl
      exact of_decide_eq_true hnot (HotReloadEvent.lists_processFileList hl resolved)
    refine ⟨i, fun hpr => hne ?_, (hot i hne).symm ▸ hl⟩
    rw [show server = .processed i from hpr] at hsr
    exact Option.some.inj hsr

theorem go (h : s.Inv) (hid : s.server ≠ .idle) {server : ServerThread}
    (hev : server.event = s.server.event) (hid' : server ≠ .idle)
    (hpr : ∀ i, server ≠ .processed i) : Inv { s with server := server } where
  done_iff := iff_of_false (fun hd => hid (h.done_iff.1 hd)) hid'
  active _ := h.active hid
  pending := h.pending
  slot := h.slot
  running i hi := h.running i (hev.symm.trans hi)
  held := h.held
  recycled i hi hrun := h.recycled i hi (hev ▸ hrun)
  spare := h.spare
  wellFormed := h.wellFormed
  listed change hmem := by
    obtain ⟨i, -, hl⟩ := h.listed change hmem
    exact ⟨i, hpr i, hl⟩

/-- The event can be acquired again. -/
theorem reset (h : s.Inv) {current : Index} (hsr : s.server = .processed current) :
    Inv { s with
      atomics := s.atomics.setEvent current (s.atomics.events current).reset
      server := .recycling } := by
  have hot : ∀ i, i ≠ current →
      (s.atomics.setEvent current (s.atomics.events current).reset).events i =
        s.atomics.events i := fun i hi => Function.update_of_ne hi ..
  have hsl : (s.atomics.setEvent current (s.atomics.events current).reset).events current = {} :=
    Function.update_self ..
  have hid : s.server ≠ .idle := by simp [hsr]
  refine ⟨?_, fun _ => h.active hid, h.pending, h.slot, ?_, h.held, ?_, ?_,
    ?_, ?_⟩
  · exact iff_of_false (fun hd => hid (h.done_iff.1 hd)) (by simp)
  · intro i hi
    cases hi
  · intro i hi _ hst
    by_cases hii : i = current
    · rw [hii]
      exact hsl
    · refine (hot i hii).trans (h.recycled i hi (fun hrun => ?_) hst)
      rw [hsr] at hrun
      exact hii (Option.some.inj hrun).symm
  · intro hno i hi hhl
    by_cases hii : i = current
    · rw [hii]
      exact hsl
    · exact (hot i hii).trans (h.spare hno i hi hhl)
  · intro i
    change ((s.atomics.setEvent current (s.atomics.events current).reset).events i).WellFormed
    by_cases hii : i = current
    · rw [hii, hsl]
      exact HotReloadEvent.wellFormed_empty
    · rw [hot i hii]
      exact h.wellFormed i
  · intro change hmem
    obtain ⟨i, hpr, hl⟩ := h.listed change hmem
    have hii : i ≠ current := by
      rintro rfl
      exact hpr hsr
    exact ⟨i, by simp, (hot i hii).symm ▸ hl⟩

theorem take (h : s.Inv) (hsr : s.server = .recycling) {next : Index}
    (hsl : s.atomics.next_event = .event next) :
    Inv { s with
      atomics := { s.atomics with next_event := .waiting }, server := .processing next } where
  done_iff := by simp
  active _ := h.active (by simp [hsr])
  pending := h.pending
  slot i hi := by cases hi
  running i hi := by
    cases hi
    exact Or.inr ⟨h.slot _ hsl, rfl⟩
  held := h.held
  recycled i hi hrun _ := by
    refine h.recycled i hi (by simp [hsr, ServerThread.event]) fun hold => hrun ?_
    rw [hsl] at hold
    cases hold
    rfl
  spare := h.spare
  wellFormed := h.wellFormed
  listed change hmem := by
    obtain ⟨i, -, hl⟩ := h.listed change hmem
    exact ⟨i, by simp, hl⟩

theorem settle (h : s.Inv) (hsr : s.server = .settling)
    (hsl : s.atomics.next_event = .waiting) :
    Inv { s with atomics := { s.atomics with next_event := .done }, server := .idle } where
  done_iff := by simp
  active hid := absurd rfl hid
  pending := h.pending
  slot i hi := by cases hi
  running i hi := by cases hi
  held := h.held
  recycled i hi _ _ := h.recycled i hi (by simp [hsr, ServerThread.event]) (by simp [hsl])
  spare := h.spare
  wellFormed := h.wellFormed
  listed change hmem := by
    obtain ⟨i, -, hl⟩ := h.listed change hmem
    exact ⟨i, by simp, hl⟩

end Inv

variable {index : Index} {s' : HandOff}

/-- A submission hands the event to the server, or leaves it waiting. -/
theorem Inv.release (h : s.Inv) (hhl : s.watcher = some index) :
    ∃ atomics scheduled, s.atomics.watcherReleaseAndSubmitEvent index = .ok (atomics, scheduled)
      ∧ Inv { s with
          atomics := atomics, watcher := none
          server := if scheduled then .queued index else s.server } := by
  rw [WatcherAtomics.watcherReleaseAndSubmitEvent]
  by_cases hem : (s.atomics.events index).isEmpty = true
  · rw [if_pos hem]
    exact ⟨_, false, rfl, h.release_empty hhl ((h.wellFormed index).eq_empty hem)⟩
  rw [if_neg hem]
  cases hsl : s.atomics.next_event with
  | done => exact ⟨_, true, rfl, h.release_done hhl hsl⟩
  | waiting => exact ⟨_, false, rfl, h.release_waiting hhl hsl⟩
  | event old_index =>
    simp only [if_pos (h.slot old_index hsl)]
    exact ⟨_, false, rfl, h.release_event hhl hsl⟩

theorem Inv.appends (h : s.Inv) (add : HotReloadEvent → HotReloadEvent) (changes : List Change)
    (hwf : ∀ ev, ev.WellFormed → (add ev).WellFormed)
    (hkp : ∀ ev change, ev.WellFormed → ev.Lists change → (add ev).Lists change)
    (hadd : ∀ ev change, ev.WellFormed → change ∈ changes → (add ev).Lists change) :
    Ends Inv (· = Fault.notNow) (s.append add changes) := by
  unfold HandOff.append
  split
  · rename_i index hw
    have hev := h.wellFormed index
    exact h.append hw (hwf _ hev) (fun change => hkp _ change hev) fun change => hadd _ change hev
  · rfl

/-- No assertion fails, and the server never finds the slot `done`. -/
theorem step_inv (platform : Platform) (s : HandOff) (a : ThreadStep) (h : s.Inv) :
    Ends Inv (· = Fault.notNow) (s.step platform a) := by
  cases a with
  | watcherAcquireEvent =>
    rw [step]
    cases hw : s.watcher with
    | some index => rfl
    | none =>
      obtain ⟨index, hfn, hc, hp⟩ := s.exists_available
      simp only [hfn]
      exact h.acquire hw hc hp
  | appendFile file_path =>
    refine h.appends _ _ (fun ev hev => hev.appendFile _)
      (fun ev change _ hl => HotReloadEvent.lists_appendFile hl _) fun ev change _ hmem => ?_
    rw [mem_singleton.1 hmem]
    exact HotReloadEvent.lists_appendFile_self _
  | appendDir dir_path maybe_sub_path =>
    refine h.appends _ _ (fun ev hev => hev.appendDir ..)
      (fun ev change hev hl => hev.lists_appendDir hl ..) fun ev change hev hmem =>
        hev.lists_reported dir_path.2 (fun p hp => ?_) hmem
    obtain ⟨sub_path, -, rfl⟩ := Option.map_eq_some_iff.1 hp
    exact sub_path.2
  | watcherReleaseAndSubmitEvent =>
    rw [step]
    cases hw : s.watcher with
    | none => rfl
    | some index =>
      obtain ⟨atomics, scheduled, hrl, hinv⟩ := h.release hw
      simp only [hrl]
      exact hinv
  | run bundling resolved =>
    rw [step]
    cases hs : s.server <;> try rfl
    simp only
    split_ifs
    · exact h.go (by simp [hs]) (by rw [hs]; rfl) (by simp) (by simp)
    · exact h.runEvent (by rw [hs]; rfl) resolved rfl
  | bundled =>
    rw [step]
    cases hs : s.server <;> try rfl
    exact h.go (by simp [hs]) (by rw [hs]; rfl) (by simp) (by simp)
  | processFileList resolved =>
    rw [step]
    cases hs : s.server <;> try rfl
    exact h.runEvent (by rw [hs]; rfl) resolved rfl
  | reset =>
    rw [step]
    cases hs : s.server <;> try rfl
    exact h.reset hs
  | swap =>
    rw [step]
    cases hs : s.server <;> try rfl
    cases hsl : s.atomics.next_event with
    | waiting => exact h.go (by simp [hs]) (by rw [hs]; rfl) (by simp) (by simp)
    | done =>
      have := h.done_iff.1 hsl
      rw [hs] at this
      cases this
    | event next => exact h.take hs hsl
  | cmpxchgWeak spurious =>
    rw [step]
    cases hs : s.server <;> try rfl
    simp only
    split_ifs with hx
    · exact h.settle hs hx.1
    · exact h.go (by simp [hs]) (by rw [hs]; rfl) (by simp) (by simp)

/-! ## No change is lost -/

/-- A change in an event that is submitted is handed over or about to be run; one in the event
whose place it takes is when nothing is lost. -/
theorem Safe.release (h : s.Safe) (hinv : s.Inv) (hhl : s.watcher = some index)
    (hkp : ¬ s.Loses .watcherReleaseAndSubmitEvent) {atomics : WatcherAtomics} {scheduled : Bool}
    (hrl : s.atomics.watcherReleaseAndSubmitEvent index = .ok (atomics, scheduled)) :
    Safe { s with
      atomics := atomics, watcher := none
      server := if scheduled then .queued index else s.server } := by
  intro change hmem
  obtain ⟨i, hi, hl⟩ := h change hmem
  rw [WatcherAtomics.watcherReleaseAndSubmitEvent] at hrl
  by_cases hem : (s.atomics.events index).isEmpty = true
  · rw [if_pos hem] at hrl
    cases hrl
    refine ⟨i, ?_, hl⟩
    rcases hi with hi | hi | hi
    · exact Or.inl hi
    · exact Or.inr (Or.inl hi)
    · rw [hhl] at hi
      cases hi
      rw [(hinv.wellFormed index).eq_empty hem] at hl
      exact absurd hl HotReloadEvent.not_lists_empty
  rw [if_neg hem] at hrl
  cases hsl : s.atomics.next_event with
  | done =>
    rw [hsl] at hrl
    cases hrl
    refine ⟨i, ?_, hl⟩
    rw [hsl, hinv.done_iff.1 hsl, hhl] at hi
    rcases hi with hi | hi | hi
    · cases hi
    · cases hi
    · exact Or.inr (Or.inl hi)
  | waiting =>
    rw [hsl] at hrl
    cases hrl
    refine ⟨i, ?_, hl⟩
    rw [hsl, hhl] at hi
    rcases hi with hi | hi | hi
    · cases hi
    · exact Or.inr (Or.inl hi)
    · cases hi
      exact Or.inl rfl
  | event old_index =>
    simp only [hsl, if_pos (hinv.slot old_index hsl)] at hrl
    cases hrl
    rw [hsl, hhl] at hi
    rcases hi with hi | hi | hi
    · cases hi
      -- the displaced event: nothing is lost, so the change is in another one
      by_cases hnew : (s.atomics.events index).Lists change
      · exact ⟨index, Or.inl rfl, hnew⟩
      by_cases hrun : ∀ j ∈ s.server.toRun, ¬ (s.atomics.events j).Lists change
      · refine absurd ⟨index, hhl, by simpa using hem, change, hmem, ⟨i, ?_, hl⟩, hnew, hrun⟩
          hkp
        rw [hsl]
        rfl
      · push Not at hrun
        obtain ⟨j, hj, hl⟩ := hrun
        exact ⟨j, Or.inr (Or.inl hj), hl⟩
    · exact ⟨i, Or.inr (Or.inl hi), hl⟩
    · cases hi
      exact ⟨_, Or.inl rfl, hl⟩

theorem Safe.runEvent (h : s.Safe) (hrun : s.server.toRun = some index)
    (resolved : List Bytes) (server : ServerThread) : Safe (s.runEvent index resolved server) := by
  intro change hmem
  obtain ⟨hmem, hnot⟩ := mem_filter.1 hmem
  obtain ⟨i, hi, hl⟩ := h change hmem
  have hne : i ≠ index := by
    rintro rfl
    exact of_decide_eq_true hnot (HotReloadEvent.lists_processFileList hl resolved)
  refine ⟨i, ?_, ?_⟩
  · rcases hi with hi | hi | hi
    · exact Or.inl hi
    · rw [hrun] at hi
      exact absurd (Option.some.inj hi).symm hne
    · exact Or.inr (Or.inr hi)
  · rwa [show (s.runEvent index resolved server).atomics.events i = s.atomics.events i from
      Function.update_of_ne hne ..]

theorem Safe.go (h : s.Safe) {server : ServerThread}
    (hrun : ∀ i, s.server.toRun = some i → server.toRun = some i) :
    Safe { s with server := server } := fun change hmem => by
  obtain ⟨i, hi, hl⟩ := h change hmem
  exact ⟨i, hi.imp_right (Or.imp_left (hrun i)), hl⟩

theorem watcher_of_append {add : HotReloadEvent → HotReloadEvent} {changes : List Change}
    (hs : s.append add changes = .ok s') : ∃ index, s'.watcher = some index := by
  unfold HandOff.append at hs
  split at hs
  · rename_i index hw
    cases hs
    exact ⟨index, hw⟩
  · cases hs

theorem Safe.reset (h : s.Safe) (hinv : s.Inv) {current : Index}
    (hsr : s.server = .processed current) :
    Safe { s with
      atomics := s.atomics.setEvent current (s.atomics.events current).reset
      server := .recycling } := by
  intro change hmem
  obtain ⟨i, hi, hl⟩ := h change hmem
  rw [hsr] at hi
  have hrn : s.server.event = some current := by rw [hsr]; rfl
  have hne : i ≠ current := by
    rcases hi with hi | hi | hi
    · exact hinv.ne_running hrn hi
    · cases hi
    · exact (hinv.ne_held hi (Or.inl hrn)).symm
  have hot : (s.atomics.setEvent current (s.atomics.events current).reset).events i =
      s.atomics.events i := Function.update_of_ne hne ..
  exact ⟨i, hi.imp_right (Or.imp_left fun hr => by cases hr), hot.symm ▸ hl⟩

/-- An event can be acquired only when none is left behind. -/
theorem Inv.safe_of_acquire (h : s.Inv)
    (hs : s.step platform .watcherAcquireEvent = .ok s') : s'.Safe := by
  rw [step] at hs
  split at hs
  · cases hs
  · rename_i hfr
    obtain ⟨index, hfn, hc, hp⟩ := s.exists_available
    rw [hfn] at hs
    cases hs
    exact (h.acquire hfr hc hp).safe_of_held rfl

/-- A step that loses no change leaves each where it will be run. -/
theorem Safe.step (h : s.Safe) (hinv : s.Inv) (a : ThreadStep) (hkp : ¬ s.Loses a)
    (hs : s.step platform a = .ok s') : s'.Safe := by
  have hinv' : s'.Inv := by
    have := step_inv platform s a hinv
    rwa [hs] at this
  cases a with
  | watcherAcquireEvent => exact hinv.safe_of_acquire hs
  | appendFile file_path =>
    rw [HandOff.step] at hs
    obtain ⟨index, hhl⟩ := watcher_of_append hs
    exact hinv'.safe_of_held hhl
  | appendDir dir_path maybe_sub_path =>
    rw [HandOff.step] at hs
    obtain ⟨index, hhl⟩ := watcher_of_append hs
    exact hinv'.safe_of_held hhl
  | watcherReleaseAndSubmitEvent =>
    rw [HandOff.step] at hs
    split at hs
    · cases hs
    rename_i index hhl
    obtain ⟨atomics, scheduled, hrl, -⟩ := hinv.release hhl
    rw [hrl] at hs
    cases hs
    exact h.release hinv hhl hkp hrl
  | run bundling resolved =>
    rw [HandOff.step] at hs
    split at hs
    · rename_i first hsr
      split_ifs at hs
      · cases hs
        exact h.go fun i hi => by rwa [hsr] at hi
      · cases hs
        exact h.runEvent (by rw [hsr]; rfl) resolved _
    · cases hs
  | bundled =>
    rw [HandOff.step] at hs
    split at hs
    · rename_i first hsr
      cases hs
      exact h.go fun i hi => by rwa [hsr] at hi
    · cases hs
  | processFileList resolved =>
    rw [HandOff.step] at hs
    split at hs
    · rename_i current hsr
      cases hs
      exact h.runEvent (by rw [hsr]; rfl) resolved _
    · cases hs
  | reset =>
    rw [HandOff.step] at hs
    split at hs
    · rename_i current hsr
      cases hs
      exact h.reset hinv hsr
    · cases hs
  | swap =>
    rw [HandOff.step] at hs
    split at hs
    · rename_i hsr
      split at hs
      · cases hs
        exact h.go fun i hi => by rw [hsr] at hi; cases hi
      · cases hs
      · rename_i next hsl
        cases hs
        intro change hmem
        obtain ⟨i, hi, hl⟩ := h change hmem
        rw [hsl, hsr] at hi
        refine ⟨i, ?_, hl⟩
        rcases hi with hi | hi | hi
        · cases hi
          exact Or.inr (Or.inl rfl)
        · cases hi
        · exact Or.inr (Or.inr hi)
    · cases hs
  | cmpxchgWeak spurious =>
    rw [HandOff.step] at hs
    split at hs
    · rename_i hsr
      split_ifs at hs with hx
      · cases hs
        intro change hmem
        obtain ⟨i, hi, hl⟩ := h change hmem
        rw [hx.1, hsr] at hi
        refine ⟨i, ?_, hl⟩
        rcases hi with hi | hi | hi
        · cases hi
        · cases hi
        · exact Or.inr (Or.inr hi)
      · cases hs
        exact h.go fun i hi => by rw [hsr] at hi; cases hi
    · cases hs

/-- Whenever nobody is at work, every change that the watcher has seen has been run, in every run in
which the watcher asks for another event behind each submission that `Loses` a change. -/
theorem unrun_of_run (platform : Platform) (steps : List ThreadStep)
    (h : Mended (step platform) Loses (· = .watcherAcquireEvent) init steps) :
    Ends (fun s => s.Idle → s.unrun = []) (· = Fault.notNow)
      (steps.foldlM (step platform) init) := by
  refine (ends_of_mended (P := Safe) (step_inv platform)
    (fun s a s' hinv hsafe hkept hs => hsafe.step hinv a hkept hs) ?_ inv_init
    (Or.inl fun change hmem => by cases hmem) h).imp fun s hs hidle => hs.2.unrun_of_idle hs.1 hidle
  rintro s _ s' hinv rfl hs
  exact hinv.safe_of_acquire hs

/-- A path of one letter. -/
def letter (c : UInt8) (h : c ≠ 0) : Path := ⟨[c], by simpa using h.symm⟩

/-- The watcher sees one file change. -/
def report (c : UInt8) (h : c ≠ 0) : List ThreadStep :=
  [.watcherAcquireEvent, .appendFile (letter c h), .watcherReleaseAndSubmitEvent]

/-- The server runs a first event and then, with `more`, one from the slot. -/
def runAll (more : List ThreadStep) : List ThreadStep :=
  [.run false [], .processFileList [], .reset, .swap] ++ more ++ [.cmpxchgWeak false]

/-- The third submission displaces the second, whose change is in an event that is still to be
run. -/
theorem unrun_of_run_displaced :
    Ends (fun s => s.Idle → s.unrun = []) (· = Fault.notNow)
      ((report 97 (by decide) ++ report 98 (by decide) ++ report 99 (by decide)
        ++ runAll [.processFileList [], .reset, .swap] ++ report 100 (by decide)
        ++ runAll []).foldlM (step .posix) init) :=
  unrun_of_run .posix _ (by decide +kernel)

/-- A displaced submission takes its change with it. -/
theorem unrun_of_run_refuted :
    ¬ ∀ steps : List ThreadStep, Ends (fun s : HandOff => s.Idle → s.unrun = [])
      (· = Fault.notNow) (steps.foldlM (step .posix) init) := by
  intro h
  have := h (report 97 (by decide) ++ report 98 (by decide) ++ report 99 (by decide)
    ++ runAll [.processFileList [], .reset, .swap])
  -- the second change was in the pending event when the third was submitted
  exact absurd this (by decide +kernel)

end HandOff

end Cruller.Bake
