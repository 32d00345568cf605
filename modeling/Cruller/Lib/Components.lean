import Mathlib.Tactic

/-!
# Paths as stacks of components

What lies between two separators is a component (`List.splitOn`). An empty component and a single
dot lead nowhere, a double dot takes the last name back, and any other component is a name. What is
left of a path is a `Trail`: steps up from where it starts, and the names down from there. Whether
a trail may go above its start is `above`.

A trail's own components lead along the trail (`follow_components`), so writing a trail out and
reading it back gives it again (`follow_splitOn_text`).
-/

namespace Cruller

open List

variable {α : Type*}

variable {sep x : α}

theorem not_mem_of_mem_splitOn [DecidableEq α] :
    ∀ {xs c : List α}, c ∈ xs.splitOn sep → sep ∉ c
  | [], c, hc => by
    rw [splitOn_nil, mem_singleton] at hc
    simp [hc]
  | x :: xs, c, hc => by
    rw [splitOn_cons_eq_if_modifyHead] at hc
    split_ifs at hc with hx
    · rcases mem_cons.1 hc with rfl | hc
      · simp
      · exact not_mem_of_mem_splitOn hc
    · rcases hs : xs.splitOn sep with _ | ⟨d, ds⟩
      · exact absurd hs (splitOn_ne_nil _ _)
      · rw [hs] at hc
        rcases mem_cons.1 hc with rfl | hc
        · intro hmem
          rcases mem_cons.1 hmem with rfl | hmem
          · simp at hx
          · exact not_mem_of_mem_splitOn (c := d) (by rw [hs]; exact mem_cons_self) hmem
        · exact not_mem_of_mem_splitOn (by rw [hs]; exact mem_cons_of_mem _ hc)

theorem mem_intercalate_of_mem {l : List α} : ∀ {ls : List (List α)},
    l ∈ ls → x ∈ l → x ∈ [sep].intercalate ls
  | [], h, _ => by simp at h
  | [m], h, hx => by simpa [← mem_singleton.1 h] using hx
  | m :: n :: ls, h, hx => by
    rw [intercalate_cons_cons]
    rcases mem_cons.1 h with rfl | h
    · simp [hx]
    · simp [mem_intercalate_of_mem h hx]

theorem exists_of_mem_intercalate (hne : x ≠ sep) : ∀ {ls : List (List α)},
    x ∈ [sep].intercalate ls → ∃ l ∈ ls, x ∈ l
  | [], h => by simp at h
  | [m], h => ⟨m, by simp, by simpa using h⟩
  | m :: n :: ls, h => by
    rw [intercalate_cons_cons, append_assoc, mem_append, singleton_append,
      mem_cons] at h
    rcases h with h | h | h
    · exact ⟨m, by simp, h⟩
    · exact absurd h hne
    · obtain ⟨l, hl, hx⟩ := exists_of_mem_intercalate hne h
      exact ⟨l, mem_cons_of_mem _ hl, hx⟩

theorem mem_of_mem_splitOn [DecidableEq α] {xs c : List α} (h : c ∈ xs.splitOn sep)
    (hx : x ∈ c) : x ∈ xs := by
  rw [← show [sep].intercalate (xs.splitOn sep) = xs from intercalate_splitOn sep]
  exact mem_intercalate_of_mem h hx

/-- Empty, a dot or two dots: a component that is no name. -/
def Special (dot : α) (c : List α) : Prop := c = [] ∨ c = [dot] ∨ c = [dot, dot]

instance [DecidableEq α] (dot : α) : DecidablePred (Special dot) :=
  fun c => inferInstanceAs (Decidable (c = [] ∨ c = [dot] ∨ c = [dot, dot]))

/-- Where a path leads: up so many times, and down by names. Without `above` nothing is above. -/
@[ext]
structure Trail (dot : α) (above : Bool) where
  ups : ℕ
  names : List (List α)
  floor : above = false → ups = 0
  proper : ∀ c ∈ names, ¬ Special dot c

namespace Trail

variable {dot sep : α} {above : Bool}

def here : Trail dot above := ⟨0, [], fun _ => rfl, by simp⟩

/-- Down by names alone. -/
def down (names : List (List α)) (h : ∀ c ∈ names, ¬ Special dot c) : Trail dot above :=
  ⟨0, names, fun _ => rfl, h⟩

def components (t : Trail dot above) : List (List α) := List.replicate t.ups [dot, dot] ++ t.names

/-- The components with a separator between any two. -/
def text (sep : α) (t : Trail dot above) : List α := [sep].intercalate t.components

/-- What the next component's text is written behind. -/
def lead [DecidableEq α] (sep : α) (t : Trail dot above) : List α :=
  t.text sep ++ if t.text sep = [] then [] else [sep]

/-- One directory up, which has a name to leave. -/
def parent (t : Trail dot above) : Trail dot above :=
  { t with
    names := t.names.dropLast
    proper := fun c hc => t.proper c (List.mem_of_mem_dropLast hc) }

/-- One directory down. -/
def child (t : Trail dot above) (c : List α) (hc : ¬ Special dot c) : Trail dot above :=
  { t with
    names := t.names ++ [c]
    proper := fun d hd => by
      rcases List.mem_append.1 hd with hd | hd
      · exact t.proper d hd
      · rwa [List.mem_singleton.1 hd] }

/-- Above the start, where that is allowed. -/
def rise (t : Trail dot above) : Trail dot above :=
  { t with
    ups := if above then t.ups + 1 else t.ups
    floor := fun h => by
      rw [if_neg (by simp [h])]
      exact t.floor h }

variable {t : Trail dot above}

@[simp]
theorem parent_ups : t.parent.ups = t.ups := rfl

@[simp]
theorem parent_names : t.parent.names = t.names.dropLast := rfl

variable {c : List α}

@[simp]
theorem child_ups (hc : ¬ Special dot c) : (t.child c hc).ups = t.ups := rfl

@[simp]
theorem child_names (hc : ¬ Special dot c) :
    (t.child c hc).names = t.names ++ [c] := rfl

@[simp]
theorem rise_ups : t.rise.ups = if above then t.ups + 1 else t.ups := rfl

@[simp]
theorem rise_names : t.rise.names = t.names := rfl

variable [DecidableEq α]

/-- One component further. -/
def push (t : Trail dot above) (c : List α) : Trail dot above :=
  if hc : Special dot c then
    if c = [dot, dot] then if t.names = [] then t.rise else t.parent else t
  else t.child c hc

def follow (t : Trail dot above) (cs : List (List α)) : Trail dot above := cs.foldl push t

@[simp]
theorem push_nil : t.push [] = t := by
  simp [push, Special]

@[simp]
theorem push_dot : t.push [dot] = t := by
  simp [push, Special]

theorem push_dots : t.push [dot, dot] = if t.names = [] then t.rise else t.parent := by
  simp [push, Special]

theorem push_name (hc : ¬ Special dot c) : t.push c = t.child c hc := by
  rw [push, dif_neg hc]

theorem follow_cons (c : List α) (cs : List (List α)) : t.follow (c :: cs) = (t.push c).follow cs :=
  rfl

theorem follow_append (cs ds : List (List α)) :
    t.follow (cs ++ ds) = (t.follow cs).follow ds := foldl_append

theorem follow_names {cs : List (List α)} (h : ∀ c ∈ cs, ¬ Special dot c) :
    (t.follow cs).ups = t.ups ∧ (t.follow cs).names = t.names ++ cs := by
  induction cs generalizing t with
  | nil => simp [follow]
  | cons c cs ih =>
    rw [follow_cons, push_name (h c mem_cons_self)]
    obtain ⟨hups, hnm⟩ :=
      ih (t := t.child c (h c mem_cons_self)) fun d hd => h d (mem_cons_of_mem _ hd)
    exact ⟨hups, by rw [hnm, child_names, append_assoc, singleton_append]⟩

theorem follow_dots : ∀ {k : ℕ} {t : Trail dot above}, k ≤ t.names.length →
    (t.follow (List.replicate k [dot, dot])).ups = t.ups ∧
      (t.follow (List.replicate k [dot, dot])).names = t.names.take (t.names.length - k)
  | 0, t, _ => by simp [follow]
  | k + 1, t, hk => by
    have hne : t.names ≠ [] := by
      intro h
      simp [h] at hk
    obtain ⟨hups, hnm⟩ := follow_dots (k := k) (t := t.parent) (by simp; omega)
    rw [replicate_succ, follow_cons, push_dots, if_neg hne]
    refine ⟨hups, ?_⟩
    rw [hnm, parent_names, length_dropLast, dropLast_eq_take, take_take]
    congr 1
    omega

theorem follow_rise (k : ℕ) (h : above = true) (ht : t.names = []) :
    (t.follow (List.replicate k [dot, dot])).ups = t.ups + k ∧
      (t.follow (List.replicate k [dot, dot])).names = [] := by
  induction k generalizing t with
  | zero => simp [follow, ht]
  | succ k ih =>
    rw [replicate_succ, follow_cons, push_dots, if_pos ht]
    obtain ⟨hups, hnm⟩ := ih (t := t.rise) ht
    refine ⟨?_, hnm⟩
    rw [hups, rise_ups, if_pos h]
    omega

/-- A trail's own components lead along it. -/
theorem follow_components : here.follow t.components = t := by
  rw [components, follow_append]
  have hdt : ((here : Trail dot above).follow (List.replicate t.ups [dot, dot])).ups = t.ups ∧
      ((here : Trail dot above).follow (List.replicate t.ups [dot, dot])).names = [] := by
    by_cases hab : above = true
    · simpa [here] using follow_rise (t := here) t.ups hab rfl
    · simp [t.floor (by simpa using hab), follow, here]
  obtain ⟨hups, hnm⟩ :=
    follow_names (t := here.follow (List.replicate t.ups [dot, dot])) t.proper
  ext1
  · rw [hups, hdt.1]
  · rw [hnm, hdt.2, nil_append]

omit [DecidableEq α] in
theorem components_ne_nil (hc : c ∈ t.components) : c ≠ [] := by
  rintro rfl
  rcases mem_append.1 hc with h | h
  · cases eq_of_mem_replicate h
  · exact t.proper _ h (.inl rfl)

omit [DecidableEq α] in
theorem intercalate_append (sep : α) : ∀ {l m : List (List α)}, l ≠ [] → m ≠ [] →
    [sep].intercalate (l ++ m) = [sep].intercalate l ++ sep :: [sep].intercalate m
  | [], _, h, _ => absurd rfl h
  | [c], d :: m, _, _ => by simp
  | c :: d :: l, m, _, hm => by
    have ih := intercalate_append sep (l := d :: l) (m := m) (by simp) hm
    simp only [cons_append, intercalate_cons_cons] at ih ⊢
    rw [ih]
    simp

omit [DecidableEq α] in
theorem intercalate_concat (sep : α) (c : List α) {l : List (List α)} (h : l ≠ []) :
    [sep].intercalate (l ++ [c]) = [sep].intercalate l ++ sep :: c := by
  rw [intercalate_append sep h (by simp), intercalate_singleton]

omit [DecidableEq α] in
theorem text_eq_nil : t.text sep = [] ↔ t.components = [] := by
  refine ⟨fun h => ?_, fun h => by rw [text, h, intercalate_nil]⟩
  rw [text] at h
  rcases hl : t.components with _ | ⟨c, _ | ⟨d, l⟩⟩
  · rfl
  · rw [hl, intercalate_singleton] at h
    exact absurd h (components_ne_nil (t := t) (by simp [hl]))
  · rw [hl, intercalate_cons_cons] at h
    simp at h

theorem text_child (sep : α) (hc : ¬ Special dot c) :
    (t.child c hc).text sep = t.lead sep ++ c := by
  have hcm : (t.child c hc).components = t.components ++ [c] := by
    simp [components, child]
  rw [text, hcm]
  by_cases ht : t.components = []
  · rw [lead, if_pos (text_eq_nil.2 ht), text, ht]
    simp
  · rw [lead, if_neg (mt text_eq_nil.1 ht), intercalate_concat sep c ht, text]
    simp

theorem text_rise (sep : α) (h : above = true) (ht : t.names = []) :
    t.rise.text sep = t.lead sep ++ [dot, dot] := by
  have hcm : t.rise.components = t.components ++ [[dot, dot]] := by
    rw [components, components, rise_ups, if_pos h, rise_names, ht, append_nil,
      append_nil, replicate_succ']
  rw [text, hcm]
  by_cases hc : t.components = []
  · rw [lead, if_pos (text_eq_nil.2 hc), text, hc]
    simp
  · rw [lead, if_neg (mt text_eq_nil.1 hc), intercalate_concat sep _ hc, text]
    simp

omit [DecidableEq α] in
theorem parent_child {names : List (List α)} (h : t.names = names ++ [c]) :
    ∃ hc, t = t.parent.child c hc := by
  refine ⟨t.proper c (by simp [h]), ?_⟩
  ext1
  · rfl
  · simp [parent, child, h]

omit [DecidableEq α] in
theorem length_text_ups (sep : α) (ht : t.names = []) : (t.text sep).length = 3 * t.ups - 1 := by
  have hlen : ∀ k : ℕ, ([sep].intercalate (List.replicate (k + 1) [dot, dot])).length
      = 3 * k + 2 := by
    intro k
    induction k with
    | zero => simp
    | succ k ih =>
      rw [replicate_succ, replicate_succ, intercalate_cons_cons,
        ← replicate_succ, length_append, length_append, ih]
      simp
      omega
  rw [text, components, ht, append_nil]
  cases hk : t.ups with
  | zero => simp
  | succ k =>
    rw [hlen]
    omega

theorem length_text_ups_lt (sep : α) (ht : t.names ≠ []) : 3 * t.ups - 1 < (t.text sep).length := by
  induction hn : t.names.length generalizing t with
  | zero => exact absurd (length_eq_zero_iff.1 hn) ht
  | succ n ih =>
    obtain ⟨names, c, hnm⟩ := eq_nil_or_concat' t.names |>.resolve_left ht
    obtain ⟨hc, htc⟩ := parent_child hnm
    have hpos : 0 < c.length := length_pos_iff.2 fun h => hc (.inl h)
    have hle : 3 * t.parent.ups - 1 ≤ (t.parent.text sep).length := by
      by_cases hp : t.parent.names = []
      · exact (length_text_ups sep hp).ge
      · exact (ih hp (by simp [hn])).le
    rw [htc, text_child sep hc, lead, length_append, length_append, child_ups]
    omega

omit [DecidableEq α] in
theorem getLast?_text (hdot : dot ≠ sep) (hnames : ∀ c ∈ t.names, sep ∉ c) :
    (t.text sep).getLast? ≠ some sep := by
  rcases eq_nil_or_concat' t.components with h | ⟨l, c, h⟩
  · simp [text, h]
  · have hc : c ∈ t.components := by simp [h]
    have hlast : (t.text sep).getLast? = c.getLast? := by
      rw [text, h]
      by_cases hl : l = []
      · simp [hl]
      · rw [intercalate_concat sep c hl, getLast?_append_of_ne_nil _ (by simp),
          getLast?_cons]
        rcases hd : c.getLast? with _ | d
        · exact absurd (getLast?_eq_none_iff.1 hd) (components_ne_nil hc)
        · rfl
    intro hsep
    rw [hlast] at hsep
    have hmem := mem_of_getLast? hsep
    rcases mem_append.1 hc with h' | h'
    · rw [eq_of_mem_replicate h'] at hmem
      simp [hdot.symm] at hmem
    · exact hnames c h' hmem

omit [DecidableEq α] in
theorem head?_text (hdot : dot ≠ sep) (hnames : ∀ c ∈ t.names, sep ∉ c) :
    (t.text sep).head? ≠ some sep := by
  rw [text]
  rcases h : t.components with _ | ⟨c, l⟩
  · simp
  · have hc : c ∈ t.components := by simp [h]
    obtain ⟨d, c, rfl⟩ := exists_cons_of_ne_nil (components_ne_nil hc)
    have hhead : ([sep].intercalate ((d :: c) :: l)).head? = some d := by
      cases l <;> simp
    rw [hhead, Ne, Option.some.injEq]
    rintro rfl
    rcases mem_append.1 hc with h' | h'
    · have hd := eq_of_mem_replicate h'
      simp at hd
      exact hdot hd.1.symm
    · exact hnames _ h' mem_cons_self

theorem follow_splitOn_append {rest : List α} (hc : sep ∉ c)
    (hrs : rest = [] ∨ rest.head? = some sep) :
    t.follow ((c ++ rest).splitOn sep) = (t.push c).follow (rest.splitOn sep) := by
  rcases hrs with rfl | hrs
  · rw [append_nil, splitOn_eq_singleton hc, splitOn_nil, follow_cons, follow_cons,
      push_nil]
  · obtain ⟨tail, rfl⟩ := head?_eq_some_iff.1 hrs
    have hsep : (sep :: tail).splitOn sep = [] :: tail.splitOn sep := by
      simp [splitOn_cons_eq_if_modifyHead]
    rw [splitOn_append_cons_self_of_not_mem hc, hsep, follow_cons, follow_cons, push_nil]

theorem follow_splitOn_sep {rest : List α} :
    t.follow ((sep :: rest).splitOn sep) = t.follow (rest.splitOn sep) := by
  have hsep : (sep :: rest).splitOn sep = [] :: rest.splitOn sep := by
    simp [splitOn_cons_eq_if_modifyHead]
  rw [hsep, follow_cons, push_nil]

theorem follow_splitOn {above' : Bool} {t' : Trail dot above'} (hdot : dot ≠ sep)
    (hnm : ∀ c ∈ t'.names, sep ∉ c) :
    t.follow ((t'.text sep).splitOn sep) = t.follow t'.components := by
  have hfr : ∀ c ∈ t'.components, sep ∉ c := by
    intro c hc
    rcases mem_append.1 hc with h | h
    · rw [eq_of_mem_replicate h]
      simp [hdot.symm]
    · exact hnm c h
  by_cases ht : t'.components = []
  · rw [text, ht, intercalate_nil, splitOn_nil, follow_cons, push_nil]
  · rw [text, splitOn_intercalate sep hfr ht]

/-- A trail that was written out is read back. -/
theorem follow_splitOn_text (hdot : dot ≠ sep) (hnm : ∀ c ∈ t.names, sep ∉ c) :
    here.follow ((t.text sep).splitOn sep) = t := by
  rw [follow_splitOn hdot hnm, follow_components]

theorem not_mem_of_follow {cs : List (List α)} (ht : ∀ c ∈ t.names, sep ∉ c)
    (hcs : ∀ c ∈ cs, sep ∉ c) : ∀ c ∈ (t.follow cs).names, sep ∉ c := by
  induction cs generalizing t with
  | nil => exact ht
  | cons d cs ih =>
    refine ih (t := t.push d) ?_ fun c hc => hcs c (mem_cons_of_mem _ hc)
    intro c hc
    unfold push at hc
    split_ifs at hc
    · exact ht c hc
    · exact ht c (List.mem_of_mem_dropLast hc)
    · exact ht c hc
    · rcases mem_append.1 hc with h | h
      · exact ht c h
      · rw [mem_singleton.1 h]
        exact hcs d mem_cons_self

end Trail

end Cruller
