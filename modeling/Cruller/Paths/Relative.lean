import Cruller.Paths.CommonPath

/-!
# Relative paths

`relativeNormalizedBuf` for posix paths: a step up for every name of `from` behind the common path,
and then what `to` has behind it. What is written is the front of the buffer; a write past the
buffer's capacity is `none`.

With `from` down the names `cs ++ fs` and `to` down `cs ++ ts`, the common path is the directory
`cs` (`longestCommonPathGeneric_names`), and the relative path is the text of the trail that goes up
`fs.length` times and down `ts` (`relativeNormalizedBuf_eq`), which leads from `from` to `to`.
-/

namespace Cruller.Paths

open List Option

/-- Bytes behind what has been written, where the buffer is large enough. -/
def put (capacity : ℕ) (out_slice bytes : List UInt8) : Option (List UInt8) :=
  if out_slice.length + bytes.length ≤ capacity then some (out_slice ++ bytes) else none

/-- `strings.lastIndexOfChar` -/
def lastIndexOfChar (slice : List UInt8) (char : UInt8) : Option ℕ :=
  (slice.reverse.findIdx? (· == char)).map fun i => slice.length - 1 - i

/-- A `..` for each name of `from` that ends at or behind `i`, for `n` bytes at most. -/
def dotDots (capacity : ℕ) (normalized_from : List UInt8) :
    ℕ → ℕ → List UInt8 → Option (List UInt8)
  | 0, _, out_slice => some out_slice
  | n + 1, i, out_slice =>
    if i ≤ normalized_from.length then
      (if i = normalized_from.length ∨
          (isSepAt normalized_from i = true ∧ i + 1 < normalized_from.length) then
        put capacity out_slice (if out_slice.length = 0 then [dot, dot] else [sep_posix, dot, dot])
      else some out_slice).bind (dotDots capacity normalized_from n (i + 1))
    else some out_slice

/-- A slice of `normalized_to`, copied if it has to be. -/
def copied (capacity : ℕ) (always_copy : Bool) (slice : List UInt8) : Option (List UInt8) :=
  if always_copy then put capacity [] slice else some slice

/-- The rest of the destination path that comes after the common path parts. -/
def tailOf (last_common_separator : ℕ) (normalized_from normalized_to : List UInt8) :
    List UInt8 :=
  let tail := normalized_to.drop last_common_separator
  if 0 < normalized_from.length ∧ (last_common_separator = normalized_from.length ∨
      last_common_separator = normalized_from.length - 1) ∧ isSepAt tail 0 then tail.tail
  else tail

/-- Avoid making non-absolute paths absolute. -/
def putTail (capacity : ℕ) (out_slice tail : List UInt8) : Option (List UInt8) :=
  let insert_leading_slash := !isSepAt tail 0 && decide (0 < out_slice.length) &&
    !isSepAt out_slice (out_slice.length - 1)
  (if insert_leading_slash then put capacity out_slice [sep_posix] else some out_slice).bind
    fun out_slice => put capacity out_slice tail

/-- The part of `to` behind the common path. -/
def appendTail (capacity last_common_separator : ℕ)
    (normalized_from normalized_to out_slice : List UInt8) : Option (List UInt8) :=
  if last_common_separator + 1 < normalized_to.length then
    putTail capacity out_slice (tailOf last_common_separator normalized_from normalized_to)
  else some out_slice

/-- Steps up to the common path, and what the target has behind it. -/
def relativeToCommonPath (common_path_ normalized_from normalized_to : List UInt8)
    (capacity : ℕ) (always_copy : Bool) : Option (List UInt8) :=
  let common_path := if isSepAt common_path_ 0 then common_path_.tail else common_path_
  let shortest := min normalized_from.length normalized_to.length
  let base := shortest = common_path.length ∧ normalized_from.length ≤ normalized_to.length
  if base ∧ common_path.length = 0 then copied capacity always_copy normalized_to
  else if base ∧ isSepAt normalized_to (common_path.length - 1) then
    copied capacity always_copy (normalized_to.drop common_path.length)
  else
    let last_common_separator := (lastIndexOfChar common_path_ sep_posix).getD 0
    let i := (if isSepAt normalized_from 0 then 1 else 0) + 1 + last_common_separator
    (if 0 < normalized_from.length then
        dotDots capacity normalized_from (normalized_from.length + 1) i []
      else some []).bind fun out_slice =>
      (appendTail capacity last_common_separator normalized_from normalized_to out_slice).map
        fun out_slice =>
        if 3 < out_slice.length ∧ isSepAt out_slice (out_slice.length - 1) then out_slice.dropLast
        else out_slice

/-- The path from one to the other. -/
def relativeNormalizedBuf (capacity : ℕ) (from_ to_ : List UInt8) (always_copy : Bool) :
    Option (List UInt8) :=
  if from_.length = to_.length ∧ from_ = to_ then some []
  else
    (longestCommonPathGeneric [from_, to_]).bind fun common_path =>
      relativeToCommonPath common_path from_ to_ capacity always_copy

/-- A directory's text: the names, each between separators. -/
def folderText : List (List UInt8) → List UInt8
  | [] => [sep_posix]
  | n :: ns => sep_posix :: (n ++ folderText ns)

/-- The absolute path down these names. -/
def pathText (ns : List (List UInt8)) : List UInt8 := sep_posix :: [sep_posix].intercalate ns

def IsName (n : List UInt8) : Prop := ¬ Special dot n ∧ sep_posix ∉ n

theorem IsName.ne_nil {n : List UInt8} (h : IsName n) : n ≠ [] := fun hnil => h.1 (.inl hnil)

theorem exists_names {path : List UInt8} (h : IsNormalized path) :
    ∃ ns, path = pathText ns ∧ ∀ n ∈ ns, IsName n := by
  refine ⟨(trail false path).names, ?_, fun n hn =>
    ⟨(trail false path).proper n hn, trail_names n hn⟩⟩
  have hups : (trail false path).ups = 0 := (trail false path).floor rfl
  rw [IsNormalized, normalized, if_neg (by simp), Trail.text, Trail.components, hups] at h
  exact h

theorem pathText_append (cs : List (List UInt8)) {ds : List (List UInt8)} (hne : ds ≠ []) :
    pathText (cs ++ ds) = folderText cs ++ [sep_posix].intercalate ds := by
  rw [pathText]
  induction cs with
  | nil => simp [folderText]
  | cons c cs ih =>
    rw [cons_append, folderText,
      intercalate_cons_of_ne_nil (show cs ++ ds ≠ [] by simp [hne])]
    rw [append_assoc, singleton_append, ih, cons_append, append_assoc]

variable {cs ns fs ts : List (List UInt8)} {D : List UInt8}

theorem pathText_concat_sep (hne : cs ≠ []) :
    pathText cs ++ [sep_posix] = folderText cs := by
  have h := pathText_append cs (show ([[]] : List (List UInt8)) ≠ [] by simp)
  rw [pathText, Trail.intercalate_concat sep_posix [] hne] at h
  simpa [pathText] using h

theorem folderText_isPrefix {ds : List (List UInt8)} (h : cs <+: ds) :
    (folderText cs).length ≤ (folderText ds).length := by
  obtain ⟨es, rfl⟩ := h
  induction cs with
  | nil => cases es <;> simp [folderText]
  | cons c cs ih => simpa [folderText] using ih

theorem getLast?_folderText (cs : List (List UInt8)) :
    (folderText cs).getLast? = some sep_posix := by
  induction cs with
  | nil => rfl
  | cons c cs ih =>
    rw [folderText, getLast?_cons, getLast?_append, ih]
    rfl

/-- A folder in front of another is made of the first of its names. -/
theorem exists_folderText (hD : D.getLast? = some sep_posix) :
    ∀ {ns : List (List UInt8)}, (∀ n ∈ ns, sep_posix ∉ n) → D <+: folderText ns →
      ∃ X, X <+: ns ∧ D = folderText X := by
  intro ns
  induction ns generalizing D with
  | nil =>
    intro _ h
    refine ⟨[], prefix_rfl, ?_⟩
    rcases D with _ | ⟨d, D⟩
    · simp at hD
    · obtain ⟨t, ht⟩ := h
      simp [folderText] at ht
      simp [folderText, ht]
  | cons n ns ih =>
    intro hns h
    rcases D with _ | ⟨d, D⟩
    · simp at hD
    rw [folderText, cons_prefix_cons] at h
    obtain ⟨rfl, h⟩ := h
    by_cases hnil : D = []
    · exact ⟨[], nil_prefix, by rw [hnil]; rfl⟩
    have hls : D.getLast? = some sep_posix := by
      obtain ⟨E, e, rfl⟩ := (eq_nil_or_concat' D).resolve_left hnil
      simpa [getLast?_cons] using hD
    have hmem := mem_of_getLast? hls
    have hn := hns n mem_cons_self
    rcases prefix_or_prefix_of_prefix h (prefix_append n _) with hDn | ⟨E, rfl⟩
    · exact absurd (hDn.subset hmem) hn
    · rw [prefix_append_right_inj] at h
      have hE : E ≠ [] := by
        rintro rfl
        exact hn (by simpa using hmem)
      rw [getLast?_append_of_ne_nil _ hE] at hls
      obtain ⟨X, hX, rfl⟩ := ih hls (fun m hm => hns m (mem_cons_of_mem _ hm)) h
      exact ⟨n :: X, cons_prefix_cons.2 ⟨rfl, hX⟩, rfl⟩

theorem exists_folderText_of_path
    (hns : ∀ n ∈ ns, sep_posix ∉ n) (hD : D.getLast? = some sep_posix)
    (hpre : D <+: pathText ns ++ [sep_posix]) (hrt : D ≠ [sep_posix, sep_posix]) :
    ∃ X, X <+: ns ∧ D = folderText X := by
  by_cases hnil : ns = []
  · refine ⟨[], nil_prefix, ?_⟩
    rw [hnil, pathText, intercalate_nil] at hpre
    rcases D with _ | ⟨c, _ | ⟨d, D⟩⟩
    · simp at hD
    · obtain ⟨t, ht⟩ := hpre
      simp at ht
      simp [folderText, ht.1]
    · obtain ⟨t, ht⟩ := hpre
      simp at ht
      exact absurd (by simp [ht.1, ht.2]) hrt
  · rw [pathText_concat_sep hnil] at hpre
    exact exists_folderText hD hns hpre

theorem ne_root (hns : ∀ n ∈ ns, IsName n)
    (hpre : D <+: pathText ns) : D ≠ [sep_posix, sep_posix] := by
  rintro rfl
  rcases ns with _ | ⟨n, ns⟩
  · simpa [pathText] using hpre.length_le
  · obtain ⟨c, n, rfl⟩ := exists_cons_of_ne_nil (hns n mem_cons_self).ne_nil
    rw [pathText, cons_prefix_cons] at hpre
    obtain ⟨-, t, ht⟩ := hpre
    have hc : sep_posix = c := by
      rcases ns with _ | ⟨m, ns⟩
      · rw [intercalate_singleton] at ht
        exact (List.cons.inj ht).1
      · rw [intercalate_cons_cons] at ht
        exact (List.cons.inj ht).1
    exact (hns _ mem_cons_self).2 (by simp [hc])

theorem exists_parting : ∀ fs ts : List (List UInt8), ∃ cs fs' ts', fs = cs ++ fs' ∧
    ts = cs ++ ts' ∧ ∀ X, X <+: fs → X <+: ts → X <+: cs
  | [], ts => ⟨[], [], ts, rfl, rfl, fun X hX _ => hX⟩
  | f :: fs, [] => ⟨[], f :: fs, [], rfl, rfl, fun X _ hX => hX⟩
  | f :: fs, t :: ts => by
    by_cases h : f = t
    · subst h
      obtain ⟨cs, fs', ts', rfl, rfl, hX⟩ := exists_parting fs ts
      refine ⟨f :: cs, fs', ts', rfl, rfl, fun X h h' => ?_⟩
      rcases X with _ | ⟨x, X⟩
      · exact nil_prefix
      · obtain ⟨hx, h⟩ := cons_prefix_cons.1 h
        exact cons_prefix_cons.2 ⟨hx, hX X h (cons_prefix_cons.1 h').2⟩
    · refine ⟨[], f :: fs, t :: ts, rfl, rfl, fun X h₁ h₂ => ?_⟩
      rcases X with _ | ⟨x, X⟩
      · exact nil_prefix
      · exact absurd ((cons_prefix_cons.1 h₁).1.symm.trans (cons_prefix_cons.1 h₂).1) h

theorem splitOn_folderText : ∀ {ns : List (List UInt8)}, (∀ n ∈ ns, sep_posix ∉ n) →
    ∃ t, folderText ns = sep_posix :: t ∧ t.splitOn sep_posix = ns ++ [[]]
  | [], _ => ⟨[], rfl, rfl⟩
  | n :: ns, h => by
    obtain ⟨t, ht, hsp⟩ := splitOn_folderText fun m hm => h m (mem_cons_of_mem _ hm)
    refine ⟨n ++ folderText ns, rfl, ?_⟩
    rw [ht, splitOn_append_cons_self_of_not_mem (h n mem_cons_self), hsp,
      cons_append]

theorem folderText_inj {X Y : List (List UInt8)} (hX : ∀ n ∈ X, sep_posix ∉ n)
    (hY : ∀ n ∈ Y, sep_posix ∉ n) (h : folderText X = folderText Y) : X = Y := by
  obtain ⟨t, ht, hsp⟩ := splitOn_folderText hX
  obtain ⟨t', ht', hsp'⟩ := splitOn_folderText hY
  rw [ht, ht', List.cons.injEq] at h
  rw [h.2, hsp'] at hsp
  exact (append_cancel_right hsp).symm

theorem isCommonDirectory_names (cs : List (List UInt8))
    (hne : fs ≠ [] ∨ ts ≠ []) :
    IsCommonDirectory [pathText (cs ++ fs), pathText (cs ++ ts)] (folderText cs) := by
  have hpre : ∀ ds, ds ≠ [] → folderText cs <+: pathText (cs ++ ds) := fun ds hds => by
    rw [pathText_append cs hds]
    exact prefix_append _ _
  have hcm : ∀ ds, folderText cs <+: pathText (cs ++ ds) ++ [sep_posix] := fun ds => by
    by_cases hds : ds = []
    · by_cases hcs : cs = []
      · rw [hds, hcs]
        exact prefix_append _ _
      · rw [hds, append_nil, pathText_concat_sep hcs]
    · exact (hpre ds hds).trans (prefix_append _ _)
  refine ⟨getLast?_folderText cs, by simp [hcm], ?_⟩
  rcases hne with h | h
  · exact ⟨_, mem_cons_self, hpre fs h⟩
  · exact ⟨_, mem_cons_of_mem _ mem_cons_self, hpre ts h⟩

/-- The longest common path of two paths is the directory of their names in common. -/
theorem longestCommonPathGeneric_names
    (hfs : ∀ n ∈ cs ++ fs, IsName n) (hts : ∀ n ∈ cs ++ ts, IsName n)
    (hX : ∀ X, X <+: cs ++ fs → X <+: cs ++ ts → X <+: cs) (hne : fs ≠ [] ∨ ts ≠ []) :
    longestCommonPathGeneric [pathText (cs ++ fs), pathText (cs ++ ts)] =
      some (folderText cs) := by
  obtain ⟨D, hln, hD, hmax⟩ : ∃ D,
      longestCommonPathGeneric [pathText (cs ++ fs), pathText (cs ++ ts)] = some D ∧
        IsLongestCommonDirectory [pathText (cs ++ fs), pathText (cs ++ ts)] D :=
    exists_longestCommonDirectory (by simp) (by simp [pathText]) (by simp) (by simp)
  have hrt : D ≠ [sep_posix, sep_posix] := by
    obtain ⟨p, hp, hpre⟩ := hD.listed
    rcases mem_cons.1 hp with rfl | hp
    · exact ne_root hfs hpre
    · rw [mem_singleton.1 hp] at hpre
      exact ne_root hts hpre
  have hsep : ∀ {ns : List (List UInt8)}, (∀ n ∈ ns, IsName n) → ∀ n ∈ ns, sep_posix ∉ n :=
    fun h n hn => (h n hn).2
  obtain ⟨X, hXf, rfl⟩ := exists_folderText_of_path (hsep hfs) hD.terminated
    (hD.common _ mem_cons_self) hrt
  obtain ⟨Y, hYt, hXY⟩ := exists_folderText_of_path (hsep hts) hD.terminated
    (hD.common _ (mem_cons_of_mem _ mem_cons_self)) hrt
  obtain rfl := folderText_inj (fun n hn => hsep hfs n (hXf.subset hn))
    (fun n hn => hsep hts n (hYt.subset hn)) hXY
  have hle := folderText_isPrefix (hX X hXf hYt)
  have hge := hmax _ (isCommonDirectory_names cs hne)
  have heq := (prefix_of_prefix_length_le (hD.common _ mem_cons_self)
    ((isCommonDirectory_names cs hne).common _ mem_cons_self) hle).eq_of_length_le hge
  rw [hln, heq]

/-- So many steps up. -/
def upText (k : ℕ) : List UInt8 := [sep_posix].intercalate (List.replicate k [dot, dot])

theorem upText_succ (k : ℕ) : upText (k + 1) =
    upText k ++ if (upText k).length = 0 then [dot, dot] else [sep_posix, dot, dot] := by
  rw [upText, replicate_succ']
  rcases k with _ | k
  · rfl
  · have hne : List.replicate (k + 1) [dot, dot] ≠ [] := by simp
    rw [Trail.intercalate_concat sep_posix _ hne, ← upText, if_neg]
    rw [upText, replicate_succ]
    intro h0
    rcases k with _ | k
    · simp at h0
    · simp at h0

theorem length_upText_le {j k : ℕ} (h : j ≤ k) : (upText j).length ≤ (upText k).length := by
  induction h with
  | refl => rfl
  | step _ ih =>
    refine ih.trans ?_
    rw [upText_succ, length_append]
    exact Nat.le_add_right _ _

theorem put_upText {capacity k : ℕ} (h : (upText (k + 1)).length ≤ capacity) :
    put capacity (upText k)
      (if (upText k).length = 0 then [dot, dot] else [sep_posix, dot, dot]) =
      some (upText (k + 1)) := by
  rw [upText_succ, length_append] at h
  rw [put, if_pos h, ← upText_succ]

/-- From within a name, a step up for it and for every name behind it. -/
theorem dotDots_eq (capacity : ℕ) : ∀ {n k : ℕ} {p x : List UInt8} {l : List (List UInt8)},
    sep_posix ∉ x → (∀ m ∈ l, IsName m) →
    ([sep_posix].intercalate (x :: l)).length < n →
    (upText (k + l.length + 1)).length ≤ capacity →
    dotDots capacity (p ++ [sep_posix].intercalate (x :: l)) n p.length (upText k) =
      some (upText (k + l.length + 1)) := by
  intro n
  induction n with
  | zero => intro k p x l _ _ hn; omega
  | succ n ih =>
    intro k p x l hx hns hn hcap
    rw [dotDots, if_pos (by simp)]
    rcases x with _ | ⟨c, x⟩
    · -- at the end of a name
      have hup : (upText (k + 1)).length ≤ capacity :=
        (length_upText_le (by omega)).trans hcap
      rcases l with _ | ⟨m, l⟩
      · rw [intercalate_singleton, append_nil, if_pos (.inl rfl), put_upText hup,
          bind_some]
        rcases n with _ | n
        · rfl
        · rw [dotDots, if_neg (by simp)]
          rfl
      · obtain ⟨d, m', rfl⟩ := exists_cons_of_ne_nil (hns m mem_cons_self).ne_nil
        rw [intercalate_cons_cons, nil_append, singleton_append] at hn ⊢
        rw [if_pos (.inr ⟨by rw [isSepAt_iff]; simp, by simp⟩), put_upText hup,
          bind_some]
        have h := ih (k := k + 1) (p := p ++ [sep_posix]) (x := d :: m') (l := l)
          (hns _ mem_cons_self).2 (fun l hl => hns l (mem_cons_of_mem _ hl))
          (by rw [length_cons] at hn; omega) (by
            rw [length_cons] at hcap
            convert hcap using 3
            omega)
        rw [append_assoc, singleton_append, length_append,
          length_singleton] at h
        rw [h, length_cons]
        congr 2
        omega
    · have hcn : [sep_posix].intercalate ((c :: x) :: l) =
          c :: [sep_posix].intercalate (x :: l) := by
        rcases l with _ | ⟨m, l⟩ <;> simp
      have hc : c ≠ sep_posix := fun h => hx (by simp [h])
      rw [hcn] at hn ⊢
      rw [if_neg, bind_some]
      · have h := ih (k := k) (p := p ++ [c]) (x := x) (l := l)
          (fun h => hx (mem_cons_of_mem _ h)) hns (by simpa using hn) hcap
        rw [append_assoc, singleton_append, length_append,
          length_singleton] at h
        exact h
      · rintro (h | ⟨h, -⟩)
        · simp at h
        · rw [isSepAt_iff] at h
          simp [hc] at h

/-- Up from `from`, and down to `to`. -/
def wayTo (fs ts : List (List UInt8)) (hts : ∀ n ∈ ts, IsName n) : Trail dot true :=
  ⟨fs.length, ts, fun h => absurd h (by decide), fun n hn => (hts n hn).1⟩

section ToCommonPath

variable {cs fs ts : List (List UInt8)} {capacity : ℕ}

theorem text_wayTo (hts : ∀ n ∈ ts, IsName n) :
    (wayTo fs ts hts).text sep_posix =
      if ts = [] then upText fs.length
      else if fs = [] then [sep_posix].intercalate ts
      else upText fs.length ++ sep_posix :: [sep_posix].intercalate ts := by
  have hcm : (wayTo fs ts hts).components = List.replicate fs.length [dot, dot] ++ ts := rfl
  rw [Trail.text, hcm]
  by_cases ht : ts = []
  · rw [if_pos ht, ht, append_nil, upText]
  · rw [if_neg ht]
    by_cases hf : fs = []
    · rw [if_pos hf, hf]
      rfl
    · rw [if_neg hf, Trail.intercalate_append sep_posix (by simpa using hf) ht, upText]

theorem lastIndexOfChar_folderText (cs : List (List UInt8)) :
    lastIndexOfChar (folderText cs) sep_posix = some ((folderText cs).length - 1) := by
  obtain ⟨l, c, h⟩ := (eq_nil_or_concat' (folderText cs)).resolve_left (by
    cases cs <;> simp [folderText])
  have hc := getLast?_folderText cs
  rw [h, getLast?_append_of_ne_nil _ (by simp), getLast?_singleton,
    some.injEq] at hc
  rw [h, hc, lastIndexOfChar]
  simp [findIdx?_cons]

theorem length_folderText_pos (cs : List (List UInt8)) : 0 < (folderText cs).length := by
  cases cs <;> simp [folderText]

theorem length_pathText (cs : List (List UInt8)) (hcs : cs ≠ []) :
    (pathText cs).length + 1 = (folderText cs).length := by
  rw [← pathText_concat_sep hcs, length_append, length_singleton]

theorem drop_pathText (cs : List (List UInt8)) {ds : List (List UInt8)} (hds : ds ≠ []) :
    (pathText (cs ++ ds)).drop ((folderText cs).length - 1) =
      sep_posix :: [sep_posix].intercalate ds := by
  obtain ⟨l, c, h⟩ := (eq_nil_or_concat' (folderText cs)).resolve_left (by
    cases cs <;> simp [folderText])
  have hc := getLast?_folderText cs
  rw [h, getLast?_append_of_ne_nil _ (by simp), getLast?_singleton,
    some.injEq] at hc
  rw [pathText_append cs hds, h, hc]
  simp

theorem length_lt_pathText (cs : List (List UInt8)) (hfs : ∀ n ∈ fs, IsName n) :
    (folderText cs).length < (pathText (cs ++ fs)).length ↔ fs ≠ [] := by
  constructor
  · rintro h rfl
    rw [append_nil] at h
    by_cases hcs : cs = []
    · simp [hcs, folderText, pathText] at h
    · have := length_pathText cs hcs
      omega
  · intro hne
    rw [pathText_append cs hne, length_append]
    obtain ⟨n, ns, rfl⟩ := exists_cons_of_ne_nil hne
    have hpos := length_pos_iff.2 (hfs n mem_cons_self).ne_nil
    rcases ns with _ | ⟨m, ns⟩
    · simpa using hpos
    · rw [intercalate_cons_cons]
      simp

theorem dotDots_from (hfs : ∀ n ∈ fs, IsName n) (hcap : (upText fs.length).length ≤ capacity) :
    dotDots capacity (pathText (cs ++ fs)) ((pathText (cs ++ fs)).length + 1)
      (2 + ((folderText cs).length - 1)) [] = some (upText fs.length) := by
  have hpos := length_folderText_pos cs
  by_cases hf : fs = []
  · have hle := mt (length_lt_pathText cs hfs).1 (not_not.2 hf)
    rw [dotDots, if_neg (by omega), hf]
    rfl
  · obtain ⟨n, ns, rfl⟩ := exists_cons_of_ne_nil hf
    have hn := hfs n mem_cons_self
    obtain ⟨c, x, rfl⟩ := exists_cons_of_ne_nil hn.ne_nil
    have hcn : [sep_posix].intercalate ((c :: x) :: ns) =
        c :: [sep_posix].intercalate (x :: ns) := by
      rcases ns with _ | ⟨m, ns⟩ <;> simp
    have h := dotDots_eq capacity (n := (pathText (cs ++ (c :: x) :: ns)).length + 1)
      (k := 0) (p := folderText cs ++ [c]) (x := x) (l := ns)
      (fun h => hn.2 (mem_cons_of_mem _ h)) (fun m hm => hfs m (mem_cons_of_mem _ hm))
      (by
        rw [pathText_append cs hf, hcn, length_append, length_cons]
        omega)
      (by rwa [Nat.zero_add])
    rw [append_assoc, singleton_append, ← hcn, ← pathText_append cs hf,
      length_append, length_singleton, Nat.zero_add] at h
    rw [show 2 + ((folderText cs).length - 1) = (folderText cs).length + 1 by omega]
    exact h

theorem tailOf_eq (hfs : ∀ n ∈ fs, IsName n) (ht : ts ≠ []) :
    tailOf ((folderText cs).length - 1) (pathText (cs ++ fs)) (pathText (cs ++ ts)) =
      if fs = [] then [sep_posix].intercalate ts
      else sep_posix :: [sep_posix].intercalate ts := by
  have hpos := length_folderText_pos cs
  rw [tailOf, drop_pathText cs ht]
  by_cases hf : fs = []
  · rw [if_pos hf, if_pos, tail_cons]
    refine ⟨by simp [pathText], ?_, rfl⟩
    rw [hf, append_nil]
    by_cases hcs : cs = []
    · exact .inr (by rw [hcs]; rfl)
    · exact .inl (by rw [← length_pathText cs hcs, Nat.add_sub_cancel])
  · have hlen := (length_lt_pathText cs hfs).2 hf
    rw [if_neg hf, if_neg]
    rintro ⟨-, h, -⟩
    omega

theorem putTail_nil (tail : List UInt8) : putTail capacity [] tail = put capacity [] tail := by
  simp [putTail]

theorem putTail_sep (out_slice l : List UInt8) :
    putTail capacity out_slice (sep_posix :: l) = put capacity out_slice (sep_posix :: l) := by
  have hhd : isSepAt (sep_posix :: l) 0 = true := rfl
  simp [putTail, hhd]

theorem appendTail_eq (hfs : ∀ n ∈ fs, IsName n) (hts : ∀ n ∈ ts, IsName n)
    (hcap : ((wayTo fs ts hts).text sep_posix).length ≤ capacity) :
    appendTail capacity ((folderText cs).length - 1) (pathText (cs ++ fs)) (pathText (cs ++ ts))
      (upText fs.length) = some ((wayTo fs ts hts).text sep_posix) := by
  have hpos := length_folderText_pos cs
  have hlt := length_lt_pathText cs hts
  rw [text_wayTo hts] at hcap ⊢
  rw [appendTail, Nat.sub_add_cancel hpos]
  by_cases ht : ts = []
  · rw [if_neg (by rwa [hlt, not_not]), if_pos ht]
  rw [if_neg ht] at hcap ⊢
  rw [if_pos (hlt.2 ht), tailOf_eq hfs ht]
  by_cases hf : fs = []
  · rw [if_pos hf] at hcap ⊢
    rw [if_pos hf, hf]
    refine (putTail_nil _).trans ?_
    rw [put, if_pos (by simpa using hcap), nil_append]
  · rw [if_neg hf] at hcap ⊢
    rw [if_neg hf, putTail_sep, put, if_pos (by simpa using hcap)]

/-- The way from one path to the other, behind what they have in common. -/
theorem relativeToCommonPath_eq (hcs : ∀ n ∈ cs, IsName n) (hfs : ∀ n ∈ fs, IsName n)
    (hts : ∀ n ∈ ts, IsName n) (hcap : ((wayTo fs ts hts).text sep_posix).length ≤ capacity)
    (always_copy : Bool) :
    relativeToCommonPath (folderText cs) (pathText (cs ++ fs)) (pathText (cs ++ ts)) capacity
      always_copy = some ((wayTo fs ts hts).text sep_posix) := by
  have hpos := length_folderText_pos cs
  have hsepD : isSepAt (folderText cs) 0 = true := by cases cs <;> rfl
  have hsepF : isSepAt (pathText (cs ++ fs)) 0 = true := rfl
  have hposF : 0 < (pathText (cs ++ fs)).length := by simp [pathText]
  have hposT : 0 < (pathText (cs ++ ts)).length := by simp [pathText]
  have hup : (upText fs.length).length ≤ capacity := by
    refine le_trans ?_ hcap
    rw [text_wayTo hts]
    split_ifs with ht hf
    · exact le_rfl
    · rw [hf]
      exact Nat.zero_le _
    · rw [length_append]
      exact Nat.le_add_right _ _
  have hls := Trail.getLast?_text (t := wayTo fs ts hts) dot_ne_sep
    fun n hn => (hts n hn).2
  simp only [relativeToCommonPath, hsepD, if_true, length_tail, hsepF,
    lastIndexOfChar_folderText, getD_some, Nat.reduceAdd]
  rw [if_neg (by omega), if_neg ?_, if_pos hposF, dotDots_from hfs hup, bind_some,
    appendTail_eq hfs hts hcap, map_some, if_neg]
  · -- no trailing separator to drop
    rintro ⟨-, hsep⟩
    rw [isSepAt_iff, ← getLast?_eq_getElem?] at hsep
    exact hls hsep
  · -- before the common path's last byte there is a name
    rintro ⟨⟨hlen, hle⟩, hsep⟩
    have hne : cs ≠ [] := by
      rintro rfl
      have hrt : (folderText []).length = 1 := rfl
      omega
    have hpre : pathText cs <+: pathText (cs ++ ts) := by
      by_cases ht : ts = []
      · rw [ht, append_nil]
      · rw [pathText_append cs ht, ← pathText_concat_sep hne, append_assoc]
        exact prefix_append _ _
    have hlen' := length_pathText cs hne
    have hlt : (pathText cs).length - 1 < (pathText cs).length := by simp [pathText]
    obtain ⟨t, ht⟩ := hpre
    have hcsl := Trail.getLast?_text (t := wayTo [] cs hcs) dot_ne_sep
      fun n hn => (hcs n hn).2
    rw [text_wayTo hcs, if_neg hne, if_pos rfl] at hcsl
    rw [isSepAt_iff, ← ht, show (folderText cs).length - 1 - 1 = (pathText cs).length - 1 by omega,
      getElem?_append_left hlt, ← getLast?_eq_getElem?, pathText,
      getLast?_cons] at hsep
    rcases hl : ([sep_posix].intercalate cs).getLast? with _ | c
    · have hnil : (wayTo [] cs hcs).text sep_posix = [] := by
        rw [text_wayTo hcs, if_neg hne, if_pos rfl]
        exact getLast?_eq_none_iff.1 hl
      rw [Trail.text_eq_nil] at hnil
      exact hne hnil
    · rw [hl] at hsep hcsl
      exact hcsl hsep

end ToCommonPath

/-- A relative path against a directory, normalized. -/
def resolve (folder rel buf : List UInt8) : Option (List UInt8) :=
  (normalizeStringGenericTZ {} (folder ++ sep_posix :: rel) buf).map fun r => sep_posix :: r.1

theorem trail_pathText (hns : ∀ n ∈ ns, IsName n) :
    trail false (pathText ns) = Trail.down ns fun n hn => (hns n hn).1 := by
  have h := Trail.follow_splitOn_text
    (t := (Trail.down ns fun n hn => (hns n hn).1 : Trail dot false)) dot_ne_sep
    fun n hn => (hns n hn).2
  rw [← h, trail, pathText, Trail.follow_splitOn_sep]
  rfl

theorem pathText_inj {ms : List (List UInt8)} (hns : ∀ n ∈ ns, IsName n)
    (hms : ∀ n ∈ ms, IsName n) (h : pathText ns = pathText ms) : ns = ms := by
  have htr := congrArg (trail false) h
  rw [trail_pathText hns, trail_pathText hms] at htr
  exact congrArg Trail.names htr

theorem normalized_wayTo (hfs : ∀ n ∈ cs ++ fs, IsName n)
    (hts : ∀ n ∈ ts, IsName n) :
    sep_posix :: normalized {} (pathText (cs ++ fs) ++
      sep_posix :: (wayTo fs ts hts).text sep_posix) = pathText (cs ++ ts) := by
  have htr : trail false (pathText (cs ++ fs) ++
      sep_posix :: (wayTo fs ts hts).text sep_posix) =
      ((Trail.down (cs ++ fs) fun n hn => (hfs n hn).1 : Trail dot false).follow
        (List.replicate fs.length [dot, dot])).follow ts := by
    rw [trail_append_sep, trail_pathText hfs,
      Trail.follow_splitOn dot_ne_sep fun n hn => (hts n hn).2, ← Trail.follow_append]
    rfl
  have hdw := Trail.follow_dots (k := fs.length)
    (t := (Trail.down (cs ++ fs) fun n hn => (hfs n hn).1 : Trail dot false))
    (by simp [Trail.down])
  have hnm := (Trail.follow_names
    (t := (Trail.down (cs ++ fs) fun n hn => (hfs n hn).1 : Trail dot false).follow
      (List.replicate fs.length [dot, dot])) fun n hn => (hts n hn).1).2
  have hups := (trail false (pathText (cs ++ fs) ++
      sep_posix :: (wayTo fs ts hts).text sep_posix)).floor rfl
  rw [← htr, hdw.2, Trail.down] at hnm
  simp only [length_append, Nat.add_sub_cancel, take_left] at hnm
  rw [normalized, if_neg (by simp), Trail.text, Trail.components, hups, hnm]
  rfl

/-- Between any two normalized paths there is one relative path, which a buffer that holds it is
enough for; it leads from the one back to the other, and is empty where they are the same. -/
theorem relativeNormalizedBuf_leads_back (from_ to_ : List UInt8) (hfrom : IsNormalized from_)
    (hto : IsNormalized to_) :
    ∃ rel, (∀ capacity always_copy, rel.length ≤ capacity →
        relativeNormalizedBuf capacity from_ to_ always_copy = some rel) ∧
      (∀ buf : List UInt8, from_.length + 1 + rel.length ≤ buf.length →
        resolve from_ rel buf = some to_) ∧
      (rel = [] ↔ from_ = to_) := by
  obtain ⟨fs, rfl, hfs⟩ := exists_names hfrom
  obtain ⟨ts, rfl, hts⟩ := exists_names hto
  obtain ⟨cs, fs, ts, rfl, rfl, hX⟩ := exists_parting fs ts
  have hcs' : ∀ n ∈ cs, IsName n := fun n hn => hfs n (mem_append_left _ hn)
  have hfs' : ∀ n ∈ fs, IsName n := fun n hn => hfs n (mem_append_right _ hn)
  have hts' : ∀ n ∈ ts, IsName n := fun n hn => hts n (mem_append_right _ hn)
  have hnil : (wayTo fs ts hts').text sep_posix = [] ↔ fs = [] ∧ ts = [] := by
    rw [Trail.text_eq_nil, Trail.components, append_eq_nil_iff, replicate_eq_nil_iff]
    exact and_congr length_eq_zero_iff Iff.rfl
  have hsame : pathText (cs ++ fs) = pathText (cs ++ ts) ↔ fs = [] ∧ ts = [] := by
    constructor
    · intro h
      have heq := pathText_inj hfs hts h
      have hle := (hX _ prefix_rfl (heq ▸ prefix_rfl)).length_le
      rw [length_append] at hle
      have hf : fs = [] := length_eq_zero_iff.1 (by omega)
      exact ⟨hf, (append_cancel_left heq).symm.trans hf⟩
    · rintro ⟨rfl, rfl⟩
      rfl
  refine ⟨(wayTo fs ts hts').text sep_posix, fun capacity always_copy hcap => ?_,
    fun buf hbuf => ?_, hnil.trans hsame.symm⟩
  · rw [relativeNormalizedBuf]
    split_ifs with heq
    · rw [hnil.2 (hsame.1 heq.2)]
    · have hne : fs ≠ [] ∨ ts ≠ [] := by
        by_contra h
        push Not at h
        exact heq (by rw [h.1, h.2]; exact ⟨rfl, rfl⟩)
      rw [longestCommonPathGeneric_names hfs hts hX hne, bind_some,
        relativeToCommonPath_eq hcs' hfs' hts' hcap]
  · obtain ⟨buf', hnorm, -⟩ := normalizeStringGenericTZ_eq {}
      (pathText (cs ++ fs) ++ sep_posix :: (wayTo fs ts hts').text sep_posix) buf
      (by simp [slack] at hbuf ⊢; omega)
    rw [resolve, hnorm, map_some, normalized_wayTo hfs hts']

/-- From `/a/b` to `/a/bc`. -/
theorem relativeNormalizedBuf_leads_back_sibling :
    ∃ rel, (∀ buf : List UInt8, 5 + rel.length ≤ buf.length →
      resolve [47, 97, 47, 98] rel buf = some [47, 97, 47, 98, 99]) ∧ rel ≠ [] := by
  obtain ⟨rel, -, hback, hnil⟩ := relativeNormalizedBuf_leads_back [47, 97, 47, 98]
    [47, 97, 47, 98, 99] (by decide) (by decide)
  exact ⟨rel, hback, fun h => absurd (hnil.1 h) (by decide)⟩

end Cruller.Paths
