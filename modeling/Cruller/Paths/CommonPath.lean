import Mathlib.Data.List.DropRight
import Cruller.Paths.Normalized

/-!
# The longest common path

`longestCommonPathGeneric` and `getIfExistsLongestCommonPathGeneric` for posix paths. Two to eight
paths are compared side by side, byte by byte (`unrolledLoop`); more are each compared with the
first (`generalLoop`). Where the comparison stops, the paths that go on are asked for a separator.

The side by side comparison stops behind the longest byte string that all paths begin with
(`CommonPrefix`), so what both functions make of it is a matter of that string and of what follows
it in any path, and not of the order of the paths.
-/

namespace Cruller.Paths

open List Option

/-- What the comparing loops keep; `null` is an early return of null. -/
structure Scan where
  index : ℕ
  last_common_separator : Option ℕ
  null : Bool

/-- `isPathSeparator(str[index])`, where the string goes on that far -/
def isSepAt (str : List UInt8) (index : ℕ) : Bool := (str[index]?).any isSepPosix

def nqlAtIndex (first : List UInt8) (rest : List (List UInt8)) (index : ℕ) : Bool :=
  rest.any fun str => first[index]? != str[index]?

def minLength (input : List (List UInt8)) : ℕ :=
  (input.map List.length).min?.getD (2 ^ 64 - 1)

/-- Two to eight strings: `while (index < min_length) : (index += 1)`, for `n` rounds at most. -/
def unrolledLoop (ifExists : Bool) (first : List UInt8) (rest : List (List UInt8))
    (min_length : ℕ) : ℕ → Scan → Scan
  | 0, s => s
  | n + 1, s =>
    if s.index < min_length then
      if nqlAtIndex first rest s.index then
        { s with null := ifExists && s.last_common_separator.isNone }
      else unrolledLoop ifExists first rest min_length n
        { s with
          index := s.index + 1
          last_common_separator :=
            if isSepAt first s.index then some s.index else s.last_common_separator }
    else s

/-- More strings: one of them against the first, from where the last one stopped. The second
component is whether they differ there. -/
def innerLoop (first str : List UInt8) (min_length : ℕ) : ℕ → ℕ → ℕ × Bool
  | 0, index => (index, false)
  | n + 1, index =>
    if index < min_length then
      if first[index]? ≠ str[index]? then (index, true)
      else innerLoop first str min_length n (index + 1)
    else (index, false)

/-- More strings than eight; `none` is an index below 0. -/
def generalLoop (ifExists : Bool) (first : List UInt8) (min_length : ℕ) :
    List (List UInt8) → Scan → Option Scan
  | [], s => some s
  | str :: rest, s =>
    let (index, differs) := innerLoop first str min_length min_length s.index
    if ifExists ∧ differs ∧ s.last_common_separator = none then
      some { s with index, null := true }
    else if index = min_length ∧ index = 0 then none
    else
      let index := if index = min_length then index - 1 else index
      generalLoop ifExists first min_length rest
        { s with
          index
          last_common_separator :=
            if isSepAt first index then some index else s.last_common_separator }

/-- How far the paths agree, and the last separator before that. -/
def scan (ifExists : Bool) (first : List UInt8) (rest : List (List UInt8)) : Option Scan :=
  let min_length := minLength (first :: rest)
  if rest.length + 1 ≤ 8 then
    some (unrolledLoop ifExists first rest min_length min_length ⟨0, none, false⟩)
  else generalLoop ifExists first min_length rest ⟨0, none, false⟩

/-- The last string that has a separator at the index, if every string that goes on has one. -/
def folderAt (index : ℕ) : List (List UInt8) → Option (List UInt8) → Option (List UInt8)
  | [], idx => idx
  | str :: rest, idx =>
    if index < str.length then
      if isSepAt str index then folderAt index rest (some str) else none
    else folderAt index rest idx

/-- A single path is its own common path. -/
def longestCommonPathGeneric : List (List UInt8) → Option (List UInt8)
  | [] => some []
  | [path] => some path
  | first :: rest =>
    (scan false first rest).map fun s =>
      if s.index = 0 then [sep_posix]
      else
        match folderAt s.index (first :: rest) none with
        | some str => str.take (s.index + 1)
        | none => first.take (s.last_common_separator.getD 0 + 1)

/-- The inner `none` is null. -/
def getIfExistsLongestCommonPathGeneric : List (List UInt8) → Option (Option (List UInt8))
  | [] => some (some [])
  | [path] => some (some path)
  | first :: rest =>
    (scan true first rest).map fun s =>
      if s.null then none
      else if s.index = 0 then some [sep_posix]
      else
        match s.last_common_separator with
        | none => some [dot]
        | some last =>
          match (first :: rest).find? fun str => isSepAt str s.index with
          | some str => some (str.take (s.index + 1))
          | none => some (first.take (last + 1))

/-- The longest byte string that all paths begin with. -/
structure CommonPrefix (input : List (List UInt8)) (C : List UInt8) : Prop where
  common : ∀ p ∈ input, C <+: p
  longest : ∀ C', (∀ p ∈ input, C' <+: p) → C'.length ≤ C.length

/-- A byte string up to its last separator. -/
def folder (C : List UInt8) : List UInt8 := C.rdropWhile fun c => c != sep_posix

theorem folder_concat (C : List UInt8) (c : UInt8) :
    folder (C ++ [c]) = if c = sep_posix then C ++ [c] else folder C := by
  rw [folder, rdropWhile_concat]
  by_cases h : c = sep_posix <;> simp [h, folder]

theorem isSepAt_iff {str : List UInt8} {i : ℕ} : isSepAt str i = true ↔ str[i]? = some sep_posix := by
  rw [isSepAt, Option.any_eq_true]
  constructor
  · rintro ⟨c, hc, hsep⟩
    rw [hc, show c = sep_posix by simpa [isSepPosix] using hsep]
  · exact fun h => ⟨_, h, by simp [isSepPosix]⟩

theorem concat_isPrefix {C p : List UInt8} {c : UInt8} (h : C <+: p)
    (hc : p[C.length]? = some c) : C ++ [c] <+: p := by
  obtain ⟨t, rfl⟩ := h
  rw [getElem?_append_right le_rfl, Nat.sub_self] at hc
  cases t with
  | nil => cases hc
  | cons d t =>
    obtain rfl : d = c := some.inj hc
    exact ⟨t, by simp⟩

theorem minLength_eq (first : List UInt8) (rest : List (List UInt8)) :
    (∃ p ∈ first :: rest, p.length = minLength (first :: rest)) ∧
      ∀ p ∈ first :: rest, minLength (first :: rest) ≤ p.length := by
  rcases h : ((first :: rest).map List.length).min? with _ | m
  · simp at h
  · have hm : minLength (first :: rest) = m := by rw [minLength, h, getD_some]
    rw [min?_eq_some_iff] at h
    rw [hm]
    refine ⟨?_, fun p hp => h.2 _ (List.mem_map_of_mem hp)⟩
    obtain ⟨p, hp, hlen⟩ := List.mem_map.1 h.1
    exact ⟨p, hp, hlen⟩

section Unrolled

variable {first : List UInt8} {rest : List (List UInt8)}

/-- The bytes compared so far are common to all, and the last separator among them is kept. -/
structure Agreed (first : List UInt8) (rest : List (List UInt8)) (s : Scan) (C : List UInt8) :
    Prop where
  index_eq : s.index = C.length
  common : ∀ p ∈ first :: rest, C <+: p
  unseparated : s.last_common_separator = none → folder C = []
  separated : ∀ l, s.last_common_separator = some l → first.take (l + 1) = folder C

/-- All paths have the same byte here. -/
theorem Agreed.step {s : Scan} {C : List UInt8} (h : Agreed first rest s C) {c : UInt8}
    (hc : first[s.index]? = some c) (hall : ∀ p ∈ rest, p[s.index]? = first[s.index]?) :
    Agreed first rest
      { s with
        index := s.index + 1
        last_common_separator :=
          if isSepAt first s.index then some s.index else s.last_common_separator }
      (C ++ [c]) := by
  have hcm : ∀ p ∈ first :: rest, C ++ [c] <+: p := by
    intro p hp
    refine concat_isPrefix (h.common p hp) ?_
    rw [← h.index_eq]
    rcases mem_cons.1 hp with rfl | hp
    · exact hc
    · rw [hall p hp, hc]
  have hsep : isSepAt first s.index = true ↔ c = sep_posix := by
    rw [isSepAt_iff, hc, some.injEq]
  refine ⟨by simp [h.index_eq], hcm, fun hno => ?_, fun l hl => ?_⟩
  · rw [folder_concat]
    by_cases hs : isSepAt first s.index = true
    · rw [if_pos hs] at hno
      cases hno
    · rw [if_neg hs] at hno
      rw [if_neg (mt hsep.2 hs)]
      exact h.unseparated hno
  · rw [folder_concat]
    by_cases hs : isSepAt first s.index = true
    · rw [if_pos hs, some.injEq] at hl
      rw [if_pos (hsep.1 hs), ← hl, h.index_eq]
      have hpre := prefix_iff_eq_take.1 (hcm first mem_cons_self)
      rw [length_append, length_singleton] at hpre
      exact hpre.symm
    · rw [if_neg hs] at hl
      rw [if_neg (mt hsep.2 hs)]
      exact h.separated l hl

/-- The loop finds how far the paths agree. -/
theorem Agreed.loop (ifExists : Bool) {m : ℕ} (hm : m = minLength (first :: rest)) :
    ∀ {n : ℕ} {s : Scan} {C : List UInt8}, Agreed first rest s C → s.null = false →
      m ≤ s.index + n →
      ∃ C', Agreed first rest (unrolledLoop ifExists first rest m n s) C' ∧
        CommonPrefix (first :: rest) C' ∧
        ((unrolledLoop ifExists first rest m n s).null = true → folder C' = []) := by
  intro n
  have hst : ∀ {s : Scan} {C : List UInt8}, Agreed first rest s C → m ≤ s.index →
      CommonPrefix (first :: rest) C := by
    intro s C h hle
    refine ⟨h.common, fun C' hC' => ?_⟩
    obtain ⟨p, hp, hlen⟩ := (minLength_eq first rest).1
    have := (hC' p hp).length_le
    have := h.index_eq
    omega
  induction n with
  | zero =>
    intro s C h hnl hle
    exact ⟨C, h, hst h hle, fun h => absurd h (by simp [unrolledLoop, hnl])⟩
  | succ n ih =>
    intro s C h hnl hle
    rw [unrolledLoop]
    by_cases hlt : s.index < m
    · have hget : ∀ p ∈ first :: rest, ∃ c, p[s.index]? = some c := fun p hp => by
        have := (minLength_eq first rest).2 p hp
        exact ⟨p[s.index], getElem?_eq_getElem (by omega)⟩
      rw [if_pos hlt]
      by_cases hn : nqlAtIndex first rest s.index = true
      · rw [if_pos hn]
        refine ⟨C, ⟨h.index_eq, h.common, h.unseparated, h.separated⟩,
          ⟨h.common, fun C' hC' => ?_⟩, fun hno => ?_⟩
        · by_contra hlen
          obtain ⟨str, hstr, hne⟩ := List.any_eq_true.1 hn
          have heq : ∀ p ∈ first :: rest, p[s.index]? = C'[s.index]? := fun p hp => by
            obtain ⟨t, rfl⟩ := hC' p hp
            rw [getElem?_append_left]
            have := h.index_eq
            omega
          rw [heq first mem_cons_self, heq str (mem_cons_of_mem _ hstr)] at hne
          simp at hne
        · rw [Bool.and_eq_true, isNone_iff_eq_none] at hno
          exact h.unseparated hno.2
      · rw [if_neg hn]
        obtain ⟨c, hc⟩ := hget first mem_cons_self
        have hall : ∀ p ∈ rest, p[s.index]? = first[s.index]? := fun p hp => by
          by_contra hne
          exact hn (List.any_eq_true.2 ⟨p, hp, by simpa using Ne.symm hne⟩)
        exact ih (h.step hc hall) hnl (by change m ≤ s.index + 1 + n; omega)
    · rw [if_neg hlt]
      exact ⟨C, h, hst h (not_lt.1 hlt), fun h => absurd h (by simp [hnl])⟩

end Unrolled

section

variable {input : List (List UInt8)} {C : List UInt8}

theorem CommonPrefix.unique {C' : List UInt8} (h : CommonPrefix input C)
    (h' : CommonPrefix input C') (hne : input ≠ []) : C = C' := by
  obtain ⟨p, hp⟩ := exists_mem_of_ne_nil input hne
  have hlen : C.length = C'.length := le_antisymm (h'.longest C h.common) (h.longest C' h'.common)
  rw [prefix_iff_eq_take.1 (h.common p hp), prefix_iff_eq_take.1 (h'.common p hp), hlen]

theorem exists_commonPrefix (input : List (List UInt8)) (hne : input ≠ []) :
    ∃ C, CommonPrefix input C := by
  obtain ⟨first, rest, rfl⟩ := exists_cons_of_ne_nil hne
  have hst : Agreed first rest ⟨0, none, false⟩ [] :=
    ⟨rfl, fun p _ => nil_prefix, fun _ => rfl, by simp⟩
  obtain ⟨C, -, hC, -⟩ := hst.loop false rfl rfl (Nat.le_add_left _ _)
  exact ⟨C, hC⟩

theorem CommonPrefix.perm {input' : List (List UInt8)} (h : CommonPrefix input C)
    (hpr : input.Perm input') : CommonPrefix input' C :=
  ⟨fun p hp => h.common p (hpr.mem_iff.2 hp),
    fun C' hC' => h.longest C' fun p hp => hC' p (hpr.mem_iff.1 hp)⟩

theorem take_of_isSepAt {str : List UInt8} (hpre : C <+: str)
    (hsep : isSepAt str C.length = true) : str.take (C.length + 1) = C ++ [sep_posix] := by
  have h := prefix_iff_eq_take.1 (concat_isPrefix hpre (isSepAt_iff.1 hsep))
  rw [length_append, length_singleton] at h
  exact h.symm

theorem folderAt_none {i : ℕ} : ∀ {input : List (List UInt8)} {idx : Option (List UInt8)},
    (∃ p ∈ input, i < p.length ∧ isSepAt p i = false) → folderAt i input idx = none
  | [], _, h => by simp at h
  | str :: rest, idx, ⟨p, hp, hlt, hsep⟩ => by
    rw [folderAt]
    rcases mem_cons.1 hp with rfl | hp
    · rw [if_pos hlt, if_neg (by simp [hsep])]
    · split_ifs
      · exact folderAt_none ⟨p, hp, hlt, hsep⟩
      · rfl
      · exact folderAt_none ⟨p, hp, hlt, hsep⟩

theorem folderAt_all {i : ℕ} : ∀ {input : List (List UInt8)} (idx : Option (List UInt8)),
    (∀ p ∈ input, i < p.length → isSepAt p i = true) →
      (folderAt i input idx = idx ∧ ∀ p ∈ input, isSepAt p i = false) ∨
      ∃ p ∈ input, isSepAt p i = true ∧ folderAt i input idx = some p
  | [], idx, _ => .inl ⟨rfl, by simp⟩
  | str :: rest, idx, h => by
    have hrs : ∀ p ∈ rest, i < p.length → isSepAt p i = true := fun p hp =>
      h p (mem_cons_of_mem _ hp)
    rw [folderAt]
    by_cases hlt : i < str.length
    · have hsep := h str mem_cons_self hlt
      rw [if_pos hlt, if_pos hsep]
      rcases folderAt_all (some str) hrs with ⟨heq, -⟩ | ⟨p, hp, hps, heq⟩
      · exact .inr ⟨str, mem_cons_self, hsep, heq⟩
      · exact .inr ⟨p, mem_cons_of_mem _ hp, hps, heq⟩
    · rw [if_neg hlt]
      have hno : isSepAt str i = false := by
        rw [isSepAt, getElem?_eq_none (not_lt.1 hlt)]
        rfl
      rcases folderAt_all idx hrs with ⟨heq, hall⟩ | ⟨p, hp, hps, heq⟩
      · exact .inl ⟨heq, forall_mem_cons.2 ⟨hno, hall⟩⟩
      · exact .inr ⟨p, mem_cons_of_mem _ hp, hps, heq⟩

/-- Every path that goes on behind `C` goes on with a separator, and some path does. -/
def Below (input : List (List UInt8)) (C : List UInt8) : Prop :=
  (∀ p ∈ input, C.length < p.length → isSepAt p C.length = true) ∧
    ∃ p ∈ input, isSepAt p C.length = true

/-- Some path goes on behind `C` with a separator. -/
def Continued (input : List (List UInt8)) (C : List UInt8) : Prop :=
  ∃ p ∈ input, isSepAt p C.length = true

instance : Decidable (Below input C) :=
  inferInstanceAs (Decidable ((∀ p ∈ input, C.length < p.length → isSepAt p C.length = true) ∧
    ∃ p ∈ input, isSepAt p C.length = true))

instance : Decidable (Continued input C) :=
  inferInstanceAs (Decidable (∃ p ∈ input, isSepAt p C.length = true))

theorem CommonPrefix.ne_nil (h : CommonPrefix input C)
    (habs : ∀ p ∈ input, p.head? = some sep_posix) (hne : input ≠ []) :
    C ≠ [] ∧ folder C ≠ [] := by
  obtain ⟨p, hp⟩ := exists_mem_of_ne_nil input hne
  have hlen := h.longest [sep_posix] fun q hq => by
    obtain ⟨t, rfl⟩ := head?_eq_some_iff.1 (habs q hq)
    exact ⟨t, rfl⟩
  have hC : C ≠ [] := by
    rintro rfl
    simp at hlen
  refine ⟨hC, fun hnil => ?_⟩
  rw [folder, rdropWhile_eq_nil_iff] at hnil
  obtain ⟨c, cs, rfl⟩ := exists_cons_of_ne_nil hC
  obtain ⟨t, rfl⟩ := h.common p hp
  have hc := habs _ hp
  rw [cons_append, head?_cons, some.injEq] at hc
  have := hnil c mem_cons_self
  simp [hc] at this

/-- What both functions make of the bytes that two to eight paths have in common. -/
theorem longestCommonPathGeneric_eq (h : CommonPrefix input C)
    (habs : ∀ p ∈ input, p.head? = some sep_posix) (htwo : 2 ≤ input.length)
    (heg : input.length ≤ 8) :
    longestCommonPathGeneric input =
        some (if Below input C then C ++ [sep_posix] else folder C) ∧
      getIfExistsLongestCommonPathGeneric input =
        some (some (if Continued input C then C ++ [sep_posix] else folder C)) := by
  obtain ⟨first, second, rest, rfl⟩ : ∃ first second rest, input = first :: second :: rest := by
    rcases input with _ | ⟨first, _ | ⟨second, rest⟩⟩
    · simp at htwo
    · simp at htwo
    · exact ⟨first, second, rest, rfl⟩
  have hne : first :: second :: rest ≠ [] := by simp
  obtain ⟨hC, hfl⟩ := h.ne_nil habs hne
  have hst : Agreed first (second :: rest) ⟨0, none, false⟩ [] :=
    ⟨rfl, fun p _ => nil_prefix, fun _ => rfl, by simp⟩
  have hsc : ∀ ifExists, ∃ s l, scan ifExists first (second :: rest) = some s ∧
      s.index = C.length ∧ s.null = false ∧ s.last_common_separator = some l ∧
      first.take (l + 1) = folder C := by
    intro ifExists
    obtain ⟨C', hag, hpr, hnl⟩ :=
      hst.loop ifExists rfl rfl (Nat.le_add_left _ _)
    obtain rfl := hpr.unique h hne
    rcases hl : (unrolledLoop ifExists first (second :: rest) (minLength (first :: second :: rest))
      (minLength (first :: second :: rest)) ⟨0, none, false⟩).last_common_separator with _ | l
    · exact absurd (hag.unseparated hl) hfl
    · refine ⟨_, l, if_pos heg, hag.index_eq, ?_, hl, hag.separated l hl⟩
      by_contra hn
      exact hfl (hnl (by simpa using hn))
  have hpos : C.length ≠ 0 := fun h0 => hC (length_eq_zero_iff.1 h0)
  refine ⟨?_, ?_⟩
  · obtain ⟨s, l, hs, hin, -, hls, htk⟩ := hsc false
    change (scan false first (second :: rest)).map _ = _
    rw [hs, map_some, hin, if_neg hpos, hls,
      getD_some, htk]
    by_cases hall : ∀ p ∈ first :: second :: rest, C.length < p.length → isSepAt p C.length = true
    · rcases folderAt_all none hall with ⟨heq, hno⟩ | ⟨p, hp, hsep, heq⟩
      · rw [heq, if_neg]
        rintro ⟨-, p, hp, hsep⟩
        simp [hno p hp] at hsep
      · rw [heq, if_pos ⟨hall, p, hp, hsep⟩]
        exact congrArg some (take_of_isSepAt (h.common p hp) hsep)
    · rw [if_neg fun hb => hall hb.1, folderAt_none]
      push Not at hall
      obtain ⟨p, hp, hlt, hsep⟩ := hall
      exact ⟨p, hp, hlt, by simpa using hsep⟩
  · obtain ⟨s, l, hs, hin, hnl, hls, htk⟩ := hsc true
    change (scan true first (second :: rest)).map _ = _
    rw [hs, map_some, hnl, hin, if_neg (by simp), if_neg hpos, hls]
    simp only [htk]
    rcases hf : (first :: second :: rest).find? (fun str => isSepAt str C.length) with _ | str
    · rw [if_neg]
      rintro ⟨p, hp, hsep⟩
      rw [find?_eq_none] at hf
      exact hf p hp hsep
    · have hsep := find?_some hf
      have hmem := mem_of_find?_eq_some hf
      rw [if_pos ⟨str, hmem, hsep⟩]
      simp only
      rw [take_of_isSepAt (h.common str hmem) hsep]

end

/-- A directory that all paths are, or lie in, and that one of them shows to be one. -/
structure IsCommonDirectory (input : List (List UInt8)) (D : List UInt8) : Prop where
  terminated : D.getLast? = some sep_posix
  common : ∀ p ∈ input, D <+: p ++ [sep_posix]
  listed : ∃ p ∈ input, D <+: p

/-- No common directory is longer. -/
def IsLongestCommonDirectory (input : List (List UInt8)) (D : List UInt8) : Prop :=
  IsCommonDirectory input D ∧ ∀ D', IsCommonDirectory input D' → D'.length ≤ D.length

/-- Behind the bytes common to all, one path has a separator and another something else. -/
def Straddles (input : List (List UInt8)) : Prop :=
  ∃ C, (∀ p ∈ input, C <+: p) ∧ (∃ p ∈ input, C ++ [sep_posix] <+: p) ∧
    ∃ q ∈ input, ∃ c ≠ sep_posix, C ++ [c] <+: q

section Directory

variable {input : List (List UInt8)} {C : List UInt8}

theorem folder_isPrefix (C : List UInt8) : folder C <+: C := rdropWhile_prefix _ _

variable {D : List UInt8}

theorem length_le_folder (hD : D.getLast? = some sep_posix) :
    ∀ {C : List UInt8}, D <+: C → D.length ≤ (folder C).length := by
  intro C
  induction C using List.reverseRecOn with
  | nil => exact fun h => h.length_le
  | append_singleton C c ih =>
    intro h
    rw [folder_concat]
    rcases prefix_concat_iff.1 h with rfl | h
    · rw [if_pos (by simpa using hD)]
    · split_ifs
      · exact (prefix_concat_iff.2 (.inr h)).length_le
      · exact ih h

theorem IsCommonDirectory.isPrefix {p : List UInt8} (h : IsCommonDirectory input D) (hp : p ∈ input)
    (hlen : D.length ≤ p.length) : D <+: p :=
  prefix_of_prefix_length_le (h.common p hp) (prefix_append _ _) hlen

theorem CommonPrefix.length_le (h : CommonPrefix input C)
    (hD : IsCommonDirectory input D) : D.length ≤ C.length + 1 := by
  by_contra hlt
  have hcm : ∀ p ∈ input, D.take (C.length + 1) <+: p := fun p hp => by
    have hle := (hD.common p hp).length_le
    rw [length_append, length_singleton] at hle
    exact prefix_of_prefix_length_le ((List.take_prefix _ _).trans (hD.common p hp))
      (prefix_append _ _) (by rw [List.length_take]; omega)
  have := h.longest _ hcm
  rw [List.length_take] at this
  omega

theorem CommonPrefix.below (h : CommonPrefix input C) (hb : Below input C) :
    IsLongestCommonDirectory input (C ++ [sep_posix]) := by
  obtain ⟨hall, q, hq, hqs⟩ := hb
  refine ⟨⟨by simp, fun p hp => ?_, q, hq, concat_isPrefix (h.common q hq) (isSepAt_iff.1 hqs)⟩,
    fun D hD => by simpa using h.length_le hD⟩
  by_cases hlt : C.length < p.length
  · exact (concat_isPrefix (h.common p hp) (isSepAt_iff.1 (hall p hp hlt))).trans
      (prefix_append _ _)
  · rw [(h.common p hp).eq_of_length_le (not_lt.1 hlt)]

theorem CommonPrefix.not_below (h : CommonPrefix input C) (hne : input ≠ [])
    (hfl : folder C ≠ []) (hb : ¬ Below input C) :
    IsLongestCommonDirectory input (folder C) := by
  obtain ⟨q, hq⟩ := exists_mem_of_ne_nil input hne
  refine ⟨⟨?_, fun p hp => ?_, q, hq, (folder_isPrefix C).trans (h.common q hq)⟩, fun D hD => ?_⟩
  · have hls := rdropWhile_last_not (fun c => c != sep_posix) C hfl
    rw [bne_iff_ne, not_not] at hls
    exact (getLast?_eq_some_getLast hfl).trans (congrArg some hls)
  · exact ((folder_isPrefix C).trans (h.common p hp)).trans (prefix_append _ _)
  · obtain ⟨r, hr, hDr⟩ := hD.listed
    have hle := h.length_le hD
    by_cases hlen : D.length ≤ C.length
    · exact length_le_folder hD.terminated
        (prefix_of_prefix_length_le hDr (h.common r hr) hlen)
    · -- then `D` is `C` and a separator, which every path that goes on goes on with
      have hsep : ∀ p ∈ input, D <+: p → isSepAt p C.length = true := by
        rintro p - ⟨t, rfl⟩
        have hls := hD.terminated
        rw [getLast?_eq_getElem?, show D.length - 1 = C.length by omega] at hls
        rw [isSepAt_iff, getElem?_append_left (by omega), hls]
      exact absurd ⟨fun p hp hlt => hsep p hp (hD.isPrefix hp (by omega)), r, hr, hsep r hr hDr⟩ hb

theorem exists_longestCommonDirectory (hne : input ≠ [])
    (habs : ∀ p ∈ input, p.head? = some sep_posix) (htwo : 2 ≤ input.length)
    (heg : input.length ≤ 8) :
    ∃ D, longestCommonPathGeneric input = some D ∧ IsLongestCommonDirectory input D := by
  obtain ⟨C, hC⟩ := exists_commonPrefix input hne
  refine ⟨_, (longestCommonPathGeneric_eq hC habs htwo heg).1, ?_⟩
  split_ifs with hb
  · exact hC.below hb
  · exact hC.not_below hne (hC.ne_nil habs hne).2 hb

/-- One to eight absolute paths, in any order: one is its own answer, and of more the answer is the
longest common directory. Only where the paths straddle one may `getIfExists` name another. -/
theorem longestCommonPath_directory (input : List (List UInt8)) (hne : input ≠ [])
    (habs : ∀ p ∈ input, p.head? = some sep_posix) (height : input.length ≤ 8) :
    (∀ path, input = [path] → longestCommonPathGeneric input = some path ∧
      getIfExistsLongestCommonPathGeneric input = some (some path)) ∧
    (2 ≤ input.length → ∃ D, longestCommonPathGeneric input = some D ∧
      IsLongestCommonDirectory input D ∧
      (¬ Straddles input → getIfExistsLongestCommonPathGeneric input = some (some D))) ∧
    ∀ input', input.Perm input' →
      longestCommonPathGeneric input' = longestCommonPathGeneric input ∧
        getIfExistsLongestCommonPathGeneric input' =
          getIfExistsLongestCommonPathGeneric input := by
  obtain ⟨C, hC⟩ := exists_commonPrefix input hne
  refine ⟨?_, fun htwo => ?_, fun input' hperm => ?_⟩
  · rintro path rfl
    exact ⟨rfl, rfl⟩
  · obtain ⟨D, hD, hlongest⟩ := exists_longestCommonDirectory hne habs htwo height
    obtain ⟨hlong, hexists⟩ := longestCommonPathGeneric_eq hC habs htwo height
    refine ⟨D, hD, hlongest, fun hs => ?_⟩
    · have hiff : Continued input C ↔ Below input C := by
        refine ⟨fun hcont => ⟨fun q hq hlt => ?_, hcont⟩, fun hb => hb.2⟩
        by_contra hsep
        obtain ⟨p, hp, hpsep⟩ := hcont
        have hget := getElem?_eq_getElem hlt
        refine hs ⟨C, hC.common, ⟨p, hp, concat_isPrefix (hC.common p hp) (isSepAt_iff.1 hpsep)⟩,
          q, hq, _, fun heq => hsep ?_, concat_isPrefix (hC.common q hq) hget⟩
        rw [isSepAt_iff, hget, heq]
      rw [← hD, hlong, hexists]
      simp only [hiff]
  · by_cases htwo : 2 ≤ input.length
    · have habs' : ∀ p ∈ input', p.head? = some sep_posix := fun p hp =>
        habs p (hperm.mem_iff.2 hp)
      have hlen := hperm.length_eq
      obtain ⟨hlong, hexists⟩ := longestCommonPathGeneric_eq hC habs htwo height
      obtain ⟨hlong', hexists'⟩ :=
        longestCommonPathGeneric_eq (hC.perm hperm) habs' (hlen ▸ htwo) (hlen ▸ height)
      have hbelow : Below input' C ↔ Below input C := by
        simp only [Below, hperm.mem_iff]
      have hcont : Continued input' C ↔ Continued input C := by
        simp only [Continued, hperm.mem_iff]
      simp only [hlong, hlong', hexists, hexists', hbelow, hcont, and_self]
    · obtain ⟨path, rfl⟩ : ∃ path, input = [path] := by
        rcases input with _ | ⟨path, _ | ⟨q, rest⟩⟩
        · exact absurd rfl hne
        · exact ⟨path, rfl⟩
        · simp at htwo
      rw [← perm_singleton.1 hperm.symm]
      exact ⟨rfl, rfl⟩

/-- `/a/b/c` lies in `/a/b`, and `/a/bd` does not. -/
theorem longestCommonPath_directory_three :
    ∃ D, longestCommonPathGeneric [[47, 97, 47, 98, 47, 99], [47, 97, 47, 98, 100],
        [47, 97, 47, 98]] = some D ∧
      IsLongestCommonDirectory [[47, 97, 47, 98, 47, 99], [47, 97, 47, 98, 100],
        [47, 97, 47, 98]] D := by
  obtain ⟨-, h, -⟩ := longestCommonPath_directory [[47, 97, 47, 98, 47, 99], [47, 97, 47, 98, 100],
    [47, 97, 47, 98]] (by simp) (by decide) (by decide)
  obtain ⟨D, hD, hlong, -⟩ := h (by decide)
  exact ⟨D, hD, hlong⟩

/-- A path by itself is returned without a separator behind it. -/
theorem longestCommonPath_single :
    IsNormalized [47, 97, 47, 98] ∧
      longestCommonPathGeneric [[47, 97, 47, 98]] = some [47, 97, 47, 98] ∧
      ¬ IsCommonDirectory [[47, 97, 47, 98]] [47, 97, 47, 98] :=
  ⟨by decide, rfl, fun h => absurd h.terminated (by decide)⟩

end Directory

end Cruller.Paths
