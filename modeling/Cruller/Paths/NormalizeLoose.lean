import Cruller.Paths.Normalized

/-!
# Normalizing with other separators

`normalizeStringGenericT` is given its separators: what it writes between components is the posix
separator, but what it reads as one is up to `isSeparator`. `normalizeStringBuf` reads a backslash
as one as well, on posix and loose platforms alike.

To the pass a separator is a separator, so a path is read as the one where every separator is the
one that is written (`unify`). The written part of the buffer never holds another one (`Plain`),
and going back in it stops at the same places (`normalizeStringGenericT_eq`). Only the trailing
separator is told apart: it is kept if it is the one that is written.
-/

namespace Cruller.Paths

open List Option

section By

variable (isSeparator : UInt8 → Bool)

/-- `while (buf_i > dotdot and !options.isSeparator(buf[buf_i])) buf_i -= 1` -/
def backtrackBy (buf : List UInt8) (dotdot : ℕ) : ℕ → Option ℕ
  | 0 => some 0
  | i + 1 =>
    if dotdot < i + 1 then
      (buf[i + 1]?).bind fun c => if isSeparator c then some (i + 1) else backtrackBy buf dotdot i
    else some (i + 1)

def endsAtBy (path : List UInt8) (i : ℕ) : Bool :=
  i == path.length || (path[i]?).any isSeparator

/-- A `..` goes back to the separator before, or is written where there is nothing to go back to. -/
def dotDotElementBy (options : NormalizeOptions) (s : Pass) : Option Pass :=
  if s.dotdot < s.buf_i then
    (backtrackBy isSeparator s.buf s.dotdot (s.buf_i - 1)).map fun i => { s with buf_i := i }
  else if options.allow_above_root then
    if 0 < s.buf_i then
      (memcpy s.buf s.buf_i [sep_posix, dot, dot]).map fun buf =>
        { s with buf, buf_i := s.buf_i + 3, dotdot := s.buf_i + 3 }
    else
      (memcpy s.buf s.buf_i [dot, dot]).map fun buf =>
        { s with buf, buf_i := s.buf_i + 2, dotdot := s.buf_i + 2 }
  else some s

def addSlashBy (s : Pass) : Option Pass :=
  if s.buf_i = 0 then some s
  else
    (s.buf[s.buf_i - 1]?).bind fun c =>
      if isSeparator c then some s
      else (memcpy s.buf s.buf_i [sep_posix]).map fun buf => { s with buf, buf_i := s.buf_i + 1 }

def elementBy (path : List UInt8) (s : Pass) : Option Pass :=
  (addSlashBy isSeparator s).bind fun s =>
    let name := (path.drop s.r).takeWhile fun c => !isSeparator c
    (memcpy s.buf s.buf_i name).map fun buf =>
      { s with buf, r := s.r + name.length, buf_i := s.buf_i + name.length }

/-- One component of the path. -/
def passStepBy (options : NormalizeOptions) (path : List UInt8) (s : Pass) : Option Pass :=
  (path[s.r]?).bind fun c =>
    if isSeparator c then some { s with r := s.r + 1 }
    else if c = dot ∧ endsAtBy isSeparator path (s.r + 1) then some { s with r := s.r + 1 }
    else if isDotDot (path.drop s.r) ∧ endsAtBy isSeparator path (s.r + 2) then
      dotDotElementBy isSeparator options { s with r := s.r + 2 }
    else elementBy isSeparator path s

def passBy (options : NormalizeOptions) (path : List UInt8) : ℕ → Pass → Option Pass
  | 0, _ => none
  | n + 1, s =>
    if s.r < path.length then
      (passStepBy isSeparator options path s).bind (passBy options path n)
    else some s

/-- `normalizeStringGenericT` with the posix separator. -/
def normalizeStringGenericT (options : NormalizeOptions) (path buf : List UInt8) :
    Option (List UInt8 × List UInt8) :=
  (passBy isSeparator options path (path.length + 1) ⟨0, 0, 0, buf⟩).bind fun s =>
    (trailingSlash options path s).bind fun s =>
      (zeroTerminate options s).map fun s => (s.buf.take s.buf_i, s.buf)

end By

/-- `normalizeStringBuf` on posix and on loose platforms. -/
def normalizeStringBuf (str buf : List UInt8) (allow_above_root preserve_trailing_slash : Bool) :
    Option (List UInt8 × List UInt8) :=
  normalizeStringGenericT isSepAny { allow_above_root, preserve_trailing_slash } str buf

def unify (isSeparator : UInt8 → Bool) (c : UInt8) : UInt8 :=
  if isSeparator c then sep_posix else c

section Unify

variable {isSeparator : UInt8 → Bool}

theorem isSepPosix_unify (hsep : isSeparator sep_posix = true) (c : UInt8) :
    isSepPosix (unify isSeparator c) = isSeparator c := by
  rw [unify]
  split_ifs with h
  · simp [isSepPosix, h]
  · have hne : c ≠ sep_posix := by
      rintro rfl
      exact h hsep
    simp [isSepPosix, hne, h]

theorem unify_eq_dot (hdot : isSeparator dot = false) (c : UInt8) :
    unify isSeparator c = dot ↔ c = dot := by
  rw [unify]
  split_ifs with h
  · refine ⟨fun heq => absurd heq.symm dot_ne_sep, ?_⟩
    rintro rfl
    simp [hdot] at h
  · rfl

theorem endsAt_unify (hsep : isSeparator sep_posix = true) (path : List UInt8) (i : ℕ) :
    endsAt (path.map (unify isSeparator)) i = endsAtBy isSeparator path i := by
  rw [endsAt, endsAtBy, length_map, getElem?_map]
  rcases path[i]? with _ | c
  · rfl
  · simp [isSepPosix_unify hsep]

theorem isDotDot_unify (hdot : isSeparator dot = false) :
    ∀ path : List UInt8, isDotDot (path.map (unify isSeparator)) = isDotDot path
  | [] => rfl
  | [c] => by simp [isDotDot]
  | c :: d :: path => by
    rw [Bool.eq_iff_iff]
    simp [isDotDot, unify_eq_dot hdot]

theorem takeWhile_unify (hsep : isSeparator sep_posix = true) :
    ∀ path : List UInt8, (path.map (unify isSeparator)).takeWhile (fun c => !isSepPosix c) =
      path.takeWhile fun c => !isSeparator c
  | [] => rfl
  | c :: path => by
    by_cases hc : isSeparator c = true
    · simp [isSepPosix_unify hsep, hc]
    · have hkp : unify isSeparator c = c := if_neg hc
      rw [map_cons, takeWhile_cons_of_pos (by simp [isSepPosix_unify hsep, hc]),
        takeWhile_cons_of_pos (by simp [hc]), takeWhile_unify hsep path, hkp]

/-- What has been written holds no separator but the one that is written. -/
structure Plain (isSeparator : UInt8 → Bool) (s : Pass) : Prop where
  fits : s.buf_i ≤ s.buf.length
  plain : ∀ c ∈ s.buf.take s.buf_i, isSeparator c = isSepPosix c

theorem Plain.get {s : Pass} (h : Plain isSeparator s) {i : ℕ} (hi : i < s.buf_i) :
    ∃ c, s.buf[i]? = some c ∧ isSeparator c = isSepPosix c := by
  have hlt : i < s.buf.length := hi.trans_le h.fits
  refine ⟨s.buf[i], getElem?_eq_getElem hlt, h.plain _ (mem_of_getElem? (i := i) ?_)⟩
  rw [getElem?_take, if_pos hi, getElem?_eq_getElem hlt]

theorem Plain.shorter {s : Pass} (h : Plain isSeparator s) (r dotdot : ℕ) {i : ℕ}
    (hi : i ≤ s.buf_i) :
    Plain isSeparator ⟨r, i, dotdot, s.buf⟩ :=
  ⟨hi.trans h.fits, fun c hc => h.plain c (take_subset_take_left s.buf hi hc)⟩

theorem Plain.write {s : Pass} (h : Plain isSeparator s) {src buf : List UInt8} {r dotdot : ℕ}
    (hbuf : memcpy s.buf s.buf_i src = some buf)
    (hsrc : ∀ c ∈ src, isSeparator c = isSepPosix c) :
    Plain isSeparator ⟨r, s.buf_i + src.length, dotdot, buf⟩ := by
  by_cases hfit : s.buf_i + src.length ≤ s.buf.length
  · obtain ⟨buf', hbuf', hsz, htk⟩ := memcpy_append src (x := s.buf.take s.buf_i) rfl hfit
    obtain rfl : buf' = buf := some.inj (hbuf'.symm.trans hbuf)
    refine ⟨hfit.trans hsz.ge, fun c hc => ?_⟩
    change c ∈ buf'.take (s.buf_i + src.length) at hc
    rw [htk] at hc
    rcases mem_append.1 hc with hc | hc
    · exact h.plain c hc
    · exact hsrc c hc
  · rw [memcpy, if_neg hfit] at hbuf
    cases hbuf

theorem backtrack_le {buf : List UInt8} {dotdot : ℕ} :
    ∀ {i j : ℕ}, backtrack buf dotdot i = some j → j ≤ i
  | 0, j, h => by
    rw [backtrack] at h
    simp_all
  | i + 1, j, h => by
    rw [backtrack] at h
    split_ifs at h with hlt
    · rcases hc : buf[i + 1]? with _ | c
      · simp [hc] at h
      · rw [hc, bind_some] at h
        split_ifs at h
        · exact (some.inj h).ge
        · exact (backtrack_le h).trans (Nat.le_succ i)
    · exact (some.inj h).ge

theorem backtrackBy_eq {s : Pass} (h : Plain isSeparator s) :
    ∀ {i : ℕ}, i < s.buf_i → backtrackBy isSeparator s.buf s.dotdot i = backtrack s.buf s.dotdot i
  | 0, _ => rfl
  | i + 1, hi => by
    rw [backtrackBy, backtrack]
    obtain ⟨c, hc, hpl⟩ := h.get hi
    rw [hc, bind_some, bind_some, hpl, backtrackBy_eq h (Nat.lt_of_succ_lt hi)]

variable {options : NormalizeOptions} {path : List UInt8} {s s' : Pass}

theorem dotDotElementBy_eq (h : Plain isSeparator s) :
    dotDotElementBy isSeparator options s = dotDotElement options s := by
  rw [dotDotElementBy, dotDotElement]
  by_cases hlt : s.dotdot < s.buf_i
  · rw [if_pos hlt, if_pos hlt, backtrackBy_eq h (by omega)]
  · rw [if_neg hlt, if_neg hlt]

theorem Plain.dotDotElement (hsep : isSeparator sep_posix = true) (hdot : isSeparator dot = false)
    (h : Plain isSeparator s) (hs : dotDotElement options s = some s') : Plain isSeparator s' := by
  have hdt : ∀ c ∈ [sep_posix, dot, dot], isSeparator c = isSepPosix c := by
    simp [hsep, hdot, isSepPosix, dot_ne_sep]
  rw [Paths.dotDotElement] at hs
  split_ifs at hs with hlt hab hpos
  · obtain ⟨i, hi, rfl⟩ := map_eq_some_iff.1 hs
    exact h.shorter _ _ ((backtrack_le hi).trans (Nat.sub_le _ _))
  · obtain ⟨buf, hbuf, rfl⟩ := map_eq_some_iff.1 hs
    exact h.write hbuf hdt
  · obtain ⟨buf, hbuf, rfl⟩ := map_eq_some_iff.1 hs
    exact h.write hbuf fun c hc => hdt c (mem_cons_of_mem _ hc)
  · rwa [← some.inj hs]

theorem addSlashBy_eq (h : Plain isSeparator s) : addSlashBy isSeparator s = addSlash s := by
  rw [addSlashBy, addSlash]
  by_cases h0 : s.buf_i = 0
  · rw [if_pos h0, if_pos h0]
  · rw [if_neg h0, if_neg h0]
    obtain ⟨c, hc, hpl⟩ := h.get (i := s.buf_i - 1) (by omega)
    rw [hc, bind_some, bind_some, hpl]

theorem Plain.addSlash (hsep : isSeparator sep_posix = true) (h : Plain isSeparator s)
    (hs : addSlash s = some s') : Plain isSeparator s' ∧ s'.r = s.r := by
  rw [Paths.addSlash] at hs
  split_ifs at hs with h0
  · obtain rfl := some.inj hs
    exact ⟨h, rfl⟩
  · obtain ⟨c, -, hs⟩ := bind_eq_some_iff.1 hs
    split_ifs at hs
    · obtain rfl := some.inj hs
      exact ⟨h, rfl⟩
    · obtain ⟨buf, hbuf, rfl⟩ := map_eq_some_iff.1 hs
      exact ⟨h.write hbuf (by simp [hsep, isSepPosix]), rfl⟩

theorem elementBy_eq (hsep : isSeparator sep_posix = true) (h : Plain isSeparator s) :
    elementBy isSeparator path s = element (path.map (unify isSeparator)) s := by
  rw [elementBy, element, addSlashBy_eq h]
  congr 1
  funext s₁
  rw [← map_drop, takeWhile_unify hsep]

theorem Plain.element (hsep : isSeparator sep_posix = true) (h : Plain isSeparator s)
    (hs : elementBy isSeparator path s = some s') : Plain isSeparator s' := by
  rw [elementBy, addSlashBy_eq h] at hs
  obtain ⟨s₁, hs₁, hs⟩ := bind_eq_some_iff.1 hs
  obtain ⟨buf, hbuf, rfl⟩ := map_eq_some_iff.1 hs
  refine (h.addSlash hsep hs₁).1.write hbuf fun c hc => ?_
  have hall := all_takeWhile (p := fun c => !isSeparator c) (l := path.drop s₁.r)
  rw [List.all_eq_true] at hall
  have hfr : isSeparator c = false := by simpa using hall c hc
  have hne : c ≠ sep_posix := by
    rintro rfl
    simp [hsep] at hfr
  simp [hfr, isSepPosix, hne]

theorem passStepBy_eq (hsep : isSeparator sep_posix = true) (hdot : isSeparator dot = false)
    (options : NormalizeOptions) (path : List UInt8) {s : Pass} (h : Plain isSeparator s) :
    passStepBy isSeparator options path s =
        passStep options (path.map (unify isSeparator)) s ∧
      ∀ s', passStepBy isSeparator options path s = some s' → Plain isSeparator s' := by
  rw [passStepBy, passStep, getElem?_map]
  rcases path[s.r]? with _ | c
  · simp
  simp only [map_some, bind_some, isSepPosix_unify hsep, endsAt_unify hsep,
    ← map_drop, isDotDot_unify hdot, unify_eq_dot hdot, ← elementBy_eq hsep h,
    dotDotElementBy_eq (h.shorter (s.r + 2) s.dotdot le_rfl)]
  refine ⟨trivial, fun s' hs => ?_⟩
  split_ifs at hs
  · obtain rfl := some.inj hs
    exact h.shorter _ _ le_rfl
  · obtain rfl := some.inj hs
    exact h.shorter _ _ le_rfl
  · exact (h.shorter (s.r + 2) s.dotdot le_rfl).dotDotElement hsep hdot hs
  · exact h.element hsep hs

theorem passBy_eq (hsep : isSeparator sep_posix = true) (hdot : isSeparator dot = false) :
    ∀ {n : ℕ} {s : Pass}, Plain isSeparator s →
      passBy isSeparator options path n s = pass options (path.map (unify isSeparator)) n s
  | 0, _, _ => rfl
  | n + 1, s, h => by
    obtain ⟨hst, hpl⟩ := passStepBy_eq hsep hdot options path h
    rw [passBy, pass, length_map, ← hst]
    by_cases hr : s.r < path.length
    · rw [if_pos hr, if_pos hr]
      rcases hs : passStepBy isSeparator options path s with _ | s₁
      · rfl
      · simp [passBy_eq hsep hdot (hpl s₁ hs)]
    · rw [if_neg hr, if_neg hr]

/-- The trailing separator that is kept is the one that is written. -/
def keeps (options : NormalizeOptions) (path : List UInt8) : NormalizeOptions :=
  { options with
    preserve_trailing_slash :=
      options.preserve_trailing_slash && path.getLast? == some sep_posix }

theorem pass_keeps (path' : List UInt8) :
    ∀ (n : ℕ) (s : Pass), pass (keeps options path') path n s = pass options path n s
  | 0, _ => rfl
  | n + 1, s => by
    rw [pass, pass]
    split_ifs
    · exact congrArg _ (funext (pass_keeps path' n))
    · rfl

theorem trailingSlash_eq (hsep : isSeparator sep_posix = true) (h : Plain isSeparator s)
    (hpt : path ≠ []) :
    trailingSlash options path s =
      trailingSlash (keeps options path) (path.map (unify isSeparator)) s := by
  have hun : unify isSeparator sep_posix = sep_posix := if_pos hsep
  obtain ⟨c, hls⟩ : ∃ c, path.getLast? = some c :=
    ⟨_, getLast?_eq_some_getLast hpt⟩
  rw [trailingSlash, trailingSlash, keeps, length_map, getElem?_map,
    ← getLast?_eq_getElem?, hls]
  by_cases hc : c = sep_posix
  · simp [hc, hun]
  · rcases Nat.eq_zero_or_pos s.buf_i with h0 | h0
    · simp [h0]
    · obtain ⟨d, hd, -⟩ := h.get (i := s.buf_i - 1) (by omega)
      simp [hc, hd]

theorem Plain.pass (hsep : isSeparator sep_posix = true) (hdot : isSeparator dot = false) :
    ∀ {n : ℕ} {s : Pass}, Plain isSeparator s →
      ∀ s', passBy isSeparator options path n s = some s' → Plain isSeparator s'
  | 0, _, _, _, hs => by cases hs
  | n + 1, s, h, s', hs => by
    rw [passBy] at hs
    split_ifs at hs with hr
    · obtain ⟨s₁, hs₁, hs⟩ := bind_eq_some_iff.1 hs
      exact Plain.pass hsep hdot ((passStepBy_eq hsep hdot options path h).2 s₁ hs₁) s' hs
    · rwa [← some.inj hs]

/-- Normalizing with these separators is normalizing the unified path. -/
theorem normalizeStringGenericT_eq (hsep : isSeparator sep_posix = true)
    (hdot : isSeparator dot = false) (options : NormalizeOptions) (path buf : List UInt8) :
    normalizeStringGenericT isSeparator options path buf =
      normalizeStringGenericTZ (keeps options path) (path.map (unify isSeparator)) buf := by
  have hpl : Plain isSeparator ⟨0, 0, 0, buf⟩ := ⟨Nat.zero_le _, by simp⟩
  have hkp : zeroTerminate (keeps options path) = zeroTerminate options := rfl
  rw [normalizeStringGenericT, normalizeStringGenericTZ, length_map, pass_keeps, hkp,
    ← passBy_eq hsep hdot hpl]
  by_cases hpt : path = []
  · subst hpt
    simp [passBy, trailingSlash]
  · rcases hs : passBy isSeparator options path (path.length + 1) ⟨0, 0, 0, buf⟩ with _ | s
    · rfl
    · simp [trailingSlash_eq hsep (hpl.pass hsep hdot s hs) hpt]

end Unify

/-- What `normalizeStringBuf` leaves of a path. -/
def looseNormalized (allow_above_root preserve_trailing_slash : Bool) (path : List UInt8) :
    List UInt8 :=
  normalized (keeps { allow_above_root, preserve_trailing_slash } path)
    (path.map (unify isSepAny))

section Loose

variable {str buf : List UInt8} {allow_above_root preserve_trailing_slash : Bool}

theorem normalizeStringBuf_eq (allow_above_root preserve_trailing_slash : Bool)
    (h : str.length ≤ buf.length) :
    ∃ buf', normalizeStringBuf str buf allow_above_root preserve_trailing_slash =
      some (looseNormalized allow_above_root preserve_trailing_slash str, buf') := by
  obtain ⟨buf', hbuf, -⟩ := normalizeStringGenericTZ_eq
    (keeps { allow_above_root, preserve_trailing_slash } str) (str.map (unify isSepAny)) buf
    (by simpa [slack, keeps] using h)
  refine ⟨buf', ?_⟩
  rw [normalizeStringBuf, normalizeStringGenericT_eq (by decide) (by decide)]
  exact hbuf

theorem normalizeStringBuf_some {out buf' : List UInt8}
    (h : normalizeStringBuf str buf allow_above_root preserve_trailing_slash = some (out, buf')) :
    out = looseNormalized allow_above_root preserve_trailing_slash str ∧
      buf'.take out.length = out ∧ buf'.length = buf.length := by
  rw [normalizeStringBuf, normalizeStringGenericT_eq (by decide) (by decide)] at h
  exact normalizeStringGenericTZ_some h

theorem normalized_looseNormalized :
    normalized { allow_above_root, preserve_trailing_slash := true }
        (looseNormalized allow_above_root preserve_trailing_slash str) =
      looseNormalized allow_above_root preserve_trailing_slash str :=
  normalized_preserve (keeps { allow_above_root, preserve_trailing_slash } str) _

theorem not_mem_looseNormalized :
    sep_windows ∉ looseNormalized false preserve_trailing_slash str := by
  have hne : sep_windows ≠ sep_posix := by decide
  have hun : sep_windows ∉ str.map (unify isSepAny) := by
    intro hmem
    obtain ⟨c, -, hc⟩ := List.mem_map.1 hmem
    rw [unify] at hc
    split_ifs at hc with hsep
    · exact hne hc.symm
    · rw [hc] at hsep
      exact hsep (by decide)
  have hns : ∀ name ∈ (trail false (str.map (unify isSepAny))).names, sep_windows ∉ name :=
    Trail.not_mem_of_follow (by simp [Trail.here]) fun _ hnm hmem =>
      hun (mem_of_mem_splitOn hnm hmem)
  have htx : sep_windows ∉ (trail false (str.map (unify isSepAny))).text sep_posix := by
    intro hmem
    obtain ⟨name, hnm, hmem⟩ := exists_of_mem_intercalate hne hmem
    rw [Trail.components, Trail.floor _ rfl, replicate_zero, nil_append] at hnm
    exact hns name hnm hmem
  rw [looseNormalized, normalized]
  split_ifs
  · intro hmem
    rcases mem_append.1 hmem with h | h
    · exact htx h
    · exact hne (mem_singleton.1 h)
  · exact htx

end Loose

end Cruller.Paths
