import Cruller.NodePath.Normalize
import Cruller.Paths.Relative

/-!
# Resolving paths, as Node does

`resolvePosixT` writes the paths in front of each other, the last one first, until one is absolute,
with the working directory in front of them all; what is written lies at the front of `buf2`. Then
it normalizes that into `buf`, and moves the result by a byte for the leading separator. A copy
reads its source before it writes, and a write outside its buffer is `none`.

Written out or not, resolving is following the paths one after the other, from the working directory
or from the last absolute one (`resolved`, `resolvePosixT_eq`).
-/

namespace Cruller.NodePath

open List Paths

/-- What resolving keeps of `buf2`: its front is the resolved path. -/
structure Resolving where
  resolvedPathLen : ℕ := 0
  resolvedAbsolute : Bool := false
  buf2 : List UInt8

/-- `resolvedPath = path + "/" + resolvedPath` -/
def Resolving.prepend (path : List UInt8) (s : Resolving) : Option Resolving :=
  if path.length = 0 then some s
  else
    (if 0 < s.resolvedPathLen then
        memcpy s.buf2 (path.length + 1) (s.buf2.take s.resolvedPathLen)
      else some s.buf2).bind fun buf2 =>
      (memcpy buf2 0 path).bind fun buf2 =>
        (memcpy buf2 path.length [sep_posix]).bind fun buf2 =>
          let bufSize := path.length + 1 + s.resolvedPathLen
          (memcpy buf2 bufSize [0]).map fun buf2 =>
            ⟨bufSize, path.head?.any isSepPosix, buf2⟩

variable {ε : Type*}

/-- `while (i > -2 and !resolvedAbsolute)`: the paths from the last to the first, and the working
directory. -/
def resolveLoop (posixCwd : Except ε (List UInt8)) :
    List (List UInt8) → Resolving → Option (Except ε Resolving)
  | [], s =>
    if s.resolvedAbsolute then some (.ok s)
    else
      match posixCwd with
      | .error e => some (.error e)
      | .ok path => (s.prepend path).map .ok
  | path :: paths, s =>
    if s.resolvedAbsolute then some (.ok s)
    else (s.prepend path).bind (resolveLoop posixCwd paths)

/-- The path, and the buffer it lies in. -/
structure Resolved where
  result : List UInt8
  buf : List UInt8
  buf2 : List UInt8

/-- Normalize the path into `buf`, behind a separator if it is absolute. -/
def Resolving.finish (s : Resolving) (buf : List UInt8) : Option Resolved :=
  if s.resolvedPathLen = 0 then some ⟨[dot], buf, s.buf2⟩
  else
    (normalizeStringT (s.buf2.take s.resolvedPathLen) (!s.resolvedAbsolute) buf).bind
      fun (resolvedPath, buf) =>
        if s.resolvedAbsolute then
          let bufSize := resolvedPath.length + 1
          (memcpy buf 1 resolvedPath).bind fun buf =>
            (memcpy buf 0 [sep_posix]).bind fun buf =>
              (memcpy buf bufSize [0]).map fun buf => ⟨buf.take bufSize, buf, s.buf2⟩
        else if 0 < resolvedPath.length then some ⟨resolvedPath, buf, s.buf2⟩
        else some ⟨[dot], buf, s.buf2⟩

/-- The paths from the last one on, up to an absolute one. -/
def resolvePosixT (posixCwd : Except ε (List UInt8)) (paths : List (List UInt8))
    (buf buf2 : List UInt8) : Option (Except ε Resolved) :=
  (resolveLoop posixCwd paths.reverse { buf2 }).bind fun
    | .error e => some (.error e)
    | .ok s => (s.finish buf).map .ok

/-- On from `t`, or over again from the root. -/
def onward (t : Trail dot false) (path : List UInt8) : Trail dot false :=
  if path.head? = some sep_posix then trail false path else t.follow (path.splitOn sep_posix)

/-- Where the paths lead from the working directory, one after the other. -/
def resolved (cwd : List UInt8) (paths : List (List UInt8)) : Trail dot false :=
  paths.foldl onward (trail false cwd)

theorem resolved_concat (cwd : List UInt8) (paths : List (List UInt8)) (path : List UInt8) :
    resolved cwd (paths ++ [path]) = onward (resolved cwd paths) path := foldl_append

theorem onward_nil (t : Trail dot false) : onward t [] = t := by
  rw [onward, if_neg (by simp), splitOn_nil, Trail.follow_cons, Trail.push_nil]
  rfl

theorem resolved_names (cwd : List UInt8) (paths : List (List UInt8)) :
    ∀ n ∈ (resolved cwd paths).names, IsName n := by
  refine fun n hn => ⟨(resolved cwd paths).proper n hn, ?_⟩
  induction paths using List.reverseRecOn generalizing n with
  | nil => exact trail_names n hn
  | append_singleton paths path ih =>
    rw [resolved_concat, onward] at hn
    split_ifs at hn
    · exact trail_names n hn
    · exact Trail.not_mem_of_follow ih (fun _ => not_mem_of_mem_splitOn) n hn

theorem memcpy_get (buf src : List UInt8) (i : ℕ) (h : i + src.length ≤ buf.length) :
    ∃ buf', memcpy buf i src = some buf' ∧ buf'.length = buf.length ∧
      ∀ k, buf'[k]? = if i ≤ k ∧ k < i + src.length then src[k - i]? else buf[k]? := by
  refine ⟨_, if_pos h, by simp; omega, fun k => ?_⟩
  rcases Nat.lt_or_ge k i with hk | hk
  · rw [if_neg (by omega), append_assoc, getElem?_append_left (by simp; omega),
      getElem?_take, if_pos hk]
  · rcases Nat.lt_or_ge k (i + src.length) with hk' | hk'
    · rw [if_pos ⟨hk, hk'⟩, getElem?_append_left (by simp; omega),
        getElem?_append_right (by simp; omega), List.length_take, Nat.min_eq_left (by omega)]
    · rw [if_neg (by omega), getElem?_append_right (by simp; omega), getElem?_drop]
      congr 1
      simp
      omega

/-- The front of `buf2`. -/
structure Holds (size : ℕ) (s : Resolving) (text : List UInt8) : Prop where
  size_eq : s.buf2.length = size
  written : s.buf2.take s.resolvedPathLen = text
  length_eq : s.resolvedPathLen = text.length
  absolute : s.resolvedAbsolute = text.head?.any isSepPosix

/-- A path goes in front of the text, with a slash between them. -/
theorem Holds.prepend {size : ℕ} {s : Resolving} {text path : List UInt8} (h : Holds size s text)
    (hpt : path ≠ []) (hfits : path.length + 1 + text.length < size) :
    ∃ s', s.prepend path = some s' ∧ Holds size s' (path ++ sep_posix :: text) := by
  obtain ⟨hsz, hwr, hlen, -⟩ := h
  have hpos : path.length ≠ 0 := mt length_eq_zero_iff.1 hpt
  rw [Resolving.prepend, if_neg hpos]
  obtain ⟨buf₁, hbuf₁, hsz₁, hget₁⟩ : ∃ buf₁,
      (if 0 < s.resolvedPathLen then
        memcpy s.buf2 (path.length + 1) (s.buf2.take s.resolvedPathLen) else some s.buf2) =
          some buf₁ ∧ buf₁.length = size ∧
        ∀ k < text.length, buf₁[path.length + 1 + k]? = text[k]? := by
    split_ifs with h0
    · obtain ⟨buf, hbuf, hbs, hget⟩ := memcpy_get s.buf2 text (path.length + 1)
        (by omega)
      rw [hwr]
      refine ⟨buf, hbuf, hbs.trans hsz, fun k hk => ?_⟩
      rw [hget, if_pos (by omega), Nat.add_sub_cancel_left]
    · exact ⟨s.buf2, rfl, hsz, fun k hk => by omega⟩
  obtain ⟨buf₂, hbuf₂, hsz₂, hget₂⟩ := memcpy_get buf₁ path 0 (by omega)
  obtain ⟨buf₃, hbuf₃, hsz₃, hget₃⟩ := memcpy_get buf₂ [sep_posix] path.length
    (by simp; omega)
  obtain ⟨buf₄, hbuf₄, hsz₄, hget₄⟩ := memcpy_get buf₃ [0]
    (path.length + 1 + s.resolvedPathLen) (by simp; omega)
  refine ⟨⟨path.length + 1 + s.resolvedPathLen, path.head?.any isSepPosix, buf₄⟩, ?_,
    ⟨by dsimp only; omega, ?_, by simp [hlen]; omega, ?_⟩⟩
  · simp [hbuf₁, hbuf₂, hbuf₃, hbuf₄]
  · refine ext_getElem? fun k => ?_
    dsimp only
    rw [getElem?_take]
    split_ifs with hk
    · rw [hget₄, if_neg (by omega), hget₃, length_singleton]
      rcases Nat.lt_trichotomy k path.length with hlt | rfl | hgt
      · rw [if_neg (by omega), hget₂, if_pos (by omega), getElem?_append_left hlt,
          Nat.sub_zero]
      · simp
      · obtain ⟨m, rfl⟩ : ∃ m, k = path.length + 1 + m := ⟨k - path.length - 1, by omega⟩
        rw [if_neg (by omega), hget₂, if_neg (by omega), hget₁ m (by omega),
          getElem?_append_right (by omega), Nat.add_assoc, Nat.add_sub_cancel_left,
          Nat.add_comm 1, getElem?_cons_succ]
    · simp
      omega
  · obtain ⟨c, path, rfl⟩ := exists_cons_of_ne_nil hpt
    rfl

/-- The bytes of the working directory and the paths, and a separator behind each. -/
def resolveTotal (cwd : List UInt8) (paths : List (List UInt8)) : ℕ :=
  cwd.length + 1 + (paths.map fun p => p.length + 1).sum

/-- The loop ends with an absolute path, which leads to where the paths lead and on. -/
theorem resolveLoop_eq {cwd : List UInt8} (habs : cwd.head? = some sep_posix) {size : ℕ} :
    ∀ (paths : List (List UInt8)) {s : Resolving} {text : List UInt8}, Holds size s text →
      resolveTotal cwd paths + text.length < size →
      ∃ s' text', resolveLoop (.ok cwd : Except ε (List UInt8)) paths s = some (.ok s') ∧
        Holds size s' text' ∧ text'.head? = some sep_posix ∧
        trail false text' = onward (resolved cwd paths.reverse) text ∧
        text'.length ≤ resolveTotal cwd paths + text.length
  | [], s, text, h, hfits => by
    rw [resolveLoop]
    have hcwd : cwd ≠ [] := by
      rintro rfl
      cases habs
    simp only [resolveTotal, map_nil, sum_nil, Nat.add_zero] at hfits ⊢
    by_cases htx : text.head? = some sep_posix
    · rw [if_pos (by rw [h.absolute, htx]; rfl), onward, if_pos htx]
      exact ⟨s, text, rfl, h, htx, rfl, by omega⟩
    · have hrel : ¬s.resolvedAbsolute = true := by
        rw [h.absolute, Option.any_eq_true]
        rintro ⟨c, hc, hsep⟩
        exact htx (by rw [hc, isSepPosix_iff.1 hsep])
      obtain ⟨s', hs', h'⟩ := h.prepend hcwd hfits
      rw [if_neg hrel, hs', onward, if_neg htx]
      refine ⟨s', _, rfl, h', ?_, trail_append_sep cwd text, by simp; omega⟩
      rw [head?_append_of_ne_nil _ hcwd, habs]
  | path :: paths, s, text, h, hfits => by
    rw [resolveLoop, reverse_cons, resolved_concat]
    simp only [resolveTotal, map_cons, sum_cons] at hfits ⊢
    by_cases htx : text.head? = some sep_posix
    · rw [if_pos (by rw [h.absolute, htx]; rfl), onward, if_pos htx]
      exact ⟨s, text, rfl, h, htx, rfl, by omega⟩
    · have hrel : ¬s.resolvedAbsolute = true := by
        rw [h.absolute, Option.any_eq_true]
        rintro ⟨c, hc, hsep⟩
        exact htx (by rw [hc, isSepPosix_iff.1 hsep])
      rw [if_neg hrel]
      by_cases hpt : path = []
      · subst hpt
        obtain ⟨s', text', hs', h', habs', htr, hle⟩ := resolveLoop_eq habs paths h
          (by simp only [resolveTotal]; simp only [length_nil] at hfits; omega)
        simp only [resolveTotal] at hle
        refine ⟨s', text', ?_, h', habs', by rw [htr, onward_nil], by omega⟩
        rw [Resolving.prepend, if_pos length_nil, Option.bind_some, hs']
      · obtain ⟨s₁, hs₁, h₁⟩ := h.prepend hpt (by omega)
        obtain ⟨s', text', hs', h', habs', htr, hle⟩ := resolveLoop_eq habs paths h₁
          (by simp only [resolveTotal, length_append, length_cons]; omega)
        simp only [resolveTotal, length_append, length_cons] at hle
        refine ⟨s', text', by rw [hs₁, Option.bind_some, hs'], h', habs', ?_, by omega⟩
        -- following `path/text` is following `path` and then `text`
        rw [htr, onward, onward, if_neg htx, onward, head?_append_of_ne_nil _ hpt]
        split_ifs
        · exact trail_append_sep path text
        · rw [splitOn_append_cons_self, Trail.follow_append]

/-- Resolving leads where the paths lead, in buffers that hold all of them. -/
theorem resolvePosixT_eq {cwd : List UInt8} (habs : cwd.head? = some sep_posix)
    (paths : List (List UInt8)) (buf buf2 : List UInt8)
    (hbuf : resolveTotal cwd paths + 2 ≤ buf.length) (hbuf2 : resolveTotal cwd paths < buf2.length) :
    ∃ buf' buf2', resolvePosixT (.ok cwd : Except ε (List UInt8)) paths buf buf2 =
        some (.ok ⟨pathText (resolved cwd paths).names, buf', buf2'⟩) ∧
      buf'.length = buf.length ∧ buf2'.length = buf2.length ∧
      buf'.take (pathText (resolved cwd paths).names).length =
        pathText (resolved cwd paths).names ∧
      (pathText (resolved cwd paths).names).length ≤ resolveTotal cwd paths + 1 := by
  have hst : Holds buf2.length { buf2 } [] := ⟨rfl, rfl, rfl, rfl⟩
  obtain ⟨s, text, hs, h, habs', htr, hle⟩ :=
    resolveLoop_eq (ε := ε) habs paths.reverse hst (by simpa [resolveTotal] using hbuf2)
  rw [reverse_reverse, onward_nil] at htr
  have htl : resolveTotal cwd paths.reverse = resolveTotal cwd paths := by simp [resolveTotal]
  rw [htl, length_nil, Nat.add_zero] at hle
  obtain ⟨buf₁, hnr, hsz₁, -, hsh⟩ := normalizeStringT_eq habs'
    (show text.length < buf.length by omega)
  rw [htr, text_of_names] at hnr hsh
  obtain ⟨buf₂, hbuf₂, hsz₂, hget₂⟩ := memcpy_get buf₁
    ([sep_posix].intercalate (resolved cwd paths).names) 1 (by omega)
  obtain ⟨buf₃, hbuf₃, hsz₃, hget₃⟩ := memcpy_get buf₂ [sep_posix] 0 (by simp; omega)
  obtain ⟨buf₄, hbuf₄, hsz₄, hget₄⟩ := memcpy_get buf₃ [0]
    (([sep_posix].intercalate (resolved cwd paths).names).length + 1) (by simp; omega)
  have htk : buf₄.take (([sep_posix].intercalate (resolved cwd paths).names).length + 1) =
      pathText (resolved cwd paths).names := by
    refine ext_getElem? fun k => ?_
    rw [getElem?_take, pathText]
    split_ifs with hk
    · rw [hget₄, if_neg (by omega), hget₃]
      rcases k with _ | k
      · rfl
      · simp [hget₂]
        omega
    · simp
      omega
  have hpos : s.resolvedPathLen ≠ 0 := by
    rw [h.length_eq]
    obtain ⟨tail, rfl⟩ := head?_eq_some_iff.1 habs'
    simp
  have hab : s.resolvedAbsolute = true := by
    rw [h.absolute, habs']
    rfl
  have hfn : s.finish buf = some ⟨pathText (resolved cwd paths).names, buf₄, s.buf2⟩ := by
    simp [Resolving.finish, h.written, hab, hnr, hbuf₂, hbuf₃, hbuf₄, htk]
    omega
  refine ⟨buf₄, s.buf2, ?_, by omega, h.size_eq, htk, ?_⟩
  · simp [resolvePosixT, hs, hfn]
  · simp only [pathText, length_cons]
    omega

end Cruller.NodePath
