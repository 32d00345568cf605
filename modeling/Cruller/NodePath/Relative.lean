import Cruller.NodePath.Resolve

/-!
# Relative paths, as Node does

`relativePosixT` resolves both paths, looks byte by byte for the last slash that they have in
common, and writes a step up for every name of `from` behind it and then what `to` has from there
on. Resolved, `to` lies at the front of `buf`, which is where the result is written: first its end is
moved, and then the steps up are copied in front of it. A copy reads its source before it writes, and
a write outside its buffer is `none`.

With `from` resolved to the names `cs ++ fs` and `to` to `cs ++ ts`, the result is the text of the
way that goes up `fs.length` times and down `ts` (`relativeOrig_eq`), so resolving it from `from`
leads to `to`.
-/

namespace Cruller.NodePath

open List Option Paths

def MAX_PATH_BYTES : ℕ := 4096

/-- `bufLen` of `relativeJS_T`; every buffer is a byte longer. -/
def relativeBufLen (from_ to_ : List UInt8) : ℕ :=
  max ((from_.length + MAX_PATH_BYTES + 1) * 2 + to_.length + MAX_PATH_BYTES + 1) MAX_PATH_BYTES

/-- `while (i < smallestLength)`: how far the paths agree, and their last slash before that. -/
def commonScan : List UInt8 → List UInt8 → ℕ → Option ℕ → ℕ × Option ℕ
  | fromByte :: from_, toByte :: to_, i, lastCommonSep =>
    if fromByte ≠ toByte then (i, lastCommonSep)
    else commonScan from_ to_ (i + 1) (if fromByte = sep_posix then some i else lastCommonSep)
  | _, _, i, lastCommonSep => (i, lastCommonSep)

/-- `out` is the front of `buf3`. -/
structure Out where
  bufSize : ℕ := 0
  buf3 : List UInt8

/-- `out += out.length === 0 ? '..' : '/..'` -/
def Out.up (s : Out) : Option Out :=
  if 0 < s.bufSize then
    (memcpy s.buf3 s.bufSize [sep_posix, dot, dot]).map fun buf3 => ⟨s.bufSize + 3, buf3⟩
  else (memcpy s.buf3 0 [dot, dot]).map fun buf3 => ⟨2, buf3⟩

/-- `while (i <= fromEnd)`, for the rounds that are left. -/
def stepsUp (fromOrig : List UInt8) : ℕ → ℕ → Out → Option Out
  | 0, _, s => some s
  | n + 1, i, s =>
    if i = fromOrig.length ∨ fromOrig[i]? = some sep_posix then
      s.up.bind (stepsUp fromOrig n (i + 1))
    else stepsUp fromOrig n (i + 1) s

/-- The steps up, and what `to` has behind the last common slash. -/
def writeRelative (fromOrig toOrig buf buf3 : List UInt8) (lastCommonSep : Option ℕ) :
    Option (List UInt8) :=
  let i := 1 + lastCommonSep.elim 0 (· + 1)
  (stepsUp fromOrig (fromOrig.length + 1 - i) i { buf3 }).bind fun out =>
    let toStart := lastCommonSep.elim 0 (1 + ·)
    let sliceSize := toOrig.length - toStart
    let bufSize := out.bufSize + sliceSize
    (if 0 < sliceSize then memcpy buf out.bufSize ((buf.take toOrig.length).drop toStart)
      else some buf).bind fun buf =>
      (if 0 < out.bufSize then memcpy buf 0 (out.buf3.take out.bufSize) else some buf).bind
        fun buf => (memcpy buf bufSize [0]).map fun buf => buf.take bufSize

/-- From one resolved path to another, which lies at the front of `buf`. -/
def relativeOrig (fromOrig toOrig buf buf3 : List UInt8) : Option (List UInt8) :=
  let fromLen := fromOrig.length - 1
  let toLen := toOrig.length - 1
  let smallestLength := min fromLen toLen
  let (i, lastCommonSep) := commonScan (fromOrig.drop 1) (toOrig.drop 1) 0 none
  if i = smallestLength ∧ smallestLength < toLen then
    -- `from` is the exact base path for `to`, or it is the root
    if toOrig[1 + smallestLength]? = some sep_posix then
      some (toOrig.drop (1 + smallestLength + 1))
    else if smallestLength = 0 then some (toOrig.drop (1 + smallestLength))
    else writeRelative fromOrig toOrig buf buf3 lastCommonSep
  else if i = smallestLength ∧ smallestLength < fromLen then
    -- `to` is the exact base path for `from`, or it is the root
    if fromOrig[1 + smallestLength]? = some sep_posix then
      writeRelative fromOrig toOrig buf buf3 (some smallestLength)
    else if smallestLength = 0 then writeRelative fromOrig toOrig buf buf3 (some 0)
    else writeRelative fromOrig toOrig buf buf3 lastCommonSep
  else writeRelative fromOrig toOrig buf buf3 lastCommonSep

variable {ε : Type*}

/-- The path from one to the other, in the third buffer. -/
def relativePosixT (posixCwd : Except ε (List UInt8)) (from_ to_ buf buf2 buf3 : List UInt8) :
    Option (Except ε (List UInt8)) :=
  if from_ = to_ then some (.ok [])
  else
    (resolvePosixT posixCwd [from_] buf2 buf3).bind fun
      | .error e => some (.error e)
      | .ok fromOrig =>
        (resolvePosixT posixCwd [to_] buf fromOrig.buf2).bind fun
          | .error e => some (.error e)
          | .ok toOrig =>
            if fromOrig.result = toOrig.result then some (.ok [])
            else
              (relativeOrig fromOrig.result toOrig.result toOrig.buf toOrig.buf2).map .ok

theorem commonScan_left : ∀ (xs ys : List UInt8) (i : ℕ) (l : Option ℕ),
    (commonScan xs (xs ++ ys) i l).1 = i + xs.length
  | [], ys, i, l => by simp [commonScan]
  | x :: xs, ys, i, l => by
    simp [commonScan, commonScan_left]
    omega

theorem commonScan_right : ∀ (xs ys : List UInt8) (i : ℕ) (l : Option ℕ),
    (commonScan (xs ++ ys) xs i l).1 = i + xs.length
  | [], ys, i, l => by simp [commonScan]
  | x :: xs, ys, i, l => by
    simp [commonScan, commonScan_right]
    omega

theorem commonScan_concat : ∀ (front xs ys : List UInt8) (i : ℕ) (l : Option ℕ),
    commonScan (front ++ sep_posix :: xs) (front ++ sep_posix :: ys) i l =
      commonScan xs ys (i + front.length + 1) (some (i + front.length))
  | [], xs, ys, i, l => by simp [commonScan]
  | x :: front, xs, ys, i, l => by
    rw [cons_append, cons_append, commonScan, if_neg (not_not.2 rfl), commonScan_concat]
    congr 1 <;> simp <;> omega

/-- Where two names part there is no slash yet, and neither path ends with the other going on behind
a slash. -/
theorem commonScan_parting : ∀ (f t restF restT : List UInt8) (i : ℕ) (l : Option ℕ), f ≠ t →
    sep_posix ∉ f → sep_posix ∉ t → (restF = [] ∨ restF.head? = some sep_posix) →
    (restT = [] ∨ restT.head? = some sep_posix) →
    ∃ m, commonScan (f ++ restF) (t ++ restT) i l = (i + m, l) ∧
      (m = (f ++ restF).length → (t ++ restT)[m]? ≠ some sep_posix) ∧
      (m = (t ++ restT).length → (f ++ restF)[m]? ≠ some sep_posix)
  | [], [], _, _, _, _, hne, _, _, _, _ => absurd rfl hne
  | [], b :: t, restF, restT, i, l, _, _, ht, hF, _ => by
    have hb : b ≠ sep_posix := fun h => ht (by simp [h])
    refine ⟨0, ?_, fun _ => by simpa using hb, fun h => by simp at h⟩
    rcases restF with _ | ⟨c, restF⟩
    · rfl
    · obtain rfl : c = sep_posix := by simpa using hF
      rw [nil_append, cons_append, commonScan, if_pos hb.symm, Nat.add_zero]
  | a :: f, [], restF, restT, i, l, _, hf, _, _, hT => by
    have ha : a ≠ sep_posix := fun h => hf (by simp [h])
    refine ⟨0, ?_, fun h => by simp at h, fun _ => by simpa using ha⟩
    rcases restT with _ | ⟨c, restT⟩
    · rfl
    · obtain rfl : c = sep_posix := by simpa using hT
      rw [nil_append, cons_append, commonScan, if_pos ha, Nat.add_zero]
  | a :: f, b :: t, restF, restT, i, l, hne, hf, ht, hF, hT => by
    have ha : a ≠ sep_posix := fun h => hf (by simp [h])
    rw [cons_append, cons_append, commonScan]
    by_cases hab : a = b
    · subst hab
      obtain ⟨m, hm, hF', hT'⟩ := commonScan_parting f t restF restT (i + 1) l
        (fun h => hne (by rw [h])) (fun h => hf (mem_cons_of_mem _ h))
        (fun h => ht (mem_cons_of_mem _ h)) hF hT
      refine ⟨m + 1, ?_, fun h => ?_, fun h => ?_⟩
      · rw [if_neg (not_not.2 rfl), if_neg ha, hm]
        congr 1
        omega
      · simpa using hF' (by simpa using h)
      · simpa using hT' (by simpa using h)
    · rw [if_pos hab]
      exact ⟨0, rfl, fun h => by simp at h, fun h => by simp at h⟩

theorem length_upText : ∀ k : ℕ, (upText k).length = 3 * k - 1
  | 0 => rfl
  | k + 1 => by
    rw [upText_succ, length_append, length_upText k]
    rcases k with _ | k
    · rfl
    · rw [if_neg (by omega)]
      simp
      omega

theorem Out.up_eq {s : Out} {k : ℕ} (hsz : s.bufSize = (upText k).length)
    (hwr : s.buf3.take s.bufSize = upText k)
    (hrm : (upText (k + 1)).length ≤ s.buf3.length) :
    ∃ s', s.up = some s' ∧ s'.bufSize = (upText (k + 1)).length ∧
      s'.buf3.take s'.bufSize = upText (k + 1) ∧ s'.buf3.length = s.buf3.length := by
  rw [upText_succ, length_append] at hrm
  rw [Out.up, upText_succ, hsz]
  rw [hsz] at hwr
  by_cases hzr : (upText k).length = 0
  · rw [if_pos hzr] at hrm ⊢
    rw [hzr] at hwr hrm
    obtain ⟨buf, hbuf, hbs, hw⟩ := memcpy_append [dot, dot] hwr hrm
    rw [if_neg (by omega), hbuf]
    exact ⟨_, rfl, by simp [hzr], hw, hbs⟩
  · rw [if_neg hzr] at hrm ⊢
    obtain ⟨buf, hbuf, hbs, hw⟩ := memcpy_append [sep_posix, dot, dot] hwr hrm
    rw [if_pos (Nat.pos_of_ne_zero hzr), hbuf]
    exact ⟨_, rfl, by simp, hw, hbs⟩

/-- The loop writes one step up for each separator that is left, and one for the last name. -/
theorem stepsUp_eq {fromOrig rest : List UInt8} {i k : ℕ} {s : Out}
    (hrs : fromOrig.drop i = rest) (hi : i ≤ fromOrig.length)
    (hsz : s.bufSize = (upText k).length) (hwr : s.buf3.take s.bufSize = upText k)
    (hfits : (upText (k + rest.count sep_posix + 1)).length ≤ s.buf3.length) :
    ∃ s', stepsUp fromOrig (rest.length + 1) i s = some s' ∧
      s'.bufSize = (upText (k + rest.count sep_posix + 1)).length ∧
      s'.buf3.take s'.bufSize = upText (k + rest.count sep_posix + 1) := by
  induction rest generalizing i k s with
  | nil =>
    have hend : i = fromOrig.length := le_antisymm hi (drop_eq_nil_iff.1 hrs)
    obtain ⟨s', hs', hsz', hw', -⟩ := Out.up_eq hsz hwr hfits
    rw [length_nil, stepsUp, if_pos (.inl hend), hs']
    exact ⟨s', rfl, hsz', hw'⟩
  | cons c rest ih =>
    have hlt : i < fromOrig.length := by
      by_contra h
      rw [drop_eq_nil_iff.2 (not_lt.1 h)] at hrs
      cases hrs
    have hget : fromOrig[i]? = some c := by
      rw [← head?_drop, hrs]
      rfl
    have hdr : fromOrig.drop (i + 1) = rest := by
      rw [← drop_drop, hrs]
      rfl
    rw [length_cons, stepsUp, hget]
    by_cases hc : c = sep_posix
    · have hcn : k + (c :: rest).count sep_posix + 1 = k + 1 + rest.count sep_posix + 1 := by
        rw [hc, count_cons_self]
        omega
      rw [hcn] at hfits ⊢
      obtain ⟨s₁, hs₁, hsz₁, hw₁, hlen₁⟩ :=
        Out.up_eq hsz hwr ((length_upText_le (by omega)).trans hfits)
      rw [if_pos (.inr (by rw [hc])), hs₁, bind_some]
      exact ih hdr hlt hsz₁ hw₁ (hlen₁ ▸ hfits)
    · have hcn : (c :: rest).count sep_posix = rest.count sep_posix :=
        count_cons_of_ne hc
      rw [hcn] at hfits ⊢
      rw [if_neg (by simp [hc, hlt.ne])]
      exact ih hdr hlt hsz hwr hfits

/-- The end of `to` is moved before the steps up are written over it. -/
theorem writeRelative_eq {fromOrig toOrig buf buf3 : List UInt8} (lastCommonSep : Option ℕ)
    (i toStart k : ℕ) (hi : i = 1 + lastCommonSep.elim 0 (· + 1)) (hst : toStart = lastCommonSep.elim 0 (1 + ·))
    (hle : i ≤ fromOrig.length) (hcn : k = (fromOrig.drop i).count sep_posix + 1)
    (hto : buf.take toOrig.length = toOrig) (hup : (upText k).length ≤ buf3.length)
    (hfits : (upText k).length + (toOrig.length - toStart) < buf.length) :
    writeRelative fromOrig toOrig buf buf3 lastCommonSep =
      some (upText k ++ toOrig.drop toStart) := by
  have hzr : 0 + (fromOrig.drop i).count sep_posix + 1 = k := by omega
  obtain ⟨out, hout, hsz, hwr⟩ := stepsUp_eq (k := 0) (s := { buf3 }) rfl hle rfl rfl
    (by rwa [hzr])
  rw [hzr] at hsz hwr
  have hrn : (fromOrig.drop i).length + 1 = fromOrig.length + 1 - i := by
    rw [length_drop]
    omega
  have hpos : 0 < out.bufSize := by
    rw [hsz, length_upText]
    omega
  obtain ⟨buf₁, hbuf₁, hsz₁, hget₁⟩ : ∃ buf₁,
      (if 0 < toOrig.length - toStart then
        memcpy buf out.bufSize ((buf.take toOrig.length).drop toStart) else some buf) = some buf₁ ∧
        buf₁.length = buf.length ∧
        ∀ j < toOrig.length - toStart, buf₁[out.bufSize + j]? = (toOrig.drop toStart)[j]? := by
    rw [hto]
    split_ifs with hsl
    · obtain ⟨buf₁, hbuf₁, hsz₁, hget₁⟩ :=
        memcpy_get buf (toOrig.drop toStart) out.bufSize (by simp; omega)
      refine ⟨buf₁, hbuf₁, hsz₁, fun j hj => ?_⟩
      rw [hget₁, if_pos (by simp; omega), Nat.add_sub_cancel_left]
    · exact ⟨buf, rfl, rfl, fun j hj => by omega⟩
  have hlen : (upText k).length = out.bufSize := hsz.symm
  obtain ⟨buf₂, hbuf₂, hsz₂, hget₂⟩ := memcpy_get buf₁ (upText k) 0 (by omega)
  obtain ⟨buf₃, hbuf₃, hsz₃, hget₃⟩ :=
    memcpy_get buf₂ [0] (out.bufSize + (toOrig.length - toStart)) (by simp; omega)
  have htk : buf₃.take (out.bufSize + (toOrig.length - toStart)) =
      upText k ++ toOrig.drop toStart := by
    refine ext_getElem? fun j => ?_
    rw [getElem?_take]
    split_ifs with hj
    · rw [hget₃, if_neg (by omega), hget₂]
      rcases Nat.lt_or_ge j out.bufSize with hlt | hge
      · rw [if_pos (by omega), Nat.sub_zero, getElem?_append_left (by omega)]
      · obtain ⟨m, rfl⟩ : ∃ m, j = out.bufSize + m := ⟨j - out.bufSize, by omega⟩
        rw [if_neg (by omega), hget₁ m (by omega), getElem?_append_right (by omega), hlen,
          Nat.add_sub_cancel_left]
    · simp
      omega
  unfold writeRelative
  dsimp only
  rw [← hi, ← hst, ← hrn, hout, bind_some, hbuf₁, bind_some, if_pos hpos,
    hwr, hbuf₂, bind_some, hbuf₃, map_some, htk]

theorem count_intercalate : ∀ {fs : List (List UInt8)}, fs ≠ [] → (∀ n ∈ fs, sep_posix ∉ n) →
    ([sep_posix].intercalate fs).count sep_posix + 1 = fs.length
  | [], h, _ => absurd rfl h
  | [n], _, h => by
    rw [intercalate_singleton, count_eq_zero.2 (h n mem_cons_self)]
    rfl
  | n :: m :: fs, _, h => by
    have ih := count_intercalate (show m :: fs ≠ [] by simp) fun l hl =>
      h l (mem_cons_of_mem _ hl)
    rw [intercalate_cons_cons, count_append, count_append,
      count_eq_zero.2 (h n mem_cons_self), count_cons_self, count_nil,
      length_cons]
    omega

theorem two_mul_length_le : ∀ {ns : List (List UInt8)}, (∀ n ∈ ns, IsName n) →
    2 * ns.length ≤ (pathText ns).length
  | [], _ => Nat.zero_le _
  | [n], h => by
    have hpos := length_pos_iff.2 (h n mem_cons_self).ne_nil
    simp only [pathText, intercalate_singleton, length_cons, length_nil]
    omega
  | n :: m :: ns, h => by
    have hpos := length_pos_iff.2 (h n mem_cons_self).ne_nil
    have ih : 2 * (m :: ns).length ≤ (pathText (m :: ns)).length :=
      two_mul_length_le fun l hl => h l (mem_cons_of_mem _ hl)
    simp only [pathText, intercalate_cons_cons, length_cons, length_append,
      length_nil] at ih ⊢
    omega

theorem intercalate_first (f : List UInt8) (fs : List (List UInt8)) :
    ∃ rest, [sep_posix].intercalate (f :: fs) = f ++ rest ∧
      (rest = [] ∨ rest.head? = some sep_posix) := by
  rcases fs with _ | ⟨g, fs⟩
  · exact ⟨[], by simp, .inl rfl⟩
  · exact ⟨sep_posix :: [sep_posix].intercalate (g :: fs), by simp, .inr rfl⟩

theorem intercalate_head {f : List UInt8} (hf : IsName f) (fs : List (List UInt8)) :
    ∃ c tail, [sep_posix].intercalate (f :: fs) = c :: tail ∧ c ≠ sep_posix := by
  obtain ⟨c, f, rfl⟩ := exists_cons_of_ne_nil hf.ne_nil
  obtain ⟨rest, hrs, -⟩ := intercalate_first (c :: f) fs
  exact ⟨c, f ++ rest, hrs, fun h => hf.2 (by simp [h])⟩

/-- The slash that ends the directory in common, from behind the root. -/
def folderSep (cs : List (List UInt8)) : Option ℕ :=
  if cs = [] then none else some ((folderText cs).length - 2)

section Names

variable {cs fs ts : List (List UInt8)}

theorem folderText_tail (hcs : cs ≠ []) :
    folderText cs = sep_posix :: ([sep_posix].intercalate cs ++ [sep_posix]) := by
  rw [← pathText_concat_sep hcs, pathText, cons_append]

theorem folderSep_from (cs : List (List UInt8)) :
    1 + (folderSep cs).elim 0 (· + 1) = (folderText cs).length := by
  rw [folderSep]
  split_ifs with hcs
  · rw [hcs]
    rfl
  · rw [folderText_tail hcs]
    simp
    omega

theorem folderSep_to (cs : List (List UInt8)) :
    (folderSep cs).elim 0 (1 + ·) = (folderText cs).length - 1 := by
  rw [folderSep]
  split_ifs with hcs
  · rw [hcs]
    rfl
  · rw [folderText_tail hcs]
    simp
    omega

theorem commonScan_folder (cs : List (List UInt8)) (xs ys : List UInt8) :
    commonScan ((folderText cs ++ xs).drop 1) ((folderText cs ++ ys).drop 1) 0 none =
      commonScan xs ys ((folderText cs).length - 1) (folderSep cs) := by
  rw [folderSep]
  split_ifs with hcs
  · rw [hcs]
    rfl
  · simp only [folderText_tail hcs, cons_append, append_assoc, nil_append,
      drop_one, tail_cons, commonScan_concat]
    congr 1 <;> simp

theorem drop_folder (cs : List (List UInt8)) (xs : List UInt8) :
    (folderText cs ++ xs).drop (folderText cs).length = xs := drop_left

theorem relativeOrig_base (front rest buf buf3 : List UInt8) :
    relativeOrig (sep_posix :: front) (sep_posix :: (front ++ sep_posix :: rest)) buf buf3 =
      some rest := by
  have hsc := commonScan_left front (sep_posix :: rest) 0 none
  rcases hs : commonScan front (front ++ sep_posix :: rest) 0 none with ⟨i, l⟩
  rw [hs, Nat.zero_add] at hsc
  simp only at hsc
  have hget : (sep_posix :: (front ++ sep_posix :: rest))[1 + front.length]? = some sep_posix := by
    rw [Nat.add_comm, getElem?_cons_succ, getElem?_append_right le_rfl, Nat.sub_self]
    rfl
  have hdr : (sep_posix :: (front ++ sep_posix :: rest)).drop (1 + front.length + 1) = rest := by
    rw [Nat.add_comm 1, drop_succ_cons, drop_append, drop_of_length_le (by omega),
      Nat.add_sub_cancel_left]
    rfl
  have hmin : min front.length (front ++ sep_posix :: rest).length = front.length := by simp
  simp only [relativeOrig, drop_one, tail_cons, hs, length_cons,
    Nat.add_sub_cancel, hmin, hsc]
  rw [if_pos ⟨trivial, by simp⟩, if_pos hget, hdr]

theorem relativeOrig_above (front rest buf buf3 : List UInt8) :
    relativeOrig (sep_posix :: (front ++ sep_posix :: rest)) (sep_posix :: front) buf buf3 =
      writeRelative (sep_posix :: (front ++ sep_posix :: rest)) (sep_posix :: front) buf buf3
        (some front.length) := by
  have hsc := commonScan_right front (sep_posix :: rest) 0 none
  rcases hs : commonScan (front ++ sep_posix :: rest) front 0 none with ⟨i, l⟩
  rw [hs, Nat.zero_add] at hsc
  simp only at hsc
  have hget : (sep_posix :: (front ++ sep_posix :: rest))[1 + front.length]? = some sep_posix := by
    rw [Nat.add_comm, getElem?_cons_succ, getElem?_append_right le_rfl, Nat.sub_self]
    rfl
  have hmin : min (front ++ sep_posix :: rest).length front.length = front.length := by simp
  simp only [relativeOrig, drop_one, tail_cons, hs, length_cons,
    Nat.add_sub_cancel, hmin, hsc]
  rw [if_neg (by simp), if_pos ⟨trivial, by simp⟩, if_pos hget]

/-- Paths that part behind `cs` are relative through the folder where they part. -/
theorem relativeOrig_apart (hfs : ∀ n ∈ fs, IsName n) (hts : ∀ n ∈ ts, IsName n) (hf : fs ≠ [])
    (ht : ts ≠ []) (hne : fs.head? ≠ ts.head?) (buf buf3 : List UInt8) :
    relativeOrig (pathText (cs ++ fs)) (pathText (cs ++ ts)) buf buf3 =
      writeRelative (pathText (cs ++ fs)) (pathText (cs ++ ts)) buf buf3 (folderSep cs) := by
  obtain ⟨f, fs, rfl⟩ := exists_cons_of_ne_nil hf
  obtain ⟨t, ts, rfl⟩ := exists_cons_of_ne_nil ht
  obtain ⟨restF, hF, hrestF⟩ := intercalate_first f fs
  obtain ⟨restT, hT, hrestT⟩ := intercalate_first t ts
  have hf := hfs f mem_cons_self
  have ht := hts t mem_cons_self
  have hfp := length_pos_iff.2 hf.ne_nil
  have htp := length_pos_iff.2 ht.ne_nil
  obtain ⟨m, hm, hendF, hendT⟩ := commonScan_parting f t restF restT ((folderText cs).length - 1)
    (folderSep cs) (fun h => hne (by simp [h])) hf.2 ht.2 hrestF hrestT
  have hpos := length_folderText_pos cs
  rw [pathText_append cs (by simp), pathText_append cs (by simp), hF, hT]
  have hget : ∀ xs : List UInt8,
      (folderText cs ++ xs)[1 + ((folderText cs).length - 1 + m)]? = xs[m]? := by
    intro xs
    rw [getElem?_append_right (by omega)]
    congr 1
    omega
  have hlenF : (f ++ restF).length = f.length + restF.length := length_append
  have hlenT : (t ++ restT).length = t.length + restT.length := length_append
  simp only [relativeOrig, commonScan_folder, hm, length_append]
  split_ifs with h₁ h₂ h₃ h₄ h₅ h₆
  · rw [← h₁.1, hget] at h₂
    exact absurd h₂ (hendF (by omega))
  · omega
  · rfl
  · rw [← h₄.1, hget] at h₅
    exact absurd h₅ (hendT (by omega))
  · omega
  · rfl
  · rfl

/-- From one resolved path to another leads the way up and down their names. -/
theorem relativeOrig_eq (hfs : ∀ n ∈ fs, IsName n) (hts : ∀ n ∈ ts, IsName n)
    (hne : fs ≠ [] ∨ ts ≠ []) (hhd : fs ≠ [] → ts ≠ [] → fs.head? ≠ ts.head?)
    {buf buf3 : List UInt8}
    (hto : buf.take (pathText (cs ++ ts)).length = pathText (cs ++ ts))
    (hup : (upText fs.length).length ≤ buf3.length)
    (hfits : (upText fs.length).length + (pathText (cs ++ ts)).length < buf.length) :
    relativeOrig (pathText (cs ++ fs)) (pathText (cs ++ ts)) buf buf3 =
      some ((wayTo fs ts hts).text sep_posix) := by
  have hsep : ∀ n ∈ fs, sep_posix ∉ n := fun n hn => (hfs n hn).2
  rw [text_wayTo hts]
  by_cases hf : fs = []
  · -- `to` lies below `from`
    have ht : ts ≠ [] := hne.resolve_left (not_not.2 hf)
    rw [if_neg ht, if_pos hf, hf, append_nil]
    by_cases hcs : cs = []
    · obtain ⟨t, ts, rfl⟩ := exists_cons_of_ne_nil ht
      obtain ⟨c, tail, hhd, hc⟩ := intercalate_head (hts t mem_cons_self) ts
      rw [hcs, nil_append, pathText, pathText, intercalate_nil, hhd]
      simp [relativeOrig, commonScan, hc]
    · rw [pathText_append cs ht, folderText_tail hcs, pathText, cons_append, append_assoc,
        singleton_append]
      exact relativeOrig_base _ _ _ _
  have hcn := count_intercalate hf hsep
  by_cases ht : ts = []
  · -- `from` lies below `to`
    rw [if_pos ht]
    rw [ht, append_nil] at hto hfits ⊢
    by_cases hcs : cs = []
    · obtain ⟨f, fs, rfl⟩ := exists_cons_of_ne_nil hf
      obtain ⟨c, tail, hhd, hc⟩ := intercalate_head (hfs f mem_cons_self) fs
      rw [hhd, count_cons_of_ne hc] at hcn
      rw [hcs, nil_append, pathText, pathText, intercalate_nil, hhd]
      have hab : relativeOrig (sep_posix :: c :: tail) [sep_posix] buf buf3 =
          writeRelative (sep_posix :: c :: tail) [sep_posix] buf buf3 (some 0) := by
        simp [relativeOrig, commonScan, hc]
      rw [hcs] at hto hfits
      have hwr : writeRelative (sep_posix :: c :: tail) [sep_posix] buf buf3 (some 0) =
          some (upText (f :: fs).length ++ [sep_posix].drop 1) :=
        writeRelative_eq (some 0) 2 1 (f :: fs).length rfl rfl (by simp) hcn.symm hto hup
          (Nat.lt_of_le_of_lt (Nat.add_le_add_left (Nat.sub_le _ 1) _) hfits)
      rw [hab, hwr]
      simp
    · have hrm : (upText fs.length).length +
          ((pathText cs).length - (1 + ([sep_posix].intercalate cs).length)) < buf.length := by
        omega
      rw [pathText_append cs hf, folderText_tail hcs, cons_append, append_assoc,
        singleton_append]
      rw [pathText] at hto hrm ⊢
      rw [relativeOrig_above, writeRelative_eq (some ([sep_posix].intercalate cs).length)
        (1 + (([sep_posix].intercalate cs).length + 1)) (1 + ([sep_posix].intercalate cs).length)
        fs.length rfl rfl (by simp; omega) ?_ hto hup hrm]
      · simp [Nat.add_comm 1]
      · rw [← hcn, Nat.add_comm 1, drop_succ_cons, drop_append,
          drop_of_length_le (by omega), Nat.add_sub_cancel_left]
        rfl
  · -- they part
    have hdr : (pathText (cs ++ fs)).drop (folderText cs).length = [sep_posix].intercalate fs := by
      rw [pathText_append cs hf, drop_folder]
    have hlen : (folderText cs).length ≤ (pathText (cs ++ fs)).length := by
      simp [pathText_append cs hf]
    rw [if_neg ht, if_neg hf, relativeOrig_apart hfs hts hf ht (hhd hf ht),
      writeRelative_eq (folderSep cs) (folderText cs).length ((folderText cs).length - 1) fs.length
        (folderSep_from cs).symm (folderSep_to cs).symm hlen (by rw [hdr, hcn]) hto hup
        (by omega), drop_pathText cs ht]

end Names

theorem resolved_wayTo {cwd : List UInt8} {paths : List (List UInt8)}
    {cs fs ts : List (List UInt8)} (hnm : (resolved cwd paths).names = cs ++ fs)
    (hts : ∀ n ∈ ts, IsName n) :
    (resolved cwd (paths ++ [(wayTo fs ts hts).text sep_posix])).names = cs ++ ts := by
  have hrel : ((wayTo fs ts hts).text sep_posix).head? ≠ some sep_posix :=
    Trail.head?_text dot_ne_sep fun n hn => (hts n hn).2
  rw [resolved_concat, onward, if_neg hrel,
    Trail.follow_splitOn dot_ne_sep fun n hn => (hts n hn).2]
  have hcm : (wayTo fs ts hts).components = List.replicate fs.length [dot, dot] ++ ts := rfl
  have hdw := Trail.follow_dots (k := fs.length) (t := resolved cwd paths) (by simp [hnm])
  rw [hcm, Trail.follow_append, (Trail.follow_names fun n hn => (hts n hn).1).2, hdw.2, hnm,
    length_append, Nat.add_sub_cancel, take_left]

/-- What resolving returns in any buffers that hold the working directory and the paths. -/
def Resolves (ε : Type*) (cwd : List UInt8) (paths : List (List UInt8)) (result : List UInt8) :
    Prop :=
  ∀ buf buf2 : List UInt8, resolveTotal cwd paths + 2 ≤ buf.length →
    resolveTotal cwd paths < buf2.length →
    ∃ r, resolvePosixT (.ok cwd : Except ε (List UInt8)) paths buf buf2 = some (.ok r) ∧
      r.result = result

theorem resolves_iff {cwd : List UInt8} (habs : cwd.head? = some sep_posix)
    {paths : List (List UInt8)} {result : List UInt8} :
    Resolves ε cwd paths result ↔ result = pathText (resolved cwd paths).names := by
  constructor
  · intro h
    let buf : List UInt8 := List.replicate (resolveTotal cwd paths + 2) 0
    have hbuf : resolveTotal cwd paths + 2 ≤ buf.length := by simp [buf]
    obtain ⟨buf', buf2', hr, -⟩ := resolvePosixT_eq (ε := ε) habs paths buf buf hbuf (by omega)
    obtain ⟨r, hr', rfl⟩ := h buf buf hbuf (by omega)
    rw [hr, some.injEq, Except.ok.injEq] at hr'
    rw [← hr']
  · rintro rfl buf buf2 hbuf hbuf2
    obtain ⟨buf', buf2', hr, -⟩ := resolvePosixT_eq (ε := ε) habs paths buf buf2 hbuf hbuf2
    exact ⟨_, hr, rfl⟩

/-- In the buffers that `relativeJS_T` allocates, from any path to any other there is a relative
path that resolves to where the other does, and it is empty where both resolve to the same. The
working directory is read into `MAX_PATH_BYTES`, so it is no longer than that. -/
theorem relativePosixT_leads (cwd from_ to_ : List UInt8) (hcwd : IsNormalized cwd)
    (hmax : cwd.length ≤ MAX_PATH_BYTES) (buf buf2 buf3 : List UInt8)
    (hbuf : buf.length = relativeBufLen from_ to_ + 1)
    (hbuf2 : buf2.length = relativeBufLen from_ to_ + 1)
    (hbuf3 : buf3.length = relativeBufLen from_ to_ + 1) :
    ∃ rel, relativePosixT (.ok cwd : Except ε (List UInt8)) from_ to_ buf buf2 buf3 =
        some (.ok rel) ∧
      (∃ result, Resolves ε cwd [from_, rel] result ∧ Resolves ε cwd [to_] result) ∧
      (rel = [] ↔ ∃ result, Resolves ε cwd [from_] result ∧ Resolves ε cwd [to_] result) := by
  have habs : cwd.head? = some sep_posix := by
    rw [hcwd]
    rfl
  obtain ⟨cs, fs, ts, hf, ht, hX⟩ :=
    exists_parting (resolved cwd [from_]).names (resolved cwd [to_]).names
  have hfnames := resolved_names cwd [from_]
  have htnames := resolved_names cwd [to_]
  rw [hf] at hfnames
  rw [ht] at htnames
  have hfs : ∀ n ∈ fs, IsName n := fun n hn => hfnames n (mem_append_right _ hn)
  have hts : ∀ n ∈ ts, IsName n := fun n hn => htnames n (mem_append_right _ hn)
  have hnil : (wayTo fs ts hts).text sep_posix = [] ↔ fs = [] ∧ ts = [] := by
    rw [Trail.text_eq_nil, Trail.components, append_eq_nil_iff, replicate_eq_nil_iff]
    exact and_congr length_eq_zero_iff Iff.rfl
  have hsame : pathText (cs ++ fs) = pathText (cs ++ ts) ↔ fs = [] ∧ ts = [] := by
    constructor
    · intro h
      have heq := pathText_inj hfnames htnames h
      have hle := (hX _ (by rw [hf]) (by rw [ht, heq])).length_le
      rw [length_append] at hle
      have hf : fs = [] := length_eq_zero_iff.1 (by omega)
      exact ⟨hf, (append_cancel_left heq).symm.trans hf⟩
    · rintro ⟨rfl, rfl⟩
      rfl
  have htotal : ∀ path : List UInt8, resolveTotal cwd [path] = cwd.length + path.length + 2 := by
    intro path
    simp [resolveTotal]
    omega
  have hroom : (from_.length + MAX_PATH_BYTES + 1) * 2 + to_.length + MAX_PATH_BYTES + 1 ≤
      relativeBufLen from_ to_ := le_max_left _ _
  have hpage : MAX_PATH_BYTES = 4096 := rfl
  refine ⟨(wayTo fs ts hts).text sep_posix, ?_,
    ⟨pathText (cs ++ ts), (resolves_iff habs).2 ?_, (resolves_iff habs).2 (by rw [ht])⟩, ?_⟩
  · rw [relativePosixT]
    split_ifs with heq
    · have h : pathText (cs ++ fs) = pathText (cs ++ ts) := by rw [← hf, ← ht, heq]
      rw [hnil.2 (hsame.1 h)]
    obtain ⟨fbuf, fbuf2, hfrom, hfsize, hfsize2, -, hflen⟩ :=
      resolvePosixT_eq (ε := ε) habs [from_] buf2 buf3 (by rw [htotal]; omega)
        (by rw [htotal]; omega)
    obtain ⟨tbuf, tbuf2, hto, htsize, htsize2, htake, htlen⟩ :=
      resolvePosixT_eq (ε := ε) habs [to_] buf fbuf2 (by rw [htotal]; omega)
        (by rw [htotal]; omega)
    rw [hf, htotal] at hflen
    rw [ht, htotal] at htlen
    rw [ht] at htake
    rw [hfrom, bind_some]
    dsimp only
    rw [hto, bind_some]
    dsimp only
    rw [hf, ht]
    split_ifs with hsame'
    · rw [hnil.2 (hsame.1 hsame')]
    have hcount := two_mul_length_le hfnames
    rw [length_append] at hcount
    have hup := length_upText fs.length
    have hne : fs ≠ [] ∨ ts ≠ [] := by
      by_contra h
      push Not at h
      exact hsame' (hsame.2 h)
    rw [relativeOrig_eq hfs hts hne ?_ htake (by omega) (by omega), map_some]
    -- a first name in common would be one more
    intro hf' ht' hhead
    obtain ⟨f, fs, rfl⟩ := exists_cons_of_ne_nil hf'
    obtain ⟨t, ts, rfl⟩ := exists_cons_of_ne_nil ht'
    obtain rfl : f = t := by simpa using hhead
    have hle := (hX (cs ++ [f]) (by rw [hf]; simp) (by rw [ht]; simp)).length_le
    simp at hle
  · rw [show [from_, (wayTo fs ts hts).text sep_posix] =
      [from_] ++ [(wayTo fs ts hts).text sep_posix] from rfl, resolved_wayTo hf hts]
  · rw [hnil, ← hsame]
    constructor
    · intro h
      exact ⟨_, (resolves_iff habs).2 rfl, (resolves_iff habs).2 (by rw [hf, h, ← ht])⟩
    · rintro ⟨result, hfrom, hto⟩
      rw [← hf, ← ht, ← (resolves_iff habs).1 hfrom, ← (resolves_iff habs).1 hto]

/-- In `/a`, from `b/../c` to `/a/d`. -/
theorem relativePosixT_leads_sibling :
    ∃ rel, rel ≠ [] ∧ ∃ result,
      Resolves Unit [47, 97] [[98, 47, 46, 46, 47, 99], rel] result ∧
        Resolves Unit [47, 97] [[47, 97, 47, 100]] result := by
  have hcwd : IsNormalized [47, 97] := by decide
  obtain ⟨rel, -, hleads, hnil⟩ := relativePosixT_leads (ε := Unit) [47, 97]
    [98, 47, 46, 46, 47, 99] [47, 97, 47, 100] hcwd (by decide)
    (List.replicate _ 0) (List.replicate _ 0) (List.replicate _ 0) length_replicate
    length_replicate length_replicate
  refine ⟨rel, fun h => ?_, hleads⟩
  obtain ⟨result, hfrom, hto⟩ := hnil.1 h
  rw [resolves_iff rfl] at hfrom hto
  exact absurd (hfrom.symm.trans hto) (by decide)

end Cruller.NodePath
