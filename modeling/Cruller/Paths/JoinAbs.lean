import Cruller.Paths.NormalizeLoose

/-!
# Joining onto an absolute base

`joinAbsStringBuf` starts over at the last part that is absolute, copies the base and the parts one
behind the other into a scratch buffer, and normalizes what follows the leading separator into the
caller's buffer. `joinAbsStringBufChecked` does the same where the caller's buffer holds even what
is not normalized, and else joins in a buffer of its own, and copies what fits.

This is what a posix build compiles for `.posix` and `.loose`: the branches for `.windows` and for
`.nt` are left out. A read, a write or a slice that is out of bounds is `none`.

What is concatenated is as long as the scratch buffer at most (`concat_eq`), and that is all that
the caller's buffer has to hold (`joinAbsStringBuf_eq`).
-/

namespace Cruller.Paths

open List Option Nat

inductive Platform
  | loose
  | posix
  deriving DecidableEq

abbrev colon : UInt8 := 0x3A

/-- `std.fs.path.isAbsoluteWindows` -/
def isAbsoluteWindows : List UInt8 → Bool
  | [] => false
  | c :: path =>
    if isSepAny c then true
    else
      match path with
      | d :: e :: _ => d == colon && isSepAny e
      | _ => false

def Platform.isAbsolute : Platform → List UInt8 → Bool
  | .posix, path => path.head?.any isSepPosix
  | .loose, path => isAbsoluteWindows path

/-- Where the separator stands that makes a path absolute. -/
def leadingSeparatorIndexWindows : List UInt8 → Option ℕ
  | [] => none
  | c :: path =>
    if isSepAny c then some 0
    else
      match path with
      | d :: e :: _ =>
        if 0x41 ≤ c ∧ c ≤ 0x5A ∧ d = colon then if isSepAny e then some 2 else some 1 else none
      | _ => none

def leadingSeparatorIndexPosix (path : List UInt8) : Option ℕ :=
  if path.head?.any isSepPosix then some 0 else none

/-- Where the root of a path ends. -/
def Platform.leadingSeparatorIndex : Platform → List UInt8 → Option ℕ
  | .posix, path => leadingSeparatorIndexPosix path
  | .loose, path => (leadingSeparatorIndexWindows path).or (leadingSeparatorIndexPosix path)

/-- `buf[from..to]` -/
def slice (buf : List UInt8) (start stop : ℕ) : Option (List UInt8) :=
  if start ≤ stop ∧ stop ≤ buf.length then some ((buf.take stop).drop start) else none

/-- Bytes that were allocated and not written yet. -/
def undefined (n : ℕ) : List UInt8 := List.replicate n 0xAA

/-- `JoinScratch.init` allocates that much. -/
def scratchTotal (base : ℕ) (parts : List (List UInt8)) : ℕ :=
  base + 2 + (parts.map fun p => p.length + 1).sum

/-- The parts behind the last absolute one. -/
structure Rebased where
  cwd : List UInt8
  parts : List (List UInt8)

/-- Start over at the last absolute part; `part_i` and `part_len` are `u16`. -/
def rebase (platform : Platform) : ℕ → Rebased → ℕ → ℕ → Option Rebased
  | 0, _, _, _ => none
  | n + 1, s, part_i, part_len =>
    if part_i < part_len then
      (s.parts[part_i]?).bind fun part =>
        if platform.isAbsolute part then
          let parts := s.parts.drop (part_i + 1)
          rebase platform n ⟨part, parts⟩ 0 (parts.length % 2 ^ 16)
        else rebase platform n s (part_i + 1) part_len
    else some s

/-- What has been copied to the scratch buffer. -/
structure Joining where
  out : ℕ
  temp_buf : List UInt8

/-- `if (out > 0 and temp_buf[out - 1] != separator) temp_buf[out] = separator` -/
def Joining.addSeparator (s : Joining) : Option Joining :=
  if 0 < s.out then
    (s.temp_buf[s.out - 1]?).bind fun c =>
      if c ≠ sep_posix then
        (memcpy s.temp_buf s.out [sep_posix]).map fun temp_buf => ⟨s.out + 1, temp_buf⟩
      else some s
  else some s

def Joining.addPart (s : Joining) (part : List UInt8) : Option Joining :=
  if part.length = 0 then some s
  else
    s.addSeparator.bind fun s =>
      (memcpy s.temp_buf s.out part).map fun temp_buf => ⟨s.out + part.length, temp_buf⟩

/-- The base and the parts, one behind the other. -/
def concat (s : Rebased) : Option Joining :=
  (memcpy (undefined (scratchTotal s.cwd.length s.parts)) 0 s.cwd).bind fun temp_buf =>
    s.parts.foldlM Joining.addPart ⟨s.cwd.length, temp_buf⟩

/-- What is copied in front of the normalized rest. -/
def leadingSeparator (platform : Platform) (joined : List UInt8) : List UInt8 :=
  match platform.leadingSeparatorIndex joined with
  | some i =>
    let outdir := joined.take (i + 1)
    if platform = .loose then outdir.map fun c => if c = sep_windows then sep_posix else c
    else outdir
  | none => [sep_posix]

/-- Normalize the rest into the buffer behind the leading separator, and copy that in front. -/
def normalizeBehind (leading rest buf : List UInt8) : Option (List UInt8 × List UInt8) :=
  (slice buf leading.length buf.length).bind fun window =>
    (normalizeStringBuf rest window false true).bind fun (result, window) =>
      (memcpy (buf.take leading.length ++ window) 0 leading).bind fun buf =>
        (slice buf 0 (result.length + leading.length)).map fun path => (path, buf)

/-- `_joinAbsStringBuf` without a sentinel: the result, and the buffer. -/
def joinAbsStringBuf (platform : Platform) (cwd buf : List UInt8) (parts : List (List UInt8)) :
    Option (List UInt8 × List UInt8) :=
  if parts.length = 0 then some (cwd, buf)
  else if parts = [[sep_posix]] then some ([sep_posix], buf)
  else
    (rebase platform (parts.length + 1) ⟨cwd, parts⟩ 0 (parts.length % 2 ^ 16)).bind fun s =>
      (concat s).bind fun s =>
        (slice s.temp_buf 0 s.out).bind fun joined =>
          let leading := leadingSeparator platform joined
          (slice s.temp_buf leading.length s.out).bind fun rest =>
            normalizeBehind leading rest buf

/-- The result, and the caller's buffer. -/
def joinAbsStringBufChecked (platform : Platform) (cwd buf : List UInt8)
    (parts : List (List UInt8)) : Option (Option (List UInt8) × List UInt8) :=
  let total := scratchTotal cwd.length parts
  if total < buf.length then
    (joinAbsStringBuf platform cwd buf parts).map fun (path, buf) => (some path, buf)
  else
    (joinAbsStringBuf platform cwd (undefined total) parts).bind fun (joined, _) =>
      if buf.length < joined.length then some (none, buf)
      else
        (memcpy buf 0 joined).bind fun buf =>
          (slice buf 0 joined.length).map fun path => (some path, buf)

/-- An absolute path that joining leaves as it is: no backslash, and behind the leading separator a
normalized rest, which a separator may trail. -/
def Platform.IsNormalized (platform : Platform) (path : List UInt8) : Prop :=
  ∃ i ∈ platform.leadingSeparatorIndex path,
    path[i]? = some sep_posix ∧ sep_windows ∉ path ∧
      normalized ⟨false, true, false⟩ (path.drop (i + 1)) = path.drop (i + 1)

instance (platform : Platform) : DecidablePred platform.IsNormalized := fun path =>
  inferInstanceAs (Decidable (∃ i ∈ platform.leadingSeparatorIndex path, _))

theorem isSepAny_iff {c : UInt8} : isSepAny c = true ↔ c = sep_posix ∨ c = sep_windows := by
  simp [isSepAny, isSepPosix, isSepWin32]

variable {platform : Platform} {parts : List (List UInt8)} {rest buf : List UInt8}

theorem scratchTotal_drop {base : ℕ} {i : ℕ} {part : List UInt8}
    (h : parts[i]? = some part) :
    scratchTotal part.length (parts.drop (i + 1)) ≤ scratchTotal base parts := by
  obtain ⟨hi, rfl⟩ := List.getElem?_eq_some_iff.1 h
  have hsp := congrArg (fun l : List (List UInt8) => (l.map fun p => p.length + 1).sum)
    (take_append_drop i parts)
  simp only [drop_eq_getElem_cons hi, map_append, map_cons, List.sum_append,
    sum_cons] at hsp
  simp only [scratchTotal]
  omega

theorem rebase_eq : ∀ {n : ℕ} {s : Rebased} {part_i part_len : ℕ},
    platform.isAbsolute s.cwd = true → part_len ≤ s.parts.length → s.parts.length - part_i < n →
    ∃ s', rebase platform n s part_i part_len = some s' ∧ platform.isAbsolute s'.cwd = true ∧
      scratchTotal s'.cwd.length s'.parts ≤ scratchTotal s.cwd.length s.parts
  | 0, _, _, _, _, _, hn => absurd hn (Nat.not_lt_zero _)
  | n + 1, s, part_i, part_len, habs, hlen, hn => by
    rw [rebase]
    by_cases hi : part_i < part_len
    · have hget := getElem?_eq_getElem (hi.trans_le hlen)
      rw [if_pos hi, hget, bind_some]
      split_ifs with hpr
      · obtain ⟨s', hs', habs', hle⟩ := 
          rebase_eq (n := n) (s := ⟨_, s.parts.drop (part_i + 1)⟩) hpr
            (mod_le _ (2 ^ 16)) (show _ - 0 < n by simp; omega)
        exact ⟨s', hs', habs', hle.trans (scratchTotal_drop hget)⟩
      · exact rebase_eq habs hlen (by omega)
    · rw [if_neg hi]
      exact ⟨s, rfl, habs, le_rfl⟩

/-- The scratch buffer holds the text so far, and has room for the parts that are left. -/
structure Holds (s : Joining) (text : List UInt8) (parts : List (List UInt8)) : Prop where
  out_eq : s.out = text.length
  written : s.temp_buf.take s.out = text
  fits : scratchTotal text.length parts ≤ s.temp_buf.length

/-- A part is added behind the text, within the room that was taken for it. -/
theorem Holds.addPart {s : Joining} {text part : List UInt8}
    (h : Holds s text (part :: parts)) :
    ∃ s' text', s.addPart part = some s' ∧ text <+: text' ∧ s'.temp_buf.length = s.temp_buf.length ∧
      Holds s' text' parts := by
  obtain ⟨hout, hwr, hfits⟩ := h
  simp only [scratchTotal, map_cons, sum_cons] at hfits
  rw [Joining.addPart]
  by_cases hpr : part.length = 0
  · rw [if_pos hpr]
    exact ⟨s, text, rfl, prefix_rfl, rfl, hout, hwr, by simp only [scratchTotal]; omega⟩
  rw [if_neg hpr]
  obtain ⟨s₁, text₁, hs₁, hpre, hsz₁, hlen₁, hout₁, hwr₁⟩ :
      ∃ s₁ text₁, s.addSeparator = some s₁ ∧ text <+: text₁ ∧
        s₁.temp_buf.length = s.temp_buf.length ∧ text₁.length ≤ text.length + 1 ∧
        s₁.out = text₁.length ∧ s₁.temp_buf.take s₁.out = text₁ := by
    rw [Joining.addSeparator]
    split_ifs with h0
    · have hlt : s.out - 1 < s.temp_buf.length := by omega
      rw [getElem?_eq_getElem hlt, bind_some]
      split_ifs
      · obtain ⟨buf, hbuf, hsz, hw⟩ := memcpy_append [sep_posix] hwr (by simp; omega)
        rw [hbuf]
        exact ⟨_, _, rfl, prefix_append _ _, hsz, by simp, by simp [hout], hw⟩
      · exact ⟨s, text, rfl, prefix_rfl, rfl, le_succ _, hout, hwr⟩
    · exact ⟨s, text, rfl, prefix_rfl, rfl, le_succ _, hout, hwr⟩
  obtain ⟨buf, hbuf, hsz, hw⟩ := memcpy_append part hwr₁ (by omega)
  refine ⟨⟨s₁.out + part.length, buf⟩, text₁ ++ part, ?_, hpre.trans (prefix_append _ _),
    hsz.trans hsz₁, ?_, hw, ?_⟩
  · simp [hs₁, hbuf]
  · simp [hout₁]
  · simp only [scratchTotal, length_append]
    omega

theorem Holds.foldlM : ∀ {parts : List (List UInt8)} {s : Joining} {text : List UInt8},
    Holds s text parts → ∃ s' text', parts.foldlM Joining.addPart s = some s' ∧
      text <+: text' ∧ s'.temp_buf.length = s.temp_buf.length ∧ Holds s' text' []
  | [], s, text, h => ⟨s, text, rfl, prefix_rfl, rfl, h⟩
  | part :: parts, s, text, h => by
    obtain ⟨s₁, text₁, hs₁, hpre₁, hsz₁, h₁⟩ := h.addPart
    obtain ⟨s₂, text₂, hs₂, hpre₂, hsz₂, h₂⟩ := h₁.foldlM
    refine ⟨s₂, text₂, ?_, hpre₁.trans hpre₂, hsz₂.trans hsz₁, h₂⟩
    rw [foldlM_cons, hs₁]
    exact hs₂

/-- The scratch buffer holds what is concatenated, which begins with the base. -/
theorem concat_eq (s : Rebased) :
    ∃ s' text, concat s = some s' ∧ s.cwd <+: text ∧ s'.out = text.length ∧
      s'.temp_buf.take s'.out = text ∧ s'.out ≤ s'.temp_buf.length ∧
      text.length ≤ scratchTotal s.cwd.length s.parts := by
  have hrm : s.cwd.length ≤ scratchTotal s.cwd.length s.parts := by
    simp only [scratchTotal]
    omega
  have hem : (undefined (scratchTotal s.cwd.length s.parts)).take 0 = [] := rfl
  obtain ⟨temp_buf, hbuf, hsz, hwr⟩ := memcpy_append s.cwd hem
    (by simpa [undefined] using hrm)
  rw [Nat.zero_add, nil_append] at hwr
  have hst : Holds ⟨s.cwd.length, temp_buf⟩ s.cwd s.parts :=
    ⟨rfl, hwr, by simp [hsz, undefined]⟩
  obtain ⟨s', text, hs', hpre, hsz', hout, hw, hfits⟩ := hst.foldlM
  simp only [scratchTotal, map_nil, sum_nil] at hfits
  have hun : temp_buf.length = scratchTotal s.cwd.length s.parts := by simp [hsz, undefined]
  refine ⟨s', text, ?_, hpre, hout, hw, by omega, by simp only at hsz'; omega⟩
  rw [concat, hbuf, bind_some, hs']

/-- The text of a root. -/
inductive Leads : Platform → List UInt8 → Prop
  | root (platform : Platform) : Leads platform [sep_posix]
  | drive {c : UInt8} : 0x41 ≤ c → c ≤ 0x5A → Leads .loose [c, colon, sep_posix]

theorem Leads.isAbsolute {lead : List UInt8} (h : Leads platform lead)
    (rest : List UInt8) : platform.isAbsolute (lead ++ rest) = true := by
  cases h with
  | root => cases platform <;> rfl
  | drive => simp [Platform.isAbsolute, isAbsoluteWindows, isSepAny_iff]

theorem Leads.isNormalized {lead : List UInt8} (h : Leads platform lead)
    (hwin : sep_windows ∉ rest)
    (hrs : normalized ⟨false, true, false⟩ rest = rest) :
    platform.IsNormalized (lead ++ rest) := by
  have hne : sep_windows ≠ sep_posix := by decide
  cases h with
  | root =>
    refine ⟨0, ?_, rfl, by simp [hne, hwin], hrs⟩
    cases platform <;> rfl
  | @drive c hlow hhg =>
    have hc : isSepAny c = false := by
      rw [Bool.eq_false_iff, Ne, isSepAny_iff]
      rintro (rfl | rfl)
      · exact absurd hlow (by decide)
      · exact absurd hhg (by decide)
    have hcw : c ≠ sep_windows := by
      rintro rfl
      cases hc
    have hcl : sep_windows ≠ colon := by decide
    refine ⟨2, ?_, rfl, by simp [hne, hwin, hcw.symm, hcl], hrs⟩
    simp [Platform.leadingSeparatorIndex, leadingSeparatorIndexWindows, hc, hlow, hhg,
      isSepAny_iff]

/-- What an absolute path begins with leads it, and is replaced by as many bytes. -/
theorem leadingSeparator_eq {cwd joined : List UInt8}
    (h : platform.isAbsolute cwd = true) (hpre : cwd <+: joined) :
    Leads platform (leadingSeparator platform joined) ∧
      (leadingSeparator platform joined).length ≤ joined.length := by
  obtain ⟨tail, rfl⟩ := hpre
  cases platform with
  | posix =>
    rcases cwd with _ | ⟨c, cwd⟩
    · cases h
    · obtain rfl : c = sep_posix := isSepPosix_iff.1 h
      have hld : leadingSeparator .posix (sep_posix :: cwd ++ tail) = [sep_posix] := rfl
      rw [hld]
      exact ⟨.root _, by simp⟩
  | loose =>
    rcases cwd with _ | ⟨c, cwd⟩
    · cases h
    · by_cases hc : isSepAny c = true
      · have hld : leadingSeparator .loose (c :: cwd ++ tail) = [sep_posix] := by
          rcases isSepAny_iff.1 hc with rfl | rfl <;> rfl
        rw [hld]
        exact ⟨.root _, by simp⟩
      · rcases cwd with _ | ⟨d, _ | ⟨e, cwd⟩⟩
        · simp [Platform.isAbsolute, isAbsoluteWindows, hc] at h
        · simp [Platform.isAbsolute, isAbsoluteWindows, hc] at h
        · obtain ⟨hd, he⟩ : d = colon ∧ isSepAny e = true := by
            simpa [Platform.isAbsolute, isAbsoluteWindows, hc] using h
          by_cases hdr : 0x41 ≤ c ∧ c ≤ 0x5A
          · have hcw : c ≠ sep_windows := by
              rintro rfl
              exact hc rfl
            have hld : leadingSeparator .loose (c :: d :: e :: cwd ++ tail) =
                [c, colon, sep_posix] := by
              have hcl : colon ≠ sep_windows := by decide
              rcases isSepAny_iff.1 he with rfl | rfl <;>
                simp [leadingSeparator, Platform.leadingSeparatorIndex,
                  leadingSeparatorIndexWindows, hc, hd, hdr, isSepAny_iff, hcw, hcl]
            rw [hld]
            exact ⟨.drive hdr.1 hdr.2, by simp⟩
          · have hpos : isSepPosix c = false := by
              rw [Bool.eq_false_iff]
              exact fun hsep => hc (isSepAny_iff.2 (.inl (isSepPosix_iff.1 hsep)))
            have hneg : ¬(0x41 ≤ c ∧ c ≤ 0x5A ∧ d = colon) := fun h => hdr ⟨h.1, h.2.1⟩
            have hno : Platform.leadingSeparatorIndex .loose (c :: d :: e :: cwd ++ tail) =
                none := by
              simp [Platform.leadingSeparatorIndex, leadingSeparatorIndexWindows,
                leadingSeparatorIndexPosix, hc, hpos, if_neg hneg]
            rw [leadingSeparator, hno]
            exact ⟨.root _, by simp⟩

theorem slice_eq {start stop : ℕ} (h : start ≤ stop) (hst : stop ≤ buf.length) :
    slice buf start stop = some ((buf.take stop).drop start) := if_pos ⟨h, hst⟩

theorem normalizeBehind_some {leading path buf' : List UInt8}
    (h : normalizeBehind leading rest buf = some (path, buf')) :
    path = leading ++ looseNormalized false true rest ∧ buf'.length = buf.length ∧
      path.length ≤ buf.length := by
  rw [normalizeBehind] at h
  obtain ⟨window, hwn, h⟩ := bind_eq_some_iff.1 h
  obtain ⟨⟨result, window'⟩, hrs, h⟩ := bind_eq_some_iff.1 h
  obtain ⟨buf₁, hbuf₁, h⟩ := bind_eq_some_iff.1 h
  obtain ⟨path', hpt, h⟩ := map_eq_some_iff.1 h
  obtain ⟨rfl, rfl⟩ := Prod.mk.inj h
  rw [slice] at hwn hpt
  split_ifs at hwn with hfit
  split_ifs at hpt with hlen
  obtain rfl := some.inj hwn
  obtain rfl := some.inj hpt
  obtain ⟨rfl, htk, hsz⟩ := normalizeStringBuf_some hrs
  simp only [take_length, length_drop] at hsz
  rw [memcpy] at hbuf₁
  split_ifs at hbuf₁ with hrm
  obtain rfl := some.inj hbuf₁
  have hpre : (buf.take leading.length ++ window').drop leading.length = window' :=
    drop_left' (by simp; omega)
  simp only [take_zero, nil_append, Nat.zero_add, drop_zero, hpre]
  have hlength : (leading ++ window').length = buf.length := by
    rw [length_append, hsz]
    omega
  refine ⟨?_, hlength, ?_⟩
  · rw [Nat.add_comm, take_length_add_append, htk]
  · simp [hlength]

theorem normalizeBehind_eq {leading : List UInt8}
    (h : leading.length + rest.length ≤ buf.length) :
    ∃ buf', normalizeBehind leading rest buf =
      some (leading ++ looseNormalized false true rest, buf') := by
  have hwn : (buf.take buf.length).drop leading.length = buf.drop leading.length := by simp
  have hrm : rest.length ≤ (buf.drop leading.length).length := by simp; omega
  obtain ⟨window, hrs⟩ := normalizeStringBuf_eq false true hrm
  obtain ⟨-, htk, hsz⟩ := normalizeStringBuf_some hrs
  have hlen := congrArg List.length htk
  simp only [List.length_take, length_drop] at hlen hsz
  have hem : (buf.take leading.length ++ window).take 0 = [] := rfl
  obtain ⟨buf₁, hbuf₁, hsz₁, -⟩ := memcpy_append leading hem (by simp; omega)
  have hlen₁ : (looseNormalized false true rest).length + leading.length ≤ buf₁.length := by
    simp [hsz₁]
    omega
  have hsm : ∃ path, normalizeBehind leading rest buf = some (path, buf₁) := by
    rw [normalizeBehind, slice_eq (by omega) le_rfl, bind_some, hwn, hrs,
      bind_some]
    simp only [hbuf₁, bind_some, slice_eq (Nat.zero_le _) hlen₁, map_some]
    exact ⟨_, rfl⟩
  obtain ⟨path, hpt⟩ := hsm
  exact ⟨buf₁, by rw [hpt, (normalizeBehind_some hpt).1]⟩

/-- Where there is a part, the result is an absolute normalized path: in a buffer that holds the
base and the parts, and in any other that it returns in. -/
theorem joinAbsStringBuf_eq {cwd : List UInt8}
    (h : platform.isAbsolute cwd = true) (hpr : parts ≠ []) :
    ∃ path, platform.isAbsolute path = true ∧ platform.IsNormalized path ∧
      path.length ≤ scratchTotal cwd.length parts ∧
      (∀ buf, scratchTotal cwd.length parts ≤ buf.length →
        ∃ buf', joinAbsStringBuf platform cwd buf parts = some (path, buf')) ∧
      ∀ buf out buf', joinAbsStringBuf platform cwd buf parts = some (out, buf') →
        out = path ∧ buf'.length = buf.length := by
  have hlen : parts.length ≠ 0 := mt length_eq_zero_iff.1 hpr
  by_cases hrt : parts = [[sep_posix]]
  · have hld := Leads.root platform
    refine ⟨[sep_posix], hld.isAbsolute [], hld.isNormalized (by simp) (show _ = [] from rfl),
      by simp [scratchTotal]; omega, fun buf _ => ⟨buf, ?_⟩, fun buf out buf' hout => ?_⟩
    · rw [joinAbsStringBuf, if_neg hlen, if_pos hrt]
    · rw [joinAbsStringBuf, if_neg hlen, if_pos hrt] at hout
      obtain ⟨rfl, rfl⟩ := Prod.mk.inj (some.inj hout)
      exact ⟨rfl, rfl⟩
  obtain ⟨s, hs, habs, hle⟩ := rebase_eq (n := parts.length + 1) (s := ⟨cwd, parts⟩) h
    (mod_le _ (2 ^ 16)) (show parts.length - 0 < parts.length + 1 from lt_succ_self _)
  obtain ⟨s', text, hs', hpre, hout, hwr, hfits, htl⟩ := concat_eq s
  obtain ⟨hld, hln⟩ := leadingSeparator_eq habs hpre
  have hjn : ∀ buf, joinAbsStringBuf platform cwd buf parts =
      normalizeBehind (leadingSeparator platform text)
        (text.drop (leadingSeparator platform text).length) buf := by
    intro buf
    rw [joinAbsStringBuf, if_neg hlen, if_neg hrt, hs, bind_some, hs', bind_some,
      slice_eq (Nat.zero_le _) hfits, bind_some, drop_zero, hwr]
    dsimp only
    rw [slice_eq (by omega) hfits, bind_some, hwr]
  have hlr : ∀ buf, scratchTotal cwd.length parts ≤ buf.length → ∃ buf',
      joinAbsStringBuf platform cwd buf parts = some (leadingSeparator platform text ++
        looseNormalized false true (text.drop (leadingSeparator platform text).length), buf') := by
    intro buf hbuf
    rw [hjn]
    exact normalizeBehind_eq (by simp; simp only at hle; omega)
  refine ⟨leadingSeparator platform text ++
      looseNormalized false true (text.drop (leadingSeparator platform text).length),
    hld.isAbsolute _, hld.isNormalized not_mem_looseNormalized normalized_looseNormalized,
    ?_, hlr, fun buf out buf' h' => ?_⟩
  · obtain ⟨buf', hbuf'⟩ := hlr (undefined (scratchTotal cwd.length parts)) (by simp [undefined])
    rw [hjn] at hbuf'
    simpa [undefined] using (normalizeBehind_some hbuf').2.2
  · rw [hjn] at h'
    exact ⟨(normalizeBehind_some h').1, (normalizeBehind_some h').2.1⟩

/-- Every path that either returns is one and the same. It is absolute, and normalized unless there
is no part, when it is the base as it stands. The checked join never leaves its buffer, and returns
null just where the path does not fit it. -/
theorem joinAbsStringBufChecked_eq (platform : Platform) (cwd : List UInt8)
    (parts : List (List UInt8)) (h : platform.isAbsolute cwd = true) :
    ∃ path, platform.isAbsolute path = true ∧
      (if parts = [] then path = cwd else platform.IsNormalized path) ∧
      (∀ buf, scratchTotal cwd.length parts ≤ buf.length →
        ∃ buf', joinAbsStringBuf platform cwd buf parts = some (path, buf')) ∧
      (∀ buf out buf', joinAbsStringBuf platform cwd buf parts = some (out, buf') →
        out = path ∧ buf'.length = buf.length) ∧
      ∀ buf, ∃ buf', joinAbsStringBufChecked platform cwd buf parts =
          some (if path.length ≤ buf.length then some path else none, buf') ∧
        buf'.length = buf.length := by
  have hroom : cwd.length ≤ scratchTotal cwd.length parts := by
    simp only [scratchTotal]
    omega
  obtain ⟨path, habs, hnorm, hle, hlarge, hany⟩ : ∃ path, platform.isAbsolute path = true ∧
      (if parts = [] then path = cwd else platform.IsNormalized path) ∧
      path.length ≤ scratchTotal cwd.length parts ∧
      (∀ buf, scratchTotal cwd.length parts ≤ buf.length →
        ∃ buf', joinAbsStringBuf platform cwd buf parts = some (path, buf')) ∧
      ∀ buf out buf', joinAbsStringBuf platform cwd buf parts = some (out, buf') →
        out = path ∧ buf'.length = buf.length := by
    by_cases hparts : parts = []
    · simp only [if_pos hparts]
      have hjoin : ∀ buf, joinAbsStringBuf platform cwd buf parts = some (cwd, buf) := by
        simp [joinAbsStringBuf, hparts]
      refine ⟨cwd, h, rfl, hroom, fun buf _ => ⟨buf, hjoin buf⟩, fun buf out buf' hout => ?_⟩
      rw [hjoin] at hout
      obtain ⟨rfl, rfl⟩ := Prod.mk.inj (some.inj hout)
      exact ⟨rfl, rfl⟩
    · simp only [if_neg hparts]
      exact joinAbsStringBuf_eq h hparts
  refine ⟨path, habs, hnorm, hlarge, hany, fun buf => ?_⟩
  rw [joinAbsStringBufChecked]
  dsimp only
  by_cases htotal : scratchTotal cwd.length parts < buf.length
  · obtain ⟨buf', hbuf'⟩ := hlarge buf htotal.le
    rw [if_pos htotal, if_pos (hle.trans htotal.le), hbuf']
    exact ⟨buf', rfl, (hany buf _ _ hbuf').2⟩
  · obtain ⟨scratch, hscratch⟩ :=
      hlarge (undefined (scratchTotal cwd.length parts)) (by simp [undefined])
    rw [if_neg htotal, hscratch, bind_some]
    by_cases hfit : path.length ≤ buf.length
    · have hempty : buf.take 0 = [] := rfl
      obtain ⟨buf', hbuf', hsize, hwritten⟩ := memcpy_append path hempty (by simpa using hfit)
      rw [Nat.zero_add, nil_append] at hwritten
      rw [if_pos hfit, if_neg (by simpa using hfit), hbuf', bind_some,
        slice_eq (Nat.zero_le _) (hfit.trans hsize.ge), drop_zero, hwritten]
      exact ⟨buf', rfl, hsize⟩
    · rw [if_neg hfit, if_pos (by simpa using hfit)]
      exact ⟨buf, rfl, rfl⟩

/-- `/a/../b/` and `c` join to `/b/c`, in four bytes and not in three. -/
theorem joinAbsStringBufChecked_dots :
    Platform.posix.isAbsolute [sep_posix, 97, sep_posix, dot, dot, sep_posix, 98, sep_posix] =
        true ∧
      ∀ buf, ∃ buf', joinAbsStringBufChecked .posix
          [sep_posix, 97, sep_posix, dot, dot, sep_posix, 98, sep_posix] buf [[99]] =
        some (if 4 ≤ buf.length then some [sep_posix, 98, sep_posix, 99] else none, buf') := by
  obtain ⟨path, -, -, -, hany, hchecked⟩ := joinAbsStringBufChecked_eq .posix
    [sep_posix, 97, sep_posix, dot, dot, sep_posix, 98, sep_posix] [[99]] rfl
  obtain ⟨rfl, -⟩ := hany (undefined 12) [sep_posix, 98, sep_posix, 99]
    ([sep_posix, 98, sep_posix, 99] ++ undefined 8) (by decide)
  refine ⟨rfl, fun buf => ?_⟩
  obtain ⟨buf', hbuf', -⟩ := hchecked buf
  exact ⟨buf', hbuf'⟩

/-- With no part to join, a base that is not normalized is returned as it is. -/
theorem joinAbsStringBufChecked_noParts :
    ¬ ∀ (platform : Platform) (cwd buf : List UInt8) (parts : List (List UInt8)),
      platform.isAbsolute cwd = true →
        ∀ path buf', joinAbsStringBufChecked platform cwd buf parts = some (some path, buf') →
          platform.IsNormalized path := by
  intro h
  exact absurd (h .posix [sep_posix, dot, dot] (undefined 8) [] rfl [sep_posix, dot, dot]
    (undefined 8) rfl) (by decide)

end Cruller.Paths
