import Cruller.Paths.NormalizeString

/-!
# What normalizing leaves of a path

The pass over a path follows its components (`Cruller.Trail`). Whatever it has read, the front of
the buffer is the trail so far, `dotdot` is the length of the steps up at its head, and what is
still to be read leads on from there (`Along`). The text of a trail is no longer than what led
along it, and shorter where a separator was read last, which is the room for the next one
(`room`).

So the pass leaves the trail of the whole path (`normalizeStringGenericTZ_eq`), in a buffer that
only has to hold the path and the terminator.
-/

namespace Cruller.Paths

open List Option Nat

/-- Where a path leads. -/
def trail (above : Bool) (path : List UInt8) : Trail dot above :=
  Trail.here.follow (path.splitOn sep_posix)

/-- The text of a path's trail, with the trailing separator that is to be kept. -/
def normalized (options : NormalizeOptions) (path : List UInt8) : List UInt8 :=
  let text := (trail options.allow_above_root path).text sep_posix
  if options.preserve_trailing_slash ∧ text ≠ [] ∧ path.getLast? = some sep_posix then
    text ++ [sep_posix]
  else text

/-- A path that normalizing leaves as it is. -/
def IsNormalized (path : List UInt8) : Prop := path = sep_posix :: normalized {} path

instance : DecidablePred IsNormalized :=
  fun path => inferInstanceAs (Decidable (path = sep_posix :: normalized {} path))

/-- The bytes a buffer needs beyond those of the path. -/
def slack (options : NormalizeOptions) : ℕ := if options.zero_terminate then 1 else 0

theorem dot_ne_sep : dot ≠ sep_posix := by decide

theorem isSepPosix_iff {c : UInt8} : isSepPosix c = true ↔ c = sep_posix := by
  simp [isSepPosix]

variable {buf path : List UInt8} {i : ℕ} {above : Bool}

theorem trail_names :
    ∀ c ∈ (trail above path).names, sep_posix ∉ c :=
  Trail.not_mem_of_follow (by simp [Trail.here]) fun _ => not_mem_of_mem_splitOn

theorem memcpy_append (src : List UInt8) {x : List UInt8} (hx : buf.take i = x)
    (hfit : i + src.length ≤ buf.length) :
    ∃ buf', memcpy buf i src = some buf' ∧ buf'.length = buf.length ∧
      buf'.take (i + src.length) = x ++ src := by
  refine ⟨_, if_pos hfit, ?_, ?_⟩
  · simp
    omega
  · have hlen : (buf.take i ++ src).length = i + src.length := by simp; omega
    rw [take_append_of_le_length hlen.ge, take_of_length_le hlen.le, hx]

theorem backtrack_eq {dotdot j : ℕ} (hfl : dotdot ≤ j)
    (hj : j = dotdot ∨ buf[j]? = some sep_posix) :
    ∀ {i : ℕ}, j ≤ i → (∀ k, j < k → k ≤ i → ∃ c, buf[k]? = some c ∧ c ≠ sep_posix) →
      backtrack buf dotdot i = some j
  | 0, hi, _ => by rw [backtrack, le_zero.1 hi]
  | i + 1, hi, hfr => by
    rw [backtrack]
    rcases Nat.lt_or_ge i j with h | h
    · obtain rfl : j = i + 1 := by omega
      rcases hj with rfl | hj
      · rw [if_neg (lt_irrefl _)]
      · split_ifs
        · rw [hj, bind_some, if_pos (isSepPosix_iff.2 rfl)]
        · rfl
    · obtain ⟨c, hc, hne⟩ := hfr (i + 1) (by omega) le_rfl
      rw [if_pos (by omega), hc, bind_some, if_neg (by rwa [isSepPosix_iff])]
      exact backtrack_eq hfl hj h fun k hk hki => hfr k hk (by omega)

theorem endsAt_iff (h : i ≤ path.length) :
    endsAt path i = true ↔ path.drop i = [] ∨ (path.drop i).head? = some sep_posix := by
  rw [endsAt, head?_drop, drop_eq_nil_iff, Bool.or_eq_true, beq_iff_eq,
    Option.any_eq_true]
  constructor
  · rintro (h' | ⟨c, hc, hsep⟩)
    · exact .inl h'.ge
    · exact .inr (by rw [hc, isSepPosix_iff.1 hsep])
  · rintro (h' | h')
    · exact .inl (by omega)
    · exact .inr ⟨_, h', isSepPosix_iff.2 rfl⟩

theorem exists_rest (xs : List UInt8) :
    ∃ rest, (xs.takeWhile fun c => !isSepPosix c) ++ rest = xs ∧
      (rest = [] ∨ rest.head? = some sep_posix) ∧
      sep_posix ∉ xs.takeWhile fun c => !isSepPosix c := by
  refine ⟨xs.dropWhile fun c => !isSepPosix c, takeWhile_append_dropWhile, ?_, fun hmem => ?_⟩
  · have hhd := head?_dropWhile_not (fun c => !isSepPosix c) xs
    rcases hd : xs.dropWhile fun c => !isSepPosix c with _ | ⟨c, cs⟩
    · exact .inl rfl
    · rw [hd] at hhd
      exact .inr (by simpa [isSepPosix] using hhd)
  · have hall := all_takeWhile (p := fun c => !isSepPosix c) (l := xs)
    rw [List.all_eq_true] at hall
    exact absurd (hall _ hmem) (by decide)

section Pass

variable {options : NormalizeOptions} {path : List UInt8} {size : ℕ} {s : Pass}
  {t : Trail dot options.allow_above_root}

/-- What has been read led along `t`, and what is left leads on to the end. -/
structure Along (options : NormalizeOptions) (path : List UInt8) (size : ℕ) (s : Pass)
    (t : Trail dot options.allow_above_root) : Prop where
  size_eq : s.buf.length = size
  fits : path.length ≤ size
  written : s.buf.take s.buf_i = t.text sep_posix
  floor : s.dotdot = 3 * t.ups - 1
  names : ∀ c ∈ t.names, sep_posix ∉ c
  r_le : s.r ≤ path.length
  leads : t.follow ((path.drop s.r).splitOn sep_posix) = trail options.allow_above_root path
  buf_i_le : s.buf_i ≤ s.r
  room : s.buf_i = 0 ∨ s.buf_i < s.r ∨
    (endsAt path s.r = true ∧ (path.take s.r).getLast? ≠ some sep_posix)

theorem Along.buf_i_eq (h : Along options path size s t) :
    s.buf_i = (t.text sep_posix).length := by
  have := h.size_eq
  have := h.fits
  have := h.r_le
  have := h.buf_i_le
  rw [← h.written, List.length_take]
  omega

theorem Along.dotdot_lt_iff (h : Along options path size s t) :
    s.dotdot < s.buf_i ↔ t.names ≠ [] := by
  rw [h.floor, h.buf_i_eq]
  constructor
  · intro hlt hnil
    rw [Trail.length_text_ups sep_posix hnil] at hlt
    exact absurd hlt (lt_irrefl _)
  · exact Trail.length_text_ups_lt sep_posix

/-- The way back from the last name ends where its parent's text does. -/
theorem Along.backtrack (h : Along options path size s t) (ht : t.names ≠ []) :
    backtrack s.buf s.dotdot (s.buf_i - 1) = some (t.parent.text sep_posix).length ∧
      (t.parent.text sep_posix).length ≤ s.buf_i ∧
      s.buf.take (t.parent.text sep_posix).length = t.parent.text sep_posix := by
  obtain ⟨names, c, hnm⟩ := (eq_nil_or_concat' t.names).resolve_left ht
  obtain ⟨hc, htc⟩ := Trail.parent_child hnm
  have hsep : sep_posix ∉ c := h.names c (by simp [hnm])
  have hpos : 0 < c.length := length_pos_iff.2 fun hnil => hc (.inl hnil)
  have htx := Trail.text_child sep_posix (t := t.parent) hc
  rw [← htc, Trail.lead] at htx
  have hlen := h.buf_i_eq
  have hbuf : ∀ k < s.buf_i, s.buf[k]? = (t.text sep_posix)[k]? := by
    intro k hk
    rw [← h.written, getElem?_take, if_pos hk]
  have hfl : s.dotdot ≤ (t.parent.text sep_posix).length := by
    rw [h.floor, ← Trail.parent_ups]
    by_cases hp : t.parent.names = []
    · exact (Trail.length_text_ups sep_posix hp).ge
    · exact (Trail.length_text_ups_lt sep_posix hp).le
  have hle : (t.parent.text sep_posix).length ≤ s.buf_i := by
    rw [hlen, htx]
    simp
  refine ⟨?_, hle, ?_⟩
  · by_cases hx : t.parent.text sep_posix = []
    · -- the only component: back to the start
      rw [if_pos hx, hx, nil_append, nil_append] at htx
      have hzr : s.dotdot = 0 := by
        have := hfl
        rw [hx] at this
        exact le_zero.1 this
      rw [hx]
      refine backtrack_eq (by simp [hzr]) (.inl (by simp [hzr])) (by simp) fun k hk hki => ?_
      have hkc : k < c.length := by
        rw [htx] at hlen
        omega
      refine ⟨c.get ⟨k, hkc⟩, ?_, fun heq => hsep (heq ▸ getElem_mem hkc)⟩
      rw [hbuf k (by omega), htx, getElem?_eq_getElem hkc, get_eq_getElem]
    · rw [if_neg hx, append_assoc, singleton_append] at htx
      rw [htx, length_append, length_cons] at hlen
      refine backtrack_eq hfl (.inr ?_) (by omega) fun k hk hki => ?_
      · rw [hbuf _ (by omega), htx, getElem?_append_right le_rfl, Nat.sub_self,
          getElem?_cons_zero]
      · obtain ⟨m, rfl⟩ : ∃ m, k = (t.parent.text sep_posix).length + (m + 1) :=
          ⟨k - (t.parent.text sep_posix).length - 1, by omega⟩
        have hkc : m < c.length := by omega
        refine ⟨c.get ⟨m, hkc⟩, ?_, fun heq => hsep (heq ▸ getElem_mem hkc)⟩
        rw [hbuf _ (by omega), htx, getElem?_append_right (Nat.le_add_right _ _),
          Nat.add_sub_cancel_left, getElem?_cons_succ, getElem?_eq_getElem hkc,
          get_eq_getElem]
  · rw [← Nat.min_eq_left hle, ← take_take, h.written, htx, append_assoc,
      take_left' rfl]

theorem Along.fresh (h : Along options path size s t) {c : UInt8} (hc : path[s.r]? = some c)
    (hne : c ≠ sep_posix) : s.buf_i = 0 ∨ s.buf_i < s.r := by
  rcases h.room with h0 | h0 | ⟨hend, -⟩
  · exact .inl h0
  · exact .inr h0
  · exfalso
    rcases (endsAt_iff h.r_le).1 hend with hnil | hhd
    · rw [drop_eq_nil_iff] at hnil
      rw [getElem?_eq_none hnil] at hc
      cases hc
    · rw [head?_drop, hc] at hhd
      exact hne (some.inj hhd)

variable {r : ℕ}

theorem room_of_written {name rest : List UInt8} (hdr : path.drop r = name ++ rest)
    (hrs : rest = [] ∨ rest.head? = some sep_posix) (hne : name ≠ [])
    (hsep : sep_posix ∉ name) :
    r + name.length ≤ path.length ∧ path.drop (r + name.length) = rest ∧
      endsAt path (r + name.length) = true ∧
      (path.take (r + name.length)).getLast? ≠ some sep_posix := by
  have hlen := congrArg List.length hdr
  rw [length_drop, length_append] at hlen
  have hpos := length_pos_iff.2 hne
  have hrs' : path.drop (r + name.length) = rest := by
    rw [← drop_drop, hdr, drop_left]
  have hle : r + name.length ≤ path.length := by omega
  refine ⟨hle, hrs', ?_, ?_⟩
  · rwa [endsAt_iff hle, hrs']
  · rw [take_add, hdr, take_left, getLast?_append_of_ne_nil _ hne]
    exact fun hls => hsep (mem_of_getLast? hls)

theorem Along.skip (h : Along options path size s t) (hr : s.r < r)
    (hle : r ≤ path.length)
    (hld : t.follow ((path.drop r).splitOn sep_posix) = trail options.allow_above_root path) :
    Along options path size { s with r } t :=
  { h with
    r_le := hle
    leads := hld
    buf_i_le := h.buf_i_le.trans hr.le
    room := .inr (.inl (h.buf_i_le.trans_lt hr)) }

theorem Along.rise (h : Along options path size s t) {src : List UInt8}
    (ht : t.names = []) (htx : t.rise.text sep_posix = t.text sep_posix ++ src)
    (hr : s.buf_i + src.length ≤ r) (hle : r ≤ path.length)
    (hld : t.rise.follow ((path.drop r).splitOn sep_posix) =
      trail options.allow_above_root path)
    (hend : endsAt path r = true) (hls : (path.take r).getLast? ≠ some sep_posix) :
    ∃ buf, memcpy s.buf s.buf_i src = some buf ∧
      Along options path size ⟨r, s.buf_i + src.length, s.buf_i + src.length, buf⟩ t.rise := by
  have hsz := h.size_eq
  have hfits := h.fits
  obtain ⟨buf, hbuf, hbs, hwr⟩ := memcpy_append src h.written (by omega)
  rw [← htx] at hwr
  have hlen := congrArg List.length hwr
  rw [List.length_take, Nat.min_eq_left (by omega)] at hlen
  exact ⟨buf, hbuf,
    { size_eq := hbs.trans hsz
      fits := hfits
      written := hwr
      floor := hlen.trans (Trail.length_text_ups sep_posix ht)
      names := h.names
      r_le := hle
      leads := hld
      buf_i_le := hr
      room := .inr (.inr ⟨hend, hls⟩) }⟩

/-- Two dots take a name away, stay or go above. -/
theorem Along.dotDotElement (h : Along options path size s t) {l : List UInt8}
    (hdr : path.drop s.r = [dot, dot] ++ l)
    (hrs : l = [] ∨ l.head? = some sep_posix) :
    ∃ s' t', dotDotElement options { s with r := s.r + 2 } = some s' ∧ s'.r = s.r + 2 ∧
      Along options path size s' t' := by
  obtain ⟨hle, hdr', hend, hls⟩ := room_of_written hdr hrs (by simp) (by decide)
  simp only [length_cons, length_nil, Nat.zero_add, Nat.reduceAdd] at hle hdr' hend
  simp only [length_cons, length_nil, Nat.zero_add, Nat.reduceAdd] at hls
  have hc : path[s.r]? = some dot := by
    rw [← head?_drop, hdr]
    rfl
  have hfr := h.fresh hc dot_ne_sep
  have hlen := h.buf_i_eq
  have hld : (if t.names = [] then t.rise else t.parent).follow
      ((path.drop (s.r + 2)).splitOn sep_posix) = trail options.allow_above_root path := by
    rw [← h.leads, hdr, Trail.follow_splitOn_append (by decide) hrs, Trail.push_dots, hdr']
  simp only [Paths.dotDotElement]
  by_cases ht : t.names = []
  · rw [if_pos ht] at hld
    rw [if_neg (mt h.dotdot_lt_iff.1 (not_not.2 ht))]
    by_cases hab : options.allow_above_root = true
    · have htx := Trail.text_rise sep_posix hab ht
      rw [Trail.lead] at htx
      rw [if_pos hab]
      by_cases h0 : 0 < s.buf_i
      · rw [if_neg fun hnil => by simp [hnil] at hlen; omega, append_assoc] at htx
        obtain ⟨buf, hbuf, h'⟩ := h.rise ht htx (r := s.r + 2) (by simp; omega) hle hld hend
          hls
        simp only [singleton_append] at hbuf
        refine ⟨_, _, ?_, rfl, h'⟩
        rw [if_pos h0, hbuf, map_some]
        rfl
      · rw [if_pos (length_eq_zero_iff.1 (by omega)), append_nil] at htx
        obtain ⟨buf, hbuf, h'⟩ := h.rise ht htx (r := s.r + 2) (by simp; omega) hle hld hend
          hls
        refine ⟨_, _, ?_, rfl, h'⟩
        rw [if_neg h0, hbuf, map_some]
        rfl
    · have hri : t.rise = t := by
        ext1
        · rw [Trail.rise_ups, if_neg hab]
        · rfl
      rw [hri] at hld
      exact ⟨_, t, if_neg hab, rfl, h.skip (by omega) hle hld⟩
  · rw [if_neg ht] at hld
    obtain ⟨hbc, hlt, hwr⟩ := h.backtrack ht
    have hle' := h.buf_i_le
    refine ⟨{ s with r := s.r + 2, buf_i := (t.parent.text sep_posix).length }, t.parent, ?_, rfl,
      ?_⟩
    · rw [if_pos (h.dotdot_lt_iff.2 ht), hbc, map_some]
    · exact
        { h with
          written := hwr
          names := fun c hc => h.names c (List.mem_of_mem_dropLast hc)
          r_le := hle
          leads := hld
          buf_i_le := hlt.trans (hle'.trans (Nat.le_add_right _ _))
          room := .inr (.inl (by change (t.parent.text sep_posix).length < s.r + 2; omega)) }

theorem Along.last_ne (h : Along options path size s t) (hpos : 0 < s.buf_i) :
    ∃ c, s.buf[s.buf_i - 1]? = some c ∧ c ≠ sep_posix := by
  have hlen := h.buf_i_eq
  have hls := Trail.getLast?_text dot_ne_sep h.names
  rw [getLast?_eq_getElem?, ← hlen, ← h.written, getElem?_take,
    if_pos (by omega)] at hls
  have hlt : s.buf_i - 1 < s.buf.length := by
    have := h.size_eq
    have := h.fits
    have := h.r_le
    have := h.buf_i_le
    omega
  rw [getElem?_eq_getElem hlt] at hls ⊢
  exact ⟨_, rfl, fun heq => hls (by rw [heq])⟩

theorem Along.addSlash (h : Along options path size s t)
    (hfr : s.buf_i = 0 ∨ s.buf_i < s.r) :
    ∃ s', addSlash s = some s' ∧ s'.r = s.r ∧ s'.dotdot = s.dotdot ∧ s'.buf.length = size ∧
      s'.buf_i ≤ s.r ∧ s'.buf.take s'.buf_i = t.lead sep_posix := by
  have hlen := h.buf_i_eq
  have hsz := h.size_eq
  have hfits := h.fits
  have hr := h.r_le
  rw [Paths.addSlash, Trail.lead]
  by_cases h0 : s.buf_i = 0
  · have hnil : t.text sep_posix = [] := length_eq_zero_iff.1 (by omega)
    rw [if_pos h0, if_pos hnil, append_nil]
    exact ⟨s, rfl, rfl, rfl, hsz, h.buf_i_le, h.written⟩
  · have hne : t.text sep_posix ≠ [] := fun hnil => by simp [hnil] at hlen; omega
    obtain ⟨c, hc, hcs⟩ := h.last_ne (by omega)
    obtain ⟨buf, hbuf, hbs, hwr⟩ := memcpy_append [sep_posix] h.written
      (by simp; omega)
    rw [if_neg h0, if_neg hne, hc, bind_some, if_neg (by rwa [isSepPosix_iff]), hbuf]
    exact ⟨_, rfl, rfl, rfl, hbs.trans hsz, by change s.buf_i + 1 ≤ s.r; omega, hwr⟩

/-- A name is put behind what is written. -/
theorem Along.element (h : Along options path size s t) {name rest : List UInt8}
    (hnm : (path.drop s.r).takeWhile (fun c => !isSepPosix c) = name)
    (hdr : path.drop s.r = name ++ rest) (hrs : rest = [] ∨ rest.head? = some sep_posix)
    (hsep : sep_posix ∉ name) (hpr : ¬ Special dot name) :
    ∃ s' t', element path s = some s' ∧ s.r < s'.r ∧ Along options path size s' t' := by
  have hne : name ≠ [] := fun hnil => hpr (.inl hnil)
  have hpos := length_pos_iff.2 hne
  obtain ⟨hle, hdr', hend, hls⟩ := room_of_written hdr hrs hne hsep
  obtain ⟨c, hc⟩ := exists_mem_of_ne_nil name hne
  have hhd : ∃ c, path[s.r]? = some c ∧ c ≠ sep_posix := by
    obtain ⟨d, ds, rfl⟩ := exists_cons_of_ne_nil hne
    refine ⟨d, ?_, fun heq => hsep (by simp [heq])⟩
    rw [← head?_drop, hdr]
    rfl
  obtain ⟨d, hd, hds⟩ := hhd
  obtain ⟨s', hsl, hr', hdd', hsz', hbuf_i', hwr'⟩ := h.addSlash (h.fresh hd hds)
  have hfits := h.fits
  obtain ⟨buf, hbuf, hbs, hwr⟩ := memcpy_append name hwr' (by omega)
  refine ⟨{ s' with buf, r := s'.r + name.length, buf_i := s'.buf_i + name.length },
    t.child name hpr, ?_, by change s.r < s'.r + name.length; omega, ?_⟩
  · simp [Paths.element, hsl, hr', hnm, hbuf]
  · rw [← hr'] at hle hdr' hend hls
    exact
      { size_eq := hbs.trans hsz'
        fits := hfits
        written := by rw [Trail.text_child sep_posix]; exact hwr
        floor := hdd'.trans h.floor
        names := by
          intro c hc
          rcases mem_append.1 hc with hc | hc
          · exact h.names c hc
          · rwa [mem_singleton.1 hc]
        r_le := hle
        leads := by
          rw [← h.leads, hdr, Trail.follow_splitOn_append hsep hrs, Trail.push_name hpr]
          exact congrArg _ (congrArg _ hdr')
        buf_i_le := by change s'.buf_i + name.length ≤ s'.r + name.length; omega
        room := .inr (.inr ⟨hend, hls⟩) }

/-- Each round moves along. -/
theorem Along.step (h : Along options path size s t) (hr : s.r < path.length) :
    ∃ s' t', passStep options path s = some s' ∧ s.r < s'.r ∧
      Along options path size s' t' := by
  have hdr : path.drop s.r = path[s.r] :: path.drop (s.r + 1) := drop_eq_getElem_cons hr
  have hget : path[s.r]? = some path[s.r] := getElem?_eq_getElem hr
  have hld := h.leads
  rw [passStep, hget, bind_some]
  by_cases hsep : path[s.r] = sep_posix
  · rw [if_pos (isSepPosix_iff.2 hsep)]
    refine ⟨_, t, rfl, lt_succ_self _, h.skip (lt_succ_self _) hr ?_⟩
    rwa [hdr, hsep, Trail.follow_splitOn_sep] at hld
  rw [if_neg (by rwa [isSepPosix_iff])]
  by_cases hdot : path[s.r] = dot ∧ endsAt path (s.r + 1) = true
  · rw [if_pos hdot]
    refine ⟨_, t, rfl, lt_succ_self _, h.skip (lt_succ_self _) hr ?_⟩
    rwa [hdr, hdot.1, ← singleton_append, Trail.follow_splitOn_append (by decide)
      ((endsAt_iff hr).1 hdot.2), Trail.push_dot] at hld
  rw [if_neg hdot]
  by_cases hdd : isDotDot (path.drop s.r) = true ∧ endsAt path (s.r + 2) = true
  · rw [if_pos hdd]
    have htk : (path.drop s.r).take 2 = [dot, dot] := by simpa [isDotDot] using hdd.1
    have hle : s.r + 2 ≤ path.length := by
      have := congrArg List.length htk
      simp at this
      omega
    obtain ⟨s', t', hs', hr', h'⟩ := h.dotDotElement (l := path.drop (s.r + 2))
      (by rw [← drop_drop, ← htk, take_append_drop]) ((endsAt_iff hle).1 hdd.2)
    exact ⟨s', t', hs', by omega, h'⟩
  rw [if_neg hdd]
  obtain ⟨rest, hsp, hrs, hfr⟩ := exists_rest (path.drop s.r)
  refine h.element rfl hsp.symm hrs hfr ?_
  -- what the branches before this one have caught
  rintro (hnil | hone | htwo)
  · rw [hdr, takeWhile_cons_of_pos (by simpa [isSepPosix] using hsep)] at hnil
    cases hnil
  · rw [hone, hdr] at hsp
    obtain ⟨heq, rfl⟩ := List.cons.inj hsp
    exact hdot ⟨heq.symm, (endsAt_iff hr).2 hrs⟩
  · rw [htwo] at hsp
    have hle : s.r + 2 ≤ path.length := by
      have := congrArg List.length hsp
      simp at this
      omega
    have htl : path.drop (s.r + 2) = rest := by
      rw [← drop_drop, ← hsp]
      rfl
    refine hdd ⟨?_, (endsAt_iff hle).2 (by rwa [htl])⟩
    rw [isDotDot, ← hsp]
    rfl

theorem Along.pass {n : ℕ} (h : Along options path size s t) (hn : path.length - s.r < n) :
    ∃ s' t', pass options path n s = some s' ∧ s'.r = path.length ∧
      Along options path size s' t' := by
  induction n generalizing s t with
  | zero => omega
  | succ n ih =>
    rw [Paths.pass]
    by_cases hr : s.r < path.length
    · obtain ⟨s₁, t₁, hs₁, hlt, h₁⟩ := h.step hr
      rw [if_pos hr, hs₁, bind_some]
      exact ih h₁ (by omega)
    · rw [if_neg hr]
      exact ⟨s, t, rfl, le_antisymm h.r_le (not_lt.1 hr), h⟩

/-- At the end of the path, the slash behind the last name is kept or not as the options say. -/
theorem Along.trailingSlash (h : Along options path size s t) (hr : s.r = path.length) :
    ∃ s', trailingSlash options path s = some s' ∧ s'.buf.length = size ∧
      s'.buf_i ≤ path.length ∧ s'.buf.take s'.buf_i = normalized options path := by
  have hsz := h.size_eq
  have hfits := h.fits
  have hlen := h.buf_i_eq
  have hle := h.buf_i_le
  have ht : t = trail options.allow_above_root path := by
    have hld := h.leads
    rwa [hr, drop_length, splitOn_nil, Trail.follow_cons, Trail.push_nil] at hld
  have hwr := h.written
  have hnil : t.text sep_posix ≠ [] ↔ 0 < s.buf_i := by
    rw [hlen, length_pos_iff]
  rw [Paths.trailingSlash, normalized, ← ht]
  simp only [hnil]
  by_cases hp : options.preserve_trailing_slash = true ∧ 0 < s.buf_i
  · obtain ⟨c, hc, hne⟩ := h.last_ne hp.2
    have hlt : path.length - 1 < path.length := by omega
    have hls : path.getLast? = some path[path.length - 1] := by
      rw [getLast?_eq_getElem?, getElem?_eq_getElem hlt]
    rw [if_pos hp, getElem?_eq_getElem hlt, bind_some, hc, bind_some, hls]
    by_cases hsep : path[path.length - 1] = sep_posix
    · have hrm : s.buf_i < path.length := by
        rcases h.room with h0 | h0 | ⟨-, h0⟩
        · omega
        · omega
        · rw [hr, take_length, hls, hsep] at h0
          exact absurd rfl h0
      obtain ⟨buf, hbuf, hbs, hw⟩ := memcpy_append [sep_posix] hwr
        (by simp; omega)
      rw [if_pos ⟨hsep, hne⟩, hbuf, if_pos ⟨hp.1, hp.2, by rw [hsep]⟩]
      exact ⟨_, rfl, hbs.trans hsz, hrm, hw⟩
    · rw [if_neg fun h => hsep h.1, if_neg fun h => hsep (some.inj h.2.2)]
      exact ⟨s, rfl, hsz, by omega, hwr⟩
  · rw [if_neg hp, if_neg fun h => hp ⟨h.1, h.2.1⟩]
    exact ⟨s, rfl, hsz, by omega, hwr⟩

end Pass

/-- The pass leaves the trail of its path, in a buffer as long as the path and the terminator. -/
theorem normalizeStringGenericTZ_eq (options : NormalizeOptions) (path buf : List UInt8)
    (h : path.length + slack options ≤ buf.length) :
    ∃ buf', normalizeStringGenericTZ options path buf = some (normalized options path, buf') ∧
      buf'.length = buf.length ∧
      (options.zero_terminate = true → buf'[(normalized options path).length]? = some 0) := by
  have hfits : path.length ≤ buf.length := le_trans (Nat.le_add_right _ _) h
  have hst : Along options path buf.length ⟨0, 0, 0, buf⟩ Trail.here :=
    { size_eq := rfl
      fits := hfits
      written := rfl
      floor := rfl
      names := by simp [Trail.here]
      r_le := Nat.zero_le _
      leads := rfl
      buf_i_le := le_rfl
      room := .inl rfl }
  obtain ⟨s₁, t, hs₁, hr, h₁⟩ := hst.pass (n := path.length + 1) (lt_succ_self _)
  obtain ⟨s₂, hs₂, hsz, hle, hwr⟩ := h₁.trailingSlash hr
  rw [normalizeStringGenericTZ, hs₁, bind_some, hs₂, bind_some, zeroTerminate]
  by_cases hz : options.zero_terminate = true
  · rw [slack, if_pos hz] at h
    obtain ⟨buf', hbuf, hbs, hw⟩ := memcpy_append [0] hwr (by simp; omega)
    have hlen := congrArg List.length hwr
    rw [List.length_take, Nat.min_eq_left (by omega)] at hlen
    have htk : buf'.take s₂.buf_i = normalized options path := by
      have := congrArg (List.take s₂.buf_i) hw
      rwa [take_take, Nat.min_eq_left (by simp), take_left' hlen.symm] at this
    refine ⟨buf', ?_, hbs.trans hsz, fun _ => ?_⟩
    · rw [if_pos hz, hbuf, map_some, map_some, htk]
    · rw [← hlen]
      have hget := congrArg (fun l : List UInt8 => l[s₂.buf_i]?) hw
      rwa [getElem?_take, if_pos (by simp), getElem?_append_right hlen.ge,
        hlen, Nat.sub_self, ← hlen] at hget
  · rw [if_neg hz]
    refine ⟨s₂.buf, ?_, hsz, fun h => absurd h hz⟩
    rw [map_some, hwr]

/-- The same state in a longer buffer. -/
def Pass.pad (s : Pass) (tail : List UInt8) : Pass := { s with buf := s.buf ++ tail }

@[simp]
theorem Pass.pad_r (s : Pass) (tail : List UInt8) : (s.pad tail).r = s.r := rfl

@[simp]
theorem Pass.pad_buf_i (s : Pass) (tail : List UInt8) : (s.pad tail).buf_i = s.buf_i := rfl

theorem memcpy_pad {buf' src : List UInt8} (tail : List UInt8)
    (h : memcpy buf i src = some buf') :
    memcpy (buf ++ tail) i src = some (buf' ++ tail) ∧ i + src.length ≤ buf'.length ∧
      buf'.length = buf.length := by
  rw [memcpy] at h
  split_ifs at h with hfit
  obtain rfl := some.inj h
  refine ⟨?_, by simp; omega, by simp; omega⟩
  rw [memcpy, if_pos (by simp; omega), take_append_of_le_length (by omega),
    drop_append_of_le_length hfit, ← append_assoc]

theorem getElem?_pad {c : UInt8} (tail : List UInt8)
    (h : buf[i]? = some c) : (buf ++ tail)[i]? = some c := by
  rw [getElem?_append_left (List.getElem?_eq_some_iff.1 h).1, h]

theorem backtrack_pad {dotdot : ℕ} (tail : List UInt8) :
    ∀ {i j : ℕ}, backtrack buf dotdot i = some j →
      backtrack (buf ++ tail) dotdot i = some j ∧ j ≤ i
  | 0, j, h => ⟨h, (some.inj h).ge⟩
  | i + 1, j, h => by
    rw [backtrack] at h ⊢
    split_ifs at h ⊢ with hlt
    · obtain ⟨c, hc, h⟩ := bind_eq_some_iff.1 h
      rw [getElem?_pad tail hc, bind_some]
      split_ifs at h ⊢
      · exact ⟨h, (some.inj h).ge⟩
      · obtain ⟨hpad, hle⟩ := backtrack_pad tail h
        exact ⟨hpad, hle.trans (le_succ i)⟩
    · exact ⟨h, (some.inj h).ge⟩

section Pad

variable {options : NormalizeOptions} {path : List UInt8} {s s' : Pass} (tail : List UInt8)

/-- `s'` follows `s` in any longer buffer as well, and its text lies within the buffer. -/
structure Pads (tail : List UInt8) (f : Pass → Option Pass) (s s' : Pass) : Prop where
  padded : f (s.pad tail) = some (s'.pad tail)
  fits : s'.buf_i ≤ s'.buf.length
  size_eq : s'.buf.length = s.buf.length

theorem dotDotElement_pads (hfits : s.buf_i ≤ s.buf.length)
    (h : dotDotElement options s = some s') : Pads tail (dotDotElement options) s s' := by
  rw [dotDotElement] at h
  split_ifs at h with hlt hab hpos
  · obtain ⟨i, hi, rfl⟩ := map_eq_some_iff.1 h
    obtain ⟨hpad, hle⟩ := backtrack_pad tail hi
    exact ⟨by simp [dotDotElement, Pass.pad, hlt, hpad], by simp; omega, rfl⟩
  · obtain ⟨buf, hbuf, rfl⟩ := map_eq_some_iff.1 h
    obtain ⟨hpad, hle, hsz⟩ := memcpy_pad tail hbuf
    exact ⟨by simp [dotDotElement, Pass.pad, hlt, hab, hpos, hpad], hle, hsz⟩
  · obtain ⟨buf, hbuf, rfl⟩ := map_eq_some_iff.1 h
    obtain ⟨hpad, hle, hsz⟩ := memcpy_pad tail hbuf
    exact ⟨by simp [dotDotElement, Pass.pad, hlt, hab, hpos, hpad], hle, hsz⟩
  · obtain rfl := some.inj h
    exact ⟨by simp [dotDotElement, Pass.pad, hlt, hab], hfits, rfl⟩

theorem addSlash_pads (hfits : s.buf_i ≤ s.buf.length) (h : addSlash s = some s') :
    Pads tail addSlash s s' := by
  rw [addSlash] at h
  split_ifs at h with h0
  · obtain rfl := some.inj h
    exact ⟨by simp [addSlash, Pass.pad, h0], hfits, rfl⟩
  · obtain ⟨c, hc, h⟩ := bind_eq_some_iff.1 h
    have hc' := getElem?_pad tail hc
    split_ifs at h with hsep
    · obtain rfl := some.inj h
      exact ⟨by simp [addSlash, Pass.pad, h0, hc', hsep], hfits, rfl⟩
    · obtain ⟨buf, hbuf, rfl⟩ := map_eq_some_iff.1 h
      obtain ⟨hpad, hle, hsz⟩ := memcpy_pad tail hbuf
      exact ⟨by simp [addSlash, Pass.pad, h0, hc', hsep, hpad], hle, hsz⟩

theorem element_pads (hfits : s.buf_i ≤ s.buf.length) (h : element path s = some s') :
    Pads tail (element path) s s' := by
  rw [element] at h
  obtain ⟨s₁, hs₁, h⟩ := bind_eq_some_iff.1 h
  obtain ⟨buf, hbuf, rfl⟩ := map_eq_some_iff.1 h
  obtain ⟨hpad₁, -, hsz₁⟩ := addSlash_pads tail hfits hs₁
  obtain ⟨hpad, hle, hsz⟩ := memcpy_pad tail hbuf
  refine ⟨?_, hle, hsz.trans hsz₁⟩
  rw [element, hpad₁, bind_some]
  exact map_eq_some_iff.2 ⟨_, hpad, rfl⟩

theorem passStep_pads (hfits : s.buf_i ≤ s.buf.length)
    (h : passStep options path s = some s') : Pads tail (passStep options path) s s' := by
  rw [passStep] at h
  obtain ⟨c, hc, h⟩ := bind_eq_some_iff.1 h
  split_ifs at h with hsep hdot hdt
  · obtain rfl := some.inj h
    exact ⟨by rw [passStep, Pass.pad_r, hc, bind_some, if_pos hsep]; rfl, hfits, rfl⟩
  · obtain rfl := some.inj h
    exact ⟨by rw [passStep, Pass.pad_r, hc, bind_some, if_neg hsep, if_pos hdot]; rfl, hfits, rfl⟩
  · obtain ⟨hpad, hle, hsz⟩ :=
      dotDotElement_pads (s := { s with r := s.r + 2 }) tail hfits h
    refine ⟨?_, hle, hsz⟩
    rw [passStep, Pass.pad_r, hc, bind_some, if_neg hsep, if_neg hdot, if_pos hdt]
    exact hpad
  · obtain ⟨hpad, hle, hsz⟩ := element_pads tail hfits h
    refine ⟨?_, hle, hsz⟩
    rw [passStep, Pass.pad_r, hc, bind_some, if_neg hsep, if_neg hdot, if_neg hdt]
    exact hpad

theorem pass_pads : ∀ {n : ℕ} {s s' : Pass}, s.buf_i ≤ s.buf.length →
    pass options path n s = some s' → Pads tail (pass options path n) s s'
  | 0, _, _, _, h => by cases h
  | n + 1, s, s', hfits, h => by
    rw [pass] at h
    split_ifs at h with hr
    · obtain ⟨s₁, hs₁, h⟩ := bind_eq_some_iff.1 h
      obtain ⟨hpad₁, hle₁, hsz₁⟩ := passStep_pads tail hfits hs₁
      obtain ⟨hpad, hle, hsz⟩ := pass_pads hle₁ h
      refine ⟨?_, hle, hsz.trans hsz₁⟩
      rw [pass, Pass.pad_r, if_pos hr, hpad₁, bind_some, hpad]
    · obtain rfl := some.inj h
      exact ⟨by rw [pass, Pass.pad_r, if_neg hr], hfits, rfl⟩

theorem trailingSlash_pads (hfits : s.buf_i ≤ s.buf.length)
    (h : trailingSlash options path s = some s') : Pads tail (trailingSlash options path) s s' := by
  rw [trailingSlash] at h
  split_ifs at h with hkp
  · obtain ⟨last, hls, h⟩ := bind_eq_some_iff.1 h
    obtain ⟨c, hc, h⟩ := bind_eq_some_iff.1 h
    have hc' := getElem?_pad tail hc
    split_ifs at h with hsep
    · obtain ⟨buf, hbuf, rfl⟩ := map_eq_some_iff.1 h
      obtain ⟨hpad, hle, hsz⟩ := memcpy_pad tail hbuf
      refine ⟨?_, hle, hsz⟩
      rw [trailingSlash, Pass.pad_buf_i, if_pos hkp, hls, bind_some]
      simp [Pass.pad, hc', hsep, hpad]
    · obtain rfl := some.inj h
      refine ⟨?_, hfits, rfl⟩
      rw [trailingSlash, Pass.pad_buf_i, if_pos hkp, hls, bind_some]
      simp [Pass.pad, hc', hsep]
  · obtain rfl := some.inj h
    exact ⟨by rw [trailingSlash, Pass.pad_buf_i, if_neg hkp], hfits, rfl⟩

theorem zeroTerminate_pads (hfits : s.buf_i ≤ s.buf.length)
    (h : zeroTerminate options s = some s') : Pads tail (zeroTerminate options) s s' := by
  rw [zeroTerminate] at h
  split_ifs at h with hz
  · obtain ⟨buf, hbuf, rfl⟩ := map_eq_some_iff.1 h
    obtain ⟨hpad, hle, hsz⟩ := memcpy_pad tail hbuf
    exact ⟨by simp [zeroTerminate, Pass.pad, hz, hpad], by simp; omega, hsz⟩
  · obtain rfl := some.inj h
    exact ⟨by rw [zeroTerminate, if_neg hz], hfits, rfl⟩

end Pad

theorem normalizeStringGenericTZ_some {options : NormalizeOptions} {out buf' : List UInt8}
    (h : normalizeStringGenericTZ options path buf = some (out, buf')) :
    out = normalized options path ∧ buf'.take out.length = out ∧ buf'.length = buf.length := by
  let tail : List UInt8 := List.replicate (path.length + slack options) 0
  rw [normalizeStringGenericTZ] at h
  obtain ⟨s₁, hs₁, h⟩ := bind_eq_some_iff.1 h
  obtain ⟨s₂, hs₂, h⟩ := bind_eq_some_iff.1 h
  obtain ⟨s₃, hs₃, h⟩ := map_eq_some_iff.1 h
  obtain ⟨rfl, rfl⟩ := Prod.mk.inj h
  obtain ⟨hpad₁, hle₁, hsz₁⟩ := pass_pads tail (Nat.zero_le _) hs₁
  obtain ⟨hpad₂, hle₂, hsz₂⟩ := trailingSlash_pads tail hle₁ hs₂
  obtain ⟨hpad₃, hle₃, hsz₃⟩ := zeroTerminate_pads tail hle₂ hs₃
  obtain ⟨buf'', hbuf, -⟩ := normalizeStringGenericTZ_eq options path (buf ++ tail) (by simp [tail])
  have hst : (⟨0, 0, 0, buf ++ tail⟩ : Pass) = (⟨0, 0, 0, buf⟩ : Pass).pad tail := rfl
  rw [normalizeStringGenericTZ, hst, hpad₁, bind_some, hpad₂, bind_some, hpad₃,
    map_some] at hbuf
  have htx := (Prod.mk.inj (some.inj hbuf)).1
  refine ⟨?_, ?_, (hsz₃.trans hsz₂).trans hsz₁⟩
  · rw [← htx]
    exact (take_append_of_le_length hle₃).symm
  · simp

theorem trail_append_sep (xs ys : List UInt8) :
    trail above (xs ++ sep_posix :: ys) = (trail above xs).follow (ys.splitOn sep_posix) := by
  rw [trail, splitOn_append_cons_self, Trail.follow_append, trail]

theorem trail_text (path : List UInt8) :
    trail above ((trail above path).text sep_posix) = trail above path :=
  Trail.follow_splitOn_text dot_ne_sep trail_names

theorem normalized_normalized (options : NormalizeOptions) (path : List UInt8) :
    normalized options (normalized options path) = normalized options path := by
  have hnm : ∀ c ∈ (trail options.allow_above_root path).names, sep_posix ∉ c := trail_names
  have hls := Trail.getLast?_text dot_ne_sep hnm
  by_cases h : options.preserve_trailing_slash = true ∧
      (trail options.allow_above_root path).text sep_posix ≠ [] ∧
      path.getLast? = some sep_posix
  · have hn : normalized options path =
        (trail options.allow_above_root path).text sep_posix ++ [sep_posix] := if_pos h
    have htr : trail options.allow_above_root (normalized options path) =
        trail options.allow_above_root path := by
      rw [hn, trail_append_sep, trail_text, splitOn_nil, Trail.follow_cons, Trail.push_nil]
      rfl
    rw [normalized, htr, if_pos ⟨h.1, h.2.1, by rw [hn]; simp⟩, hn]
  · have hn : normalized options path = (trail options.allow_above_root path).text sep_posix :=
      if_neg h
    rw [hn, normalized, trail_text, if_neg fun h' => hls h'.2.2]

theorem normalized_preserve (options : NormalizeOptions) (path : List UInt8) :
    normalized { options with preserve_trailing_slash := true } (normalized options path) =
      normalized options path := by
  by_cases h : options.preserve_trailing_slash = true
  · have heq : { options with preserve_trailing_slash := true } = options := by
      rw [← h]
    rw [heq, normalized_normalized]
  · have hn : normalized options path = (trail options.allow_above_root path).text sep_posix :=
      if_neg fun h' => h h'.1
    have hls := Trail.getLast?_text dot_ne_sep (t := trail options.allow_above_root path)
      trail_names
    rw [hn, normalized, trail_text, if_neg fun h' => hls h'.2.2]

/-- Normalizing leaves the component stack of a path, with its trailing separator if it is to be
kept, and normalizing again changes nothing; a buffer that holds the input and the terminator is
enough. -/
theorem normalizeStringGenericTZ_spec (options : NormalizeOptions) (path buf : List UInt8)
    (h : path.length + slack options ≤ buf.length) :
    ∃ buf', normalizeStringGenericTZ options path buf = some (normalized options path, buf') ∧
      buf'.length = buf.length ∧
      (options.zero_terminate = true → buf'[(normalized options path).length]? = some 0) ∧
      ∀ buf₂ : List UInt8, (normalized options path).length + slack options ≤ buf₂.length →
        ∃ buf₂', normalizeStringGenericTZ options (normalized options path) buf₂ =
          some (normalized options path, buf₂') := by
  obtain ⟨buf', hbuf, hsize, hzero⟩ := normalizeStringGenericTZ_eq options path buf h
  refine ⟨buf', hbuf, hsize, hzero, fun buf₂ h₂ => ?_⟩
  obtain ⟨buf₂', hbuf₂, -, -⟩ := normalizeStringGenericTZ_eq options _ _ h₂
  exact ⟨buf₂', by rw [hbuf₂, normalized_normalized]⟩

/-- `/a/../b/`, in as many bytes. -/
theorem normalizeStringGenericTZ_dots :
    ∃ buf', normalizeStringGenericTZ ⟨false, true, false⟩
        [sep_posix, 97, sep_posix, dot, dot, sep_posix, 98, sep_posix] (List.replicate 8 0) =
      some ([98, sep_posix], buf') := by
  obtain ⟨buf', hbuf, -⟩ := normalizeStringGenericTZ_spec ⟨false, true, false⟩
    [sep_posix, 97, sep_posix, dot, dot, sep_posix, 98, sep_posix] (List.replicate 8 0) (by decide)
  exact ⟨buf', hbuf⟩

end Cruller.Paths
