import Cruller.Paths.Normalized
import Mathlib.Data.FinEnum

/-!
# Normalizing a path, as Node does

`normalizeStringT` with posix separators: one pass over the path that counts the dots of the
segment it is in (`dots`, none once there is another byte) and remembers the slash before it. At the
next slash, or at the end, it writes the segment, or goes back in the buffer for a double dot. A
write outside the buffer is `none`.

Over an absolute path, the front of the buffer is the trail of what has been read (`At`), a segment
at a time (`At.segment`), so the pass leaves the trail of the path (`normalizeStringT_eq`).
-/

namespace Cruller.NodePath

open List Paths

/-- `std.mem.lastIndexOfScalar` -/
def lastIndexOfScalar (slice : List UInt8) (value : UInt8) : Option ℕ :=
  (slice.reverse.findIdx? (· == value)).map fun i => slice.length - 1 - i

/-- The state of the loop. -/
structure Normalizing where
  bufSize : ℕ := 0
  lastSegmentLength : ℕ := 0
  lastSlash : Option ℕ := none
  dots : Option ℕ := some 0
  byte : UInt8 := 0
  buf : List UInt8

namespace Normalizing

/-- `buf[0..bufSize]` -/
def res (s : Normalizing) : List UInt8 := s.buf.take s.bufSize

/-- `buf[bufSize..][0..bytes.len] = bytes` -/
def write (s : Normalizing) (bytes : List UInt8) : Option Normalizing :=
  (memcpy s.buf s.bufSize bytes).map fun buf =>
    { s with buf, bufSize := s.bufSize + bytes.length }

/-- The segment's slash, at `i`. -/
def slash (s : Normalizing) (i : ℕ) : Normalizing := { s with lastSlash := some i, dots := some 0 }

def endsInDotDot (s : Normalizing) : Bool :=
  decide (2 ≤ s.bufSize) && s.lastSegmentLength == 2 && s.buf[s.bufSize - 1]? == some dot &&
    s.buf[s.bufSize - 2]? == some dot

/-- `res = res.slice(0, res.lastIndexOf(separator))` -/
def removeLast (s : Normalizing) : Normalizing :=
  match lastIndexOfScalar s.res sep_posix with
  | none => { s with bufSize := 0, lastSegmentLength := 0 }
  | some bufSize =>
    { s with
      bufSize
      lastSegmentLength :=
        match lastIndexOfScalar (s.buf.take bufSize) sep_posix with
        | none => bufSize
        | some lastIndexOfSep => bufSize - 1 - lastIndexOfSep }

/-- A `..` segment. -/
def dotDot (allowAboveRoot : Bool) (s : Normalizing) : Option Normalizing :=
  if ¬ s.endsInDotDot ∧ 2 < s.bufSize then some s.removeLast
  else if ¬ s.endsInDotDot ∧ s.bufSize ≠ 0 then
    some { s with bufSize := 0, lastSegmentLength := 0 }
  else if allowAboveRoot then
    (if 0 < s.bufSize then s.write [sep_posix, dot, dot]
      else ({ s with bufSize := 0 }).write [dot, dot]).map
      fun s => { s with lastSegmentLength := 2 }
  else some s

/-- Any other segment, which ends before `i`. -/
def segment (path : List UInt8) (i : ℕ) (s : Normalizing) : Option Normalizing :=
  (if 0 < s.bufSize then s.write [sep_posix] else some s).bind fun s =>
    let sliceStart := match s.lastSlash with | some lastSlash => lastSlash + 1 | none => 0
    let subtract := match s.lastSlash with | some lastSlash => lastSlash + 1 | none => 2
    (s.write ((path.take i).drop sliceStart)).map fun s =>
      { s with lastSegmentLength := i - subtract }

/-- A name has ended. -/
def atSlash (path : List UInt8) (allowAboveRoot : Bool) (i : ℕ) (s : Normalizing) :
    Option Normalizing :=
  if (s.lastSlash = none ∧ i = 0) ∨ (0 < i ∧ s.lastSlash = some (i - 1)) ∨ s.dots = some 1 then
    some (s.slash i)
  else if s.dots = some 2 then (s.dotDot allowAboveRoot).map fun s => s.slash i
  else (s.segment path i).map fun s => s.slash i

/-- A byte of a name. -/
def atByte (byte : UInt8) (s : Normalizing) : Normalizing :=
  { s with byte, dots := if byte = dot then s.dots.map (· + 1) else none }

/-- `while (i <= len)`, for the rounds that are left. -/
def loop (path : List UInt8) (allowAboveRoot : Bool) : ℕ → ℕ → Normalizing → Option Normalizing
  | 0, _, s => some s
  | n + 1, i, s =>
    match path[i]? with
    | some byte =>
      if isSepPosix byte then
        (atSlash path allowAboveRoot i { s with byte }).bind (loop path allowAboveRoot n (i + 1))
      else loop path allowAboveRoot n (i + 1) (s.atByte byte)
    | none =>
      if isSepPosix s.byte then some s
      else
        (atSlash path allowAboveRoot i { s with byte := sep_posix }).bind
          (loop path allowAboveRoot n (i + 1))

end Normalizing

/-- The result, and the buffer it lies at the front of. -/
def normalizeStringT (path : List UInt8) (allowAboveRoot : Bool) (buf : List UInt8) :
    Option (List UInt8 × List UInt8) :=
  (Normalizing.loop path allowAboveRoot (path.length + 1) 0 { buf }).bind fun s =>
    (memcpy s.buf s.bufSize [0]).map fun buf => (buf.take s.bufSize, buf)

theorem lastIndexOfScalar_of_not_mem {slice : List UInt8} {value : UInt8} (h : value ∉ slice) :
    lastIndexOfScalar slice value = none := by
  rw [lastIndexOfScalar, Option.map_eq_none_iff, findIdx?_eq_none_iff]
  intro c hc
  have hne : c ≠ value := by
    rintro rfl
    exact h (mem_reverse.1 hc)
  simpa using hne

theorem lastIndexOfScalar_append {front back : List UInt8} {value : UInt8} (h : value ∉ back) :
    lastIndexOfScalar (front ++ value :: back) value = some front.length := by
  have hbc : (back.reverse.findIdx? (· == value)) = none := by
    rw [findIdx?_eq_none_iff]
    intro c hc
    have hne : c ≠ value := by
      rintro rfl
      exact h (mem_reverse.1 hc)
    simpa using hne
  rw [lastIndexOfScalar, reverse_append, reverse_cons, append_assoc,
    findIdx?_append, hbc]
  simp [findIdx?_cons]

section Segment

variable {size : ℕ} {path : List UInt8} {s : Normalizing} {t : Trail dot false}

/-- What has been written is the path so far. -/
structure Front (size : ℕ) (s : Normalizing) (t : Trail dot false) : Prop where
  size_eq : s.buf.length = size
  written : s.res = t.text sep_posix
  bufSize_eq : s.bufSize = (t.text sep_posix).length
  names : ∀ c ∈ t.names, sep_posix ∉ c
  lastLength : ∀ names c, t.names = names ++ [c] → s.lastSegmentLength = c.length

theorem Front.of_eq (h : Front size s t) {s' : Normalizing} (hbuf : s'.buf = s.buf)
    (hsz : s'.bufSize = s.bufSize) (hls : s'.lastSegmentLength = s.lastSegmentLength) :
    Front size s' t := by
  obtain ⟨hs, hw, hb, hn, hl⟩ := h
  refine ⟨hbuf ▸ hs, ?_, hsz ▸ hb, hn, fun names c hc => hls ▸ hl names c hc⟩
  rwa [Normalizing.res, hbuf, hsz]

theorem text_of_names (t : Trail dot false) : t.text sep_posix = [sep_posix].intercalate t.names := by
  rw [Trail.text, Trail.components, t.floor rfl]
  rfl

theorem Front.not_endsInDotDot (h : Front size s t) : s.endsInDotDot = false := by
  rw [Bool.eq_false_iff]
  intro hen
  simp only [Normalizing.endsInDotDot, Bool.and_eq_true, decide_eq_true_eq, beq_iff_eq] at hen
  obtain ⟨⟨⟨htwo, hls⟩, hone⟩, hzr⟩ := hen
  have hlen := h.bufSize_eq
  rcases eq_nil_or_concat' t.names with hnil | ⟨names, c, hnm⟩
  · rw [text_of_names, hnil] at hlen
    simp at hlen
    omega
  · obtain ⟨hc, htc⟩ := Trail.parent_child hnm
    have hcl : c.length = 2 := (h.lastLength names c hnm).symm.trans hls
    have htx := Trail.text_child sep_posix (t := t.parent) hc
    rw [← htc] at htx
    obtain ⟨x, y, rfl⟩ := length_eq_two.1 hcl
    rw [htx, length_append] at hlen
    simp only [length_cons, length_nil] at hlen
    have hget : ∀ k < s.bufSize, s.buf[k]? = (t.parent.lead sep_posix ++ [x, y])[k]? := by
      intro k hk
      rw [← htx, ← h.written, Normalizing.res, getElem?_take, if_pos hk]
    rw [hget _ (by omega), hlen, getElem?_append_right (by omega)] at hone hzr
    simp at hone hzr
    exact hc (.inr (.inr (by rw [hone, hzr])))

variable {c : List UInt8}

theorem lastLength_text {names : List (List UInt8)}
    (hnm : ∀ d ∈ t.names, sep_posix ∉ d) (h : t.names = names ++ [c]) :
    (match lastIndexOfScalar (t.text sep_posix) sep_posix with
      | none => (t.text sep_posix).length
      | some lastIndexOfSep => (t.text sep_posix).length - 1 - lastIndexOfSep) = c.length := by
  obtain ⟨hc, htc⟩ := Trail.parent_child h
  have hcs : sep_posix ∉ c := hnm c (by simp [h])
  have htx := Trail.text_child sep_posix (t := t.parent) hc
  rw [← htc, Trail.lead] at htx
  rw [htx]
  split_ifs with hnil
  · simp [hnil, lastIndexOfScalar_of_not_mem hcs]
  · simp [lastIndexOfScalar_append hcs]

/-- Going back takes the last name off the front. -/
theorem Front.dotDot (h : Front size s t) :
    ∃ s', s.dotDot false = some s' ∧ Front size s' (t.push [dot, dot]) ∧
      s'.bufSize ≤ s.bufSize ∧ s'.byte = s.byte := by
  have hen : ¬s.endsInDotDot = true := by simp [h.not_endsInDotDot]
  have hlen := h.bufSize_eq
  rw [Normalizing.dotDot, Trail.push_dots]
  rcases eq_nil_or_concat' t.names with hnil | ⟨names, c, hnm⟩
  · have hzr : s.bufSize = 0 := by
      rw [hlen, text_of_names, hnil]
      rfl
    have hrs : t.rise = t := by
      ext1
      · rfl
      · rfl
    rw [if_neg (by omega), if_neg (by omega), if_neg Bool.false_ne_true, if_pos hnil, hrs]
    exact ⟨s, rfl, h, le_rfl, rfl⟩
  · obtain ⟨hc, htc⟩ := Trail.parent_child hnm
    have hcs : sep_posix ∉ c := h.names c (by simp [hnm])
    have hcp : 0 < c.length := length_pos_iff.2 fun hnil => hc (.inl hnil)
    have htx := Trail.text_child sep_posix (t := t.parent) hc
    rw [← htc, Trail.lead] at htx
    have hpr : ∀ d ∈ t.parent.names, sep_posix ∉ d := fun d hd =>
      h.names d (List.mem_of_mem_dropLast hd)
    have hne : t.names ≠ [] := by simp [hnm]
    rw [if_neg hne]
    by_cases hnil : t.parent.text sep_posix = []
    · -- the only name
      have hno : t.parent.names = [] := by
        have hcm := Trail.text_eq_nil.1 hnil
        rw [Trail.components, append_eq_nil_iff] at hcm
        exact hcm.2
      have hbc : ∀ s' : Normalizing, s'.buf = s.buf → s'.bufSize = 0 →
          Front size s' t.parent := by
        intro s' hbuf hzr
        refine ⟨hbuf ▸ h.size_eq, ?_, by simp [hzr, hnil], hpr, fun ns d hd => ?_⟩
        · rw [Normalizing.res, hzr, hnil, take_zero]
        · rw [hno] at hd
          simp at hd
      have hres : lastIndexOfScalar s.res sep_posix = none := by
        rw [h.written, htx, if_pos hnil, hnil]
        exact lastIndexOfScalar_of_not_mem hcs
      by_cases htwo : 2 < s.bufSize
      · rw [if_pos ⟨hen, htwo⟩]
        rw [Normalizing.removeLast, hres]
        exact ⟨_, rfl, hbc _ rfl rfl, Nat.zero_le _, rfl⟩
      · have hpos : s.bufSize ≠ 0 := by
          rw [htx, length_append] at hlen
          omega
        rw [if_neg fun h => htwo h.2, if_pos ⟨hen, hpos⟩]
        exact ⟨_, rfl, hbc _ rfl rfl, Nat.zero_le _, rfl⟩
    · rw [if_neg hnil] at htx
      have hpos := length_pos_iff.2 hnil
      have hln := congrArg List.length htx
      rw [← hlen, length_append, length_append, length_singleton] at hln
      have hres : lastIndexOfScalar s.res sep_posix = some (t.parent.text sep_posix).length := by
        simpa [h.written, htx] using lastIndexOfScalar_append hcs
      have htk : s.buf.take (t.parent.text sep_posix).length = t.parent.text sep_posix := by
        have hw := h.written
        rw [Normalizing.res] at hw
        rw [← Nat.min_eq_left (show (t.parent.text sep_posix).length ≤ s.bufSize by omega),
          ← take_take, hw, htx, append_assoc, take_left' rfl]
      rw [if_pos ⟨hen, by omega⟩, Normalizing.removeLast, hres]
      refine ⟨_, rfl, ⟨h.size_eq, htk, rfl, hpr, fun ns d hd => ?_⟩, by dsimp only; omega, rfl⟩
      dsimp only
      rw [htk]
      exact lastLength_text hpr hd

/-- A segment that is a name is written behind the front. -/
theorem Front.segment (h : Front size s t) {i j : ℕ} (hsl : s.lastSlash = some j)
    (hi : i = j + 1 + c.length) (hc : (path.take i).drop (j + 1) = c) (hnm : ¬Special dot c)
    (hsep : sep_posix ∉ c) (hle : s.bufSize ≤ j) (hfits : i ≤ size) :
    ∃ s', s.segment path i = some s' ∧ Front size s' (t.push c) ∧ s'.bufSize ≤ i ∧
      s'.byte = s.byte := by
  have hsz := h.size_eq
  have hlen := h.bufSize_eq
  obtain ⟨s₁, hs₁, hsl₁, hsz₁, hle₁, hby₁, hwr₁⟩ : ∃ s₁,
      (if 0 < s.bufSize then s.write [sep_posix] else some s) = some s₁ ∧
        s₁.lastSlash = some j ∧ s₁.buf.length = size ∧ s₁.bufSize ≤ j + 1 ∧
        s₁.byte = s.byte ∧ s₁.res = t.lead sep_posix := by
    rw [Trail.lead]
    split_ifs with hpos hnil hnil
    · simp [hnil] at hlen
      omega
    · obtain ⟨buf, hbuf, hbs, hw⟩ := memcpy_append [sep_posix] h.written
        (by simp; omega)
      refine ⟨{ s with buf, bufSize := s.bufSize + 1 }, ?_, hsl, hbs.trans hsz,
        by dsimp only; omega, rfl, hw⟩
      rw [Normalizing.write, hbuf]
      rfl
    · exact ⟨s, rfl, hsl, hsz, by omega, rfl, by rw [h.written, append_nil]⟩
    · have := length_pos_iff.2 hnil
      omega
  obtain ⟨buf, hbuf, hbs, hw⟩ := memcpy_append c hwr₁ (by omega)
  have hlen₁ : s₁.bufSize = (t.lead sep_posix).length := by
    rw [← hwr₁, Normalizing.res, List.length_take]
    omega
  refine ⟨{ s₁ with buf, bufSize := s₁.bufSize + c.length, lastSegmentLength := i - (j + 1) }, ?_,
    ?_, by dsimp only; omega, hby₁⟩
  · rw [Normalizing.segment, hs₁, Option.bind_some]
    simp only [hsl₁, hc, Normalizing.write, hbuf, Option.map_some]
  · rw [Trail.push_name hnm]
    refine ⟨hbs.trans hsz₁, ?_, ?_, fun d hd => ?_, fun ns d hd => ?_⟩
    · rw [Trail.text_child sep_posix]
      exact hw
    · rw [Trail.text_child sep_posix, length_append, hlen₁]
    · rcases mem_append.1 hd with hd | hd
      · exact h.names d hd
      · rwa [mem_singleton.1 hd]
    · rw [Trail.child_names] at hd
      obtain ⟨-, hd⟩ := append_inj' hd rfl
      rw [← singleton_inj.1 hd]
      dsimp only
      omega

def dotsOf (c : List UInt8) : Option ℕ := if ∀ b ∈ c, b = dot then some c.length else none

theorem dotsOf_eq_some {n : ℕ} : dotsOf c = some n ↔ c = List.replicate n dot := by
  rw [dotsOf, eq_replicate_iff]
  split_ifs with h
  · exact ⟨fun hn => ⟨Option.some.inj hn, h⟩, fun hn => congrArg some hn.1⟩
  · exact ⟨fun hn => absurd hn (by simp), fun hn => absurd hn.2 h⟩

/-- A slash ends its component, which goes on the trail as it should. -/
theorem Front.atSlash (h : Front size s t) {i j : ℕ}
    (hsl : s.lastSlash = some j) (hdt : s.dots = dotsOf c) (hi : i = j + 1 + c.length)
    (hc : (path.take i).drop (j + 1) = c) (hsep : sep_posix ∉ c) (hle : s.bufSize ≤ j)
    (hfits : i ≤ size) :
    ∃ s', s.atSlash path false i = some (s'.slash i) ∧ Front size s' (t.push c) ∧
      s'.bufSize ≤ i ∧ s'.byte = s.byte := by
  rw [Normalizing.atSlash]
  by_cases hnil : c = []
  · subst hnil
    have hbc : i - 1 = j := by
      rw [hi]
      rfl
    rw [if_pos (.inr (.inl ⟨by omega, by rw [hsl, hbc]⟩)), Trail.push_nil]
    exact ⟨s, rfl, h, by omega, rfl⟩
  have hpos := length_pos_iff.2 hnil
  have hnp : ¬((s.lastSlash = none ∧ i = 0) ∨ (0 < i ∧ s.lastSlash = some (i - 1))) := by
    rw [hsl]
    rintro (⟨h', -⟩ | ⟨-, h'⟩)
    · cases h'
    · have := Option.some.inj h'
      omega
  by_cases hone : s.dots = some 1
  · have hdot : c = [dot] := dotsOf_eq_some.1 (hdt.symm.trans hone)
    rw [if_pos (.inr (.inr hone)), hdot, Trail.push_dot]
    exact ⟨s, rfl, h, by omega, rfl⟩
  rw [if_neg (by rwa [← or_assoc, or_iff_left hone])]
  by_cases htwo : s.dots = some 2
  · have hdd : c = [dot, dot] := dotsOf_eq_some.1 (hdt.symm.trans htwo)
    obtain ⟨s', hs', h', hle', hby'⟩ := h.dotDot
    rw [if_pos htwo, hs', hdd]
    exact ⟨s', rfl, h', by omega, hby'⟩
  · have hnm : ¬Special dot c := by
      rintro (h' | h' | h')
      · exact hnil h'
      · exact hone (hdt.trans (dotsOf_eq_some.2 h'))
      · exact htwo (hdt.trans (dotsOf_eq_some.2 h'))
    obtain ⟨s', hs', h', hle', hby'⟩ := h.segment hsl hi hc hnm hsep hle hfits
    rw [if_neg htwo, hs']
    exact ⟨s', rfl, h', hle', hby'⟩

/-- The loop reads a name up to its end. -/
theorem loop_segment (path : List UInt8) (n : ℕ) : ∀ (c front : List UInt8) (i : ℕ)
    (s : Normalizing), path.drop i = c ++ path.drop (i + c.length) → sep_posix ∉ c →
    s.dots = dotsOf front → ∃ s', s'.buf = s.buf ∧ s'.bufSize = s.bufSize ∧
      s'.lastSegmentLength = s.lastSegmentLength ∧ s'.lastSlash = s.lastSlash ∧
      s'.dots = dotsOf (front ++ c) ∧ (c ≠ [] → isSepPosix s'.byte = false) ∧
      (c = [] → s'.byte = s.byte) ∧
      Normalizing.loop path false (c.length + n) i s =
        Normalizing.loop path false n (i + c.length) s'
  | [], front, i, s, _, _, hdt => by
    refine ⟨s, rfl, rfl, rfl, rfl, by rwa [append_nil], fun h => absurd rfl h, fun _ => rfl, ?_⟩
    simp
  | b :: c, front, i, s, hdr, hsep, hdt => by
    have hb : b ≠ sep_posix := fun h => hsep (by simp [h])
    have hget : path[i]? = some b := by
      rw [← head?_drop, hdr]
      rfl
    have hdr' : path.drop (i + 1) = c ++ path.drop (i + 1 + c.length) := by
      rw [← drop_drop, hdr, cons_append, drop_one, tail_cons]
      congr 2
      simp
      omega
    have hdt' : (s.atByte b).dots = dotsOf (front ++ [b]) := by
      rw [Normalizing.atByte, hdt]
      by_cases hd : b = dot
      · by_cases hall : ∀ x ∈ front, x = dot
        · have hall' : ∀ x ∈ front ++ [b], x = dot := by simpa [hd, or_imp, forall_and] using hall
          rw [dotsOf, if_pos hall, dotsOf, if_pos hall']
          simp [hd]
        · have hall' : ¬∀ x ∈ front ++ [b], x = dot := fun h' =>
            hall fun x hx => h' x (mem_append_left _ hx)
          rw [dotsOf, if_neg hall, dotsOf, if_neg hall']
          simp
      · have hall' : ¬∀ x ∈ front ++ [b], x = dot := fun h' => hd (h' b (by simp))
        rw [dotsOf.eq_def (front ++ [b]), if_neg hall']
        simp [hd]
    obtain ⟨s', hbuf, hsz, hls, hsl, hdt'', hby, hby', hlp⟩ := loop_segment path n c
      (front ++ [b]) (i + 1) (s.atByte b) hdr' (fun h => hsep (mem_cons_of_mem _ h)) hdt'
    refine ⟨s', hbuf, hsz, hls, hsl, by simpa using hdt'', fun _ => ?_,
      fun h => absurd h (cons_ne_nil b c), ?_⟩
    · by_cases hc : c = []
      · rw [hby' hc, Normalizing.atByte]
        exact Bool.eq_false_iff.2 (mt isSepPosix_iff.1 hb)
      · exact hby hc
    · rw [length_cons, Nat.succ_add, Normalizing.loop, hget]
      dsimp only
      rw [if_neg (by rwa [isSepPosix_iff]), hlp, Nat.add_assoc, Nat.add_comm 1]

/-- From a slash on, what is left of the path leads on along the trail. -/
theorem loop_eq (path : List UInt8) (hfits : path.length ≤ size) : ∀ (n i : ℕ)
    (s : Normalizing) (t : Trail dot false), path.length - i < n → i ≤ path.length →
    Front size s t → s.lastSlash = some (i - 1) → 0 < i → s.dots = some 0 →
    isSepPosix s.byte = true → s.bufSize < i →
    ∃ s', Normalizing.loop path false (path.length + 1 - i) i s = some s' ∧
      Front size s' (t.follow ((path.drop i).splitOn sep_posix)) ∧ s'.bufSize ≤ path.length
  | 0, _, _, _, hn, _, _, _, _, _, _, _ => absurd hn (Nat.not_lt_zero _)
  | n + 1, i, s, t, hn, hi, h, hsl, hpos, hdt, hby, hlt => by
    obtain ⟨rest, hsp, hrs, hsep⟩ := exists_rest (path.drop i)
    set c := (path.drop i).takeWhile fun c => !isSepPosix c
    have hlen := congrArg List.length hsp
    rw [length_append, length_drop] at hlen
    have hdr : path.drop (i + c.length) = rest := by
      rw [← drop_drop, ← hsp, drop_left]
    have hc : (path.take (i + c.length)).drop (i - 1 + 1) = c := by
      rw [Nat.sub_add_cancel hpos, take_add, drop_left' (by simp; omega), ← hsp,
        take_left]
    obtain ⟨s₁, hbuf₁, hsz₁, hls₁, hsl₁, hdt₁, hby₁, hby₁', hlp₁⟩ :=
      loop_segment path (path.length + 1 - (i + c.length)) c [] i s (by rw [hdr, hsp]) hsep
        (hdt.trans (by simp [dotsOf]))
    rw [nil_append] at hdt₁
    have hrn : path.length + 1 - i = c.length + (path.length + 1 - (i + c.length)) := by omega
    have hfr : ∀ byte, Front size { s₁ with byte } t := fun byte =>
      h.of_eq hbuf₁ hsz₁ hls₁
    have hrd : ∀ byte, ∃ s', Normalizing.atSlash path false (i + c.length) { s₁ with byte } =
        some (s'.slash (i + c.length)) ∧ Front size s' (t.push c) ∧ s'.bufSize ≤ i + c.length ∧
        s'.byte = byte := fun byte =>
      (hfr byte).atSlash (hsl₁.trans hsl) hdt₁ (by omega) hc hsep
        (by dsimp only; omega) (by omega)
    rw [hrn, hlp₁, ← hsp, Trail.follow_splitOn_append hsep hrs]
    rcases hrs with hend | hhd
    · -- the end of the path
      have hat : path[i + c.length]? = none := by
        rw [List.getElem?_eq_none_iff, ← drop_eq_nil_iff, hdr, hend]
      have hls : path.length + 1 - (i + c.length) = 0 + 1 := by
        rw [hend] at hlen
        simp at hlen
        omega
      rw [hend, splitOn_nil, Trail.follow_cons, Trail.push_nil, hls, Normalizing.loop, hat]
      dsimp only
      by_cases hnil : c = []
      · rw [hby₁' hnil, if_pos hby, hnil, Trail.push_nil]
        exact ⟨s₁, rfl, h.of_eq hbuf₁ hsz₁ hls₁, by omega⟩
      · obtain ⟨s', hs', h', hle', -⟩ := hrd sep_posix
        rw [if_neg (by simp [hby₁ hnil]), hs']
        refine ⟨s'.slash (i + c.length), rfl, h'.of_eq rfl rfl rfl, ?_⟩
        change s'.bufSize ≤ path.length
        omega
    · -- a slash, and the rest behind it
      obtain ⟨tail, rfl⟩ := head?_eq_some_iff.1 hhd
      have hat : path[i + c.length]? = some sep_posix := by
        rw [← head?_drop, hdr]
        rfl
      have htl : path.drop (i + c.length + 1) = tail := by
        rw [← drop_drop, hdr]
        rfl
      have hls : path.length + 1 - (i + c.length) = path.length + 1 - (i + c.length + 1) + 1 := by
        omega
      rw [length_cons] at hlen
      obtain ⟨s', hs', h', hle', hby'⟩ := hrd sep_posix
      rw [hls, Normalizing.loop, hat]
      dsimp only
      rw [if_pos (isSepPosix_iff.2 rfl), hs', Option.bind_some, Trail.follow_splitOn_sep, ← htl]
      exact loop_eq path hfits n (i + c.length + 1) (s'.slash (i + c.length)) (t.push c) (by omega)
        (by omega) (h'.of_eq rfl rfl rfl) rfl (Nat.succ_pos _) rfl
        (isSepPosix_iff.2 hby') (Nat.lt_succ_of_le hle')

end Segment

/-- Over an absolute path, the pass leaves the trail of the path, in a buffer that is longer than
the path. -/
theorem normalizeStringT_eq {path buf : List UInt8} (habs : path.head? = some sep_posix)
    (h : path.length < buf.length) :
    ∃ buf', normalizeStringT path false buf = some ((trail false path).text sep_posix, buf') ∧
      buf'.length = buf.length ∧
      buf'.take ((trail false path).text sep_posix).length = (trail false path).text sep_posix ∧
      ((trail false path).text sep_posix).length ≤ path.length := by
  obtain ⟨tail, rfl⟩ := head?_eq_some_iff.1 habs
  have hst : Front buf.length
      ({ buf, byte := sep_posix } : Normalizing) (Trail.here : Trail dot false) :=
    ⟨rfl, rfl, rfl, by simp [Trail.here], fun names c hc => by simp [Trail.here] at hc⟩
  obtain ⟨s, hs, hfr, hle⟩ := loop_eq (sep_posix :: tail) h.le
    ((sep_posix :: tail).length + 1) 1 (({ buf, byte := sep_posix } : Normalizing).slash 0)
    Trail.here (by omega) (by simp) (hst.of_eq rfl rfl rfl) rfl Nat.one_pos rfl
    (isSepPosix_iff.2 rfl) Nat.one_pos
  have htr : Trail.here.follow (((sep_posix :: tail).drop 1).splitOn sep_posix) =
      trail false (sep_posix :: tail) := Trail.follow_splitOn_sep.symm
  rw [htr] at hfr
  have hlp : Normalizing.loop (sep_posix :: tail) false ((sep_posix :: tail).length + 1) 0
      { buf } = some s := by
    rw [← hs]
    rfl
  have hlen := hfr.bufSize_eq
  have hsz := hfr.size_eq
  obtain ⟨buf', hbuf, hbs, hwr⟩ := memcpy_append [0] hfr.written (by simp; omega)
  have htk : buf'.take s.bufSize = (trail false (sep_posix :: tail)).text sep_posix := by
    have := congrArg (List.take s.bufSize) hwr
    rwa [take_take, Nat.min_eq_left (by simp), take_left' hlen.symm] at this
  refine ⟨buf', ?_, hbs.trans hsz, hlen ▸ htk, hlen ▸ hle⟩
  rw [normalizeStringT, hlp, Option.bind_some, hbuf, Option.map_some, htk]

end Cruller.NodePath
