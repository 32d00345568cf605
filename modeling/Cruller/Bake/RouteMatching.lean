import Cruller.Lib.Components
import Cruller.Bake.RoutePattern

/-!
# What a route pattern matches

A request path is its segments. What a pattern takes of them is a relation of its own (`Fits`): a
text takes an equal segment, a param one segment that is not empty, a catch-all one or more, an
optional catch-all any number. Read loosely, a param may also take an empty segment or, where none
is left, nothing, and a catch-all nothing.

The matcher reads patterns loosely (`matchParts_spec`): it has one index for the place in the path,
which after a text at the end stands behind the path's length (`Stands`). From there a param slices
past the end, and the test at the end of the pattern fails.
-/

namespace Cruller.Bake.FrameworkRouter

open List Option Nat

/-- A pattern whose parts can be serialized. -/
structure RoutePattern where
  parts : List Part
  asserted : ∀ p ∈ parts, p.asserted = true
  small : ∀ p ∈ parts, p.payload.length < 2 ^ 29
  /-- Must be the last part of the pattern -/
  last : ∀ p ∈ parts.dropLast, p.isCatchAll = false
  /-- Pattern cannot have more than 64 param -/
  bounded : parts.countP Part.isParam ≤ max_count

/-- An absolute path without a slash behind it. -/
structure RequestPath where
  path : List UInt8
  absolute : path.head? = some 0x2F
  canonical : path = [0x2F] ∨ path.getLast? ≠ some 0x2F

/-- The names between the slashes. -/
def RequestPath.segments (p : RequestPath) : List (List UInt8) :=
  if p.path = [0x2F] then [] else p.path.tail.splitOn 0x2F

/-- A parameter with each of its names. -/
def pieces (name : List UInt8) (segments : List (List UInt8)) : List Entry :=
  (segments.filter (· ≠ [])).map fun value => ⟨name, value⟩

/-- A pattern takes segments, and captures some; `loose` is how it may do so with too few. -/
inductive Fits (loose : Bool) : List Part → List (List UInt8) → List Entry → Prop
  | nil : Fits loose [] [] []
  | group {label ps segs caps} (h : Fits loose ps segs caps) :
      Fits loose (.group label :: ps) segs caps
  | text {t ps segs caps} (h : Fits loose ps segs caps) :
      Fits loose (.text t :: ps) (t :: segs) caps
  | param {name seg ps segs caps} (hseg : loose = true ∨ seg ≠ []) (h : Fits loose ps segs caps) :
      Fits loose (.param name :: ps) (seg :: segs) (⟨name, seg⟩ :: caps)
  | missing {name ps caps} (hloose : loose = true) (h : Fits loose ps [] caps) :
      Fits loose (.param name :: ps) [] (⟨name, []⟩ :: caps)
  | catch_all {name ps segs} (hsegs : loose = true ∨ segs ≠ []) :
      Fits loose (.catch_all name :: ps) segs (pieces name segs)
  | catch_all_optional {name ps segs} :
      Fits loose (.catch_all_optional name :: ps) segs (pieces name segs)

/-! ## The byte format -/

theorem writeAsSerialized_eq {part : Part} (ha : part.asserted = true)
    (hs : part.payload.length < 2 ^ 29) :
    part.writeAsSerialized =
      some (leBytes 4 (part.tag + 8 * part.payload.length) ++ part.payload) :=
  if_pos ⟨ha, hs⟩

theorem Part.tag_lt (part : Part) : part.tag < 5 := by
  cases part <;> simp [Part.tag]

theorem Part.ofTag_tag (part : Part) : Part.ofTag part.tag part.payload = some part := by
  cases part <;> rfl

variable {ps : List Part} {data : List UInt8} {segs : List (List UInt8)} {p : Part}
  {caps : List Entry}

theorem next_eq {rest : List UInt8} {offset : ℕ} {part : Part}
    (hs : part.payload.length < 2 ^ 29)
    (hdr : data.drop offset =
      leBytes 4 (part.tag + 8 * part.payload.length) ++ part.payload ++ rest) :
    next data offset = some (some (part, offset + (4 + part.payload.length))) ∧
      data.drop (offset + (4 + part.payload.length)) = rest := by
  have hlen := congrArg List.length hdr
  simp only [length_drop, length_append, leBytes_length] at hlen
  have htag := part.tag_lt
  have hvl : leValue ((data.drop offset).take 4) = part.tag + 8 * part.payload.length := by
    rw [hdr, append_assoc, take_left' (leBytes_length _ _), leValue_leBytes (by omega)]
  have hdiv : (part.tag + 8 * part.payload.length) / 8 = part.payload.length := by omega
  have hmod : (part.tag + 8 * part.payload.length) % 8 = part.tag := by omega
  have hpay : (data.drop (offset + 4)).take part.payload.length = part.payload := by
    rw [← drop_drop, hdr, append_assoc, drop_left' (leBytes_length _ _),
      take_left' rfl]
  refine ⟨?_, ?_⟩
  · rw [next, if_neg (by omega), readWithSize, if_pos (by omega)]
    simp only [hvl, hdiv, hmod, hpay]
    rw [if_pos (by omega), part.ofTag_tag]
    rfl
  · rw [← drop_drop, hdr, drop_left' (by simp)]

theorem exists_initFromParts : ∀ {parts : List Part}, (∀ p ∈ parts, p.asserted = true) →
    (∀ p ∈ parts, p.payload.length < 2 ^ 29) → ∃ data, initFromParts parts = some data
  | [], _, _ => ⟨[], rfl⟩
  | p :: ps, ha, hs => by
    obtain ⟨data, hdt⟩ := exists_initFromParts (fun q hq => ha q (mem_cons_of_mem _ hq))
      fun q hq => hs q (mem_cons_of_mem _ hq)
    rw [initFromParts, writeAsSerialized_eq (ha p mem_cons_self) (hs p mem_cons_self),
      bind_some, hdt, map_some]
    exact ⟨_, rfl⟩

theorem initFromParts_cons
    (h : initFromParts (p :: ps) = some data) :
    p.payload.length < 2 ^ 29 ∧ ∃ rest, initFromParts ps = some rest ∧
      data = leBytes 4 (p.tag + 8 * p.payload.length) ++ p.payload ++ rest := by
  rw [initFromParts] at h
  obtain ⟨bytes, hby, h⟩ := bind_eq_some_iff.1 h
  obtain ⟨rest, hrs, rfl⟩ := map_eq_some_iff.1 h
  rw [Part.writeAsSerialized] at hby
  split_ifs at hby with hp
  rw [some.injEq] at hby
  exact ⟨hp.2, rest, hrs, by rw [hby]⟩

theorem partsFrom_eq : ∀ {ps : List Part} {rest : List UInt8} {n offset : ℕ},
    initFromParts ps = some rest → data.drop offset = rest → rest.length < n →
      partsFrom data n offset = some ps
  | [], rest, n, offset, h, hdr, hn => by
    obtain ⟨n, rfl⟩ := exists_eq_succ_of_ne_zero (by omega : n ≠ 0)
    obtain rfl : [] = rest := some.inj h
    rw [partsFrom, next, if_pos (drop_eq_nil_iff.1 hdr)]
    rfl
  | p :: ps, rest, n, offset, h, hdr, hn => by
    obtain ⟨n, rfl⟩ := exists_eq_succ_of_ne_zero (by omega : n ≠ 0)
    obtain ⟨hs, rest, hrs, rfl⟩ := initFromParts_cons h
    obtain ⟨hnx, hdr'⟩ := next_eq hs hdr
    have hlt : rest.length < n := by
      simp only [length_append, leBytes_length] at hn
      omega
    rw [partsFrom, hnx, bind_some]
    simp only
    rw [partsFrom_eq hrs hdr' hlt]
    rfl

/-- The matcher, on the parts of a pattern. -/
def matchParts (path : List UInt8) : List Part → MatchState → Option (Bool × List Entry)
  | [], s => some (s.i == path.length, s.params)
  | part :: parts, s =>
    (matchPart path s part).bind fun
      | .no => some (false, s.params)
      | .yes s => some (true, s.params)
      | .go s => matchParts path parts s

theorem matchLoop_eq {path : List UInt8} :
    ∀ {ps : List Part} {rest : List UInt8} {n offset : ℕ} {s : MatchState},
      initFromParts ps = some rest → data.drop offset = rest → rest.length < n →
        matchLoop data path n offset s = matchParts path ps s
  | [], rest, n, offset, s, h, hdr, hn => by
    obtain ⟨n, rfl⟩ := exists_eq_succ_of_ne_zero (by omega : n ≠ 0)
    obtain rfl : [] = rest := some.inj h
    rw [matchLoop, next, if_pos (drop_eq_nil_iff.1 hdr)]
    rfl
  | p :: ps, rest, n, offset, s, h, hdr, hn => by
    obtain ⟨n, rfl⟩ := exists_eq_succ_of_ne_zero (by omega : n ≠ 0)
    obtain ⟨hs, rest, hrs, rfl⟩ := initFromParts_cons h
    obtain ⟨hnx, hdr'⟩ := next_eq hs hdr
    have hlt : rest.length < n := by
      simp only [length_append, leBytes_length] at hn
      omega
    rw [matchLoop, hnx, bind_some, matchParts]
    simp only
    congr 1
    funext o
    cases o with
    | no => rfl
    | yes s => rfl
    | go s => exact matchLoop_eq hrs hdr' hlt

/-! ## Places in the path -/

/-- `i` is where the segments that are left begin, or, where none is left, the path's length or
(`past`) one more. -/
def Stands (path : List UInt8) (i : ℕ) (past : Bool) : List (List UInt8) → Prop
  | [] => i = path.length + if past then 1 else 0
  | seg :: segs => past = false ∧ path.drop i = [0x2F].intercalate (seg :: segs)

/-- The segments hold no separator, and the last is not empty. -/
structure Proper (segs : List (List UInt8)) : Prop where
  free : ∀ seg ∈ segs, 0x2F ∉ seg
  last : segs.getLast? ≠ some []

theorem Proper.tail {seg : List UInt8} (h : Proper (seg :: segs)) :
    Proper segs := by
  refine ⟨fun s hs => h.free s (mem_cons_of_mem _ hs), fun hls => h.last ?_⟩
  rw [getLast?_cons, hls]
  rfl

section Places

variable {path seg : List UInt8} {segs : List (List UInt8)} {i : ℕ} {past : Bool}

/-- What is left of the path, from its slash on. -/
def behind (segs : List (List UInt8)) : List UInt8 :=
  if segs = [] then [] else 0x2F :: [0x2F].intercalate segs

theorem intercalate_cons_behind (seg : List UInt8) (segs : List (List UInt8)) :
    [0x2F].intercalate (seg :: segs) = seg ++ behind segs := by
  rcases segs with _ | ⟨s, segs⟩
  · simp [behind]
  · rw [intercalate_cons_cons, behind, if_neg (by simp), append_assoc,
      singleton_append]

theorem Stands.drop_eq (h : Stands path i past (seg :: segs)) :
    path.drop i = seg ++ behind segs := by
  rw [h.2, intercalate_cons_behind]

theorem Proper.append_behind_ne_nil (hp : Proper (seg :: segs)) : seg ++ behind segs ≠ [] := by
  intro hnil
  rw [append_eq_nil_iff] at hnil
  rcases segs with _ | ⟨s, segs⟩
  · exact hp.last (by simp [hnil.1])
  · simp [behind] at hnil

theorem Stands.lt (h : Stands path i past (seg :: segs)) (hp : Proper (seg :: segs)) :
    i < path.length := by
  by_contra hle
  have hdr := h.drop_eq
  rw [drop_eq_nil_of_le (not_lt.1 hle)] at hdr
  exact hp.append_behind_ne_nil hdr.symm

theorem Stands.length_eq (h : Stands path i past (seg :: segs)) (hp : Proper (seg :: segs)) :
    path.length = i + seg.length + (behind segs).length := by
  have hlt := h.lt hp
  have hlen := congrArg List.length h.drop_eq
  rw [length_drop, length_append] at hlen
  omega

theorem behind_eq_nil : (behind segs).length = 0 ↔ segs = [] := by
  rw [behind]
  split_ifs with h <;> simp [h]

theorem Stands.after (h : Stands path i past (seg :: segs)) (hp : Proper (seg :: segs))
    {j : ℕ} (hj : j = if segs = [] then path.length else i + seg.length + 1) :
    Stands path j false segs := by
  rcases segs with _ | ⟨s, segs⟩
  · rw [hj, if_pos rfl]
    exact (Nat.add_zero _).symm
  · rw [hj, if_neg (by simp)]
    refine ⟨rfl, ?_⟩
    rw [show i + seg.length + 1 = i + (seg.length + 1) by omega, ← drop_drop, h.drop_eq,
      behind, if_neg (by simp), ← drop_drop, drop_left]
    rfl

theorem Stands.segment_end (h : Stands path i past (seg :: segs)) (hp : Proper (seg :: segs)) :
    (indexOfCharPos path 0x2F i).getD path.length = i + seg.length := by
  have hlt := h.lt hp
  have hlen := h.length_eq hp
  rw [indexOfCharPos, if_neg (by omega), h.drop_eq]
  have hfr : ∀ c ∈ seg, (c == 0x2F) = false := fun c hc => by
    rw [beq_eq_false_iff_ne]
    rintro rfl
    exact hp.free seg mem_cons_self hc
  rcases hs : segs with _ | ⟨s, segs'⟩
  · rw [behind, if_pos rfl, append_nil, findIdx?_eq_none_iff.2 hfr]
    simp [hlen, hs, behind]
  · rw [behind, if_neg (by simp), findIdx?_append, findIdx?_eq_none_iff.2 hfr]
    simp [findIdx?_cons]
    omega

theorem Stands.slice_eq (h : Stands path i past (seg :: segs)) (hp : Proper (seg :: segs)) :
    slice path i (i + seg.length) = some seg := by
  have hlen := h.length_eq hp
  rw [slice, if_pos ⟨by omega, by omega⟩, Nat.add_sub_cancel_left, h.drop_eq, take_left]

theorem Stands.end_eq_iff (h : Stands path i past (seg :: segs)) (hp : Proper (seg :: segs)) :
    i + seg.length = path.length ↔ segs = [] := by
  have hlen := h.length_eq hp
  rw [← behind_eq_nil]
  omega

theorem Stands.next (h : Stands path i past (seg :: segs)) (hp : Proper (seg :: segs)) :
    Stands path (if i + seg.length = path.length then i + seg.length else i + seg.length + 1)
      false segs := by
  refine h.after hp ?_
  by_cases hs : segs = []
  · rw [if_pos ((h.end_eq_iff hp).2 hs), if_pos hs, (h.end_eq_iff hp).2 hs]
  · rw [if_neg (mt (h.end_eq_iff hp).1 hs), if_neg hs]

theorem behind_spec (segs : List (List UInt8)) :
    behind segs = [] ∨ (behind segs).head? = some 0x2F := by
  rw [behind]
  split_ifs
  · exact .inl rfl
  · exact .inr rfl

theorem eq_of_append_eq {b cs ds : List UInt8} (ha : 0x2F ∉ seg) (hb : 0x2F ∉ b)
    (hcs : cs = [] ∨ cs.head? = some 0x2F) (hds : ds = [] ∨ ds.head? = some 0x2F)
    (h : b ++ ds = seg ++ cs) : seg = b := by
  have htk : ∀ {x y : List UInt8}, 0x2F ∉ x → (y = [] ∨ y.head? = some 0x2F) →
      (x ++ y).takeWhile (· != 0x2F) = x := fun {x y} hx hy => by
    rw [takeWhile_append_of_pos fun c hc => by
      rw [bne_iff_ne]
      rintro rfl
      exact hx hc]
    rcases hy with rfl | hy
    · simp
    · obtain ⟨t, rfl⟩ := head?_eq_some_iff.1 hy
      simp
  rw [← htk ha hcs, ← h, htk hb hds]

/-- A text part matches the next name. -/
theorem Stands.textAt_iff {expect : List UInt8} (h : Stands path i past segs) (hp : Proper segs)
    (hne : expect ≠ []) (hfr : 0x2F ∉ expect) :
    textAt expect path i = true ↔ segs.head? = some expect := by
  have hpos := length_pos_iff.2 hne
  rcases segs with _ | ⟨seg, segs⟩
  · have hi : i = path.length + if past then 1 else 0 := h
    simp only [head?_nil, reduceCtorEq, iff_false]
    rw [textAt, decide_eq_true (by omega)]
    simp
  · have hlen := h.length_eq hp
    have hdr := h.drop_eq
    have hget : path[i + expect.length]? = (seg ++ behind segs)[expect.length]? := by
      rw [← hdr, getElem?_drop]
    rw [textAt, hdr, hget, hlen, head?_cons, some.injEq, Bool.and_eq_true,
      Bool.not_eq_true', Bool.or_eq_false_iff, Bool.not_eq_false', Bool.or_eq_true,
      decide_eq_false_iff_not, decide_eq_true_iff, beq_iff_eq, beq_iff_eq]
    constructor
    · rintro ⟨⟨-, hend⟩, htk⟩
      have hrs : (seg ++ behind segs).drop expect.length = [] ∨
          ((seg ++ behind segs).drop expect.length).head? = some 0x2F := by
        rcases hend with hend | hend
        · exact .inl (drop_eq_nil_of_le (by rw [length_append]; omega))
        · exact .inr (by rw [head?_drop, hend])
      have hsp := take_append_drop expect.length (seg ++ behind segs)
      rw [htk] at hsp
      exact eq_of_append_eq (hp.free seg mem_cons_self) hfr (behind_spec segs) hrs hsp
    · rintro rfl
      refine ⟨⟨by omega, ?_⟩, take_left⟩
      by_cases hs : segs = []
      · exact .inl (by rw [behind_eq_nil.2 hs, Nat.add_zero])
      · exact .inr (by rw [behind, if_neg hs]; simp)

end Places

/-! ## Captures -/

section Captures

variable {path name : List UInt8} {segs : List (List UInt8)} {i : ℕ} {past : Bool} {s : MatchState}

/-- The state behind the parameters. -/
def captured (s : MatchState) (caps : List Entry) : MatchState :=
  if caps = [] then s
  else
    { s with
      params := s.params.take s.param_num ++ caps
      param_num := s.param_num + caps.length }

theorem captured_with_i (s : MatchState) (i : ℕ) (caps : List Entry) :
    (captured { s with i } caps).params = (captured s caps).params := by
  rw [captured, captured]
  split_ifs <;> rfl

theorem captured_param_num (s : MatchState) (caps : List Entry) :
    (captured s caps).param_num = s.param_num + caps.length := by
  rw [captured]
  split_ifs with h
  · simp [h]
  · rfl

theorem captured_cons (s : MatchState) (e : Entry) (caps : List Entry) :
    captured (captured s [e]) caps = captured s (e :: caps) := by
  have htk : (s.params.take s.param_num ++ [e]).take (s.param_num + 1) =
      s.params.take s.param_num ++ [e] := take_of_length_le (by simp)
  by_cases hc : caps = []
  · rw [hc]
    rfl
  · have hone : captured s [e] =
        { s with
          params := s.params.take s.param_num ++ [e]
          param_num := s.param_num + 1 } := if_neg (by simp)
    rw [hone, captured, if_neg hc, captured, if_neg (by simp), htk, append_assoc,
      singleton_append, length_cons, Nat.add_right_comm, Nat.add_assoc]

theorem Stands.capture_eq {seg : List UInt8} (h : Stands path i past (seg :: segs))
    (hp : Proper (seg :: segs)) (hrm : s.param_num < max_count) :
    capture name path i (i + seg.length) s = some (captured s [⟨name, seg⟩]) := by
  rw [capture, if_neg (not_le.2 hrm), h.slice_eq hp]
  rfl

theorem pieces_cons (seg : List UInt8) (segs : List (List UInt8)) :
    pieces name (seg :: segs) =
      if seg = [] then pieces name segs else ⟨name, seg⟩ :: pieces name segs := by
  by_cases h : seg = [] <;> simp [pieces, h]

/-- What is left of the path is captured, unless there are too many names. -/
theorem captureRest_eq : ∀ {segs : List (List UInt8)} {n i : ℕ} {past : Bool} {s : MatchState},
    Stands path i past segs → Proper segs → s.param_num ≤ max_count → segs.length < n →
    captureRest name path n i s =
      if s.param_num + (pieces name segs).length ≤ max_count then
        some (captured s (pieces name segs))
      else none := by
  intro segs
  induction segs with
  | nil =>
    intro n i past s h _ hmax hn
    obtain ⟨n, rfl⟩ := exists_eq_succ_of_ne_zero (by omega : n ≠ 0)
    have hi : i = path.length + if past then 1 else 0 := h
    rw [captureRest, if_neg (by omega), if_pos (by simpa [pieces] using hmax)]
    rfl
  | cons seg segs ih =>
    intro n i past s h hp hmax hn
    obtain ⟨n, rfl⟩ := exists_eq_succ_of_ne_zero (by omega : n ≠ 0)
    rw [captureRest, if_pos (h.lt hp), h.segment_end hp, pieces_cons]
    by_cases hseg : seg = []
    · simp only
      rw [if_neg (by simp [hseg]), bind_some, if_pos hseg]
      exact ih (h.next hp) hp.tail hmax (by simpa using hn)
    · have hpos := length_pos_iff.2 hseg
      simp only
      rw [if_pos (by omega), if_neg hseg]
      by_cases hrm : s.param_num < max_count
      · rw [h.capture_eq hp hrm, bind_some,
          ih (h.next hp) hp.tail
            (by rw [captured_param_num, length_singleton]; exact hrm) (by simpa using hn),
          captured_cons, captured_param_num, length_singleton, length_cons,
          Nat.add_right_comm, Nat.add_assoc]
      · rw [capture, if_pos (not_lt.1 hrm), bind_none, if_neg]
        rw [length_cons]
        omega

theorem Proper.length_le (hp : Proper segs) :
    segs.length ≤ ([0x2F].intercalate segs : List UInt8).length := by
  induction segs with
  | nil => simp
  | cons seg segs ih =>
    have ih := ih hp.tail
    rcases segs with _ | ⟨s, segs⟩
    · have hne : seg ≠ [] := fun h => hp.last (by simp [h])
      have := length_pos_iff.2 hne
      rw [intercalate_singleton, length_singleton]
      exact this
    · rw [intercalate_cons_cons, length_append, length_append, length_cons]
      simp only [length_singleton]
      omega

theorem Stands.length_le (h : Stands path i past segs) (hp : Proper segs) :
    segs.length ≤ path.length := by
  rcases segs with _ | ⟨seg, segs⟩
  · exact Nat.zero_le _
  · refine hp.length_le.trans ?_
    rw [← h.2, length_drop]
    exact sub_le _ _

end Captures

/-! ## The parts -/

/-- Groups are not seen in a URL. -/
def visible (parts : List Part) : List Part := parts.filter fun p => !p.isGroup

theorem visible_group (label : List UInt8) (ps : List Part) :
    visible (.group label :: ps) = visible ps := by
  simp [visible, Part.isGroup]

theorem visible_cons (hp : p.isGroup = false) (ps : List Part) :
    visible (p :: ps) = p :: visible ps := by
  simp [visible, hp]

theorem matchParts_visible (path : List UInt8) : ∀ (ps : List Part) (s : MatchState),
    matchParts path (visible ps) s = matchParts path ps s
  | [], _ => rfl
  | p :: ps, s => by
    by_cases hp : p.isGroup = true
    · obtain ⟨label, rfl⟩ : ∃ label, p = .group label := by
        cases p <;> simp_all [Part.isGroup]
      rw [visible_group, matchParts_visible path ps]
      rfl
    · rw [visible_cons (by simpa using hp), matchParts, matchParts]
      congr 1
      funext o
      cases o with
      | no => rfl
      | yes s => rfl
      | go s => exact matchParts_visible path ps s

theorem fits_visible {loose : Bool}
    : Fits loose (visible ps) segs caps ↔ Fits loose ps segs caps := by
  induction ps generalizing segs caps with
  | nil => rfl
  | cons p ps ih =>
    cases p with
    | group label =>
      rw [visible_group, ih]
      refine ⟨.group, fun h => ?_⟩
      cases h with
      | group h => exact h
    | text t =>
      rw [visible_cons rfl]
      constructor <;> intro h <;> cases h with
      | text h => first | exact .text (ih.1 h) | exact .text (ih.2 h)
    | param name =>
      rw [visible_cons rfl]
      constructor <;> intro h <;> cases h with
      | param hseg h => first | exact .param hseg (ih.1 h) | exact .param hseg (ih.2 h)
      | missing hl h => first | exact .missing hl (ih.1 h) | exact .missing hl (ih.2 h)
    | catch_all name =>
      rw [visible_cons rfl]
      constructor <;> intro h <;> cases h with
      | catch_all hsg => exact .catch_all hsg
    | catch_all_optional name =>
      rw [visible_cons rfl]
      constructor <;> intro h <;> cases h with
      | catch_all_optional => exact .catch_all_optional

theorem Fits.loosen {loose : Bool}
    (h : Fits loose ps segs caps) : Fits true ps segs caps := by
  induction h with
  | nil => exact .nil
  | group _ ih => exact .group ih
  | text _ ih => exact .text ih
  | param _ _ ih => exact .param (.inl rfl) ih
  | missing _ _ ih => exact .missing rfl ih
  | catch_all => exact .catch_all (.inl rfl)
  | catch_all_optional => exact .catch_all_optional

theorem Fits.unique {caps' : List Entry}
    (h : Fits true ps segs caps) (h' : Fits true ps segs caps') : caps = caps' := by
  induction h generalizing caps' with
  | nil => cases h'; rfl
  | group _ ih => cases h' with | group h' => exact ih h'
  | text _ ih => cases h' with | text h' => exact ih h'
  | param _ _ ih => cases h' with | param _ h' => rw [ih h']
  | missing _ _ ih => cases h' with | missing _ h' => rw [ih h']
  | catch_all => cases h'; rfl
  | catch_all_optional => cases h'; rfl

/-- The last part is a text, or there is none and the place is past the end. -/
def endsPast (ps : List Part) (past : Bool) : Bool :=
  match ps.getLast? with
  | none => past
  | some (.text _) => true
  | some _ => false

theorem endsPast_cons_cons (p q : Part) (ps : List Part) (past past' : Bool) :
    endsPast (p :: q :: ps) past = endsPast (q :: ps) past' := by
  rw [endsPast, endsPast, getLast?_cons_cons]
  rcases h : (q :: ps).getLast? with _ | r
  · simp at h
  · cases r <;> rfl

/-- A param comes where the path has been read to its end by a text. -/
def ParamPastEnd (ps : List Part) (segs : List (List UInt8)) : Prop :=
  ∃ pre t name post caps, ps = pre ++ .text t :: .param name :: post ∧
    Fits true (pre ++ [.text t]) segs caps

/-- The matcher reads behind the end of the path. -/
def Overruns (ps : List Part) (segs : List (List UInt8)) (past : Bool) : Prop :=
  (past = true ∧ segs = [] ∧ ∃ name post, ps = .param name :: post) ∨ ParamPastEnd ps segs

/-- What the matcher makes of the parts and the segments that are left. -/
structure Verdict (path : List UInt8) (ps : List Part) (segs : List (List UInt8)) (past : Bool)
    (s : MatchState) : Prop where
  overrun : Overruns ps segs past → matchParts path ps s = none
  unfit : ¬ Overruns ps segs past → (∀ caps, ¬ Fits true ps segs caps) →
    ∃ q, matchParts path ps s = some (false, q)
  ends : ¬ Overruns ps segs past → ∀ caps, Fits true ps segs caps → endsPast ps past = true →
    ∃ q, matchParts path ps s = some (false, q)
  taken : ¬ Overruns ps segs past → ∀ caps, Fits true ps segs caps → endsPast ps past = false →
    matchParts path ps s =
      if s.param_num + caps.length ≤ max_count then some (true, (captured s caps).params)
      else none

section Verdict

variable {path : List UInt8} {p : Part} {ps : List Part} {segs segs' : List (List UInt8)}
  {past past' : Bool} {s s' : MatchState}

theorem Verdict.no {q : List Entry} (h : matchParts path ps s = some (false, q))
    (hfits : ∀ caps, ¬ Fits true ps segs caps) (hov : ¬ Overruns ps segs past) :
    Verdict path ps segs past s :=
  ⟨fun ho => absurd ho hov, fun _ _ => ⟨q, h⟩, fun _ caps hf => absurd hf (hfits caps),
    fun _ caps hf => absurd hf (hfits caps)⟩

/-- A part that takes its segment leaves the verdict to the parts behind it. -/
theorem Verdict.step (new : List Entry) (h : Verdict path ps segs' past' s')
    (heq : matchParts path (p :: ps) s = matchParts path ps s')
    (hov : Overruns (p :: ps) segs past ↔ Overruns ps segs' past')
    (hfits : ∀ caps, Fits true (p :: ps) segs caps ↔
      ∃ caps', Fits true ps segs' caps' ∧ caps = new ++ caps')
    (hen : ∀ caps, Fits true ps segs' caps → endsPast (p :: ps) past = endsPast ps past')
    (hnum : s'.param_num = s.param_num + new.length)
    (hcap : ∀ caps, (captured s' caps).params = (captured s (new ++ caps)).params) :
    Verdict path (p :: ps) segs past s := by
  constructor
  · intro ho
    rw [heq, h.overrun (hov.1 ho)]
  · intro ho hf
    rw [heq]
    exact h.unfit (mt hov.2 ho) fun caps' hf' => hf _ ((hfits _).2 ⟨caps', hf', rfl⟩)
  · intro ho caps hf he
    obtain ⟨caps', hf', rfl⟩ := (hfits caps).1 hf
    rw [heq]
    exact h.ends (mt hov.2 ho) caps' hf' (by rwa [← hen caps' hf'])
  · intro ho caps hf he
    obtain ⟨caps', hf', rfl⟩ := (hfits caps).1 hf
    rw [heq, h.taken (mt hov.2 ho) caps' hf' (by rwa [← hen caps' hf']), hnum, hcap,
      length_append, Nat.add_assoc]

theorem verdict_nil (h : Stands path s.i past segs) (hp : Proper segs)
    (hmax : s.param_num ≤ max_count) : Verdict path [] segs past s := by
  have hov : ¬ Overruns [] segs past := by
    rintro (⟨-, -, name, post, h⟩ | ⟨pre, t, name, post, caps, h, -⟩) <;> simp at h
  constructor
  · exact fun ho => absurd ho hov
  · intro _ hf
    rcases segs with _ | ⟨seg, segs⟩
    · exact absurd .nil (hf [])
    · have := h.lt hp
      exact ⟨s.params, by rw [matchParts, beq_eq_false_iff_ne.2 (by omega)]⟩
  · intro _ caps hf he
    cases hf with
    | nil =>
      have hi : s.i = path.length + 1 := by
        rw [show past = true from he] at h
        exact h
      exact ⟨s.params, by rw [matchParts, beq_eq_false_iff_ne.2 (by omega)]⟩
  · intro _ caps hf he
    cases hf with
    | nil =>
      have hi : s.i = path.length := by
        rw [show past = false from he] at h
        exact h
      rw [matchParts, hi, beq_self_eq_true, if_pos (by simpa using hmax)]
      rfl

/-- A text that is the next segment is passed, and may leave the place past the end. -/
theorem verdict_text {t : List UInt8} (h : Stands path s.i past segs) (hp : Proper segs)
    (hne : t ≠ []) (hfr : 0x2F ∉ t)
    (ih : ∀ {segs past s'}, Stands path s'.i past segs → Proper segs →
      s'.param_num = s.param_num → s'.params = s.params → Verdict path ps segs past s') :
    Verdict path (.text t :: ps) segs past s := by
  have hat := h.textAt_iff hp hne hfr
  by_cases hhd : segs.head? = some t
  · obtain ⟨segs, rfl⟩ := head?_eq_some_iff.1 hhd
    have hlen := h.length_eq hp
    have hst : Stands path (s.i + (1 + t.length)) (decide (segs = [])) segs := by
      rcases hs : segs with _ | ⟨seg, segs'⟩
      · rw [hs, behind, if_pos rfl] at hlen
        change _ = _ + if decide _ then 1 else 0
        simp at hlen ⊢
        omega
      · rw [hs] at h hp
        have := h.after hp (j := s.i + (1 + t.length)) (by rw [if_neg (by simp)]; omega)
        simpa using this
    have hrs : Verdict path ps segs (decide (segs = [])) { s with i := s.i + (1 + t.length) } :=
      ih hst hp.tail rfl rfl
    refine hrs.step [] ?_ ?_ ?_ ?_ rfl ?_
    · rw [matchParts, matchPart, if_pos (hat.2 rfl)]
      rfl
    · constructor
      · rintro (⟨-, hs, -⟩ | ⟨pre, t', name, post, caps, heq, hf⟩)
        · simp at hs
        · rcases pre with _ | ⟨q, pre⟩
          · obtain ⟨h1, h2⟩ := List.cons.inj heq
            cases hf with
            | text hf => cases hf with | nil => exact .inl ⟨by simp, rfl, name, post, h2⟩
          · obtain ⟨rfl, h2⟩ := List.cons.inj heq
            cases hf with
            | text hf => exact .inr ⟨pre, t', name, post, caps, h2, hf⟩
      · rintro (⟨-, rfl, name, post, rfl⟩ | ⟨pre, t', name, post, caps, rfl, hf⟩)
        · exact .inr ⟨[], t, name, post, [], rfl, .text .nil⟩
        · exact .inr ⟨.text t :: pre, t', name, post, caps, rfl, .text hf⟩
    · intro caps
      constructor
      · intro hf
        cases hf with
        | text hf => exact ⟨caps, hf, rfl⟩
      · rintro ⟨caps', hf, rfl⟩
        exact .text hf
    · intro caps hf
      rcases ps with _ | ⟨q, ps⟩
      · cases hf with
        | nil => rfl
      · exact endsPast_cons_cons _ _ _ _ _
    · exact captured_with_i s _
  · refine Verdict.no (q := s.params) ?_ ?_ ?_
    · rw [matchParts, matchPart, if_neg (by rwa [hat])]
      rfl
    · intro caps hf
      cases hf with
      | text hf => exact hhd rfl
    · rintro (⟨-, -, name, post, heq⟩ | ⟨pre, t', name, post, caps, heq, hf⟩)
      · cases heq
      · rcases pre with _ | ⟨q, pre⟩
        · obtain ⟨h1, -⟩ := List.cons.inj heq
          cases h1
          cases hf with
          | text hf => exact hhd rfl
        · obtain ⟨rfl, -⟩ := List.cons.inj heq
          cases hf with
          | text hf => exact hhd rfl

variable {name : List UInt8}

theorem fits_param {caps : List Entry} :
    Fits true (.param name :: ps) segs caps ↔
      ∃ caps', Fits true ps segs.tail caps' ∧
        caps = [⟨name, segs.head?.getD []⟩] ++ caps' := by
  constructor
  · intro h
    cases h with
    | param _ h => exact ⟨_, h, rfl⟩
    | missing _ h => exact ⟨_, h, rfl⟩
  · rintro ⟨caps', h, rfl⟩
    cases segs with
    | nil => exact .missing rfl h
    | cons seg segs => exact .param (.inl rfl) h

/-- A param takes the next segment, or nothing where none is left. -/
theorem verdict_param (h : Stands path s.i past segs) (hp : Proper segs)
    (hrm : s.param_num < max_count)
    (ih : ∀ {segs past s'}, Stands path s'.i past segs → Proper segs →
      s'.param_num = s.param_num + 1 → Verdict path ps segs past s') :
    Verdict path (.param name :: ps) segs past s := by
  by_cases hps : past = true ∧ segs = []
  · -- past the end, the slice for the value is out of range
    obtain ⟨rfl, rfl⟩ := hps
    have hi : s.i = path.length + 1 := h
    have hov : Overruns (.param name :: ps) [] true := .inl ⟨rfl, rfl, name, ps, rfl⟩
    refine ⟨fun _ => ?_, fun ho => absurd hov ho, fun ho => absurd hov ho,
      fun ho => absurd hov ho⟩
    have hend : (indexOfCharPos path 0x2F s.i).getD path.length = path.length := by
      rw [indexOfCharPos, if_pos (by omega), getD_none]
    rw [matchParts, matchPart]
    simp only [hend, capture, if_neg (not_le.2 hrm), slice]
    rw [if_neg (show ¬ (s.i ≤ path.length ∧ path.length ≤ path.length) by omega)]
    rfl
  · have hrd : ∃ seg segs' i, segs.head?.getD [] = seg ∧ segs.tail = segs' ∧
        matchPart path s (.param name) = some (.go { captured s [⟨name, seg⟩] with i }) ∧
        Stands path i false segs' := by
      rcases segs with _ | ⟨seg, segs⟩
      · have hi : s.i = path.length := by
          have hfl : past = false := by simpa using hps
          rw [hfl] at h
          exact h
        refine ⟨[], [], path.length, rfl, rfl, ?_, rfl⟩
        have hend : (indexOfCharPos path 0x2F path.length).getD path.length = path.length := by
          rw [indexOfCharPos, if_pos le_rfl, getD_none]
        rw [matchPart]
        simp only [hi, hend, capture, if_neg (not_le.2 hrm), slice]
        simp [captured]
      · refine ⟨seg, segs, _, rfl, rfl, ?_, h.next hp⟩
        rw [matchPart, h.segment_end hp, h.capture_eq hp hrm]
        rfl
    obtain ⟨_, _, i, rfl, rfl, hmt, hst⟩ := hrd
    have htl : Proper segs.tail := by
      cases segs with
      | nil => exact hp
      | cons seg segs => exact hp.tail
    have hrs : Verdict path ps segs.tail false
        { captured s [⟨name, segs.head?.getD []⟩] with i } :=
      ih hst htl (captured_param_num s _)
    refine hrs.step [⟨name, segs.head?.getD []⟩] ?_ ?_ (fun caps => fits_param) ?_
      (captured_param_num s _) ?_
    · rw [matchParts, hmt]
      rfl
    · constructor
      · rintro (⟨hp, hs, -⟩ | ⟨pre, t, name', post, caps, heq, hf⟩)
        · exact absurd ⟨hp, hs⟩ hps
        · rcases pre with _ | ⟨q, pre⟩
          · cases heq
          · obtain ⟨rfl, rfl⟩ := List.cons.inj heq
            obtain ⟨caps', hf', -⟩ := fits_param.1 hf
            exact .inr ⟨pre, t, name', post, caps', rfl, hf'⟩
      · rintro (⟨hp, -⟩ | ⟨pre, t, name', post, caps, rfl, hf⟩)
        · cases hp
        · exact .inr ⟨.param name :: pre, t, name', post, _, rfl, fits_param.2 ⟨caps, hf, rfl⟩⟩
    · intro caps _
      rcases ps with _ | ⟨q, ps⟩
      · rfl
      · exact endsPast_cons_cons _ _ _ _ _
    · intro caps
      rw [captured_with_i, captured_cons]
      rfl

/-- A catch-all takes all the segments that are left, as one parameter or as one for each. -/
theorem verdict_catch_all (h : Stands path s.i past segs) (hp : Proper segs)
    (hmax : s.param_num ≤ max_count) (hpr : p = .catch_all name ∨ p = .catch_all_optional name) :
    Verdict path [p] segs past s := by
  have hmt : matchPart path s p =
      if s.param_num + (pieces name segs).length ≤ max_count then
        some (.yes (captured s (pieces name segs)))
      else none := by
    have hrs : (if s.i < path.length then
          (captureRest name path (path.length + 1) s.i s).map Outcome.yes
        else some (.yes s)) =
        if s.param_num + (pieces name segs).length ≤ max_count then
          some (.yes (captured s (pieces name segs)))
        else none := by
      by_cases hi : s.i < path.length
      · rw [if_pos hi, captureRest_eq h hp hmax (lt_succ_of_le (h.length_le hp))]
        split_ifs <;> rfl
      · rcases segs with _ | ⟨seg, segs⟩
        · rw [if_neg hi, if_pos (by simpa [pieces] using hmax)]
          rfl
        · exact absurd (h.lt hp) hi
    rcases hpr with rfl | rfl <;> exact hrs
  have hfits : ∀ caps, Fits true [p] segs caps ↔ caps = pieces name segs := by
    intro caps
    rcases hpr with rfl | rfl
    · refine ⟨fun hf => ?_, fun h => h ▸ .catch_all (.inl rfl)⟩
      cases hf
      rfl
    · refine ⟨fun hf => ?_, fun h => h ▸ .catch_all_optional⟩
      cases hf
      rfl
  have hov : ¬ Overruns [p] segs past := by
    rintro (⟨-, -, name', post, heq⟩ | ⟨pre, t, name', post, caps, heq, -⟩)
    · rcases hpr with rfl | rfl <;> cases heq
    · rcases pre with _ | ⟨q, _ | ⟨r, pre⟩⟩ <;> cases heq
  have hen : endsPast [p] past = false := by
    rcases hpr with rfl | rfl <;> rfl
  refine ⟨fun ho => absurd ho hov, fun _ hf => absurd ((hfits _).2 rfl) (hf _),
    fun _ caps _ he => absurd he (by simp [hen]), fun _ caps hf _ => ?_⟩
  rw [(hfits caps).1 hf, matchParts, hmt]
  split_ifs <;> rfl

/-- The matcher reads a pattern loosely, and fails one that ends in a text. -/
theorem matchParts_spec : ∀ {ps : List Part} {segs : List (List UInt8)} {past : Bool}
    {s : MatchState}, (∀ p ∈ ps, p.asserted = true ∧ p.isGroup = false) →
    (∀ p ∈ ps.dropLast, p.isCatchAll = false) →
    s.param_num + ps.countP Part.isParam ≤ max_count → Stands path s.i past segs → Proper segs →
    Verdict path ps segs past s
  | [], segs, past, s, _, _, hmax, h, hp => verdict_nil h hp (by simpa using hmax)
  | p :: ps, segs, past, s, hps, hls, hmax, h, hp => by
    obtain ⟨har, hgr⟩ := hps p mem_cons_self
    have hps' : ∀ q ∈ ps, q.asserted = true ∧ q.isGroup = false := fun q hq =>
      hps q (mem_cons_of_mem _ hq)
    have hnil : p.isCatchAll = true → ps = [] := fun hp => by
      by_contra hne
      have := hls p (by rw [dropLast_cons_of_ne_nil hne]; exact mem_cons_self)
      simp [hp] at this
    have hls' : ∀ q ∈ ps.dropLast, q.isCatchAll = false := fun q hq =>
      hls q (by
        rw [dropLast_cons_of_ne_nil (by rintro rfl; simp at hq)]
        exact mem_cons_of_mem _ hq)
    rw [countP_cons] at hmax
    cases p with
    | group label => simp [Part.isGroup] at hgr
    | text t =>
      have ht : t ≠ [] ∧ 0x2F ∉ t := by simpa [Part.asserted] using har
      refine verdict_text h hp ht.1 ht.2 fun h' hp' hnum hpr => ?_
      exact matchParts_spec hps' hls' (by rw [hnum]; simpa [Part.isParam] using hmax) h' hp'
    | param name =>
      have hrm : s.param_num + ps.countP Part.isParam + 1 ≤ max_count := by
        simpa [Part.isParam, Nat.add_assoc] using hmax
      refine verdict_param h hp (by omega) fun h' hp' hnum => ?_
      exact matchParts_spec hps' hls' (by omega) h' hp'
    | catch_all name =>
      obtain rfl := hnil rfl
      exact verdict_catch_all h hp (by omega) (.inl rfl)
    | catch_all_optional name =>
      obtain rfl := hnil rfl
      exact verdict_catch_all h hp (by omega) (.inr rfl)

end Verdict

/-! ## Patterns and paths -/

/-- A request's path is its segments behind slashes. -/
theorem RequestPath.stands (p : RequestPath) :
    Stands p.path 1 false p.segments ∧ Proper p.segments := by
  obtain ⟨body, hbd⟩ := head?_eq_some_iff.1 p.absolute
  rw [RequestPath.segments]
  by_cases hrt : p.path = [0x2F]
  · rw [if_pos hrt, hrt]
    exact ⟨rfl, by simp, by simp⟩
  · have hnil : body ≠ [] := fun h => hrt (by rw [hbd, h])
    have hls : body.getLast? ≠ some 0x2F := by
      have := p.canonical.resolve_left hrt
      obtain ⟨l, c, rfl⟩ := (eq_nil_or_concat' body).resolve_left hnil
      rw [hbd, getLast?_cons] at this
      simpa using this
    have hjn : [0x2F].intercalate (body.splitOn 0x2F) = body := intercalate_splitOn 0x2F
    rw [if_neg hrt, hbd, tail_cons]
    have hfr : ∀ seg ∈ body.splitOn (0x2F : UInt8), 0x2F ∉ seg := fun seg =>
      not_mem_of_mem_splitOn
    refine ⟨?_, hfr, fun hem => ?_⟩
    · obtain ⟨seg, segs, hs⟩ := exists_cons_of_ne_nil (splitOn_ne_nil 0x2F body)
      rw [hs] at hjn ⊢
      exact ⟨rfl, hjn.symm⟩
    · -- an empty last segment would leave a separator at the end
      obtain ⟨l, hl⟩ : ∃ l, body.splitOn 0x2F = l ++ [[]] := by
        obtain ⟨l, c, hl⟩ :=
          (eq_nil_or_concat' (body.splitOn (0x2F : UInt8))).resolve_left
            (splitOn_ne_nil _ _)
        rw [hl] at hem
        exact ⟨l, by rw [hl]; simpa using hem⟩
      rw [hl] at hjn
      by_cases hl' : l = []
      · rw [hl'] at hjn
        exact hnil (by simpa using hjn.symm)
      · rw [Trail.intercalate_concat _ _ hl'] at hjn
        exact hls (by rw [← hjn]; simp)

theorem dropLast_visible (h : p ∈ (visible ps).dropLast) :
    p ∈ ps.dropLast := by
  rcases eq_nil_or_concat' ps with rfl | ⟨l, q, rfl⟩
  · simp [visible] at h
  · rw [dropLast_concat]
    rw [visible, filter_append] at h
    by_cases hq : q.isGroup = true
    · simp only [List.filter_cons, hq, Bool.not_true, Bool.false_eq_true, if_false,
        filter_nil, append_nil] at h
      exact mem_of_mem_filter (List.mem_of_mem_dropLast h)
    · simp only [List.filter_cons, hq, Bool.not_false, if_true, filter_nil,
        dropLast_concat] at h
      exact mem_of_mem_filter h

/-- The pattern's encoding gives its parts back, and matching a path against it stays within the
path, succeeds where the path fits the pattern, and captures what the pattern does. -/
def MatchesRightly (pattern : RoutePattern) (path : RequestPath) (params : List Entry) : Prop :=
  ∃ data, initFromParts pattern.parts = some data ∧
    partsFrom data (data.length + 1) 0 = some pattern.parts ∧
    ∃ found params', patternMatches data path.path params = some (found, params') ∧
      (found = true ↔ ∃ caps, Fits false pattern.parts path.segments caps) ∧
      ∀ caps, Fits false pattern.parts path.segments caps → params' = caps

/-- Groups apart, a text is the last part. -/
def RoutePattern.endsInText (pattern : RoutePattern) : Bool :=
  endsPast (visible pattern.parts) false

/-- Matching goes right just where no param comes behind a text that ends the path and, for a
pattern that ends in a text, the path does not match it, for any other, the path that fits it
loosely fits it properly, with no more captures than there is room for, and with some if `params`
was not empty. -/
theorem matchesRightly_iff (pattern : RoutePattern) (path : RequestPath) (params : List Entry) :
    MatchesRightly pattern path params ↔
      ¬ ParamPastEnd (visible pattern.parts) path.segments ∧
      (pattern.endsInText = true → ∀ caps, ¬ Fits false pattern.parts path.segments caps) ∧
      (pattern.endsInText = false → ∀ caps, Fits true pattern.parts path.segments caps →
        Fits false pattern.parts path.segments caps ∧ caps.length ≤ max_count ∧
          (caps = [] → params = [])) := by
  obtain ⟨data, hdata⟩ := exists_initFromParts pattern.asserted pattern.small
  have hparts : partsFrom data (data.length + 1) 0 = some pattern.parts :=
    partsFrom_eq hdata rfl (lt_succ_self _)
  obtain ⟨hstands, hproper⟩ := path.stands
  have hmatch : patternMatches data path.path params =
      matchParts path.path (visible pattern.parts) ⟨0, 1, params⟩ := by
    rw [matchParts_visible]
    exact matchLoop_eq hdata rfl (lt_succ_self _)
  have hv : Verdict path.path (visible pattern.parts) path.segments false ⟨0, 1, params⟩ := by
    refine matchParts_spec (fun p hp => ?_) (fun p hp => pattern.last p (dropLast_visible hp)) ?_
      hstands hproper
    · rw [visible, mem_filter] at hp
      exact ⟨pattern.asserted p hp.1, by simpa using hp.2⟩
    · rw [Nat.zero_add]
      exact (Sublist.countP_le filter_sublist).trans pattern.bounded
  have hover : Overruns (visible pattern.parts) path.segments false ↔
      ParamPastEnd (visible pattern.parts) path.segments := by
    simp [Overruns]
  have hcap : ∀ caps, (captured ⟨0, 1, params⟩ caps).params =
      if caps = [] then params else caps := by
    intro caps
    rw [captured]
    split_ifs
    · rfl
    · exact nil_append _
  constructor
  · rintro ⟨data', hdata', -, found, params', heq, hfound, hparams⟩
    obtain rfl : data = data' := some.inj (hdata.symm.trans hdata')
    rw [hmatch] at heq
    have hno : ¬ Overruns (visible pattern.parts) path.segments false := fun ho => by
      rw [hv.overrun ho] at heq
      cases heq
    refine ⟨mt hover.2 hno, fun hends caps hf => ?_, fun hends caps hf => ?_⟩
    · obtain ⟨q, hq⟩ := hv.ends hno caps (fits_visible.2 hf.loosen) hends
      rw [hq] at heq
      obtain ⟨rfl, -⟩ := Prod.mk.inj (some.inj heq)
      simpa using hfound.2 ⟨caps, hf⟩
    · rw [hv.taken hno caps (fits_visible.2 hf) hends, hcap] at heq
      split_ifs at heq with hle hnil
      · obtain ⟨rfl, rfl⟩ := Prod.mk.inj (some.inj heq)
        obtain ⟨caps', hf'⟩ := hfound.1 rfl
        obtain rfl := hf.unique hf'.loosen
        exact ⟨hf', by simpa using hle, fun _ => (hparams caps hf').trans hnil⟩
      · obtain ⟨rfl, rfl⟩ := Prod.mk.inj (some.inj heq)
        obtain ⟨caps', hf'⟩ := hfound.1 rfl
        obtain rfl := hf.unique hf'.loosen
        exact ⟨hf', by simpa using hle, fun h => absurd h hnil⟩
  · rintro ⟨hpast, htext, hother⟩
    have hno := mt hover.1 hpast
    refine ⟨data, hdata, hparts, ?_⟩
    rw [hmatch]
    have hfalse : (∃ q, matchParts path.path (visible pattern.parts) ⟨0, 1, params⟩ =
        some (false, q)) → (∀ caps, ¬ Fits false pattern.parts path.segments caps) →
        ∃ found params', matchParts path.path (visible pattern.parts) ⟨0, 1, params⟩ =
          some (found, params') ∧
          (found = true ↔ ∃ caps, Fits false pattern.parts path.segments caps) ∧
          ∀ caps, Fits false pattern.parts path.segments caps → params' = caps := by
      rintro ⟨q, hq⟩ hf
      exact ⟨false, q, hq, by simpa using hf, fun caps hc => absurd hc (hf caps)⟩
    by_cases hfit : ∃ caps, Fits true pattern.parts path.segments caps
    · obtain ⟨caps, hf⟩ := hfit
      cases hends : pattern.endsInText with
      | true => exact hfalse (hv.ends hno caps (fits_visible.2 hf) hends) (htext hends)
      | false =>
        obtain ⟨hf', hle, hnil⟩ := hother hends caps hf
        rw [hv.taken hno caps (fits_visible.2 hf) hends, if_pos (by simpa using hle), hcap]
        refine ⟨true, _, rfl, by simpa using ⟨caps, hf'⟩, fun caps' hc => ?_⟩
        rw [← hf.unique hc.loosen]
        split_ifs with h
        · rw [hnil h, h]
        · rfl
    · have hnone : ∀ caps, ¬ Fits true pattern.parts path.segments caps := fun caps hf =>
        hfit ⟨caps, hf⟩
      exact hfalse (hv.unfit hno fun caps hf => hnone caps (fits_visible.1 hf))
        fun caps hf => hnone caps hf.loosen

/-- `/:id/edit` -/
def editPattern : RoutePattern :=
  ⟨[.param [105, 100], .text [101, 100, 105, 116]], by decide, by decide, by decide, by decide⟩

/-- `/5/edit` -/
def editPath : RequestPath := ⟨[47, 53, 47, 101, 100, 105, 116], rfl, .inr (by decide)⟩

/-- A pattern that ends in a text is not found to match. -/
theorem not_matchesRightly_edit : ¬ MatchesRightly editPattern editPath [] := by
  rintro ⟨data, hdata, -, found, params', heq, hfound, -⟩
  obtain rfl := some.inj hdata
  have hf : Fits false editPattern.parts editPath.segments [⟨[105, 100], [53]⟩] :=
    .param (.inr (by decide)) (.text .nil)
  have hfalse : found = false := (congrArg Prod.fst (some.inj heq)).symm
  rw [hfalse] at hfound
  exact absurd (hfound.2 ⟨_, hf⟩) (by decide)

end Cruller.Bake.FrameworkRouter
