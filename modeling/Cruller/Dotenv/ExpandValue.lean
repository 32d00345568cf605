import Mathlib.Data.List.TakeWhile
import Mathlib.Tactic

/-!
# Expanding the references in a value

`expandValue` goes through a value from its end and puts what each reference stands for before what
it has written. A slice that ends before it starts ends the program (`none`).

Read from its start, the value is a row of pieces (`readPieces`): a reference ends where its name
and its default do, and nothing may be read of a default that has a reference in it.
-/

namespace Cruller.Dotenv

open List Option

abbrev dollar : UInt8 := 0x24

abbrev backslash : UInt8 := 0x5C

abbrev openBrace : UInt8 := 0x7B

abbrev closeBrace : UInt8 := 0x7D

/-- `":-"` -/
def defaultMark : List UInt8 := [0x3A, 0x2D]

/-- `'a'...'z', 'A'...'Z', '0'...'9', '_'` -/
def isName (c : UInt8) : Bool :=
  (0x61 ≤ c && c ≤ 0x7A) || (0x41 ≤ c && c ≤ 0x5A) || (0x30 ≤ c && c ≤ 0x39) || c == 0x5F

def inDefault (c : UInt8) : Bool := c != closeBrace && c != backslash

/-- `value[start..stop]` -/
def slice (value : List UInt8) (start stop : ℕ) : Option (List UInt8) :=
  if start ≤ stop ∧ stop ≤ value.length then some ((value.take stop).drop start) else none

/-- `while (end < value.len) : (end += 1)`, for as long as `p` holds. -/
def scan (p : UInt8 → Bool) (value : List UInt8) (stop : ℕ) : ℕ :=
  stop + ((value.drop stop).takeWhile p).length

section

variable (map : List UInt8 → Option (List UInt8)) (value : List UInt8)

/-- The buffer when the reference at `pos` is put before it, with what follows it up to `last`. -/
def insertReference (pos last : ℕ) (value_buffer : List UInt8) : Option (List UInt8) := do
  let key_start := if value[pos + 1]? = some openBrace then pos + 2 else pos + 1
  let stop := scan isName value key_start
  let key ← slice value key_start stop
  let lookup_value := map key
  let tail ← slice value stop value.length
  let (default_value, stop) ← (
    if defaultMark.isPrefixOf tail then do
      let value_start := stop + 2
      let stop := scan inDefault value value_start
      let default_value ← slice value value_start stop
      some (default_value, stop)
    else some ([], stop))
  let stop := if value[stop]? = some closeBrace then stop + 1 else stop
  let between ← slice value stop last
  some (lookup_value.getD default_value ++ (between ++ value_buffer))

/-- What the loop leaves: null when it has found nothing to replace. -/
def finish (last : ℕ) (value_buffer : List UInt8) : Option (Option (List UInt8)) :=
  if last = value.length then some none
  else do
    let front ← slice value 0 last
    some (some (front ++ value_buffer))

/-- `while (true) : (pos -= 1)`, over the bytes that are still to be looked at. -/
def expandLoop : ℕ → ℕ → List UInt8 → Option (Option (List UInt8))
  | 0, last, value_buffer => finish value last value_buffer
  | 1, last, value_buffer =>
    if value[0]? = some dollar then do
      let value_buffer ← insertReference map value 0 last value_buffer
      expandLoop 0 0 value_buffer
    else expandLoop 0 last value_buffer
  | pos + 2, last, value_buffer =>
    if value[pos + 1]? = some dollar then
      if value[pos]? = some backslash then do
        let kept ← slice value (pos + 1) last
        expandLoop pos pos (kept ++ value_buffer)
      else do
        let value_buffer ← insertReference map value (pos + 1) last value_buffer
        expandLoop (pos + 1) (pos + 1) value_buffer
    else expandLoop (pos + 1) last value_buffer

/-- The value with its references replaced, if there are any. -/
def expandValue : Option (Option (List UInt8)) :=
  if value.length < 2 then some none
  else expandLoop map value (value.length - 1) value.length []

/-- The text of the variable afterwards: the value itself where `expandValue` gives null. -/
def expanded : Option (List UInt8) := (expandValue map value).map fun text => text.getD value

end

/-- A byte of the text, or a variable with what stands for it when it is unset. -/
inductive Piece where
  | byte (b : UInt8)
  | ref (name : List UInt8) (default : List Piece)

mutual

def Piece.text (map : List UInt8 → Option (List UInt8)) : Piece → List UInt8
  | .byte b => [b]
  | .ref name default => (map name).getD (textOf map default)

def textOf (map : List UInt8 → Option (List UInt8)) : List Piece → List UInt8
  | [] => []
  | p :: ps => p.text map ++ textOf map ps

end

/-- What the loop takes the bytes after a dollar for; `tail` is what is left but for a brace. -/
structure Reference where
  name : List UInt8
  default : List UInt8
  tail : List UInt8

/-- What is behind the reference. -/
def Reference.after (r : Reference) : List UInt8 :=
  if r.tail.head? = some closeBrace then r.tail.tail else r.tail

/-- The default has a dollar in it that the loop has stopped at before. -/
def Reference.Broken (r : Reference) : Prop :=
  dollar ∈ if r.tail = [] then r.default.dropLast else r.default

instance (r : Reference) : Decidable r.Broken :=
  inferInstanceAs (Decidable (dollar ∈ if r.tail = [] then r.default.dropLast else r.default))

/-- What is behind the brace that a reference may open with. -/
def unbraced (rest : List UInt8) : List UInt8 :=
  if rest.head? = some openBrace then rest.tail else rest

/-- The name, and the default if there is one. -/
def readReference (rest : List UInt8) : Reference :=
  let name := (unbraced rest).takeWhile isName
  let tail := (unbraced rest).dropWhile isName
  if defaultMark.isPrefixOf tail then
    ⟨name, (tail.drop 2).takeWhile inDefault, (tail.drop 2).dropWhile inDefault⟩
  else ⟨name, [], tail⟩

lemma Reference.length_after_le (r : Reference) : r.after.length ≤ r.tail.length := by
  unfold Reference.after
  split_ifs
  · exact (length_tail ..).trans_le (Nat.sub_le ..)
  · exact le_rfl

lemma length_unbraced_le (rest : List UInt8) : (unbraced rest).length ≤ rest.length := by
  unfold unbraced
  split_ifs
  · exact (length_tail ..).trans_le (Nat.sub_le ..)
  · exact le_rfl

lemma length_tail_le (rest : List UInt8) :
    (readReference rest).tail.length ≤ ((unbraced rest).dropWhile isName).length := by
  unfold readReference
  dsimp only
  split_ifs
  · have hdf := (dropWhile_suffix (l := ((unbraced rest).dropWhile isName).drop 2)
      inDefault).length_le
    rw [length_drop] at hdf
    exact hdf.trans (Nat.sub_le ..)
  · exact le_rfl

lemma length_after_le (rest : List UInt8) : (readReference rest).after.length ≤ rest.length :=
  (readReference rest).length_after_le.trans <| (length_tail_le rest).trans <|
    ((unbraced rest).dropWhile_suffix isName).length_le.trans (length_unbraced_le rest)

/-- The pieces that the loop takes a text for. A dollar at the very end is none of its. -/
def readPieces : List UInt8 → Option (List Piece)
  | [] => some []
  | c :: rest =>
    if c = dollar ∧ rest ≠ [] then
      let r := readReference rest
      if r.Broken then none
      else (readPieces r.after).map (.ref r.name (r.default.map .byte) :: ·)
    else if c = backslash ∧ rest.head? = some dollar ∧ rest.tail ≠ [] then
      (readPieces rest.tail).map (.byte dollar :: ·)
    else (readPieces rest).map (.byte c :: ·)
termination_by s => s.length
decreasing_by
  · exact Nat.lt_succ_of_le (length_after_le rest)
  · simp only [List.length_tail, List.length_cons]
    omega
  · exact Nat.lt_succ_self _

lemma takeWhile_isName_no_mark {c : UInt8} (hc : c = dollar ∨ c = backslash) (l : List UInt8) :
    c ∉ l.takeWhile isName := by
  intro hmem
  have hnm := mem_takeWhile_imp hmem
  rcases hc with rfl | rfl
  · exact absurd hnm (by decide)
  · exact absurd hnm (by decide)

lemma takeWhile_inDefault_no_backslash (l : List UInt8) : backslash ∉ l.takeWhile inDefault := by
  intro hmem
  exact absurd (mem_takeWhile_imp hmem) (by decide)

lemma exists_unbraced (rest : List UInt8) :
    ∃ o, rest = o ++ unbraced rest ∧ dollar ∉ o ∧ backslash ∉ o := by
  unfold unbraced
  split_ifs with h
  · obtain ⟨r, rfl⟩ := head?_eq_some_iff.1 h
    exact ⟨[openBrace], rfl, by decide, by decide⟩
  · exact ⟨[], rfl, by simp, by simp⟩

lemma exists_before_default (rest : List UInt8) :
    ∃ o, rest = o ++ (readReference rest).default ++ (readReference rest).tail
      ∧ dollar ∉ o ∧ backslash ∉ o ∧ backslash ∉ (readReference rest).default := by
  obtain ⟨o, ho, hd, hb⟩ := exists_unbraced rest
  have hnm := (unbraced rest).takeWhile_append_dropWhile (p := isName)
  have hnd := takeWhile_isName_no_mark (.inl rfl) (unbraced rest)
  have hnb := takeWhile_isName_no_mark (.inr rfl) (unbraced rest)
  unfold readReference
  dsimp only
  split_ifs with hmr
  · obtain ⟨t, ht⟩ := isPrefixOf_iff_prefix.1 hmr
    refine ⟨o ++ (unbraced rest).takeWhile isName ++ defaultMark, ?_, ?_, ?_,
      takeWhile_inDefault_no_backslash _⟩
    · dsimp only
      rw [append_assoc, takeWhile_append_dropWhile, ← ht,
        show (defaultMark ++ t).drop 2 = t from rfl, append_assoc, ht, append_assoc,
        hnm]
      exact ho
    · simp only [mem_append, hd, hnd, false_or, or_false]
      decide
    · simp only [mem_append, hb, hnb, false_or, or_false]
      decide
  · refine ⟨o ++ (unbraced rest).takeWhile isName, ?_, ?_, ?_, by simp⟩
    · simp only [append_nil, append_assoc, hnm]
      exact ho
    · simp [hd, hnd]
    · simp [hb, hnb]

/-- A dollar with something behind it. -/
def Inner (l after : List UInt8) : Prop :=
  ∃ pre post, l = pre ++ dollar :: post ∧ post ++ after ≠ []

lemma mem_dropLast_iff {l : List UInt8} : dollar ∈ l.dropLast ↔ Inner l [] := by
  constructor
  · intro hmem
    obtain ⟨pre, post, hpre⟩ := append_of_mem hmem
    have hne : l ≠ [] := by
      rintro rfl
      simp at hmem
    refine ⟨pre, post ++ [l.getLast hne], ?_, by simp⟩
    conv_lhs => rw [← dropLast_append_getLast hne, hpre]
    simp
  · rintro ⟨pre, post, rfl, hps⟩
    have hne : post ≠ [] := by simpa using hps
    rw [dropLast_append_of_ne_nil (by simp), dropLast_cons_of_ne_nil hne]
    simp

lemma Reference.broken_iff (r : Reference) : r.Broken ↔ Inner r.default r.tail := by
  unfold Reference.Broken
  split_ifs with h
  · rw [h, mem_dropLast_iff]
  · constructor
    · intro hmem
      obtain ⟨pre, post, hpre⟩ := append_of_mem hmem
      exact ⟨pre, post, hpre, by simp [h]⟩
    · rintro ⟨pre, post, hpre, -⟩
      simp [hpre]

lemma Inner.append {d after close : List UInt8} (o : List UInt8) (h : Inner d (close ++ after)) :
    Inner (o ++ d ++ close) after := by
  obtain ⟨pre, post, rfl, hps⟩ := h
  exact ⟨o ++ pre, post ++ close, by simp, by simpa using hps⟩

lemma Inner.of_append_left {o l after : List UInt8} (ho : dollar ∉ o) (h : Inner (o ++ l) after) :
    Inner l after := by
  obtain ⟨pre, post, heq, hps⟩ := h
  obtain ⟨m, rfl, hm⟩ | ⟨m, rfl, hm⟩ := append_eq_append_iff.1 heq
  · exact ⟨m, post, hm, hps⟩
  · rcases m with _ | ⟨b, m⟩
    · exact ⟨[], post, hm.symm, hps⟩
    · simp only [cons_append, List.cons.injEq] at hm
      simp [← hm.1] at ho

lemma Inner.of_append_right {d close after : List UInt8} (hcl : dollar ∉ close)
    (h : Inner (d ++ close) after) : Inner d (close ++ after) := by
  obtain ⟨pre, post, heq, hps⟩ := h
  obtain ⟨m, rfl, hm⟩ | ⟨m, rfl, hm⟩ := append_eq_append_iff.1 heq
  · simp [hm] at hcl
  · rcases m with _ | ⟨b, m⟩
    · rw [nil_append] at hm
      exact absurd (hm ▸ mem_cons_self) hcl
    · simp only [cons_append, List.cons.injEq] at hm
      obtain ⟨rfl, rfl⟩ := hm
      exact ⟨pre, m, rfl, by simpa using hps⟩

/-- The bytes of a reference hold no backslash, and no dollar but one that breaks it or ends the
text. -/
lemma exists_own (rest : List UInt8) :
    ∃ own, rest = own ++ (readReference rest).after ∧ backslash ∉ own ∧
      ((readReference rest).Broken ↔ Inner own (readReference rest).after) := by
  obtain ⟨o, ho, hod, hob, hdb⟩ := exists_before_default rest
  set r := readReference rest
  obtain ⟨close, htl, hcl⟩ :
      ∃ close, r.tail = close ++ r.after ∧ (close = [] ∨ close = [closeBrace]) := by
    unfold Reference.after
    split_ifs with h
    · obtain ⟨t, ht⟩ := head?_eq_some_iff.1 h
      exact ⟨[closeBrace], by rw [ht]; rfl, .inr rfl⟩
    · exact ⟨[], rfl, .inl rfl⟩
  have hcd : dollar ∉ close := by rcases hcl with rfl | rfl <;> decide
  have hcb : backslash ∉ close := by rcases hcl with rfl | rfl <;> decide
  refine ⟨o ++ r.default ++ close, ?_, by simp [hob, hdb, hcb], ?_⟩
  · rw [append_assoc, ← htl]
    exact ho
  · rw [r.broken_iff, htl]
    refine ⟨fun h => h.append o, fun h => ?_⟩
    rw [append_assoc] at h
    exact (h.of_append_left hod).of_append_right hcd

lemma own_prefix {own after mid back : List UInt8} (hown : own ++ after = mid ++ back)
    (hbc : backslash ∉ own) (hin : ¬ Inner own after)
    (hbk : ∀ c rest, back = c :: rest → c = backslash ∨ c = dollar ∧ rest ≠ []) :
    ∃ between, mid = own ++ between ∧ after = between ++ back := by
  obtain ⟨m, rfl, hm⟩ | ⟨m, rfl, hm⟩ := append_eq_append_iff.1 hown
  · exact ⟨m, rfl, hm⟩
  · rcases m with _ | ⟨c, m⟩
    · exact ⟨[], by simp, by simpa using hm.symm⟩
    · exfalso
      rcases hbk c _ hm with rfl | ⟨rfl, hrs⟩
      · simp at hbc
      · exact hin ⟨mid, m, rfl, hrs⟩

lemma readPieces_dollar {rest : List UInt8} (hrs : rest ≠ []) :
    readPieces (dollar :: rest) =
      if (readReference rest).Broken then none
      else (readPieces (readReference rest).after).map
        (.ref (readReference rest).name ((readReference rest).default.map .byte) :: ·) := by
  rw [readPieces, if_pos ⟨rfl, hrs⟩]

lemma readPieces_escape {rest : List UInt8} (hrs : rest ≠ []) :
    readPieces (backslash :: dollar :: rest) = (readPieces rest).map (.byte dollar :: ·) := by
  rw [readPieces, if_neg (fun h => absurd h.1 (by decide)), if_pos ⟨rfl, rfl, hrs⟩]
  rfl

lemma readPieces_byte {c : UInt8} {rest : List UInt8} (hdl : c = dollar → rest = [])
    (hes : c = backslash → ∀ r, rest = dollar :: r → r = []) :
    readPieces (c :: rest) = (readPieces rest).map (.byte c :: ·) := by
  have hne : ¬ (c = dollar ∧ rest ≠ []) := fun h => h.2 (hdl h.1)
  have hns : ¬ (c = backslash ∧ rest.head? = some dollar ∧ rest.tail ≠ []) := by
    rintro ⟨rfl, hhd, htl⟩
    obtain ⟨r, rfl⟩ := head?_eq_some_iff.1 hhd
    exact htl (hes rfl r rfl)
  rw [readPieces, if_neg hne, if_neg hns]

/-- What cannot be read cannot be read behind anything either, unless a backslash escapes it. -/
lemma readPieces_append_eq_none {rest : List UInt8} (hrs : rest ≠ [])
    (hno : readPieces (dollar :: rest) = none) :
    ∀ front : List UInt8, front.getLast? ≠ some backslash →
      readPieces (front ++ dollar :: rest) = none
  | [], _ => hno
  | c :: front, hls => by
    have hfr : front.getLast? ≠ some backslash := by
      rcases front with _ | ⟨b, front⟩
      · simp
      · simpa [getLast?_cons_cons] using hls
    rw [cons_append]
    by_cases hdl : c = dollar
    · subst hdl
      rw [readPieces_dollar (by simp)]
      obtain ⟨own, hown, hbc, hbr⟩ := exists_own (front ++ dollar :: rest)
      split_ifs with hb
      · rfl
      · obtain ⟨between, hmid, haf⟩ := own_prefix hown.symm hbc (mt hbr.2 hb)
          (fun _ _ h => by
            obtain ⟨rfl, rfl⟩ := List.cons.inj h
            exact .inr ⟨rfl, hrs⟩)
        have hlt : between.length < front.length + 1 := by
          rw [hmid, length_append]
          omega
        have hbt : between.getLast? ≠ some backslash := by
          intro h
          rw [hmid, getLast?_append, h] at hfr
          exact hfr rfl
        rw [haf, readPieces_append_eq_none hrs hno between hbt]
        rfl
    · by_cases hes : c = backslash ∧ ∃ f, front = dollar :: f
      · obtain ⟨rfl, f, rfl⟩ := hes
        have hf : f.getLast? ≠ some backslash := by
          rcases f with _ | ⟨b, f⟩
          · simp
          · simpa [getLast?_cons_cons] using hfr
        rw [cons_append, readPieces_escape (by simp),
          readPieces_append_eq_none hrs hno f hf]
        rfl
      · rw [readPieces_byte (fun h => absurd h hdl),
          readPieces_append_eq_none hrs hno _ hfr]
        · rfl
        · rintro rfl r hr
          rcases front with _ | ⟨b, front⟩
          · simp at hls
          · obtain ⟨rfl, -⟩ := List.cons.inj hr
            exact absurd ⟨rfl, front, rfl⟩ hes
termination_by front => front.length

lemma readPieces_literal {back : List UInt8} {ps : List Piece} (h : readPieces back = some ps) :
    ∀ mid : List UInt8, ¬ Inner mid back →
      (back.head? = some dollar → mid.getLast? ≠ some backslash) →
      readPieces (mid ++ back) = some (mid.map .byte ++ ps)
  | [], _, _ => h
  | c :: mid, hin, hls => by
    have hmid : ¬ Inner mid back := fun ⟨pre, post, hpre, hps⟩ =>
      hin ⟨c :: pre, post, by rw [hpre]; rfl, hps⟩
    have hmd : back.head? = some dollar → mid.getLast? ≠ some backslash := by
      intro hhd
      rcases mid with _ | ⟨b, mid⟩
      · simp
      · simpa [getLast?_cons_cons] using hls hhd
    rw [cons_append, readPieces_byte ?_ ?_, readPieces_literal h mid hmid hmd]
    · rfl
    · rintro rfl
      by_contra hne
      exact hin ⟨[], mid, rfl, hne⟩
    · rintro rfl r hr
      rcases mid with _ | ⟨b, mid⟩
      · rw [nil_append] at hr
        exact absurd rfl (hls (by rw [hr]; rfl))
      · obtain ⟨rfl, rfl⟩ := List.cons.inj hr
        by_contra hne
        exact hin ⟨[backslash], mid, rfl, hne⟩

section

variable {map : List UInt8 → Option (List UInt8)} {value : List UInt8}

lemma slice_length {k : ℕ} (h : k ≤ value.length) :
    slice value k value.length = some (value.drop k) := by
  rw [slice, if_pos ⟨h, le_rfl⟩, take_length]

lemma drop_scan (p : UInt8 → Bool) (k : ℕ) :
    value.drop (scan p value k) = (value.drop k).dropWhile p := by
  have hsp := (value.drop k).takeWhile_append_dropWhile (p := p)
  rw [scan, ← drop_drop]
  calc (value.drop k).drop ((value.drop k).takeWhile p).length
      = (((value.drop k).takeWhile p) ++ (value.drop k).dropWhile p).drop
          ((value.drop k).takeWhile p).length := by rw [hsp]
    _ = (value.drop k).dropWhile p := drop_left

lemma scan_le (p : UInt8 → Bool) {k : ℕ} (h : k ≤ value.length) :
    scan p value k ≤ value.length := by
  have hle := (List.takeWhile_prefix p (l := value.drop k)).length_le
  rw [length_drop] at hle
  unfold scan
  omega

lemma slice_scan (p : UInt8 → Bool) {k : ℕ} (h : k ≤ value.length) :
    slice value k (scan p value k) = some ((value.drop k).takeWhile p) := by
  rw [slice, if_pos ⟨Nat.le_add_right .., scan_le p h⟩, scan, drop_take,
    Nat.add_sub_cancel_left, prefix_iff_eq_take.1 (List.takeWhile_prefix p)]
  simp

lemma drop_closed {k : ℕ} (h : k ≤ value.length) {r : Reference} (hr : value.drop k = r.tail) :
    (if value[k]? = some closeBrace then k + 1 else k) ≤ value.length ∧
      value.drop (if value[k]? = some closeBrace then k + 1 else k) = r.after := by
  have hhd : value[k]? = r.tail.head? := by rw [← hr, head?_drop]
  unfold Reference.after
  rw [← hhd]
  split_ifs with hcl
  · obtain ⟨hlt, -⟩ := List.getElem?_eq_some_iff.1 hcl
    exact ⟨hlt, by rw [← hr, tail_drop]⟩
  · exact ⟨h, hr⟩

/-- `readReference` is what the loop reads at `pos`. -/
lemma insertReference_eq {pos : ℕ} {rest : List UInt8} (hrs : value.drop (pos + 1) = rest)
    (hpos : pos + 1 < value.length) (last : ℕ) (buffer : List UInt8) :
    ∃ stop, stop ≤ value.length ∧ value.drop stop = (readReference rest).after ∧
      insertReference map value pos last buffer =
        (slice value stop last).map fun between =>
          (map (readReference rest).name).getD (readReference rest).default
            ++ (between ++ buffer) := by
  obtain ⟨start, hsr, hdr, hle⟩ :
      ∃ start, (if value[pos + 1]? = some openBrace then pos + 2 else pos + 1) = start ∧
        value.drop start = unbraced rest ∧ start ≤ value.length := by
    have hhd : value[pos + 1]? = rest.head? := by rw [← hrs, head?_drop]
    refine ⟨_, rfl, ?_, ?_⟩
    · unfold unbraced
      rw [hhd]
      split_ifs
      · rw [← hrs, tail_drop]
      · exact hrs
    · split_ifs <;> omega
  have hnm : value.drop (scan isName value start) = (unbraced rest).dropWhile isName := by
    rw [drop_scan, hdr]
  have hst := scan_le isName hle
  unfold insertReference
  simp only [hsr, slice_scan isName hle, slice_length hst, hnm, hdr, bind_eq_bind,
    bind_some]
  unfold readReference
  dsimp only
  split_ifs with hmk
  · have hmr : scan isName value start + 2 ≤ value.length := by
      have hlen := (List.isPrefixOf_iff_prefix.1 hmk).length_le
      rw [← hnm, length_drop] at hlen
      simp only [defaultMark, length_cons, length_nil] at hlen
      omega
    have hdf : value.drop (scan isName value start + 2) =
        ((unbraced rest).dropWhile isName).drop 2 := by rw [← hnm, drop_drop]
    have htl := hdf ▸ drop_scan inDefault (scan isName value start + 2)
    simp only [slice_scan inDefault hmr, hdf, bind_some]
    obtain ⟨hcl, haf⟩ := drop_closed (scan_le inDefault hmr)
      (r := ⟨(unbraced rest).takeWhile isName, _, _⟩) htl
    exact ⟨_, hcl, haf, Option.map_eq_bind.symm⟩
  · obtain ⟨hcl, haf⟩ := drop_closed hst
      (r := ⟨(unbraced rest).takeWhile isName, [], _⟩) hnm
    exact ⟨_, hcl, haf, Option.map_eq_bind.symm⟩

lemma expandLoop_succ (n last : ℕ) (buffer : List UInt8) :
    expandLoop map value (n + 1) last buffer =
      if value[n]? = some dollar then
        if 0 < n ∧ value[n - 1]? = some backslash then
          (slice value n last).bind fun kept =>
            expandLoop map value (n - 1) (n - 1) (kept ++ buffer)
        else (insertReference map value n last buffer).bind (expandLoop map value n n)
      else expandLoop map value n last buffer := by
  cases n with
  | zero => simp [expandLoop]
  | succ n => simp [expandLoop]

/-- The text reads as the buffer: where the loop has come to a stop at `back`. -/
def ReadsAs (map : List UInt8 → Option (List UInt8)) (back buffer : List UInt8) : Prop :=
  (readPieces back).map (textOf map) = some buffer

lemma ReadsAs.escape {rest buffer : List UInt8} (h : ReadsAs map rest buffer) (hrs : rest ≠ []) :
    ReadsAs map (backslash :: dollar :: rest) (dollar :: buffer) := by
  unfold ReadsAs at *
  obtain ⟨ps, hps, rfl⟩ := map_eq_some_iff.1 h
  rw [readPieces_escape hrs, hps]
  rfl

lemma textOf_map_byte (l : List UInt8) : textOf map (l.map .byte) = l := by
  induction l with
  | nil => rfl
  | cons c l ih => simp [textOf, Piece.text, ih]

lemma textOf_append (ps qs : List Piece) :
    textOf map (ps ++ qs) = textOf map ps ++ textOf map qs := by
  induction ps with
  | nil => rfl
  | cons p ps ih => simp [textOf, ih]

lemma ReadsAs.reference {rest buffer : List UInt8} (hrs : rest ≠ [])
    (hbr : ¬ (readReference rest).Broken) (h : ReadsAs map (readReference rest).after buffer) :
    ReadsAs map (dollar :: rest)
      ((map (readReference rest).name).getD (readReference rest).default ++ buffer) := by
  unfold ReadsAs at *
  obtain ⟨ps, hps, rfl⟩ := map_eq_some_iff.1 h
  rw [readPieces_dollar hrs, if_neg hbr, hps]
  simp [textOf, Piece.text, textOf_map_byte]

/-- What the loop has left between the bytes it has still to look at and the last thing that it has
replaced. -/
structure Between (map : List UInt8 → Option (List UInt8)) (front mid back buffer : List UInt8) :
    Prop where
  reads : ReadsAs map back buffer
  not_inner : ¬ Inner mid back
  stop : ∀ c rest, back = c :: rest → c = backslash ∨ c = dollar ∧ rest ≠ []
  unescaped : back.head? = some dollar → (front ++ mid).getLast? ≠ some backslash

lemma ReadsAs.literal {mid back buffer : List UInt8} (h : ReadsAs map back buffer)
    (hin : ¬ Inner mid back) (hls : back.head? = some dollar → mid.getLast? ≠ some backslash) :
    ReadsAs map (mid ++ back) (mid ++ buffer) := by
  unfold ReadsAs at *
  obtain ⟨ps, hps, rfl⟩ := map_eq_some_iff.1 h
  rw [readPieces_literal hps mid hin hls]
  simp [textOf_append, textOf_map_byte]

lemma Between.readsAs_suffix {front own mid back buffer : List UInt8}
    (h : Between map front (own ++ mid) back buffer) :
    ReadsAs map (mid ++ back) (mid ++ buffer) := by
  refine h.reads.literal ?_ fun hhd hls => h.unescaped hhd ?_
  · rintro ⟨pre, post, rfl, hps⟩
    exact h.not_inner ⟨own ++ pre, post, by simp, hps⟩
  · rw [getLast?_append, getLast?_append, hls]
    rfl

lemma Between.readsAs {front mid back buffer : List UInt8} (h : Between map front mid back buffer) :
    ReadsAs map (mid ++ back) (mid ++ buffer) := by
  rw [← nil_append mid] at h
  exact h.readsAs_suffix

lemma slice_append (front mid back : List UInt8) :
    slice (front ++ mid ++ back) front.length (front.length + mid.length) = some mid := by
  rw [slice, if_pos (by simp), ← length_append, take_left, drop_left]

lemma finish_eq {mid back buffer : List UInt8} (h : Between map [] mid back buffer) :
    (finish (mid ++ back) mid.length buffer).map (fun text => text.getD (mid ++ back))
      = (readPieces (mid ++ back)).map (textOf map) := by
  have hrd := h.readsAs
  unfold ReadsAs at hrd
  rw [hrd]
  unfold finish
  split_ifs with hall
  · have hbc : back = [] := by
      rw [length_append] at hall
      exact eq_nil_of_length_eq_zero (by omega)
    subst hbc
    have hbf := h.reads
    simp only [ReadsAs, readPieces, map_some, some.injEq] at hbf
    simp [← hbf, textOf]
  · have hsl := slice_append [] mid back
    simp only [nil_append, length_nil, Nat.zero_add] at hsl
    simp [hsl]

/-- Where the reference at the end of `front` ends. -/
lemma insertReference_own {front mid back : List UInt8}
    (hvl : value = front ++ dollar :: (mid ++ back)) (hrs : mid ++ back ≠ [])
    {own : List UInt8} (hown : mid ++ back = own ++ (readReference (mid ++ back)).after)
    (buffer : List UInt8) :
    insertReference map value front.length (front.length + 1 + mid.length) buffer =
      (slice value (front.length + 1 + own.length) (front.length + 1 + mid.length)).map
        fun between =>
          (map (readReference (mid ++ back)).name).getD (readReference (mid ++ back)).default ++
            (between ++ buffer) := by
  have hlen : value.length = front.length + 1 + (mid ++ back).length := by
    rw [hvl, length_append, length_cons]
    omega
  have hpos := length_pos_of_ne_nil hrs
  have hdr : value.drop (front.length + 1) = mid ++ back := by simp [hvl]
  obtain ⟨stop, hle, hst, hin⟩ :=
    insertReference_eq hdr (by omega) (front.length + 1 + mid.length) buffer
  have how := congrArg List.length hown
  rw [@length_append _ own] at how
  have hsp := congrArg List.length hst
  rw [length_drop] at hsp
  rw [hin, show stop = front.length + 1 + own.length by omega]

lemma Between.own_lt {front mid back buffer : List UInt8} (h : Between map front mid back buffer)
    {own : List UInt8} (hown : mid ++ back = own ++ (readReference (mid ++ back)).after)
    (hbr : Inner own (readReference (mid ++ back)).after) : mid.length < own.length := by
  by_contra hle
  obtain ⟨m, rfl⟩ := prefix_of_prefix_length_le ⟨_, hown.symm⟩ (prefix_append mid back)
    (Nat.le_of_not_lt hle)
  rw [append_assoc, append_cancel_left_eq, ← append_assoc] at hown
  obtain ⟨pre, post, rfl, hps⟩ := hbr
  rw [← hown] at hps
  exact h.not_inner ⟨pre, post ++ m, by simp, by simpa using hps⟩

/-- The loop from the back expands what the pieces from the front say. -/
theorem expandLoop_eq {front mid back buffer : List UInt8}
    (hvl : value = front ++ (mid ++ back)) (hrs : mid ++ back ≠ [])
    (h : Between map front mid back buffer) :
    (expandLoop map value front.length (front.length + mid.length) buffer).map
        (fun text => text.getD value)
      = (readPieces value).map (textOf map) := by
  rcases front.eq_nil_or_concat' with rfl | ⟨front, c, rfl⟩
  · subst hvl
    simpa [expandLoop] using finish_eq h
  have hcn : value = front ++ c :: (mid ++ back) := by simp [hvl]
  have hget : value[front.length]? = some c := by simp [hvl]
  rw [length_append, length_singleton, expandLoop_succ, hget]
  by_cases hdl : c = dollar
  · subst hdl
    rw [if_pos rfl]
    by_cases hes : front.getLast? = some backslash
    · -- The backslash goes, and the dollar stays with what follows it.
      obtain ⟨f, rfl⟩ := getLast?_eq_some_iff.1 hes
      have hkp : slice value (f.length + 1) (f.length + 1 + 1 + mid.length)
          = some (dollar :: mid) := by
        have hsl := slice_append (f ++ [backslash]) (dollar :: mid) back
        rw [show f ++ [backslash] ++ dollar :: mid ++ back = value by simp [hcn]] at hsl
        rw [← hsl, length_append, length_singleton, length_cons]
        congr 1
        omega
      have hcd : 0 < (f ++ [backslash]).length ∧
          value[(f ++ [backslash]).length - 1]? = some backslash := by simp [hcn]
      have hbt : Between map f [] (backslash :: dollar :: (mid ++ back))
          (dollar :: (mid ++ buffer)) := by
        refine ⟨h.readsAs.escape hrs, ?_, ?_, ?_⟩
        · rintro ⟨pre, post, hpre, -⟩
          simp at hpre
        · rintro c rest hc
          exact .inl (List.cons.inj hc).1.symm
        · intro hhd
          exact absurd (some.inj hhd) (by decide)
      have hst := expandLoop_eq (by simp [hcn]) (by simp) hbt
      rw [if_pos hcd, length_append, length_singleton, hkp, bind_some]
      simpa using hst
    · have hcd : ¬ (0 < front.length ∧ value[front.length - 1]? = some backslash) := by
        rintro ⟨hpos, hls⟩
        rw [hcn, getElem?_append_left (by omega)] at hls
        rw [getLast?_eq_getElem?] at hes
        exact hes hls
      obtain ⟨own, hown, hbc, hiff⟩ := exists_own (mid ++ back)
      rw [if_neg hcd, insertReference_own hcn hrs hown]
      by_cases hbr : (readReference (mid ++ back)).Broken
      · -- The loop has taken bytes of the default for something else, so the slice ends too early.
        have hlt := h.own_lt hown (hiff.1 hbr)
        rw [slice, if_neg (by omega), hcn, readPieces_append_eq_none hrs _ _ hes]
        · rfl
        · rw [readPieces_dollar hrs, if_pos hbr]
      · obtain ⟨between, rfl, haf⟩ := own_prefix hown.symm hbc (mt hiff.2 hbr) h.stop
        have hsl : slice value (front.length + 1 + own.length)
            (front.length + 1 + (own ++ between).length) = some between := by
          have hsl := slice_append (front ++ [dollar] ++ own) between back
          rw [show front ++ [dollar] ++ own ++ between ++ back = value by simp [hcn]] at hsl
          rw [← hsl]
          simp only [length_append, length_singleton]
          congr 1
          omega
        have hrd : ReadsAs map (readReference (own ++ between ++ back)).after
            (between ++ buffer) := by
          rw [haf]
          exact h.readsAs_suffix
        have hbt : Between map front [] (dollar :: (own ++ between ++ back))
            ((map (readReference (own ++ between ++ back)).name).getD
              (readReference (own ++ between ++ back)).default ++ (between ++ buffer)) := by
          refine ⟨hrd.reference hrs hbr, ?_, ?_, ?_⟩
          · rintro ⟨pre, post, hpre, -⟩
            simp at hpre
          · rintro c rest hc
            obtain ⟨rfl, rfl⟩ := List.cons.inj hc
            exact .inr ⟨rfl, hrs⟩
          · intro _
            rwa [append_nil]
        have hst := expandLoop_eq (by simp [hcn]) (by simp) hbt
        rw [hsl, map_some, bind_some]
        simpa using hst
  · -- A byte that stays.
    rw [if_neg (by simpa using hdl)]
    have hbt : Between map front (c :: mid) back buffer := by
      refine ⟨h.reads, ?_, h.stop, ?_⟩
      · rintro ⟨pre, post, hpre, hps⟩
        rcases pre with _ | ⟨b, pre⟩
        · exact hdl (List.cons.inj hpre).1
        · exact h.not_inner ⟨pre, post, (List.cons.inj hpre).2, hps⟩
      · simpa using h.unescaped
    have hst := expandLoop_eq (by simp [hcn]) (by simp) hbt
    rwa [length_cons, show front.length + (mid.length + 1) = front.length + 1 + mid.length by
      omega] at hst
termination_by front.length

/-- The loop gives what the pieces of the value stand for, and ends the program where they cannot
be read. -/
theorem expanded_eq (map : List UInt8 → Option (List UInt8)) (value : List UInt8) :
    expanded map value = (readPieces value).map (textOf map) := by
  unfold expanded expandValue
  split_ifs with hlen
  · rcases value with _ | ⟨c, _ | ⟨b, value⟩⟩
    · simp [readPieces, textOf]
    · rw [readPieces_byte (fun _ => rfl) (fun _ r hr => by simp at hr)]
      simp [readPieces, textOf, Piece.text]
    · simp at hlen
  · obtain rfl | ⟨front, c, rfl⟩ := value.eq_nil_or_concat'
    · simp at hlen
    · have hbt : Between map front [c] [] [] := by
        refine ⟨by simp [ReadsAs, readPieces, textOf], ?_, by simp, by simp⟩
        rintro ⟨pre, post, hpre, hps⟩
        rcases pre with _ | ⟨b, pre⟩ <;> simp_all
      have hvl : front ++ [c] = front ++ ([c] ++ []) := by simp
      have hlp := expandLoop_eq hvl (by simp) hbt
      simpa using hlp

end

end Cruller.Dotenv
