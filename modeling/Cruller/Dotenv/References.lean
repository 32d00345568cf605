import Cruller.Dotenv.ExpandValue

/-!
# The references of a value

A reference is `$NAME`, `${NAME}` or `${NAME:-default}`, with a name that is not empty, and its
default may have references in it; `\$` is a dollar, and everything else stands for itself
(`pieces`). `expandValue` keeps to this for every map just when the value is `Clean`: what opens a
reference is one without references in its default, and nothing behind it looks like a part of it.
-/

namespace Cruller.Dotenv

open List Option

/-- A default up to the brace that closes it, and what is behind the brace. -/
def closing : ℕ → List UInt8 → Option (List UInt8 × List UInt8)
  | _, [] => none
  | depth, [c] => if c = closeBrace ∧ depth = 0 then some ([], []) else none
  | depth, c :: b :: rest =>
    if c = backslash ∧ b = dollar then
      (closing depth rest).map fun r => (c :: b :: r.1, r.2)
    else if c = dollar ∧ b = openBrace then
      (closing (depth + 1) rest).map fun r => (c :: b :: r.1, r.2)
    else if c = closeBrace then
      match depth with
      | 0 => some ([], b :: rest)
      | depth + 1 => (closing depth (b :: rest)).map fun r => (c :: r.1, r.2)
    else (closing depth (b :: rest)).map fun r => (c :: r.1, r.2)

/-- A reference that has a name. -/
structure Named where
  name : List UInt8
  default : List UInt8
  after : List UInt8

/-- The reference behind a dollar. -/
def named (rest : List UInt8) : Option Named :=
  let name := (unbraced rest).takeWhile isName
  let tail := (unbraced rest).dropWhile isName
  if name = [] then none
  else if rest.head? = some openBrace then
    if tail.head? = some closeBrace then some ⟨name, [], tail.tail⟩
    else if defaultMark.isPrefixOf tail then
      (closing 0 (tail.drop 2)).map fun r => ⟨name, r.1, r.2⟩
    else none
  else some ⟨name, [], tail⟩

lemma closing_eq {depth : ℕ} {l : List UInt8} {r : List UInt8 × List UInt8}
    (h : closing depth l = some r) : l = r.1 ++ closeBrace :: r.2 := by
  fun_induction closing depth l generalizing r with
  | case1 => simp at h
  | case2 depth c hc => obtain rfl := some.inj h; simp [hc.1]
  | case3 depth c hc => simp at h
  | case4 depth c b rest hc ih =>
    obtain ⟨r', hr', rfl⟩ := map_eq_some_iff.1 h
    simp [ih hr']
  | case5 depth c b rest hc hb ih =>
    obtain ⟨r', hr', rfl⟩ := map_eq_some_iff.1 h
    simp [ih hr']
  | case6 =>
    obtain rfl := some.inj h
    rfl
  | case7 _ _ _ _ _ ih =>
    obtain ⟨r', hr', rfl⟩ := map_eq_some_iff.1 h
    simp [ih hr']
  | case8 _ _ _ _ _ _ _ ih =>
    obtain ⟨r', hr', rfl⟩ := map_eq_some_iff.1 h
    simp [ih hr']

lemma closing_plain (a : List UInt8) : ∀ d : List UInt8,
    (∀ c ∈ d, c ≠ dollar ∧ c ≠ backslash ∧ c ≠ closeBrace) →
    closing 0 (d ++ closeBrace :: a) = some (d, a)
  | [], _ => by
    rcases a with _ | ⟨b, a⟩
    · simp [closing]
    · have hb : closeBrace ≠ backslash := by decide
      have hd : closeBrace ≠ dollar := by decide
      simp [closing, hb, hd]
  | c :: d, h => by
    obtain ⟨hdl, hbc, hbr⟩ := h c mem_cons_self
    have ih := closing_plain a d fun b hb => h b (mem_cons_of_mem c hb)
    obtain ⟨b, rest, hrs⟩ := exists_cons_of_ne_nil
      (show d ++ closeBrace :: a ≠ [] by simp)
    rw [hrs] at ih
    rw [cons_append, hrs]
    simp [closing, hdl, hbc, hbr, ih]

variable {rest n : List UInt8} {ps : List Piece} {r : Named}

/-- The name and its default come first and end in no backslash; the rest is what is left. -/
lemma named_own (h : named rest = some r) :
    ∃ own, rest = own ++ r.after ∧ own ≠ [] ∧ own.getLast? ≠ some backslash ∧
      r.default.length ≤ rest.length := by
  obtain ⟨o, ho, -, hob⟩ := exists_unbraced rest
  have hnm := (unbraced rest).takeWhile_append_dropWhile (p := isName)
  have hnb := takeWhile_isName_no_mark (.inr rfl) (unbraced rest)
  have hls : ∀ l : List UInt8, backslash ∉ l → l.getLast? ≠ some backslash :=
    fun l hl h => hl (mem_of_getLast? h)
  unfold named at h
  dsimp only at h
  split_ifs at h with hnil hop hcl hmr
  · obtain rfl := some.inj h
    obtain ⟨t, ht⟩ := head?_eq_some_iff.1 hcl
    refine ⟨o ++ (unbraced rest).takeWhile isName ++ [closeBrace], ?_, by simp, ?_, by simp⟩
    · conv_lhs => rw [ho, ← hnm]
      simp [ht]
    · rw [getLast?_append]
      simp
      decide
  · obtain ⟨r', hr', rfl⟩ := map_eq_some_iff.1 h
    have htl := closing_eq hr'
    obtain ⟨t, ht⟩ := isPrefixOf_iff_prefix.1 hmr
    rw [← ht, show (defaultMark ++ t).drop 2 = t from rfl] at htl
    have heq : rest = o ++ (unbraced rest).takeWhile isName ++ defaultMark ++ r'.1 ++ [closeBrace]
        ++ r'.2 := by
      conv_lhs => rw [ho, ← hnm, ← ht, htl]
      simp
    refine ⟨_, heq, by simp, ?_, ?_⟩
    · rw [getLast?_append]
      simp
      decide
    · conv_rhs => rw [heq]
      simp
      omega
  · obtain rfl := some.inj h
    refine ⟨o ++ (unbraced rest).takeWhile isName, ?_, by simp [hnil], hls _ ?_, by simp⟩
    · conv_lhs => rw [ho, ← hnm]
      simp
    · simp [hob, hnb]

/-- The bytes and references of a value. -/
def pieces : List UInt8 → List Piece
  | [] => []
  | c :: rest =>
    if c = dollar then
      match _h : named rest with
      | some r => .ref r.name (pieces r.default) :: pieces r.after
      | none => .byte c :: pieces rest
    else if c = backslash ∧ rest.head? = some dollar then .byte dollar :: pieces rest.tail
    else .byte c :: pieces rest
termination_by s => s.length
decreasing_by
  · obtain ⟨-, -, -, -, hdefault⟩ := named_own _h
    simp only [List.length_cons]
    omega
  · obtain ⟨own, hown, -⟩ := named_own _h
    have hlen := congrArg List.length hown
    rw [List.length_append] at hlen
    simp only [List.length_cons]
    omega
  · exact Nat.lt_succ_self _
  · simp
  · exact Nat.lt_succ_self _

attribute [local grind] pieces

/-- The texts that `expandValue` expands as they say. -/
inductive Clean : List UInt8 → Prop
  | nil : Clean []
  | dollar : Clean [dollar]
  | byte {c : UInt8} {rest : List UInt8} (hdollar : c ≠ dollar)
      (hescape : ¬ (c = backslash ∧ rest.head? = some dollar)) (h : Clean rest) : Clean (c :: rest)
  | escape {rest : List UInt8} (hrest : rest ≠ []) (h : Clean rest) :
      Clean (backslash :: dollar :: rest)
  | name {n rest : List UInt8} (hne : n ≠ []) (hname : ∀ c ∈ n, isName c)
      (hend : ∀ c ∈ rest.head?, ¬ isName c) (hmark : ¬ defaultMark <+: rest)
      (hbrace : rest.head? ≠ some closeBrace) (h : Clean rest) :
      Clean (Dotenv.dollar :: n ++ rest)
  | braced {n rest : List UInt8} (hne : n ≠ []) (hname : ∀ c ∈ n, isName c) (h : Clean rest) :
      Clean (Dotenv.dollar :: openBrace :: n ++ closeBrace :: rest)
  | default {n d rest : List UInt8} (hne : n ≠ []) (hname : ∀ c ∈ n, isName c)
      (hd : ∀ c ∈ d, c ≠ Dotenv.dollar ∧ c ≠ backslash ∧ c ≠ closeBrace) (h : Clean rest) :
      Clean (Dotenv.dollar :: openBrace :: n ++ defaultMark ++ d ++ closeBrace :: rest)

lemma pieces_byte {c : UInt8} (hdl : c ≠ dollar)
    (hes : ¬ (c = backslash ∧ rest.head? = some dollar)) :
    pieces (c :: rest) = .byte c :: pieces rest := by
  rw [pieces, if_neg hdl, if_neg hes]

lemma pieces_escape (rest : List UInt8) :
    pieces (backslash :: dollar :: rest) = .byte dollar :: pieces rest := by
  rw [pieces, if_neg (by decide), if_pos ⟨rfl, rfl⟩]
  rfl

lemma pieces_named (h : named rest = some r) :
    pieces (dollar :: rest) = .ref r.name (pieces r.default) :: pieces r.after := by
  rw [pieces, if_pos rfl]
  split
  · rename_i r' hr'
    obtain rfl := some.inj (hr'.symm.trans h)
    rfl
  · rename_i hno
    simp [hno] at h

lemma pieces_lone (h : named rest = none) :
    pieces (dollar :: rest) = .byte dollar :: pieces rest := by
  rw [pieces, if_pos rfl]
  split
  · rename_i r hr
    simp [hr] at h
  · rfl

lemma pieces_plain : ∀ d : List UInt8, (∀ c ∈ d, c ≠ dollar ∧ c ≠ backslash ∧ c ≠ closeBrace) →
    pieces d = d.map .byte
  | [], _ => by simp [pieces]
  | c :: d, h => by
    obtain ⟨hdl, hbc, -⟩ := h c mem_cons_self
    rw [pieces_byte hdl (fun h => hbc h.1),
      pieces_plain d fun b hb => h b (mem_cons_of_mem c hb)]
    rfl

lemma takeWhile_stop {p : UInt8 → Bool} (hn : ∀ c ∈ n, p c)
    (hend : ∀ c ∈ rest.head?, ¬ p c) :
    (n ++ rest).takeWhile p = n ∧ (n ++ rest).dropWhile p = rest := by
  rw [takeWhile_append_of_pos hn, dropWhile_append_of_pos hn]
  rcases rest with _ | ⟨c, rest⟩
  · simp
  · have hc := hend c rfl
    simp [hc]

lemma unbraced_name (hne : n ≠ []) (hnm : ∀ c ∈ n, isName c)
    (rest : List UInt8) :
    unbraced (n ++ rest) = n ++ rest ∧ (n ++ rest).head? ≠ some openBrace := by
  obtain ⟨c, n, rfl⟩ := exists_cons_of_ne_nil hne
  have hc : c ≠ openBrace := by
    rintro rfl
    exact absurd (hnm _ mem_cons_self) (by decide)
  have hhd : (c :: n ++ rest).head? ≠ some openBrace := by simpa using hc
  exact ⟨if_neg hhd, hhd⟩

lemma readReference_name (hne : n ≠ []) (hnm : ∀ c ∈ n, isName c)
    (hend : ∀ c ∈ rest.head?, ¬ isName c) (hmr : ¬ defaultMark <+: rest) :
    readReference (n ++ rest) = ⟨n, [], rest⟩ ∧ named (n ++ rest) = some ⟨n, [], rest⟩ := by
  obtain ⟨hun, hhd⟩ := unbraced_name hne hnm rest
  obtain ⟨htk, hdr⟩ := takeWhile_stop hnm hend
  have hmr' : ¬ defaultMark.isPrefixOf rest = true := mt isPrefixOf_iff_prefix.1 hmr
  constructor
  · simp [readReference, hun, htk, hdr, hmr']
  · simp only [named, hun, htk, hdr, hne, hhd, if_false]

lemma isName_closeBrace_head (rest : List UInt8) :
    ∀ c ∈ (closeBrace :: rest).head?, ¬ isName c := by
  simp only [head?_cons, mem_some_iff, forall_eq']
  decide

lemma readReference_braced (hne : n ≠ []) (hnm : ∀ c ∈ n, isName c)
    (rest : List UInt8) :
    readReference (openBrace :: (n ++ closeBrace :: rest)) = ⟨n, [], closeBrace :: rest⟩ ∧
      named (openBrace :: (n ++ closeBrace :: rest)) = some ⟨n, [], rest⟩ := by
  have hun : unbraced (openBrace :: (n ++ closeBrace :: rest)) = n ++ closeBrace :: rest := rfl
  obtain ⟨htk, hdr⟩ := takeWhile_stop hnm (isName_closeBrace_head rest)
  have hmr : ¬ defaultMark.isPrefixOf (closeBrace :: rest) = true := by
    simp [defaultMark, closeBrace]
  constructor
  · simp [readReference, hun, htk, hdr, hmr]
  · simp [named, hun, htk, hdr, hne]

lemma readReference_default {d : List UInt8} (hne : n ≠ []) (hnm : ∀ c ∈ n, isName c)
    (hd : ∀ c ∈ d, c ≠ dollar ∧ c ≠ backslash ∧ c ≠ closeBrace) (rest : List UInt8) :
    readReference (openBrace :: (n ++ (defaultMark ++ (d ++ closeBrace :: rest))))
        = ⟨n, d, closeBrace :: rest⟩ ∧
      named (openBrace :: (n ++ (defaultMark ++ (d ++ closeBrace :: rest))))
        = some ⟨n, d, rest⟩ := by
  set tail := defaultMark ++ (d ++ closeBrace :: rest) with htl
  have hun : unbraced (openBrace :: (n ++ tail)) = n ++ tail := rfl
  have hst : ∀ c ∈ tail.head?, ¬ isName c := by
    simp only [htl, defaultMark, cons_append, head?_cons, mem_some_iff,
      forall_eq']
    decide
  obtain ⟨htk, hdr⟩ := takeWhile_stop hnm hst
  have hmr : defaultMark.isPrefixOf tail = true :=
    isPrefixOf_iff_prefix.2 (prefix_append ..)
  have hin : ∀ c ∈ d, inDefault c := by
    intro c hc
    obtain ⟨-, hbc, hbr⟩ := hd c hc
    simp [inDefault, hbc, hbr]
  have hds : ∀ c ∈ (closeBrace :: rest).head?, ¬ inDefault c := by simp [inDefault]
  obtain ⟨hdt, hdp⟩ := takeWhile_stop hin hds
  have hdr2 : tail.drop 2 = d ++ closeBrace :: rest := rfl
  constructor
  · simp only [readReference, hun, htk, hdr, hmr, if_true, hdr2, hdt, hdp]
  · have hcl : tail.head? ≠ some closeBrace := by
      simp only [htl, defaultMark, cons_append, head?_cons]
      decide
    simp [named, hun, htk, hdr, hne, hmr, hcl, hdr2, closing_plain rest d hd]

theorem readPieces_of_clean {value : List UInt8} (h : Clean value) :
    readPieces value = some (pieces value) := by
  induction h with
  | nil => simp [readPieces, pieces]
  | dollar =>
    rw [readPieces_byte (fun _ => rfl) (fun _ r hr => by simp at hr), pieces_lone (by rfl)]
    simp [readPieces, pieces]
  | byte hdl hes _ ih =>
    rw [readPieces_byte (fun h => absurd h hdl), ih, pieces_byte hdl hes]
    · rfl
    · rintro rfl r rfl
      exact absurd ⟨rfl, rfl⟩ hes
  | escape hrs _ ih => rw [readPieces_escape hrs, ih, pieces_escape]; rfl
  | @name n rest hne hnm hend hmr hbr _ ih =>
    obtain ⟨href, hnd⟩ := readReference_name hne hnm hend hmr
    rw [cons_append, readPieces_dollar (by simp [hne]), pieces_named hnd, href]
    simp [Reference.Broken, Reference.after, hbr, ih, pieces]
  | @braced n rest hne hnm _ ih =>
    obtain ⟨href, hnd⟩ := readReference_braced hne hnm rest
    simp only [cons_append]
    rw [readPieces_dollar (by simp), pieces_named hnd, href]
    simp [Reference.Broken, Reference.after, ih, pieces]
  | @default n d rest hne hnm hd _ ih =>
    obtain ⟨href, hnd⟩ := readReference_default hne hnm hd rest
    have hnot : dollar ∉ d := fun hmem => (hd _ hmem).1 rfl
    simp only [cons_append, append_assoc]
    rw [readPieces_dollar (by simp), pieces_named hnd, href, pieces_plain d hd]
    simp [Reference.Broken, Reference.after, ih, hnot]

/-- What is left of a piece when every variable is set to one and the same text. -/
def Piece.mark : Piece → Option UInt8
  | .byte b => some b
  | .ref _ _ => none

lemma textOf_all_set (b : UInt8) (ps : List Piece) :
    textOf (fun _ => some [b]) ps = (ps.map Piece.mark).map fun m => m.getD b := by
  induction ps with
  | nil => rfl
  | cons p ps ih => cases p <;> simp [textOf, Piece.text, Piece.mark, ih]

lemma marks_eq {qs : List Piece}
    (h : ∀ b, textOf (fun _ => some [b]) ps = textOf (fun _ => some [b]) qs) :
    ps.map Piece.mark = qs.map Piece.mark := by
  simp only [textOf_all_set] at h
  generalize ps.map Piece.mark = l at h
  generalize qs.map Piece.mark = m at h
  induction l generalizing m with
  | nil => simpa using h 0
  | cons x l ih =>
    rcases m with _ | ⟨y, m⟩
    · simpa using h 0
    · simp only [map_cons, List.cons.injEq] at h
      have hxy : x = y := by
        have h0 := (h 0).1
        have h1 := (h 1).1
        rcases x with _ | x <;> rcases y with _ | y
        · rfl
        · simpa using absurd (h0.trans h1.symm) (by decide)
        · simpa using absurd (h0.symm.trans h1) (by decide)
        · simpa using h0
      rw [hxy, ih m fun b => (h b).2]

/-- How many bytes stand before the first reference, but for backslashes. -/
def lead : List (Option UInt8) → ℕ
  | [] => 0
  | none :: _ => 0
  | some b :: l => (if b = backslash then 0 else 1) + lead l

/-- The dollars of a text that the loop takes for references. -/
def dollars : List UInt8 → ℕ
  | [] => 0
  | c :: rest =>
    if c = dollar then (if rest = [] then 0 else 1) + dollars rest
    else if c = backslash ∧ rest.head? = some dollar then dollars rest.tail
    else dollars rest
termination_by s => s.length
decreasing_by
  · exact Nat.lt_succ_self _
  · simp
  · exact Nat.lt_succ_self _

def leadBytes : List UInt8 → ℕ
  | [] => 0
  | c :: rest =>
    if c = dollar then if rest = [] then 1 else 0
    else if c = backslash ∧ rest.head? = some dollar then 1 + leadBytes rest.tail
    else (if c = backslash then 0 else 1) + leadBytes rest
termination_by s => s.length
decreasing_by
  · simp
  · exact Nat.lt_succ_self _

attribute [local grind] dollars leadBytes

/-- How many bytes are no backslash. -/
def weight (l : List UInt8) : ℕ := l.countP (· ≠ backslash)

lemma dollars_dollar (hrs : rest ≠ []) :
    dollars (dollar :: rest) = 1 + dollars rest ∧ leadBytes (dollar :: rest) = 0 := by
  rw [dollars, leadBytes]
  simp [hrs]

lemma dollars_escape (rest : List UInt8) :
    dollars (backslash :: dollar :: rest) = dollars rest ∧
      leadBytes (backslash :: dollar :: rest) = 1 + leadBytes rest := by
  have hne : backslash ≠ dollar := by decide
  rw [dollars, leadBytes]
  simp [hne]

lemma dollars_byte {c : UInt8} (hdl : c = dollar → rest = [])
    (hes : ¬ (c = backslash ∧ rest.head? = some dollar)) :
    dollars (c :: rest) = dollars rest ∧ leadBytes (c :: rest) = weight [c] + leadBytes rest := by
  rw [dollars, leadBytes]
  by_cases h : c = dollar
  · have hne : dollar ≠ backslash := by decide
    subst h
    simp [hdl rfl, dollars, leadBytes, weight, hne]
  · rw [if_neg h, if_neg h, if_neg hes, if_neg hes]
    by_cases hbc : c = backslash <;> simp [weight, hbc]

lemma weight_cons (c : UInt8) (l : List UInt8) : weight (c :: l) = weight [c] + weight l := by
  simp only [weight, countP_cons, countP_nil]
  omega

/-- What is behind the bytes `x` has no more references than all has, and where it has as many the
bytes stand before the first of them. -/
lemma dollars_append (a : List UInt8) : ∀ x : List UInt8,
    (a.head? = some dollar → x.getLast? ≠ some backslash) →
    dollars a ≤ dollars (x ++ a) ∧
      (dollars (x ++ a) ≤ dollars a → leadBytes (x ++ a) = weight x + leadBytes a)
  | [], _ => by simp [weight]
  | c :: x, hls => by
    have htl : ∀ y : List UInt8, y <:+ x →
        a.head? = some dollar → y.getLast? ≠ some backslash := by
      rintro y ⟨z, rfl⟩ hhd hy
      refine hls hhd ?_
      rw [← cons_append, getLast?_append, hy]
      rfl
    rw [cons_append]
    by_cases hdl : c = dollar ∧ x ++ a ≠ []
    · obtain ⟨rfl, hne⟩ := hdl
      obtain ⟨hle, -⟩ := dollars_append a x (htl x suffix_rfl)
      obtain ⟨hd, -⟩ := dollars_dollar hne
      exact ⟨by omega, fun h => by omega⟩
    · by_cases hes : c = backslash ∧ (x ++ a).head? = some dollar
      · obtain ⟨rfl, hhd⟩ := hes
        obtain ⟨x, rfl⟩ : ∃ x', x = dollar :: x' := by
          rcases x with _ | ⟨b, x⟩
          · exact absurd rfl (hls hhd)
          · exact ⟨x, by rw [some.inj hhd]⟩
        obtain ⟨hle, hld⟩ := dollars_append a x (htl x (suffix_cons ..))
        obtain ⟨hd, hl⟩ := dollars_escape (x ++ a)
        rw [cons_append, hd, hl]
        refine ⟨hle, fun h => ?_⟩
        rw [hld h, weight_cons, weight_cons dollar, show weight [backslash] = 0 by rfl,
          show weight [dollar] = 1 by rfl]
        omega
      · obtain ⟨hle, hld⟩ := dollars_append a x (htl x suffix_rfl)
        obtain ⟨hd, hl⟩ := dollars_byte (fun h => by_contra fun hne => hdl ⟨h, hne⟩) hes
        rw [hd, hl]
        refine ⟨hle, fun h => ?_⟩
        rw [hld h, weight_cons c x, Nat.add_assoc]
termination_by x => x.length

lemma lead_byte (c : UInt8) (l : List (Option UInt8)) :
    lead (some c :: l) = weight [c] + lead l := by
  by_cases hbc : c = backslash <;> simp [lead, weight, hbc]

lemma dollars_own {after : List UInt8} : ∀ own : List UInt8, backslash ∉ own → ¬ Inner own after →
    dollars (own ++ after) = dollars after
  | [], _, _ => rfl
  | c :: own, hbc, hin => by
    have hown : ¬ Inner own after := fun ⟨pre, post, hpre, hps⟩ =>
      hin ⟨c :: pre, post, by rw [hpre]; rfl, hps⟩
    have hdl : c = dollar → own ++ after = [] := by
      rintro rfl
      by_contra hne
      exact hin ⟨[], own, rfl, hne⟩
    have hne : c ≠ backslash := fun h => hbc (h ▸ mem_cons_self)
    rw [cons_append, (dollars_byte hdl (fun h => hne h.1)).1,
      dollars_own own (fun h => hbc (mem_cons_of_mem c h)) hown]

/-- The pieces say how many dollars the text has, and what leads it. -/
lemma marks_readPieces {v : List UInt8} (h : readPieces v = some ps) :
    (ps.map Piece.mark).count none = dollars v ∧ lead (ps.map Piece.mark) = leadBytes v := by
  fun_induction readPieces v generalizing ps with
  | case1 =>
    obtain rfl := some.inj h
    simp [dollars, leadBytes, lead]
  | case2 => simp at h
  | case3 c rest hcd r hbr =>
    rename_i ih
    obtain ⟨rfl, hrs⟩ := hcd
    obtain ⟨qs, hqs, rfl⟩ := map_eq_some_iff.1 h
    obtain ⟨hcn, -⟩ := ih hqs
    obtain ⟨hd, hl⟩ := dollars_dollar hrs
    obtain ⟨own, hown, hbc, hiff⟩ := exists_own rest
    have hsm : dollars rest = dollars (readReference rest).after := by
      conv_lhs => rw [hown]
      exact dollars_own own hbc (mt hiff.2 hbr)
    rw [hd, hl, hsm, ← hcn]
    simp [Piece.mark, lead, Nat.add_comm]
  | case4 c rest hcd hes ih =>
    obtain ⟨rfl, hhd, htl⟩ := hes
    obtain ⟨qs, hqs, rfl⟩ := map_eq_some_iff.1 h
    obtain ⟨hcn, hld⟩ := ih hqs
    obtain ⟨r, rfl⟩ := head?_eq_some_iff.1 hhd
    obtain ⟨hd, hl⟩ := dollars_escape r
    rw [hd, hl, map_cons, Piece.mark, lead_byte]
    simp only [tail_cons] at hcn hld
    exact ⟨by simpa using hcn, by rw [hld]; rfl⟩
  | case5 c rest hcd hes ih =>
    obtain ⟨qs, hqs, rfl⟩ := map_eq_some_iff.1 h
    obtain ⟨hcn, hld⟩ := ih hqs
    by_cases hls : c = backslash ∧ rest.head? = some dollar
    · -- A backslash and a dollar at the end.
      obtain ⟨rfl, hhd⟩ := hls
      obtain ⟨r, rfl⟩ := head?_eq_some_iff.1 hhd
      obtain rfl : r = [] := by simpa using hes
      obtain ⟨hd, hl⟩ := dollars_escape []
      rw [hd, hl, map_cons, Piece.mark, lead_byte, count_cons_of_ne (by simp), hcn,
        hld, (dollars_byte (fun _ => rfl) (by simp)).1, (dollars_byte (fun _ => rfl) (by simp)).2]
      exact ⟨rfl, by simp [weight, leadBytes]; decide⟩
    · have hdl : c = dollar → rest = [] := fun h => by_contra fun hne => hcd ⟨h, hne⟩
      obtain ⟨hd, hl⟩ := dollars_byte hdl hls
      rw [hd, hl, map_cons, Piece.mark, lead_byte, hld]
      exact ⟨by simpa using hcn, rfl⟩

/-- What the value says has no more references, and where it has as many the first of them is the
first of the loop's. -/
lemma marks_pieces (v : List UInt8) :
    ((pieces v).map Piece.mark).count none ≤ dollars v ∧
      leadBytes v ≤ lead ((pieces v).map Piece.mark) ∧
      (dollars v ≤ ((pieces v).map Piece.mark).count none →
        lead ((pieces v).map Piece.mark) = leadBytes v) := by
  fun_induction pieces v with
  | case1 => simp [dollars, leadBytes, lead]
  | case2 rest r h _ ih =>
    obtain ⟨own, hown, hne, hls, -⟩ := named_own h
    have hrs : rest ≠ [] := by simp [hown, hne]
    obtain ⟨hd, hl⟩ := dollars_dollar hrs
    obtain ⟨hmn, -⟩ := dollars_append r.after own fun _ => hls
    rw [← hown] at hmn
    obtain ⟨hcn, -⟩ := ih
    simp only [map_cons, Piece.mark, lead, count_cons_self, hd, hl]
    exact ⟨by omega, le_rfl, by simp⟩
  | case3 rest h ih =>
    obtain ⟨hcn, hld, heq⟩ := ih
    rw [map_cons, Piece.mark, lead_byte, count_cons_of_ne (by simp)]
    by_cases hrs : rest = []
    · subst hrs
      obtain ⟨hd, hl⟩ := dollars_byte (c := dollar) (fun _ => rfl) (by simp)
      rw [hd, hl]
      exact ⟨hcn, by omega, fun h => by rw [heq h]⟩
    · obtain ⟨hd, hl⟩ := dollars_dollar hrs
      rw [hd, hl]
      exact ⟨by omega, by omega, fun h => by omega⟩
  | case4 c rest hdl hes ih =>
    obtain ⟨rfl, hhd⟩ := hes
    obtain ⟨r, rfl⟩ := head?_eq_some_iff.1 hhd
    obtain ⟨hcn, hld, heq⟩ := ih
    obtain ⟨hd, hl⟩ := dollars_escape r
    rw [hd, hl, map_cons, Piece.mark, lead_byte, count_cons_of_ne (by simp),
      show weight [dollar] = 1 by rfl]
    exact ⟨hcn, Nat.add_le_add_left hld 1, fun h => congrArg (1 + ·) (heq h)⟩
  | case5 c rest hdl hes ih =>
    obtain ⟨hcn, hld, heq⟩ := ih
    obtain ⟨hd, hl⟩ := dollars_byte (fun h => absurd h hdl) hes
    rw [hd, hl, map_cons, Piece.mark, lead_byte, count_cons_of_ne (by simp)]
    exact ⟨hcn, Nat.add_le_add_left hld _, fun h => by rw [heq h]⟩

lemma weight_of_left {x a : List UInt8} (hls : x.getLast? ≠ some backslash)
    (hps : readPieces (x ++ a) = some ps) (hmr : ps.map Piece.mark = (pieces a).map Piece.mark) :
    weight x = 0 := by
  obtain ⟨hcn, hld⟩ := marks_readPieces hps
  obtain ⟨hle, -, heq⟩ := marks_pieces a
  obtain ⟨hmn, hall⟩ := dollars_append a x fun _ => hls
  rw [hmr] at hcn hld
  have h1 := heq (by omega)
  have h2 := hall (by omega)
  omega

lemma eq_nil_of_taken {y a : List UInt8} (hbc : backslash ∉ y)
    (hin : ¬ Inner y a) (hps : readPieces a = some ps)
    (hmr : ps.map Piece.mark = (pieces (y ++ a)).map Piece.mark) : y = [] := by
  obtain ⟨hcn, hld⟩ := marks_readPieces hps
  obtain ⟨hle, -, heq⟩ := marks_pieces (y ++ a)
  have hsm := dollars_own y hbc hin
  obtain ⟨-, hall⟩ := dollars_append a y fun _ h => hbc (mem_of_getLast? h)
  rw [hmr] at hcn hld
  have h1 := heq (by omega)
  have h2 := hall (by omega)
  have hwg : weight y = 0 := by omega
  rw [weight, countP_eq_zero] at hwg
  rcases y with _ | ⟨c, y⟩
  · rfl
  · obtain rfl : c = backslash := by simpa using hwg c mem_cons_self
    exact absurd mem_cons_self hbc

lemma after_of_name
    (hop : rest.head? ≠ some openBrace) (hbr : ¬ (readReference rest).Broken)
    (hps : readPieces (readReference rest).after = some ps)
    (hmr : ps.map Piece.mark = (pieces (rest.dropWhile isName)).map Piece.mark) :
    (readReference rest).after = rest.dropWhile isName := by
  have hun : unbraced rest = rest := if_neg hop
  obtain ⟨own, hown, hbc, hiff⟩ := exists_own rest
  have hle := (readReference rest).length_after_le.trans (length_tail_le rest)
  rw [hun] at hle
  have hsp := rest.takeWhile_append_dropWhile (p := isName)
  have hlen := congrArg List.length (hsp.trans hown)
  rw [length_append, length_append] at hlen
  obtain ⟨y, hy⟩ := prefix_of_prefix_length_le ⟨_, hsp⟩ ⟨_, hown.symm⟩
    (show (rest.takeWhile isName).length ≤ own.length by omega)
  have htl : rest.dropWhile isName = y ++ (readReference rest).after := by
    have h := hsp.trans hown
    rwa [← hy, append_assoc, append_cancel_left_eq] at h
  rw [htl] at hmr ⊢
  have hyb : backslash ∉ y := fun h => hbc (hy ▸ mem_append_right _ h)
  have hyn : ¬ Inner y (readReference rest).after := by
    rintro ⟨pre, post, hpre, hpt⟩
    exact mt hiff.2 hbr ⟨rest.takeWhile isName ++ pre, post, by rw [← hy, hpre]; simp, hpt⟩
  rw [eq_nil_of_taken hyb hyn hps hmr]
  rfl

/-- A default that the value closes has no backslash, or the loop leaves what is behind it. -/
lemma default_of_closed {x : List UInt8} {r : List UInt8 × List UInt8}
    (hnm : ∀ c ∈ n, isName c) (hr : closing 0 x = some r)
    (hbr : ¬ (readReference (openBrace :: (n ++ (defaultMark ++ x)))).Broken)
    (hps : readPieces (readReference (openBrace :: (n ++ (defaultMark ++ x)))).after = some ps)
    (hmr : ps.map Piece.mark = (pieces r.2).map Piece.mark) :
    ∀ c ∈ r.1, c ≠ dollar ∧ c ≠ backslash ∧ c ≠ closeBrace := by
  have hx := closing_eq hr
  have hun : unbraced (openBrace :: (n ++ (defaultMark ++ x))) = n ++ (defaultMark ++ x) := rfl
  have hst : ∀ c ∈ (defaultMark ++ x).head?, ¬ isName c := by
    simp only [defaultMark, cons_append, head?_cons, mem_some_iff, forall_eq']
    decide
  obtain ⟨htk, hdr⟩ := takeWhile_stop hnm hst
  have href : readReference (openBrace :: (n ++ (defaultMark ++ x)))
      = ⟨n, x.takeWhile inDefault, x.dropWhile inDefault⟩ := by
    have hpre : defaultMark.isPrefixOf (defaultMark ++ x) = true :=
      isPrefixOf_iff_prefix.2 (prefix_append ..)
    simp only [readReference, hun, htk, hdr, hpre, if_true]
    rfl
  rw [href] at hbr hps
  have hsp := x.takeWhile_append_dropWhile (p := inDefault)
  have hin : ∀ c ∈ x.takeWhile inDefault, inDefault c := fun c hc => mem_takeWhile_imp hc
  have hhd := head?_dropWhile_not inDefault x
  generalize x.takeWhile inDefault = d at *
  generalize x.dropWhile inDefault = tail at *
  rcases tail with _ | ⟨b, t⟩
  · rw [append_nil] at hsp
    have hmem : closeBrace ∈ d := by simp [hsp, hx]
    exact absurd (hin _ hmem) (by decide)
  · have hb : b = closeBrace ∨ b = backslash := by
      simpa [inDefault, or_iff_not_imp_left] using hhd
    rcases hb with rfl | rfl
    · have hpl : ∀ c ∈ d, c ≠ dollar ∧ c ≠ backslash ∧ c ≠ closeBrace := by
        intro c hc
        have hcin := hin c hc
        simp only [inDefault, Bool.and_eq_true, bne_iff_ne] at hcin
        refine ⟨?_, hcin.2, hcin.1⟩
        rintro rfl
        simp [Reference.Broken, hc] at hbr
      rw [← hsp, closing_plain t d hpl] at hr
      obtain rfl := some.inj hr
      exact hpl
    · -- The loop leaves what stands before the brace.
      exfalso
      rw [hx] at hsp
      have haf : (⟨n, d, backslash :: t⟩ : Reference).after = backslash :: t := by
        simp [Reference.after]
        decide
      rw [haf] at hps
      obtain ⟨m, -, hm⟩ | ⟨m, rfl, hm⟩ := append_eq_append_iff.1 hsp
      · rw [hm, show m ++ closeBrace :: r.2 = m ++ [closeBrace] ++ r.2 by simp] at hps
        have hwg := weight_of_left (by simp; decide) hps hmr
        simp only [weight, countP_eq_zero] at hwg
        exact absurd (hwg closeBrace (by simp)) (by decide)
      · rcases m with _ | ⟨c, m⟩
        · exact absurd (List.cons.inj hm).1 (by decide)
        · obtain rfl : closeBrace = c := (List.cons.inj hm).1
          exact absurd (hin closeBrace (by simp)) (by decide)

lemma not_mark_of_after (hop : rest.head? ≠ some openBrace)
    (haf : (readReference rest).after = rest.dropWhile isName) :
    ¬ defaultMark <+: rest.dropWhile isName ∧
      (rest.dropWhile isName).head? ≠ some closeBrace := by
  have hun : unbraced rest = rest := if_neg hop
  have hmr : ¬ defaultMark <+: rest.dropWhile isName := by
    intro hmr
    have hle := (readReference rest).length_after_le
    have hdf := (dropWhile_suffix (l := (rest.dropWhile isName).drop 2)
      inDefault).length_le
    have hpre := hmr.length_le
    simp only [defaultMark, length_cons, length_nil, length_drop] at hpre hdf
    rw [haf] at hle
    simp only [readReference, hun, isPrefixOf_iff_prefix.2 hmr, if_true] at hle
    omega
  refine ⟨hmr, fun hbr => ?_⟩
  have hfl : ¬ defaultMark.isPrefixOf (rest.dropWhile isName) = true :=
    mt isPrefixOf_iff_prefix.1 hmr
  simp only [readReference, hun, hfl, Bool.false_eq_true, if_false, Reference.after, hbr,
    if_true] at haf
  obtain ⟨t, ht⟩ := head?_eq_some_iff.1 hbr
  simp [ht] at haf

/-- A reference that both readings go on behind in the same way is a clean one. -/
lemma clean_reference
    (hnd : named rest = some r) (hbr : ¬ (readReference rest).Broken)
    (hps : readPieces (readReference rest).after = some ps)
    (hmr : ps.map Piece.mark = (pieces r.after).map Piece.mark)
    (ih : ps.map Piece.mark = (pieces (readReference rest).after).map Piece.mark →
      Clean (readReference rest).after) : Clean (dollar :: rest) := by
  have hnm : ∀ c ∈ (unbraced rest).takeWhile isName, isName c :=
    fun c hc => mem_takeWhile_imp hc
  have hsp := (unbraced rest).takeWhile_append_dropWhile (p := isName)
  by_cases hop : rest.head? = some openBrace
  · obtain ⟨inner, rfl⟩ := head?_eq_some_iff.1 hop
    have hun : unbraced (openBrace :: inner) = inner := rfl
    rw [hun] at hnm hsp
    simp only [named, hun, hop, if_true] at hnd
    generalize inner.takeWhile isName = n at *
    generalize inner.dropWhile isName = tail at *
    subst hsp
    split_ifs at hnd with hnil hcs hdf
    · obtain rfl := some.inj hnd
      obtain ⟨t, rfl⟩ := head?_eq_some_iff.1 hcs
      obtain ⟨href, -⟩ := readReference_braced hnil hnm t
      have haf : (readReference (openBrace :: (n ++ closeBrace :: t))).after = t := by
        rw [href]
        rfl
      rw [haf] at ih
      exact .braced hnil hnm (ih hmr)
    · obtain ⟨r', hr', rfl⟩ := map_eq_some_iff.1 hnd
      obtain ⟨x, rfl⟩ := isPrefixOf_iff_prefix.1 hdf
      have hd := default_of_closed hnm hr' hbr hps hmr
      have hx := closing_eq hr'
      rw [show (defaultMark ++ x).drop 2 = x from rfl] at hx
      subst hx
      obtain ⟨href, -⟩ := readReference_default hnil hnm hd r'.2
      rw [href, show (⟨n, r'.1, closeBrace :: r'.2⟩ : Reference).after = r'.2 from rfl] at ih
      have hcl := Clean.default hnil hnm hd (ih hmr)
      simpa using hcl
  · have hun : unbraced rest = rest := if_neg hop
    rw [hun] at hnm hsp
    simp only [named, hun, hop, if_false] at hnd
    split_ifs at hnd with hnil
    obtain rfl := some.inj hnd
    have haf := after_of_name hop hbr hps hmr
    obtain ⟨hnr, hnb⟩ := not_mark_of_after hop haf
    have hend : ∀ c ∈ (rest.dropWhile isName).head?, ¬ isName c := by
      intro c hc
      have hhd := head?_dropWhile_not isName rest
      rw [mem_def.1 hc] at hhd
      simpa using hhd
    rw [haf] at ih
    have hcl := Clean.name hnil hnm hend hnr hnb (ih hmr)
    rwa [cons_append, hsp] at hcl

/-- A text whose pieces are taken for what they are is clean. -/
theorem clean_of_marks {v : List UInt8} (h : readPieces v = some ps)
    (hmr : ps.map Piece.mark = (pieces v).map Piece.mark) : Clean v := by
  fun_induction readPieces v generalizing ps with
  | case1 => exact .nil
  | case2 => simp at h
  | case3 c rest hcn r hbr =>
    rename_i ih
    obtain ⟨rfl, hrs⟩ := hcn
    obtain ⟨qs, hqs, rfl⟩ := map_eq_some_iff.1 h
    cases hnm : named rest with
    | none =>
      rw [pieces_lone hnm] at hmr
      simp [Piece.mark] at hmr
    | some n =>
      rw [pieces_named hnm, map_cons, map_cons, Piece.mark, Piece.mark,
        List.cons.injEq] at hmr
      exact clean_reference hnm hbr hqs hmr.2 (ih hqs)
  | case4 c rest hcn hes ih =>
    obtain ⟨rfl, hhd, htl⟩ := hes
    obtain ⟨qs, hqs, rfl⟩ := map_eq_some_iff.1 h
    obtain ⟨r, rfl⟩ := head?_eq_some_iff.1 hhd
    rw [pieces_escape, map_cons, map_cons, List.cons.injEq] at hmr
    exact .escape htl (ih hqs hmr.2)
  | case5 c rest hcn hes ih =>
    obtain ⟨qs, hqs, rfl⟩ := map_eq_some_iff.1 h
    by_cases hls : c = backslash ∧ rest.head? = some dollar
    · obtain ⟨rfl, hhd⟩ := hls
      obtain ⟨r, rfl⟩ := head?_eq_some_iff.1 hhd
      obtain rfl : r = [] := by simpa using hes
      rw [readPieces_byte (fun _ => rfl) (by simp), readPieces] at hqs
      obtain rfl := some.inj hqs
      simp [pieces_escape, pieces, Piece.mark] at hmr
    · by_cases hdl : c = dollar
      · subst hdl
        obtain rfl : rest = [] := by simpa using hcn
        exact .dollar
      · rw [pieces_byte hdl hls, map_cons, map_cons, List.cons.injEq] at hmr
        exact .byte hdl hls (ih hqs hmr.2)

/-- The code expands the value as its pieces say. -/
def Expands (value : List UInt8) : Prop :=
  ∀ map, expanded map value = some (textOf map (pieces value))

/-- What `expandValue` makes of a value is right for every map just when the value is clean. -/
theorem expands_iff (value : List UInt8) : Expands value ↔ Clean value := by
  constructor
  · intro h
    have hread : ∃ ps, readPieces value = some ps := by
      have hnone := h fun _ => none
      rw [expanded_eq] at hnone
      obtain ⟨ps, hps, -⟩ := map_eq_some_iff.1 hnone
      exact ⟨ps, hps⟩
    obtain ⟨ps, hps⟩ := hread
    refine clean_of_marks hps (marks_eq fun b => ?_)
    have hb := h fun _ => some [b]
    rw [expanded_eq, hps] at hb
    exact some.inj hb
  · intro h map
    rw [expanded_eq, readPieces_of_clean h]
    rfl

/-- `"${A:-$B}"` -/
def nestedDefault : List UInt8 := [0x24, 0x7B, 0x41, 0x3A, 0x2D, 0x24, 0x42, 0x7D]

/-- A default with a reference in it ends the program, whatever the map. -/
theorem not_expands_nestedDefault :
    ¬ ∀ map value, expanded map value = some (textOf map (pieces value)) := by
  intro h
  have hnone : expanded (fun _ => none) nestedDefault = none := by decide
  rw [h] at hnone
  exact some_ne_none _ hnone

end Cruller.Dotenv
