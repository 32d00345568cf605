import Cruller.Url.FormUrlencoded

/-!
# What query string maps yield

A map yields the parameters that are well formed, decoded, up to the first one without a name, where
the scanner ends. It yields what the reference does where no parameter that is well formed comes
behind that one or has a plus, and none comes behind a malformed one that leaves something over in
the buffer (`Plain`). What is left over shifts the bytes that are read for the parameters behind it;
they agree with the reference's by coincidence only (`mapsRightly_coincidence`).
-/

namespace Cruller.Url

open List

variable {hash : List UInt8 → ℕ} {query_string : List UInt8}

/-- What `init` gives; null has no entries. -/
def yielded (hash : List UInt8 → ℕ) (query_string : List UInt8) : Option (List Entry) :=
  (init hash query_string).bind fun
    | none => some []
    | some map => map.entries

def Entry.pair (e : Entry) : Pair := (e.name, e.value)

/-- The names and values are the reference's, each pointer is inside what it points into, and the
two paths agree. -/
structure MapsRightly (hash : List UInt8 → ℕ) (query_string : List UInt8) : Prop where
  answers : ∃ es, yielded hash query_string = some es ∧
    Answers (parameters query_string) (es.map Entry.pair)
  paths : nothingNeedsDecoding query_string = true →
    ∃ es, (initRaw hash query_string).bind QueryStringMap.entries = some es ∧
      (initDecoded hash query_string).bind QueryStringMap.entries = some es

/-- The parameters from the first one without a name on. -/
def unnamed (query_string : List UInt8) : List Pair :=
  (parameters query_string).dropWhile fun p => p.1 ≠ []

/-- A malformed escape comes first. -/
def beginsMalformed : List UInt8 → Bool
  | 0x25 :: a :: b :: _ => !(isASCIIHexDigit a && isASCIIHexDigit b)
  | c :: _ => c == 0x25
  | [] => false

/-- A malformed parameter leaves over what comes before the first malformed escape of its name, or
of its value where the name has none. -/
def Pair.leaves (p : Pair) : Bool :=
  !p.wellFormed && !beginsMalformed (if Url.wellFormed p.1 then p.2 else p.1)

/-- Nothing is read behind a parameter that leaves bytes in the buffer. -/
def NothingLeft (ps : List Pair) : Prop :=
  ps.Pairwise fun p q => p.leaves = true → q.wellFormed = false

/-- No parameter that is read has a plus. -/
def NoPlus (ps : List Pair) : Prop :=
  ∀ p ∈ ps, p.wellFormed = true → 0x2B ∉ p.1 ∧ 0x2B ∉ p.2

instance (ps : List Pair) : Decidable (NothingLeft ps) :=
  inferInstanceAs (Decidable (ps.Pairwise fun p q => p.leaves = true → q.wellFormed = false))

instance (ps : List Pair) : Decidable (NoPlus ps) :=
  inferInstanceAs (Decidable (∀ p ∈ ps, p.wellFormed = true → 0x2B ∉ p.1 ∧ 0x2B ∉ p.2))

/-- No parameter that is well formed has no name or comes behind one without, none has a plus, and
none comes behind one that leaves something over. -/
structure Plain (query_string : List UInt8) : Prop where
  named : ∀ p ∈ unnamed query_string, p.wellFormed = false
  noPlus : NoPlus (parameters query_string)
  nothingLeft : NothingLeft (parameters query_string)

/-- Behind what is left over, each parameter that is well formed is read as what it stands for; one
that is not adds what comes before its malformed escape to what is left over. -/
def ReadsRight : List UInt8 → List Pair → Prop
  | _, [] => True
  | left, p :: ps =>
    if wellFormed p.1 then
      if wellFormed p.2 then
        (shown left (decode p.1).1 = formDecode p.1 ∧
          shown (shift left (decode p.1).1) (decode p.2).1 = formDecode p.2) ∧
            ReadsRight (shift (shift left (decode p.1).1) (decode p.2).1) ps
      else ReadsRight (shift left (decode p.1).1 ++ (decode p.2).1) ps
    else ReadsRight (left ++ (decode p.1).1) ps

theorem shown_nil (bytes : List UInt8) : shown [] bytes = bytes := take_length

theorem shift_nil (bytes : List UInt8) : shift [] bytes = [] := drop_length

theorem wellFormed_eq_false {p : Pair} (h : ¬(wellFormed p.1 = true ∧ wellFormed p.2 = true)) :
    p.wellFormed = false := by
  rw [Pair.wellFormed, Bool.eq_false_iff, ne_eq, Bool.and_eq_true]
  exact h

/-- What is read is right where `ReadsRight` says so. -/
theorem yields_spec (hash : List UInt8 → ℕ) : ∀ (left : List UInt8) (ps : List Pair),
    (yields hash left ps).length = (ps.filter Pair.wellFormed).length ∧
      ((yields hash left ps).map Entry.pair = (ps.filter Pair.wellFormed).map Pair.decoded ↔
        ReadsRight left ps)
  | _, [] => ⟨rfl, iff_of_true rfl trivial⟩
  | left, p :: ps => by
    rw [yields, ReadsRight]
    by_cases hnm : wellFormed p.1 = true
    · by_cases hvl : wellFormed p.2 = true
      · have hwl : p.wellFormed = true := by rw [Pair.wellFormed, hnm, hvl]; rfl
        obtain ⟨hlength, hiff⟩ := yields_spec hash
          (shift (shift left (decode p.1).1) (decode p.2).1) ps
        rw [if_pos hnm, if_pos hvl, if_pos hnm, if_pos hvl,
          filter_cons_of_pos hwl, length_cons, length_cons, hlength,
          map_cons, map_cons, List.cons.injEq, hiff]
        exact ⟨rfl, and_congr_left fun _ => Prod.mk.injEq .. ▸ Iff.rfl⟩
      · have hmal := wellFormed_eq_false fun h => hvl h.2
        rw [if_pos hnm, if_neg hvl, if_pos hnm, if_neg hvl,
          filter_cons_of_neg (by rw [hmal]; exact Bool.false_ne_true)]
        exact yields_spec hash _ ps
    · have hmal := wellFormed_eq_false fun h => hnm h.1
      rw [if_neg hnm, if_neg hnm,
        filter_cons_of_neg (by rw [hmal]; exact Bool.false_ne_true)]
      exact yields_spec hash _ ps

theorem yields_raw (hash : List UInt8 → ℕ) : ∀ {ps : List Pair},
    (ps.all fun p => !(needsDecoding p.1 || needsDecoding p.2)) = true →
      yields hash [] ps = rawEntries hash ps
  | [], _ => rfl
  | p :: ps, h => by
    rw [all_cons, Bool.and_eq_true, Bool.not_eq_true', Bool.or_eq_false_iff] at h
    obtain ⟨⟨hnm, hvl⟩, hps⟩ := h
    obtain ⟨hwl, hdc, -⟩ := decode_raw hnm
    obtain ⟨hwl', hdc', -⟩ := decode_raw hvl
    have hen : shownEntry hash [] p = ⟨p.1, hash p.1, p.2⟩ := by
      rw [shownEntry, shift_nil, shown_nil, shown_nil, (decode_spec p.1).2.1 hwl, hdc,
        (decode_spec p.2).2.1 hwl', hdc', ite_self]
    rw [yields, if_pos hwl, if_pos hwl', hen, shift_nil, shift_nil, yields_raw hash hps]
    rfl

theorem yielded_eq (hash : List UInt8 → ℕ) (hlen : query_string.length < 2 ^ 32) :
    yielded hash query_string = some (yields hash [] (named query_string)) := by
  have hrs := results_spec hlen
  rw [yielded, init]
  split_ifs with hnil hraw
  · rw [hnil, forall₂_nil_left_iff] at hrs
    rw [hrs]
    rfl
  · have hall : ((named query_string).all fun p =>
        !(needsDecoding p.1 || needsDecoding p.2)) = true :=
      (nothingNeedsDecoding_iff hrs).symm.trans hraw
    rw [yields_raw hash hall, ← initRaw_eq hash hlen]
    cases initRaw hash query_string <;> rfl
  · rw [← initDecoded_eq hash hlen]
    cases initDecoded hash query_string <;> rfl

theorem paths_agree (hlen : query_string.length < 2 ^ 32)
    (hraw : nothingNeedsDecoding query_string = true) :
    ∃ es, (initRaw hash query_string).bind QueryStringMap.entries = some es ∧
      (initDecoded hash query_string).bind QueryStringMap.entries = some es := by
  have hall : ((named query_string).all fun p =>
      !(needsDecoding p.1 || needsDecoding p.2)) = true :=
    (nothingNeedsDecoding_iff (results_spec hlen)).symm.trans hraw
  refine ⟨_, initRaw_eq hash hlen, ?_⟩
  rw [initDecoded_eq hash hlen, yields_raw hash hall]

theorem named_append_unnamed (query_string : List UInt8) :
    parameters query_string = named query_string ++ unnamed query_string :=
  List.takeWhile_append_dropWhile.symm

/-- What a map yields is right exactly where no parameter that is well formed comes behind one
without a name, and each is read right. -/
theorem mapsRightly_iff (hlen : query_string.length < 2 ^ 32) :
    MapsRightly hash query_string ↔
      (∀ p ∈ unnamed query_string, p.wellFormed = false) ∧
        ReadsRight [] (named query_string) := by
  obtain ⟨hlength, hiff⟩ := yields_spec hash [] (named query_string)
  have hfilter : (parameters query_string).filter Pair.wellFormed =
      (named query_string).filter Pair.wellFormed ++
        (unnamed query_string).filter Pair.wellFormed := by
    rw [named_append_unnamed, filter_append]
  have hnone : (∀ p ∈ unnamed query_string, p.wellFormed = false) ↔
      (unnamed query_string).filter Pair.wellFormed = [] := by
    rw [filter_eq_nil_iff]
    exact forall₂_congr fun p _ => (Bool.not_eq_true _).symm ▸ Iff.rfl
  rw [hnone, ← hiff]
  constructor
  · rintro ⟨⟨es, hes, hanswers⟩, -⟩
    rw [yielded_eq hash hlen] at hes
    obtain rfl := Option.some.inj hes
    obtain ⟨hle, heq⟩ := hanswers.length_le
    rw [hfilter, length_append, length_map, hlength] at hle heq
    have hnil : (unnamed query_string).filter Pair.wellFormed = [] :=
      length_eq_zero_iff.1 (by omega)
    rw [hnil, length_nil, append_nil] at heq
    exact ⟨hnil, heq rfl⟩
  · rintro ⟨hnil, hright⟩
    refine ⟨⟨_, yielded_eq hash hlen, ?_⟩, paths_agree hlen⟩
    rw [hright, ← append_nil ((named query_string).filter Pair.wellFormed), ← hnil, ← hfilter]
    exact Answers.refl _

theorem decode_beginsMalformed {bytes : List UInt8} (h : beginsMalformed bytes = true) :
    (decode bytes).1 = [] := by
  fun_cases beginsMalformed bytes with
  | case1 a b rest =>
    rw [beginsMalformed, Bool.not_eq_true', ← Bool.not_eq_true, Bool.and_eq_true] at h
    rw [decode, if_neg h]
  | case2 c rest hne =>
    rw [beginsMalformed, beq_iff_eq] at h
    · subst h
      rw [decode, if_pos rfl]
      exact hne
    · exact hne
  | case3 => cases h

theorem formDecode_eq {bytes : List UInt8} (h : 0x2B ∉ bytes) :
    formDecode bytes = percentDecode bytes := by
  have hmap : bytes.map plusToSpace = bytes := by
    refine (map_congr_left fun c hc => ?_).trans (map_id bytes)
    exact if_neg fun heq : c = 0x2B => h (heq ▸ hc)
  rw [formDecode, hmap]

theorem plusToSpace_hex {c : UInt8} (h : isASCIIHexDigit c = true) :
    c ≠ 0x2B ∧ plusToSpace c = c := by
  have hne : c ≠ 0x2B := by
    rintro rfl
    exact absurd h (by decide)
  exact ⟨hne, if_neg hne⟩

/-- Text with a plus is not decoded as the reference does it. -/
theorem noPlus_of_formDecode : ∀ {bytes : List UInt8}, wellFormed bytes = true →
    formDecode bytes = percentDecode bytes → 0x2B ∉ bytes
  | [], _, _ => not_mem_nil
  | c :: input, hwl, h => by
    by_cases hc : c = 0x25
    · subst hc
      rcases input with _ | ⟨a, _ | ⟨b, input⟩⟩
      · cases hwl
      · cases hwl
      rw [wellFormed, if_pos rfl, Bool.and_eq_true, Bool.and_eq_true] at hwl
      obtain ⟨⟨ha, hb⟩, hwl⟩ := hwl
      obtain ⟨hap, hae⟩ := plusToSpace_hex ha
      obtain ⟨hbp, hbe⟩ := plusToSpace_hex hb
      have hesc : plusToSpace 0x25 = 0x25 := rfl
      rw [formDecode, map_cons, map_cons, map_cons, hesc, hae, hbe, percentDecode,
        percentDecode, if_pos ⟨rfl, ha, hb⟩, if_pos ⟨rfl, ha, hb⟩, List.cons.injEq] at h
      have ih := noPlus_of_formDecode hwl h.2
      simp [hap.symm, hbp.symm, ih]
    · rw [wellFormed_cons hc] at hwl
      have hsp : plusToSpace c ≠ 0x25 := by
        rw [plusToSpace]
        split_ifs
        · decide
        · exact hc
      rw [formDecode, map_cons, percentDecode_cons hsp, percentDecode_cons hc,
        List.cons.injEq] at h
      refine not_mem_cons_of_ne_of_not_mem ?_ (noPlus_of_formDecode hwl h.2)
      rintro rfl
      exact absurd h.1 (by decide)

theorem readsRight_malformed : ∀ {left : List UInt8} {ps : List Pair},
    (∀ p ∈ ps, p.wellFormed = false) → ReadsRight left ps
  | _, [], _ => trivial
  | left, p :: ps, h => by
    have hps : ∀ q ∈ ps, q.wellFormed = false := fun q hq => h q (mem_cons_of_mem p hq)
    have hp := h p mem_cons_self
    rw [Pair.wellFormed, Bool.and_eq_false_iff] at hp
    rw [ReadsRight]
    split_ifs with hnm hvl
    · rw [hnm, hvl] at hp
      simp at hp
    · exact readsRight_malformed hps
    · exact readsRight_malformed hps

/-- Behind a malformed parameter nothing is left over, or nothing well formed comes. -/
theorem readsRight_cons_malformed {p : Pair} {ps : List Pair} (hp : p.wellFormed = false)
    (hleft : NothingLeft (p :: ps)) :
    (ReadsRight [] (p :: ps) ↔ ReadsRight [] ps) ∨ ∀ q ∈ ps, q.wellFormed = false := by
  rcases hlv : p.leaves
  · refine Or.inl ?_
    rw [Pair.leaves, hp, Bool.not_false, Bool.true_and, Bool.not_eq_false'] at hlv
    rw [ReadsRight]
    split_ifs at hlv ⊢ with hnm hvl
    · rw [Pair.wellFormed, hnm, hvl] at hp
      simp at hp
    · rw [shift_nil, nil_append, decode_beginsMalformed hlv]
    · rw [nil_append, decode_beginsMalformed hlv]
  · exact Or.inr fun q hq => (pairwise_cons.1 hleft).1 q hq hlv

/-- Where nothing is left over, what is read is right exactly where no plus is in it. -/
theorem readsRight_iff_noPlus : ∀ {ps : List Pair}, NothingLeft ps →
    (ReadsRight [] ps ↔ NoPlus ps)
  | [], _ => iff_of_true trivial fun p hp => absurd hp not_mem_nil
  | p :: ps, hleft => by
    have ih : ReadsRight [] ps ↔ NoPlus ps := readsRight_iff_noPlus (pairwise_cons.1 hleft).2
    rcases hp : p.wellFormed
    · have hskip : NoPlus (p :: ps) ↔ NoPlus ps := by
        rw [NoPlus, forall_mem_cons, hp]
        simp [NoPlus]
      rcases readsRight_cons_malformed hp hleft with hiff | hall
      · rw [hiff, ih, hskip]
      · refine iff_of_true (readsRight_malformed ?_) (hskip.2 fun q hq hwl => ?_)
        · exact forall_mem_cons.2 ⟨hp, hall⟩
        · rw [hall q hq] at hwl
          cases hwl
    · rw [NoPlus, forall_mem_cons, ← NoPlus, ← ih]
      have hwl := hp
      rw [Pair.wellFormed, Bool.and_eq_true] at hwl
      have hone : ∀ {bytes : List UInt8}, wellFormed bytes = true →
          ((decode bytes).1 = formDecode bytes ↔ 0x2B ∉ bytes) := by
        intro bytes hby
        rw [(decode_spec bytes).2.1 hby]
        exact ⟨fun h => noPlus_of_formDecode hby h.symm, fun h => (formDecode_eq h).symm⟩
      rw [ReadsRight, if_pos hwl.1, if_pos hwl.2, shift_nil, shift_nil, shown_nil, shown_nil,
        hone hwl.1, hone hwl.2]
      exact and_congr_left fun _ => ⟨fun h _ => h, fun h => h hp⟩

/-- A query string is mapped right where it is plain. Where it is mapped right no parameter that is
well formed has no name or comes behind one without, and where moreover nothing is left over it is
plain. -/
theorem mapsRightly_plain (hlen : query_string.length < 2 ^ 32) :
    (Plain query_string → MapsRightly hash query_string) ∧
      (MapsRightly hash query_string →
        (∀ p ∈ unnamed query_string, p.wellFormed = false) ∧
          (NothingLeft (parameters query_string) → Plain query_string)) := by
  have hsub : (named query_string).Sublist (parameters query_string) :=
    ( takeWhile_prefix _).sublist
  rw [mapsRightly_iff hlen]
  refine ⟨fun h => ⟨h.named, ?_⟩, fun h => ⟨h.1, fun hleft => ⟨h.1, ?_, hleft⟩⟩⟩
  · rw [readsRight_iff_noPlus (h.nothingLeft.sublist hsub)]
    exact fun p hp => h.noPlus p (hsub.subset hp)
  · intro p hp hwl
    rw [named_append_unnamed, mem_append] at hp
    rcases hp with hp | hp
    · exact (readsRight_iff_noPlus (hleft.sublist hsub)).1 h.2 p hp hwl
    · rw [h.1 p hp] at hwl
      cases hwl

/-- Escapes, a malformed one that leaves nothing over, and at the end one that does. -/
theorem mapsRightly_escapes : MapsRightly (fun _ => 0)
    ("?a=%31&%ZZ=x&b&c=%C3%A4&d=y%4".toList.map Char.toUInt8) :=
  (mapsRightly_plain (by decide +kernel)).1
    ⟨by decide +kernel, by decide +kernel, by decide +kernel⟩

/-- `a=x%ZZ&x=x`: the `x` that is left over is read as the name, and the name as the value. -/
theorem mapsRightly_coincidence :
    MapsRightly (fun _ => 0) [0x61, 0x3D, 0x78, 0x25, 0x5A, 0x5A, 0x26, 0x78, 0x3D, 0x78] := by
  refine (mapsRightly_iff (by decide)).2 ⟨by decide, ?_⟩
  have hnamed : named [0x61, 0x3D, 0x78, 0x25, 0x5A, 0x5A, 0x26, 0x78, 0x3D, 0x78] =
      [([0x61], [0x78, 0x25, 0x5A, 0x5A]), ([0x78], [0x78])] := by decide
  rw [hnamed]
  exact ⟨⟨rfl, rfl⟩, trivial⟩

/-- `a=x%ZZ&b=1`: the name of the second parameter is read as the `x` of the first one. -/
theorem not_mapsRightly_malformed :
    ¬MapsRightly (fun _ => 0) [0x61, 0x3D, 0x78, 0x25, 0x5A, 0x5A, 0x26, 0x62, 0x3D, 0x31] := by
  rintro ⟨⟨es, hes, hanswers⟩, -⟩
  have hyielded : yielded (fun _ => 0)
      [0x61, 0x3D, 0x78, 0x25, 0x5A, 0x5A, 0x26, 0x62, 0x3D, 0x31] =
        some [⟨[0x78], 0, [0x62]⟩] := by decide
  rw [hyielded] at hes
  obtain rfl := Option.some.inj hes
  have hparameters : (parameters
      [0x61, 0x3D, 0x78, 0x25, 0x5A, 0x5A, 0x26, 0x62, 0x3D, 0x31]).filter Pair.wellFormed =
        [([0x62], [0x31])] := by decide
  obtain ⟨-, heq⟩ := hanswers.length_le
  rw [hparameters] at heq
  exact absurd (heq rfl) (by decide)

end Cruller.Url
