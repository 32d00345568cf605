import Cruller.Text.Marks

/-!
# The byte order mark of a stream

A decoder that does not ignore the byte order mark removes it from the front of every call's bytes,
whatever it has decoded before. So the stream's own mark is kept where a cut goes through it, and a
mark further on is lost where a call's bytes begin with it. What is left is the text without the
stream's mark exactly when the calls' bytes begin with marks as `Placed` says.
-/

namespace Cruller.Text

open List Option Transducer

namespace EncodingLabel

variable {enc : EncodingLabel} {before : List UInt8} {cs : List (List UInt8)}

/-- `withoutBOM` of a decoder that does not ignore it. -/
def strip (enc : EncodingLabel) (bytes : List UInt8) : List UInt8 :=
  if enc.bom <+: bytes then bytes.drop enc.bom.length else bytes

/-- Behind `before`, no call's bytes begin with a mark, but with one that is lost anyway. -/
def Quiet (enc : EncodingLabel) : List UInt8 → List (List UInt8) → Prop
  | _, [] => True
  | before, c :: cs =>
    (enc.bom <+: c → enc.LostAt (enc.stateAfter before) (c.drop enc.bom.length ++ cs.flatten))
      ∧ Quiet enc (before ++ c) cs

/-- The first call's bytes that begin with a mark lie behind nothing but marks, and no later ones
do. -/
def TakesMark (enc : EncodingLabel) (cs : List (List UInt8)) : Prop :=
  ∃ pre c post n, cs = pre ++ (enc.bom ++ c) :: post ∧ (∀ d ∈ pre, ¬ enc.bom <+: d)
    ∧ pre.flatten = (List.replicate n enc.bom).flatten
    ∧ enc.Quiet (pre.flatten ++ (enc.bom ++ c)) post

def Placed (enc : EncodingLabel) (cs : List (List UInt8)) : Prop :=
  if enc.bom <+: cs.flatten then enc.TakesMark cs else enc.Quiet [] cs

theorem strip_bom (bytes : List UInt8) : enc.strip (enc.bom ++ bytes) = bytes := by
  simp [strip]

variable {bytes : List UInt8}

theorem strip_of_not (h : ¬ enc.bom <+: bytes) : enc.strip bytes = bytes :=
  if_neg h

theorem bom_ne_nil : enc.bom ≠ [] := by cases enc <;> simp [bom]

theorem not_bom_nil : ¬ enc.bom <+: [] := fun h => bom_ne_nil (prefix_nil.1 h)

theorem quiet_of_flatten (h : cs.flatten = []) : enc.Quiet before cs := by
  induction cs generalizing before with
  | nil => trivial
  | cons c cs ih =>
    rw [flatten_cons, append_eq_nil_iff] at h
    obtain ⟨rfl, hcs⟩ := h
    exact ⟨fun hbom => absurd hbom not_bom_nil, ih hcs⟩

theorem flatten_strip_of_flatten (h : cs.flatten = []) : (cs.map enc.strip).flatten = [] := by
  induction cs with
  | nil => rfl
  | cons c cs ih =>
    rw [flatten_cons, append_eq_nil_iff] at h
    obtain ⟨rfl, hcs⟩ := h
    rw [map_cons, flatten_cons, strip_of_not not_bom_nil, ih hcs]
    rfl

theorem stateAfter_append (c : List UInt8) :
    enc.stateAfter (before ++ c) = enc.decoder.after (enc.stateAfter before) c := after_append

theorem textAfter_append (c rest : List UInt8) : enc.textAfter before (c ++ rest) =
    enc.decoder.out (enc.stateAfter before) c ++ enc.textAfter (before ++ c) rest := by
  rw [textAfter, textAfter, text_append, stateAfter_append]

theorem textAfter_strip (h : enc.Quiet before cs) :
    enc.textAfter before (cs.map enc.strip).flatten = enc.textAfter before cs.flatten := by
  induction cs generalizing before with
  | nil => rfl
  | cons c cs ih =>
    rw [map_cons, flatten_cons, flatten_cons]
    by_cases hc : enc.bom <+: c
    · obtain ⟨d, rfl⟩ := hc
      have hls := h.1 (prefix_append ..)
      rw [drop_left] at hls
      obtain ⟨hnil, htx⟩ := text_lost hls
      obtain ⟨rfl, hcs⟩ := append_eq_nil_iff.1 hnil
      rw [strip_bom, flatten_strip_of_flatten hcs]
      rw [hcs] at htx ⊢
      simp only [append_nil] at htx ⊢
      exact htx.symm
    · rw [strip_of_not hc, textAfter_append, textAfter_append, ih h.2]

/-- Stripping the pieces of marks loses a unit, unless they are quiet. -/
theorem length_textAfter_strip (h : ¬ enc.Quiet before cs) :
    (Utf16.units (enc.textAfter before (cs.map enc.strip).flatten)).length + 1 ≤
      (Utf16.units (enc.textAfter before cs.flatten)).length := by
  induction cs generalizing before with
  | nil => exact absurd trivial h
  | cons c cs ih =>
    rw [map_cons, flatten_cons, flatten_cons]
    by_cases hc : enc.bom <+: c
    · obtain ⟨d, rfl⟩ := hc
      have hle : ∀ before, (Utf16.units (enc.textAfter before (cs.map enc.strip).flatten)).length ≤
          (Utf16.units (enc.textAfter before cs.flatten)).length := by
        intro before
        by_cases hq : enc.Quiet before cs
        · rw [textAfter_strip hq]
        · exact Nat.le_of_succ_le (ih hq)
      have hld : ¬ enc.LostAt (enc.stateAfter before) (d ++ cs.flatten) := by
        intro hls
        obtain ⟨-, hcs⟩ := append_eq_nil_iff.1 (text_lost hls).1
        refine h ⟨fun _ => ?_, quiet_of_flatten hcs⟩
        rwa [drop_left]
      have hmr := length_textAfter_bom hld
      have hrs := hle (before ++ d)
      rw [strip_bom, append_assoc]
      refine le_trans ?_ hmr
      rw [textAfter_append d, textAfter_append d, Utf16.units_append, Utf16.units_append,
        length_append, length_append]
      omega
    · have hq : ¬ enc.Quiet (before ++ c) cs := fun hq => h ⟨fun hbom => absurd hbom hc, hq⟩
      have := ih hq
      rw [strip_of_not hc, textAfter_append, textAfter_append, Utf16.units_append,
        Utf16.units_append, length_append, length_append]
      omega

theorem replicate_of_cons_eq {α : Type*} {x y : α} {xs : List α} (h : x :: xs = xs ++ [y]) :
    y = x ∧ xs = List.replicate xs.length x := by
  induction xs with
  | nil =>
    simp only [nil_append, List.cons.injEq, and_true] at h
    exact ⟨h.symm, rfl⟩
  | cons z xs ih =>
    simp only [cons_append, List.cons.injEq] at h
    obtain ⟨rfl, h⟩ := h
    obtain ⟨hy, hxs⟩ := ih h
    refine ⟨hy, ?_⟩
    rw [length_cons, replicate_succ, ← hxs]

theorem encode_ne_nil (c : ℕ) : Utf16.encode c ≠ [] := by
  rw [Utf16.encode]
  split_ifs <;> simp

theorem units_ne_nil {items : List (Option ℕ)} (h : items ≠ []) : Utf16.units items ≠ [] := by
  rcases items with _ | ⟨item, items⟩
  · exact absurd rfl h
  · rw [Utf16.units_cons]
    exact append_ne_nil_of_left_ne_nil (encode_ne_nil _) _

theorem decoder_text_ne_nil {s : enc.State}
    (h : s ≠ enc.decoder.init ∨ bytes ≠ []) : enc.decoder.text s bytes ≠ [] := by
  induction bytes generalizing s with
  | nil => exact finish_ne (h.resolve_right fun hne => hne rfl)
  | cons b bytes ih =>
    rw [text_cons]
    rcases step_ne s b with hout | hst
    · exact append_ne_nil_of_left_ne_nil hout _
    · exact append_ne_nil_of_right_ne_nil _ (ih (Or.inl hst))

theorem finish_init : enc.decoder.finish enc.decoder.init = [] := by cases enc <;> rfl

theorem decoded_bom (bytes : List UInt8) :
    enc.decoded (enc.bom ++ bytes) = some 0xFEFF :: enc.decoded bytes := by
  rw [decoded, text_append, out_bom.1, out_bom.2]
  rfl

theorem run_marks (n : ℕ) :
    enc.decoder.out enc.decoder.init (List.replicate n enc.bom).flatten =
        List.replicate n (some 0xFEFF)
      ∧ enc.stateAfter (List.replicate n enc.bom).flatten = enc.decoder.init := by
  induction n with
  | zero => exact ⟨rfl, rfl⟩
  | succ n ih =>
    rw [stateAfter] at ih ⊢
    rw [replicate_succ, flatten_cons, out_append, after_append, out_bom.1, out_bom.2,
      ih.1, ih.2]
    exact ⟨rfl, rfl⟩

theorem marks_of_units {n : ℕ}
    (hst : enc.stateAfter bytes = enc.decoder.init)
    (h : Utf16.units (enc.decoder.out enc.decoder.init bytes) = List.replicate n mark) :
    bytes = (List.replicate n enc.bom).flatten := by
  have htx : ∀ {bytes}, enc.stateAfter bytes = enc.decoder.init →
      enc.decoder.text enc.decoder.init bytes = enc.decoder.out enc.decoder.init bytes := by
    intro bytes hs
    rw [stateAfter] at hs
    rw [Transducer.text, hs, finish_init, append_nil]
  induction n generalizing bytes with
  | zero =>
    by_contra hne
    have him := decoder_text_ne_nil (s := enc.decoder.init) (Or.inr hne)
    rw [htx hst] at him
    exact units_ne_nil him h
  | succ n ih =>
    have hbom : enc.bom <+: bytes := by
      apply bom_of_head_text
      rw [EncodingLabel.text, decoded, htx hst, h, replicate_succ, head?_cons]
    obtain ⟨rest, rfl⟩ := hbom
    have hrs : enc.stateAfter rest = enc.decoder.init := by
      rw [stateAfter, after_append, out_bom.2] at hst
      exact hst
    rw [out_append, out_bom.1, out_bom.2, Utf16.units_append, Utf16.units_some, encode_mark,
      Utf16.units_nil, replicate_succ, singleton_append] at h
    rw [replicate_succ, flatten_cons, ← ih hrs (tail_eq_of_cons_eq h)]

theorem quiet_congr {before' : List UInt8} (h : enc.stateAfter before = enc.stateAfter before') :
    enc.Quiet before cs ↔ enc.Quiet before' cs := by
  induction cs generalizing before before' with
  | nil => rfl
  | cons c cs ih =>
    have hnx : enc.stateAfter (before ++ c) = enc.stateAfter (before' ++ c) := by
      rw [stateAfter_append, stateAfter_append, h]
    rw [Quiet, Quiet, h, ih hnx]

theorem exists_first (enc : EncodingLabel) (cs : List (List UInt8)) :
    (∀ d ∈ cs, ¬ enc.bom <+: d)
      ∨ ∃ pre c post, cs = pre ++ (enc.bom ++ c) :: post ∧ ∀ d ∈ pre, ¬ enc.bom <+: d := by
  induction cs with
  | nil => exact Or.inl (by simp)
  | cons d cs ih =>
    by_cases hd : enc.bom <+: d
    · obtain ⟨c, rfl⟩ := hd
      exact Or.inr ⟨[], c, cs, rfl, by simp⟩
    · rcases ih with hall | ⟨pre, c, post, rfl, hpre⟩
      · exact Or.inl (forall_mem_cons.2 ⟨hd, hall⟩)
      · exact Or.inr ⟨d :: pre, c, post, rfl, forall_mem_cons.2 ⟨hd, hpre⟩⟩

theorem map_strip_of_not {pre : List (List UInt8)} (h : ∀ d ∈ pre, ¬ enc.bom <+: d) :
    pre.map enc.strip = pre := by
  conv_rhs => rw [← List.map_id pre]
  exact map_congr_left fun d hd => strip_of_not (h d hd)

theorem decoded_marks {n : ℕ} (bytes : List UInt8) :
    enc.decoded ((List.replicate n enc.bom).flatten ++ bytes) =
      List.replicate n (some 0xFEFF) ++ enc.decoded bytes := by
  obtain ⟨hout, hst⟩ := @run_marks enc n
  rw [stateAfter] at hst
  rw [decoded, text_append, hout, hst]
  rfl

theorem decoded_of_takesMark (h : enc.TakesMark cs) :
    enc.decoded cs.flatten = some 0xFEFF :: enc.decoded (cs.map enc.strip).flatten := by
  obtain ⟨pre, c, post, n, rfl, hpre, hmr, hq⟩ := h
  have hst : enc.stateAfter (pre.flatten ++ (enc.bom ++ c)) = enc.stateAfter c := by
    rw [hmr, stateAfter_append, (@run_marks enc n).2, after_append, out_bom.2]
    rfl
  have hps : enc.decoded (c ++ (post.map enc.strip).flatten) =
      enc.decoded (c ++ post.flatten) := by
    rw [quiet_congr hst] at hq
    have htx := textAfter_strip hq
    change enc.textAfter [] _ = enc.textAfter [] _
    rw [textAfter_append, textAfter_append, nil_append, htx]
  have hwh : (pre ++ (enc.bom ++ c) :: post).flatten =
      (List.replicate n enc.bom).flatten ++ (enc.bom ++ (c ++ post.flatten)) := by
    rw [flatten_append, flatten_cons, hmr, append_assoc]
  have hrs : ((pre ++ (enc.bom ++ c) :: post).map enc.strip).flatten =
      (List.replicate n enc.bom).flatten ++ (c ++ (post.map enc.strip).flatten) := by
    rw [map_append, map_cons, flatten_append, flatten_cons,
      map_strip_of_not hpre, hmr, strip_bom]
  rw [hwh, hrs, decoded_marks, decoded_marks, decoded_bom, hps, ← cons_append,
    ← replicate_succ, replicate_succ', append_assoc]
  rfl

theorem decoded_of_quiet (h : enc.Quiet [] cs) :
    enc.decoded (cs.map enc.strip).flatten = enc.decoded cs.flatten := textAfter_strip h

theorem quiet_of_text (h : enc.text (cs.map enc.strip).flatten = enc.text cs.flatten) :
    enc.Quiet [] cs := by
  by_contra hq
  have hlen := length_textAfter_strip hq
  have heq := congrArg List.length h
  change (Utf16.units (enc.textAfter [] _)).length =
    (Utf16.units (enc.textAfter [] _)).length at heq
  omega

/-- Where the text without its mark is left, the marks lie as they should. -/
theorem takesMark_of_text
    (h : enc.text cs.flatten = mark :: enc.text (cs.map enc.strip).flatten) : enc.TakesMark cs := by
  have hlen : (enc.text cs.flatten).length = (enc.text (cs.map enc.strip).flatten).length + 1 := by
    rw [h, length_cons]
  rcases exists_first enc cs with hno | ⟨pre, c, post, rfl, hpre⟩
  · rw [map_strip_of_not hno] at hlen
    omega
  have hwh : enc.text (pre ++ (enc.bom ++ c) :: post).flatten =
      Utf16.units (enc.decoder.out enc.decoder.init pre.flatten)
        ++ Utf16.units (enc.textAfter pre.flatten (enc.bom ++ (c ++ post.flatten))) := by
    rw [flatten_append, flatten_cons, append_assoc]
    change Utf16.units (enc.textAfter [] _) = _
    rw [textAfter_append, Utf16.units_append]
    rfl
  have hrs : enc.text ((pre ++ (enc.bom ++ c) :: post).map enc.strip).flatten =
      Utf16.units (enc.decoder.out enc.decoder.init pre.flatten)
        ++ Utf16.units (enc.textAfter pre.flatten (c ++ (post.map enc.strip).flatten)) := by
    rw [map_append, map_cons, flatten_append, flatten_cons,
      map_strip_of_not hpre, strip_bom]
    change Utf16.units (enc.textAfter [] _) = _
    rw [textAfter_append, Utf16.units_append]
    rfl
  rw [hwh, hrs] at h hlen
  rw [length_append, length_append] at hlen
  have hsp : ∀ tail, Utf16.units (enc.textAfter pre.flatten (c ++ tail)) =
      Utf16.units (enc.decoder.out (enc.stateAfter pre.flatten) c)
        ++ Utf16.units (enc.textAfter (pre.flatten ++ c) tail) := by
    intro tail
    rw [textAfter_append, Utf16.units_append]
  have hld : ¬ enc.LostAt (enc.stateAfter pre.flatten) (c ++ post.flatten) := by
    intro hls
    obtain ⟨hnil, htx⟩ := text_lost hls
    obtain ⟨rfl, hps⟩ := append_eq_nil_iff.1 hnil
    rw [flatten_strip_of_flatten hps] at hlen
    rw [hps] at htx hlen
    change enc.textAfter _ _ = enc.textAfter _ _ at htx
    rw [htx] at hlen
    omega
  have hmr := length_textAfter_bom hld
  have hq : enc.Quiet (pre.flatten ++ c) post := by
    by_contra hq
    have hle := length_textAfter_strip hq
    rw [hsp, length_append] at hmr hlen
    omega
  have hqt := textAfter_strip hq
  have heq : Utf16.units (enc.textAfter pre.flatten (c ++ (post.map enc.strip).flatten)) =
      Utf16.units (enc.textAfter pre.flatten (c ++ post.flatten)) := by
    rw [hsp, hsp, hqt]
  rw [heq] at h
  -- the unit where the mark was is a mark, and so is every one before it
  rcases hun : Utf16.units (enc.textAfter pre.flatten (enc.bom ++ (c ++ post.flatten))) with
    _ | ⟨u, us⟩
  · exact absurd hun (units_ne_nil (decoder_text_ne_nil (Or.inr (by simp [bom_ne_nil]))))
  rw [hun] at h
  generalize hout : Utf16.units (enc.decoder.out enc.decoder.init pre.flatten) = out at h
  have hone : mark :: out = out ++ [u] := by
    have hsm : (out ++ [u]) ++ us =
        (mark :: out) ++ Utf16.units (enc.textAfter pre.flatten (c ++ post.flatten)) := by
      simpa using h
    exact (append_inj_left hsm (by simp)).symm
  obtain ⟨rfl, hall⟩ := replicate_of_cons_eq hone
  have hst : enc.stateAfter pre.flatten = enc.decoder.init := by
    by_contra hne
    exact head_textAfter_bom hne _ (by rw [hun]; rfl)
  have hmk := marks_of_units hst (hout.trans hall)
  refine ⟨pre, c, post, _, rfl, hpre, hmk, (quiet_congr ?_).1 hq⟩
  rw [stateAfter_append, stateAfter_append, hst, after_append, out_bom.2]

theorem text_of_bom (h : enc.bom <+: bytes) :
    enc.text bytes = mark :: (enc.text bytes).tail := by
  obtain ⟨rest, rfl⟩ := h
  rw [text, decoded_bom, Utf16.units_some, encode_mark]
  rfl

/-- Taking a mark off each call takes it off the text, just where it is placed well. -/
theorem text_strip_iff :
    enc.text (cs.map enc.strip).flatten =
        (if enc.bom <+: cs.flatten then (enc.text cs.flatten).tail else enc.text cs.flatten)
      ↔ enc.Placed cs := by
  rw [Placed]
  split_ifs with hbom
  · have htx := text_of_bom hbom
    constructor
    · intro h
      exact takesMark_of_text (by rw [h]; exact htx)
    · intro h
      have hd := decoded_of_takesMark h
      rw [text, text, hd, Utf16.units_some, encode_mark]
      rfl
  · exact ⟨quiet_of_text, fun h => by rw [text, text, decoded_of_quiet h]⟩

theorem valid_strip (h : enc.Placed cs) :
    enc.Valid (cs.map enc.strip).flatten ↔ enc.Valid cs.flatten := by
  rw [Placed] at h
  rw [Valid, Valid]
  split_ifs at h
  · rw [decoded_of_takesMark h]
    simp
  · rw [decoded_of_quiet h]

end EncodingLabel

open TextDecoder EncodingLabel

def callsOf (chunks : List ArrayBuffer) (last : Option ArrayBuffer) : List (List UInt8) :=
  chunks.map ArrayBuffer.slice ++ [(last.map ArrayBuffer.slice).getD []]

theorem bytesOf_eq (chunks : List ArrayBuffer) (last : Option ArrayBuffer) :
    bytesOf chunks last = (callsOf chunks last).flatten := by
  simp [bytesOf, callsOf, flatMap_def]

theorem takenOf_eq (enc : EncodingLabel) (fatal : Bool) (chunks : List ArrayBuffer)
    (last : Option ArrayBuffer) : (ofOptions enc fatal false).takenOf chunks last =
      ((callsOf chunks last).map enc.strip).flatten := by
  have hst : (ofOptions enc fatal false).withoutBOM = enc.strip := by
    funext bytes
    simp [withoutBOM, ofOptions, strip]
  rw [takenOf, hst]
  simp [callsOf, flatMap_def, Function.comp_def]

/-- A decoder that does not ignore the byte order mark gives the text of one that does, without the
mark that the stream begins with, exactly when the calls' bytes begin with marks as they should; or
both throw, since neither the bytes nor what is left of them are valid. -/
theorem decodeStream_bom {S : Simdutf} (hS : S.Lawful) (enc : EncodingLabel) (fatal : Bool)
    (streams : List (List ArrayBuffer × Option ArrayBuffer)) (chunks : List ArrayBuffer)
    (last : Option ArrayBuffer) :
    let result (ignore_bom : Bool) : Option (List UInt16) := joined
      (((ofOptions enc fatal ignore_bom).afterStreams S streams).decodeStream S chunks last).2
    let cs := callsOf chunks last
    result false =
        (result true).map (fun text => if enc.bom <+: cs.flatten then text.tail else text)
      ↔ enc.Placed cs
        ∨ (fatal = true ∧ ¬ enc.Valid cs.flatten ∧ ¬ enc.Valid (cs.map enc.strip).flatten) := by
  intro result cs
  have htrue : result true = if fatal ∧ ¬ enc.Valid cs.flatten then none
      else some (enc.text cs.flatten) := by
    rw [← bytesOf_eq]
    exact decodeStream_text hS enc fatal streams chunks last
  have hfalse : result false = if fatal ∧ ¬ enc.Valid (cs.map enc.strip).flatten then none
      else some (enc.text (cs.map enc.strip).flatten) := by
    rw [← takenOf_eq enc fatal]
    exact joined_decodeStream hS enc fatal false streams chunks last
  rw [htrue, hfalse]
  by_cases hwhole : fatal ∧ ¬ enc.Valid cs.flatten
  · rw [if_pos hwhole, map_none]
    obtain ⟨hfatal, hwhole⟩ := hwhole
    by_cases hrest : enc.Valid (cs.map enc.strip).flatten
    · rw [if_neg (by simp [hrest])]
      refine ⟨fun h => absurd h (by simp), ?_⟩
      rintro (hplaced | ⟨-, -, hnot⟩)
      · exact absurd ((valid_strip hplaced).1 hrest) hwhole
      · exact absurd hrest hnot
    · rw [if_pos ⟨hfatal, hrest⟩]
      exact ⟨fun _ => Or.inr ⟨hfatal, hwhole, hrest⟩, fun _ => rfl⟩
  · have hnot : ¬ (fatal = true ∧ ¬ enc.Valid cs.flatten
        ∧ ¬ enc.Valid (cs.map enc.strip).flatten) := fun h => hwhole ⟨h.1, h.2.1⟩
    rw [if_neg hwhole, map_some, or_iff_left hnot]
    by_cases hrest : fatal ∧ ¬ enc.Valid (cs.map enc.strip).flatten
    · rw [if_pos hrest]
      refine ⟨fun h => absurd h (by simp), fun hplaced => ?_⟩
      exact absurd ⟨hrest.1, fun h => hrest.2 ((valid_strip hplaced).2 h)⟩ hwhole
    · rw [if_neg hrest, some_inj, ← text_strip_iff]

/-- A mark at the beginning of the first chunk. -/
theorem decodeStream_bom_first :
    joined (((ofOptions .utf8 true false).afterStreams reference []).decodeStream reference
      [⟨[0xEF, 0xBB, 0xBF, 0x61], by decide⟩] none).2 = some [0x61] :=
  ((decodeStream_bom lawful_reference .utf8 true [] [⟨[0xEF, 0xBB, 0xBF, 0x61], by decide⟩]
    none).2 (Or.inl (by
      rw [Placed, if_pos (by decide)]
      refine ⟨[], [0x61], [[]], 0, rfl, by simp, rfl, ?_, trivial⟩
      exact fun h => absurd h not_bom_nil))).trans (by decide +kernel)

/-- A mark that is cut between two chunks stays in the text. -/
theorem decodeStream_bom_refuted :
    ¬ ∀ (S : Simdutf), S.Lawful → ∀ (enc : EncodingLabel) (fatal : Bool)
      (chunks : List ArrayBuffer) (last : Option ArrayBuffer),
      let result (ignore_bom : Bool) : Option (List UInt16) :=
        joined ((ofOptions enc fatal ignore_bom).decodeStream S chunks last).2
      let cs := callsOf chunks last
      result false =
        (result true).map fun text => if enc.bom <+: cs.flatten then text.tail else text := by
  intro h
  have := h reference lawful_reference .utf8 false
    [⟨[0xEF, 0xBB], by decide⟩] (some ⟨[0xBF, 0x61], by decide⟩)
  revert this
  decide +kernel

end Cruller.Text
