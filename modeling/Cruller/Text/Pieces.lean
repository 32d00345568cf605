import Cruller.Text.Unicode

/-!
# A piece of UTF-8 text

Read from between two characters, a piece gives the units of what the decoder emits over it, and
hands back the beginning of the character that it ends in (`toUTF16AllocMaybeBuffered_eq`). The
table and the bounds of `convertUTF8BytesIntoUTF16WithLength` are the decoder's, one following byte
at a time (`follow`).
-/

namespace Cruller.Text

open List Option Nat Utf8 Transducer

/-- The bytes that follow the first `k` of a character, as far as they do. -/
def follow (remaining_len : ℕ) : Partial → ℕ → List UInt8 → UTF16Replacement
  | _, k, [] => { len := k, fail := true, can_buffer := remaining_len < k + 1 }
  | p, k, b :: bs =>
    if p.Follows b then
      if (p.next b).left = 0 then { code_point := (p.next b).code_point, len := k + 1 }
      else follow remaining_len (p.next b) (k + 1) bs
    else { len := k, fail := true, can_buffer := remaining_len < k + 1 }

theorem nonASCIISequenceLength_eq (b : UInt8) :
    nonASCIISequenceLength b = ((lead b).map fun p => p.left + 1).getD 0 := by
  have := b.toNat_lt
  simp only [nonASCIISequenceLength, lead]
  split_ifs <;> first | rfl | omega

variable {b : UInt8} {p : Partial} {S : Simdutf}

theorem convertUTF8BytesIntoUTF16WithLength_eq {b1 b2 b3 : UInt8}
    (hp : lead b = some p) (n : ℕ) :
    convertUTF8BytesIntoUTF16WithLength ![b, b1, b2, b3] (p.left + 1) n =
      follow n p 1 [b1, b2, b3] := by
  simp only [lead] at hp
  split_ifs at hp <;> cases hp <;>
    simp [convertUTF8BytesIntoUTF16WithLength, follow, Partial.Follows, Partial.next,
      shiftLeft_eq] <;>
    grind

/-- The first `n` bytes, and zeros for those that are not there. -/
def padded : ℕ → List UInt8 → List UInt8
  | 0, _ => []
  | n + 1, bytes => bytes.headD 0 :: padded n bytes.tail

/-- What `r` says about a character that has begun, `k` bytes ago, when `rest` is what is left. -/
inductive Follows (p : Partial) (k : ℕ) (rest : List UInt8) (r : UTF16Replacement) : Prop
  | done (j : ℕ) : j ≤ rest.length → r.len = k + j → (r.fail → ¬ r.can_buffer) →
    decoder.out (some p) rest =
      (if r.fail then none else some r.code_point) :: decoder.out none (rest.drop j) →
    decoder.after (some p) rest = decoder.after none (rest.drop j) →
    (r.fail → r.code_point = unicode_replacement) → Follows p k rest r
  | cut (q : Partial) : r.fail → r.can_buffer → r.len = k + rest.length → rest.length < p.left →
    decoder.out (some p) rest = [] → decoder.after (some p) rest = some q →
    (∀ b ∈ rest, ¬ isASCII b) → r.code_point = unicode_replacement → Follows p k rest r

theorem step_some : decoder.step (some p) b =
    if p.Follows b then
      if (p.next b).left = 0 then (none, [some (p.next b).code_point]) else (some (p.next b), [])
    else ((decoder.step none b).1, none :: (decoder.step none b).2) := rfl

/-- What is read ahead of a character that has begun is what may follow it. -/
theorem follows_follow {n : ℕ} (k : ℕ) (rest : List UInt8) (hlf : 0 < p.left)
    (hn : p.left ≤ n) (hlw : 0x80 ≤ p.lower) :
    Follows p k rest (follow (k + rest.length) p k (padded n rest)) := by
  induction n generalizing p k rest with
  | zero => omega
  | succ n ih =>
    rcases rest with _ | ⟨b, rest⟩
    · have hzr : ¬ p.Follows 0 := fun h => by
        have := h.1
        simp at this
        omega
      rw [padded, headD_nil, follow, if_neg hzr]
      exact .cut p rfl (by simp) rfl hlf rfl rfl (by simp) rfl
    · rw [padded, headD_cons, follow, tail_cons]
      split_ifs with hb hls
      · refine .done 1 (by simp) rfl (by simp) ?_ ?_ (by simp)
        · rw [out_cons, step_some, if_pos hb, if_pos hls]
          simp
        · rw [after_cons, step_some, if_pos hb, if_pos hls]
          rfl
      · have hnx : (p.next b).left = p.left - 1 := rfl
        have hst : decoder.step (some p) b = (some (p.next b), []) := by
          rw [step_some, if_pos hb, if_neg hls]
        have hlen : k + (b :: rest).length = k + 1 + rest.length := by
          rw [length_cons]
          omega
        rw [hlen]
        have hrs : Follows (p.next b) (k + 1) rest
            (follow (k + 1 + rest.length) (p.next b) (k + 1) (padded n rest)) :=
          ih (k + 1) rest (by omega) (by omega) le_rfl
        cases hrs with
        | done j hj hk hfl hout haf hcp =>
          refine .done (j + 1) (by simpa using hj) (by omega) hfl ?_ ?_ hcp
          · rw [out_cons, hst, hout]
            rfl
          · rw [after_cons, hst, haf]
            rfl
        | cut q hfl hbuf hk hsh hout haf hac hcp =>
          refine .cut q hfl hbuf (by rw [hk, length_cons]; omega)
            (by rw [length_cons]; omega) ?_ ?_ ?_ hcp
          · rw [out_cons, hst, hout]
            rfl
          · rw [after_cons, hst, haf]
          · refine forall_mem_cons.2 ⟨?_, hac⟩
            have := hb.1
            simp [isASCII]
            omega
      · refine .done 0 (by simp) rfl ?_ ?_ ?_ (by simp)
        · simp
        · rw [out_cons, step_some, if_neg hb]
          rfl
        · rw [after_cons, step_some, if_neg hb]
          rfl

/-- Where a character begins that is not ASCII: it is complete or wrong, or the text ends in it. -/
theorem convert_char (rest : List UInt8) (hb : isASCII b = false) :
    let remaining := b :: rest
    let r := convertUTF8BytesIntoUTF16WithLength (fun k => remaining.getD k 0)
      (nonASCIISequenceLength b) remaining.length
    (∃ j, j ≤ rest.length ∧ max r.len 1 = j + 1
      ∧ ¬ (r.fail ∧ r.can_buffer ∧ nonASCIISequenceLength b > remaining.length)
      ∧ decoder.out none remaining =
        (if r.fail then none else some r.code_point) :: decoder.out none (rest.drop j)
      ∧ decoder.after none remaining = decoder.after none (rest.drop j)
      ∧ (r.fail → r.code_point = unicode_replacement))
    ∨ ∃ q, r.fail ∧ r.can_buffer ∧ nonASCIISequenceLength b > remaining.length
      ∧ max r.len 1 = remaining.length ∧ decoder.out none remaining = []
      ∧ decoder.after none remaining = some q ∧ (∀ c ∈ remaining, ¬ isASCII c)
      ∧ r.code_point = unicode_replacement := by
  intro remaining r
  have hfr : ¬ b.toNat < 0x80 := by simpa [isASCII] using hb
  have hL := nonASCIISequenceLength_eq b
  rcases hp : lead b with _ | p
  · have hst : decoder.step none b = (none, [none]) := by
      change first b = _
      rw [first, if_neg hfr, hp]
    have hr : r = { len := 1, fail := true } := by
      simp only [r, hL, hp]
      rfl
    refine Or.inl ⟨0, Nat.zero_le _, by rw [hr]; rfl, ?_, ?_, ?_, fun _ => by rw [hr]⟩
    · rw [hL, hp]
      simp
    · rw [hr, out_cons, hst]
      rfl
    · rw [after_cons, hst]
      rfl
  · have hst : decoder.step none b = (some p, []) := by
      change first b = _
      rw [first, if_neg hfr, hp]
    have hpr : 0 < p.left ∧ p.left ≤ 3 ∧ 0x80 ≤ p.lower := by
      simp only [lead] at hp
      split_ifs at hp <;> cases hp <;> simp
    have hr : r = follow (1 + rest.length) p 1 (padded 3 rest) := by
      have hseq : (fun k : Fin 4 => remaining.getD k 0) =
          ![b, rest.headD 0, rest.tail.headD 0, rest.tail.tail.headD 0] := by
        funext k
        fin_cases k <;> rcases rest with _ | ⟨x, _ | ⟨y, _ | ⟨z, rest⟩⟩⟩ <;> rfl
      have hlen : remaining.length = 1 + rest.length := by
        simp only [remaining, length_cons]
        omega
      simp only [r, hseq, hL, hp, map_some, getD_some]
      rw [convertUTF8BytesIntoUTF16WithLength_eq hp, hlen]
      rfl
    have hln : nonASCIISequenceLength b = p.left + 1 := by simp [hL, hp]
    obtain ⟨hpos, hth, hlow⟩ := hpr
    rcases follows_follow 1 rest hpos hth hlow with
      ⟨j, hj, hk, hfl, hout, haf, hcp⟩ | ⟨q, hfl, hbuf, hk, hsh, hout, haf, hall, hcp⟩
    · rw [← hr] at hk hfl hout hcp
      refine Or.inl ⟨j, hj, by omega, fun h => hfl h.1 h.2.1, ?_, ?_, hcp⟩
      · rw [out_cons, hst, hout]
        rfl
      · rw [after_cons, hst, haf]
    · rw [← hr] at hfl hbuf hk hcp
      refine Or.inr ⟨q, hfl, hbuf, ?_, ?_, ?_, ?_, ?_, hcp⟩
      · simp [hln, remaining]
        omega
      · simp only [remaining, length_cons]
        omega
      · rw [out_cons, hst, hout]
        rfl
      · rw [after_cons, hst, haf]
      · exact forall_mem_cons.2 ⟨by simp [hb], hall⟩

theorem out_ascii {front : List UInt8} (h : front.all isASCII) :
    decoder.out none front = front.map (fun b => some b.toNat)
      ∧ decoder.after none front = none := by
  induction front with
  | nil => exact ⟨rfl, rfl⟩
  | cons b front ih =>
    simp only [all_cons, Bool.and_eq_true] at h
    have hst : decoder.step none b = (none, [some b.toNat]) := by
      change first b = _
      rw [first, if_pos (by simpa [isASCII] using h.1)]
    rw [out_cons, after_cons, hst, (ih h.2).1, (ih h.2).2]
    exact ⟨rfl, rfl⟩

theorem units_ascii (front : List UInt8) :
    Utf16.units (front.map fun b => some b.toNat) = copyU8IntoU16 front := by
  induction front with
  | nil => rfl
  | cons b front ih =>
    have hb : (UInt16.ofNat b.toNat) = b.toUInt16 := by simp
    have hlt := b.toNat_lt
    rw [map_cons, Utf16.units_cons, ih, getD_some, Utf16.encode,
      if_pos (by omega), hb]
    rfl

theorem firstNonASCII_cases (hS : S.Lawful) {bytes : List UInt8}
    (hcn : bytes.countP isASCII < 2 ^ 32) :
    (firstNonASCII S bytes = none ∧ bytes.all isASCII)
      ∨ ∃ front b rest, bytes = front ++ b :: rest ∧ front.all isASCII ∧ isASCII b = false
        ∧ firstNonASCII S bytes = some front.length := by
  have hfn : ∀ bytes : List UInt8,
      ((bytes.findIdx? fun byte => !isASCII byte) = none ∧ bytes.all isASCII)
        ∨ ∃ front b rest, bytes = front ++ b :: rest ∧ front.all isASCII ∧ isASCII b = false
          ∧ (bytes.findIdx? fun byte => !isASCII byte) = some front.length := by
    intro bytes
    induction bytes with
    | nil => exact Or.inl ⟨rfl, rfl⟩
    | cons c bytes ih =>
      rw [findIdx?_cons]
      rcases hc : isASCII c
      · exact Or.inr ⟨[], c, bytes, rfl, rfl, hc, rfl⟩
      · rcases ih with ⟨hno, hall⟩ | ⟨front, b, rest, rfl, hall, hb, hsm⟩
        · exact Or.inl ⟨by simp [hno], by simp [hc, hall]⟩
        · exact Or.inr ⟨c :: front, b, rest, rfl, by simp [hc, hall], hb, by simp [hsm]⟩
  rw [firstNonASCII, hS.ascii]
  rcases hfn bytes with ⟨hno, hall⟩ | ⟨front, b, rest, rfl, hall, hb, hsm⟩
  · exact Or.inl ⟨by rw [hno]; rfl, hall⟩
  · refine Or.inr ⟨front, b, rest, rfl, hall, hb, ?_⟩
    have hfr : front.countP isASCII = front.length :=
      countP_eq_length.2 fun c hc => List.all_eq_true.1 hall c hc
    rw [countP_append, hfr] at hcn
    rw [hsm, map_some, mod_eq_of_lt (by omega)]

structure Carries (s : Option Partial) (bytes : List UInt8) : Prop where
  out : decoder.out none bytes = []
  after : decoder.after none bytes = s
  nil : s = none → bytes = []
  ascii : ∀ b ∈ bytes, ¬ isASCII b

theorem carries_nil : Carries none [] := ⟨rfl, rfl, fun _ => rfl, by simp⟩

/-- A piece is decoded behind `output`, or refused for the error in it. -/
def Decoded (fail_if_invalid flush : Bool) (output : List UInt16) (bytes : List UInt8)
    (r : Except DecodeError (List UInt16 × List UInt8)) : Prop :=
  if fail_if_invalid ∧ none ∈ decoder.emitted flush none bytes then r = .error .InvalidByteSequence
  else ∃ leftover, r = .ok (output ++ Utf16.units (decoder.emitted flush none bytes), leftover)
    ∧ Carries (if flush then none else decoder.after none bytes) leftover

variable {fail_if_invalid flush : Bool} {output : List UInt16} {bytes rest : List UInt8}
  {item : Option ℕ} {r : Except DecodeError (List UInt16 × List UInt8)}

theorem emitted_of_out {s : Option Partial} {items : List (Option ℕ)}
    (hout : decoder.out s bytes = items ++ decoder.out none rest)
    (haf : decoder.after s bytes = decoder.after none rest) :
    decoder.emitted flush s bytes = items ++ decoder.emitted flush none rest := by
  rcases flush
  · exact hout
  · simp [emitted, text, hout, haf]

theorem Decoded.cons (hout : decoder.out none bytes = item :: decoder.out none rest)
    (haf : decoder.after none bytes = decoder.after none rest)
    (him : fail_if_invalid → item ≠ none)
    (h : Decoded fail_if_invalid flush (output ++ Utf16.encode (item.getD Utf16.replacement)) rest
      r) : Decoded fail_if_invalid flush output bytes r := by
  have hem : decoder.emitted flush none bytes = [item] ++ decoder.emitted flush none rest :=
    emitted_of_out hout haf
  simp only [Decoded, hem, haf, singleton_append, Utf16.units_cons] at h ⊢
  rw [append_assoc] at h
  by_cases hbad : fail_if_invalid ∧ none ∈ decoder.emitted flush none rest
  · rw [if_pos hbad] at h
    rwa [if_pos ⟨hbad.1, mem_cons_of_mem _ hbad.2⟩]
  · rw [if_neg hbad] at h
    rwa [if_neg]
    rintro ⟨hfl, hmem⟩
    rcases mem_cons.1 hmem with heq | hmem
    · exact him hfl heq.symm
    · exact hbad ⟨hfl, hmem⟩

theorem Decoded.ascii {front : List UInt8} (hfr : front.all isASCII)
    (h : Decoded fail_if_invalid flush (output ++ copyU8IntoU16 front) rest r) :
    Decoded fail_if_invalid flush output (front ++ rest) r := by
  induction front generalizing output with
  | nil => simpa [copyU8IntoU16] using h
  | cons b front ih =>
    simp only [all_cons, Bool.and_eq_true] at hfr
    have hb : [b].all isASCII := by simpa using hfr.1
    have hun := units_ascii [b]
    have him : decoder.out none [b] = [some b.toNat] := (out_ascii hb).1
    have hout : decoder.out none (b :: front ++ rest) =
        some b.toNat :: decoder.out none (front ++ rest) := by
      rw [cons_append, ← singleton_append, out_append, him, (out_ascii hb).2]
      rfl
    have haf : decoder.after none (b :: front ++ rest) = decoder.after none (front ++ rest) := by
      rw [cons_append, ← singleton_append, after_append, (out_ascii hb).2]
    refine Decoded.cons hout haf (by simp) (ih hfr.2 ?_)
    rw [map_singleton, Utf16.units_some, Utf16.units_nil, append_nil] at hun
    rw [getD_some, hun, append_assoc]
    exact h

theorem appendCodePoint_eq (code_point : ℕ) :
    appendCodePoint output code_point = output ++ Utf16.encode code_point := by
  rw [appendCodePoint, Utf16.encode]
  by_cases hlt : code_point < 0x10000
  · rw [if_pos hlt, if_pos (by omega)]
  · have hl : (code_point >>> 10) + 0xd7c0 = 0xD800 + (code_point - 0x10000) / 0x400 := by
      rw [shiftRight_eq_div_pow]
      omega
    have ht : (code_point &&& 0x3ff) ||| 0xdc00 = 0xDC00 + (code_point - 0x10000) % 0x400 := by
      have hms : code_point &&& 0x3ff = code_point % 2 ^ 10 :=
        and_two_pow_sub_one_eq_mod code_point 10
      have hor := shiftLeft_add_eq_or_of_lt (mod_lt code_point (by decide : 0 < 2 ^ 10)) 55
      rw [hms, Nat.or_comm]
      refine hor.symm.trans ?_
      rw [shiftLeft_eq]
      omega
    rw [if_neg hlt, if_neg (by omega), u16Lead, u16Trail, hl, ht]

/-- The loop, at a byte that is not ASCII or with nothing but ASCII before it. -/
theorem convertFrom_decoded (hS : S.Lawful) {n : ℕ} (hn : bytes.length < n)
    (hcn : bytes.countP isASCII < 2 ^ 32) :
    Decoded fail_if_invalid flush output bytes
      (convertFrom S fail_if_invalid flush n (firstNonASCII S bytes) output bytes) := by
  induction n generalizing output bytes with
  | zero => omega
  | succ n ih =>
    rcases firstNonASCII_cases hS hcn with ⟨hno, hall⟩ | ⟨front, b, rest, rfl, hall, hb, hsm⟩
    · rw [hno, convertFrom]
      have hd : Decoded fail_if_invalid flush (output ++ copyU8IntoU16 bytes) []
          (.ok (output ++ copyU8IntoU16 bytes, [])) := by
        rcases flush <;> simp [Decoded, emitted, carries_nil, decoder]
      simpa using hd.ascii hall
    · rw [hsm]
      refine Decoded.ascii hall ?_
      rw [convertFrom, take_left' rfl, drop_left' rfl]
      have hch := convert_char rest hb
      rw [countP_append, countP_cons] at hcn
      rw [length_append, length_cons] at hn
      have hzr : (b :: rest).getD ((0 : Fin 4) : ℕ) 0 = b := rfl
      dsimp only at hch ⊢
      simp only [hzr]
      generalize convertUTF8BytesIntoUTF16WithLength (fun k => (b :: rest).getD k 0)
        (nonASCIISequenceLength b) (b :: rest).length = r at hch ⊢
      rcases hch with ⟨j, hj, hlen, hbuf, hout, haf, hcp⟩ |
        ⟨q, hfl, hbuf, hln, hlen, hout, haf, hac, hcp⟩
      · -- the character is complete, or a byte that does not belong to it follows
        rw [if_neg fun h => hbuf h.2, hlen, drop_succ_cons]
        have hle : (rest.drop j).countP isASCII ≤ rest.countP isASCII :=
          (drop_sublist j rest).countP_le
        have hrs : (rest.drop j).length < n := by
          rw [length_drop]
          omega
        by_cases hbad : fail_if_invalid ∧ r.fail
        · have hmem : none ∈ decoder.emitted flush none (b :: rest) := by
            rw [if_pos hbad.2] at hout
            have hem : decoder.emitted flush none (b :: rest) =
                [none] ++ decoder.emitted flush none (rest.drop j) := emitted_of_out hout haf
            simp [hem]
          rw [if_pos hbad, Decoded, if_pos ⟨hbad.1, hmem⟩]
        · rw [if_neg hbad]
          refine Decoded.cons hout haf (fun hf => ?_) ?_
          · rw [if_neg fun h => hbad ⟨hf, h⟩]
            simp
          · have hun : Utf16.encode ((if r.fail then none else some r.code_point).getD
                Utf16.replacement) = Utf16.encode r.code_point := by
              split_ifs with hf
              · rw [hcp hf]
                rfl
              · rfl
            rw [hun, ← appendCodePoint_eq]
            exact ih hrs (by omega)
      · -- the text ends in the character
        rcases flush
        · rw [if_pos ⟨rfl, hfl, hbuf, hln⟩, Decoded, emitted, if_neg (by simp [hout])]
          refine ⟨b :: rest, by simp [hout], ?_⟩
          exact ⟨hout, by simp, by simp [haf], hac⟩
        · rw [if_neg (by simp), hlen, drop_length]
          have hem : decoder.emitted true none (b :: rest) = [none] := by
            simp [emitted, text, hout, haf, finish_some]
          rw [Decoded, hem]
          by_cases hf : fail_if_invalid = true
          · rw [if_pos ⟨hf, mem_singleton_self _⟩, if_pos ⟨hf, hfl⟩]
          · rw [if_neg fun h => hf h.1, if_neg fun h => hf h.1]
            have hno : firstNonASCII S [] = none := by simp [firstNonASCII, hS.ascii]
            refine ⟨[], ?_, carries_nil⟩
            rw [hno, convertFrom, appendCodePoint_eq, hcp]
            simp [copyU8IntoU16, unicode_replacement, Utf16.replacement]

theorem Valid.after (h : Valid bytes) :
    decoder.after none bytes = none ∧ none ∉ decoder.out none bytes := by
  rw [Valid, text, mem_append, not_or] at h
  refine ⟨?_, h.1⟩
  rcases haf : decoder.after none bytes with _ | p
  · rfl
  · exact absurd (by simp [haf]) h.2

theorem Valid.decoded (h : Valid bytes) :
    Decoded fail_if_invalid flush [] bytes (.ok (Utf16.units (decoder.text none bytes), [])) := by
  obtain ⟨haf, hout⟩ := h.after
  have htx : decoder.text none bytes = decoder.out none bytes := by
    simp [text, haf]
  have hem : decoder.emitted flush none bytes = decoder.text none bytes := by
    rcases flush
    · exact htx.symm
    · rfl
  rw [Decoded, hem, if_neg fun hbad => h hbad.2]
  refine ⟨[], rfl, ?_⟩
  rw [haf, ite_self]
  exact carries_nil

/-- A chunk is decoded but for the bytes of a character that has not ended. -/
theorem toUTF16AllocMaybeBuffered_decoded (fail_if_invalid flush : Bool)
    (hS : S.Lawful)
    (hcn : bytes.countP isASCII < 2 ^ 32) :
    (toUTF16AllocMaybeBuffered S bytes fail_if_invalid flush = .ok none ∧ bytes.all isASCII)
      ∨ ∃ r, toUTF16AllocMaybeBuffered S bytes fail_if_invalid flush = r.map some
        ∧ Decoded fail_if_invalid flush [] bytes r := by
  rcases firstNonASCII_cases hS hcn with ⟨hno, hall⟩ | ⟨front, b, rest, rfl, hall, hb, hsm⟩
  · exact Or.inl ⟨by rw [toUTF16AllocMaybeBuffered, hno], hall⟩
  · right
    rw [toUTF16AllocMaybeBuffered, hsm]
    dsimp only
    have hzr : firstNonASCII S (b :: rest) = some 0 := by
      simp [firstNonASCII, hS.ascii, findIdx?_cons, hb]
    have hlp : ∀ output, Decoded fail_if_invalid flush output (b :: rest)
        (convertFrom S fail_if_invalid flush ((front ++ b :: rest).length + 1) (some 0) output
          (b :: rest)) := by
      intro output
      rw [← hzr]
      refine convertFrom_decoded hS (by simp) ?_
      rw [countP_append] at hcn
      omega
    by_cases hok : S.utf16_length_from_utf8 (front ++ b :: rest) ≠ 0
        ∧ (S.convert_utf8_to_utf16le_with_errors (front ++ b :: rest)).1
    · have hv := (hS.success _).1 hok.2
      rw [if_pos hok, hS.converted _ hv]
      exact ⟨.ok (_, []), rfl, hv.decoded⟩
    rw [if_neg hok]
    by_cases hlen : S.utf16_length_from_utf8 (front ++ b :: rest) = 0
    · have hfr : front = [] := by
        rcases front with _ | ⟨c, front⟩
        · rfl
        · exact absurd hlen (hS.length_pos _ _ (List.all_eq_true.1 hall c (by simp)))
      subst hfr
      rw [if_pos hlen]
      exact ⟨_, rfl, hlp []⟩
    · have htk : (S.convert_utf8_to_utf16le_with_errors (front ++ b :: rest)).2.take
          front.length = copyU8IntoU16 front := by
        obtain ⟨more, hmr⟩ := hS.written front (b :: rest) hall
        have hsa : front.length = (copyU8IntoU16 front).length := by simp [copyU8IntoU16]
        rw [← hmr, hsa, take_left]
      have hst : (if 0 < (copyU8IntoU16 front).length then front.length else 0) =
          front.length := by
        rcases front with _ | ⟨c, front⟩ <;> simp [copyU8IntoU16]
      rw [if_neg hlen, htk, hst, drop_left]
      exact ⟨_, rfl, Decoded.ascii hall (hlp _)⟩

end Cruller.Text
