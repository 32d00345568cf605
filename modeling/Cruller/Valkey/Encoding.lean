import Cruller.Valkey.Protocol

/-!
# Well-formed RESP values and how they are read

`Encodes left vs bs` is the grammar: the bytes `bs` are the values `vs` one behind the other, nested
at most `left` levels. A reader that `Takes` a text gives its value whatever follows, and asks for
more bytes on every strict prefix of it. Every well-formed value is taken so, except that a blob
error and a verbatim string that are cut inside their contents give an error of their own
(`Encodes.row`, `Encodes.stops`); values that hold one of these are `Fragile`.
-/

namespace Cruller.Valkey

open List ValkeyReader

variable {α β δ : Type}

def crlf : List UInt8 := ['\r'.toUInt8, '\n'.toUInt8]

/-- There is no line break in it. -/
def IsLine (str : List UInt8) : Prop := ¬ crlf <:+: str

instance (str : List UInt8) : Decidable (IsLine str) :=
  inferInstanceAs (Decidable (¬ crlf <:+: str))

theorem cr_ne_lf : '\r'.toUInt8 ≠ '\n'.toUInt8 := by decide

/-- Values without items: what lies behind the type byte. -/
inductive Leaf (fl : FloatText δ) : RESPType → RESPValue δ → List UInt8 → Prop
  | simpleString {str : List UInt8} : IsLine str →
    Leaf fl .SimpleString (.SimpleString str) (str ++ crlf)
  | error {str : List UInt8} : IsLine str → Leaf fl .Error (.Error str) (str ++ crlf)
  | integer {text : List UInt8} {int : ℤ} : IsLine text → parseInt text = some int →
    Leaf fl .Integer (.Integer int) (text ++ crlf)
  | bulkString {text str : List UInt8} : IsLine text → parseInt text = some (str.length : ℤ) →
    Leaf fl .BulkString (.BulkString (some str)) (text ++ crlf ++ (str ++ crlf))
  | nullBulkString {text : List UInt8} {len : ℤ} : IsLine text → parseInt text = some len →
    len < 0 → Leaf fl .BulkString (.BulkString none) (text ++ crlf)
  | null : Leaf fl .Null .Null crlf
  | double {text : List UInt8} {d : δ} : IsLine text → parseDouble fl text = some d →
    Leaf fl .Double (.Double d) (text ++ crlf)
  | boolean (b : Bool) :
    Leaf fl .Boolean (.Boolean b) ((if b then 't'.toUInt8 else 'f'.toUInt8) :: crlf)
  | blobError {text str : List UInt8} : IsLine text → parseInt text = some (str.length : ℤ) →
    Leaf fl .BlobError (.BlobError str) (text ++ crlf ++ (str ++ crlf))
  | verbatimString {text format content : List UInt8} : IsLine text → format.length = 3 →
    parseInt text = some ((content.length : ℤ) + 4) →
    Leaf fl .VerbatimString (.VerbatimString format content)
      (text ++ crlf ++ (format ++ ':'.toUInt8 :: content ++ crlf))
  | bigNumber {str : List UInt8} : IsLine str → Leaf fl .BigNumber (.BigNumber str) (str ++ crlf)

/-- The keys and values of a map, in the order in which they are written. -/
def flatEntries (entries : List (RESPValue δ × RESPValue δ)) : List (RESPValue δ) :=
  entries.flatMap fun e => [e.1, e.2]

/-- Values with items: the number that is written, and the items. -/
inductive Nest : RESPType → ℤ → List (RESPValue δ) → RESPValue δ → Prop
  | array (items : List (RESPValue δ)) : Nest .Array items.length items (.Array items)
  | nullArray {len : ℤ} : len < 0 → Nest .Array len [] (.Array [])
  | map (entries : List (RESPValue δ × RESPValue δ)) :
    Nest .Map entries.length (flatEntries entries) (.Map entries)
  | set (items : List (RESPValue δ)) : Nest .Set items.length items (.Set items)
  | annotated (attributes : List (RESPValue δ × RESPValue δ)) (value : RESPValue δ) :
    Nest .Attribute attributes.length (flatEntries attributes ++ [value])
      (.Attribute attributes value)
  | push {kind : List UInt8} {name : RESPValue δ} (data : List (RESPValue δ)) :
    name = .SimpleString kind ∨ name = .BulkString (some kind) →
    Nest .Push (data.length + 1) (name :: data) (.Push kind data)

/-- The bytes are the values, one behind the other and nested at most `left` levels. -/
inductive Encodes (fl : FloatText δ) : ℕ → List (RESPValue δ) → List UInt8 → Prop
  | nil (left : ℕ) : Encodes fl left [] []
  | leaf {left : ℕ} {t : RESPType} {v : RESPValue δ} {vs : List (RESPValue δ)}
    {body bs : List UInt8} :
    Leaf fl t v body → Encodes fl left vs bs → Encodes fl left (v :: vs) (t.toByte :: body ++ bs)
  | nest {left : ℕ} {t : RESPType} {len : ℤ} {v : RESPValue δ} {items vs : List (RESPValue δ)}
    {text body bs : List UInt8} :
    Nest t len items v → IsLine text → parseInt text = some len → Encodes fl left items body →
    Encodes fl (left + 1) vs bs →
    Encodes fl (left + 1) (v :: vs) (t.toByte :: (text ++ crlf ++ body) ++ bs)

namespace RESPValue

/-- The values inside a value. -/
def children : RESPValue δ → List (RESPValue δ)
  | Array items => items
  | Map entries => flatEntries entries
  | Set items => items
  | Attribute attributes value => flatEntries attributes ++ [value]
  | Push _ data => data
  | _ => []

/-- Somewhere in the value there is a blob error with contents, or a verbatim string. -/
inductive Fragile : RESPValue δ → Prop
  | blobError {str : List UInt8} : str ≠ [] → Fragile (.BlobError str)
  | verbatimString (format content : List UInt8) : Fragile (.VerbatimString format content)
  | child {v c : RESPValue δ} : c ∈ v.children → Fragile c → Fragile v

end RESPValue

variable {v : RESPValue δ} {ok : Prop} {text str bs xs w rest body : List UInt8} {left : ℕ}
  {t : RESPType} {len : ℤ} {vs items : List (RESPValue δ)} {short bad : RedisError}
  {read : ValkeyReader (RESPValue δ)}

theorem Nest.exists_fragile_iff
    (h : Nest t len items v) : (∃ c ∈ items, c.Fragile) ↔ v.Fragile := by
  have hcm : ∀ {u : RESPValue δ} {cs : List (RESPValue δ)}, u.children = cs →
      (∀ str, u ≠ .BlobError str) → (∀ f c, u ≠ .VerbatimString f c) →
      ((∃ c ∈ cs, c.Fragile) ↔ u.Fragile) := by
    rintro u cs rfl hb hv
    constructor
    · rintro ⟨c, hc, hf⟩
      exact .child hc hf
    · rintro (_ | _ | ⟨hc, hf⟩)
      · exact absurd rfl (hb _)
      · exact absurd rfl (hv _ _)
      · exact ⟨_, hc, hf⟩
  cases h with
  | array | nullArray | map | set | annotated => exact hcm rfl (by simp) (by simp)
  | @push kind name data hnm =>
    have hps : (∃ c ∈ data, c.Fragile) ↔ (RESPValue.Push kind data).Fragile :=
      hcm rfl (by simp) (by simp)
    rw [← hps]
    have hsn : ¬ name.Fragile := by
      rcases hnm with rfl | rfl <;> rintro (_ | _ | ⟨hc, -⟩) <;> simp [RESPValue.children] at hc
    simp [hsn]

/-- The reader gives `a` for the text `w` whatever follows it; and provided `ok`, on every strict
prefix of it, it asks for more. -/
structure Takes (ok : Prop) (r : ValkeyReader α) (a : α) (w : List UInt8) : Prop where
  reads : ∀ tail, r (w ++ tail) = .ok (a, tail)
  short : ok → ∀ p, p <+: w → p ≠ w → r p = .error .InvalidResponse

theorem bind_ok {r : ValkeyReader α} {f : α → ValkeyReader β} {ys : List UInt8} {a : α}
    (h : r xs = .ok (a, ys)) : (r >>= f) xs = f a ys := by
  change Except.bind (r xs) _ = _
  rw [h]
  rfl

theorem readByte_cons (byte : UInt8) (rest : List UInt8) :
    readByte (byte :: rest) = .ok (byte, rest) := rfl

theorem bind_error {r : ValkeyReader α} {f : α → ValkeyReader β}
    {e : RedisError} (h : r xs = .error e) : (r >>= f) xs = .error e := by
  change Except.bind (r xs) _ = _
  rw [h]
  rfl

theorem prefix_append_cases {p w' : List UInt8} (h : p <+: w ++ w') :
    (p <+: w ∧ p ≠ w) ∨ ∃ q, p = w ++ q ∧ q <+: w' := by
  rcases prefix_or_prefix_of_prefix h (prefix_append w w') with hp | hw
  · rcases eq_or_ne p w with rfl | hne
    · simp
    · exact Or.inl ⟨hp, hne⟩
  · obtain ⟨q, rfl⟩ := hw
    exact Or.inr ⟨q, rfl, (prefix_append_right_inj w).1 h⟩

namespace Takes

variable {ok : Prop} {r : ValkeyReader α} {f : α → ValkeyReader β} {a : α} {b : β}
  {w w' : List UInt8}

theorem pure (a : α) : Takes ok (Pure.pure a : ValkeyReader α) a [] where
  reads _ := rfl
  short _ _ hp hne := absurd (prefix_nil.1 hp) hne

theorem bind (h : Takes ok r a w) (h' : Takes ok (f a) b w') : Takes ok (r >>= f) b (w ++ w') where
  reads tail := by
    rw [append_assoc, bind_ok (h.reads _)]
    exact h'.reads tail
  short hok p hp hne := by
    rcases prefix_append_cases hp with ⟨hp, hlt⟩ | ⟨q, rfl, hq⟩
    · exact bind_error (h.short hok p hp hlt)
    · rw [bind_ok (h.reads q)]
      exact h'.short hok q hq fun heq => hne (by rw [heq])

theorem last (h : Takes ok r a w) (h' : Takes ok (f a) b []) : Takes ok (r >>= f) b w := by
  have := h.bind h'
  rwa [append_nil] at this

theorem map (h : Takes ok r a w) (g : α → β) :
    Takes ok (r >>= fun x => Pure.pure (g x)) (g a) w := h.last (Takes.pure (g a))

theorem mono {ok' : Prop} (h : Takes ok r a w) (himp : ok' → ok) : Takes ok' r a w where
  reads := h.reads
  short hok := h.short (himp hok)

end Takes

theorem takes_readByte (byte : UInt8) : Takes ok readByte byte [byte] where
  reads _ := rfl
  short _ p hp hne := by
    rcases prefix_cons_iff.1 hp with rfl | ⟨q, rfl, hq⟩
    · rfl
    · exact absurd (by rw [prefix_nil.1 hq]) hne

theorem Takes.cons {byte : UInt8} {f : UInt8 → ValkeyReader β} {b : β}
    (h : Takes ok (f byte) b w) : Takes ok (readByte >>= f) b (byte :: w) :=
  (takes_readByte byte).bind h

theorem split_of_splitCRLF {result : List UInt8}
    (h : splitCRLF str = some (result, rest)) : str = result ++ crlf ++ rest := by
  induction str generalizing result with
  | nil => simp [splitCRLF] at h
  | cons byte str ih =>
    rw [splitCRLF] at h
    split_ifs at h with hc
    · obtain ⟨rfl, hhd⟩ := hc
      rcases str with _ | ⟨c, str⟩
      · simp at hhd
      · simp only [head?_cons, Option.some.injEq] at hhd
        simp only [Option.some.injEq, Prod.mk.injEq, tail_cons] at h
        obtain ⟨rfl, rfl⟩ := h
        rw [hhd]
        rfl
    · obtain ⟨⟨res, more⟩, hsp, heq⟩ := Option.map_eq_some_iff.1 h
      simp only [Prod.mk.injEq] at heq
      obtain ⟨rfl, rfl⟩ := heq
      rw [ih hsp]
      rfl

theorem splitCRLF_line (h : IsLine str) :
    splitCRLF (str ++ crlf ++ rest) = some (str, rest) := by
  induction str with
  | nil => rfl
  | cons byte str ih =>
    have htl : IsLine str := fun hin => h (hin.trans (suffix_cons byte str).isInfix)
    rw [cons_append, cons_append, splitCRLF, ih htl, if_neg]
    · rfl
    · rintro ⟨rfl, hhd⟩
      rcases str with _ | ⟨c, str⟩
      · simp [crlf, cr_ne_lf] at hhd
      · simp only [cons_append, head?_cons, Option.some.injEq] at hhd
        subst hhd
        exact h ⟨[], str, rfl⟩

theorem readUntilCRLF_eq (s : List UInt8) :
    readUntilCRLF s = (splitCRLF s).elim (.error .InvalidResponse) .ok := by
  change readUntilCRLF.run s = _
  cases hs : splitCRLF s <;> simp [readUntilCRLF, hs] <;> rfl

theorem takes_readUntilCRLF (h : IsLine str) :
    Takes ok readUntilCRLF str (str ++ crlf) where
  reads tail := by
    rw [readUntilCRLF_eq, splitCRLF_line h]
    rfl
  short _ p hp hne := by
    have hno : splitCRLF p = none := by
      rcases hs : splitCRLF p with _ | ⟨result, rest⟩
      · rfl
      · -- the CRLF that is found would end before the one of the line
        have hcn : str ++ crlf = str ++ ['\r'.toUInt8] ++ ['\n'.toUInt8] := by simp [crlf]
        rw [hcn, prefix_concat_iff, ← hcn, or_iff_right hne] at hp
        have hin : crlf <:+: str ++ ['\r'.toUInt8] :=
          IsInfix.trans ⟨result, rest, (split_of_splitCRLF hs).symm⟩ hp.isInfix
        rcases infix_concat_iff.1 hin with hsuf | hin
        · obtain ⟨front, hfr⟩ := hsuf
          have := congrArg List.getLast? hfr
          exact absurd this (by simp [crlf, cr_ne_lf.symm])
        · exact absurd hin h
    rw [readUntilCRLF_eq, hno]
    rfl

theorem takes_readInteger {int : ℤ} (h : IsLine text)
    (hint : parseInt text = some int) : Takes ok readInteger int (text ++ crlf) := by
  refine (takes_readUntilCRLF h).last ?_
  rw [hint]
  exact Takes.pure int

theorem takes_readDouble {fl : FloatText δ} {d : δ}
    (h : IsLine text) (hd : parseDouble fl text = some d) :
    Takes ok (readDouble fl) d (text ++ crlf) := by
  refine (takes_readUntilCRLF h).last ?_
  rw [hd]
  exact Takes.pure d

theorem takes_readBoolean (b : Bool) :
    Takes ok readBoolean b ((if b then 't'.toUInt8 else 'f'.toUInt8) :: crlf) := by
  have hln : IsLine [if b then 't'.toUInt8 else 'f'.toUInt8] := by
    cases b <;> decide
  refine (takes_readUntilCRLF hln).last ?_
  cases b <;> exact Takes.pure _

theorem readContent_of_length_lt {len : ℕ}
    (h : xs.length < len) : readContent len short bad xs = .error short := by
  rw [readContent, bind_ok (rfl : (get : ValkeyReader (List UInt8)) xs = .ok (xs, xs)), if_pos h]
  rfl

theorem readContent_append :
    readContent str.length short bad (str ++ rest) =
      (do
        let crlf ← readUntilCRLF
        if crlf ≠ [] then throw bad
        return str : ValkeyReader (List UInt8)) rest := by
  rw [readContent, bind_ok (rfl : (get : ValkeyReader (List UInt8)) (str ++ rest) =
    .ok (str ++ rest, str ++ rest)),
    if_neg (by simp)]
  dsimp only
  rw [drop_left, take_left]
  exact bind_ok (r := set rest) (a := PUnit.unit) rfl

theorem takes_readContent :
    Takes (str = [] ∨ short = .InvalidResponse) (readContent str.length short bad) str
      (str ++ crlf) where
  reads tail := by
    have hln : IsLine [] := by decide
    rw [append_assoc, readContent_append]
    exact (((takes_readUntilCRLF hln).last (Takes.pure str) : Takes True _ str crlf)).reads tail
  short hok p hp hne := by
    rcases prefix_append_cases hp with ⟨hp, hlt⟩ | ⟨q, rfl, hq⟩
    · have hlen : p.length < str.length := by
        refine lt_of_le_of_ne hp.length_le fun heq => hlt (hp.eq_of_length heq)
      rw [readContent_of_length_lt hlen]
      rcases hok with rfl | rfl
      · exact absurd hlen (Nat.not_lt_zero _)
      · rfl
    · rw [readContent_append]
      have hln : IsLine [] := by decide
      have hcr : Takes True readUntilCRLF [] ([] ++ crlf) := takes_readUntilCRLF hln
      refine bind_error (hcr.short trivial q hq fun heq => ?_)
      exact hne (by rw [heq, nil_append])

variable {fl : FloatText δ}

theorem takes_readBulkString (h : IsLine text)
    (hlen : parseInt text = some (str.length : ℤ)) :
    Takes ok readBulkString (some str) (text ++ crlf ++ (str ++ crlf)) := by
  refine (takes_readInteger h hlen).bind ?_
  rw [if_neg (by omega), Int.toNat_natCast]
  exact (takes_readContent.mono fun _ => Or.inr rfl).map some

theorem takes_readBlobError (h : IsLine text)
    (hlen : parseInt text = some (str.length : ℤ)) :
    Takes (str = []) readBlobError str (text ++ crlf ++ (str ++ crlf)) := by
  refine (takes_readInteger h hlen).bind ?_
  rw [if_neg (by omega), Int.toNat_natCast]
  exact takes_readContent.mono Or.inl

theorem takes_readVerbatimString {format content : List UInt8} (h : IsLine text)
    (hfr : format.length = 3) (hlen : parseInt text = some ((content.length : ℤ) + 4)) :
    Takes False readVerbatimString (format, content)
      (text ++ crlf ++ (format ++ ':'.toUInt8 :: content ++ crlf)) := by
  have hall : (format ++ ':'.toUInt8 :: content).length = content.length + 4 := by
    simp
    omega
  refine (takes_readInteger h hlen).bind ?_
  rw [if_neg (by omega), show ((content.length : ℤ) + 4).toNat =
    (format ++ ':'.toUInt8 :: content).length by omega]
  refine (takes_readContent.mono False.elim).last ?_
  rw [if_neg]
  · have htk : (format ++ ':'.toUInt8 :: content).take 3 = format := by
      rw [← hfr, take_left]
    have hdr : (format ++ ':'.toUInt8 :: content).drop 4 = content := by
      rw [drop_append, drop_of_length_le (by omega), nil_append, hfr]
      rfl
    rw [htk, hdr]
    exact Takes.pure (format, content)
  · rintro (hlt | hne)
    · omega
    · exact hne (by rw [getElem?_append_right (by omega), hfr]; rfl)

theorem takes_readBulkString_null (h : IsLine text)
    (hlen : parseInt text = some len) (hneg : len < 0) :
    Takes ok readBulkString none (text ++ crlf) := by
  refine (takes_readInteger h hlen).last ?_
  rw [if_pos hneg]
  exact Takes.pure none

theorem Leaf.takes {read : Option (ValkeyReader (RESPValue δ))}
    (h : Leaf fl t v body) :
    Takes (¬ v.Fragile) (readValueOf fl read) v (t.toByte :: body) := by
  refine Takes.cons ?_
  rw [RESPType.fromByte_toByte]
  cases h with
  | simpleString hl => exact (takes_readUntilCRLF hl).map _
  | error hl => exact (takes_readUntilCRLF hl).map _
  | integer hl hint => exact (takes_readInteger hl hint).map _
  | bulkString hl hlen => exact (takes_readBulkString hl hlen).map _
  | nullBulkString hl hlen hneg => exact (takes_readBulkString_null hl hlen hneg).map _
  | null =>
    have hln : IsLine [] := by decide
    exact (takes_readUntilCRLF hln).map fun _ => RESPValue.Null
  | double hl hd => exact (takes_readDouble hl hd).map _
  | boolean b => exact (takes_readBoolean b).map _
  | blobError hl hlen =>
    refine ((takes_readBlobError hl hlen).mono fun hsn => ?_).map _
    exact not_not.1 fun hne => hsn (.blobError hne)
  | verbatimString hl hfr hlen =>
    refine ((takes_readVerbatimString hl hfr hlen).mono fun hsn => ?_).map
      fun r => RESPValue.VerbatimString r.1 r.2
    exact hsn (.verbatimString _ _)
  | bigNumber hl => exact (takes_readUntilCRLF hl).map _

/-- The texts of the values lie one behind the other. -/
inductive Row (read : ValkeyReader (RESPValue δ)) : List (RESPValue δ) → List UInt8 → Prop
  | nil : Row read [] []
  | cons {v : RESPValue δ} {vs : List (RESPValue δ)} {w bs : List UInt8} :
    Takes (¬ v.Fragile) read v w → Row read vs bs → Row read (v :: vs) (w ++ bs)

namespace Row

variable {read : ValkeyReader (RESPValue δ)} {body : List UInt8}

theorem readMany {items : List (RESPValue δ)} (h : Row read items body) :
    Takes (∀ v ∈ items, ¬ v.Fragile) (readMany read items.length) items body := by
  induction h with
  | nil => exact Takes.pure []
  | cons hv _ ih =>
    refine (hv.mono fun hok => hok _ mem_cons_self).bind ?_
    exact (ih.mono fun hok v hmem => hok v (mem_cons_of_mem _ hmem)).map _

theorem readEntries {entries : List (RESPValue δ × RESPValue δ)}
    (h : Row read (flatEntries entries) body) :
    Takes (∀ v ∈ flatEntries entries, ¬ v.Fragile) (ValkeyReader.readMany (readEntry read)
      entries.length) entries body := by
  induction entries generalizing body with
  | nil =>
    cases h
    exact Takes.pure []
  | cons e entries ih =>
    rcases h with _ | ⟨hkey, _ | ⟨hvl, hrs⟩⟩
    have hen : Takes (∀ v ∈ flatEntries (e :: entries), ¬ v.Fragile) (readEntry read) e _ :=
      (hkey.mono fun hok => hok _ mem_cons_self).bind
        ((hvl.mono fun hok => hok _ (mem_cons_of_mem _ mem_cons_self)).map
          fun value => (e.1, value))
    rw [← append_assoc]
    refine hen.bind ?_
    refine ((ih hrs).mono fun hok v hmem => hok v ?_).map fun items => e :: items
    exact mem_cons_of_mem _ (mem_cons_of_mem _ hmem)

theorem unconcat {items : List (RESPValue δ)} {v : RESPValue δ} (h : Row read (items ++ [v]) body) :
    ∃ front w, body = front ++ w ∧ Row read items front ∧ Takes (¬ v.Fragile) read v w := by
  induction items generalizing body with
  | nil =>
    rcases h with _ | ⟨hv, _ | _⟩
    exact ⟨[], _, append_nil _, .nil, hv⟩
  | cons u items ih =>
    rcases h with _ | ⟨hu, hrs⟩
    obtain ⟨front, w, rfl, him, hv⟩ := ih hrs
    exact ⟨_, w, (append_assoc ..).symm, .cons hu him, hv⟩

end Row

/-- A value with items is read from its line and the row of its items. -/
theorem Nest.takes
    (h : Nest t len items v) (hl : IsLine text) (hlen : parseInt text = some len)
    (hrow : Row read items body) :
    Takes (¬ v.Fragile) (readValueOf fl (some read)) v (t.toByte :: (text ++ crlf ++ body)) := by
  have hsn : ¬ v.Fragile → ∀ c ∈ items, ¬ c.Fragile := fun hv c hc hf =>
    hv (h.exists_fragile_iff.1 ⟨c, hc, hf⟩)
  refine Takes.cons ?_
  rw [RESPType.fromByte_toByte]
  cases h with
  | array items =>
    refine (takes_readInteger hl hlen).bind ?_
    rw [if_neg (by omega), Int.toNat_natCast]
    exact (hrow.readMany.mono hsn).map _
  | nullArray hneg =>
    cases hrow
    refine (takes_readInteger hl hlen).bind ?_
    rw [if_pos hneg]
    exact Takes.pure _
  | map entries =>
    refine (takes_readInteger hl hlen).bind ?_
    rw [if_neg (by omega), Int.toNat_natCast]
    exact (hrow.readEntries.mono hsn).map _
  | set items =>
    refine (takes_readInteger hl hlen).bind ?_
    rw [if_neg (by omega), Int.toNat_natCast]
    exact (hrow.readMany.mono hsn).map _
  | annotated attributes value =>
    obtain ⟨front, w, rfl, hat, hvl⟩ := hrow.unconcat
    refine (takes_readInteger hl hlen).bind ?_
    rw [if_neg (by omega), Int.toNat_natCast]
    refine (hat.readEntries.mono fun hv c hc => hsn hv c (mem_append_left _ hc)).bind ?_
    exact (hvl.mono fun hv => hsn hv _ (by simp)).map _
  | @push kind name data hnm =>
    rcases hrow with _ | ⟨hhd, hdt⟩
    refine (takes_readInteger hl hlen).bind ?_
    rw [if_neg (by omega), show ((data.length : ℤ) + 1).toNat - 1 = data.length by omega]
    refine (hhd.mono fun hv => hsn hv _ mem_cons_self).bind ?_
    have hrs := (hdt.readMany.mono fun hv c hc => hsn hv c (mem_cons_of_mem _ hc)).map
      fun data => RESPValue.Push kind data
    rcases hnm with rfl | rfl <;> exact hrs

/-- Well-formed values are taken one after another. -/
theorem Encodes.row
    (h : Encodes fl left vs bs) : Row (readValueWithDepth fl left) vs bs := by
  induction h with
  | nil => exact .nil
  | @leaf left _ _ _ _ _ hlf _ ih =>
    refine .cons ?_ ih
    cases left with
    | zero => exact hlf.takes
    | succ left => exact hlf.takes
  | nest hns hl hlen _ _ ihitems ih => exact .cons (hns.takes hl hlen ihitems) ih

theorem Encodes.eq_nil (h : Encodes fl left [] bs) : bs = [] := by
  cases h
  rfl

theorem Encodes.uncons
    (h : Encodes fl left (v :: vs) bs) : ∃ w rest, bs = w ++ rest ∧ w ≠ []
      ∧ Encodes fl left [v] w ∧ Encodes fl left vs rest := by
  rcases h with _ | ⟨hlf, hrs⟩ | ⟨hns, hl, hlen, him, hrs⟩
  · refine ⟨_, _, rfl, by simp, ?_, hrs⟩
    have := Encodes.leaf hlf (.nil left)
    rwa [append_nil] at this
  · refine ⟨_, _, rfl, by simp, ?_, hrs⟩
    have := Encodes.nest hns hl hlen him (.nil _)
    rwa [append_nil] at this

theorem Encodes.takes
    (h : Encodes fl left [v] w) : Takes (¬ v.Fragile) (readValueWithDepth fl left) v w := by
  rcases h.row with _ | ⟨hv, _ | _⟩
  rwa [append_nil]

/-- Reading the values one after another from `p` fails with `e`. -/
inductive Stops (read : ValkeyReader (RESPValue δ)) (e : RedisError) :
    List (RESPValue δ) → List UInt8 → Prop
  | here {v : RESPValue δ} {vs : List (RESPValue δ)} {p : List UInt8} :
    read p = .error e → Stops read e (v :: vs) p
  | there {v : RESPValue δ} {vs : List (RESPValue δ)} {p q : List UInt8} :
    read p = .ok (v, q) → Stops read e vs q → Stops read e (v :: vs) p

namespace Stops

variable {read : ValkeyReader (RESPValue δ)} {e : RedisError} {p : List UInt8}

theorem readMany {items : List (RESPValue δ)} (h : Stops read e items p) :
    readMany read items.length p = .error e := by
  induction h with
  | here hrd => exact bind_error hrd
  | there hrd _ ih =>
    refine (bind_ok hrd).trans ?_
    exact bind_error ih

/-- Entries and then `rest`, which `f` fails to read. -/
theorem readEntries {entries : List (RESPValue δ × RESPValue δ)} {rest : List (RESPValue δ)}
    {f : List (RESPValue δ × RESPValue δ) → ValkeyReader β}
    (h : Stops read e (flatEntries entries ++ rest) p)
    (hf : ∀ q, Stops read e rest q → f entries q = .error e) :
    (ValkeyReader.readMany (readEntry read) entries.length >>= f) p = .error e := by
  induction entries generalizing p f with
  | nil => exact (bind_ok rfl).trans (hf p h)
  | cons entry entries ih =>
    rw [length_cons, ValkeyReader.readMany, readEntry]
    simp only [bind_assoc, pure_bind]
    rcases h with hkey | ⟨hkey, hvl | ⟨hvl, hrs⟩⟩
    · exact bind_error hkey
    · rw [bind_ok hkey]
      exact bind_error hvl
    · rw [bind_ok hkey, bind_ok hvl]
      exact ih hrs hf

end Stops

/-- Reading a value with items fails where reading its items does. -/
theorem Nest.stops
    {p : List UInt8} {e : RedisError}
    (h : Nest t len items v) (hl : IsLine text) (hlen : parseInt text = some len)
    (hst : Stops read e items p) :
    readValueOf fl (some read) (t.toByte :: (text ++ crlf ++ p)) = .error e := by
  have hint : readInteger (text ++ crlf ++ p) = .ok (len, p) :=
    (takes_readInteger hl hlen : Takes True _ _ _).reads p
  refine (bind_ok (readByte_cons t.toByte (text ++ crlf ++ p))).trans ?_
  rw [RESPType.fromByte_toByte]
  cases h with
  | array items =>
    refine (bind_ok hint).trans ?_
    rw [if_neg (by omega), Int.toNat_natCast]
    exact bind_error hst.readMany
  | nullArray hneg => cases hst
  | map entries =>
    refine (bind_ok hint).trans ?_
    rw [if_neg (by omega), Int.toNat_natCast]
    rw [← append_nil (flatEntries entries)] at hst
    exact hst.readEntries fun q hq => nomatch hq
  | set items =>
    refine (bind_ok hint).trans ?_
    rw [if_neg (by omega), Int.toNat_natCast]
    exact bind_error hst.readMany
  | annotated attributes value =>
    refine (bind_ok hint).trans ?_
    rw [if_neg (by omega), Int.toNat_natCast]
    refine hst.readEntries fun q hq => ?_
    rcases hq with hvl | ⟨-, hnil⟩
    · exact bind_error hvl
    · cases hnil
  | @push kind name data hnm =>
    refine (bind_ok hint).trans ?_
    rw [if_neg (by omega), show ((data.length : ℤ) + 1).toNat - 1 = data.length by omega]
    rcases hst with hhd | ⟨hhd, hdt⟩
    · exact bind_error hhd
    · refine (bind_ok hhd).trans ?_
      rcases hnm with rfl | rfl <;> exact (bind_ok rfl).trans (bind_error hdt.readMany)

/-- A blob error and a verbatim string that lack only the last byte of their contents. -/
theorem Leaf.stops (h : Leaf fl t v body)
    (hv : v.Fragile) : ∃ p b e, body = p ++ b :: crlf ∧ e ≠ .InvalidResponse
      ∧ ∀ read, readValueOf fl read (t.toByte :: p) = .error e := by
  have hch : ∀ c ∈ v.children, ¬ c.Fragile := by cases h <;> simp [RESPValue.children]
  cases hv with
  | child hc hf => exact absurd hf (hch _ hc)
  | @blobError str hne =>
    cases h with
    | @blobError text _ hl hlen =>
      obtain ⟨front, b, rfl⟩ := (eq_nil_or_concat str).resolve_left hne
      refine ⟨text ++ crlf ++ front, b, .InvalidBlobError, by simp, by decide, fun read => ?_⟩
      have hint : readInteger (text ++ crlf ++ front) = .ok (_, front) :=
        (takes_readInteger hl hlen : Takes True _ _ _).reads front
      refine (bind_ok (readByte_cons RESPType.BlobError.toByte (text ++ crlf ++ front))).trans ?_
      refine bind_error ((bind_ok hint).trans ?_)
      rw [if_neg (by omega), Int.toNat_natCast]
      exact readContent_of_length_lt (by simp)
  | verbatimString format content =>
    cases h with
    | @verbatimString text _ _ hl hfr hlen =>
      obtain ⟨front, b, hls⟩ := (eq_nil_or_concat (format ++ ':'.toUInt8 :: content)).resolve_left
        (by simp)
      have hall := congrArg List.length hls
      simp only [length_append, length_cons, length_nil, concat_eq_append] at hall
      refine ⟨text ++ crlf ++ front, b, .InvalidVerbatimString, by simp [hls], by decide, fun read => ?_⟩
      have hint : readInteger (text ++ crlf ++ front) = .ok (_, front) :=
        (takes_readInteger hl hlen : Takes True _ _ _).reads front
      refine (bind_ok (readByte_cons RESPType.VerbatimString.toByte (text ++ crlf ++ front))).trans ?_
      refine bind_error ((bind_ok hint).trans ?_)
      rw [if_neg (by omega)]
      exact bind_error (readContent_of_length_lt (by omega))

theorem Encodes.stops
    (h : Encodes fl left vs bs) (hv : ∃ v ∈ vs, v.Fragile) :
    ∃ p b rest e, bs = p ++ b :: (crlf ++ rest) ∧ e ≠ .InvalidResponse
      ∧ Stops (readValueWithDepth fl left) e vs p := by
  induction h with
  | nil => simp at hv
  | @leaf left t v vs body bs hlf _ ih =>
    by_cases hf : v.Fragile
    · obtain ⟨p, b, e, rfl, he, hrd⟩ := hlf.stops hf
      refine ⟨t.toByte :: p, b, bs, e, by simp, he, .here ?_⟩
      cases left <;> exact hrd _
    · obtain ⟨p, b, rest, e, rfl, he, hst⟩ := ih (by simpa [hf] using hv)
      refine ⟨t.toByte :: body ++ p, b, rest, e, by simp, he, .there ?_ hst⟩
      cases left <;> exact hlf.takes.reads p
  | @nest left t len v items vs text body bs hns hl hlen him _ ihitems ih =>
    by_cases hf : v.Fragile
    · obtain ⟨p, b, rest, e, rfl, he, hst⟩ := ihitems (hns.exists_fragile_iff.2 hf)
      exact ⟨t.toByte :: (text ++ crlf ++ p), b, rest ++ bs, e, by simp, he,
        .here (hns.stops hl hlen hst)⟩
    · obtain ⟨p, b, rest, e, rfl, he, hst⟩ := ih (by simpa [hf] using hv)
      exact ⟨t.toByte :: (text ++ crlf ++ body) ++ p, b, rest, e, by simp, he,
        .there ((hns.takes hl hlen him.row).reads p) hst⟩

theorem readUntilCRLF_crlf (xs : List UInt8) : readUntilCRLF (crlf ++ xs) = .ok ([], xs) := by
  have hln : IsLine [] := by decide
  exact (takes_readUntilCRLF hln : Takes True _ _ _).reads xs

theorem readInteger_crlf (xs : List UInt8) :
    readInteger (crlf ++ xs) = .error .InvalidInteger := bind_ok (readUntilCRLF_crlf xs)

/-- A value that is read from a line without text is not fragile. -/
theorem not_fragile_of_crlf {read : Option (ValkeyReader (RESPValue δ))} {b : UInt8}
    {q : List UInt8}
    (h : readValueOf fl read (b :: (crlf ++ xs)) = .ok (v, q)) : ¬ v.Fragile := by
  have hln := readUntilCRLF_crlf xs
  have hint := readInteger_crlf xs
  have h' := (bind_ok (readByte_cons b (crlf ++ xs))).symm.trans h
  have hlf : ∀ {u : RESPValue δ}, u.children = [] → (∀ str, u ≠ .BlobError str) →
      (∀ f c, u ≠ .VerbatimString f c) → ¬ u.Fragile := by
    rintro u hu hb hv (_ | _ | ⟨hc, -⟩)
    · exact hb _ rfl
    · exact hv _ _ rfl
    · simp [hu] at hc
  rcases hb : RESPType.fromByte b with _ | t <;> rw [hb] at h'
  · cases h'
  cases t with
  | SimpleString | Error | BigNumber =>
    have heq := (bind_ok hln).symm.trans h'
    cases heq
    exact hlf rfl (by simp) (by simp)
  | Null =>
    have heq := (bind_ok hln).symm.trans h'
    cases heq
    exact hlf rfl (by simp) (by simp)
  | Double =>
    rcases hd : readDouble fl (crlf ++ xs) with e | ⟨d, ys⟩
    · cases (bind_error hd).symm.trans h'
    · cases (bind_ok hd).symm.trans h'
      exact hlf rfl (by simp) (by simp)
  | Boolean =>
    have hb : readBoolean (crlf ++ xs) = .error .InvalidBoolean := bind_ok hln
    cases (bind_error hb).symm.trans h'
  | Integer => cases (bind_error hint).symm.trans h'
  | BulkString =>
    have hb : readBulkString (crlf ++ xs) = .error .InvalidInteger := bind_error hint
    cases (bind_error hb).symm.trans h'
  | BlobError =>
    have hb : readBlobError (crlf ++ xs) = .error .InvalidInteger := bind_error hint
    cases (bind_error hb).symm.trans h'
  | VerbatimString =>
    have hb : readVerbatimString (crlf ++ xs) = .error .InvalidInteger := bind_error hint
    cases (bind_error hb).symm.trans h'
  | Array | Map | Set | Attribute | Push =>
    rcases read with _ | read
    · cases h'
    · cases (bind_error hint).symm.trans h'

theorem readValueOf_singleton (t : RESPType) :
    readValueOf fl (some read) [t.toByte] = .error .InvalidResponse := by
  refine (bind_ok (readByte_cons t.toByte [])).trans ?_
  rw [RESPType.fromByte_toByte]
  cases t <;> rfl

theorem Encodes.head
    (h : Encodes fl left (v :: vs) bs) : ∃ (t : RESPType) (rest : List UInt8),
      bs = t.toByte :: rest := by
  rcases h with _ | ⟨hlf, hrs⟩ | ⟨hns, hl, hlen, him, hrs⟩
  · exact ⟨_, _, rfl⟩
  · exact ⟨_, _, rfl⟩

end Cruller.Valkey
