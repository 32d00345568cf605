import Cruller.Rt.HttpWire

/-!
# HTTP messages come back

A put leaves its value at the range it returns and nothing else changes, so after the encoder ran
the buffer holds the message: the prefix, each field at its range and each header in its table
entry (`Format.Holds`). The decoder accepts exactly the byte strings that hold a message
(`Format.decode_eq_ok`).
-/

namespace Cruller

open List Option

section

variable {bytes bytes' value : List UInt8} {cursor base index : ℕ}

theorem exists_put (bytes : List UInt8) (cursor : ℕ) (value : List UInt8)
    (hle : cursor + value.length ≤ bytes.length) (hmax : bytes.length ≤ maxU32) :
    ∃ (bytes' : List UInt8) (r : Range), put bytes cursor value = some (bytes', cursor + value.length, r)
      ∧ r.slice bytes' = some value ∧ r.offset.toNat = cursor ∧ r.length.toNat = value.length
      ∧ Agree (fun i => i < cursor ∨ cursor + value.length ≤ i) bytes bytes' := by
  obtain ⟨o, ho, hoc⟩ := intCastU32_of_le (show cursor ≤ maxU32 by omega)
  obtain ⟨l, hl, hlv⟩ := intCastU32_of_le (show value.length ≤ maxU32 by omega)
  obtain ⟨bytes', hs⟩ := exists_splice hle
  refine ⟨bytes', ⟨o, l⟩, ?_, ?_, hoc, hlv, agree_splice hs⟩
  · simp [put, ho, hl, hs]
  · rw [Range.slice, hoc, hlv]
    exact slice_splice hs

theorem Range.slice_agree {P : ℕ → Prop} {r : Range} (h : Agree P bytes bytes')
    (hP : ∀ i, r.offset.toNat ≤ i → i < r.offset.toNat + r.length.toNat → P i) :
    r.slice bytes' = r.slice bytes :=
  h.slice hP

/-- The texts are written one behind the other. -/
theorem exists_putAll (values : List (List UInt8))
    (hle : cursor + fieldBytes values ≤ bytes.length) (hmax : bytes.length ≤ maxU32) :
    ∃ (bytes' : List UInt8) (ranges : List Range),
      putAll bytes cursor values = some (bytes', cursor + fieldBytes values, ranges)
      ∧ ranges.length = values.length
      ∧ (∀ (k : ℕ) v, values[k]? = some v → ∃ r : Range, ranges[k]? = some r ∧ r.slice bytes' = some v
        ∧ cursor ≤ r.offset.toNat
        ∧ r.offset.toNat + r.length.toNat ≤ cursor + fieldBytes values)
      ∧ Agree (fun i => i < cursor ∨ cursor + fieldBytes values ≤ i) bytes bytes' := by
  induction values generalizing bytes cursor with
  | nil => exact ⟨bytes, [], rfl, rfl, by simp, Agree.refl _ _⟩
  | cons value values ih =>
    have hsum : fieldBytes (value :: values) = value.length + fieldBytes values := by
      simp [fieldBytes]
    rw [hsum] at hle ⊢
    obtain ⟨b₁, r, hput, hr, ho, hl, hA⟩ := exists_put bytes cursor value (by omega) hmax
    have hlen := hA.length
    obtain ⟨b₂, rs, hall, hlr, hrs, hA'⟩ := @ih b₁ (cursor + value.length) (by omega) (by omega)
    refine ⟨b₂, r :: rs, ?_, by simp [hlr], ?_, ?_⟩
    · simp [putAll, hput, hall, Nat.add_assoc]
    · intro k v hk
      rcases k with _ | k
      · simp only [getElem?_cons_zero, some.injEq] at hk
        subst hk
        refine ⟨r, rfl, ?_, by omega, by omega⟩
        rw [Range.slice_agree hA' fun i _ hi => Or.inl (by omega), hr]
      · rw [getElem?_cons_succ] at hk
        obtain ⟨r', hr', hs, h1, h2⟩ := hrs k v hk
        exact ⟨r', by rw [getElem?_cons_succ, hr'], hs, by omega, by omega⟩
    · refine Agree.trans (hA.mono fun i hi => ?_) (hA'.mono fun i hi => ?_)
      · rcases hi with hi | hi
        · exact Or.inl hi
        · exact Or.inr (by omega)
      · rcases hi with hi | hi
        · exact Or.inl (by omega)
        · exact Or.inr (by omega)

/-- The table has an entry for a header, whose bytes lie from `lo` on. -/
def HeaderAt (bytes : List UInt8) (lo position : ℕ) (h : Header) : Prop :=
  ∃ entry, Layout.headerRange.read bytes position = some entry
    ∧ entry.name.slice bytes = some h.name ∧ entry.value.slice bytes = some h.value
    ∧ lo ≤ entry.name.offset.toNat ∧ lo ≤ entry.value.offset.toNat

/-- The table is filled from `index` on and the header bytes lie from the cursor on. -/
theorem exists_putHeaders (headers : List Header)
    (htb : base + (index + headers.length) * 16 ≤ cursor)
    (hle : cursor + headerBytes headers ≤ bytes.length) (hmax : bytes.length ≤ maxU32) :
    ∃ bytes', putHeaders base index bytes cursor headers = some bytes'
      ∧ (∀ (k : ℕ) h, headers[k]? = some h → HeaderAt bytes' cursor (base + (index + k) * 16) h)
      ∧ Agree (fun i => i < base + index * 16
        ∨ (base + (index + headers.length) * 16 ≤ i ∧ i < cursor)) bytes bytes' := by
  induction headers generalizing bytes cursor index with
  | nil => exact ⟨bytes, rfl, by simp, Agree.refl _ _⟩
  | cons h headers ih =>
    have hsum : headerBytes (h :: headers) =
        h.name.length + h.value.length + headerBytes headers := by
      simp [headerBytes]
    rw [hsum] at hle
    rw [length_cons] at htb ⊢
    obtain ⟨b₁, rn, hp₁, hn, hon, hln, hA₁⟩ := exists_put bytes cursor h.name (by omega) hmax
    have hlen₁ := hA₁.length
    obtain ⟨b₂, rv, hp₂, hv, hov, hlv, hA₂⟩ := exists_put b₁ (cursor + h.name.length) h.value
      (by omega) (by omega)
    have hlen₂ := hA₂.length
    obtain ⟨b₃, hw⟩ : ∃ b₃, Layout.headerRange.write b₂ (base + index * 16) ⟨rn, rv⟩ = some b₃ :=
      exists_splice (by rw [Layout.length_encode, show Layout.headerRange.size = 16 from rfl]; omega)
    have hA₃ := agree_splice hw
    rw [Layout.length_encode, show Layout.headerRange.size = 16 from rfl] at hA₃
    have hlen₃ := hA₃.length
    obtain ⟨b₄, hrs, hat, hA₄⟩ := @ih b₃ (cursor + h.name.length + h.value.length) (index + 1)
      (by omega) (by omega) (by omega)
    have hnm : rn.slice b₄ = some h.name := by
      rw [Range.slice_agree hA₄, Range.slice_agree hA₃, Range.slice_agree hA₂, hn]
      · exact fun i h1 h2 => Or.inl (by omega)
      · exact fun i h1 h2 => Or.inr (by omega)
      · exact fun i h1 h2 => Or.inr ⟨by omega, by omega⟩
    have hvl : rv.slice b₄ = some h.value := by
      rw [Range.slice_agree hA₄, Range.slice_agree hA₃, hv]
      · exact fun i h1 h2 => Or.inr (by omega)
      · exact fun i h1 h2 => Or.inr ⟨by omega, by omega⟩
    have hen : Layout.headerRange.read b₄ (base + index * 16) = some ⟨rn, rv⟩ := by
      rw [hA₄.read, read_write hw]
      intro i h1 h2
      rw [show Layout.headerRange.size = 16 from rfl] at h2
      exact Or.inl (by omega)
    refine ⟨b₄, ?_, ?_, ?_⟩
    · simp only [putHeaders, hp₁, hp₂, bind_eq_bind, bind_some]
      rw [show Layout.headerRange.size = 16 from rfl, hw, bind_some]
      exact hrs
    · intro k h' hk
      rcases k with _ | k
      · simp only [getElem?_cons_zero, some.injEq] at hk
        subst hk
        exact ⟨⟨rn, rv⟩, by rw [Nat.add_zero, hen], hnm, hvl, hon.ge, by simp only; omega⟩
      · rw [getElem?_cons_succ] at hk
        obtain ⟨entry, hrd, hn', hv', h1, h2⟩ := hat k h' hk
        rw [show index + 1 + k = index + (k + 1) by omega] at hrd
        exact ⟨entry, hrd, hn', hv', by omega, by omega⟩
    · refine ((hA₁.mono ?_).trans (hA₂.mono ?_)).trans ((hA₃.mono ?_).trans (hA₄.mono ?_))
      · rintro i (hi | hi)
        · exact Or.inl (by omega)
        · exact Or.inl (by omega)
      · rintro i (hi | hi)
        · exact Or.inl (by omega)
        · exact Or.inl (by omega)
      · rintro i (hi | hi)
        · exact Or.inl hi
        · exact Or.inr (by omega)
      · rintro i (hi | hi)
        · exact Or.inl (by omega)
        · exact Or.inr ⟨by omega, by omega⟩

end

theorem addSlices_eq (slices : List (List UInt8)) {size : ℕ}
    (h : size + fieldBytes slices < 2 ^ 64) :
    addSlices size slices = .ok (size + fieldBytes slices) := by
  induction slices generalizing size with
  | nil => rfl
  | cons s slices ih =>
    have hsum : fieldBytes (s :: slices) = s.length + fieldBytes slices := by simp [fieldBytes]
    rw [hsum] at h ⊢
    have hadd : addSize size s.length = .ok (size + s.length) := if_pos (by omega)
    have := ih (show size + s.length + fieldBytes slices < 2 ^ 64 by omega)
    rw [addSlices] at this ⊢
    rw [foldlM_cons, hadd]
    exact this.trans (by rw [Nat.add_assoc])

theorem foldlM_addSlices (headers : List Header) {size : ℕ}
    (h : size + headerBytes headers < 2 ^ 64) :
    headers.foldlM (fun size (header : Header) => addSlices size [header.name, header.value]) size =
      .ok (size + headerBytes headers) := by
  induction headers generalizing size with
  | nil => rfl
  | cons e headers ih =>
    have hsum : headerBytes (e :: headers) =
        e.name.length + e.value.length + headerBytes headers := by simp [headerBytes]
    have hpr : fieldBytes [e.name, e.value] = e.name.length + e.value.length := by
      simp [fieldBytes]
    rw [hsum] at h ⊢
    have hadd := addSlices_eq [e.name, e.value] (show size + _ < 2 ^ 64 by rw [hpr]; omega)
    rw [hpr] at hadd
    rw [foldlM_cons, hadd]
    have hlt : size + (e.name.length + e.value.length) + headerBytes headers < 2 ^ 64 := by omega
    exact (ih hlt).trans (by rw [Nat.add_assoc])

namespace Format

variable {P : Type} {F : Format P} {fields : List (List UInt8)} {headers : List Header}

theorem sizeOf_eq (h : F.encodedSize fields headers ≤ maxU32) :
    F.sizeOf fields headers = .ok (F.encodedSize fields headers) := by
  unfold encodedSize maxU32 at h
  have hmul : mulSize headers.length Layout.headerRange.size = .ok (headers.length * 16) :=
    if_pos (by rw [show Layout.headerRange.size = 16 from rfl]; omega)
  have hadd : addSize F.layout.size (headers.length * 16) =
      .ok (F.layout.size + headers.length * 16) := if_pos (by omega)
  have hfl := addSlices_eq fields
    (show F.layout.size + headers.length * 16 + fieldBytes fields < 2 ^ 64 by omega)
  have hhd := foldlM_addSlices headers
    (show F.layout.size + headers.length * 16 + fieldBytes fields + headerBytes headers < 2 ^ 64
      by omega)
  simp only [sizeOf, hmul, hadd, hfl, bind, Except.bind]
  exact hhd

/-- A prefix built from a count, a table and ranges passes the version check and keeps all
three. -/
structure Makes (F : Format P) (n : ℕ) (make : UInt32 → Range → List Range → P) : Prop where
  magic : ∀ c t rs, F.magicValue (make c t rs) = httpMagic
  version : ∀ c t rs, F.wireVersion (make c t rs) = httpVersion
  count : ∀ c t rs, F.headerCount (make c t rs) = c
  table : ∀ c t rs, F.headers (make c t rs) = t
  fields : ∀ c t rs, rs.length = n → F.fields (make c t rs) = rs

/-- What a well-formed message holds: the prefix, the fields at their ranges and the headers in
their table. -/
structure Holds (F : Format P) (bytes : List UInt8) (head : P) (fields : List (List UInt8))
    (headers : List Header) : Prop where
  read : F.layout.read bytes 0 = some head
  magic : F.magicValue head = httpMagic
  version : F.wireVersion head = httpVersion
  count : (F.headerCount head).toNat = headers.length
  fits : headers.length * 16 ≤ maxU32
  table : (F.headers head).length.toNat = headers.length * 16
  inside : (F.headers head).offset.toNat + headers.length * 16 ≤ bytes.length
  fields : (F.fields head).map (·.slice bytes) = fields.map some
  headers : ∀ (k : ℕ) h, headers[k]? = some h →
    HeaderAt bytes 0 ((F.headers head).offset.toNat + k * 16) h

variable {bytes : List UInt8} {head : P}

/-- The message holds what was put into it. -/
theorem fill_holds {make : UInt32 → Range → List Range → P} (hmk : F.Makes fields.length make)
    (hlen : bytes.length = F.encodedSize fields headers)
    (hmax : bytes.length ≤ maxU32) :
    ∃ bytes' c t rs, F.fill make fields headers bytes = some bytes'
      ∧ F.Holds bytes' (make c t rs) fields headers := by
  unfold encodedSize at hlen
  obtain ⟨c, hc, hcn⟩ := intCastU32_of_le (show headers.length ≤ maxU32 by omega)
  obtain ⟨o, ho, hon⟩ := intCastU32_of_le (show F.layout.size ≤ maxU32 by omega)
  obtain ⟨l, hl, hln⟩ := intCastU32_of_le (show headers.length * 16 ≤ maxU32 by omega)
  obtain ⟨b₁, rs, hpt, hrl, hrs, hA₁⟩ := @exists_putAll bytes
    (F.layout.size + headers.length * 16) fields (by omega) hmax
  have hlen₁ := hA₁.length
  obtain ⟨b₂, hhd, hat, hA₂⟩ := @exists_putHeaders b₁
    (F.layout.size + headers.length * 16 + fieldBytes fields) F.layout.size 0 headers
    (by omega) (by omega) (by omega)
  have hlen₂ := hA₂.length
  obtain ⟨b₃, hw⟩ : ∃ b₃, F.layout.write b₂ 0 (make c ⟨o, l⟩ rs) = some b₃ :=
    exists_splice (by rw [Layout.length_encode]; omega)
  have hA₃ := agree_splice hw
  rw [Layout.length_encode] at hA₃
  have hlen₃ := hA₃.length
  refine ⟨b₃, c, ⟨o, l⟩, rs, ?_, ?_⟩
  · simp only [fill, bind_eq_bind]
    rw [show Layout.headerRange.size = 16 from rfl, hc, ho, hl, bind_some, bind_some,
      bind_some, hpt, bind_some]
    simp only [hhd, bind_some]
    exact hw
  have hfl : ∀ (k : ℕ) v, fields[k]? = some v → ∃ r : Range, rs[k]? = some r
      ∧ r.slice b₃ = some v := by
    intro k v hk
    obtain ⟨r, hr, hs, h1, h2⟩ := hrs k v hk
    refine ⟨r, hr, ?_⟩
    rw [Range.slice_agree hA₃, Range.slice_agree hA₂, hs]
    · exact fun i h3 h4 => Or.inr ⟨by omega, by omega⟩
    · exact fun i h3 h4 => Or.inr (by omega)
  refine ⟨read_write hw, hmk.magic _ _ _, hmk.version _ _ _, ?_, by omega, ?_, ?_, ?_, ?_⟩
  · rw [hmk.count, hcn]
  · rw [hmk.table, hln]
  · rw [hmk.table]
    simp only
    omega
  · rw [hmk.fields _ _ _ hrl]
    refine ext_getElem? fun k => ?_
    rw [getElem?_map, getElem?_map]
    rcases hk : fields[k]? with _ | v
    · rw [List.getElem?_eq_none_iff] at hk
      rw [getElem?_eq_none (by omega)]
      rfl
    · obtain ⟨r, hr, hs⟩ := hfl k v hk
      rw [hr, map_some, map_some, hs]
  · intro k h hk
    obtain ⟨entry, hrd, hn, hv, h1, h2⟩ := hat k h hk
    have hk := (List.getElem?_eq_some_iff.1 hk).1
    refine ⟨entry, ?_, ?_, ?_, Nat.zero_le _, Nat.zero_le _⟩
    · rw [hmk.table]
      simp only [Nat.zero_add] at hrd ⊢
      rw [hon, hA₃.read, hrd]
      exact fun i h3 h4 => Or.inr (by omega)
    · rw [Range.slice_agree hA₃, hn]
      exact fun i h3 h4 => Or.inr (by omega)
    · rw [Range.slice_agree hA₃, hv]
      exact fun i h3 h4 => Or.inr (by omega)

theorem header_of_headerAt {i lo : ℕ} {h : Header}
    (hi : i < (F.headerCount head).toNat)
    (hat : HeaderAt bytes lo ((F.headers head).offset.toNat + i * 16) h) :
    F.header ⟨bytes, head⟩ i = some h := by
  obtain ⟨entry, hrd, hn, hv, -, -⟩ := hat
  rw [header, if_neg (not_le.2 hi), show Layout.headerRange.size = 16 from rfl]
  simp only [hrd, hn, hv, bind_eq_bind, bind_some]
  rfl

theorem headerAt_of_header {d : Decoded P} {i : ℕ} {h : Header} (hh : F.header d i = some h) :
    i < (F.headerCount d.head).toNat
      ∧ HeaderAt d.bytes 0 ((F.headers d.head).offset.toNat + i * 16) h := by
  rw [header, show Layout.headerRange.size = 16 from rfl] at hh
  split_ifs at hh with hi
  simp only [bind_eq_bind, bind_eq_some_iff, Option.pure_def, some.injEq] at hh
  obtain ⟨entry, hrd, name, hn, value, hv, rfl⟩ := hh
  exact ⟨not_le.1 hi, entry, hrd, hn, hv, Nat.zero_le _, Nat.zero_le _⟩

theorem Holds.header (h : F.Holds bytes head fields headers)
    (i : ℕ) : F.header ⟨bytes, head⟩ i = headers[i]? := by
  rcases hi : headers[i]? with _ | e
  · rw [List.getElem?_eq_none_iff] at hi
    rw [Format.header, if_pos (by simp only [h.count]; exact hi)]
  · have hlt := (List.getElem?_eq_some_iff.1 hi).1
    exact header_of_headerAt (by rw [h.count]; exact hlt) (h.headers i e hi)

theorem Holds.slices (h : F.Holds bytes head fields headers)
    (k : ℕ) : (F.fields head)[k]?.map (·.slice bytes) = fields[k]?.map some := by
  rw [← getElem?_map, h.fields, getElem?_map]

/-- The decoder accepts exactly the byte strings that hold a message. -/
theorem decode_eq_ok {d : Decoded P} :
    F.decode bytes = .ok d ↔
      d.bytes = bytes ∧ ∃ fields headers, F.Holds bytes d.head fields headers := by
  rcases d with ⟨bytes', head⟩
  constructor
  · intro h
    unfold decode at h
    split at h
    · simp at h
    rename_i head' hrd
    split_ifs at h with hver htab hfl hhd
    obtain ⟨rfl, rfl⟩ : bytes = bytes' ∧ head' = head := by simpa using h
    refine ⟨rfl, (F.fields head').map fun r => (r.slice bytes).getD [],
      (List.range (F.headerCount head').toNat).map fun i =>
        (F.header ⟨bytes, head'⟩ i).getD ⟨[], []⟩, ?_⟩
    rw [not_or, not_not, not_not] at hver
    simp only [validTable, show Layout.headerRange.size = 16 from rfl, Bool.decide_and,
      Bool.and_eq_true, decide_eq_true_eq] at htab
    obtain ⟨hmax, hlen, hin⟩ := htab
    rw [Range.slice, slice_isSome, hlen] at hin
    refine ⟨hrd, hver.1, hver.2, by simp, by simpa using hmax, by simpa using hlen,
      by simpa using hin, ?_, ?_⟩
    · rw [List.map_map]
      refine map_congr_left fun r hr => ?_
      rw [List.all_eq_true] at hfl
      obtain ⟨s, hs⟩ := isSome_iff_exists.1 (hfl r hr)
      rw [Function.comp_apply, hs, getD_some]
    · intro k e hk
      rw [getElem?_map, map_eq_some_iff] at hk
      obtain ⟨i, hi, rfl⟩ := hk
      have hk := (List.getElem?_eq_some_iff.1 hi).1
      rw [length_range] at hk
      rw [List.getElem?_range hk, some.injEq] at hi
      subst hi
      rw [List.all_eq_true] at hhd
      obtain ⟨e, he⟩ := isSome_iff_exists.1 (hhd k (mem_range.2 hk))
      rw [he, getD_some]
      exact (headerAt_of_header he).2
  · rintro ⟨hb, fields, headers, h⟩
    simp only at hb h
    subst hb
    unfold decode
    rw [h.read]
    simp only
    have htab : validTable bytes' (F.headers head) (F.headerCount head) = true := by
      simp only [validTable, show Layout.headerRange.size = 16 from rfl, Bool.decide_and,
        Bool.and_eq_true, decide_eq_true_eq, h.count]
      refine ⟨h.fits, h.table, ?_⟩
      rw [Range.slice, slice_isSome, h.table]
      exact h.inside
    have hfl : (F.fields head).all (fun r => (r.slice bytes').isSome) = true := by
      rw [List.all_eq_true]
      intro r hr
      have hm : r.slice bytes' ∈ fields.map some := by
        rw [← h.fields]
        exact List.mem_map_of_mem hr
      obtain ⟨s, -, hs⟩ := List.mem_map.1 hm
      rw [← hs]
      rfl
    have hhd : (List.range (F.headerCount head).toNat).all
        (fun index => (F.header ⟨bytes', head⟩ index).isSome) = true := by
      rw [List.all_eq_true]
      intro i hi
      rw [mem_range, h.count] at hi
      rw [h.header, getElem?_eq_getElem hi]
      rfl
    rw [if_neg (by rw [h.magic, h.version]; simp), if_neg (not_not.2 htab),
      if_neg (not_not.2 hfl), if_neg (not_not.2 hhd)]

theorem encode_holds {make : UInt32 → Range → List Range → P} (hmk : F.Makes fields.length make)
    (hsz : F.encodedSize fields headers ≤ maxU32)
    {alloc : (n : ℕ) → Option (List.Vector UInt8 n)}
    (hal : (alloc (F.encodedSize fields headers)).isSome) :
    ∃ bytes c t rs, F.encode make fields headers alloc = some (.ok bytes)
      ∧ F.Holds bytes (make c t rs) fields headers := by
  obtain ⟨buffer, hbuf⟩ := isSome_iff_exists.1 hal
  have hlen : buffer.toList.length = F.encodedSize fields headers := buffer.toList_length
  obtain ⟨bytes, c, t, rs, hfl, hhl⟩ :=
    fill_holds hmk hlen (by rw [hlen]; exact hsz)
  refine ⟨bytes, c, t, rs, ?_, hhl⟩
  rw [encode, sizeOf_eq hsz]
  simp only [if_neg (not_lt.2 hsz), hbuf, hfl, map_some]

end Format

theorem Request.makes (request : Request) :
    Format.request.Makes request.fields.length request.head where
  magic _ _ _ := rfl
  version _ _ _ := rfl
  count _ _ _ := rfl
  table _ _ _ := rfl
  fields
    | _, _, [_, _, _, _, _], _ => rfl

theorem Response.makes (response : Response) :
    Format.response.Makes response.fields.length response.head where
  magic _ _ _ := rfl
  version _ _ _ := rfl
  count _ _ _ := rfl
  table _ _ _ := rfl
  fields
    | _, _, [_, _], _ => rfl

theorem decodeRequest_encodeRequest (request : Request) (hsz : request.encodedSize ≤ maxU32)
    {alloc : (n : ℕ) → Option (List.Vector UInt8 n)}
    (hal : (alloc request.encodedSize).isSome) :
    ∃ bytes d, encodeRequest alloc request = some (.ok bytes) ∧ decodeRequest bytes = .ok d
      ∧ d.head.method = request.method ∧ d.head.redirect = request.redirect
      ∧ d.head.flags = request.flags ∧ d.url = some request.url ∧ d.proxy = some request.proxy
      ∧ d.hostname = some request.hostname ∧ d.unixSocket = some request.unixSocket
      ∧ d.body = some request.body ∧ ∀ i, d.header i = request.headers[i]? := by
  obtain ⟨bytes, c, t, rs, henc, h⟩ := Format.encode_holds request.makes hsz hal
  have hs := h.slices
  refine ⟨bytes, ⟨bytes, request.head c t rs⟩, henc, Format.decode_eq_ok.2 ⟨rfl, _, _, h⟩, rfl, rfl,
    rfl, ?_, ?_, ?_, ?_, ?_, h.header⟩
  · exact some.inj (hs 0)
  · exact some.inj (hs 1)
  · exact some.inj (hs 2)
  · exact some.inj (hs 3)
  · exact some.inj (hs 4)

theorem decodeResponse_encodeResponse (response : Response)
    (hsz : response.encodedSize ≤ maxU32)
    {alloc : (n : ℕ) → Option (List.Vector UInt8 n)}
    (hal : (alloc response.encodedSize).isSome) :
    ∃ bytes d, encodeResponse alloc response = some (.ok bytes) ∧ decodeResponse bytes = .ok d
      ∧ d.head.statusCode = response.statusCode ∧ d.head.flags = response.flags
      ∧ d.url = some response.url ∧ d.statusText = some response.statusText
      ∧ ∀ i, d.header i = response.headers[i]? := by
  obtain ⟨bytes, c, t, rs, henc, h⟩ := Format.encode_holds response.makes hsz hal
  have hs := h.slices
  refine ⟨bytes, ⟨bytes, response.head c t rs⟩, henc, Format.decode_eq_ok.2 ⟨rfl, _, _, h⟩, rfl,
    rfl, ?_, ?_, h.header⟩
  · exact some.inj (hs 0)
  · exact some.inj (hs 1)

/-- The range lies in the bytes. -/
def Range.Inside (bytes : List UInt8) (r : Range) : Prop :=
  r.offset.toNat + r.length.toNat ≤ bytes.length

theorem Range.inside_of_slice {bytes s : List UInt8} {r : Range} (h : r.slice bytes = some s) :
    r.Inside bytes :=
  (slice_eq_some.1 h).1

/-- Every accessor of the view answers, from bytes of the string: the fields, and for each index
below the count the table entry and the name and value it points at. -/
structure Format.Inside {P : Type} (F : Format P) (d : Decoded P) : Prop where
  fields : ∀ r ∈ F.fields d.head, r.Inside d.bytes ∧ (r.slice d.bytes).isSome
  entries : ∀ i < (F.headerCount d.head).toNat,
    (F.headers d.head).offset.toNat + i * 16 + 16 ≤ d.bytes.length
  headers : ∀ i < (F.headerCount d.head).toNat, ∃ entry,
    Layout.headerRange.read d.bytes ((F.headers d.head).offset.toNat + i * 16) = some entry
      ∧ entry.name.Inside d.bytes ∧ entry.value.Inside d.bytes ∧ (F.header d i).isSome

theorem Format.inside_of_decode {P : Type} {F : Format P} {bytes : List UInt8} {d : Decoded P}
    (hd : F.decode bytes = .ok d) : F.Inside d := by
  obtain ⟨rfl, fields, headers, h⟩ := Format.decode_eq_ok.1 hd
  refine ⟨fun r hr => ?_, fun i hi => ?_, fun i hi => ?_⟩
  · have hm : r.slice d.bytes ∈ fields.map some := by
      rw [← h.fields]
      exact List.mem_map_of_mem hr
    obtain ⟨s, -, hs⟩ := List.mem_map.1 hm
    exact ⟨Range.inside_of_slice hs.symm, by rw [← hs]; rfl⟩
  · have := h.inside
    rw [h.count] at hi
    omega
  · rw [h.count] at hi
    obtain ⟨entry, hrd, hn, hv, -, -⟩ := h.headers i _ (getElem?_eq_getElem hi)
    refine ⟨entry, hrd, Range.inside_of_slice hn, Range.inside_of_slice hv, ?_⟩
    rw [show F.header d i = headers[i]? from h.header i, getElem?_eq_getElem hi]
    rfl

/-- A message whose encoding fits in 32 bits comes back from the decoder field by field, whatever
the allocated memory held, and whatever bytes the decoder accepts at all, the view stays inside
them. -/
theorem httpWire_round_trip :
    (∀ (request : Request) (alloc : (n : ℕ) → Option (List.Vector UInt8 n)),
      request.encodedSize ≤ maxU32 → (alloc request.encodedSize).isSome →
        ∃ bytes d, encodeRequest alloc request = some (.ok bytes) ∧ decodeRequest bytes = .ok d
          ∧ d.head.method = request.method ∧ d.head.redirect = request.redirect
          ∧ d.head.flags = request.flags ∧ d.url = some request.url ∧ d.proxy = some request.proxy
          ∧ d.hostname = some request.hostname ∧ d.unixSocket = some request.unixSocket
          ∧ d.body = some request.body ∧ ∀ i, d.header i = request.headers[i]?)
      ∧ (∀ (response : Response) (alloc : (n : ℕ) → Option (List.Vector UInt8 n)),
        response.encodedSize ≤ maxU32 → (alloc response.encodedSize).isSome →
          ∃ bytes d, encodeResponse alloc response = some (.ok bytes)
            ∧ decodeResponse bytes = .ok d ∧ d.head.statusCode = response.statusCode
            ∧ d.head.flags = response.flags ∧ d.url = some response.url
            ∧ d.statusText = some response.statusText ∧ ∀ i, d.header i = response.headers[i]?)
      ∧ (∀ bytes d, decodeRequest bytes = .ok d → d.bytes = bytes ∧ Format.request.Inside d)
      ∧ ∀ bytes d, decodeResponse bytes = .ok d → d.bytes = bytes ∧ Format.response.Inside d :=
  ⟨fun request _ hsize halloc => decodeRequest_encodeRequest request hsize halloc,
    fun response _ hsize halloc => decodeResponse_encodeResponse response hsize halloc,
    fun _ _ hd => ⟨(Format.decode_eq_ok.1 hd).1, Format.inside_of_decode hd⟩,
    fun _ _ hd => ⟨(Format.decode_eq_ok.1 hd).1, Format.inside_of_decode hd⟩⟩

/-- A request for `/` with one header. -/
theorem httpWire_round_trip_get :
    ∃ bytes d, encodeRequest (fun n => some (List.Vector.replicate n 170))
        { method := 1, url := [47], headers := [⟨[65], [49, 50]⟩], body := [] } = some (.ok bytes)
      ∧ decodeRequest bytes = .ok d ∧ d.header 0 = some ⟨[65], [49, 50]⟩ := by
  obtain ⟨bytes, d, henc, hdec, -, -, -, -, -, -, -, -, hh⟩ := httpWire_round_trip.1
    { method := 1, url := [47], headers := [⟨[65], [49, 50]⟩], body := [] }
    (fun n => some (List.Vector.replicate n 170)) (by decide) rfl
  exact ⟨bytes, d, henc, hdec, hh 0⟩

end Cruller
