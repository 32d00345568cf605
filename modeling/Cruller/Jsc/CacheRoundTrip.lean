import Cruller.Jsc.CacheLoad

/-!
# What the transpiler cache stores is what it loads

The loop of `Entry.save` goes on after a short write with the vectors as they were, from their
first byte. So the file is what it should be where each call writes what is due at its position
(`Repeats`), which one call for all of it does (`repeats_of_whole`). A file that is what it should
be is loaded as what was saved (`load_image_iff`).
-/

namespace Cruller.Jsc

open List

namespace Entry

/-- No call of the loop fails, for `n` bytes from `position` on. -/
def Completes (n : ℕ) : List (Option ℕ) → ℕ → Prop
  | [], _ => True
  | written :: system, position => position < n → ∃ w, written = some w ∧ 0 < min w n
    ∧ Completes n system (position + min w n)

/-- What each call writes, the first bytes of `image`, is what is due at its position. -/
def Repeats (image : Bytes) : List (Option ℕ) → ℕ → Prop
  | [], position => position < image.length → image <+: image.drop position
  | written :: system, position => position < image.length → ∀ w ∈ written,
    image.take w <+: image.drop position
      ∧ Repeats image system (position + min w image.length)

section Loop

variable {file file' bytes image : Bytes} {position : ℕ} {vecs : List Bytes}

theorem pwrite_eq (h : position ≤ file.length) :
    pwrite file position bytes
      = file.take position ++ bytes ++ file.drop (position + bytes.length) := by
  unfold pwrite
  rw [Nat.sub_eq_zero_of_le h, replicate_zero, append_nil]

theorem length_pwrite (h : position ≤ file.length) :
    (pwrite file position bytes).length = max file.length (position + bytes.length) := by
  rw [pwrite_eq h]
  simp only [length_append, List.length_take, length_drop]
  omega

theorem take_pwrite (h : position ≤ file.length) :
    (pwrite file position bytes).take (position + bytes.length) = file.take position ++ bytes := by
  rw [pwrite_eq h]
  refine take_left' ?_
  rw [length_append, length_take_of_le h]

theorem writeAll_isOk (hvc : vecs.flatten = image) :
    ∀ {system : List (Option ℕ)} {position : ℕ} {file : Bytes},
      (∃ file', writeAll vecs image.length system position file = .ok file') ↔
        Completes image.length system position
  | [], position, file => by
    refine ⟨fun _ => trivial, fun _ => ?_⟩
    unfold writeAll
    split_ifs
    · exact ⟨_, rfl⟩
    · exact ⟨_, rfl⟩
  | written :: system, position, file => by
    unfold writeAll Completes
    rw [hvc]
    split_ifs with hlt
    · cases written with
      | none => exact ⟨nofun, fun h => nomatch (h hlt)⟩
      | some w =>
        simp only [List.length_take, hlt, Option.some.injEq, exists_eq_left', true_implies]
        split_ifs with hzr
        · simp
          omega
        · simp [writeAll_isOk hvc]
          omega
    · simp
      omega

theorem take_pwrite_eq_iff (h : position ≤ file.length) (hlt : position ≤ image.length) :
    (pwrite file position bytes).take (position + bytes.length)
        = image.take (position + bytes.length)
      ↔ file.take position = image.take position ∧ bytes <+: image.drop position := by
  rw [take_pwrite h, take_add, prefix_iff_eq_take]
  refine append_eq_append_iff_of_size_eq_left ?_
  rw [length_take_of_le h, length_take_of_le hlt]

theorem eq_image_iff (hlength : file.length = position) (h : image.length ≤ position) :
    file = image ↔ file.take position = image.take position := by
  rw [take_of_length_le hlength.le, take_of_length_le h]

/-- The writes leave the image just when none of them is repeated from its beginning. -/
theorem writeAll_eq_iff (hvc : vecs.flatten = image) :
    ∀ {system : List (Option ℕ)} {position : ℕ} {file file' : Bytes}, position ≤ file.length →
      file.length ≤ max position image.length →
      writeAll vecs image.length system position file = .ok file' →
      (file' = image ↔ file.take position = image.take position
        ∧ Repeats image system position)
  | [], position, file, file', hle, hlength, h => by
    unfold writeAll at h
    unfold Repeats
    rw [hvc] at h
    split_ifs at h with hlt
    · cases h
      rw [@eq_image_iff _ _ (position + image.length) (by rw [length_pwrite hle]; omega)
        (by omega), take_pwrite_eq_iff hle hlt.le]
      exact and_congr_right fun _ => ⟨fun h _ => h, fun h => h hlt⟩
    · cases h
      rw [@eq_image_iff _ _ position (by omega) (not_lt.1 hlt)]
      exact ⟨fun h => ⟨h, fun h' => absurd h' hlt⟩, fun h => h.1⟩
  | written :: system, position, file, file', hle, hlength, h => by
    unfold writeAll at h
    unfold Repeats
    rw [hvc] at h
    split_ifs at h with hlt
    · cases written with
      | none => cases h
      | some w =>
        simp only at h
        split_ifs at h with hzr
        have hw : (image.take w).length = min w image.length := List.length_take
        rw [writeAll_eq_iff hvc (by rw [length_pwrite hle]; omega)
          (by rw [length_pwrite hle]; omega) h, take_pwrite_eq_iff hle hlt.le, and_assoc, hw]
        refine and_congr_right fun _ => ⟨fun h _ w' hw' => ?_, fun h => h hlt w rfl⟩
        cases hw'
        exact h
    · cases h
      rw [@eq_image_iff _ _ position (by omega) (not_lt.1 hlt)]
      exact ⟨fun h => ⟨h, fun h' => absurd h' hlt⟩, fun h => h.1⟩

end Loop

variable (env : Env) (saved : Saved)

/-- The metadata followed by the three parts. -/
def imageOf : Bytes :=
  (metadataOf env saved).encode ++ saved.output_code.byteSlice ++ saved.sourcemap
    ++ saved.esm_record

theorem flatten_filter (parts : List Bytes) :
    (parts.filter (·.length > 0)).flatten = parts.flatten := by
  induction parts with
  | nil => rfl
  | cons part parts ih =>
    cases part with
    | nil => simpa using ih
    | cons b part => simpa using ih

theorem flatten_vecs : (vecs env saved).flatten = imageOf env saved := by
  simp [vecs, imageOf, flatten_filter]

theorem length_imageOf : (imageOf env saved).length
    = Metadata.size + saved.output_code.byteSlice.length + saved.sourcemap.length
      + saved.esm_record.length := by
  unfold imageOf
  simp only [length_append, length_encode]

theorem drop_imageOf_output : (imageOf env saved).drop Metadata.size
    = saved.output_code.byteSlice ++ (saved.sourcemap ++ saved.esm_record) := by
  unfold imageOf
  rw [append_assoc, append_assoc, drop_left' (length_encode _)]

theorem drop_imageOf_sourcemap :
    (imageOf env saved).drop (Metadata.size + saved.output_code.byteSlice.length)
      = saved.sourcemap ++ saved.esm_record := by
  rw [← drop_drop, drop_imageOf_output, drop_left]

theorem drop_imageOf_record : (imageOf env saved).drop
    (Metadata.size + saved.output_code.byteSlice.length + saved.sourcemap.length)
      = saved.esm_record := by
  rw [← drop_drop, drop_imageOf_sourcemap, drop_left]

variable {env saved}

theorem save_eq_ok_iff {preallocated : Bool} {system : List (Option ℕ)} {file : Bytes}
    (hlength : (imageOf env saved).length < 2 ^ 63) :
    save env saved preallocated system = .ok file ↔
      writeAll (vecs env saved) (imageOf env saved).length system 0
        (preallocate_file preallocated (imageOf env saved).length) = .ok file := by
  unfold save
  simp only [← length_imageOf env saved]
  rw [if_neg (by omega)]

/-- The text is no longer than an engine allows. -/
def Fits (env : Env) : OutputCode → Prop
  | .string (.latin1 chars) => chars.length ≤ env.max_length
  | .string (.utf16 units) => units.length ≤ env.max_length
  | .utf8 _ | .string .empty | .string (.utf8 _) => True

/-- The same text; an empty one has no encoding of its own. -/
def SameCode (loaded saved : OutputCode) : Prop :=
  loaded.byteSlice = saved.byteSlice
    ∧ (saved.byteSlice ≠ [] → loaded.encoding = saved.encoding)

theorem unitsOf_encode (units : List UInt16) :
    unitsOf (units.flatMap Layout.u16.encode) = units := by
  induction units with
  | nil => rfl
  | cons u units ih =>
    have hdc := Layout.u16.decode_encode u
    change Layout.u16.decode [_, _] :: unitsOf (units.flatMap Layout.u16.encode) = _
    rw [ih]
    exact congrArg (· :: units) hdc

theorem length_units (units : List UInt16) :
    (units.flatMap Layout.u16.encode).length = 2 * units.length := by
  induction units with
  | nil => rfl
  | cons u units ih =>
    rw [flatMap_cons, length_append, ih, Layout.length_encode, length_cons]
    change 2 + _ = _
    omega

theorem located_image {offset length : UInt64} {part rest : Bytes} (hof : offset.toNat < 2 ^ 63)
    (hdr : (imageOf env saved).drop offset.toNat = part ++ rest)
    (hpr : length.toNat = part.length) : Located (imageOf env saved) offset length part :=
  ⟨hof, ⟨rest, hdr.symm⟩, hpr.symm⟩

section

variable (hlength : (imageOf env saved).length < 2 ^ 63)
include hlength

theorem toNat_lengths : (metadataOf env saved).output_byte_length.toNat
      = saved.output_code.byteSlice.length
    ∧ (metadataOf env saved).sourcemap_byte_length.toNat = saved.sourcemap.length
    ∧ (metadataOf env saved).esm_record_byte_length.toNat = saved.esm_record.length := by
  rw [length_imageOf] at hlength
  refine ⟨UInt64.toNat_ofNat_of_lt' ?_, UInt64.toNat_ofNat_of_lt' ?_,
    UInt64.toNat_ofNat_of_lt' ?_⟩ <;> simp only [UInt64.size] <;> omega

theorem toNat_offsets : (metadataOf env saved).output_byte_offset.toNat = Metadata.size
    ∧ (metadataOf env saved).sourcemap_byte_offset.toNat
      = Metadata.size + saved.output_code.byteSlice.length
    ∧ (metadataOf env saved).esm_record_byte_offset.toNat
      = Metadata.size + saved.output_code.byteSlice.length + saved.sourcemap.length := by
  rw [length_imageOf] at hlength
  refine ⟨UInt64.toNat_ofNat_of_lt' ?_, UInt64.toNat_ofNat_of_lt' ?_,
    UInt64.toNat_ofNat_of_lt' ?_⟩ <;> simp only [UInt64.size] <;> omega

/-- An output that fits is loaded from its own image. -/
theorem outputLoads_image (hfits : Fits env saved.output_code) :
    ∃ code, OutputLoads env (metadataOf env saved) (imageOf env saved) code
      ∧ SameCode code saved.output_code := by
  obtain ⟨hot, -, -⟩ := toNat_lengths hlength
  obtain ⟨hof, -, -⟩ := toNat_offsets hlength
  have him := length_imageOf env saved
  have hlc : Located (imageOf env saved) (metadataOf env saved).output_byte_offset
      (metadataOf env saved).output_byte_length saved.output_code.byteSlice :=
    located_image (by omega) (by rw [hof, drop_imageOf_output]) hot
  have hmt : Matches env (metadataOf env saved).output_hash saved.output_code.byteSlice :=
    .inr rfl
  have hen : (metadataOf env saved).output_encoding = saved.output_code.encoding := rfl
  unfold OutputLoads
  rw [hot, hen]
  split_ifs with hzr
  · have hnil := length_eq_zero_iff.1 hzr
    exact ⟨_, rfl, hnil.symm, fun h => absurd hnil h⟩
  · cases hcd : saved.output_code with
    | utf8 bytes =>
      rw [hcd] at hlc
      exact ⟨_, ⟨_, hlc, rfl⟩, rfl, fun _ => rfl⟩
    | string str =>
      rw [hcd] at hlc hmt hfits hzr
      cases str with
      | empty => exact absurd rfl hzr
      | utf8 bytes => exact ⟨_, ⟨_, hlc, rfl⟩, rfl, fun _ => rfl⟩
      | latin1 chars => exact ⟨_, ⟨_, hlc, rfl, hfits, hmt⟩, rfl, fun _ => rfl⟩
      | utf16 units =>
        have hun := length_units units
        have hhl : (units.flatMap Layout.u16.encode).length / 2 = units.length := by omega
        refine ⟨_, ⟨_, hlc, rfl, ⟨_, hun⟩, hhl.trans_le hfits, hmt⟩, ?_,
          fun _ => rfl⟩
        change (unitsOf (units.flatMap Layout.u16.encode)).flatMap Layout.u16.encode = _
        rw [unitsOf_encode]
        rfl

/-- An output that is loaded from its own image fits. -/
theorem fits_of_outputLoads {code : OutputCode}
    (h : OutputLoads env (metadataOf env saved) (imageOf env saved) code) :
    Fits env saved.output_code := by
  obtain ⟨hot, -, -⟩ := toNat_lengths hlength
  have hen : (metadataOf env saved).output_encoding = saved.output_code.encoding := rfl
  unfold OutputLoads at h
  rw [hot, hen] at h
  cases hcd : saved.output_code with
  | utf8 bytes => trivial
  | string str =>
    rw [hcd] at h hot
    cases str with
    | empty => trivial
    | utf8 bytes => trivial
    | latin1 chars =>
      by_cases hzr : (OutputCode.string (.latin1 chars)).byteSlice.length = 0
      · exact (show chars.length = 0 from hzr).trans_le (Nat.zero_le _)
      · rw [if_neg hzr] at h
        obtain ⟨bytes, hlc, -, hle, -⟩ := h
        rw [hlc.length_eq, hot] at hle
        exact hle
    | utf16 units =>
      have hun := length_units units
      by_cases hzr : (OutputCode.string (.utf16 units)).byteSlice.length = 0
      · change (units.flatMap Layout.u16.encode).length = 0 at hzr
        change units.length ≤ _
        omega
      · rw [if_neg hzr] at h
        obtain ⟨bytes, hlc, -, -, hle, -⟩ := h
        rw [hlc.length_eq, hot] at hle
        change (units.flatMap Layout.u16.encode).length / 2 ≤ _ at hle
        change units.length ≤ _
        omega

theorem sourcemapLoads_image :
    SourcemapLoads (metadataOf env saved) (imageOf env saved) saved.sourcemap := by
  obtain ⟨-, hsr, -⟩ := toNat_lengths hlength
  obtain ⟨-, hof, -⟩ := toNat_offsets hlength
  have him := length_imageOf env saved
  unfold SourcemapLoads
  split_ifs with hzr
  · exact length_eq_zero_iff.1 (hsr.symm.trans hzr)
  · have hdr := drop_imageOf_sourcemap env saved
    rw [← hof] at hdr
    exact located_image (by omega) hdr hsr

theorem recordLoads_image :
    RecordLoads env (metadataOf env saved) (imageOf env saved) saved.esm_record := by
  obtain ⟨-, -, hrc⟩ := toNat_lengths hlength
  obtain ⟨-, -, hof⟩ := toNat_offsets hlength
  have him := length_imageOf env saved
  unfold RecordLoads
  split_ifs with hzr
  · exact length_eq_zero_iff.1 (hrc.symm.trans hzr)
  · have hdr : (imageOf env saved).drop (metadataOf env saved).esm_record_byte_offset.toNat
        = saved.esm_record ++ [] := by
      rw [hof, drop_imageOf_record, append_nil]
    refine ⟨located_image (by omega) hdr hrc, .inr ?_⟩
    exact (if_pos (by omega)).symm

end

/-- The request for what was saved. -/
def requestOf (saved : Saved) : Request :=
  ⟨saved.input_hash, saved.features_hash, saved.input_byte_length⟩

theorem asked_image : Asked (imageOf env saved) (requestOf saved) (metadataOf env saved) where
  valid := by
    refine ⟨rfl, ?_, ?_⟩
    · change ModuleType.ofExportsKind saved.exports_kind ≠ .none
      cases saved.exports_kind <;> nofun
    · change saved.output_code.encoding = _ ∨ saved.output_code.encoding = _
        ∨ saved.output_code.encoding = _
      cases saved.output_code with
      | utf8 bytes => exact .inl rfl
      | string str =>
        cases str with
        | utf8 bytes => exact .inl rfl
        | utf16 units => exact .inr (.inl rfl)
        | empty => exact .inr (.inr rfl)
        | latin1 chars => exact .inr (.inr rfl)
  begins := ⟨saved.output_code.byteSlice ++ (saved.sourcemap ++ saved.esm_record), by
    simp only [imageOf, append_assoc]⟩
  input_hash := rfl
  input_byte_length := rfl
  features_hash := rfl

/-- The entry has what was saved. -/
structure Same (saved : Saved) (entry : Entry) : Prop where
  output_code : SameCode entry.output_code saved.output_code
  sourcemap : entry.sourcemap = saved.sourcemap
  esm_record : entry.esm_record = saved.esm_record
  module_type : entry.metadata.module_type = .ofExportsKind saved.exports_kind

/-- The image is read back when the text is not too long for the engine. -/
theorem load_image_iff (hlength : (imageOf env saved).length < 2 ^ 63) :
    (∃ entry, fromFileWithCacheFilePath env (imageOf env saved) (requestOf saved) = .ok entry
      ∧ Same saved entry) ↔ Fits env saved.output_code := by
  simp only [fromFile_eq_ok_iff]
  constructor
  · rintro ⟨entry, ⟨m, hak, hld⟩, -⟩
    obtain rfl := begins_unique hak.valid asked_image.valid hak.begins asked_image.begins
    exact fits_of_outputLoads hlength hld.output
  · intro hfits
    obtain ⟨code, hcd, hsm⟩ := outputLoads_image hlength hfits
    obtain ⟨hot, hsr, -⟩ := toNat_lengths hlength
    have him := length_imageOf env saved
    refine ⟨⟨metadataOf env saved, code, saved.sourcemap, saved.esm_record⟩,
      ⟨_, asked_image, ?_⟩, ⟨hsm, rfl, rfl, rfl⟩⟩
    have hsz : neededSize (metadataOf env saved) ≤ (imageOf env saved).length := by
      unfold neededSize
      omega
    exact ⟨by omega, hsz, rfl, hcd, sourcemapLoads_image hlength, recordLoads_image hlength⟩

/-- A file that is saved is the metadata and the three parts, and is loaded as what was saved. -/
def Stores (env : Env) (saved : Saved) (preallocated : Bool) (system : List (Option ℕ)) : Prop :=
  ∀ file, save env saved preallocated system = .ok file → file = imageOf env saved
    ∧ ∃ entry, fromFileWithCacheFilePath env file (requestOf saved) = .ok entry
      ∧ Same saved entry

/-- The cache returns what was stored where the writes of a save that ends well repeat the
beginning of the file only where it is due, and the string can be made again. -/
theorem stores_iff (env : Env) (saved : Saved) (preallocated : Bool)
    (system : List (Option ℕ)) :
    Stores env saved preallocated system ↔ ((imageOf env saved).length < 2 ^ 63 →
      Completes (imageOf env saved).length system 0 →
        Repeats (imageOf env saved) system 0 ∧ Fits env saved.output_code) := by
  unfold Stores
  by_cases hlength : (imageOf env saved).length < 2 ^ 63
  · have hvecs := flatten_vecs env saved
    simp only [save_eq_ok_iff hlength, hlength, true_implies]
    have hblank : (preallocate_file preallocated (imageOf env saved).length).length
        ≤ max 0 (imageOf env saved).length := by
      unfold preallocate_file
      split_ifs <;> simp
    generalize preallocate_file preallocated (imageOf env saved).length = blank at hblank ⊢
    have hfinal : ∀ {file},
        writeAll (vecs env saved) (imageOf env saved).length system 0 blank = .ok file →
        (file = imageOf env saved ↔ Repeats (imageOf env saved) system 0) := by
      intro file hfile
      rw [writeAll_eq_iff hvecs (Nat.zero_le _) hblank hfile]
      exact and_iff_right rfl
    have hok : (∃ file, writeAll (vecs env saved) (imageOf env saved).length system 0 blank
        = .ok file) ↔ Completes (imageOf env saved).length system 0 := writeAll_isOk hvecs
    constructor
    · intro h hcompletes
      obtain ⟨file, hfile⟩ := hok.2 hcompletes
      have hstored := h file hfile
      have himage := hstored.1
      rw [himage] at hstored
      exact ⟨(hfinal hfile).1 himage, (load_image_iff hlength).1 hstored.2⟩
    · intro h file hfile
      obtain ⟨hrepeats, hfits⟩ := h (hok.1 ⟨file, hfile⟩)
      have himage := (hfinal hfile).2 hrepeats
      rw [himage]
      exact ⟨rfl, (load_image_iff hlength).2 hfits⟩
  · refine ⟨fun _ h => absurd h hlength, fun _ file hfile => ?_⟩
    unfold save at hfile
    simp only [← length_imageOf env saved] at hfile
    rw [if_pos (by omega)] at hfile
    cases hfile

/-- An output of one byte. -/
def shortSaved : Saved where
  input_byte_length := 1
  input_hash := 2
  features_hash := 3
  sourcemap := []
  esm_record := []
  output_code := .string (.latin1 [97])
  exports_kind := .cjs

/-- A first write of one byte: what is left is written from the beginning of the vectors. -/
theorem not_stores_short :
    ¬ ∃ hash, Stores ⟨hash, 100, fun _ => 0, false⟩ shortSaved false [some 1] := by
  rintro ⟨hash, h⟩
  generalize (⟨hash, 100, fun _ => 0, false⟩ : Env) = env at h
  have hlength : (imageOf env shortSaved).length = 103 := length_imageOf env shortSaved
  have hwrites : writeAll (vecs env shortSaved) (imageOf env shortSaved).length [some 1] 0 []
      = .ok (pwrite (pwrite [] 0 ((imageOf env shortSaved).take 1)) 1
        (imageOf env shortSaved)) := by
    simp [writeAll, flatten_vecs, hlength]
  obtain ⟨hfile, -⟩ := h _ ((save_eq_ok_iff (by omega)).2 hwrites)
  have hsize := congrArg List.length hfile
  have hfirst : (pwrite [] 0 ((imageOf env shortSaved).take 1)).length = 1 := by
    simp [length_pwrite (Nat.zero_le _), hlength]
  rw [length_pwrite (by omega), hfirst, hlength] at hsize
  omega

end Entry

end Cruller.Jsc
