import Cruller.Lib.Checked
import Cruller.Jsc.MetadataCodec

/-!
# What a cached file is loaded as

For each part of a file, which bytes are loaded, and when none are. The source map is read whatever
its hash is, and so is the output code in UTF-8.
-/

namespace Cruller.Jsc.Entry

open List Checked

variable {env : Env} {metadata : Metadata} {file part : Bytes} {offset length : UInt64}

/-- The part lies at this offset, with this length. -/
structure Located (file : Bytes) (offset length : UInt64) (part : Bytes) : Prop where
  offset_lt : offset.toNat < 2 ^ 63
  lies : Lies file offset.toNat part
  length_eq : part.length = length.toNat

theorem located_iff : Located file offset length part ↔ offset.toNat < 2 ^ 63
    ∧ part = (file.drop offset.toNat).take length.toNat ∧ part.length = length.toNat := by
  constructor
  · rintro ⟨hof, hls, hlength⟩
    refine ⟨hof, ?_, hlength⟩
    rw [← hlength]
    exact prefix_iff_eq_take.1 hls
  · rintro ⟨hof, hpr, hlength⟩
    refine ⟨hof, ?_, hlength⟩
    rw [hpr]
    exact take_prefix _ _

/-- The bytes have the hash that was recorded, if one was. -/
def Matches (env : Env) (recorded : UInt64) (bytes : Bytes) : Prop :=
  recorded = 0 ∨ env.hash bytes = recorded

variable {request : Request} {bytes : Bytes} {u : Unit}

theorem fileReadAllAt_eq_ok_iff {n : ℕ} :
    fileReadAllAt file n offset = .ok bytes ↔
      offset.toNat < 2 ^ 63 ∧ bytes = (file.drop offset.toNat).take n := by
  unfold fileReadAllAt
  split_ifs with h
  · exact ⟨nofun, fun h' => absurd h'.1 (not_lt.2 h)⟩
  · exact ⟨fun h' => ⟨not_le.1 h, (Except.ok.inj h').symm⟩, fun h' => by rw [h'.2]⟩

theorem fileReadAllAt_ne_panic {n : ℕ} : fileReadAllAt file n offset ≠ .error .panic := by
  unfold fileReadAllAt
  split_ifs <;> nofun

/-- A part is read when it lies in the file. -/
theorem readPart_eq_ok_iff :
    readPart file length offset = .ok part ↔ Located file offset length part := by
  unfold readPart
  simp only [bind_eq_ok_iff, fileReadAllAt_eq_ok_iff, ite_throw_eq_ok_iff, pure_eq_ok_iff,
    not_not, located_iff]
  constructor
  · rintro ⟨bytes, ⟨hof, hby⟩, hlength, rfl⟩
    exact ⟨hof, hby, hlength⟩
  · rintro ⟨hof, hby, hlength⟩
    exact ⟨part, ⟨hof, hby⟩, hlength, rfl⟩

theorem readPart_ne_panic : readPart file length offset ≠ .error .panic := by
  unfold readPart
  rw [Ne, bind_eq_error_iff, or_iff_right fileReadAllAt_ne_panic]
  simp only [ite_throw_eq_error_iff]
  rintro ⟨bytes, -, ⟨-, h⟩ | ⟨-, h⟩⟩ <;> cases h

theorem checkHash_eq_ok_iff {recorded : UInt64} :
    checkHash env recorded bytes = .ok u ↔ Matches env recorded bytes := by
  unfold checkHash Matches
  rw [ite_throw_eq_ok_iff, pure_eq_ok_iff]
  tauto

theorem checkHash_ne_panic {recorded : UInt64} :
    checkHash env recorded bytes ≠ .error .panic := by
  unfold checkHash
  split_ifs <;> nofun

theorem loadLatin1_eq_ok_iff {str : BunString} (hpos : metadata.output_byte_length.toNat ≠ 0) :
    loadLatin1 env metadata file = .ok str ↔ ∃ chars, str = .latin1 chars
      ∧ Located file metadata.output_byte_offset metadata.output_byte_length chars
      ∧ chars.length ≤ env.max_length ∧ Matches env metadata.output_hash chars := by
  unfold loadLatin1
  simp only [bind_eq_ok_iff, fileReadAllAt_eq_ok_iff, checkHash_eq_ok_iff, ite_throw_eq_ok_iff,
    pure_eq_ok_iff, not_not, located_iff]
  constructor
  · rintro ⟨bytes, ⟨hof, hby⟩, -, hmt, hlength, rfl⟩
    have hle : metadata.output_byte_length.toNat ≤ env.max_length := by
      by_contra hlt
      rw [if_neg hlt, take_zero] at hby
      rw [hby] at hlength
      exact hpos hlength.symm
    rw [if_pos hle] at hby hmt ⊢
    rw [hlength, Nat.sub_self, range_zero, map_nil, append_nil] at hmt ⊢
    exact ⟨bytes, rfl, ⟨hof, hby, hlength⟩, hlength.trans_le hle, hmt⟩
  · rintro ⟨chars, rfl, ⟨hof, hch, hlength⟩, hle, hmt⟩
    rw [hlength] at hle
    refine ⟨chars, ⟨hof, by rwa [if_pos hle]⟩, (), ?_, hlength, ?_⟩
    all_goals
      rw [if_pos hle, hlength, Nat.sub_self, range_zero, map_nil, append_nil]
    exact hmt

theorem loadLatin1_ne_panic : loadLatin1 env metadata file ≠ .error .panic := by
  unfold loadLatin1
  simp only [Ne, bind_eq_error_iff, or_iff_right fileReadAllAt_ne_panic,
    or_iff_right checkHash_ne_panic, ite_throw_eq_error_iff]
  rintro ⟨bytes, -, -, -, ⟨-, h⟩ | ⟨-, h⟩⟩ <;> cases h

theorem loadUtf16_eq_ok_iff {str : BunString} (hpos : metadata.output_byte_length.toNat ≠ 0) :
    loadUtf16 env metadata file = .ok str ↔ ∃ bytes, str = .utf16 (unitsOf bytes)
      ∧ Located file metadata.output_byte_offset metadata.output_byte_length bytes
      ∧ 2 ∣ bytes.length ∧ bytes.length / 2 ≤ env.max_length
      ∧ Matches env metadata.output_hash bytes := by
  unfold loadUtf16
  simp only [bind_eq_ok_iff, fileReadAllAt_eq_ok_iff, checkHash_eq_ok_iff, ite_throw_eq_ok_iff,
    pure_eq_ok_iff, not_not, located_iff]
  constructor
  · rintro ⟨-, bytes, ⟨hof, hby⟩, hlength, -, hmt, rfl⟩
    have hle : metadata.output_byte_length.toNat / 2 ≤ env.max_length := by
      by_contra hlt
      rw [if_neg hlt, take_zero] at hby
      rw [hby] at hlength
      exact hpos hlength.symm
    rw [if_pos hle] at hby
    have htk := congrArg List.length hby
    rw [List.length_take, hlength] at htk
    have hev : 2 * (metadata.output_byte_length.toNat / 2)
        = metadata.output_byte_length.toNat := by omega
    rw [hev] at hby
    exact ⟨bytes, rfl, ⟨hof, hby, hlength⟩, by omega, by omega, hmt⟩
  · rintro ⟨bytes, rfl, ⟨hof, hby, hlength⟩, hev, hle, hmt⟩
    rw [hlength] at hev hle
    refine ⟨by omega, bytes, ⟨hof, ?_⟩, hlength, (), hmt, rfl⟩
    rwa [if_pos hle, Nat.mul_div_cancel' hev]

theorem loadUtf16_eq_panic_iff : loadUtf16 env metadata file = .error .panic ↔
    env.allow_assert = true ∧ metadata.output_byte_length.toNat / 2 = 0 := by
  unfold loadUtf16
  simp only [ite_throw_eq_error_iff, bind_eq_error_iff, or_iff_right fileReadAllAt_ne_panic,
    or_iff_right checkHash_ne_panic]
  constructor
  · rintro (⟨h, -⟩ | ⟨-, bytes, -, ⟨-, h⟩ | ⟨-, -, -, h⟩⟩)
    · exact h
    · cases h
    · cases h
  · exact fun h => .inl ⟨h, trivial⟩

/-- The output that a file has for its metadata. -/
def OutputLoads (env : Env) (metadata : Metadata) (file : Bytes) (output_code : OutputCode) :
    Prop :=
  if metadata.output_byte_length.toNat = 0 then output_code = .string .empty
  else ∃ bytes, Located file metadata.output_byte_offset metadata.output_byte_length bytes
    ∧ match metadata.output_encoding with
      | .utf8 => output_code = .utf8 bytes
      | .latin1 => output_code = .string (.latin1 bytes) ∧ bytes.length ≤ env.max_length
        ∧ Matches env metadata.output_hash bytes
      | .utf16 => output_code = .string (.utf16 (unitsOf bytes)) ∧ 2 ∣ bytes.length
        ∧ bytes.length / 2 ≤ env.max_length ∧ Matches env metadata.output_hash bytes
      | .none | .other _ => False

/-- The output is read when the file has it. -/
theorem loadOutput_eq_ok_iff {output_code : OutputCode} :
    loadOutput env metadata file = .ok output_code ↔
      OutputLoads env metadata file output_code := by
  unfold loadOutput OutputLoads
  have hzr : metadata.output_byte_length = 0 ↔ metadata.output_byte_length.toNat = 0 :=
    UInt64.toNat_inj.symm
  by_cases hpos : metadata.output_byte_length.toNat = 0
  · rw [if_pos (hzr.2 hpos), if_pos hpos, pure_eq_ok_iff, eq_comm]
  · rw [if_neg (mt hzr.1 hpos), if_neg hpos]
    cases metadata.output_encoding with
    | none => exact ⟨nofun, fun ⟨_, _, h⟩ => h.elim⟩
    | other n => exact ⟨nofun, fun ⟨_, _, h⟩ => h.elim⟩
    | utf8 =>
      simp only [map_eq_ok_iff, readPart_eq_ok_iff]
      exact exists_congr fun bytes => and_congr_right fun _ => eq_comm
    | latin1 =>
      simp only [map_eq_ok_iff, loadLatin1_eq_ok_iff hpos]
      constructor
      · rintro ⟨_, ⟨chars, rfl, hlc, hrs⟩, rfl⟩
        exact ⟨chars, hlc, rfl, hrs⟩
      · rintro ⟨chars, hlc, rfl, hrs⟩
        exact ⟨_, ⟨chars, rfl, hlc, hrs⟩, rfl⟩
    | utf16 =>
      simp only [map_eq_ok_iff, loadUtf16_eq_ok_iff hpos]
      constructor
      · rintro ⟨_, ⟨bytes, rfl, hlc, hrs⟩, rfl⟩
        exact ⟨bytes, hlc, rfl, hrs⟩
      · rintro ⟨bytes, hlc, rfl, hrs⟩
        exact ⟨_, ⟨bytes, rfl, hlc, hrs⟩, rfl⟩

/-- The output code is a single byte of UTF-16. -/
def HalfUnit (env : Env) (metadata : Metadata) : Prop :=
  env.allow_assert = true ∧ metadata.output_encoding = .utf16
    ∧ metadata.output_byte_length.toNat = 1

theorem loadOutput_eq_panic_iff (hvl : metadata.Valid) :
    loadOutput env metadata file = .error .panic ↔ HalfUnit env metadata := by
  have hzr : metadata.output_byte_length = 0 ↔ metadata.output_byte_length.toNat = 0 :=
    UInt64.toNat_inj.symm
  unfold loadOutput HalfUnit
  by_cases hpos : metadata.output_byte_length.toNat = 0
  · rw [if_pos (hzr.2 hpos), hpos]
    exact ⟨nofun, fun h => nomatch h.2.2⟩
  · rw [if_neg (mt hzr.1 hpos)]
    rcases hvl.output_encoding with hen | hen | hen <;> rw [hen]
    · simp only [map_eq_error_iff, readPart_ne_panic, reduceCtorEq, false_and, and_false]
    · simp only [map_eq_error_iff, loadUtf16_eq_panic_iff, true_and]
      exact and_congr_right fun _ => by omega
    · simp only [map_eq_error_iff, loadLatin1_ne_panic, reduceCtorEq, false_and, and_false]

/-- The source map that it has. -/
def SourcemapLoads (metadata : Metadata) (file sourcemap : Bytes) : Prop :=
  if metadata.sourcemap_byte_length.toNat = 0 then sourcemap = []
  else Located file metadata.sourcemap_byte_offset metadata.sourcemap_byte_length sourcemap

theorem loadSourcemap_eq_ok_iff {sourcemap : Bytes} :
    loadSourcemap metadata file = .ok sourcemap ↔ SourcemapLoads metadata file sourcemap := by
  unfold loadSourcemap SourcemapLoads
  have hpos : metadata.sourcemap_byte_length > 0 ↔ ¬ metadata.sourcemap_byte_length.toNat = 0 := by
    rw [gt_iff_lt, UInt64.lt_iff_toNat_lt]
    exact Nat.pos_iff_ne_zero
  by_cases hzr : metadata.sourcemap_byte_length.toNat = 0
  · rw [if_neg (mt hpos.1 (not_not.2 hzr)), if_pos hzr, pure_eq_ok_iff, eq_comm]
  · rw [if_pos (hpos.2 hzr), if_neg hzr, readPart_eq_ok_iff]

theorem loadSourcemap_ne_panic : loadSourcemap metadata file ≠ .error .panic := by
  unfold loadSourcemap
  split_ifs
  · exact readPart_ne_panic
  · nofun

/-- The module record that it has. -/
def RecordLoads (env : Env) (metadata : Metadata) (file esm_record : Bytes) : Prop :=
  if metadata.esm_record_byte_length.toNat = 0 then esm_record = []
  else Located file metadata.esm_record_byte_offset metadata.esm_record_byte_length esm_record
    ∧ Matches env metadata.esm_record_hash esm_record

theorem loadRecord_eq_ok_iff {esm_record : Bytes} :
    loadRecord env metadata file = .ok esm_record ↔
      RecordLoads env metadata file esm_record := by
  unfold loadRecord RecordLoads
  have hpos : metadata.esm_record_byte_length > 0
      ↔ ¬ metadata.esm_record_byte_length.toNat = 0 := by
    rw [gt_iff_lt, UInt64.lt_iff_toNat_lt]
    exact Nat.pos_iff_ne_zero
  by_cases hzr : metadata.esm_record_byte_length.toNat = 0
  · rw [if_neg (mt hpos.1 (not_not.2 hzr)), if_pos hzr, pure_eq_ok_iff, eq_comm]
  · rw [if_pos (hpos.2 hzr), if_neg hzr]
    simp only [bind_eq_ok_iff, readPart_eq_ok_iff, checkHash_eq_ok_iff, pure_eq_ok_iff]
    constructor
    · rintro ⟨record, hlc, -, hmt, rfl⟩
      exact ⟨hlc, hmt⟩
    · rintro ⟨hlc, hmt⟩
      exact ⟨esm_record, hlc, (), hmt, rfl⟩

theorem loadRecord_ne_panic : loadRecord env metadata file ≠ .error .panic := by
  unfold loadRecord
  split_ifs
  · simp only [Ne, bind_eq_error_iff, readPart_ne_panic, checkHash_ne_panic, false_or]
    rintro ⟨_, -, _, -, h⟩
    cases h
  · nofun

/-- How long the file must be. -/
def neededSize (metadata : Metadata) : ℕ :=
  Metadata.size + metadata.output_byte_length.toNat + metadata.sourcemap_byte_length.toNat

/-- The entry is what the file has, and nothing is missing. -/
structure Loads (env : Env) (metadata : Metadata) (file : Bytes) (entry : Entry) : Prop where
  size_lt : neededSize metadata < 2 ^ 64
  size_le : neededSize metadata ≤ file.length
  metadata_eq : entry.metadata = metadata
  output : OutputLoads env metadata file entry.output_code
  sourcemap : SourcemapLoads metadata file entry.sourcemap
  record : RecordLoads env metadata file entry.esm_record

theorem checkSize_eq_ok_iff : checkSize metadata file = .ok u ↔
    neededSize metadata < 2 ^ 64 ∧ neededSize metadata ≤ file.length := by
  unfold checkSize
  simp only [ite_throw_eq_ok_iff, pure_eq_ok_iff, and_true, not_le, not_lt, ge_iff_le]
  rfl

theorem checkSize_eq_panic_iff : checkSize metadata file = .error .panic ↔
    2 ^ 64 ≤ neededSize metadata := by
  unfold checkSize
  simp only [ite_throw_eq_error_iff, ge_iff_le]
  constructor
  · rintro (⟨h, -⟩ | ⟨-, ⟨-, h⟩ | ⟨-, h⟩⟩)
    · exact h
    · cases h
    · cases h
  · exact fun h => .inl ⟨h, trivial⟩

/-- An entry is read when the file has it. -/
theorem load_eq_ok_iff {entry : Entry} :
    load env metadata file = .ok entry ↔ Loads env metadata file entry := by
  unfold load
  simp only [bind_eq_ok_iff, checkSize_eq_ok_iff, loadOutput_eq_ok_iff, loadSourcemap_eq_ok_iff,
    loadRecord_eq_ok_iff, pure_eq_ok_iff]
  constructor
  · rintro ⟨-, ⟨hlt, hle⟩, output_code, hot, sourcemap, hsr, record, hrc, rfl⟩
    exact ⟨hlt, hle, rfl, hot, hsr, hrc⟩
  · rintro ⟨hlt, hle, rfl, hot, hsr, hrc⟩
    exact ⟨(), ⟨hlt, hle⟩, _, hot, _, hsr, _, hrc, rfl⟩

/-- Sizes that overflow, or half a unit. -/
theorem load_eq_panic_iff (hvl : metadata.Valid) : load env metadata file = .error .panic ↔
    2 ^ 64 ≤ neededSize metadata
      ∨ neededSize metadata ≤ file.length ∧ HalfUnit env metadata := by
  unfold load
  simp only [bind_eq_error_iff, checkSize_eq_panic_iff, checkSize_eq_ok_iff,
    loadOutput_eq_panic_iff hvl, loadSourcemap_ne_panic, loadRecord_ne_panic, false_or]
  constructor
  · rintro (h | ⟨-, ⟨-, hle⟩, h | ⟨_, -, _, -, _, -, h⟩⟩)
    · exact .inl h
    · exact .inr ⟨hle, h⟩
    · cases h
  · rintro (h | ⟨hle, h⟩)
    · exact .inl h
    · by_cases hlt : neededSize metadata < 2 ^ 64
      · exact .inr ⟨(), ⟨hlt, hle⟩, .inl h⟩
      · exact .inl (not_lt.1 hlt)

/-- The file begins with valid metadata, of what is requested. -/
structure Asked (file : Bytes) (request : Request) (metadata : Metadata) : Prop where
  valid : metadata.Valid
  begins : metadata.encode <+: file
  input_hash : metadata.input_hash = request.input_hash
  input_byte_length : metadata.input_byte_length = request.input_stat_size
  features_hash : metadata.features_hash = request.feature_hash

theorem length_encode (m : Metadata) : m.encode.length = Metadata.size := by
  unfold Metadata.encode
  simp only [length_append, Layout.length_encode]
  rfl

theorem decode_file_iff :
    (∃ rest, Metadata.decode.run (file.take (Metadata.size * 2)) = .ok (metadata, rest)) ↔
      metadata.Valid ∧ metadata.encode <+: file := by
  simp only [Metadata.decode_eq_ok_iff, exists_and_left]
  refine and_congr_right fun _ => ?_
  constructor
  · rintro ⟨rest, h⟩
    exact (h ▸ prefix_append _ _).trans (List.take_prefix _ _)
  · intro h
    obtain ⟨rest, hrs⟩ : metadata.encode <+: file.take (Metadata.size * 2) := by
      rw [prefix_take_iff, length_encode]
      exact ⟨h, by decide⟩
    exact ⟨rest, hrs.symm⟩

theorem begins_unique {m m' : Metadata} (hm : m.Valid) (hm' : m'.Valid) (h : m.encode <+: file)
    (h' : m'.encode <+: file) : m = m' := by
  obtain ⟨rest, hrs⟩ := decode_file_iff.2 ⟨hm, h⟩
  obtain ⟨rest', hrs'⟩ := decode_file_iff.2 ⟨hm', h'⟩
  cases hrs.symm.trans hrs'
  rfl

theorem checkRequest_eq_ok_iff :
    checkRequest request metadata = .ok u ↔ metadata.input_hash = request.input_hash
      ∧ metadata.input_byte_length = request.input_stat_size
      ∧ metadata.features_hash = request.feature_hash := by
  unfold checkRequest
  simp only [ite_throw_eq_ok_iff, pure_eq_ok_iff, and_true, not_or, not_not, and_assoc]

theorem checkRequest_ne_panic :
    checkRequest request metadata ≠ .error .panic := by
  unfold checkRequest
  split_ifs <;> nofun

/-- The reader returns the entry that the file has. -/
theorem fromFile_eq_ok_iff {entry : Entry} :
    fromFileWithCacheFilePath env file request = .ok entry ↔
      ∃ metadata, Asked file request metadata ∧ Loads env metadata file entry := by
  unfold fromFileWithCacheFilePath
  simp only [bind_eq_ok_iff, checkRequest_eq_ok_iff, load_eq_ok_iff]
  constructor
  · rintro ⟨⟨m, rest⟩, hdc, -, ⟨hhs, hlength, hft⟩, hld⟩
    obtain ⟨hvl, hbg⟩ := decode_file_iff.1 ⟨rest, hdc⟩
    exact ⟨m, ⟨hvl, hbg, hhs, hlength, hft⟩, hld⟩
  · rintro ⟨m, hak, hld⟩
    obtain ⟨rest, hdc⟩ := decode_file_iff.2 ⟨hak.valid, hak.begins⟩
    exact ⟨(m, rest), hdc, (),
      ⟨hak.input_hash, hak.input_byte_length, hak.features_hash⟩, hld⟩

/-- The right version and a module type of no name. -/
def NoModuleType (file : Bytes) : Prop :=
  ∃ n, 2 < n ∧ Layout.u32.encode expected_version ++ Layout.u8.encode n <+: file

theorem decode_panic_iff :
    Metadata.decode.run (file.take (Metadata.size * 2)) = .error .panic ↔ NoModuleType file := by
  have hbg : ∀ n, Layout.u32.encode expected_version ++ Layout.u8.encode n
      <+: file.take (Metadata.size * 2)
        ↔ Layout.u32.encode expected_version ++ Layout.u8.encode n <+: file := by
    intro n
    rw [prefix_take_iff, length_append, Layout.length_encode, Layout.length_encode]
    exact and_iff_left (by decide)
  rw [Metadata.decode_eq_panic_iff]
  unfold NoModuleType
  simp only [← hbg]
  constructor
  · rintro ⟨n, rest, h, hn⟩
    exact ⟨n, hn, rest, by rw [h, append_assoc]⟩
  · rintro ⟨n, hn, rest, h⟩
    exact ⟨n, rest, by rw [← h, append_assoc], hn⟩

/-- The files that make the reader panic. -/
theorem fromFile_eq_panic_iff :
    fromFileWithCacheFilePath env file request = .error .panic ↔ NoModuleType file
      ∨ ∃ metadata, Asked file request metadata ∧ (2 ^ 64 ≤ neededSize metadata
        ∨ neededSize metadata ≤ file.length ∧ HalfUnit env metadata) := by
  unfold fromFileWithCacheFilePath
  simp only [bind_eq_error_iff, decode_panic_iff, checkRequest_ne_panic, checkRequest_eq_ok_iff,
    false_or]
  refine or_congr_right ?_
  constructor
  · rintro ⟨⟨m, rest⟩, hdc, -, ⟨hhs, hlength, hft⟩, hld⟩
    obtain ⟨hvl, hbg⟩ := decode_file_iff.1 ⟨rest, hdc⟩
    exact ⟨m, ⟨hvl, hbg, hhs, hlength, hft⟩, (load_eq_panic_iff hvl).1 hld⟩
  · rintro ⟨m, hak, hld⟩
    obtain ⟨rest, hdc⟩ := decode_file_iff.2 ⟨hak.valid, hak.begins⟩
    exact ⟨(m, rest), hdc, (),
      ⟨hak.input_hash, hak.input_byte_length, hak.features_hash⟩,
      (load_eq_panic_iff hak.valid).2 hld⟩

end Cruller.Jsc.Entry
