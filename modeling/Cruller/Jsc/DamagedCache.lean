import Cruller.Jsc.CacheLoad

/-!
# Damaged files of the transpiler cache

Any bytes may be in a cached file. What is loaded from it has the hashes that its metadata records,
and nothing crashes, where the file has a module type and sizes that add up, and where the parts
whose hash the loader does not look at have it all the same (`Sound`): the output code in UTF-8 and
an empty one, the source map, and whatever has zero for its hash.
-/

namespace Cruller.Jsc.Entry

/-- The record of a module without one has no hash: its field is zero. -/
def RecordHash (env : Env) (metadata : Metadata) (esm_record : Bytes) : Prop :=
  esm_record = [] ∧ metadata.esm_record_hash = 0
    ∨ env.hash esm_record = metadata.esm_record_hash

/-- An entry that may be used: each part has the hash that is recorded for it. -/
structure Verified (env : Env) (request : Request) (entry : Entry) : Prop where
  input_hash : entry.metadata.input_hash = request.input_hash
  input_byte_length : entry.metadata.input_byte_length = request.input_stat_size
  features_hash : entry.metadata.features_hash = request.feature_hash
  output : env.hash entry.output_code.byteSlice = entry.metadata.output_hash
  sourcemap : env.hash entry.sourcemap = entry.metadata.sourcemap_hash
  record : RecordHash env entry.metadata entry.esm_record

/-- The bytes of the output code in a file, as far as the loader looks at them. -/
def OutputIn (env : Env) (metadata : Metadata) (file output : Bytes) : Prop :=
  if metadata.output_byte_length.toNat = 0 then output = []
  else Located file metadata.output_byte_offset metadata.output_byte_length output
    ∧ match metadata.output_encoding with
      | .latin1 => output.length ≤ env.max_length ∧ Matches env metadata.output_hash output
      | .utf16 => 2 ∣ output.length ∧ output.length / 2 ≤ env.max_length
        ∧ Matches env metadata.output_hash output
      | .utf8 | .none | .other _ => True

/-- The hashes that the loader does not look at. -/
structure Unchecked (env : Env) (metadata : Metadata) (output sourcemap esm_record : Bytes) :
    Prop where
  output : metadata.output_encoding = .utf8 ∨ output = [] ∨ metadata.output_hash = 0 →
    env.hash output = metadata.output_hash
  sourcemap : env.hash sourcemap = metadata.sourcemap_hash
  record : esm_record = [] ∨ metadata.esm_record_hash = 0 →
    RecordHash env metadata esm_record

/-- A file from which nothing wrong can be read. -/
structure Sound (env : Env) (file : Bytes) (request : Request) : Prop where
  module_type : ¬ NoModuleType file
  size : ∀ metadata, Asked file request metadata → neededSize metadata < 2 ^ 64
  half_unit : ∀ metadata, Asked file request metadata → neededSize metadata ≤ file.length →
    ¬ HalfUnit env metadata
  unchecked : ∀ metadata output sourcemap esm_record, Asked file request metadata →
    neededSize metadata ≤ file.length → OutputIn env metadata file output →
    SourcemapLoads metadata file sourcemap → RecordLoads env metadata file esm_record →
    Unchecked env metadata output sourcemap esm_record

variable {env : Env} {metadata : Metadata} {file : Bytes} {request : Request}

theorem encode_unitsOf : ∀ {bytes : Bytes}, 2 ∣ bytes.length →
    (unitsOf bytes).flatMap Layout.u16.encode = bytes
  | [], _ => rfl
  | [_], h => absurd (Nat.le_of_dvd Nat.one_pos h) (by simp)
  | low :: high :: bytes, h => by
    rw [unitsOf, List.flatMap_cons, encode_unitsOf (by simpa using h), Layout.exact_u16 _ rfl]
    rfl

theorem exists_outputLoads_iff (hvl : metadata.Valid) {output : Bytes} :
    (∃ code, OutputLoads env metadata file code ∧ code.byteSlice = output) ↔
      OutputIn env metadata file output := by
  unfold OutputLoads OutputIn
  split_ifs
  · exact ⟨fun ⟨_, h, hby⟩ => by rw [← hby, h]; rfl, fun h => ⟨_, rfl, h.symm⟩⟩
  · rcases hvl.output_encoding with hen | hen | hen <;>
      simp only [hen]
    · constructor
      · rintro ⟨_, ⟨bytes, hlc, rfl⟩, rfl⟩
        exact ⟨hlc, trivial⟩
      · rintro ⟨hlc, -⟩
        exact ⟨_, ⟨output, hlc, rfl⟩, rfl⟩
    · constructor
      · rintro ⟨_, ⟨bytes, hlc, rfl, hev, hle, hmt⟩, rfl⟩
        change Located file _ _ ((unitsOf bytes).flatMap Layout.u16.encode) ∧ _
        rw [show (OutputCode.string (.utf16 (unitsOf bytes))).byteSlice = bytes from
          encode_unitsOf hev, encode_unitsOf hev]
        exact ⟨hlc, hev, hle, hmt⟩
      · rintro ⟨hlc, hev, hle, hmt⟩
        exact ⟨_, ⟨output, hlc, rfl, hev, hle, hmt⟩, encode_unitsOf hev⟩
    · constructor
      · rintro ⟨_, ⟨bytes, hlc, rfl, hle, hmt⟩, rfl⟩
        exact ⟨hlc, hle, hmt⟩
      · rintro ⟨hlc, hle, hmt⟩
        exact ⟨_, ⟨output, hlc, rfl, hle, hmt⟩, rfl⟩

/-- Only what was hashed is verified. -/
theorem verified_iff {entry : Entry} (hak : Asked file request metadata)
    (hld : Loads env metadata file entry) : Verified env request entry ↔
      Unchecked env metadata entry.output_code.byteSlice entry.sourcemap entry.esm_record := by
  obtain rfl := hld.metadata_eq
  constructor
  · intro h
    exact ⟨fun _ => h.output, h.sourcemap, fun _ => h.record⟩
  · intro h
    refine ⟨hak.input_hash, hak.input_byte_length, hak.features_hash, ?_, h.sourcemap, ?_⟩
    · have hin := (exists_outputLoads_iff hak.valid).1 ⟨_, hld.output, rfl⟩
      by_cases hcs : entry.metadata.output_encoding = .utf8
          ∨ entry.output_code.byteSlice = [] ∨ entry.metadata.output_hash = 0
      · exact h.output hcs
      · obtain ⟨hutf8, hem, hzr⟩ := not_or.1 hcs |>.imp_right not_or.1
        unfold OutputIn at hin
        split_ifs at hin
        · exact absurd hin hem
        rcases hak.valid.output_encoding with hen | hen | hen
        · exact absurd hen hutf8
        · rw [hen] at hin
          exact hin.2.2.2.resolve_left hzr
        · rw [hen] at hin
          exact hin.2.2.resolve_left hzr
    · have hrc := hld.record
      unfold RecordLoads at hrc
      split_ifs at hrc
      · exact h.record (.inl hrc)
      · rcases hrc.2 with hzr | hhs
        · exact h.record (.inr hzr)
        · exact .inr hhs

/-- What a file is loaded as has the hashes its metadata records, and no file crashes the loader,
where the file is sound. -/
theorem verified_of_file_iff (env : Env) (file : Bytes) (request : Request) :
    Ends (Verified env request) (· ≠ .panic) (fromFileWithCacheFilePath env file request) ↔
      Sound env file request := by
  constructor
  · intro h
    have hsafe : fromFileWithCacheFilePath env file request ≠ .error .panic := by
      intro hpanic
      rw [hpanic] at h
      exact h rfl
    rw [Ne, fromFile_eq_panic_iff, not_or] at hsafe
    obtain ⟨hmodule, hsizes⟩ := hsafe
    refine ⟨hmodule, fun m hasked => ?_, fun m hasked hle hhalf => ?_, ?_⟩
    · by_contra hlt
      exact hsizes ⟨m, hasked, .inl (not_lt.1 hlt)⟩
    · exact hsizes ⟨m, hasked, .inr ⟨hle, hhalf⟩⟩
    · intro m output sourcemap esm_record hasked hle houtput hsourcemap hrecord
      have hlt : neededSize m < 2 ^ 64 := by
        by_contra hlt
        exact hsizes ⟨m, hasked, .inl (not_lt.1 hlt)⟩
      obtain ⟨code, hcode, rfl⟩ := (exists_outputLoads_iff hasked.valid).2 houtput
      have hloads : Loads env m file ⟨m, code, sourcemap, esm_record⟩ :=
        ⟨hlt, hle, rfl, hcode, hsourcemap, hrecord⟩
      rw [fromFile_eq_ok_iff.2 ⟨m, hasked, hloads⟩] at h
      exact (verified_iff hasked hloads).1 h
  · intro h
    cases hfile : fromFileWithCacheFilePath env file request with
    | error e =>
      rintro rfl
      rcases fromFile_eq_panic_iff.1 hfile with hmodule | ⟨m, hasked, hsize | ⟨hle, hhalf⟩⟩
      · exact h.module_type hmodule
      · exact absurd (h.size m hasked) (not_lt.2 hsize)
      · exact h.half_unit m hasked hle hhalf
    | ok entry =>
      obtain ⟨m, hasked, hloads⟩ := fromFile_eq_ok_iff.1 hfile
      refine (verified_iff hasked hloads).2 ?_
      exact h.unchecked m _ _ _ hasked hloads.size_le
        ((exists_outputLoads_iff hasked.valid).1 ⟨_, hloads.output, rfl⟩) hloads.sourcemap
        hloads.record

/-- The right version, and a module type that there is not. -/
def damaged : Bytes := [20, 0, 0, 0, 3]

/-- Five bytes are enough to make the reader panic. -/
theorem not_verified_damaged : ¬ ∃ hash, Ends (Verified ⟨hash, 100, fun _ => 0, false⟩ ⟨1, 2, 3⟩)
    (· ≠ .panic) (fromFileWithCacheFilePath ⟨hash, 100, fun _ => 0, false⟩ damaged ⟨1, 2, 3⟩) := by
  rintro ⟨hash, h⟩
  exact h rfl

end Cruller.Jsc.Entry
