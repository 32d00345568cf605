import Cruller.Lib.Bytes

/-!
# The runtime transpiler cache

`jsc/RuntimeTranspilerCache.zig`: what the transpiler made of a source file is kept in a file of
its own, metadata of a fixed size and behind it the output code, the source map and the module
record. `Entry.save` writes the four with a vectored write, and `fromFileWithCacheFilePath` reads
them back by the offsets and lengths the metadata has.

A file is its bytes, and `pwritev` writes as many of the bytes it is given as the system decides.
Memory is never short.
-/

namespace Cruller.Jsc

abbrev Bytes := List UInt8

/-- What ends a call of the cache; `panic` is a crash. -/
inductive CacheError where
  | panic
  | EndOfStream
  | StaleCache
  | InvalidModuleType
  | UnknownEncoding
  | InvalidInputHash
  | MismatchedFeatureHash
  | MissingData
  | InvalidHash
  | WriteFailed
  /-- An error of the system. -/
  | Unexpected
deriving DecidableEq

/-- The machine and the engine, as far as the cache depends on them. -/
structure Env where
  /-- `Wyhash` with the seed of the cache. -/
  hash : Bytes → UInt64
  /-- The longest string that `createUninitialized` makes. -/
  max_length : ℕ
  /-- What is in the memory of a string before it is written. -/
  uninitialized : ℕ → UInt8
  allow_assert : Bool

inductive ModuleType where
  | none
  | esm
  | cjs
deriving DecidableEq

def ModuleType.intFromEnum : ModuleType → UInt8
  | .none => 0
  | .esm => 1
  | .cjs => 2

/-- The enum has no other values. -/
def ModuleType.enumFromInt (n : UInt8) : Option ModuleType :=
  if n = 0 then some .none else if n = 1 then some .esm else if n = 2 then some .cjs else .none

/-- How the output code of an entry is stored. -/
inductive Encoding where
  | none
  | utf8
  | utf16
  | latin1
  | other (n : UInt8)
deriving DecidableEq

def Encoding.intFromEnum : Encoding → UInt8
  | .none => 0
  | .utf8 => 1
  | .utf16 => 2
  | .latin1 => 3
  | .other n => n

def Encoding.enumFromInt (n : UInt8) : Encoding :=
  if n = 0 then .none else if n = 1 then .utf8 else if n = 2 then .utf16
  else if n = 3 then .latin1 else .other n

inductive ExportsKind where
  | none
  | cjs
  | esm
  | esm_with_dynamic_fallback
  | esm_with_dynamic_fallback_from_cjs
deriving DecidableEq

def ModuleType.ofExportsKind : ExportsKind → ModuleType
  | .cjs => .cjs
  | _ => .esm

def expected_version : UInt32 := 20

/-- What stands at the beginning of a file. -/
structure Metadata where
  cache_version : UInt32 := expected_version
  output_encoding : Encoding := .none
  module_type : ModuleType := .none
  features_hash : UInt64 := 0
  input_byte_length : UInt64 := 0
  input_hash : UInt64 := 0
  output_byte_offset : UInt64 := 0
  output_byte_length : UInt64 := 0
  output_hash : UInt64 := 0
  sourcemap_byte_offset : UInt64 := 0
  sourcemap_byte_length : UInt64 := 0
  sourcemap_hash : UInt64 := 0
  esm_record_byte_offset : UInt64 := 0
  esm_record_byte_length : UInt64 := 0
  esm_record_hash : UInt64 := 0
deriving DecidableEq

namespace Metadata

def size : ℕ := 4 + 1 + 1 + 12 * 8

/-- The fields, one behind the other. -/
def encode (this : Metadata) : Bytes :=
  Layout.u32.encode this.cache_version
    ++ Layout.u8.encode this.module_type.intFromEnum
    ++ Layout.u8.encode this.output_encoding.intFromEnum
    ++ Layout.u64.encode this.features_hash
    ++ Layout.u64.encode this.input_byte_length
    ++ Layout.u64.encode this.input_hash
    ++ Layout.u64.encode this.output_byte_offset
    ++ Layout.u64.encode this.output_byte_length
    ++ Layout.u64.encode this.output_hash
    ++ Layout.u64.encode this.sourcemap_byte_offset
    ++ Layout.u64.encode this.sourcemap_byte_length
    ++ Layout.u64.encode this.sourcemap_hash
    ++ Layout.u64.encode this.esm_record_byte_offset
    ++ Layout.u64.encode this.esm_record_byte_length
    ++ Layout.u64.encode this.esm_record_hash

/-- Reads from the front of a file. -/
abbrev Reader := StateT Bytes (Except CacheError)

def readInt {α : Type} (L : Layout α) : Reader α := fun bytes =>
  if bytes.length < L.size then .error .EndOfStream
  else .ok (L.decode (bytes.take L.size), bytes.drop L.size)

/-- A version other than this one is stale. -/
def readVersion : Reader UInt32 := do
  let cache_version ← readInt .u32
  if cache_version ≠ expected_version then throw .StaleCache else return cache_version

def readModuleType : Reader ModuleType := do
  let n ← readInt .u8
  match ModuleType.enumFromInt n with
  | some module_type => return module_type
  | none => throw .panic

def checkModuleType : ModuleType → Reader Unit
  | .esm | .cjs => return ()
  | .none => throw .InvalidModuleType

def checkEncoding : Encoding → Reader Unit
  | .utf8 | .utf16 | .latin1 => return ()
  | .none | .other _ => throw .UnknownEncoding

/-- `decode`, behind the version and the module type. -/
def decodeRest (cache_version : UInt32) (module_type : ModuleType) : Reader Metadata := do
  let output_encoding ← readInt .u8
  let features_hash ← readInt .u64
  let input_byte_length ← readInt .u64
  let input_hash ← readInt .u64
  let output_byte_offset ← readInt .u64
  let output_byte_length ← readInt .u64
  let output_hash ← readInt .u64
  let sourcemap_byte_offset ← readInt .u64
  let sourcemap_byte_length ← readInt .u64
  let sourcemap_hash ← readInt .u64
  let esm_record_byte_offset ← readInt .u64
  let esm_record_byte_length ← readInt .u64
  let esm_record_hash ← readInt .u64
  checkModuleType module_type
  checkEncoding (.enumFromInt output_encoding)
  return {
    cache_version, module_type, output_encoding := .enumFromInt output_encoding, features_hash
    input_byte_length, input_hash, output_byte_offset, output_byte_length, output_hash
    sourcemap_byte_offset, sourcemap_byte_length, sourcemap_hash, esm_record_byte_offset
    esm_record_byte_length, esm_record_hash }

/-- The fields, checked as they are read. -/
def decode : Reader Metadata := do
  let cache_version ← readVersion
  let module_type ← readModuleType
  decodeRest cache_version module_type

end Metadata

/-- A string, as the engine has it. -/
inductive BunString where
  | empty
  | utf8 (bytes : Bytes)
  | latin1 (chars : Bytes)
  | utf16 (units : List UInt16)
deriving DecidableEq

def BunString.byteSlice : BunString → Bytes
  | .empty => []
  | .utf8 bytes => bytes
  | .latin1 chars => chars
  | .utf16 units => units.flatMap Layout.u16.encode

def BunString.encoding : BunString → Encoding
  | .utf8 _ => .utf8
  | .utf16 _ => .utf16
  | .empty | .latin1 _ => .latin1

/-- The output, as the transpiler hands it over. -/
inductive OutputCode where
  | utf8 (bytes : Bytes)
  | string (str : BunString)
deriving DecidableEq

def OutputCode.byteSlice : OutputCode → Bytes
  | .utf8 bytes => bytes
  | .string str => str.byteSlice

def OutputCode.encoding : OutputCode → Encoding
  | .utf8 _ => .utf8
  | .string str => str.encoding

/-- What is read from a file. -/
structure Entry where
  metadata : Metadata
  output_code : OutputCode
  sourcemap : Bytes
  esm_record : Bytes
deriving DecidableEq

/-- What `Entry.save` is called with. -/
structure Saved where
  input_byte_length : UInt64
  input_hash : UInt64
  features_hash : UInt64
  sourcemap : Bytes
  esm_record : Bytes
  output_code : OutputCode
  exports_kind : ExportsKind

namespace Entry

/-- Bytes written to a file at a position; a file that is too short is filled with zeros. -/
def pwrite (file : Bytes) (position : ℕ) (bytes : Bytes) : Bytes :=
  file.take position ++ List.replicate (position - file.length) 0 ++ bytes
    ++ file.drop (position + bytes.length)

/-- `while (position < end_position)`. `system` has for each call of `pwritev` how many bytes it
writes of those it is given, or `none` for an error; a call it does not have writes all. -/
def writeAll (vecs : List Bytes) (end_position : ℕ) : List (Option ℕ) → ℕ → Bytes →
    Except CacheError Bytes
  | [], position, file =>
    if position < end_position then .ok (pwrite file position vecs.flatten) else .ok file
  | written :: system, position, file =>
    if position < end_position then
      match written with
      | none => .error .Unexpected
      | some written =>
        let bytes := vecs.flatten.take written
        if bytes.length = 0 then .error .WriteFailed
        else writeAll vecs end_position system (position + bytes.length)
          (pwrite file position bytes)
    else .ok file

/-- The metadata of what is saved. -/
def metadataOf (env : Env) (saved : Saved) : Metadata where
  input_byte_length := saved.input_byte_length
  input_hash := saved.input_hash
  features_hash := saved.features_hash
  module_type := .ofExportsKind saved.exports_kind
  output_encoding := saved.output_code.encoding
  sourcemap_byte_length := .ofNat saved.sourcemap.length
  output_byte_offset := .ofNat Metadata.size
  output_byte_length := .ofNat saved.output_code.byteSlice.length
  sourcemap_byte_offset := .ofNat (Metadata.size + saved.output_code.byteSlice.length)
  esm_record_byte_offset :=
    .ofNat (Metadata.size + saved.output_code.byteSlice.length + saved.sourcemap.length)
  esm_record_byte_length := .ofNat saved.esm_record.length
  output_hash := env.hash saved.output_code.byteSlice
  sourcemap_hash := env.hash saved.sourcemap
  esm_record_hash := if saved.esm_record.length > 0 then env.hash saved.esm_record else 0

/-- The vectors: the metadata, and each part that is not empty. -/
def vecs (env : Env) (saved : Saved) : List Bytes :=
  (metadataOf env saved).encode
    :: [saved.output_code.byteSlice, saved.sourcemap, saved.esm_record].filter (·.length > 0)

/-- A new file: all zeros when it could be preallocated, and empty else. -/
def preallocate_file (preallocated : Bool) (length : ℕ) : Bytes :=
  if preallocated then List.replicate length 0 else []

/-- `Entry.save`, to the contents of the file. -/
def save (env : Env) (saved : Saved) (preallocated : Bool) (system : List (Option ℕ)) :
    Except CacheError Bytes :=
  let end_position := Metadata.size + saved.output_code.byteSlice.length
    + saved.sourcemap.length + saved.esm_record.length
  if end_position ≥ 2 ^ 63 then .error .panic
  else
    writeAll (vecs env saved) end_position system 0
      (preallocate_file preallocated end_position)

/-- Positions from `2 ^ 63` on are not positions in a file. -/
def fileReadAllAt (file : Bytes) (length : ℕ) (offset : UInt64) : Except CacheError Bytes :=
  if offset.toNat ≥ 2 ^ 63 then .error .Unexpected
  else .ok ((file.drop offset.toNat).take length)

/-- Two bytes a unit. -/
def unitsOf : Bytes → List UInt16
  | low :: high :: bytes => Layout.u16.decode [low, high] :: unitsOf bytes
  | _ => []

/-- A part of the file; all of it must be there. -/
def readPart (file : Bytes) (length offset : UInt64) : Except CacheError Bytes := do
  let bytes ← fileReadAllAt file length.toNat offset
  if bytes.length ≠ length.toNat then throw .MissingData else return bytes

/-- A hash of zero is not checked. -/
def checkHash (env : Env) (recorded : UInt64) (bytes : Bytes) : Except CacheError Unit :=
  if recorded ≠ 0 ∧ env.hash bytes ≠ recorded then throw .InvalidHash else return ()

/-- Without a string to read into, the string is dead and nothing is read. -/
def loadLatin1 (env : Env) (metadata : Metadata) (file : Bytes) : Except CacheError BunString := do
  let length := if metadata.output_byte_length.toNat ≤ env.max_length then
    metadata.output_byte_length.toNat else 0
  let bytes ← fileReadAllAt file length metadata.output_byte_offset
  let latin1 := bytes ++ (List.range (length - bytes.length)).map env.uninitialized
  checkHash env metadata.output_hash latin1
  if bytes.length ≠ metadata.output_byte_length.toNat then throw .MissingData
  else return .latin1 latin1

/-- An output in UTF-16. -/
def loadUtf16 (env : Env) (metadata : Metadata) (file : Bytes) : Except CacheError BunString := do
  let chars := metadata.output_byte_length.toNat / 2
  if env.allow_assert ∧ chars = 0 then throw .panic
  else
    let bytes ← fileReadAllAt file (if chars ≤ env.max_length then 2 * chars else 0)
      metadata.output_byte_offset
    if bytes.length ≠ metadata.output_byte_length.toNat then throw .MissingData
    else
      checkHash env metadata.output_hash bytes
      return .utf16 (unitsOf bytes)

/-- The output, decoded as its encoding says. -/
def loadOutput (env : Env) (metadata : Metadata) (file : Bytes) :
    Except CacheError OutputCode :=
  if metadata.output_byte_length = 0 then return .string .empty
  else
    match metadata.output_encoding with
    | .utf8 => .utf8 <$> readPart file metadata.output_byte_length metadata.output_byte_offset
    | .latin1 => .string <$> loadLatin1 env metadata file
    | .utf16 => .string <$> loadUtf16 env metadata file
    | .none | .other _ => throw .panic

/-- The source map, if there is one. -/
def loadSourcemap (metadata : Metadata) (file : Bytes) : Except CacheError Bytes :=
  if metadata.sourcemap_byte_length > 0 then
    readPart file metadata.sourcemap_byte_length metadata.sourcemap_byte_offset
  else return []

/-- The module record, if there is one. -/
def loadRecord (env : Env) (metadata : Metadata) (file : Bytes) : Except CacheError Bytes :=
  if metadata.esm_record_byte_length > 0 then do
    let esm_record ← readPart file metadata.esm_record_byte_length metadata.esm_record_byte_offset
    checkHash env metadata.esm_record_hash esm_record
    return esm_record
  else return []

/-- The size the file has to have; the sum is one of `u64`. -/
def checkSize (metadata : Metadata) (file : Bytes) : Except CacheError Unit :=
  let size := Metadata.size + metadata.output_byte_length.toNat
    + metadata.sourcemap_byte_length.toNat
  if size ≥ 2 ^ 64 then throw .panic
  else if file.length < size then throw .MissingData
  else return ()

/-- The parts that the metadata says. -/
def load (env : Env) (metadata : Metadata) (file : Bytes) : Except CacheError Entry := do
  checkSize metadata file
  let output_code ← loadOutput env metadata file
  let sourcemap ← loadSourcemap metadata file
  let esm_record ← loadRecord env metadata file
  return { metadata, output_code, sourcemap, esm_record }

end Entry

/-- What the file is asked for. -/
structure Request where
  input_hash : UInt64
  feature_hash : UInt64
  input_stat_size : UInt64

/-- The entry is one for this input and these features. -/
def checkRequest (request : Request) (metadata : Metadata) : Except CacheError Unit :=
  if metadata.input_hash ≠ request.input_hash
      ∨ metadata.input_byte_length ≠ request.input_stat_size then throw .InvalidInputHash
  else if metadata.features_hash ≠ request.feature_hash then throw .MismatchedFeatureHash
  else return ()

/-- The entry of a file, if it is of what is requested. -/
def fromFileWithCacheFilePath (env : Env) (file : Bytes) (request : Request) :
    Except CacheError Entry := do
  let (metadata, _) ← Metadata.decode.run (file.take (Metadata.size * 2))
  checkRequest request metadata
  Entry.load env metadata file

end Cruller.Jsc
