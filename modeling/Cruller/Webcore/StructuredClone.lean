import Cruller.Lib.Bytes
import Cruller.Lib.Utf8

/-!
# The structured clone of a `Blob`

A `Blob` is a view of a store: bytes in memory, a file, or an object of S3. It is written field by
field, and read back by another function that keeps the same layout by hand.
-/

namespace Cruller.Webcore

abbrev Bytes := List UInt8

/-- The units of a JavaScript string. -/
abbrev JSString := List UInt16

/-- An unpaired surrogate becomes the replacement character. -/
def toUTF8 (string : JSString) : Bytes := Utf8.bytes (Utf16.unitDecoder.text none string)

def cloneUTF8 (bytes : Bytes) : JSString := Utf16.units (Utf8.decoder.text none bytes)

abbrev SizeType := BitVec 52

def max_size : SizeType := BitVec.allOnes 52

/-- A file, by its descriptor or its path. -/
inductive PathOrFileDescriptor where
  | fd (fd : UInt32)
  | path (path : Bytes)
deriving DecidableEq

namespace Store

/-- Bytes in memory, with a length that is a `SizeType`. -/
structure Bytes where
  slice : Webcore.Bytes
  stored_name : Webcore.Bytes
  length_lt : slice.length < 2 ^ 52
deriving DecidableEq

def Bytes.init (bytes : Webcore.Bytes) : Bytes where
  slice := bytes.take (bytes.length % 2 ^ 52)
  stored_name := []
  length_lt := (List.length_take_le ..).trans_lt (Nat.mod_lt _ (by norm_num))

inductive SerializeTag where
  | file
  | bytes
  | empty
deriving DecidableEq

def SerializeTag.intFromEnum : SerializeTag → ℕ
  | file => 0
  | bytes => 1
  | empty => 2

def SerializeTag.enumFromInt : ℕ → Option SerializeTag
  | 0 => some file
  | 1 => some bytes
  | 2 => some empty
  | _ => none

end Store

/-- What a blob has its bytes from. -/
inductive Store where
  | bytes (data : Store.Bytes)
  | file (pathlike : PathOrFileDescriptor)
  | s3 (pathlike : Bytes)
deriving DecidableEq

namespace Store

def size : Store → SizeType
  | .bytes data => BitVec.ofNat 52 data.slice.length
  | _ => max_size

/-- A store of bytes; a file is not read. -/
def sharedView : Store → Webcore.Bytes
  | .bytes data => data.slice
  | _ => []

def s3Path : Store → Option Webcore.Bytes
  | .s3 pathlike => some pathlike
  | _ => none

end Store

/-- The writer passes on as many bytes as a `u32` counts. -/
def writeAll (bytes : Bytes) : Bytes := bytes.take (bytes.length % 2 ^ 32)

/-- A length, truncated to a `u32`, and the bytes. -/
def writeSlice (bytes : Bytes) : Bytes := leBytes 4 (bytes.length % 2 ^ 32) ++ writeAll bytes

def intFromBool (b : Bool) : ℕ := if b then 1 else 0

/-- The bytes that are written for a store. -/
def Store.serialize : Store → Webcore.Bytes
  | .file (.fd fd) => leBytes 1 0 ++ leBytes 4 fd.toNat
  | .file (.path path) => leBytes 1 1 ++ writeSlice path
  | .s3 pathlike => leBytes 1 1 ++ writeSlice pathlike
  | .bytes data => writeSlice data.slice ++ writeSlice data.stored_name

/-- A part of a store, with its type and name. -/
structure Blob where
  size : SizeType
  offset : SizeType
  store : Option Store
  content_type : Bytes
  content_type_was_set : Bool
  is_jsdom_file : Bool
  /-- By its bits. -/
  last_modified : UInt64
  /-- `none` is `.dead`. -/
  name : Option JSString
deriving DecidableEq

/-- What the file system and the table of file extensions tell. -/
structure Env where
  mime_type : PathOrFileDescriptor → Bytes
  /-- What `resolveFileStat` leaves in a file's store: whether it can be sought in, where that is
  known, and its size. -/
  resolveFileStat : PathOrFileDescriptor → Option Bool × SizeType

namespace Blob

/-- A blob without a store. -/
def initEmpty : Blob where
  size := 0
  offset := 0
  store := none
  content_type := []
  content_type_was_set := false
  is_jsdom_file := false
  last_modified := 0
  name := none

def init (bytes : Bytes) : Blob :=
  { initEmpty with
    size := BitVec.ofNat 52 bytes.length
    store := if bytes.length > 0 then some (.bytes (.init bytes)) else none }

variable (env : Env)

/-- A blob of the whole store. -/
def initWithStore (store : Store) : Blob :=
  { initEmpty with
    size := store.size
    store := some store
    content_type := match store with
      | .file pathlike => env.mime_type pathlike
      | _ => [] }

/-- The text `s3://`. -/
def s3_prefix : Bytes := [115, 51, 58, 47, 47]

/-- A blob of a file. -/
def findOrCreateFileFromPath : PathOrFileDescriptor → Blob
  | .path path =>
    if s3_prefix.isPrefixOf path then initWithStore env (.s3 path)
    else initWithStore env (.file (.path path))
  | .fd fd => initWithStore env (.file (.fd fd))

variable (this : Blob)

/-- The bytes of the store from the blob's offset on, as many as its size. -/
def sharedView : Bytes :=
  match this.store with
  | none => []
  | some store =>
    if this.size = 0 then []
    else
      let slice_ := store.sharedView.drop (min this.offset.toNat store.sharedView.length)
      slice_.take (min slice_.length this.size.toNat)

/-- The path of an S3 object. -/
def s3Path : Option Bytes := this.store.bind Store.s3Path

/-- `S3.path` also takes the protocol, the query and the slashes around it off the path of an S3
object; nothing here depends on how much of the path the name is. -/
def getFileName : Option Bytes :=
  match this.store with
  | some (.bytes data) => if data.stored_name.length > 0 then some data.stored_name else none
  | some (.file (.path path)) => some path
  | some (.s3 pathlike) => some pathlike
  | _ => none

def getNameString : Option JSString := this.name.or (this.getFileName.map cloneUTF8)

/-- Fails where a view begins behind the end of the bytes: the size would be negative. -/
def resolveSize : Option Blob :=
  match this.store with
  | some (.bytes data) =>
    let store_size := (Store.bytes data).size
    if store_size = max_size then some this
    else if store_size < this.offset then none
    else some { this with
      offset := if store_size < this.offset then store_size else this.offset
      size := store_size - this.offset }
  | some (.file pathlike) =>
    let (seekable, store_size) := env.resolveFileStat pathlike
    if seekable ≠ none ∧ store_size ≠ max_size then
      some { this with
        offset := if store_size < this.offset then store_size else this.offset
        size := if store_size < this.offset then 0 else store_size - this.offset }
    else if seekable = some false then some this
    else some { this with size := 0 }
  | _ => some { this with size := 0 }

def serialization_version : ℕ := 3

def storeTag : Store.SerializeTag :=
  match this.store with
  | some (.file _) => .file
  | some _ => .bytes
  | none => .empty

/-- The bytes that are written, and the `Blob` afterwards. -/
def onStructuredCloneSerialize : Option (Bytes × Blob) := do
  let before := leBytes 1 serialization_version ++ leBytes 8 this.offset.toNat
    ++ writeSlice this.content_type ++ leBytes 1 (intFromBool this.content_type_was_set)
    ++ leBytes 1 this.storeTag.intFromEnum
  let this ← this.resolveSize env
  let after := (this.store.map Store.serialize).getD []
    ++ leBytes 1 (intFromBool this.is_jsdom_file) ++ leBytes 8 this.last_modified.toNat
  if this.is_jsdom_file then
    match this.getNameString with
    | some name =>
      return (before ++ after ++ writeSlice (toUTF8 name), { this with name := some name })
    | none => return (before ++ after ++ leBytes 4 0, this)
  else return (before ++ after, this)

abbrev Read := StateT Bytes Option

/-- Some bytes from the front. -/
def readSlice (len : ℕ) : Read Bytes := fun bytes =>
  if len ≤ bytes.length then some (bytes.take len, bytes.drop len) else none

def readInt (size : ℕ) : Read ℕ := do
  return leValue (← readSlice size)

def readStoreTag : Read Store.SerializeTag := do
  let tag ← readInt 1
  StateT.lift (Store.SerializeTag.enumFromInt tag)

/-- An empty `Blob` has no store that could keep the name. -/
def setStoredName (blob : Blob) (name : Bytes) : Blob :=
  match blob.store with
  | some (.bytes data) => { blob with store := some (.bytes { data with stored_name := name }) }
  | _ => blob

/-- A store of bytes. -/
def readBytes (version : ℕ) : Read Blob := do
  let bytes_len ← readInt 4
  let bytes ← readSlice bytes_len
  let blob := init bytes
  if version = 1 then return blob
  let name_len ← readInt 4
  let name ← readSlice name_len
  return blob.setStoredName name

/-- A store of a file. -/
def readFile : Read Blob := do
  let pathlike_tag ← readInt 1
  match pathlike_tag with
  | 0 =>
    let fd ← readInt 4
    return findOrCreateFileFromPath env (.fd (.ofNat fd))
  | 1 =>
    let path_len ← readInt 4
    let path ← readSlice path_len
    return findOrCreateFileFromPath env (.path path)
  | _ => StateT.lift none

def readStore (version : ℕ) : Store.SerializeTag → Read Blob
  | .bytes => readBytes version
  | .file => readFile env
  | .empty => return initEmpty

/-- What later versions write behind the store. -/
def readTrailer (version : ℕ) (blob : Blob) : Read Blob := do
  if version = 1 then return blob
  let is_jsdom_file ← readInt 1
  let last_modified ← readInt 8
  let blob := { blob with
    is_jsdom_file := is_jsdom_file ≠ 0, last_modified := .ofNat last_modified }
  if version = 2 then return blob
  if blob.is_jsdom_file then
    let name_len ← readInt 4
    let name_bytes ← readSlice name_len
    return { blob with name := some (cloneUTF8 name_bytes) }
  else return blob

/-- The offset is put inside the store. -/
def clamp (blob : Blob) (offset : ℕ) : Blob :=
  match blob.store with
  | some store =>
    let blob := { blob with offset := BitVec.ofNat 52 offset }
    let store_size := store.size
    if store_size ≠ max_size then
      let offset := if store_size < blob.offset then store_size else blob.offset
      { blob with
        offset := offset
        size := if store_size - offset < blob.size then store_size - offset else blob.size }
    else blob
  | none => { blob with offset := 0 }

/-- The blob that was written. -/
def onStructuredCloneDeserialize : Read Blob := do
  let version ← readInt 1
  let offset ← readInt 8
  let content_type_len ← readInt 4
  let content_type ← readSlice content_type_len
  let content_type_was_set ← readInt 1
  let store_tag ← readStoreTag
  let blob ← readStore env version store_tag
  let blob ← readTrailer version blob
  let blob := clamp blob offset
  if content_type.length > 0 then
    return { blob with
      content_type := content_type, content_type_was_set := content_type_was_set ≠ 0 }
  else return blob

end Blob

end Cruller.Webcore
