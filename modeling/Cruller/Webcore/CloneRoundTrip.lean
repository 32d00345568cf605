import Cruller.Webcore.StructuredClone

/-!
# When a `Blob` survives its structured clone

The size of a view is not written, so a `Blob` in memory comes back as the view from its offset to
the end of its store; the tag of a store in S3 is the one of bytes in memory. Everything else is
read back in step.
-/

namespace Cruller.Webcore

open List Option Nat Blob

theorem readSlice_append {bytes : Bytes} {n : ℕ} (h : bytes.length = n) (rest : Bytes) :
    readSlice n (bytes ++ rest) = some (bytes, rest) := by
  rw [readSlice, if_pos (by rw [length_append]; omega), take_left' h, drop_left' h]

theorem readInt_leBytes {n v : ℕ} (h : v < 256 ^ n) (rest : Bytes) :
    readInt n (leBytes n v ++ rest) = some (v, rest) := by
  have hsl := readSlice_append (leBytes_length n v) rest
  change (readSlice n (leBytes n v ++ rest)).bind (fun r => some (leValue r.1, r.2)) = _
  rw [hsl, bind_some, leValue_leBytes h]

theorem length_writeAll (bytes : Bytes) : (writeAll bytes).length = bytes.length % 2 ^ 32 := by
  simp [writeAll]
  omega

theorem readInt_writeSlice (bytes rest : Bytes) :
    readInt 4 (writeSlice bytes ++ rest) =
      some (bytes.length % 2 ^ 32, writeAll bytes ++ rest) := by
  rw [writeSlice, append_assoc]
  exact readInt_leBytes (mod_lt _ (by norm_num)) _

theorem readSlice_writeAll (bytes rest : Bytes) :
    readSlice (bytes.length % 2 ^ 32) (writeAll bytes ++ rest) = some (writeAll bytes, rest) :=
  readSlice_append (length_writeAll bytes) rest

theorem readStoreTag_intFromEnum (tag : Store.SerializeTag) (rest : Bytes) :
    readStoreTag (leBytes 1 tag.intFromEnum ++ rest) = some (tag, rest) := by
  have htag : tag.intFromEnum < 256 ^ 1 := by cases tag <;> decide
  simp only [readStoreTag, bind, StateT.bind, readInt_leBytes htag, bind_some]
  cases tag <;> rfl

theorem readBool (b : Bool) (rest : Bytes) :
    readInt 1 (leBytes 1 (intFromBool b) ++ rest) = some (intFromBool b, rest) :=
  readInt_leBytes (by cases b <;> decide) rest

@[simp]
theorem intFromBool_ne_zero (b : Bool) : decide (intFromBool b ≠ 0) = b := by
  cases b <;> rfl

namespace Blob

/-- The store that is read, and with it the `Blob` before its other fields are. -/
def cloneStore (this : Blob) : Blob :=
  match this.store with
  | some (.bytes data) => (init (writeAll data.slice)).setStoredName (writeAll data.stored_name)
  | _ => initEmpty

/-- The name of a `File` as it is written. -/
def writtenName (this : Blob) : Bytes := writeAll ((this.getNameString.map toUTF8).getD [])

/-- What comes back of a `Blob` in memory. -/
def clone (this : Blob) : Blob :=
  let blob := this.cloneStore
  let blob := { blob with
    is_jsdom_file := this.is_jsdom_file, last_modified := this.last_modified
    name := if this.is_jsdom_file then some (cloneUTF8 this.writtenName) else blob.name }
  let blob := blob.clamp this.offset.toNat
  if (writeAll this.content_type).length > 0 then
    { blob with
      content_type := writeAll this.content_type
      content_type_was_set := this.content_type_was_set }
  else blob

/-- The bytes of the blob are in memory. -/
def InMemory (this : Blob) : Prop :=
  ∀ store ∈ this.store, ∃ data, store = .bytes data

variable {env : Env} {this : Blob}

theorem readStore_serialize (h : this.InMemory) (rest : Bytes) :
    readStore env serialization_version this.storeTag ((this.store.map Store.serialize).getD [] ++ rest) =
      some (this.cloneStore, rest) := by
  cases hst : this.store with
  | none =>
    rw [storeTag, cloneStore, hst]
    rfl
  | some store =>
    obtain ⟨data, rfl⟩ := h store hst
    rw [storeTag, cloneStore, hst]
    simp only [readStore, readBytes, map_some, getD_some, Store.serialize,
      append_assoc, bind, StateT.bind, readInt_writeSlice, readSlice_writeAll,
      bind_some]
    rw [if_neg (by decide)]
    simp only [StateT.bind, bind, readInt_writeSlice, readSlice_writeAll, bind_some]
    rfl

theorem readTrailer_serialize (blob : Blob) (rest : Bytes) :
    readTrailer serialization_version blob (leBytes 1 (intFromBool this.is_jsdom_file)
        ++ (leBytes 8 this.last_modified.toNat
          ++ ((if this.is_jsdom_file then writeSlice ((this.getNameString.map toUTF8).getD []) else [])
            ++ rest))) =
      some ({ blob with
        is_jsdom_file := this.is_jsdom_file, last_modified := this.last_modified
        name := if this.is_jsdom_file then some (cloneUTF8 this.writtenName) else blob.name },
        rest) := by
  have hls : this.last_modified.toNat < 256 ^ 8 := this.last_modified.toNat_lt
  rw [readTrailer, if_neg (by decide)]
  simp only [bind, StateT.bind, readBool, readInt_leBytes hls, bind_some]
  rw [if_neg (by decide), UInt64.ofNat_toNat, intFromBool_ne_zero]
  cases this.is_jsdom_file with
  | false => rfl
  | true =>
    rw [if_pos rfl, if_pos rfl]
    simp only [if_true, bind, StateT.bind, readInt_writeSlice, readSlice_writeAll,
      bind_some, writtenName]
    rfl

/-- The size and the offset that the writer works out are not written, and neither is the name that
it looks up. -/
theorem exists_serialize {after : Blob} (hsz : this.resolveSize env = some after) :
    ∃ src, this.onStructuredCloneSerialize env =
      some (leBytes 1 serialization_version ++ (leBytes 8 this.offset.toNat
        ++ (writeSlice this.content_type ++ (leBytes 1 (intFromBool this.content_type_was_set)
          ++ (leBytes 1 this.storeTag.intFromEnum
            ++ ((this.store.map Store.serialize).getD []
              ++ (leBytes 1 (intFromBool this.is_jsdom_file)
                ++ (leBytes 8 this.last_modified.toNat
                  ++ (if this.is_jsdom_file then
                      writeSlice ((this.getNameString.map toUTF8).getD []) else [])))))))), src) := by
  have hkp : after = { this with size := after.size, offset := after.offset } := by
    unfold resolveSize at hsz
    split at hsz
    · simp only at hsz
      split_ifs at hsz <;> cases hsz <;> rfl
    · simp only at hsz
      split_ifs at hsz <;> cases hsz <;> rfl
    · cases hsz
      rfl
  have hnm : after.getNameString = this.getNameString := by
    rw [hkp]
    rfl
  have hst : after.store = this.store := by rw [hkp]
  have hfl : after.is_jsdom_file = this.is_jsdom_file := by rw [hkp]
  have hmd : after.last_modified = this.last_modified := by rw [hkp]
  rw [onStructuredCloneSerialize]
  simp only [hsz, bind_eq_bind, bind_some, hnm, hst, hfl, hmd,
    append_assoc]
  cases this.is_jsdom_file with
  | false =>
    refine ⟨after, ?_⟩
    simp only [Bool.false_eq_true, if_false, append_nil]
    rfl
  | true =>
    cases this.getNameString with
    | none => exact ⟨_, rfl⟩
    | some name => exact ⟨_, rfl⟩

variable {data : Store.Bytes} {blob src : Blob} {bytes r s : Bytes}

/-- Of a `Blob` in memory the reader takes exactly what was written. -/
theorem deserialize_serialize (h : this.InMemory)
    (hby : this.onStructuredCloneSerialize env = some (bytes, src)) (rest : Bytes) :
    onStructuredCloneDeserialize env (bytes ++ rest) = some (this.clone, rest) := by
  cases hsz : this.resolveSize env with
  | none =>
    rw [onStructuredCloneSerialize, hsz] at hby
    cases hby
  | some after =>
    obtain ⟨src', hwr⟩ := exists_serialize hsz
    rw [hwr] at hby
    cases hby
    have hvr : serialization_version < 256 ^ 1 := by decide
    have hof : this.offset.toNat < 256 ^ 8 := this.offset.isLt.trans (by norm_num)
    rw [onStructuredCloneDeserialize]
    simp only [append_assoc, bind, StateT.bind, readInt_leBytes hvr,
      readInt_leBytes hof, readInt_writeSlice, readSlice_writeAll, readBool,
      readStoreTag_intFromEnum, readStore_serialize h, readTrailer_serialize, bind_some]
    rw [clone]
    simp only [intFromBool_ne_zero]
    split_ifs <;> rfl

theorem read_bind {α β : Type} {x : Read α} {f : α → Read β} {b : β} :
    (x >>= f) s = some (b, r) ↔ ∃ a t, x s = some (a, t) ∧ f a t = some (b, r) := by
  simp only [bind, StateT.bind, bind_eq_some_iff, Prod.exists]

theorem store_readTrailer {version : ℕ} {blob' : Blob}
    (h : readTrailer version blob s = some (blob', r)) : blob'.store = blob.store := by
  unfold readTrailer at h
  split_ifs at h
  · cases h
    rfl
  · obtain ⟨_, _, -, h⟩ := read_bind.1 h
    obtain ⟨_, _, -, h⟩ := read_bind.1 h
    cases h
    rfl
  · obtain ⟨_, _, -, h⟩ := read_bind.1 h
    obtain ⟨_, _, -, h⟩ := read_bind.1 h
    simp only at h
    split_ifs at h
    · obtain ⟨_, _, -, h⟩ := read_bind.1 h
      obtain ⟨_, _, -, h⟩ := read_bind.1 h
      cases h
      rfl
    · cases h
      rfl

theorem store_clamp (blob : Blob) (offset : ℕ) : (blob.clamp offset).store = blob.store := by
  unfold clamp
  split
  · simp only
    split_ifs <;> rfl
  · rfl

theorem s3Path_init (bytes : Bytes) : (init bytes).s3Path = none := by
  rw [s3Path, init]
  split_ifs <;> rfl

theorem s3Path_setStoredName (h : blob.s3Path = none) (name : Bytes) :
    (blob.setStoredName name).s3Path = none := by
  unfold setStoredName
  split
  · rfl
  · exact h

theorem s3Path_readBytes {version : ℕ}
    (h : readBytes version s = some (blob, r)) : blob.s3Path = none := by
  obtain ⟨_, _, -, h⟩ := read_bind.1 h
  obtain ⟨bytes, _, -, h⟩ := read_bind.1 h
  split_ifs at h
  · cases h
    exact s3Path_init bytes
  · obtain ⟨_, _, -, h⟩ := read_bind.1 h
    obtain ⟨name, _, -, h⟩ := read_bind.1 h
    cases h
    exact s3Path_setStoredName (s3Path_init bytes) name

theorem s3Path_deserialize (htag : this.storeTag = .bytes)
    (hby : this.onStructuredCloneSerialize env = some (bytes, src)) {rest : Bytes}
    (h : onStructuredCloneDeserialize env (bytes ++ rest) = some (blob, r)) :
    blob.s3Path = none := by
  cases hsz : this.resolveSize env with
  | none =>
    rw [onStructuredCloneSerialize, hsz] at hby
    cases hby
  | some after =>
    obtain ⟨src', hwr⟩ := exists_serialize hsz
    rw [hwr] at hby
    cases hby
    have hvr : serialization_version < 256 ^ 1 := by decide
    have hof : this.offset.toNat < 256 ^ 8 := this.offset.isLt.trans (by norm_num)
    rw [onStructuredCloneDeserialize] at h
    simp only [append_assoc, bind, StateT.bind, readInt_leBytes hvr,
      readInt_leBytes hof, readInt_writeSlice, readSlice_writeAll, readBool,
      readStoreTag_intFromEnum, bind_some, bind_eq_some_iff, Prod.exists, htag,
      readStore] at h
    obtain ⟨read, _, hrd, trailed, _, htr, hls⟩ := h
    have hst : blob.store = read.store := by
      rw [← store_readTrailer htr, ← store_clamp trailed this.offset.toNat]
      split_ifs at hls <;> cases hls <;> rfl
    rw [s3Path, hst]
    exact s3Path_readBytes hrd

/-- The same to look at. -/
structure Same (this that : Blob) : Prop where
  sharedView : that.sharedView = this.sharedView
  content_type : that.content_type = this.content_type
  content_type_was_set : that.content_type_was_set = this.content_type_was_set
  is_jsdom_file : that.is_jsdom_file = this.is_jsdom_file
  last_modified : that.last_modified = this.last_modified
  name : that.getNameString = this.getNameString
  s3Path : that.s3Path = this.s3Path

/-- It is written, and read back whole and in step, whatever follows it in the stream. -/
def RoundTrips (env : Env) (this : Blob) : Prop :=
  ∃ bytes src, this.onStructuredCloneSerialize env = some (bytes, src) ∧
    ∀ rest, ∃ that, onStructuredCloneDeserialize env (bytes ++ rest) = some (that, rest)
      ∧ this.Same that

/-- The view reaches to the end of the store, as a `u32` counts it. -/
def WholeView (this : Blob) : Prop :=
  match this.store with
  | none => True
  | some (.bytes data) =>
    this.offset.toNat ≤ data.slice.length ∧
      min this.size.toNat (data.slice.length - this.offset.toNat) =
        data.slice.length % 2 ^ 32 - this.offset.toNat
  | some _ => False

/-- A `File` has a name, without an unpaired surrogate and shorter than a `u32` counts; what is no
`File` has none but that of a store that is not empty. -/
def WholeName (this : Blob) : Prop :=
  if this.is_jsdom_file then
    ∃ name, this.getNameString = some name ∧ cloneUTF8 (writeAll (toUTF8 name)) = name
  else
    ∀ name, this.getNameString = some name → ∃ data, this.store = some (.bytes data)
      ∧ data.slice.length % 2 ^ 32 ≠ 0 ∧ data.stored_name.length % 2 ^ 32 ≠ 0
      ∧ cloneUTF8 (writeAll data.stored_name) = name

/-- Nothing of the blob is lost. -/
structure Whole (this : Blob) : Prop where
  view : this.WholeView
  content_type : this.content_type.length < 2 ^ 32
  content_type_was_set : this.content_type = [] → this.content_type_was_set = false
  name : this.WholeName

theorem sharedView_eq {store : Store} (h : this.store = some store) :
    this.sharedView = (store.sharedView.drop this.offset.toNat).take this.size.toNat := by
  have hdr : store.sharedView.drop (min this.offset.toNat store.sharedView.length) =
      store.sharedView.drop this.offset.toNat := by
    rcases le_total this.offset.toNat store.sharedView.length with hle | hle
    · rw [min_eq_left hle]
    · simp
  rw [sharedView, h]
  simp only [hdr]
  split_ifs with hsz
  · rw [hsz]
    rfl
  · exact take_eq_take_iff.2 (by omega)

theorem toNat_min (a b : SizeType) : (if a < b then a else b).toNat = min a.toNat b.toNat := by
  split_ifs with h
  · have := BitVec.lt_def.1 h
    omega
  · have := BitVec.lt_def.not.1 h
    omega

theorem cloneStore_eq (hst : this.store = some (.bytes data))
    (hne : data.slice.length % 2 ^ 32 ≠ 0) : ∃ h, this.cloneStore =
      { initEmpty with
        size := BitVec.ofNat 52 (writeAll data.slice).length
        store := some (.bytes ⟨writeAll data.slice, writeAll data.stored_name, h⟩) } := by
  have hlength := length_writeAll data.slice
  have hlt : data.slice.length % 2 ^ 32 < 2 ^ 32 := mod_lt _ (by norm_num)
  have hsl : (Store.Bytes.init (writeAll data.slice)).slice = writeAll data.slice := by
    change (writeAll data.slice).take ((writeAll data.slice).length % 2 ^ 52) = _
    rw [mod_eq_of_lt (by omega), take_length]
  refine ⟨by omega, ?_⟩
  rw [cloneStore, hst]
  simp only [init]
  rw [if_pos (by omega), setStoredName]
  simp only [hsl]

theorem cloneStore_of_empty (hst : this.store = some (.bytes data))
    (hem : data.slice.length % 2 ^ 32 = 0) : this.cloneStore = initEmpty := by
  have hnil : writeAll data.slice = [] :=
    length_eq_zero_iff.1 ((length_writeAll _).trans hem)
  rw [cloneStore, hst]
  simp only [hnil]
  rfl

theorem store_clone (this : Blob) : this.clone.store = this.cloneStore.store := by
  rw [clone]
  split_ifs <;> exact store_clamp _ _

theorem clamp_of_size {store : Store} (hst : blob.store = some store)
    (hsz : store.size ≠ max_size) (offset : SizeType) :
    (blob.clamp offset.toNat).offset.toNat = min offset.toNat store.size.toNat ∧
      (blob.clamp offset.toNat).size.toNat =
        min blob.size.toNat (store.size.toNat - min offset.toNat store.size.toNat) := by
  unfold clamp
  rw [hst]
  simp only [BitVec.ofNat_toNat, BitVec.setWidth_eq]
  rw [if_pos hsz]
  have hof : (if store.size < offset then store.size else offset).toNat =
      min offset.toNat store.size.toNat := by rw [toNat_min, min_comm]
  refine ⟨hof, ?_⟩
  rw [toNat_min, BitVec.toNat_sub_of_le (BitVec.le_def.2 (by rw [hof]; omega)), hof,
    min_comm]

/-- A clone of bytes shows what the bytes show, from the offset on. -/
theorem sharedView_clone (hst : this.store = some (.bytes data)) :
    this.clone.sharedView = (writeAll data.slice).drop this.offset.toNat := by
  have hlength := length_writeAll data.slice
  by_cases hem : data.slice.length % 2 ^ 32 = 0
  · have hnil : writeAll data.slice = [] := length_eq_zero_iff.1 (hlength.trans hem)
    have hno : this.clone.store = none := by
      rw [store_clone, cloneStore_of_empty hst hem]
      rfl
    rw [sharedView, hno, hnil, drop_nil]
  · obtain ⟨hlt, hcn⟩ := cloneStore_eq hst hem
    have hmod : data.slice.length % 2 ^ 32 < 2 ^ 32 := mod_lt _ (by norm_num)
    have hsz : (BitVec.ofNat 52 (writeAll data.slice).length).toNat =
        (writeAll data.slice).length := by
      rw [BitVec.toNat_ofNat, mod_eq_of_lt (by omega)]
    have hmax : BitVec.ofNat 52 (writeAll data.slice).length ≠ max_size := by
      intro heq
      have := congrArg BitVec.toNat heq
      rw [hsz, max_size, BitVec.toNat_allOnes] at this
      omega
    have hst' : this.clone.store =
        some (.bytes ⟨writeAll data.slice, writeAll data.stored_name, hlt⟩) := by
      rw [store_clone, hcn]
    have hfl : this.clone.offset.toNat =
          min this.offset.toNat (writeAll data.slice).length ∧
        this.clone.size.toNat = min (writeAll data.slice).length
          ((writeAll data.slice).length - min this.offset.toNat (writeAll data.slice).length) := by
      have hcl := fun (blob : Blob) h => @clamp_of_size blob
        (.bytes ⟨writeAll data.slice, writeAll data.stored_name, hlt⟩) h hmax this.offset
      simp only [Store.size, hsz] at hcl
      rw [clone, hcn]
      split_ifs <;> exact ⟨(hcl _ rfl).1, (hcl _ rfl).2.trans (by rw [hsz])⟩
    rw [sharedView_eq hst', hfl.1, hfl.2]
    simp only [Store.sharedView]
    rw [take_of_length_le (by rw [length_drop]; omega)]
    rcases le_total this.offset.toNat (writeAll data.slice).length with hle | hle
    · rw [min_eq_left hle]
    · simp

theorem exists_clamp (blob : Blob) (offset : ℕ) :
    ∃ offset' size', blob.clamp offset = { blob with offset := offset', size := size' } := by
  unfold clamp
  split
  · simp only
    split_ifs <;> exact ⟨_, _, rfl⟩
  · exact ⟨_, _, rfl⟩

theorem cloneStore_fields (this : Blob) : this.cloneStore.content_type = []
    ∧ this.cloneStore.content_type_was_set = false ∧ this.cloneStore.name = none := by
  unfold cloneStore
  split
  · rename_i data _
    unfold setStoredName init
    split <;> exact ⟨rfl, rfl, rfl⟩
  · exact ⟨rfl, rfl, rfl⟩

theorem exists_clone (this : Blob) : ∃ offset' size', this.clone =
    { this.cloneStore with
      offset := offset', size := size'
      is_jsdom_file := this.is_jsdom_file, last_modified := this.last_modified
      name := if this.is_jsdom_file then some (cloneUTF8 this.writtenName) else none
      content_type := writeAll this.content_type
      content_type_was_set := (writeAll this.content_type).length > 0
        && this.content_type_was_set } := by
  obtain ⟨hcn, hwas_set, hnm⟩ := this.cloneStore_fields
  rw [clone]
  simp only [hnm]
  obtain ⟨offset', size', hcl⟩ := exists_clamp { this.cloneStore with
    is_jsdom_file := this.is_jsdom_file, last_modified := this.last_modified
    name := if this.is_jsdom_file then some (cloneUTF8 this.writtenName) else none }
    this.offset.toNat
  refine ⟨offset', size', ?_⟩
  rw [hcl]
  by_cases hlength : (writeAll this.content_type).length > 0
  · rw [if_pos hlength, decide_eq_true hlength, Bool.true_and]
  · rw [if_neg hlength, decide_eq_false hlength, Bool.false_and, hcn, hwas_set,
      eq_nil_iff_length_eq_zero.2 (Nat.eq_zero_of_not_pos hlength)]

theorem writeAll_eq_self : writeAll bytes = bytes ↔ bytes.length < 2 ^ 32 := by
  rw [writeAll, take_eq_self_iff]
  constructor
  · intro h
    exact h.trans_lt (mod_lt _ (by norm_num))
  · intro h
    rw [mod_eq_of_lt h]

/-- The views are the same where the rest of the store, as it is written, is as long as the part of
it that the size lets through. -/
theorem sharedView_clone_iff (hst : this.store = some (.bytes data)) :
    this.clone.sharedView = this.sharedView ↔
      min this.size.toNat (data.slice.length - this.offset.toNat) =
        data.slice.length % 2 ^ 32 - this.offset.toNat := by
  have hle : data.slice.length % 2 ^ 32 ≤ data.slice.length := mod_le ..
  rw [sharedView_clone hst, sharedView_eq hst, writeAll, drop_take]
  simp only [Store.sharedView]
  rw [take_eq_take_iff, length_drop]
  omega

theorem sharedView_clone_of_none (hst : this.store = none) :
    this.clone.sharedView = this.sharedView := by
  have hno : this.clone.store = none := by
    rw [store_clone, cloneStore, hst]
    rfl
  rw [sharedView, sharedView, hno, hst]

theorem getFileName_clone (hst : this.store = some (.bytes data)) :
    this.clone.getFileName =
      if data.slice.length % 2 ^ 32 ≠ 0 ∧ data.stored_name.length % 2 ^ 32 ≠ 0 then
        some (writeAll data.stored_name) else none := by
  have hna := length_writeAll data.stored_name
  rw [getFileName, store_clone]
  by_cases hem : data.slice.length % 2 ^ 32 = 0
  · rw [cloneStore_of_empty hst hem, if_neg (fun h => h.1 hem)]
    rfl
  · obtain ⟨hlt, hcl⟩ := cloneStore_eq hst hem
    rw [hcl]
    simp only [hna]
    by_cases hnm : data.stored_name.length % 2 ^ 32 = 0
    · rw [if_neg (by omega), if_neg (fun h => h.2 hnm)]
    · rw [if_pos (by omega), if_pos ⟨hem, hnm⟩]

theorem getNameString_clone (this : Blob) : this.clone.getNameString =
    if this.is_jsdom_file then some (cloneUTF8 this.writtenName)
    else this.clone.getFileName.map cloneUTF8 := by
  obtain ⟨offset', size', hcl⟩ := this.exists_clone
  have hnm : this.clone.name =
      if this.is_jsdom_file then some (cloneUTF8 this.writtenName) else none := by rw [hcl]
  rw [getNameString, hnm]
  split_ifs <;> rfl

/-- A name that is found in a `Blob` without a store is its own. -/
theorem getFileName_of_none (hst : this.store = none) : this.getFileName = none := by
  rw [getFileName, hst]

theorem getNameString_file_iff (hfl : this.is_jsdom_file = true) :
    this.clone.getNameString = this.getNameString ↔ this.WholeName := by
  rw [getNameString_clone, if_pos hfl, WholeName, if_pos hfl, writtenName]
  cases this.getNameString with
  | none => simp only [reduceCtorEq, false_and, exists_false]
  | some name =>
    simp only [map_some, getD_some, some.injEq, exists_eq_left']

/-- A blob in memory keeps its name just if the name comes back whole. -/
theorem getNameString_blob_iff (h : this.InMemory) (hfl : this.is_jsdom_file = false) :
    this.clone.getNameString = this.getNameString ↔ this.WholeName := by
  rw [getNameString_clone, WholeName, hfl]
  simp only [Bool.false_eq_true, if_false]
  cases hst : this.store with
  | none =>
    have hno : this.clone.getFileName = none := by
      refine getFileName_of_none ?_
      rw [store_clone, cloneStore, hst]
      rfl
    rw [hno]
    cases this.getNameString with
    | none => simp only [map_none, reduceCtorEq, false_imp_iff, implies_true]
    | some name =>
      simp only [map_none, reduceCtorEq, some.injEq, false_and, exists_false,
        forall_eq']
  | some store =>
    obtain ⟨data, rfl⟩ := h store hst
    rw [getFileName_clone hst]
    cases hnm : this.getNameString with
    | none =>
      have hem : data.stored_name.length = 0 := by
        rw [getNameString, getFileName, hst, or_eq_none_iff] at hnm
        by_contra hne
        simp only [gt_iff_lt, Nat.pos_of_ne_zero hne, if_true, map_some, reduceCtorEq,
          and_false] at hnm
      simp only [hem, zero_mod, ne_eq, not_true_eq_false, and_false, if_false,
        map_none, reduceCtorEq, false_imp_iff, implies_true]
    | some name =>
      simp only [some.injEq, Store.bytes.injEq, exists_eq_left', forall_eq']
      split_ifs with hkp
      · simp only [map_some, some.injEq, hkp.1, hkp.2, ne_eq,
          not_false_eq_true, true_and]
      · simp [reduceCtorEq, false_iff]
        omega

theorem getNameString_iff (h : this.InMemory) :
    this.clone.getNameString = this.getNameString ↔ this.WholeName := by
  cases hfl : this.is_jsdom_file with
  | false => exact getNameString_blob_iff h hfl
  | true => exact getNameString_file_iff hfl

theorem s3Path_of_inMemory (h : this.InMemory) : this.s3Path = none := by
  rw [s3Path]
  cases hst : this.store with
  | none => rfl
  | some store =>
    obtain ⟨data, rfl⟩ := h store hst
    rfl

theorem inMemory_clone (h : this.InMemory) : this.clone.InMemory := by
  intro store hcl
  rw [store_clone] at hcl
  cases hst : this.store with
  | none =>
    rw [cloneStore, hst] at hcl
    cases hcl
  | some store' =>
    obtain ⟨data, rfl⟩ := h store' hst
    by_cases hem : data.slice.length % 2 ^ 32 = 0
    · rw [cloneStore_of_empty hst hem] at hcl
      cases hcl
    · obtain ⟨hlt, hcloneStore⟩ := cloneStore_eq hst hem
      rw [hcloneStore] at hcl
      cases hcl
      exact ⟨_, rfl⟩

/-- What the clone has in common with the `Blob`, field by field. -/
theorem same_clone_iff (h : this.InMemory) : this.Same this.clone ↔
    this.clone.sharedView = this.sharedView ∧ this.content_type.length < 2 ^ 32
      ∧ (this.content_type = [] → this.content_type_was_set = false) ∧ this.WholeName := by
  obtain ⟨offset', size', hcl⟩ := this.exists_clone
  have hcn : this.clone.content_type = writeAll this.content_type := by rw [hcl]
  have hwas_set : this.clone.content_type_was_set =
      ((writeAll this.content_type).length > 0 && this.content_type_was_set) := by rw [hcl]
  constructor
  · intro hsm
    have hlength := writeAll_eq_self.1 (hcn.symm.trans hsm.content_type)
    refine ⟨hsm.sharedView, hlength, fun hem => ?_, (getNameString_iff h).1 hsm.name⟩
    rw [← hsm.content_type_was_set, hwas_set, hem]
    rfl
  · rintro ⟨hvw, hlength, hem, hnm⟩
    have hsl := writeAll_eq_self.2 hlength
    refine ⟨hvw, hcn.trans hsl, ?_, by rw [hcl], by rw [hcl],
      (getNameString_iff h).2 hnm, ?_⟩
    · rw [hwas_set, hsl]
      rcases Nat.eq_zero_or_pos this.content_type.length with hzr | hpos
      · rw [hem (length_eq_zero_iff.1 hzr), Bool.and_false]
      · rw [decide_eq_true hpos, Bool.true_and]
    · rw [s3Path_of_inMemory h, s3Path_of_inMemory (inMemory_clone h)]

theorem resolveSize_isSome_iff (hst : this.store = some (.bytes data)) :
    (this.resolveSize env).isSome ↔ this.offset.toNat ≤ data.slice.length := by
  have hlt := data.length_lt
  have hof := this.offset.isLt
  have hsz : (Store.bytes data).size.toNat = data.slice.length :=
    (BitVec.toNat_ofNat _ _).trans (mod_eq_of_lt hlt)
  rw [resolveSize, hst]
  simp only [BitVec.lt_def, hsz]
  split_ifs with hmax hbh
  · have hall := congrArg BitVec.toNat hmax
    rw [hsz, max_size, BitVec.toNat_allOnes] at hall
    simp only [isSome_some, true_iff]
    omega
  · simp [false_iff]
    omega
  · simp only [isSome_some, true_iff]
    omega

theorem isSome_of_serialize
    (h : this.onStructuredCloneSerialize env = some (bytes, src)) :
    (this.resolveSize env).isSome := by
  rw [onStructuredCloneSerialize] at h
  cases hsz : this.resolveSize env with
  | none =>
    rw [hsz] at h
    cases h
  | some after => rfl

theorem roundTrips_inMemory_iff (h : this.InMemory) :
    this.RoundTrips env ↔ (this.resolveSize env).isSome ∧ this.Same this.clone := by
  constructor
  · rintro ⟨bytes, src, hby, hrd⟩
    obtain ⟨that, hth, hsm⟩ := hrd []
    rw [deserialize_serialize h hby] at hth
    cases hth
    exact ⟨isSome_of_serialize hby, hsm⟩
  · rintro ⟨hsz, hsm⟩
    obtain ⟨after, haf⟩ := isSome_iff_exists.1 hsz
    obtain ⟨src, hby⟩ := exists_serialize haf
    exact ⟨_, src, hby, fun rest => ⟨this.clone, deserialize_serialize h hby rest, hsm⟩⟩

theorem inMemory_wholeView_iff (h : this.InMemory) :
    (this.resolveSize env).isSome ∧ this.clone.sharedView = this.sharedView ↔
      this.WholeView := by
  cases hst : this.store with
  | none =>
    have hsm : (this.resolveSize env).isSome := by
      rw [resolveSize, hst]
      rfl
    rw [WholeView, hst, sharedView_clone_of_none hst]
    exact ⟨fun _ => trivial, fun _ => ⟨hsm, rfl⟩⟩
  | some store =>
    obtain ⟨data, rfl⟩ := h store hst
    rw [resolveSize_isSome_iff hst, sharedView_clone_iff hst, WholeView, hst]

theorem not_roundTrips_s3 {pathlike : Bytes} (hst : this.store = some (.s3 pathlike)) :
    ¬ this.RoundTrips env := by
  rintro ⟨bytes, src, hby, hrd⟩
  obtain ⟨that, hth, hsa⟩ := hrd []
  have hno := s3Path_deserialize (by rw [storeTag, hst]) hby hth
  have hsm : this.s3Path = some pathlike := by
    rw [s3Path, hst]
    rfl
  rw [← hsa.s3Path, hno] at hsm
  cases hsm

/-- A `Blob` that is no file of the file system survives where everything it has is written. -/
theorem clone_roundTrips_iff (env : Env) (this : Blob)
    (hstore : ∀ pathlike, this.store ≠ some (.file pathlike)) :
    this.RoundTrips env ↔ this.Whole := by
  by_cases h : this.InMemory
  · rw [roundTrips_inMemory_iff h, same_clone_iff h]
    constructor
    · rintro ⟨hsize, hview, hcontent, hwas_set, hname⟩
      exact ⟨(inMemory_wholeView_iff h).1 ⟨hsize, hview⟩, hcontent, hwas_set, hname⟩
    · intro hwhole
      obtain ⟨hsize, hview⟩ := (@inMemory_wholeView_iff env _ h).2 hwhole.view
      exact ⟨hsize, hview, hwhole.content_type, hwhole.content_type_was_set, hwhole.name⟩
  · obtain ⟨pathlike, hs3⟩ : ∃ pathlike, this.store = some (.s3 pathlike) := by
      simp only [InMemory, not_forall] at h
      obtain ⟨store, hmem, hnot⟩ := h
      cases store with
      | bytes data => exact absurd ⟨data, rfl⟩ hnot
      | file pathlike => exact absurd hmem (hstore pathlike)
      | s3 pathlike => exact ⟨pathlike, hmem⟩
    refine iff_of_false (not_roundTrips_s3 hs3) (fun hwhole => ?_)
    have hview := hwhole.view
    rw [WholeView, hs3] at hview
    exact hview

/-- The text `hello`, and its first bytes as `slice` gives them. -/
def hello (size : SizeType) : Blob where
  size := size
  offset := 0
  store := some (.bytes ⟨[104, 101, 108, 108, 111], [], by decide⟩)
  content_type := [97]
  content_type_was_set := true
  is_jsdom_file := true
  last_modified := 1
  name := some [97, 46, 98]

/-- A blob of five bytes. -/
theorem roundTrips_hello :
    (hello 5).Whole ∧ (hello 5).RoundTrips ⟨fun _ => [], fun _ => (none, 0)⟩ := by
  have hstore : ∀ pathlike, (hello 5).store ≠ some (.file pathlike) := fun _ h => nomatch h
  have hwhole : (hello 5).Whole := by
    refine ⟨⟨by decide, by decide⟩, by decide, (fun h => nomatch h), ?_⟩
    exact ⟨[97, 46, 98], rfl, by decide⟩
  exact ⟨hwhole, (clone_roundTrips_iff _ _ hstore).2 hwhole⟩

/-- The first three bytes of five come back as all five. -/
theorem not_roundTrips_slice :
    ¬ ∀ env this, (∀ pathlike, this.store ≠ some (.file pathlike)) → RoundTrips env this := by
  intro hall
  have hmemory : (hello 3).InMemory := by
    rintro store ⟨⟩
    exact ⟨_, rfl⟩
  obtain ⟨-, hsame⟩ := (roundTrips_inMemory_iff hmemory).1
    (hall ⟨fun _ => [], fun _ => (none, 0)⟩ (hello 3) fun pathlike h => nomatch h)
  have hview := (@sharedView_clone_iff (hello 3) _ rfl).1 hsame.sharedView
  exact absurd hview (by decide)

end Blob

end Cruller.Webcore
