import Cruller.SourceMap.Mapping
import Cruller.SourceMap.Vlq
import Cruller.SourceMap.Window

/-!
# The blob

`sourcemap/InternalSourceMap.zig`: a header of 32 bytes, a table of sync entries, and the stream of
windows. `Builder` collects mappings and writes the blob; the view on the blob finds a mapping
(`find`) and writes all of them out as VLQ text (`appendVLQTo`). As in the window format, `none` is
a failed bounds check, an overflow, or an `@intCast` that does not fit.
-/

namespace Cruller.SourceMap

def headerSize : ℕ := 32

def streamTailPad : ℕ := 1

/-- The mapping before a window, and where the window begins. -/
structure SyncEntry where
  generatedLine : ℤ
  generatedColumn : ℤ
  byteOffset : ℕ
  originalLine : ℤ
  originalColumn : ℤ
  sourceIndex : ℤ
  deriving DecidableEq, Repr

/-- `@bitCast` of an `i32`. -/
def wordOf (v : ℤ) : UInt32 := UInt32.ofBitVec (BitVec.ofInt 32 v)

def ofWord (w : UInt32) : ℤ := w.toBitVec.toInt

namespace SyncEntry

/-- The six words of an entry, 24 bytes. -/
def layout : Layout (UInt32 × UInt32 × UInt32 × UInt32 × UInt32 × UInt32) :=
  Layout.u32.prod (Layout.u32.prod (Layout.u32.prod (Layout.u32.prod
    (Layout.u32.prod Layout.u32))))

def words (e : SyncEntry) : UInt32 × UInt32 × UInt32 × UInt32 × UInt32 × UInt32 :=
  (wordOf e.generatedLine, wordOf e.generatedColumn, UInt32.ofNat e.byteOffset,
    wordOf e.originalLine, wordOf e.originalColumn, wordOf e.sourceIndex)

def ofWords : UInt32 × UInt32 × UInt32 × UInt32 × UInt32 × UInt32 → SyncEntry
  | (generatedLine, generatedColumn, byteOffset, originalLine, originalColumn, sourceIndex) =>
    ⟨ofWord generatedLine, ofWord generatedColumn, byteOffset.toNat, ofWord originalLine,
      ofWord originalColumn, ofWord sourceIndex⟩

def bytes (e : SyncEntry) : List UInt8 := layout.encode e.words

/-- The mapping is not behind a line and column. -/
def lessOrEqual (e : SyncEntry) (line col : ℤ) : Bool :=
  e.generatedLine < line || (e.generatedLine = line && e.generatedColumn ≤ col)

def toState (e : SyncEntry) : State where
  generatedLine := e.generatedLine
  generatedColumn := e.generatedColumn
  sourceIndex := e.sourceIndex
  originalLine := e.originalLine
  originalColumn := e.originalColumn

end SyncEntry

namespace State

def toMapping (s : State) : Mapping where
  generated := ⟨s.generatedLine, s.generatedColumn⟩
  original := ⟨s.originalLine, s.originalColumn⟩
  sourceIndex := s.sourceIndex
  nameIndex := -1

end State

/-- What has been written of a map: the table, the windows, and the window that is open. -/
structure Builder where
  syncEntries : List SyncEntry := []
  winStream : List UInt8 := []
  pending : List State := []
  pendingGeneratedLineDelta : ℤ := 0
  state : State := {}
  count : ℕ := 0

namespace Builder

/-- A line has ended. -/
def appendLineSeparator (b : Builder) : Option Builder :=
  (i32 (b.pendingGeneratedLineDelta + 1)).map fun pendingGeneratedLineDelta =>
    { b with pendingGeneratedLineDelta }

/-- The window that is open is written. -/
def flushWindow (b : Builder) : Option Builder :=
  match b.pending with
  | [] => some b
  | seed :: rest => do
    let startOff ← intCast 32 b.winStream.length
    let ds ← deltas seed rest
    let bytes ← windowBytes b.pending.length ds
    let entry : SyncEntry :=
      { generatedLine := seed.generatedLine
        generatedColumn := seed.generatedColumn
        byteOffset := startOff
        originalLine := seed.originalLine
        originalColumn := seed.originalColumn
        sourceIndex := seed.sourceIndex }
    some { b with
      syncEntries := b.syncEntries ++ [entry]
      winStream := b.winStream ++ bytes
      pending := [] }

/-- The line of `current` is not looked at: the builder counts the separators itself. -/
def appendMapping (b : Builder) (current : SourceMapState) : Option Builder := do
  let generatedLine ← i32 (b.state.generatedLine + b.pendingGeneratedLineDelta)
  let state : State :=
    { generatedLine
      generatedColumn := current.generatedColumn
      sourceIndex := current.sourceIndex
      originalLine := current.originalLine
      originalColumn := current.originalColumn }
  let count ← intCast 32 (b.count + 1)
  let b := { b with state, pendingGeneratedLineDelta := 0, pending := b.pending ++ [state], count }
  if b.pending.length = syncInterval then b.flushWindow else some b

/-- The first 24 bytes are left to the caller. -/
def finalize (b : Builder) : Option (List UInt8) := do
  let b ← b.flushWindow
  let syncBytes := b.syncEntries.length * SyncEntry.layout.size
  let streamOffset ← intCast 32 (headerSize + syncBytes)
  let syncCount ← intCast 32 b.syncEntries.length
  some (List.replicate 24 0
    ++ Layout.u32.encode (UInt32.ofNat syncCount) ++ Layout.u32.encode (UInt32.ofNat streamOffset)
    ++ b.syncEntries.flatMap SyncEntry.bytes ++ b.winStream ++ List.replicate streamTailPad 0)

end Builder

/-- What the callers of `finalize` put in front. -/
def writeHeader (blob : List UInt8) (mappingCount inputLineCount : ℕ) : Option (List UInt8) := do
  let blob ← Layout.u64.write blob 0 (UInt64.ofNat blob.length)
  let blob ← Layout.u64.write blob 8 (UInt64.ofNat mappingCount)
  Layout.u64.write blob 16 (UInt64.ofNat inputLineCount)

/-- The bytes of a map. -/
structure InternalSourceMap where
  data : List UInt8

namespace InternalSourceMap

def totalLen (self : InternalSourceMap) : Option ℕ :=
  (Layout.u64.read self.data 0).map UInt64.toNat

def syncCount (self : InternalSourceMap) : Option ℕ :=
  (Layout.u32.read self.data 24).map UInt32.toNat

def streamOffset (self : InternalSourceMap) : Option ℕ :=
  (Layout.u32.read self.data 28).map UInt32.toNat

def syncEntry (self : InternalSourceMap) (index : ℕ) : Option SyncEntry :=
  (SyncEntry.layout.read self.data (headerSize + index * SyncEntry.layout.size)).map
    SyncEntry.ofWords

/-- The windows. -/
def stream (self : InternalSourceMap) : Option (List UInt8) := do
  let streamOffset ← self.streamOffset
  let totalLen ← self.totalLen
  if streamOffset ≤ totalLen then slice self.data streamOffset (totalLen - streamOffset) else none

/-- The last window whose first mapping is not after the target. -/
def locateWindow (self : InternalSourceMap) (targetLine targetCol : ℤ) : Option (Option ℕ) := do
  let nSync ← self.syncCount
  if nSync = 0 then some none
  else do
    let lo ← bisect (fun mid => (self.syncEntry mid).map fun e => e.lessOrEqual targetLine targetCol)
      nSync 0 nSync
    some (if lo = 0 then none else some (lo - 1))

/-- A window, and the mapping before it. -/
def seedWindow (self : InternalSourceMap) (syncIdx : ℕ) : Option (State × WindowReader) := do
  let se ← self.syncEntry syncIdx
  let stream ← self.stream
  let reader ← WindowReader.parse stream se.byteOffset
  some (se.toState, reader)

/-- The loop of `find`; a window has at most `syncInterval` mappings, which bounds the rounds. -/
def findLoop (targetLine targetCol : ℤ) : ℕ → WindowReader → State → State → Option State
  | 0, _, _, _ => none
  | n + 1, reader, state, best =>
    if reader.done then some best
    else (reader.next state).bind fun (reader, nxt) =>
      if !nxt.lessOrEqual targetLine targetCol then some best
      else findLoop targetLine targetCol n reader nxt nxt

/-- The mapping at or before a place, on its line. -/
def find (self : InternalSourceMap) (targetLine targetCol : ℤ) : Option (Option Mapping) := do
  match ← self.locateWindow targetLine targetCol with
  | none => some none
  | some syncIdx => do
    let (state, reader) ← self.seedWindow syncIdx
    let best ← findLoop targetLine targetCol syncInterval reader state state
    some (if best.generatedLine = targetLine then some best.toMapping else none)

/-- What `emitVLQ` writes to: the text, the last mapping written and the line reached. -/
structure Emitter where
  prev : SourceMapState := {}
  generatedLine : ℤ := 0
  out : List UInt8 := []

/-- `n` is how far the line is behind. -/
def emitSeparators : ℕ → Emitter → Emitter
  | 0, e => e
  | n + 1, e => emitSeparators n
      { prev := { e.prev with generatedColumn := 0 }
        generatedLine := e.generatedLine + 1
        out := e.out ++ [semicolon] }

/-- A mapping, as text. -/
def emitVLQ (e : Emitter) (state : State) : Option Emitter :=
  let e := emitSeparators (state.generatedLine - e.generatedLine).toNat e
  let current : SourceMapState :=
    { generatedLine := state.generatedLine
      generatedColumn := state.generatedColumn
      sourceIndex := state.sourceIndex
      originalLine := state.originalLine
      originalColumn := state.originalColumn }
  let lastByte := e.out.getLast?.getD 0
  (appendMappingToBuffer e.out lastByte e.prev current).map fun out => { e with prev := current, out }

/-- `while (!reader.done())`, the body given the state that was read. -/
def windowLoop {β : Type} (body : β → State → Option β) :
    ℕ → WindowReader → State → β → Option β
  | 0, _, _, _ => none
  | n + 1, reader, state, acc =>
    if reader.done then some acc
    else (reader.next state).bind fun (reader, state) =>
      (body acc state).bind fun acc => windowLoop body n reader state acc

/-- Every mapping of every window in order. -/
def forEach {β : Type} (self : InternalSourceMap) (body : β → State → Option β) (acc : β) :
    Option β := do
  let nSync ← self.syncCount
  (List.range nSync).foldlM (fun acc idx => do
    let (state, reader) ← self.seedWindow idx
    let acc ← body acc state
    windowLoop body syncInterval reader state acc) acc

/-- `appendVLQTo`. -/
def appendVLQTo (self : InternalSourceMap) (out : List UInt8) : Option (List UInt8) :=
  (self.forEach emitVLQ { out }).map Emitter.out

/-- The mappings that the same loop sees. -/
def states (self : InternalSourceMap) : Option (List State) :=
  self.forEach (fun acc state => some (acc ++ [state])) []

end InternalSourceMap

end Cruller.SourceMap
