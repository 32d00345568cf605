import Cruller.Lib.Bits
import Cruller.SourceMap.Varint

/-!
# Windows

The window format of `sourcemap/InternalSourceMap.zig`. Up to `syncInterval` mappings are stored as
the differences of each to the one before, behind a header of 32 bytes: what `flushWindow` writes
(`windowBytes`), and how a `WindowReader` gets through it.

A pointer read past the end of the bytes, an `i32` that overflows and an `@intCast` that does not fit
are `none`.
-/

namespace Cruller.SourceMap

def syncInterval : ℕ := 64

/-- `@intCast` to an unsigned type of `w` bits. -/
def intCast (w n : ℕ) : Option ℕ := if n < 2 ^ w then some n else none

/-- The fields of a mapping. -/
structure State where
  generatedLine : ℤ := 0
  generatedColumn : ℤ := 0
  sourceIndex : ℤ := 0
  originalLine : ℤ := 0
  originalColumn : ℤ := 0
  deriving DecidableEq, Repr

/-- The mapping is not behind a line and column. -/
def State.lessOrEqual (s : State) (line col : ℤ) : Bool :=
  s.generatedLine < line || (s.generatedLine = line && s.generatedColumn ≤ col)

def flagHasGenLineExceptions : ℕ := 1 <<< 2
def flagHasSrcIdx : ℕ := 1 <<< 3

namespace WinHdr

def countOff : ℕ := 0
def flagsOff : ℕ := 1
def genColLenOff : ℕ := 2
def origLineLenOff : ℕ := 4
def origColLenOff : ℕ := 6
def genLineMaskOff : ℕ := 8
def origLineEqMaskOff : ℕ := 16
def origColEqMaskOff : ℕ := 24
def genColLaneOff : ℕ := 32

end WinHdr

/-- What changes from one mapping to the next. -/
structure Delta where
  dGenLine : ℤ
  dGenCol : ℤ
  dOrigLine : ℤ
  dOrigCol : ℤ
  dSrcIdx : ℤ
  deriving DecidableEq, Repr

/-- From one mapping to the next; the column starts over on a new line. -/
def delta (prev cur : State) : Option Delta := do
  let dGenLine ← i32 (cur.generatedLine - prev.generatedLine)
  let dGenCol ←
    (if dGenLine ≠ 0 then some cur.generatedColumn
      else i32 (cur.generatedColumn - prev.generatedColumn))
  let dOrigLine ← i32 (cur.originalLine - prev.originalLine)
  let dOrigCol ← i32 (cur.originalColumn - prev.originalColumn)
  let dSrcIdx ← i32 (cur.sourceIndex - prev.sourceIndex)
  some ⟨dGenLine, dGenCol, dOrigLine, dOrigCol, dSrcIdx⟩

/-- The changes along a window. -/
def deltas : State → List State → Option (List Delta)
  | _, [] => some []
  | prev, cur :: rest => do
    let d ← delta prev cur
    let ds ← deltas cur rest
    some (d :: ds)

namespace Delta

/-- What one bit cannot say about the line. -/
def exceptional (d : Delta) : Bool := d.dGenLine > 1 || d.dGenLine < 0

def genLine (d : Delta) : Bool := d.dGenLine ≥ 1
def origLineEq (d : Delta) : Bool := d.dOrigLine = d.dGenLine
def origColEq (d : Delta) : Bool := d.dOrigCol = d.dGenCol
def srcIdxEq (d : Delta) : Bool := d.dSrcIdx = 0

end Delta

def windowFlags (ds : List Delta) : ℕ :=
  (if ds.any Delta.exceptional then flagHasGenLineExceptions else 0)
    ||| (if ds.any fun d => !d.srcIdxEq then flagHasSrcIdx else 0)

/-- Eight bytes with a bit for each delta. -/
def mask (p : Delta → Bool) (ds : List Delta) : List UInt8 :=
  setBits (List.replicate 8 0) 0 (ds.map p)

/-- A varint for each delta that `p` does not hold of. -/
def lane (p : Delta → Bool) (value : Delta → ℤ) (ds : List Delta) : List UInt8 :=
  ds.flatMap fun d => if p d then [] else writeVarint (value d)

def genColLane : List Delta → List UInt8 := lane (fun _ => false) Delta.dGenCol
def origLineLane : List Delta → List UInt8 := lane Delta.origLineEq Delta.dOrigLine
def origColLane : List Delta → List UInt8 := lane Delta.origColEq Delta.dOrigCol
def srcIdxLane : List Delta → List UInt8 := lane Delta.srcIdxEq Delta.dSrcIdx

/-- The index and the line difference of each exceptional delta, from index `k` on. -/
def genLineExceptions : ℕ → List Delta → List UInt8
  | _, [] => [0xFF]
  | k, d :: ds =>
    if d.exceptional then UInt8.ofNat k :: writeVarint d.dGenLine ++ genLineExceptions (k + 1) ds
    else genLineExceptions (k + 1) ds

/-- What `flushWindow` adds to the stream for `n` mappings. -/
def windowBytes (n : ℕ) (ds : List Delta) : Option (List UInt8) := do
  let flags := windowFlags ds
  let genColLen ← intCast 16 (genColLane ds).length
  let origLineLen ← intCast 16 (origLineLane ds).length
  let origColLen ← intCast 16 (origColLane ds).length
  some ([UInt8.ofNat n, UInt8.ofNat flags]
    ++ Layout.u16.encode (UInt16.ofNat genColLen)
    ++ Layout.u16.encode (UInt16.ofNat origLineLen)
    ++ Layout.u16.encode (UInt16.ofNat origColLen)
    ++ mask Delta.genLine ds ++ mask Delta.origLineEq ds ++ mask Delta.origColEq ds
    ++ genColLane ds ++ origLineLane ds ++ origColLane ds
    ++ (if flags &&& flagHasGenLineExceptions ≠ 0 then genLineExceptions 0 ds else [])
    ++ (if flags &&& flagHasSrcIdx ≠ 0 then mask Delta.srcIdxEq ds ++ srcIdxLane ds else []))

/-- `base` and `srcIdxMask` are pointers into `bytes`. A field that `parse` leaves undefined is 0. -/
structure WindowReader where
  bytes : List UInt8
  base : ℕ
  genColPos : ℕ
  origLineExcPos : ℕ
  origColExcPos : ℕ
  genLineExcPos : ℕ := 0
  srcIdxMask : ℕ := 0
  srcIdxExcPos : ℕ := 0
  count : ℕ
  flags : ℕ
  genLineExcNextIdx : ℕ := 0xFF
  deltaIdx : ℕ := 0

/-- Past the exceptions at `pos`, to their end mark; `n` bounds the rounds. -/
def skipExceptions (bytes : List UInt8) : ℕ → ℕ → Option ℕ
  | 0, _ => none
  | n + 1, pos =>
    match bytes[pos]? with
    | none => some pos
    | some b =>
      if b = 0xFF then some pos
      else (readVarint bytes (pos + 1)).bind fun (_, pos) => skipExceptions bytes n pos

namespace WindowReader

/-- Lines that are more than one further. -/
def parseGenLineExceptions (r : WindowReader) (pos : ℕ) : Option (WindowReader × ℕ) :=
  if r.flags &&& flagHasGenLineExceptions ≠ 0 ∧ pos < r.bytes.length then do
    let first ← r.bytes[pos]?
    let stop ← skipExceptions r.bytes (r.bytes.length + 1) pos
    some ({ r with genLineExcPos := pos, genLineExcNextIdx := first.toNat }, stop + 1)
  else some (r, pos)

/-- The lane of sources, if the window has one. -/
def parseSrcIdx (r : WindowReader) (pos : ℕ) : WindowReader :=
  if r.flags &&& flagHasSrcIdx ≠ 0 then { r with srcIdxMask := pos, srcIdxExcPos := pos + 8 }
  else r

/-- The header of a window, and where its lanes are. -/
def parse (bytes : List UInt8) (start : ℕ) : Option WindowReader := do
  let count ← bytes[start + WinHdr.countOff]?
  let flags ← bytes[start + WinHdr.flagsOff]?
  let genColLen ← Layout.u16.read bytes (start + WinHdr.genColLenOff)
  let origLineLen ← Layout.u16.read bytes (start + WinHdr.origLineLenOff)
  let origColLen ← Layout.u16.read bytes (start + WinHdr.origColLenOff)
  let genColPos := start + WinHdr.genColLaneOff
  let origLineExcPos := genColPos + genColLen.toNat
  let origColExcPos := origLineExcPos + origLineLen.toNat
  let pos := origColExcPos + origColLen.toNat
  let r : WindowReader :=
    { bytes, base := start, genColPos, origLineExcPos, origColExcPos
      count := min count.toNat syncInterval, flags := flags.toNat }
  if r.flags ≠ 0 then do
    let (r, pos) ← r.parseGenLineExceptions pos
    some (r.parseSrcIdx pos)
  else some r

def done (r : WindowReader) : Bool := r.deltaIdx + 1 ≥ r.count

/-- A value that is stored where its bit is not set, and else is `value`. -/
def readUnless (bytes : List UInt8) (bit : Bool) (value : ℤ) (pos : ℕ) : Option (ℤ × ℕ) :=
  if bit then some (value, pos) else readVarint bytes pos

/-- The first part of `nextRare`: the line difference that one bit cannot say. -/
def nextGenLine (r : WindowReader) (deltaIdx : ℕ) (dGenLine dOrigLine : ℤ) :
    Option (WindowReader × ℤ × ℤ) :=
  if r.genLineExcNextIdx = deltaIdx then do
    let (dGenLine, p) ← readVarint r.bytes (r.genLineExcPos + 1)
    let origLineEq ← testBit r.bytes (r.base + WinHdr.origLineEqMaskOff) deltaIdx
    let dOrigLine := if origLineEq then dGenLine else dOrigLine
    let next ← r.bytes[p]?
    some ({ r with genLineExcPos := p, genLineExcNextIdx := next.toNat }, dGenLine, dOrigLine)
  else some (r, dGenLine, dOrigLine)

/-- The second part of `nextRare`: the source, where it changes. -/
def nextSrcIdx (r : WindowReader) (deltaIdx : ℕ) (state : State) : Option (WindowReader × State) :=
  if r.flags &&& flagHasSrcIdx ≠ 0 then do
    let srcIdxEq ← testBit r.bytes r.srcIdxMask deltaIdx
    if srcIdxEq then some (r, state)
    else do
      let (dSrcIdx, srcIdxExcPos) ← readVarint r.bytes r.srcIdxExcPos
      let sourceIndex ← i32 (state.sourceIndex + dSrcIdx)
      some ({ r with srcIdxExcPos }, { state with sourceIndex })
  else some (r, state)

/-- The lanes that few windows have. -/
def nextRare (r : WindowReader) (deltaIdx : ℕ) (dGenLine dOrigLine : ℤ) (state : State) :
    Option (WindowReader × ℤ × ℤ × State) := do
  let (r, dGenLine, dOrigLine) ← r.nextGenLine deltaIdx dGenLine dOrigLine
  let (r, state) ← r.nextSrcIdx deltaIdx state
  some (r, dGenLine, dOrigLine, state)

end WindowReader

/-- The sums at the end of `next`. -/
def State.advance (s : State) (dGenLine dGenCol dOrigLine dOrigCol : ℤ) : Option State := do
  let s ←
    (if dGenLine ≠ 0 then
      (i32 (s.generatedLine + dGenLine)).map fun generatedLine =>
        { s with generatedLine, generatedColumn := dGenCol }
    else
      (i32 (s.generatedColumn + dGenCol)).map fun generatedColumn => { s with generatedColumn })
  let originalLine ← i32 (s.originalLine + dOrigLine)
  let originalColumn ← i32 (s.originalColumn + dOrigCol)
  some { s with originalLine, originalColumn }

namespace WindowReader

/-- The next mapping of the window. -/
def next (r : WindowReader) (state : State) : Option (WindowReader × State) := do
  let deltaIdx := r.deltaIdx
  let genLine ← testBit r.bytes (r.base + WinHdr.genLineMaskOff) deltaIdx
  let dGenLine : ℤ := if genLine then 1 else 0
  let (dGenCol, genColPos) ← readVarint r.bytes r.genColPos
  let origLineEq ← testBit r.bytes (r.base + WinHdr.origLineEqMaskOff) deltaIdx
  let (dOrigLine, origLineExcPos) ← readUnless r.bytes origLineEq dGenLine r.origLineExcPos
  let origColEq ← testBit r.bytes (r.base + WinHdr.origColEqMaskOff) deltaIdx
  let (dOrigCol, origColExcPos) ← readUnless r.bytes origColEq dGenCol r.origColExcPos
  let r := { r with deltaIdx := deltaIdx + 1, genColPos, origLineExcPos, origColExcPos }
  let (r, dGenLine, dOrigLine, state) ←
    (if r.flags ≠ 0 then r.nextRare deltaIdx dGenLine dOrigLine state
      else some (r, dGenLine, dOrigLine, state))
  let state ← state.advance dGenLine dGenCol dOrigLine dOrigCol
  some (r, state)

end WindowReader

end Cruller.SourceMap
