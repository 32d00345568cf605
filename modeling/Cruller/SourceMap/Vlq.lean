import Cruller.SourceMap.Varint

/-!
# Base64 VLQ

`VLQ.encode` of `sourcemap/VLQ.zig` and `appendMappingToBuffer` of `sourcemap/sourcemap.zig`: how one
mapping is written, as the differences to the one before. Only four fields of the two states are
looked at (`appendMappingToBuffer_congr`), and for coordinates that are not negative nothing
overflows (`exists_appendMappingToBuffer`).
-/

namespace Cruller.SourceMap

open Option

/-- The state after a mapping; `generatedLine` is not stored in the text. -/
structure SourceMapState where
  generatedLine : ℤ := 0
  generatedColumn : ℤ := 0
  sourceIndex : ℤ := 0
  originalLine : ℤ := 0
  originalColumn : ℤ := 0
  deriving DecidableEq, Repr

def base64 : List UInt8 :=
  "ABCDEFGHIJKLMNOPQRSTUVWXYZabcdefghijklmnopqrstuvwxyz0123456789+/".toList.map
    fun c => UInt8.ofNat c.toNat

def vlqMaxInBytes : ℕ := 7

/-- The digits of a number, lowest first; `none` where the room does not suffice. -/
def encodeDigits : ℕ → ℕ → Option (List UInt8)
  | 0, _ => none
  | n + 1, vlq => do
    let digit := vlq &&& 31
    let vlq := vlq >>> 5
    let digit := if vlq ≠ 0 then digit ||| 32 else digit
    let byte ← base64[digit]?
    if vlq = 0 then some [byte]
    else
      let rest ← encodeDigits n vlq
      some (byte :: rest)

/-- `none` is the overflow of `-value`. What does not fit `vlqMaxInBytes` has length 0. -/
def encodeSlowPath (value : ℤ) : Option (List UInt8) := do
  let vlq ←
    if 0 ≤ value then some ((BitVec.ofInt 32 value) <<< 1)
    else (i32 (-value)).map fun value => (BitVec.ofInt 32 value) <<< 1 ||| 1
  some ((encodeDigits vlqMaxInBytes vlq.toNat).getD [])

def vlqLookupTable : List (Option (List UInt8)) :=
  (List.range 256).map fun (i : ℕ) => encodeSlowPath i

/-- Small numbers come from the table. -/
def encode (value : ℤ) : Option (List UInt8) :=
  if 0 ≤ value ∧ value ≤ 255 then (vlqLookupTable[value.toNat]?).join else encodeSlowPath value

/-- `-|` -/
def subSaturating (a b : ℤ) : ℤ := max (-2 ^ 31) (min (2 ^ 31 - 1) (a - b))

def comma : UInt8 := 0x2c
def semicolon : UInt8 := 0x3b
def quote : UInt8 := 0x22

/-- A segment: what has changed since the last one. -/
def appendMappingToBuffer (buffer : List UInt8) (lastByte : UInt8)
    (prevState currentState : SourceMapState) : Option (List UInt8) := do
  let needsComma := lastByte ≠ 0 ∧ lastByte ≠ semicolon ∧ lastByte ≠ quote
  let generatedColumn ←
    encode (subSaturating currentState.generatedColumn prevState.generatedColumn)
  let sourceIndex ← encode (subSaturating currentState.sourceIndex prevState.sourceIndex)
  let originalLine ← encode (subSaturating currentState.originalLine prevState.originalLine)
  let originalColumn ← encode (subSaturating currentState.originalColumn prevState.originalColumn)
  some (buffer ++ (if needsComma then [comma] else [])
    ++ (generatedColumn ++ sourceIndex ++ originalLine ++ originalColumn))

/-- The same place; a name does not count. -/
def SourceMapState.Same (s t : SourceMapState) : Prop :=
  s.generatedColumn = t.generatedColumn ∧ s.sourceIndex = t.sourceIndex
    ∧ s.originalLine = t.originalLine ∧ s.originalColumn = t.originalColumn

theorem appendMappingToBuffer_congr {buffer : List UInt8} {lastByte : UInt8}
    {prev prev' cur cur' : SourceMapState} (hp : prev.Same prev') (hc : cur.Same cur') :
    appendMappingToBuffer buffer lastByte prev cur =
      appendMappingToBuffer buffer lastByte prev' cur' := by
  obtain ⟨hp1, hp2, hp3, hp4⟩ := hp
  obtain ⟨hc1, hc2, hc3, hc4⟩ := hc
  simp only [appendMappingToBuffer, hp1, hp2, hp3, hp4, hc1, hc2, hc3, hc4]

theorem encodeSlowPath_isSome {value : ℤ} (h : -2 ^ 31 < value) (h' : value < 2 ^ 31) :
    (encodeSlowPath value).isSome := by
  unfold encodeSlowPath
  by_cases hv : 0 ≤ value
  · rw [if_pos hv]
    rfl
  · rw [if_neg hv, i32_of_isI32 ⟨by omega, by omega⟩]
    rfl

theorem encode_isSome {value : ℤ} (h : -2 ^ 31 < value) (h' : value < 2 ^ 31) :
    (encode value).isSome := by
  unfold encode
  split
  · rename_i hv
    have hi : value.toNat < 256 := by omega
    rw [vlqLookupTable, List.getElem?_map, List.getElem?_range hi, map_some,
      join_some]
    exact encodeSlowPath_isSome (by omega) (by omega)
  · exact encodeSlowPath_isSome h h'

/-- No coordinate is negative. -/
structure SourceMapState.NonNeg (s : SourceMapState) : Prop where
  generatedColumn : 0 ≤ s.generatedColumn ∧ s.generatedColumn < 2 ^ 31
  sourceIndex : 0 ≤ s.sourceIndex ∧ s.sourceIndex < 2 ^ 31
  originalLine : 0 ≤ s.originalLine ∧ s.originalLine < 2 ^ 31
  originalColumn : 0 ≤ s.originalColumn ∧ s.originalColumn < 2 ^ 31

theorem encode_sub {a b : ℤ} (ha : 0 ≤ a ∧ a < 2 ^ 31) (hb : 0 ≤ b ∧ b < 2 ^ 31) :
    ∃ bytes, encode (subSaturating a b) = some bytes := by
  refine isSome_iff_exists.1 (encode_isSome ?_ ?_) <;>
    (unfold subSaturating; omega)

theorem exists_appendMappingToBuffer {buffer : List UInt8} {lastByte : UInt8}
    {prev cur : SourceMapState} (hp : prev.NonNeg) (hc : cur.NonNeg) :
    ∃ buffer', appendMappingToBuffer buffer lastByte prev cur = some buffer' := by
  obtain ⟨a, ha⟩ := encode_sub hc.generatedColumn hp.generatedColumn
  obtain ⟨b, hb⟩ := encode_sub hc.sourceIndex hp.sourceIndex
  obtain ⟨c, hc'⟩ := encode_sub hc.originalLine hp.originalLine
  obtain ⟨d, hd⟩ := encode_sub hc.originalColumn hp.originalColumn
  unfold appendMappingToBuffer
  rw [ha, hb, hc', hd]
  exact ⟨_, rfl⟩

end Cruller.SourceMap
