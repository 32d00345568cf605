import Cruller.SourceMap.Capacity

/-!
# Chunks

`sourcemap/Chunk.zig`: the printer's builder, which writes either VLQ text or a blob. Of it this is
what happens at a line separator and at a mapping, and how the chunk is generated; the scan of the
output that tells when a line ends is not part of it.

A blob comes from a run of the window builder on the same events (`run_internal`), so it holds the
recorded mappings (`encode_holds`), and it comes exactly when they fit the format
(`encode_isSome_iff`).
-/

namespace Cruller.SourceMap

open List Option

/-- Mappings as a text, or for the runtime's own map. -/
structure VLQSourceMap where
  data : List UInt8 := []
  internal : Option Builder := none
  count : ℕ := 0
  offset : ℕ := 0

namespace VLQSourceMap

def init (prependCount : Bool) : VLQSourceMap :=
  if prependCount then { internal := some {} } else {}

def appendLineSeparator (m : VLQSourceMap) : Option VLQSourceMap :=
  match m.internal with
  | some b => b.appendLineSeparator.map fun b => { m with internal := some b }
  | none => some { m with data := m.data ++ [semicolon] }

/-- One mapping more, into the internal map where there is one, else as text. -/
def append (m : VLQSourceMap) (currentState prevState : SourceMapState) : Option VLQSourceMap :=
  match m.internal with
  | some b => (b.appendMapping currentState).map fun b =>
      { m with internal := some b, count := m.count + 1 }
  | none =>
    let lastByte := if m.data.length > m.offset then m.data.getLast?.getD 0 else 0
    (appendMappingToBuffer m.data lastByte prevState currentState).map fun data =>
      { m with data, count := m.count + 1 }

def shouldIgnore (m : VLQSourceMap) : Bool := m.count = 0

/-- The buffer is the new `data`. -/
def getBuffer (m : VLQSourceMap) : Option VLQSourceMap :=
  match m.internal with
  | some b => b.finalize.map fun data => { m with data, internal := none }
  | none => some m

end VLQSourceMap

structure Chunk where
  buffer : List UInt8
  mappingsCount : ℕ
  endState : SourceMapState
  shouldIgnore : Bool

/-- What has been printed so far of a chunk's map. -/
structure ChunkBuilder where
  sourceMap : VLQSourceMap
  prevState : SourceMapState := {}
  hasPrevState : Bool := false
  approximateInputLineCount : ℕ
  prependCount : Bool

namespace ChunkBuilder

def init (prependCount : Bool) (approximateInputLineCount : ℕ) : ChunkBuilder where
  sourceMap := VLQSourceMap.init prependCount
  approximateInputLineCount := approximateInputLineCount
  prependCount := prependCount

/-- A line ends, in `updateGeneratedLineAndColumn`. -/
def appendLineSeparator (b : ChunkBuilder) : Option ChunkBuilder := do
  let generatedLine ← i32 (b.prevState.generatedLine + 1)
  let sourceMap ← b.sourceMap.appendLineSeparator
  some { b with sourceMap, prevState := { b.prevState with generatedLine, generatedColumn := 0 } }

/-- A mapping, which is written as a change of the last one. -/
def appendMapping (b : ChunkBuilder) (currentState : SourceMapState) : Option ChunkBuilder :=
  (b.sourceMap.append currentState b.prevState).map fun sourceMap =>
    { b with sourceMap, prevState := currentState, hasPrevState := true }

/-- The map of the chunk. -/
def generateChunk (b : ChunkBuilder) : Option Chunk := do
  let sourceMap ← b.sourceMap.getBuffer
  let buffer ←
    (if b.prependCount then
      writeHeader sourceMap.data sourceMap.count b.approximateInputLineCount
    else some sourceMap.data)
  some
    { buffer
      mappingsCount := sourceMap.count
      endState := b.prevState
      shouldIgnore := sourceMap.shouldIgnore }

/-- Every call passes the builder's own line on. -/
def step (b : ChunkBuilder) : Event → Option ChunkBuilder
  | .separator => b.appendLineSeparator
  | .mapping current =>
    b.appendMapping { current with generatedLine := b.prevState.generatedLine }

def run (prependCount : Bool) (approximateInputLineCount : ℕ) (es : List Event) :
    Option ChunkBuilder :=
  es.foldlM step (init prependCount approximateInputLineCount)

end ChunkBuilder

/-- The map in the runtime's own format. -/
def encodeBlob (approximateInputLineCount : ℕ) (es : List Event) : Option (List UInt8) :=
  (ChunkBuilder.run true approximateInputLineCount es).bind fun b =>
    b.generateChunk.map Chunk.buffer

/-- The text that the plain path makes of the same run. -/
def plainText (es : List Event) : Option (List UInt8) :=
  (ChunkBuilder.run false 0 es).bind fun b => b.generateChunk.map Chunk.buffer

variable {lines : ℕ} {es : List Event} {blob : List UInt8}

theorem ChunkBuilder.run_concat (prependCount : Bool) (lines : ℕ) (es : List Event) (e : Event) :
    ChunkBuilder.run prependCount lines (es ++ [e]) =
      (ChunkBuilder.run prependCount lines es).bind fun b => b.step e := by
  rw [ChunkBuilder.run, foldlM_append]
  simp [ChunkBuilder.run]

/-- The printer's builder, running the window builder `b` at line `line`. -/
structure ChunkBuilder.Runs (c : ChunkBuilder) (lines : ℕ) (b : Builder) (line : ℤ) : Prop where
  internal : c.sourceMap.internal = some b
  line : c.prevState.generatedLine = line
  lines : c.approximateInputLineCount = lines
  prependCount : c.prependCount = true

variable {c : ChunkBuilder} {b : Builder}

/-- An event is recorded as the builder takes it. -/
theorem ChunkBuilder.Runs.step {c' : ChunkBuilder} {e : Event}
    (h : c.Runs lines b (separators es)) (hs : c.step e = some c') :
    ∃ b', b.record e = some b' ∧ c'.Runs lines b' (separators (es ++ [e])) := by
  obtain ⟨hi, hl, hln, hp⟩ := h
  rcases e with _ | current
  · simp only [ChunkBuilder.step, ChunkBuilder.appendLineSeparator,
      VLQSourceMap.appendLineSeparator, hi, bind_eq_bind, bind_eq_some_iff,
      map_eq_some_iff, i32_eq_some, some.injEq] at hs
    obtain ⟨_, ⟨-, rfl⟩, _, ⟨b', hb', rfl⟩, rfl⟩ := hs
    refine ⟨b', hb', rfl, ?_, hln, hp⟩
    rw [separators_concat]
    push_cast
    rw [hl]
  · simp only [ChunkBuilder.step, ChunkBuilder.appendMapping, VLQSourceMap.append, hi,
      map_eq_some_iff] at hs
    obtain ⟨_, ⟨b', hb', rfl⟩, rfl⟩ := hs
    exact ⟨b', hb', rfl, by rw [separators_mapping]; exact hl, hln, hp⟩

/-- What can be recorded the builder takes, within the range of its counter. -/
theorem ChunkBuilder.Runs.exists_step {b' : Builder} {e : Event}
    (h : c.Runs lines b (separators es)) (hsep : separators (es ++ [e]) < 2 ^ 31)
    (hb : b.record e = some b') : ∃ c', c.step e = some c' := by
  obtain ⟨hi, hl, -, -⟩ := h
  rcases e with _ | current
  · rw [separators_concat] at hsep
    rw [Builder.record] at hb
    rw [ChunkBuilder.step, ChunkBuilder.appendLineSeparator, hl,
      i32_of_isI32 ⟨by omega, by omega⟩]
    simp only [VLQSourceMap.appendLineSeparator, hi, hb]
    exact ⟨_, rfl⟩
  · have hb' : b.appendMapping { current with generatedLine := c.prevState.generatedLine } =
      some b' := hb
    simp only [ChunkBuilder.step, ChunkBuilder.appendMapping, VLQSourceMap.append, hi, hb']
    exact ⟨_, rfl⟩

/-- With a count in front, the printer's builder runs the window builder. -/
theorem run_internal (h : ChunkBuilder.run true lines es = some c) :
    ∃ b, Builder.run es = some b ∧ c.Runs lines b (separators es) := by
  induction es using List.reverseRecOn generalizing c with
  | nil =>
    obtain rfl := some.inj h
    exact ⟨{}, rfl, rfl, rfl, rfl, rfl⟩
  | append_singleton es e ih =>
    rw [ChunkBuilder.run_concat, bind_eq_some_iff] at h
    obtain ⟨c₀, hc₀, h⟩ := h
    obtain ⟨b, hb, hrn⟩ := ih hc₀
    obtain ⟨b', hb', hrn'⟩ := hrn.step h
    exact ⟨b', by rw [Builder.run_concat, hb, bind_some, hb'], hrn'⟩

theorem exists_run_internal (hsep : separators es < 2 ^ 31)
    (h : Builder.run es = some b) : ∃ c, ChunkBuilder.run true lines es = some c := by
  induction es using List.reverseRecOn generalizing b with
  | nil => exact ⟨_, rfl⟩
  | append_singleton es e ih =>
    rw [Builder.run_concat, bind_eq_some_iff] at h
    obtain ⟨b₀, hb₀, h⟩ := h
    have hsep' : separators es < 2 ^ 31 := by
      rw [separators, countP_append, ← separators] at hsep
      omega
    obtain ⟨c, hc⟩ := ih hsep' hb₀
    obtain ⟨b₁, hb₁, hrn⟩ := run_internal hc
    obtain rfl : b₀ = b₁ := some.inj (hb₀.symm.trans hb₁)
    obtain ⟨c', hc'⟩ := hrn.exists_step hsep h
    exact ⟨c', by rw [ChunkBuilder.run_concat, hc, bind_some, hc']⟩

theorem ChunkBuilder.Runs.generateChunk {line : ℤ}
    (h : c.Runs lines b line) :
    c.generateChunk.map Chunk.buffer =
      b.finalize.bind fun out => writeHeader out c.sourceMap.count lines := by
  simp only [ChunkBuilder.generateChunk, VLQSourceMap.getBuffer, h.internal, h.prependCount,
    h.lines, if_true]
  rcases b.finalize with _ | out
  · rfl
  · simp only [bind_eq_bind, bind_some, map_some]
    rcases writeHeader out c.sourceMap.count lines with _ | data <;> rfl

/-- A blob holds the mappings that its run recorded. -/
theorem encode_holds (hf : ∀ c, .mapping c ∈ es → c.Fits) (h : encodeBlob lines es = some blob) :
    FitsFormat (recorded 0 es) ∧ ∃ wins, pieces wins = recorded 0 es ∧ Holds ⟨blob⟩ wins := by
  rw [encodeBlob, bind_eq_some_iff] at h
  obtain ⟨c, hc, h⟩ := h
  obtain ⟨b, hb, hrn⟩ := run_internal hc
  obtain ⟨hrec, -⟩ := run_records hf hb
  rw [hrn.generateChunk, bind_eq_some_iff] at h
  obtain ⟨out, hout, h⟩ := h
  obtain ⟨data, wins, hdt, hs, hfl, hrm, hsum, hhl⟩ :=
    hrec.finalize hout c.sourceMap.count lines
  obtain rfl : data = blob := some.inj (hdt.symm.trans h)
  refine ⟨?_, wins, hs, hhl⟩
  rw [FitsFormat, ← hs, windows_pieces hfl hrm]
  exact hsum

/-- A blob comes exactly when the mappings fit the format. -/
theorem encode_isSome_iff (hf : ∀ c, .mapping c ∈ es → c.NonNeg) (hsep : separators es < 2 ^ 31) :
    (encodeBlob lines es).isSome ↔ FitsFormat (recorded 0 es) := by
  constructor
  · intro h
    obtain ⟨blob, hbl⟩ := isSome_iff_exists.1 h
    exact (encode_holds (fun c hc => (hf c hc).fits) hbl).1
  · intro hfit
    have hnn := recorded_nonNeg hf hsep
    obtain ⟨b, hb⟩ := exists_run hf hsep hnn hfit (prefix_refl _)
    obtain ⟨c, hc⟩ : ∃ c, ChunkBuilder.run true lines es = some c := exists_run_internal hsep hb
    obtain ⟨b₁, hb₁, hrn⟩ := run_internal hc
    obtain rfl : b = b₁ := some.inj (hb.symm.trans hb₁)
    obtain ⟨hrec, -⟩ := run_records (fun c hc => (hf c hc).fits) hb
    obtain ⟨out, hout⟩ := hrec.exists_finalize hnn hfit
    obtain ⟨data, -, hdt, -⟩ := hrec.finalize hout c.sourceMap.count lines
    rw [encodeBlob, hc, bind_some, hrn.generateChunk, hout, bind_some, hdt]
    rfl

end Cruller.SourceMap
