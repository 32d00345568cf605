import Cruller.SourceMap.Chunk

/-!
# Two ways to VLQ text

The printer's plain path writes VLQ text as it goes. The other path builds a blob, which
`appendVLQTo` turns into text later. `emitVLQ` catches up with the separators only when a mapping
comes, so between mappings the plain text is ahead of it by the separators since the last
(`Ahead`); that is all the two texts differ in at the end.
-/

namespace Cruller.SourceMap

open List Option Nat InternalSourceMap

/-- How many separators stand at the end. -/
def trailingSeparators (es : List Event) : ℕ :=
  (es.reverse.takeWhile fun e => match e with | .separator => true | .mapping _ => false).length

theorem trailingSeparators_separator (es : List Event) :
    trailingSeparators (es ++ [.separator]) = trailingSeparators es + 1 := by
  simp [trailingSeparators]

theorem trailingSeparators_mapping (es : List Event) (current : SourceMapState) :
    trailingSeparators (es ++ [.mapping current]) = 0 := by
  simp [trailingSeparators]

/-- So many semicolons, and the column begins anew. -/
theorem emitSeparators_spec (n : ℕ) (e : Emitter) :
    (emitSeparators n e).out = e.out ++ List.replicate n semicolon
      ∧ (emitSeparators n e).generatedLine = e.generatedLine + n
      ∧ (emitSeparators n e).prev =
        if n = 0 then e.prev else { e.prev with generatedColumn := 0 } := by
  induction n generalizing e with
  | zero => simp [emitSeparators]
  | succ n ih =>
    obtain ⟨hout, hln, hpr⟩ := ih
      { prev := { e.prev with generatedColumn := 0 }, generatedLine := e.generatedLine + 1
        out := e.out ++ [semicolon] }
    rw [emitSeparators]
    refine ⟨?_, ?_, ?_⟩
    · rw [hout, append_assoc, singleton_append, replicate_succ]
    · rw [hln]
      push_cast
      omega
    · rw [hpr, if_neg (succ_ne_zero n)]
      split <;> rfl

/-- The plain builder is `n` separators ahead of the emitter. -/
structure Ahead (c : ChunkBuilder) (e : Emitter) (n : ℕ) : Prop where
  internal : c.sourceMap.internal = none
  offset : c.sourceMap.offset = 0
  prependCount : c.prependCount = false
  data : c.sourceMap.data = (emitSeparators n e).out
  line : c.prevState.generatedLine = (emitSeparators n e).generatedLine
  prev : c.prevState.Same (emitSeparators n e).prev
  nonNeg : c.prevState.NonNeg

theorem ahead_init : Ahead (ChunkBuilder.init false 0) {} 0 :=
  ⟨rfl, rfl, rfl, rfl, rfl, ⟨rfl, rfl, rfl, rfl⟩,
    ⟨by decide, by decide, by decide, by decide⟩⟩

variable {c : ChunkBuilder} {e : Emitter} {n : ℕ}

theorem Ahead.separator (h : Ahead c e n) (hln : IsI32 (c.prevState.generatedLine + 1)) :
    ∃ c', c.step .separator = some c' ∧ Ahead c' e (n + 1) := by
  obtain ⟨hi, ho, hp, hdt, hl, ⟨-, hsi, hol, hoc⟩, hnn⟩ := h
  obtain ⟨hout, hgl, hpr⟩ := emitSeparators_spec n e
  obtain ⟨hout', hgl', hpr'⟩ := emitSeparators_spec (n + 1) e
  rw [ChunkBuilder.step, ChunkBuilder.appendLineSeparator, i32_of_isI32 hln]
  simp only [VLQSourceMap.appendLineSeparator, hi]
  refine ⟨_, rfl, rfl, ho, hp, ?_, ?_, ⟨?_, ?_, ?_, ?_⟩,
    ⟨by simp, hnn.sourceIndex, hnn.originalLine, hnn.originalColumn⟩⟩
  · rw [hout', hdt, hout, append_assoc, ← replicate_succ']
  · rw [hgl', hl, hgl]
    push_cast
    omega
  · rw [hpr', if_neg (succ_ne_zero n)]
  · rw [hpr', if_neg (succ_ne_zero n)]
    rw [hpr] at hsi
    split at hsi <;> exact hsi
  · rw [hpr', if_neg (succ_ne_zero n)]
    rw [hpr] at hol
    split at hol <;> exact hol
  · rw [hpr', if_neg (succ_ne_zero n)]
    rw [hpr] at hoc
    split at hoc <;> exact hoc

/-- With a mapping the builder and the emitter meet. -/
theorem Ahead.mapping (h : Ahead c e n) {current : SourceMapState} (hc : current.NonNeg) :
    ∃ c' e', c.step (.mapping current) = some c'
      ∧ emitVLQ e (current.on (e.generatedLine + n)) = some e' ∧ Ahead c' e' 0
      ∧ e'.generatedLine = e.generatedLine + n := by
  obtain ⟨hi, ho, hp, hdt, hl, hsm, hnn⟩ := h
  obtain ⟨hout, hgl, hpr⟩ := emitSeparators_spec n e
  have hcur : ({ current with generatedLine := c.prevState.generatedLine } :
      SourceMapState).NonNeg :=
    ⟨hc.generatedColumn, hc.sourceIndex, hc.originalLine, hc.originalColumn⟩
  have hls : (if c.sourceMap.data.length > c.sourceMap.offset then
      c.sourceMap.data.getLast?.getD 0 else 0) = c.sourceMap.data.getLast?.getD 0 := by
    rw [ho]
    rcases hd : c.sourceMap.data with _ | ⟨b, bs⟩
    · rfl
    · rw [if_pos (by simp)]
  obtain ⟨text, htx⟩ := @exists_appendMappingToBuffer c.sourceMap.data
    (c.sourceMap.data.getLast?.getD 0) _ _ hnn hcur
  have htx' : appendMappingToBuffer (emitSeparators n e).out
      ((emitSeparators n e).out.getLast?.getD 0) (emitSeparators n e).prev
      { generatedLine := e.generatedLine + n, generatedColumn := current.generatedColumn
        sourceIndex := current.sourceIndex, originalLine := current.originalLine
        originalColumn := current.originalColumn } = some text := by
    rw [← htx, ← hdt]
    exact (appendMappingToBuffer_congr hsm ⟨rfl, rfl, rfl, rfl⟩).symm
  have hbh : (e.generatedLine + n - e.generatedLine).toNat = n := by omega
  have hst : c.step (.mapping current) = some
      { c with
        sourceMap := { c.sourceMap with data := text, count := c.sourceMap.count + 1 }
        prevState := { current with generatedLine := c.prevState.generatedLine }
        hasPrevState := true } := by
    simp only [ChunkBuilder.step, ChunkBuilder.appendMapping, VLQSourceMap.append, hi, hls,
      htx, map_some]
  have hem : emitVLQ e (current.on (e.generatedLine + n)) = some
      { emitSeparators n e with
        prev := { current with generatedLine := e.generatedLine + n }, out := text } := by
    simp only [emitVLQ, SourceMapState.on, hbh, htx', map_some]
  exact ⟨_, _, hst, hem, ⟨hi, ho, hp, rfl, hl, ⟨rfl, rfl, rfl, rfl⟩, hcur⟩, hgl⟩

/-- The plain path writes what `emitVLQ` writes for the recorded mappings, and the separators that
are left. -/
theorem run_plain {es : List Event} (hf : ∀ c, .mapping c ∈ es → c.NonNeg)
    (hsep : separators es < 2 ^ 31) :
    ∃ c e, ChunkBuilder.run false 0 es = some c ∧ (recorded 0 es).foldlM emitVLQ {} = some e
      ∧ Ahead c e (trailingSeparators es)
      ∧ e.generatedLine + trailingSeparators es = separators es := by
  induction es using List.reverseRecOn with
  | nil => exact ⟨_, _, rfl, rfl, ahead_init, rfl⟩
  | append_singleton es e ih =>
    have hsep' : separators es < 2 ^ 31 := by
      rw [separators, countP_append, ← separators] at hsep
      omega
    obtain ⟨c, em, hc, hem, hah, hln⟩ := ih (fun c hc => hf c (by simp [hc])) hsep'
    rw [ChunkBuilder.run_concat, hc, bind_some, recorded_append, zero_add,
      foldlM_append, hem]
    rcases e with _ | current
    · have hcl : c.prevState.generatedLine = separators es := by
        rw [hah.line, (emitSeparators_spec _ _).2.1, hln]
      rw [separators_concat] at hsep ⊢
      obtain ⟨c', hc', hah'⟩ := hah.separator
        (by rw [hcl]; exact ⟨by omega, by omega⟩)
      rw [trailingSeparators_separator]
      exact ⟨c', em, hc', rfl, hah', by push_cast; omega⟩
    · obtain ⟨c', em', hc', hem', hah', hln'⟩ := hah.mapping (hf current (by simp))
      rw [trailingSeparators_mapping, separators_mapping]
      refine ⟨c', em', hc', ?_, hah', by rw [hln', ← hln]; push_cast; omega⟩
      rw [← hln]
      simp [recorded, hem']

theorem Ahead.text (h : Ahead c e n) :
    c.generateChunk.map Chunk.buffer = some (e.out ++ List.replicate n semicolon) := by
  simp only [ChunkBuilder.generateChunk, VLQSourceMap.getBuffer, h.internal, h.prependCount,
    Bool.false_eq_true, if_false, h.data, (emitSeparators_spec n e).1, bind_eq_bind,
    bind_some, map_some]

theorem foldlM_concat {α : Type} (l : List α) (acc : List α) :
    l.foldlM (fun acc a => some (acc ++ [a])) acc = some (acc ++ l) := by
  induction l generalizing acc with
  | nil => simp
  | cons a l ih => simp [ih]

/-- The build goes through exactly when the windows fit the format; the blob then gives back the
recorded mappings, and its text is the plain text without the separators after the last mapping. -/
theorem internalSourceMap_text (lines : ℕ) (es : List Event)
    (hf : ∀ c, .mapping c ∈ es → c.NonNeg) (hsep : separators es < 2 ^ 31) :
    ((encodeBlob lines es).isSome ↔ FitsFormat (recorded 0 es))
      ∧ ∀ blob, encodeBlob lines es = some blob →
        (InternalSourceMap.mk blob).states = some (recorded 0 es)
        ∧ ∃ text, (InternalSourceMap.mk blob).appendVLQTo [] = some text
          ∧ plainText es = some (text ++ List.replicate (trailingSeparators es) semicolon) := by
  refine ⟨encode_isSome_iff hf hsep, fun blob hblob => ?_⟩
  obtain ⟨-, wins, hs, hholds⟩ := encode_holds (fun c hc => (hf c hc).fits) hblob
  obtain ⟨c, e, hc, he, hahead, -⟩ := run_plain hf hsep
  refine ⟨?_, e.out, ?_, ?_⟩
  · rw [InternalSourceMap.states, hholds.forEach, hs, foldlM_concat, nil_append]
  · rw [InternalSourceMap.appendVLQTo, hholds.forEach, hs, he, map_some]
  · rw [plainText, hc, bind_some, hahead.text]

/-- A mapping on the first line and one on the third. -/
theorem internalSourceMap_text_lines :
    ((encodeBlob 3 [.mapping {}, .separator, .separator,
        .mapping { generatedColumn := 7, sourceIndex := 1, originalLine := 2 },
        .separator]).isSome ↔
      FitsFormat (recorded 0 [.mapping {}, .separator, .separator,
        .mapping { generatedColumn := 7, sourceIndex := 1, originalLine := 2 }, .separator]))
      ∧ ∀ blob, encodeBlob 3 [.mapping {}, .separator, .separator,
          .mapping { generatedColumn := 7, sourceIndex := 1, originalLine := 2 }, .separator] =
          some blob →
        (InternalSourceMap.mk blob).states = some (recorded 0 [.mapping {}, .separator, .separator,
          .mapping { generatedColumn := 7, sourceIndex := 1, originalLine := 2 }, .separator])
        ∧ ∃ text, (InternalSourceMap.mk blob).appendVLQTo [] = some text
          ∧ plainText [.mapping {}, .separator, .separator,
            .mapping { generatedColumn := 7, sourceIndex := 1, originalLine := 2 }, .separator] =
            some (text ++ List.replicate (trailingSeparators [.mapping {}, .separator, .separator,
              .mapping { generatedColumn := 7, sourceIndex := 1, originalLine := 2 }, .separator])
              semicolon) := by
  refine internalSourceMap_text 3 _ ?_ (by decide)
  intro c hc
  simp only [mem_cons, Event.mapping.injEq, reduceCtorEq, not_mem_nil, false_or,
    or_false] at hc
  rcases hc with rfl | rfl
  · exact ⟨by decide, by decide, by decide, by decide⟩
  · exact ⟨by decide, by decide, by decide, by decide⟩

/-- `2 ^ 32` mappings are more than the builder counts to. -/
theorem internalSourceMap_text_refuted :
    (∀ c, .mapping c ∈ List.replicate (2 ^ 32) (Event.mapping {}) → c.NonNeg)
      ∧ separators (List.replicate (2 ^ 32) (Event.mapping {})) = 0
      ∧ encodeBlob 0 (List.replicate (2 ^ 32) (Event.mapping {})) = none := by
  have hf : ∀ c, .mapping c ∈ List.replicate (2 ^ 32) (Event.mapping {}) → c.NonNeg := by
    intro c hc
    obtain rfl := Event.mapping.inj (eq_of_mem_replicate hc)
    exact ⟨by decide, by decide, by decide, by decide⟩
  have hsep : ∀ n, separators (List.replicate n (Event.mapping {})) = 0 := by
    intro n
    rw [separators, countP_replicate]
    rfl
  have hlen : ∀ n, (recorded 0 (List.replicate n (Event.mapping {}))).length = n := by
    intro n
    induction n with
    | zero => rfl
    | succ n ih => rw [replicate_succ, recorded, length_cons, ih]
  refine ⟨hf, hsep _, ?_⟩
  rcases hb : encodeBlob 0 (List.replicate (2 ^ 32) (Event.mapping {})) with _ | blob
  · rfl
  · have hfit := (encode_holds (fun c hc => (hf c hc).fits) hb).1
    have hlt := hfit.length_lt (recorded_nonNeg hf (by rw [hsep]; norm_num))
    rw [hlen] at hlt
    exact absurd hlt (lt_irrefl _)

end Cruller.SourceMap
