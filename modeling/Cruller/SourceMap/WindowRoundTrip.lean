import Cruller.SourceMap.Window

/-!
# Windows are read back

A reader that stands before a list of differences (`Reads`) has the rest of every lane under the
cursor of that lane, and the rest of every mask in front of its index. One call of `next` takes the
first difference off the list and adds it to the state (`Reads.next`), and `parse` at the start of
what `flushWindow` wrote gives a reader before all of them (`reads_parse`).
-/

namespace Cruller.SourceMap

open List Option Nat

/-- Each field has 32 bits. -/
structure State.Fits (s : State) : Prop where
  generatedLine : IsI32 s.generatedLine
  generatedColumn : IsI32 s.generatedColumn
  sourceIndex : IsI32 s.sourceIndex
  originalLine : IsI32 s.originalLine
  originalColumn : IsI32 s.originalColumn

/-- Each change has 32 bits. -/
structure Delta.Fits (d : Delta) : Prop where
  dGenLine : IsI32 d.dGenLine
  dGenCol : IsI32 d.dGenCol
  dOrigLine : IsI32 d.dOrigLine
  dOrigCol : IsI32 d.dOrigCol
  dSrcIdx : IsI32 d.dSrcIdx

/-- The change from one mapping to another. -/
structure Delta.Between (prev cur : State) (d : Delta) : Prop where
  dGenLine : d.dGenLine = cur.generatedLine - prev.generatedLine
  dGenCol : d.dGenCol =
    if d.dGenLine ≠ 0 then cur.generatedColumn else cur.generatedColumn - prev.generatedColumn
  dOrigLine : d.dOrigLine = cur.originalLine - prev.originalLine
  dOrigCol : d.dOrigCol = cur.originalColumn - prev.originalColumn
  dSrcIdx : d.dSrcIdx = cur.sourceIndex - prev.sourceIndex

section

variable {prev cur : State} {d : Delta} {ds : List Delta}

theorem delta_eq_some (hc : cur.Fits) (h : delta prev cur = some d) :
    d.Between prev cur ∧ d.Fits := by
  simp only [delta, bind_eq_bind, bind_eq_some_iff, i32_eq_some, some.injEq] at h
  obtain ⟨_, ⟨h1, rfl⟩, c, h2, _, ⟨h3, rfl⟩, _, ⟨h4, rfl⟩, _, ⟨h5, rfl⟩, rfl⟩ := h
  by_cases hl : cur.generatedLine - prev.generatedLine ≠ 0
  · rw [if_pos hl, some.injEq] at h2
    subst h2
    exact ⟨⟨rfl, (if_pos hl).symm, rfl, rfl, rfl⟩, h1, hc.generatedColumn, h3, h4, h5⟩
  · rw [if_neg hl] at h2
    obtain ⟨hc, rfl⟩ := i32_eq_some.1 h2
    exact ⟨⟨rfl, (if_neg hl).symm, rfl, rfl, rfl⟩, h1, hc, h3, h4, h5⟩

theorem Delta.Between.advance (h : d.Between prev cur) (hc : cur.Fits) :
    State.advance { prev with sourceIndex := prev.sourceIndex + d.dSrcIdx }
      d.dGenLine d.dGenCol d.dOrigLine d.dOrigCol = some cur := by
  have hl : prev.generatedLine + d.dGenLine = cur.generatedLine := by rw [h.dGenLine]; omega
  have hol : prev.originalLine + d.dOrigLine = cur.originalLine := by rw [h.dOrigLine]; omega
  have hoc : prev.originalColumn + d.dOrigCol = cur.originalColumn := by rw [h.dOrigCol]; omega
  have hsi : prev.sourceIndex + d.dSrcIdx = cur.sourceIndex := by rw [h.dSrcIdx]; omega
  have hgc := h.dGenCol
  simp only [State.advance, bind_eq_bind, hsi]
  by_cases h0 : d.dGenLine ≠ 0
  · rw [if_pos h0] at hgc
    simp only [if_pos h0, hl, hgc, i32_of_isI32 hc.generatedLine, map_some,
      bind_some, hol, hoc, i32_of_isI32 hc.originalLine, i32_of_isI32 hc.originalColumn]
  · rw [if_neg h0] at hgc
    have hcol : prev.generatedColumn + d.dGenCol = cur.generatedColumn := by omega
    have hln : prev.generatedLine = cur.generatedLine := by omega
    simp only [if_neg h0, hcol, hln, i32_of_isI32 hc.generatedColumn, map_some,
      bind_some, hol, hoc, i32_of_isI32 hc.originalLine, i32_of_isI32 hc.originalColumn]

theorem Delta.Between.i32_sourceIndex (h : d.Between prev cur) (hc : cur.Fits) :
    i32 (prev.sourceIndex + d.dSrcIdx) = some (prev.sourceIndex + d.dSrcIdx) := by
  have hsi : prev.sourceIndex + d.dSrcIdx = cur.sourceIndex := by rw [h.dSrcIdx]; omega
  rw [hsi, i32_of_isI32 hc.sourceIndex]

theorem deltas_cons {rest : List State} (h : deltas prev (cur :: rest) = some ds) :
    ∃ d ds', delta prev cur = some d ∧ deltas cur rest = some ds' ∧ ds = d :: ds' := by
  simp only [deltas, bind_eq_bind, bind_eq_some_iff, some.injEq] at h
  obtain ⟨d, hd, ds', hds, rfl⟩ := h
  exact ⟨d, ds', hd, hds, rfl⟩

variable {p : Delta → Bool} {value : Delta → ℤ} {bytes : List UInt8} {pos k : ℕ}

theorem lane_cons : lane p value (d :: ds) =
    (if p d then [] else writeVarint (value d)) ++ lane p value ds := flatMap_cons

theorem lane_length (p : Delta → Bool) (value : Delta → ℤ) (ds : List Delta) :
    (lane p value ds).length ≤ maxVarintLen * ds.length := by
  induction ds with
  | nil => simp [lane]
  | cons d ds ih =>
    have := (writeVarint_length (value d)).2
    rw [lane_cons, length_append, length_cons, mul_succ]
    split
    · rw [length_nil]
      omega
    · omega

theorem lane_length_ge (value : Delta → ℤ) (ds : List Delta) :
    ds.length ≤ (lane (fun _ => false) value ds).length := by
  induction ds with
  | nil => simp [lane]
  | cons d ds ih =>
    have := (writeVarint_length (value d)).1
    rw [lane_cons, if_neg Bool.false_ne_true, length_append, length_cons]
    omega

theorem readUnless_lane {w : ℤ} (hv : IsI32 (value d))
    (h : Lies bytes pos (lane p value (d :: ds))) :
    ∃ pos', WindowReader.readUnless bytes (p d) w pos = some (if p d then w else value d, pos')
      ∧ Lies bytes pos' (lane p value ds) := by
  rw [lane_cons, lies_append] at h
  by_cases hp : p d
  · rw [if_pos hp] at h ⊢
    exact ⟨pos, by rw [WindowReader.readUnless, if_pos hp], by simpa using h.2⟩
  · rw [if_neg hp] at h ⊢
    refine ⟨pos + (writeVarint (value d)).length, ?_, h.2⟩
    rw [WindowReader.readUnless, if_neg hp, readVarint_writeVarint hv h.1]

attribute [local simp] genLineExceptions

theorem genLineExceptions_ne_nil (k : ℕ) (ds : List Delta) : genLineExceptions k ds ≠ [] := by
  induction ds generalizing k with
  | nil => simp
  | cons d ds ih =>
    rw [genLineExceptions]
    split
    · simp
    · exact ih _

theorem genLineExceptions_head_ne {j : ℕ} (hj : j < k) (hk : k + ds.length < 0xFF) :
    ((genLineExceptions k ds).head (genLineExceptions_ne_nil k ds)).toNat ≠ j := by
  induction ds generalizing k with
  | nil =>
    have : k < 0xFF := by simpa using hk
    simp only [genLineExceptions, head_cons, show (0xFF : UInt8).toNat = 0xFF by rfl]
    omega
  | cons d ds ih =>
    rw [length_cons] at hk
    by_cases hd : d.exceptional
    · simp only [genLineExceptions, if_pos hd, cons_append, head_cons,
        UInt8.toNat_ofNat']
      omega
    · simp only [genLineExceptions, if_neg hd]
      exact ih (by omega) (by omega)

theorem genLineExceptions_of_not (h : ∀ d ∈ ds, d.exceptional = false) :
    genLineExceptions k ds = [0xFF] := by
  induction ds generalizing k with
  | nil => rfl
  | cons d ds ih =>
    rw [genLineExceptions, h d mem_cons_self]
    exact ih fun d hd => h d (mem_cons_of_mem _ hd)

theorem genLineExceptions_length (k : ℕ) (ds : List Delta) :
    (genLineExceptions k ds).length ≤ 1 + (1 + maxVarintLen) * ds.length := by
  induction ds generalizing k with
  | nil => simp
  | cons d ds ih =>
    have hv := (writeVarint_length d.dGenLine).2
    have := ih (k + 1)
    rw [genLineExceptions, length_cons, mul_succ]
    split
    · simp
      omega
    · omega

/-- Skipping the exceptions comes to the last byte of the list. -/
theorem skipExceptions_genLineExceptions (hfit : ∀ d ∈ ds, d.Fits) (hk : k + ds.length < 0xFF)
    (h : Lies bytes pos (genLineExceptions k ds)) {n : ℕ}
    (hn : (genLineExceptions k ds).length ≤ n) :
    skipExceptions bytes n pos = some (pos + (genLineExceptions k ds).length - 1) := by
  induction ds generalizing k pos n with
  | nil =>
    obtain ⟨n, rfl⟩ : ∃ m, n = m + 1 := ⟨n - 1, by simp [genLineExceptions] at hn; omega⟩
    rw [skipExceptions, (lies_cons.1 h).1]
    simp [genLineExceptions]
  | cons d ds ih =>
    rw [length_cons] at hk
    have hds := fun d hd => hfit d (mem_cons_of_mem _ hd)
    by_cases hd : d.exceptional
    · rw [genLineExceptions, if_pos hd] at h hn ⊢
      rw [cons_append, length_cons, length_append] at hn
      obtain ⟨n, rfl⟩ : ∃ m, n = m + 1 := ⟨n - 1, by omega⟩
      have hne : UInt8.ofNat k ≠ 0xFF := by
        intro heq
        have := congrArg UInt8.toNat heq
        rw [UInt8.toNat_ofNat', show (0xFF : UInt8).toNat = 255 by rfl] at this
        omega
      obtain ⟨hb, hrs⟩ := lies_cons.1 h
      obtain ⟨hv, hrs⟩ := lies_append.1 hrs
      have hpos := length_pos_iff.2 (genLineExceptions_ne_nil (k + 1) ds)
      rw [skipExceptions, hb]
      simp only [if_neg hne, readVarint_writeVarint (hfit d mem_cons_self).dGenLine hv,
        bind_some, ih hds (by omega) hrs (n := n) (by omega), cons_append,
        length_cons, length_append]
      congr 1
      omega
    · rw [genLineExceptions, if_neg hd] at h hn ⊢
      exact ih hds (by omega) h hn

end

namespace WindowReader

/-- The exceptions of the lines, when the differences `ds` follow from index `k` on. -/
structure Lines (r : WindowReader) (k : ℕ) (ds : List Delta) : Prop where
  next : r.genLineExcNextIdx =
    ((genLineExceptions k ds).head (genLineExceptions_ne_nil k ds)).toNat
  lies : r.flags &&& flagHasGenLineExceptions ≠ 0 →
    Lies r.bytes r.genLineExcPos (genLineExceptions k ds)
  not_exceptional : r.flags &&& flagHasGenLineExceptions = 0 → ∀ d ∈ ds, d.exceptional = false

/-- The lane of sources is where the reader has it. -/
structure Sources (r : WindowReader) (k : ℕ) (ds : List Delta) : Prop where
  marks : r.flags &&& flagHasSrcIdx ≠ 0 → Marks r.bytes r.srcIdxMask k (ds.map Delta.srcIdxEq)
  lies : r.flags &&& flagHasSrcIdx ≠ 0 → Lies r.bytes r.srcIdxExcPos (srcIdxLane ds)
  srcIdxEq : r.flags &&& flagHasSrcIdx = 0 → ∀ d ∈ ds, d.srcIdxEq

/-- The reader stands at index `k`, before `ds`. -/
structure Reads (r : WindowReader) (k : ℕ) (ds : List Delta) : Prop where
  deltaIdx : r.deltaIdx = k
  count : r.count = k + ds.length + 1
  room : k + ds.length < syncInterval
  fits : ∀ d ∈ ds, d.Fits
  genLineMask : Marks r.bytes (r.base + WinHdr.genLineMaskOff) k (ds.map Delta.genLine)
  origLineMask : Marks r.bytes (r.base + WinHdr.origLineEqMaskOff) k (ds.map Delta.origLineEq)
  origColMask : Marks r.bytes (r.base + WinHdr.origColEqMaskOff) k (ds.map Delta.origColEq)
  genCol : Lies r.bytes r.genColPos (genColLane ds)
  origLine : Lies r.bytes r.origLineExcPos (origLineLane ds)
  origCol : Lies r.bytes r.origColExcPos (origColLane ds)
  lines : r.Lines k ds
  sources : r.Sources k ds

variable {r : WindowReader} {prev cur : State} {d : Delta} {ds : List Delta} {k : ℕ}

theorem Reads.done (h : r.Reads k ds) : r.done = ds.isEmpty := by
  rw [WindowReader.done, h.deltaIdx, h.count]
  cases ds <;> simp

theorem genLine_of_not_exceptional (h : d.exceptional = false) :
    (if d.genLine then 1 else 0) = d.dGenLine := by
  simp only [Delta.exceptional, Bool.or_eq_false_iff, decide_eq_false_iff_not] at h
  simp only [Delta.genLine, decide_eq_true_eq]
  split <;> omega

/-- The next lines are those of the first difference, exception or not. -/
theorem Lines.nextGenLine (hr : r.Lines k (d :: ds)) (hd : d.Fits)
    (hms : testBit r.bytes (r.base + WinHdr.origLineEqMaskOff) k = some d.origLineEq)
    (hk : k + 1 + ds.length < 0xFF) :
    ∃ pos next, r.nextGenLine k (if d.genLine then 1 else 0)
        (if d.origLineEq then (if d.genLine then 1 else 0) else d.dOrigLine) =
        some ({ r with genLineExcPos := pos, genLineExcNextIdx := next }, d.dGenLine, d.dOrigLine)
      ∧ Lines { r with genLineExcPos := pos, genLineExcNextIdx := next } (k + 1) ds := by
  have hol : (if d.origLineEq then d.dGenLine else d.dOrigLine) = d.dOrigLine := by
    split
    · rename_i h
      exact (of_decide_eq_true h).symm
    · rfl
  have hnx := hr.next
  have hnot := fun hf e he => hr.not_exceptional hf e (mem_cons_of_mem d he)
  by_cases he : d.exceptional
  · have hfl : r.flags &&& flagHasGenLineExceptions ≠ 0 := by
      intro h0
      rw [hr.not_exceptional h0 d mem_cons_self] at he
      exact Bool.false_ne_true he
    have hls := hr.lies hfl
    simp only [genLineExceptions, if_pos he, cons_append, head_cons] at hls hnx
    have hidx : r.genLineExcNextIdx = k := by
      rw [hnx, UInt8.toNat_ofNat']
      omega
    obtain ⟨hv, hrs⟩ := lies_append.1 (lies_cons.1 hls).2
    obtain ⟨b, bs, hb⟩ := exists_cons_of_ne_nil (genLineExceptions_ne_nil (k + 1) ds)
    have hrd := (lies_cons.1 (hb ▸ hrs)).1
    refine ⟨_, b.toNat, ?_, by simp only [hb, head_cons], fun _ => hrs, hnot⟩
    rw [WindowReader.nextGenLine, if_pos hidx, readVarint_writeVarint hd.dGenLine hv]
    simp only [bind_eq_bind, bind_some, hms, hrd]
    -- where the lines differ alike, the corrected difference replaces the one bit
    by_cases heq : d.origLineEq
    · rw [if_pos heq] at hol ⊢
      rw [hol]
    · rw [if_neg heq, if_neg heq]
  · have he' : d.exceptional = false := by simpa using he
    simp only [genLineExceptions, if_neg he] at hnx
    have hne : r.genLineExcNextIdx ≠ k := by
      rw [hnx]
      exact genLineExceptions_head_ne (lt_succ_self k) hk
    refine ⟨r.genLineExcPos, r.genLineExcNextIdx, ?_, hnx, fun hf => ?_, hnot⟩
    · rw [WindowReader.nextGenLine, if_neg hne, genLine_of_not_exceptional he', hol]
    · have := hr.lies hf
      rwa [genLineExceptions, if_neg he] at this

theorem Sources.nextSrcIdx (hr : r.Sources k (d :: ds)) (hd : d.Fits)
    (hs : i32 (prev.sourceIndex + d.dSrcIdx) = some (prev.sourceIndex + d.dSrcIdx)) :
    ∃ pos, r.nextSrcIdx k prev = some ({ r with srcIdxExcPos := pos },
        { prev with sourceIndex := prev.sourceIndex + d.dSrcIdx })
      ∧ Sources { r with srcIdxExcPos := pos } (k + 1) ds := by
  have hzr : d.srcIdxEq → prev.sourceIndex + d.dSrcIdx = prev.sourceIndex := by
    intro h
    rw [of_decide_eq_true h, add_zero]
  have hmr := fun hf => (hr.marks hf).tail
  have hall := fun hf e he => hr.srcIdxEq hf e (mem_cons_of_mem d he)
  by_cases hf : r.flags &&& flagHasSrcIdx ≠ 0
  · have hl := hr.lies hf
    rw [srcIdxLane, lane_cons, lies_append] at hl
    simp only [WindowReader.nextSrcIdx, if_pos hf, bind_eq_bind, (hr.marks hf).head,
      bind_some]
    by_cases he : d.srcIdxEq
    · rw [if_pos he] at hl ⊢
      exact ⟨r.srcIdxExcPos, by rw [hzr he], hmr, fun _ => hl.2, hall⟩
    · rw [if_neg he] at hl ⊢
      refine ⟨r.srcIdxExcPos + (writeVarint d.dSrcIdx).length, ?_, hmr, fun _ => hl.2, hall⟩
      rw [readVarint_writeVarint hd.dSrcIdx hl.1, bind_some, hs, bind_some]
  · refine ⟨r.srcIdxExcPos, ?_, hmr, fun h => absurd h hf, hall⟩
    rw [WindowReader.nextSrcIdx, if_neg hf, hzr (hr.srcIdxEq (not_not.1 hf) d mem_cons_self)]

/-- The rare lanes give the first difference what is its own. -/
theorem nextRare_eq (hl : r.Lines k (d :: ds)) (hr : r.Sources k (d :: ds)) (hd : d.Fits)
    (hms : testBit r.bytes (r.base + WinHdr.origLineEqMaskOff) k = some d.origLineEq)
    (hk : k + 1 + ds.length < 0xFF)
    (hs : i32 (prev.sourceIndex + d.dSrcIdx) = some (prev.sourceIndex + d.dSrcIdx)) :
    ∃ pos next pos',
      (if r.flags ≠ 0 then r.nextRare k (if d.genLine then 1 else 0)
          (if d.origLineEq then (if d.genLine then 1 else 0) else d.dOrigLine) prev
        else some (r, (if d.genLine then 1 else 0),
          (if d.origLineEq then (if d.genLine then 1 else 0) else d.dOrigLine), prev)) =
        some ({ r with genLineExcPos := pos, genLineExcNextIdx := next, srcIdxExcPos := pos' },
          d.dGenLine, d.dOrigLine, { prev with sourceIndex := prev.sourceIndex + d.dSrcIdx })
      ∧ Lines { r with genLineExcPos := pos, genLineExcNextIdx := next, srcIdxExcPos := pos' }
        (k + 1) ds
      ∧ Sources { r with genLineExcPos := pos, genLineExcNextIdx := next, srcIdxExcPos := pos' }
        (k + 1) ds := by
  obtain ⟨pos, next, hgen, hl'⟩ := hl.nextGenLine hd hms hk
  obtain ⟨pos', hsrc, hr'⟩ := Sources.nextSrcIdx
    (r := { r with genLineExcPos := pos, genLineExcNextIdx := next }) ⟨hr.1, hr.2, hr.3⟩ hd hs
  by_cases hf : r.flags ≠ 0
  · refine ⟨pos, next, pos', ?_, ⟨hl'.1, hl'.2, hl'.3⟩, hr'⟩
    rw [if_pos hf, nextRare, hgen]
    simp only [bind_eq_bind, bind_some, hsrc]
  · rw [not_not] at hf
    have hzr : ∀ f, r.flags &&& f = 0 := fun f => by rw [hf, zero_and]
    have he := hl.not_exceptional (hzr _) d mem_cons_self
    have hd0 := hr.srcIdxEq (hzr _) d mem_cons_self
    refine ⟨r.genLineExcPos, r.genLineExcNextIdx, r.srcIdxExcPos, ?_,
      ⟨?_, fun h => absurd (hzr _) h, fun _ e he => hl.not_exceptional (hzr _) e
        (mem_cons_of_mem _ he)⟩,
      fun h => absurd (hzr _) h, fun h => absurd (hzr _) h,
      fun _ e he => hr.srcIdxEq (hzr _) e (mem_cons_of_mem _ he)⟩
    · rw [if_neg (not_not.2 hf), genLine_of_not_exceptional he, of_decide_eq_true hd0, add_zero]
      by_cases heq : d.origLineEq
      · rw [if_pos heq, ← (of_decide_eq_true heq : d.dOrigLine = d.dGenLine)]
      · rw [if_neg heq]
    · have := hl.next
      simpa only [genLineExceptions, he, Bool.false_eq_true, if_false] using this

/-- One step: the first difference is added to the state. -/
theorem Reads.next (h : r.Reads k (d :: ds)) (hb : d.Between prev cur) (hc : cur.Fits) :
    ∃ r', r.next prev = some (r', cur) ∧ r'.Reads (k + 1) ds := by
  have hd := h.fits d mem_cons_self
  have hrm := h.room
  have hcn := h.count
  rw [length_cons, syncInterval] at hrm
  rw [length_cons] at hcn
  have hln := h.lines
  obtain ⟨genColPos, hgc, hgc'⟩ := readUnless_lane (w := 0) hd.dGenCol h.genCol
  obtain ⟨origLinePos, hol, hol'⟩ :=
    readUnless_lane (w := if d.genLine then 1 else 0) hd.dOrigLine h.origLine
  obtain ⟨origColPos, hoc, hoc'⟩ := readUnless_lane (w := d.dGenCol) hd.dOrigCol h.origCol
  have hocv : (if d.origColEq then d.dGenCol else d.dOrigCol) = d.dOrigCol := by
    split
    · rename_i he
      exact (of_decide_eq_true he).symm
    · rfl
  obtain ⟨pos, next, pos', hra, hl', hs'⟩ := nextRare_eq
    (r := { r with deltaIdx := k + 1, genColPos := genColPos, origLineExcPos := origLinePos
                   origColExcPos := origColPos })
    ⟨h.lines.1, h.lines.2, h.lines.3⟩ ⟨h.sources.1, h.sources.2, h.sources.3⟩ hd
    h.origLineMask.head (by omega) (hb.i32_sourceIndex hc)
  rw [readUnless, if_neg Bool.false_ne_true, if_neg Bool.false_ne_true] at hgc
  have hst : r.next prev = some (
      { r with deltaIdx := k + 1, genColPos := genColPos, origLineExcPos := origLinePos
               origColExcPos := origColPos, genLineExcPos := pos, genLineExcNextIdx := next
               srcIdxExcPos := pos' }, cur) := by
    rw [WindowReader.next, h.deltaIdx]
    simp only [bind_eq_bind, h.genLineMask.head, bind_some, hgc, h.origLineMask.head,
      hol, h.origColMask.head, hoc, hocv, hra, hb.advance hc]
  exact ⟨_, hst, rfl, hcn.trans (by omega), by rw [syncInterval]; omega,
    fun e he => h.fits e (mem_cons_of_mem _ he), h.genLineMask.tail, h.origLineMask.tail,
    h.origColMask.tail, hgc', hol', hoc', hl', hs'⟩

theorem flag_genLine (ds : List Delta) :
    windowFlags ds &&& flagHasGenLineExceptions ≠ 0 ↔ ds.any Delta.exceptional := by
  unfold windowFlags
  cases ds.any Delta.exceptional <;> cases ds.any fun d => !d.srcIdxEq <;> decide

theorem flag_srcIdx (ds : List Delta) :
    windowFlags ds &&& flagHasSrcIdx ≠ 0 ↔ ds.any fun d => !d.srcIdxEq := by
  unfold windowFlags
  cases ds.any Delta.exceptional <;> cases ds.any fun d => !d.srcIdxEq <;> decide

theorem windowFlags_lt (ds : List Delta) : windowFlags ds < 256 := by
  unfold windowFlags
  cases ds.any Delta.exceptional <;> cases ds.any fun d => !d.srcIdxEq <;> decide

variable {bytes w : List UInt8} {start n : ℕ}

/-- The reader finds the list of exceptions, or none where the flag is not set. -/
theorem parseGenLineExceptions_eq (hr : r.flags = windowFlags ds) (hby : r.bytes = bytes)
    (hnx : r.genLineExcNextIdx = 0xFF) (hfit : ∀ d ∈ ds, d.Fits) (hlen : ds.length < 0xFF)
    (h : Lies bytes start (if windowFlags ds &&& flagHasGenLineExceptions ≠ 0 then
      genLineExceptions 0 ds else [])) :
    ∃ pos next, r.parseGenLineExceptions start =
        some ({ r with genLineExcPos := pos, genLineExcNextIdx := next },
          start + (if windowFlags ds &&& flagHasGenLineExceptions ≠ 0 then
            genLineExceptions 0 ds else []).length)
      ∧ Lines { r with genLineExcPos := pos, genLineExcNextIdx := next } 0 ds := by
  subst hby
  by_cases hf : windowFlags ds &&& flagHasGenLineExceptions ≠ 0
  · rw [if_pos hf] at h ⊢
    obtain ⟨b, bs, hb⟩ := exists_cons_of_ne_nil (genLineExceptions_ne_nil 0 ds)
    have hle := h.length_le (genLineExceptions_ne_nil 0 ds)
    have hpos := length_pos_iff.2 (genLineExceptions_ne_nil 0 ds)
    have hsk := skipExceptions_genLineExceptions hfit (by omega) h
      (n := r.bytes.length + 1) (by omega)
    refine ⟨start, b.toNat, ?_, by simp only [hb, head_cons], fun _ => h, fun h0 => ?_⟩
    · rw [parseGenLineExceptions, if_pos ⟨by rwa [hr], by omega⟩]
      simp only [bind_eq_bind, (lies_cons.1 (hb ▸ h)).1, bind_some, hsk]
      congr 2
      omega
    · rw [hr] at h0
      exact absurd h0 hf
  · rw [if_neg hf, length_nil, add_zero]
    have hnot : ∀ d ∈ ds, d.exceptional = false := by
      intro d hd
      have := mt (flag_genLine ds).2 hf
      simp only [List.any_eq_true, not_exists, not_and, Bool.not_eq_true] at this
      exact this d hd
    refine ⟨r.genLineExcPos, r.genLineExcNextIdx, ?_, ?_, fun h => absurd (hr ▸ h) hf,
      fun _ => hnot⟩
    · rw [parseGenLineExceptions, if_neg fun h => hf (hr ▸ h.1)]
    · simp [genLineExceptions_of_not hnot, hnx]

theorem mask_length (p : Delta → Bool) (ds : List Delta) : (mask p ds).length = 8 := by
  rw [mask, setBits_length, length_replicate]

theorem marks_mask {p : Delta → Bool} (hlen : ds.length ≤ 64) (h : Lies bytes start (mask p ds)) :
    Marks bytes start 0 (ds.map p) := h.marks (by rw [length_map]; omega)

theorem parseSrcIdx_eq (hr : r.flags = windowFlags ds) (hby : r.bytes = bytes)
    (hlen : ds.length ≤ 64)
    (h : Lies bytes start (if windowFlags ds &&& flagHasSrcIdx ≠ 0 then
      mask Delta.srcIdxEq ds ++ srcIdxLane ds else [])) :
    ∃ pos pos', r.parseSrcIdx start = { r with srcIdxMask := pos, srcIdxExcPos := pos' }
      ∧ Sources { r with srcIdxMask := pos, srcIdxExcPos := pos' } 0 ds := by
  subst hby
  by_cases hf : windowFlags ds &&& flagHasSrcIdx ≠ 0
  · rw [if_pos hf, lies_append, mask_length] at h
    exact ⟨start, start + 8, by rw [parseSrcIdx, if_pos (by rwa [hr])],
      fun _ => marks_mask hlen h.1, fun _ => h.2, fun h0 => absurd (hr ▸ h0) hf⟩
  · refine ⟨r.srcIdxMask, r.srcIdxExcPos, by rw [parseSrcIdx, if_neg (by rwa [hr])],
      fun h => absurd (hr ▸ h) hf, fun h => absurd (hr ▸ h) hf, fun _ d hd => ?_⟩
    have := mt (flag_srcIdx ds).2 hf
    simp only [List.any_eq_true, not_exists, not_and, Bool.not_eq_true, Bool.not_eq_false'] at this
    exact this d hd

theorem intCast_eq_some {w n m : ℕ} : intCast w n = some m ↔ n < 2 ^ w ∧ n = m := by
  unfold intCast
  split <;> simp [*]

theorem parse_flags (r : WindowReader) (pos : ℕ) :
    (if r.flags ≠ 0 then
      (r.parseGenLineExceptions pos).bind fun (r, pos) => some (r.parseSrcIdx pos) else some r) =
    (r.parseGenLineExceptions pos).bind fun (r, pos) => some (r.parseSrcIdx pos) := by
  split
  · rfl
  · rename_i hf
    have hzr : ∀ f, r.flags &&& f = 0 := fun f => by rw [not_not.1 hf, zero_and]
    rw [parseGenLineExceptions, if_neg fun h => h.1 (hzr _), bind_some]
    simp only [parseSrcIdx]
    rw [if_neg fun h => h (hzr _)]

/-- The exceptions as they stand in the window, or nothing. -/
def genLineSection (ds : List Delta) : List UInt8 :=
  if windowFlags ds &&& flagHasGenLineExceptions ≠ 0 then genLineExceptions 0 ds else []

/-- The parts of a window, each at its position. -/
structure Sections (bytes : List UInt8) (start n : ℕ) (ds : List Delta) : Prop where
  count : bytes[start]? = some (UInt8.ofNat n)
  flags : bytes[start + 1]? = some (UInt8.ofNat (windowFlags ds))
  genColLen : Layout.u16.read bytes (start + 2) = some (UInt16.ofNat (genColLane ds).length)
  origLineLen : Layout.u16.read bytes (start + 4) = some (UInt16.ofNat (origLineLane ds).length)
  origColLen : Layout.u16.read bytes (start + 6) = some (UInt16.ofNat (origColLane ds).length)
  genColFits : (genColLane ds).length < 2 ^ 16
  origLineFits : (origLineLane ds).length < 2 ^ 16
  origColFits : (origColLane ds).length < 2 ^ 16
  genLineMask : Lies bytes (start + 8) (mask Delta.genLine ds)
  origLineMask : Lies bytes (start + 16) (mask Delta.origLineEq ds)
  origColMask : Lies bytes (start + 24) (mask Delta.origColEq ds)
  genCol : Lies bytes (start + 32) (genColLane ds)
  origLine : Lies bytes (start + 32 + (genColLane ds).length) (origLineLane ds)
  origCol : Lies bytes (start + 32 + (genColLane ds).length + (origLineLane ds).length)
    (origColLane ds)
  genLine : Lies bytes (start + 32 + (genColLane ds).length + (origLineLane ds).length
    + (origColLane ds).length) (genLineSection ds)
  srcIdx : Lies bytes (start + 32 + (genColLane ds).length + (origLineLane ds).length
    + (origColLane ds).length + (genLineSection ds).length)
    (if windowFlags ds &&& flagHasSrcIdx ≠ 0 then mask Delta.srcIdxEq ds ++ srcIdxLane ds else [])

theorem sections_windowBytes (hw : windowBytes n ds = some w) (h : Lies bytes start w) :
    Sections bytes start n ds := by
  simp only [windowBytes, bind_eq_bind, bind_eq_some_iff, intCast_eq_some,
    some.injEq] at hw
  obtain ⟨_, ⟨hgc, rfl⟩, _, ⟨hol, rfl⟩, _, ⟨hoc, rfl⟩, rfl⟩ := hw
  simp only [lies_append, length_append, mask_length, length_cons, length_nil,
    Layout.length_encode, show Layout.u16.size = 2 from rfl] at h
  obtain ⟨⟨⟨⟨⟨⟨⟨⟨⟨⟨⟨h0, h2⟩, h4⟩, h6⟩, h8⟩, h16⟩, h24⟩, hl1⟩, hl2⟩, hl3⟩, hexc⟩, hsrc⟩ := h
  exact
    { count := (lies_cons.1 h0).1
      flags := (lies_cons.1 (lies_cons.1 h0).2).1
      genColLen := h2.read (by decide)
      origLineLen := h4.read (by decide)
      origColLen := h6.read (by decide)
      genColFits := hgc, origLineFits := hol, origColFits := hoc
      genLineMask := h8, origLineMask := h16, origColMask := h24, genCol := hl1
      origLine := hl2.at (by omega)
      origCol := hl3.at (by omega)
      genLine := hexc.at (by omega)
      srcIdx := hsrc.at (by rw [genLineSection]; omega) }

/-- The reader that `parse` makes of the header alone. -/
def entry (bytes : List UInt8) (start : ℕ) (ds : List Delta) : WindowReader where
  bytes := bytes
  base := start
  genColPos := start + 32
  origLineExcPos := start + 32 + (genColLane ds).length
  origColExcPos := start + 32 + (genColLane ds).length + (origLineLane ds).length
  count := ds.length + 1
  flags := windowFlags ds

theorem Sections.parse_eq (h : Sections bytes start (ds.length + 1) ds)
    (hle : ds.length + 1 ≤ syncInterval) :
    parse bytes start =
      ((entry bytes start ds).parseGenLineExceptions (start + 32 + (genColLane ds).length
        + (origLineLane ds).length + (origColLane ds).length)).bind
        fun (r, pos) => some (r.parseSrcIdx pos) := by
  have hwr : ∀ m, m < 2 ^ 16 → (UInt16.ofNat m).toNat = m := fun m hm => by
    rw [UInt16.toNat_ofNat', mod_eq_of_lt hm]
  have hcn : min (UInt8.ofNat (ds.length + 1)).toNat syncInterval = ds.length + 1 := by
    rw [UInt8.toNat_ofNat']
    rw [syncInterval] at *
    omega
  have hfl : (UInt8.ofNat (windowFlags ds)).toNat = windowFlags ds := by
    rw [UInt8.toNat_ofNat', mod_eq_of_lt (windowFlags_lt ds)]
  simp only [WindowReader.parse, bind_eq_bind, WinHdr.countOff,
    WinHdr.flagsOff, WinHdr.genColLenOff, WinHdr.origLineLenOff, WinHdr.origColLenOff,
    WinHdr.genColLaneOff, Nat.add_zero, h.count, h.flags, h.genColLen, h.origLineLen, h.origColLen,
    bind_some, hwr _ h.genColFits, hwr _ h.origLineFits, hwr _ h.origColFits, hcn,
    hfl]
  exact parse_flags (entry bytes start ds) _

theorem Sections.reads (h : Sections bytes start (ds.length + 1) ds)
    (hle : ds.length + 1 ≤ syncInterval) (hfit : ∀ d ∈ ds, d.Fits) :
    ∃ r, parse bytes start = some r ∧ r.Reads 0 ds := by
  have hrm : ds.length + 1 ≤ 64 := hle
  have hlen : ds.length ≤ 64 := by omega
  obtain ⟨pos, next, hgen, hln⟩ := parseGenLineExceptions_eq (r := entry bytes start ds)
    rfl rfl rfl hfit (by omega) h.genLine
  obtain ⟨mpos, spos, hsrc, hsr⟩ := parseSrcIdx_eq
    (r := { entry bytes start ds with genLineExcPos := pos, genLineExcNextIdx := next })
    rfl rfl hlen h.srcIdx
  have hpr : parse bytes start = some { entry bytes start ds with
      genLineExcPos := pos, genLineExcNextIdx := next, srcIdxMask := mpos, srcIdxExcPos := spos } := by
    rw [h.parse_eq hle, hgen, bind_some]
    exact congrArg some hsrc
  exact ⟨_, hpr, rfl, by simp [entry], by rw [syncInterval]; omega, hfit,
    marks_mask hlen h.genLineMask, marks_mask hlen h.origLineMask, marks_mask hlen h.origColMask,
    h.genCol, h.origLine, h.origCol, ⟨hln.1, hln.2, hln.3⟩, hsr⟩

end WindowReader

theorem windowBytes_length {n : ℕ} {ds : List Delta} {bytes : List UInt8}
    (h : windowBytes n ds = some bytes) :
    32 + ds.length ≤ bytes.length ∧ bytes.length ≤ 41 + 26 * ds.length := by
  simp only [windowBytes, bind_eq_bind, bind_eq_some_iff,
    WindowReader.intCast_eq_some, some.injEq] at h
  obtain ⟨_, -, _, -, _, -, rfl⟩ := h
  have h1 := lane_length (fun _ => false) Delta.dGenCol ds
  have h2 := lane_length Delta.origLineEq Delta.dOrigLine ds
  have h3 := lane_length Delta.origColEq Delta.dOrigCol ds
  have h4 := lane_length Delta.srcIdxEq Delta.dSrcIdx ds
  have h5 := genLineExceptions_length 0 ds
  have h6 := lane_length_ge Delta.dGenCol ds
  simp only [maxVarintLen] at h1 h2 h3 h4 h5
  simp only [length_append, length_cons, length_nil, Layout.length_encode,
    WindowReader.mask_length, show Layout.u16.size = 2 from rfl, genColLane, origLineLane,
    origColLane]
  constructor
  · omega
  · split <;> split <;>
      simp only [length_append, length_nil, WindowReader.mask_length, srcIdxLane] <;> omega

end Cruller.SourceMap
