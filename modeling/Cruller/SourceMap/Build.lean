import Cruller.SourceMap.Blob

/-!
# Building a blob

A builder that has been given mappings has stored the full windows of them and keeps the rest
pending (`Records`); each call adds to what it records (`Records.appendMapping`), and what
`finalize` returns holds all of it (`Records.finalize`). Over a run of calls this is `run_records`.
-/

namespace Cruller.SourceMap

open List Option Nat

/-- What the printer tells of: a line end or a mapping. -/
inductive Event
  | separator
  | mapping (current : SourceMapState)

def Builder.record (b : Builder) : Event → Option Builder
  | .separator => b.appendLineSeparator
  | .mapping current => b.appendMapping current

structure SourceMapState.Fits (s : SourceMapState) : Prop where
  generatedColumn : IsI32 s.generatedColumn
  sourceIndex : IsI32 s.sourceIndex
  originalLine : IsI32 s.originalLine
  originalColumn : IsI32 s.originalColumn

/-- The mapping recorded on line `line`. -/
def SourceMapState.on (current : SourceMapState) (line : ℤ) : State where
  generatedLine := line
  generatedColumn := current.generatedColumn
  sourceIndex := current.sourceIndex
  originalLine := current.originalLine
  originalColumn := current.originalColumn

/-- The mappings among the events, each on the line that the separators before it have reached. -/
def recorded : ℤ → List Event → List State
  | _, [] => []
  | line, .separator :: es => recorded (line + 1) es
  | line, .mapping current :: es => current.on line :: recorded line es

/-- How many lines have ended. -/
def separators (es : List Event) : ℕ :=
  es.countP fun e => match e with | .separator => true | .mapping _ => false

/-- How many bytes a window takes. -/
def windowSize (w : State × List State) : ℕ :=
  ((deltas w.1 w.2).bind (windowBytes (w.2.length + 1))).elim 0 List.length

section

variable {b b' : Builder} {wins : List (State × List State)} {states : List State} {seed s : State}
  {rest : List State}

theorem Stored.append {stream : List UInt8} {e : SyncEntry} {w : State × List State}
    (h : Stored stream e w) (more : List UInt8) : Stored (stream ++ more) e w := by
  obtain ⟨ds, bytes, hds, hby, hls⟩ := h.window
  exact ⟨h.seed, h.offset, h.fits, h.room, ds, bytes, hds, hby, hls.append_right more⟩

/-- The table has an entry for each window, which says where it lies. -/
structure Builder.Table (b : Builder) (wins : List (State × List State)) : Prop where
  entries : List.Forall₂ (Stored b.winStream) b.syncEntries wins
  length : b.winStream.length = (wins.map windowSize).sum
  offsets : (wins.dropLast.map windowSize).sum < 2 ^ 32

theorem Builder.flushWindow_eq (hp : b.pending = seed :: rest) (h : b.flushWindow = some b') :
    ∃ ds bytes, b.winStream.length < 2 ^ 32 ∧ deltas seed rest = some ds
      ∧ windowBytes (rest.length + 1) ds = some bytes
      ∧ b' = { b with
        syncEntries := b.syncEntries ++ [⟨seed.generatedLine, seed.generatedColumn,
          b.winStream.length, seed.originalLine, seed.originalColumn, seed.sourceIndex⟩]
        winStream := b.winStream ++ bytes
        pending := [] } := by
  rw [Builder.flushWindow, hp] at h
  simp only [bind_eq_bind, bind_eq_some_iff, WindowReader.intCast_eq_some,
    some.injEq] at h
  obtain ⟨_, ⟨hoff, rfl⟩, ds, hds, bytes, hby, rfl⟩ := h
  exact ⟨ds, bytes, hoff, hds, hby, rfl⟩

theorem Builder.Table.flushWindow (h : b.Table wins) (hp : b.pending = seed :: rest)
    (hrm : rest.length + 1 ≤ syncInterval) (hf : ∀ s ∈ b.pending, s.Fits)
    (hb : b.flushWindow = some b') : b'.Table (wins ++ [(seed, rest)]) := by
  obtain ⟨ds, bytes, hoff, hds, hby, rfl⟩ := Builder.flushWindow_eq hp hb
  have hnew : Stored (b.winStream ++ bytes) ⟨seed.generatedLine, seed.generatedColumn,
      b.winStream.length, seed.originalLine, seed.originalColumn, seed.sourceIndex⟩ (seed, rest) :=
    ⟨rfl, hoff, hp ▸ hf, hrm, ds, bytes, hds, hby, by
      simpa using lies_append_length b.winStream bytes []⟩
  refine ⟨rel_append (h.entries.imp fun _ _ hs => hs.append bytes) (.cons hnew .nil), ?_, ?_⟩
  · simp [h.length, windowSize, hds, hby]
  · simpa [← h.length] using hoff

/-- Full windows are stored; what does not fill one is pending. -/
structure Builder.Records (b : Builder) (states : List State) : Prop where
  stored : ∃ wins, b.Table wins ∧ (∀ w ∈ wins, w.2.length + 1 = syncInterval)
    ∧ pieces wins ++ b.pending = states
  pending : b.pending.length < syncInterval
  fits : ∀ s ∈ states, s.Fits
  count : b.count = states.length
  fewer : states.length < 2 ^ 32

theorem Builder.records_init : ({} : Builder).Records [] :=
  ⟨⟨[], ⟨.nil, rfl, by norm_num⟩, by simp, rfl⟩, by decide, by simp, rfl, by norm_num⟩

theorem pieces_append (ps qs : List (State × List State)) :
    pieces (ps ++ qs) = pieces ps ++ pieces qs := List.flatMap_append

theorem Builder.Table.records_flush (h : b.Table wins)
    (hfl : ∀ w ∈ wins, w.2.length + 1 = syncInterval)
    (hlen : b.pending.length = syncInterval) (hs : pieces wins ++ b.pending = states)
    (hf : ∀ s ∈ states, s.Fits) (hcn : b.count = states.length) (hlt : states.length < 2 ^ 32)
    (hb : b.flushWindow = some b') : b'.Records states := by
  rcases hp : b.pending with _ | ⟨seed, rest⟩
  · rw [hp] at hlen
    simp [syncInterval] at hlen
  · rw [hp, length_cons] at hlen
    have htb := h.flushWindow hp hlen.le
      (fun s hs' => hf s (hs ▸ mem_append_right _ hs')) hb
    obtain ⟨ds, bytes, -, -, -, rfl⟩ := Builder.flushWindow_eq hp hb
    refine ⟨⟨_, htb, ?_, ?_⟩, zero_lt_succ _, hf, hcn, hlt⟩
    · intro w hw
      rcases mem_append.1 hw with hw | hw
      · exact hfl w hw
      · rw [mem_singleton] at hw
        subst hw
        exact hlen
    · simp [← hs, hp, pieces]

def Builder.line (b : Builder) : ℤ := b.state.generatedLine + b.pendingGeneratedLineDelta

/-- A mapping goes to the window that is open. -/
def Builder.push (b : Builder) (s : State) : Builder :=
  { b with state := s, pendingGeneratedLineDelta := 0, pending := b.pending ++ [s]
           count := b.count + 1 }

theorem Builder.appendMapping_eq (b : Builder) (current : SourceMapState) :
    b.appendMapping current =
      if IsI32 b.line ∧ b.count + 1 < 2 ^ 32 then
        if b.pending.length + 1 = syncInterval then (b.push (current.on b.line)).flushWindow
        else some (b.push (current.on b.line))
      else none := by
  rw [Builder.appendMapping]
  by_cases hl : IsI32 b.line
  · have hi : i32 (b.state.generatedLine + b.pendingGeneratedLineDelta) = some b.line :=
      i32_of_isI32 hl
    by_cases hc : b.count + 1 < 2 ^ 32
    · rw [if_pos ⟨hl, hc⟩, hi, intCast, if_pos hc]
      simp only [bind_eq_bind, bind_some, length_append, length_singleton]
      rfl
    · rw [if_neg fun h => hc h.2, hi, intCast, if_neg hc]
      rfl
  · have hi : i32 (b.state.generatedLine + b.pendingGeneratedLineDelta) = none := if_neg hl
    rw [if_neg fun h => hl h.1, hi]
    rfl

theorem Builder.flushWindow_frame (h : b.flushWindow = some b') :
    b'.state = b.state ∧ b'.pendingGeneratedLineDelta = b.pendingGeneratedLineDelta := by
  rcases hp : b.pending with _ | ⟨seed, rest⟩
  · rw [Builder.flushWindow, hp, some.injEq] at h
    subst h
    exact ⟨rfl, rfl⟩
  · obtain ⟨ds, bytes, -, -, -, rfl⟩ := Builder.flushWindow_eq hp h
    exact ⟨rfl, rfl⟩

/-- The builder holds one mapping more. -/
theorem Builder.Records.appendMapping (h : b.Records states) {current : SourceMapState}
    (hf : current.Fits) (hb : b.appendMapping current = some b') :
    b'.Records (states ++ [current.on b.line]) ∧ b'.state.generatedLine = b.line
      ∧ b'.pendingGeneratedLineDelta = 0 := by
  obtain ⟨wins, htb, hfl, hs⟩ := h.stored
  have hpn := h.pending
  rw [Builder.appendMapping_eq] at hb
  split at hb
  · rename_i hok
    have hcur : (current.on b.line).Fits :=
      ⟨hok.1, hf.generatedColumn, hf.sourceIndex, hf.originalLine, hf.originalColumn⟩
    have hfits : ∀ s ∈ states ++ [current.on b.line], s.Fits := by
      intro s hs'
      rcases mem_append.1 hs' with hs' | hs'
      · exact h.fits s hs'
      · exact mem_singleton.1 hs' ▸ hcur
    have hcn : (b.push (current.on b.line)).count = (states ++ [current.on b.line]).length := by
      simp [Builder.push, h.count]
    have hlt : (states ++ [current.on b.line]).length < 2 ^ 32 := hcn ▸ hok.2
    have hps : (b.push (current.on b.line)).Table wins := ⟨htb.1, htb.2, htb.3⟩
    have hpc : pieces wins ++ (b.push (current.on b.line)).pending =
        states ++ [current.on b.line] := by
      rw [← hs, append_assoc]
      rfl
    split at hb
    · rename_i hw
      have hfr := Builder.flushWindow_frame hb
      refine ⟨hps.records_flush hfl (by simpa [Builder.push] using hw) hpc hfits hcn hlt
        hb, ?_, hfr.2⟩
      rw [hfr.1]
      rfl
    · rename_i hw
      rw [some.injEq] at hb
      subst hb
      refine ⟨⟨⟨wins, hps, hfl, hpc⟩, ?_, hfits, hcn, hlt⟩, rfl, rfl⟩
      rw [Builder.push, length_append, length_singleton]
      omega
  · simp at hb

theorem Builder.Records.appendLineSeparator (h : b.Records states)
    (hb : b.appendLineSeparator = some b') :
    b'.Records states ∧ b'.state.generatedLine = b.state.generatedLine
      ∧ b'.pendingGeneratedLineDelta = b.pendingGeneratedLineDelta + 1 := by
  rw [Builder.appendLineSeparator, map_eq_some_iff] at hb
  obtain ⟨_, hd, rfl⟩ := hb
  obtain ⟨-, rfl⟩ := i32_eq_some.1 hd
  obtain ⟨wins, htb, hfl, hs⟩ := h.stored
  refine ⟨⟨⟨wins, ⟨htb.1, htb.2, htb.3⟩, hfl, hs⟩, h.pending, h.fits, h.count, h.fewer⟩,
    rfl, rfl⟩

def Builder.run (es : List Event) : Option Builder := es.foldlM Builder.record {}

variable (es : List Event)

theorem Builder.run_concat (e : Event) :
    Builder.run (es ++ [e]) = (Builder.run es).bind fun b => b.record e := by
  rw [Builder.run, foldlM_append]
  simp [Builder.run]

theorem recorded_append (line : ℤ) (es es' : List Event) :
    recorded line (es ++ es') = recorded line es ++ recorded (line + separators es) es' := by
  induction es generalizing line with
  | nil => simp [recorded, separators]
  | cons e es ih =>
    rcases e with _ | current
    · rw [cons_append, recorded, recorded, ih, separators, separators,
        countP_cons_of_pos rfl]
      congr 2
      push_cast
      omega
    · simp [recorded, ih, separators]

theorem separators_concat : separators (es ++ [.separator]) = separators es + 1 :=
  countP_append

theorem separators_mapping (current : SourceMapState) :
    separators (es ++ [.mapping current]) = separators es := countP_append

/-- After a run the builder records the mappings among the events. -/
theorem run_records {es : List Event} (hf : ∀ c, .mapping c ∈ es → c.Fits)
    (hb : Builder.run es = some b) :
    b.Records (recorded 0 es) ∧ b.line = separators es ∧ 0 ≤ b.state.generatedLine
      ∧ 0 ≤ b.pendingGeneratedLineDelta := by
  induction es using List.reverseRecOn generalizing b with
  | nil =>
    rw [Builder.run, foldlM_nil] at hb
    obtain rfl := some.inj hb
    exact ⟨Builder.records_init, rfl, le_rfl, le_rfl⟩
  | append_singleton es e ih =>
    rw [Builder.run_concat, bind_eq_some_iff] at hb
    obtain ⟨b₀, hb₀, hb⟩ := hb
    obtain ⟨hrec, hln, hgen, hdl⟩ := ih (fun c hc => hf c (by simp [hc])) hb₀
    rw [recorded_append, zero_add]
    rcases e with _ | current
    · obtain ⟨hrec', hgen', hdl'⟩ := hrec.appendLineSeparator hb
      rw [Builder.line] at hln ⊢
      rw [recorded, recorded, append_nil, separators_concat]
      exact ⟨hrec', by push_cast; omega, by omega, by omega⟩
    · obtain ⟨hrec', hgen', hdl'⟩ := hrec.appendMapping (hf current (by simp)) hb
      rw [recorded, recorded, separators_mapping, Builder.line, hgen', hdl', ← hln]
      rw [hln] at hrec' ⊢
      exact ⟨hrec', by omega, by omega, le_rfl⟩

theorem Builder.Records.flushWindow (h : b.Records states) (hb : b.flushWindow = some b') :
    ∃ wins, b'.Table wins ∧ pieces wins = states
      ∧ (∀ w ∈ wins.dropLast, w.2.length + 1 = syncInterval)
      ∧ ∀ w ∈ wins, w.2.length + 1 ≤ syncInterval := by
  obtain ⟨wins, htb, hfl, hs⟩ := h.stored
  rcases hp : b.pending with _ | ⟨seed, rest⟩
  · rw [Builder.flushWindow, hp, some.injEq] at hb
    subst hb
    rw [hp, append_nil] at hs
    exact ⟨wins, htb, hs, fun w hw => hfl w (List.mem_of_mem_dropLast hw),
      fun w hw => (hfl w hw).le⟩
  · have hpn := h.pending
    rw [hp, length_cons] at hpn
    refine ⟨_, htb.flushWindow hp hpn.le
      (fun s hs' => h.fits s (hs ▸ mem_append_right _ hs')) hb, ?_, ?_, ?_⟩
    · rw [pieces_append, ← hs, hp]
      simp [pieces]
    · simpa using hfl
    · intro w hw
      rcases mem_append.1 hw with hw | hw
      · exact (hfl w hw).le
      · rw [mem_singleton] at hw
        subst hw
        exact hpn.le

theorem lies_entries {data : List UInt8} {start : ℕ} {entries : List SyncEntry}
    (h : Lies data start (entries.flatMap SyncEntry.bytes)) {i : ℕ} (hi : i < entries.length) :
    Lies data (start + i * SyncEntry.layout.size) entries[i].bytes := by
  induction entries generalizing start i with
  | nil => simp at hi
  | cons e entries ih =>
    rw [flatMap_cons, lies_append] at h
    rcases i with _ | i
    · simpa using h.1
    · have hsz : e.bytes.length = SyncEntry.layout.size := Layout.length_encode _ _
      rw [getElem_cons_succ]
      refine (ih h.2 (by simpa using hi)).at ?_
      rw [hsz, succ_mul]
      omega

theorem windowSize_le {w : State × List State} (h : w.2.length + 1 ≤ syncInterval) :
    windowSize w ≤ 41 + 26 * syncInterval := by
  rw [windowSize]
  rcases hd : deltas w.1 w.2 with _ | ds
  · simp
  · rw [bind_some]
    rcases hb : windowBytes (w.2.length + 1) ds with _ | bytes
    · simp
    · have := (windowBytes_length hb).2
      have hlen := deltas_length hd
      rw [elim_some]
      omega

theorem dropLast_append_getLast? {α : Type} (l : List α) :
    l.dropLast ++ l.getLast?.toList = l := by
  rcases eq_nil_or_concat l with rfl | ⟨l, a, rfl⟩
  · rfl
  · simp

theorem Builder.Table.stream_length (h : b.Table wins)
    (hrm : ∀ w ∈ wins, w.2.length + 1 ≤ syncInterval) :
    b.winStream.length < 2 ^ 32 + 2000 := by
  rw [h.length, ← dropLast_append_getLast? wins, map_append, List.sum_append]
  have := h.offsets
  rcases hl : wins.getLast? with _ | w
  · rw [toList_none, map_nil, sum_nil]
    omega
  · have hw := windowSize_le (hrm w (mem_of_getLast? hl))
    simp only [toList_some, map_singleton, sum_singleton, syncInterval] at hw ⊢
    omega

theorem writeHeader_eq (more : List UInt8) (mappingCount inputLineCount : ℕ) :
    writeHeader (List.replicate 24 0 ++ more) mappingCount inputLineCount =
      some (Layout.u64.encode (UInt64.ofNat (24 + more.length))
        ++ (Layout.u64.encode (UInt64.ofNat mappingCount)
        ++ (Layout.u64.encode (UInt64.ofNat inputLineCount) ++ more))) := by
  have hlen : ∀ v, (Layout.u64.encode v).length = 8 := fun v => Layout.length_encode _ v
  have hzr : (List.replicate 24 0 : List UInt8) =
      List.replicate 8 0 ++ (List.replicate 8 0 ++ List.replicate 8 0) := rfl
  have hw : ∀ (before after : List UInt8) (offset : ℕ) (v : UInt64), before.length = offset →
      Layout.u64.write (before ++ (List.replicate 8 0 ++ after)) offset v =
        some (before ++ (Layout.u64.encode v ++ after)) := by
    intro before after offset v hb
    rw [← hb]
    exact splice_append (by rw [hlen, length_replicate]) before after
  have htl : (List.replicate 8 0 ++ (List.replicate 8 0 ++ (List.replicate 8 0 ++ more)) :
      List UInt8).length = 24 + more.length := by
    simp
    omega
  rw [writeHeader, hzr, append_assoc, append_assoc, htl,
    ← nil_append (List.replicate 8 0 ++ _), hw [] _ 0 _ rfl]
  simp only [bind_eq_bind, bind_some, nil_append]
  rw [hw _ _ 8 _ (hlen _), bind_some, ← append_assoc,
    hw _ _ 16 _ (by rw [length_append, hlen, hlen]), append_assoc]

theorem entries_length (entries : List SyncEntry) :
    (entries.flatMap SyncEntry.bytes).length = entries.length * SyncEntry.layout.size := by
  induction entries with
  | nil => simp
  | cons e entries ih =>
    rw [flatMap_cons, length_append, ih, length_cons, succ_mul, Nat.add_comm]
    exact congrArg _ (Layout.length_encode _ _)

/-- A table and a stream that store the windows make a blob that holds them. -/
theorem holds_of_stored (mappingCount inputLineCount : UInt64) {stream data : List UInt8}
    {entries : List SyncEntry}
    (hall : List.Forall₂ (Stored stream) entries wins)
    (hoff : headerSize + entries.length * SyncEntry.layout.size < 2 ^ 32)
    (hne : stream ≠ []) (hlen : stream.length < 2 ^ 33)
    (hdt : data = Layout.u64.encode (UInt64.ofNat (headerSize
        + entries.length * SyncEntry.layout.size + stream.length))
      ++ (Layout.u64.encode mappingCount ++ (Layout.u64.encode inputLineCount
      ++ (Layout.u32.encode (UInt32.ofNat entries.length)
      ++ (Layout.u32.encode (UInt32.ofNat (headerSize + entries.length * SyncEntry.layout.size))
      ++ (entries.flatMap SyncEntry.bytes ++ stream)))))) : Holds ⟨data⟩ wins := by
  have hsz : SyncEntry.layout.size = 24 := rfl
  have hls : Lies data 0 data := prefix_refl _
  simp only [headerSize, hsz] at hoff hdt
  conv at hls => arg 3; rw [hdt]
  simp only [lies_append, Layout.length_encode, entries_length, hsz, Nat.zero_add,
    show Layout.u64.size = 8 from rfl, show Layout.u32.size = 4 from rfl, Nat.reduceAdd] at hls
  obtain ⟨htl, -, -, hcn, hof, hen, hsr⟩ := hls
  have htotalLen : (InternalSourceMap.mk data).totalLen =
      some (32 + entries.length * 24 + stream.length) := by
    rw [InternalSourceMap.totalLen, htl.read (by decide), map_some,
      UInt64.toNat_ofNat', mod_eq_of_lt (by omega)]
  have hstreamOffset : (InternalSourceMap.mk data).streamOffset =
      some (32 + entries.length * 24) := by
    rw [InternalSourceMap.streamOffset, hof.read (by decide), map_some,
      UInt32.toNat_ofNat', mod_eq_of_lt hoff]
  refine ⟨stream, entries, ?_, ?_, fun i hi => ?_, hall⟩
  · simpa [InternalSourceMap.stream, hstreamOffset, htotalLen] using hsr.slice hne
  · simp [InternalSourceMap.syncCount, hcn.read (by decide), UInt32.toNat_ofNat']
    omega
  · have he : Lies data (32 + i * 24) entries[i].bytes := lies_entries hen hi
    have hiw : i < wins.length := hall.length_eq ▸ hi
    have hst : Stored stream entries[i] wins[i] := (forall₂_iff_get.1 hall).2 i hi hiw
    have hsd : entries[i].toState.Fits := hst.seed ▸ hst.fits _ mem_cons_self
    rw [InternalSourceMap.syncEntry, headerSize, hsz, Lies.read he (by decide), map_some,
      SyncEntry.ofWords_words hsd hst.offset]

/-- The blob as it lies in memory. -/
theorem Builder.Records.finalize (h : b.Records states) {out : List UInt8}
    (hb : b.finalize = some out) (mappingCount inputLineCount : ℕ) :
    ∃ data wins, writeHeader out mappingCount inputLineCount = some data ∧ pieces wins = states
      ∧ (∀ w ∈ wins.dropLast, w.2.length + 1 = syncInterval)
      ∧ (∀ w ∈ wins, w.2.length + 1 ≤ syncInterval)
      ∧ (wins.dropLast.map windowSize).sum < 2 ^ 32 ∧ Holds ⟨data⟩ wins := by
  simp only [Builder.finalize, bind_eq_bind, bind_eq_some_iff,
    WindowReader.intCast_eq_some, some.injEq] at hb
  obtain ⟨b', hfl, _, ⟨hso, rfl⟩, _, ⟨hsc, rfl⟩, rfl⟩ := hb
  obtain ⟨wins, htb, hs, hfu, hrm⟩ := h.flushWindow hfl
  have hsr := htb.stream_length hrm
  simp only [append_assoc]
  rw [writeHeader_eq]
  refine ⟨_, wins, rfl, hs, hfu, hrm, htb.offsets, holds_of_stored
    (UInt64.ofNat mappingCount) (UInt64.ofNat inputLineCount)
    (htb.entries.imp fun _ _ hst => hst.append (List.replicate streamTailPad 0)) hso
    (by simp [streamTailPad]) (by simp [streamTailPad]; omega) ?_⟩
  have hlen : 24 + (Layout.u32.encode (UInt32.ofNat b'.syncEntries.length)
      ++ (Layout.u32.encode (UInt32.ofNat (headerSize
        + b'.syncEntries.length * SyncEntry.layout.size))
      ++ (b'.syncEntries.flatMap SyncEntry.bytes
      ++ (b'.winStream ++ List.replicate streamTailPad 0)))).length =
      headerSize + b'.syncEntries.length * SyncEntry.layout.size
        + (b'.winStream ++ List.replicate streamTailPad 0).length := by
    simp only [length_append, Layout.length_encode, entries_length, headerSize,
      show Layout.u32.size = 4 from rfl]
    omega
  rw [hlen]

end

end Cruller.SourceMap
