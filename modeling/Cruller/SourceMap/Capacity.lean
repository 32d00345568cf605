import Cruller.SourceMap.Build

/-!
# What can be built

The offsets of the windows are 32 bits wide, so not every sequence of mappings becomes a blob. The
mappings are cut into windows (`windows`), and the build goes through exactly when the windows before
the last take less than `2 ^ 32` bytes (`FitsFormat`, `encode_isSome_iff`): the other 32-bit fields
are wide enough then, because a full window takes at least 95 bytes.
-/

namespace Cruller.SourceMap

open List Option

/-- The mappings, `syncInterval` at a time. -/
def windows : List State → List (State × List State)
  | [] => []
  | s :: rest => (s, rest.take (syncInterval - 1)) :: windows (rest.drop (syncInterval - 1))
  termination_by l => l.length

/-- The windows before the last take less than `2 ^ 32` bytes. -/
def FitsFormat (states : List State) : Prop :=
  ((windows states).dropLast.map windowSize).sum < 2 ^ 32

/-- No field is negative. -/
structure State.NonNeg (s : State) : Prop where
  generatedLine : 0 ≤ s.generatedLine ∧ s.generatedLine < 2 ^ 31
  generatedColumn : 0 ≤ s.generatedColumn ∧ s.generatedColumn < 2 ^ 31
  sourceIndex : 0 ≤ s.sourceIndex ∧ s.sourceIndex < 2 ^ 31
  originalLine : 0 ≤ s.originalLine ∧ s.originalLine < 2 ^ 31
  originalColumn : 0 ≤ s.originalColumn ∧ s.originalColumn < 2 ^ 31

section

variable {b b' : Builder} {wins : List (State × List State)} {states total l : List State}
  {seed s : State} {rest : List State} {w : State × List State}

theorem windows_append (hfl : ∀ w ∈ wins, w.2.length + 1 = syncInterval) :
    windows (pieces wins ++ l) = wins ++ windows l := by
  induction wins with
  | nil => rfl
  | cons w wins ih =>
    have hw : w.2.length = syncInterval - 1 := by
      have := hfl w mem_cons_self
      omega
    rw [pieces_cons, append_assoc, cons_append, windows, take_left' hw,
      drop_left' hw, ih fun w hw => hfl w (mem_cons_of_mem _ hw), cons_append]

theorem windows_pieces (hfl : ∀ w ∈ wins.dropLast, w.2.length + 1 = syncInterval)
    (hrm : ∀ w ∈ wins, w.2.length + 1 ≤ syncInterval) : windows (pieces wins) = wins := by
  rcases eq_nil_or_concat' wins with rfl | ⟨wins, w, rfl⟩
  · simp [pieces, windows]
  · rw [dropLast_concat] at hfl
    have hw : w.2.length ≤ syncInterval - 1 := by
      have := hrm w (by simp)
      omega
    rw [pieces_append, windows_append hfl]
    simp [pieces, windows, take_of_length_le hw, drop_of_length_le hw]

theorem windows_spec (l : List State) :
    pieces (windows l) = l ∧ (∀ w ∈ windows l, w.2.length + 1 ≤ syncInterval)
      ∧ ∀ w ∈ (windows l).dropLast, w.2.length + 1 = syncInterval := by
  induction l using windows.induct with
  | case1 => simp [windows, pieces]
  | case2 s rest ih =>
    obtain ⟨hp, hrm, hfl⟩ := ih
    rw [windows]
    refine ⟨?_, ?_, ?_⟩
    · rw [pieces_cons, hp, cons_append, take_append_drop]
    · refine forall_mem_cons.2 ⟨?_, hrm⟩
      rw [List.length_take, syncInterval]
      omega
    · intro w hw
      by_cases h0 : rest.drop (syncInterval - 1) = []
      · rw [h0] at hw
        simp [windows] at hw
      · have hne : windows (rest.drop (syncInterval - 1)) ≠ [] := by
          intro h
          rw [h] at hp
          exact h0 hp.symm
        rw [dropLast_cons_of_ne_nil hne, mem_cons] at hw
        rcases hw with rfl | hw
        · have hlt : syncInterval - 1 < rest.length := by
            by_contra hge
            exact h0 (drop_of_length_le (by omega))
          rw [List.length_take, syncInterval] at *
          omega
        · exact hfl w hw

theorem exists_delta {prev cur : State} (hp : prev.NonNeg) (hc : cur.NonNeg) :
    ∃ d, delta prev cur = some d := by
  obtain ⟨h1, h2, h3, h4, h5⟩ := hp
  obtain ⟨g1, g2, g3, g4, g5⟩ := hc
  rw [delta, i32_of_isI32 ⟨by omega, by omega⟩,
    i32_of_isI32 (v := cur.generatedColumn - prev.generatedColumn) ⟨by omega, by omega⟩,
    i32_of_isI32 (v := cur.originalLine - prev.originalLine) ⟨by omega, by omega⟩,
    i32_of_isI32 (v := cur.originalColumn - prev.originalColumn) ⟨by omega, by omega⟩,
    i32_of_isI32 (v := cur.sourceIndex - prev.sourceIndex) ⟨by omega, by omega⟩]
  by_cases hl : cur.generatedLine - prev.generatedLine ≠ 0
  · simp only [bind_eq_bind, bind_some, if_pos hl]
    exact ⟨_, rfl⟩
  · simp only [bind_eq_bind, bind_some, if_neg hl]
    exact ⟨_, rfl⟩

theorem exists_deltas (hs : s.NonNeg) (hr : ∀ t ∈ rest, t.NonNeg) :
    ∃ ds, deltas s rest = some ds := by
  induction rest generalizing s with
  | nil => exact ⟨[], rfl⟩
  | cons t rest ih =>
    have ht := hr t mem_cons_self
    obtain ⟨d, hd⟩ := exists_delta hs ht
    obtain ⟨ds, hds⟩ := ih ht fun t ht => hr t (mem_cons_of_mem _ ht)
    exact ⟨d :: ds, by rw [deltas, hd, hds]; rfl⟩

theorem exists_windowBytes {n : ℕ} {ds : List Delta} (h : ds.length < syncInterval) :
    ∃ bytes, windowBytes n ds = some bytes := by
  have hln : ∀ p value, (lane p value ds).length < 2 ^ 16 := by
    intro p value
    have := lane_length p value ds
    rw [maxVarintLen] at this
    rw [syncInterval] at h
    omega
  have hg : (genColLane ds).length < 2 ^ 16 := hln _ _
  have hl : (origLineLane ds).length < 2 ^ 16 := hln _ _
  have hc : (origColLane ds).length < 2 ^ 16 := hln _ _
  rw [windowBytes, intCast, if_pos hg, intCast, if_pos hl, intCast, if_pos hc]
  exact ⟨_, rfl⟩

theorem exists_window (hf : ∀ t ∈ w.1 :: w.2, t.NonNeg) (hrm : w.2.length + 1 ≤ syncInterval) :
    ∃ ds bytes, deltas w.1 w.2 = some ds ∧ windowBytes (w.2.length + 1) ds = some bytes := by
  obtain ⟨hs, hr⟩ := forall_mem_cons.1 hf
  obtain ⟨ds, hds⟩ := exists_deltas hs hr
  obtain ⟨bytes, hb⟩ := exists_windowBytes (n := w.2.length + 1)
    (show ds.length < syncInterval by rw [deltas_length hds]; omega)
  exact ⟨ds, bytes, hds, hb⟩

theorem windowSize_ge (hf : ∀ t ∈ w.1 :: w.2, t.NonNeg) (hfl : w.2.length + 1 = syncInterval) :
    95 ≤ windowSize w := by
  obtain ⟨ds, bytes, hds, hb⟩ := exists_window hf hfl.le
  have := (windowBytes_length hb).1
  rw [windowSize, hds, bind_some, hb, elim_some]
  rw [deltas_length hds] at this
  rw [syncInterval] at hfl
  omega

theorem mem_of_mem_windows (hw : w ∈ windows l) {t : State} (ht : t ∈ w.1 :: w.2) : t ∈ l := by
  rw [← (windows_spec l).1]
  exact (sublist_pieces hw).subset ht

theorem FitsFormat.windows_length (h : FitsFormat l) (hf : ∀ t ∈ l, t.NonNeg) :
    95 * ((windows l).length - 1) < 2 ^ 32 := by
  have hge : ∀ x ∈ (windows l).dropLast.map windowSize, 95 ≤ x := by
    intro x hx
    obtain ⟨w, hw, rfl⟩ := List.mem_map.1 hx
    exact windowSize_ge (fun t ht => hf t (mem_of_mem_windows (List.mem_of_mem_dropLast hw) ht))
      ((windows_spec l).2.2 w hw)
  have := card_nsmul_le_sum _ 95 hge
  rw [length_map, length_dropLast, smul_eq_mul] at this
  rw [FitsFormat] at h
  omega

theorem length_pieces_le (hrm : ∀ w ∈ wins, w.2.length + 1 ≤ syncInterval) :
    (pieces wins).length ≤ syncInterval * wins.length := by
  induction wins with
  | nil => simp [pieces]
  | cons w wins ih =>
    have hw := hrm w mem_cons_self
    have := ih fun w hw => hrm w (mem_cons_of_mem _ hw)
    rw [pieces_cons, length_append, length_cons, length_cons, Nat.mul_succ]
    omega

theorem FitsFormat.length_lt (h : FitsFormat l) (hf : ∀ t ∈ l, t.NonNeg) :
    l.length < 2 ^ 32 := by
  have hw := h.windows_length hf
  have := length_pieces_le (windows_spec l).2.1
  rw [(windows_spec l).1, syncInterval] at this
  omega

theorem FitsFormat.offset (h : FitsFormat total) (hfl : ∀ w ∈ wins, w.2.length + 1 = syncInterval)
    (hpre : pieces wins ++ s :: rest <+: total) : (wins.map windowSize).sum < 2 ^ 32 := by
  obtain ⟨t, rfl⟩ := hpre
  rw [append_assoc, cons_append, FitsFormat, windows_append hfl, windows,
    dropLast_append_of_ne_nil (by simp), map_append, sum_append] at h
  omega

theorem exists_flushWindow (htb : b.Table wins) (hp : b.pending = seed :: rest)
    (hf : ∀ t ∈ b.pending, t.NonNeg) (hrm : b.pending.length ≤ syncInterval)
    (hoff : (wins.map windowSize).sum < 2 ^ 32) : ∃ b', b.flushWindow = some b' := by
  rw [hp] at hf hrm
  obtain ⟨ds, bytes, hds, hb⟩ := exists_window (w := (seed, rest)) hf hrm
  rw [Builder.flushWindow, hp, intCast, htb.length, if_pos hoff]
  simp only [bind_eq_bind, bind_some, hds, length_cons, hb]
  exact ⟨_, rfl⟩

variable {es : List Event}

theorem mem_recorded {line : ℤ} (hs : s ∈ recorded line es) :
    ∃ current line', .mapping current ∈ es ∧ line ≤ line' ∧ line' ≤ line + separators es
      ∧ s = current.on line' := by
  induction es generalizing line with
  | nil => simp [recorded] at hs
  | cons e es ih =>
    rcases e with _ | current
    · obtain ⟨c, line', hc, h1, h2, rfl⟩ := ih hs
      refine ⟨c, line', mem_cons_of_mem _ hc, by omega, ?_, rfl⟩
      rw [separators, countP_cons_of_pos rfl]
      rw [separators] at h2
      push_cast
      omega
    · rw [separators, countP_cons_of_neg Bool.false_ne_true, ← separators]
      rcases mem_cons.1 hs with rfl | hs
      · exact ⟨current, line, mem_cons_self, le_rfl, by omega, rfl⟩
      · obtain ⟨c, line', hc, h1, h2, rfl⟩ := ih hs
        exact ⟨c, line', mem_cons_of_mem _ hc, h1, h2, rfl⟩

theorem SourceMapState.NonNeg.on {c : SourceMapState} (h : c.NonNeg) {line : ℤ}
    (hl : 0 ≤ line ∧ line < 2 ^ 31) : (c.on line).NonNeg :=
  ⟨hl, h.generatedColumn, h.sourceIndex, h.originalLine, h.originalColumn⟩

theorem SourceMapState.NonNeg.fits {c : SourceMapState} (h : c.NonNeg) : c.Fits := by
  obtain ⟨h1, h2, h3, h4⟩ := h
  exact ⟨⟨by omega, h1.2⟩, ⟨by omega, h2.2⟩, ⟨by omega, h3.2⟩, ⟨by omega, h4.2⟩⟩

theorem recorded_nonNeg (hf : ∀ c, .mapping c ∈ es → c.NonNeg)
    (hsep : separators es < 2 ^ 31) : ∀ t ∈ recorded 0 es, t.NonNeg := by
  intro t ht
  obtain ⟨c, line, hc, h1, h2, rfl⟩ := mem_recorded ht
  exact (hf c hc).on ⟨h1, by omega⟩

/-- A builder fails only where the format has no room. -/
theorem exists_run (hf : ∀ c, .mapping c ∈ es → c.NonNeg)
    (hsep : separators es < 2 ^ 31) (htl : ∀ t ∈ total, t.NonNeg) (hfit : FitsFormat total)
    (hpre : recorded 0 es <+: total) : ∃ b, Builder.run es = some b := by
  induction es using List.reverseRecOn with
  | nil => exact ⟨{}, rfl⟩
  | append_singleton es e ih =>
    have hfits : ∀ c, .mapping c ∈ es → c.NonNeg := fun c hc => hf c (by simp [hc])
    rw [recorded_append, zero_add] at hpre
    have hsep' : separators es < 2 ^ 31 := by
      rw [separators, countP_append, ← separators] at hsep
      omega
    obtain ⟨b, hb⟩ := ih hfits hsep' ((prefix_append _ _).trans hpre)
    obtain ⟨hrec, hln, hgen, hdl⟩ := run_records (fun c hc => (hfits c hc).fits) hb
    rw [Builder.run_concat, hb, bind_some]
    rcases e with _ | current
    · rw [separators_concat] at hsep
      rw [Builder.line] at hln
      rw [Builder.record, Builder.appendLineSeparator, i32_of_isI32 ⟨by omega, by omega⟩]
      exact ⟨_, rfl⟩
    · have hcur := hf current (by simp)
      obtain ⟨wins, htb, hfl, hs⟩ := hrec.stored
      rw [recorded, recorded, ← hs, ← hln, append_assoc] at hpre
      have hcn : b.count + 1 < 2 ^ 32 := by
        have h1 := hpre.length_le
        have h2 := hfit.length_lt htl
        have h3 := congrArg List.length hs
        rw [hrec.count]
        simp only [length_append, length_singleton] at h1 h3
        omega
      rw [Builder.record, Builder.appendMapping_eq,
        if_pos ⟨by rw [hln]; exact ⟨by omega, by omega⟩, hcn⟩]
      split
      · rename_i hw
        obtain ⟨seed, rest, hp⟩ := exists_cons_of_ne_nil
          (show b.pending ++ [current.on b.line] ≠ [] by simp)
        have htb' : (b.push (current.on b.line)).Table wins := ⟨htb.1, htb.2, htb.3⟩
        refine exists_flushWindow htb' hp ?_ ?_ ?_
        · intro t ht
          exact htl t (hpre.subset (mem_append_right _ ht))
        · rw [Builder.push, length_append, length_singleton, hw]
        · rw [hp] at hpre
          exact hfit.offset hfl hpre
      · exact ⟨_, rfl⟩

theorem Builder.Records.exists_finalize (h : b.Records states) (hf : ∀ t ∈ states, t.NonNeg)
    (hfit : FitsFormat states) : ∃ out, b.finalize = some out := by
  have hfs : ∃ b', b.flushWindow = some b' := by
    obtain ⟨wins, htb, hfl, hs⟩ := h.stored
    rcases hp : b.pending with _ | ⟨seed, rest⟩
    · exact ⟨b, by rw [Builder.flushWindow, hp]⟩
    · have hpre : pieces wins ++ seed :: rest <+: states := by rw [← hp, hs]
      exact exists_flushWindow htb hp (fun t ht => hf t (hs ▸ mem_append_right _ ht))
        h.pending.le (hfit.offset hfl hpre)
  obtain ⟨b', hb'⟩ := hfs
  obtain ⟨wins, htb, hs, hfl, hrm⟩ := h.flushWindow hb'
  have hwn : windows states = wins := hs ▸ windows_pieces hfl hrm
  have hfew := hfit.windows_length hf
  rw [hwn, ← htb.entries.length_eq] at hfew
  rw [Builder.finalize, hb']
  simp only [bind_eq_bind, bind_some, intCast, headerSize,
    show SyncEntry.layout.size = 24 from rfl]
  rw [if_pos (by omega), bind_some, if_pos (by omega)]
  exact ⟨_, rfl⟩

theorem run_finalize (hf : ∀ c, .mapping c ∈ es → c.NonNeg)
    (hsep : separators es < 2 ^ 31) (mappingCount inputLineCount : Builder → ℕ)
    {blob : Option (List UInt8)} (hbl : blob = (Builder.run es).bind fun b =>
      b.finalize.bind fun out => writeHeader out (mappingCount b) (inputLineCount b)) :
    (blob.isSome ↔ FitsFormat (recorded 0 es))
      ∧ ∀ data, blob = some data → ∃ wins, pieces wins = recorded 0 es ∧ Holds ⟨data⟩ wins := by
  have hnn := recorded_nonNeg hf hsep
  have hhl : ∀ data, blob = some data →
      FitsFormat (recorded 0 es) ∧ ∃ wins, pieces wins = recorded 0 es ∧ Holds ⟨data⟩ wins := by
    intro data hdt
    rw [hbl] at hdt
    simp only [bind_eq_some_iff] at hdt
    obtain ⟨b, hb, out, hout, hdt⟩ := hdt
    obtain ⟨hrec, -⟩ := run_records (fun c hc => (hf c hc).fits) hb
    obtain ⟨data', wins, hdt', hs, hfl, hrm, hsum, hwn⟩ :=
      hrec.finalize hout (mappingCount b) (inputLineCount b)
    obtain rfl : data' = data := some.inj (hdt'.symm.trans hdt)
    refine ⟨?_, wins, hs, hwn⟩
    rw [FitsFormat, ← hs, windows_pieces hfl hrm]
    exact hsum
  refine ⟨⟨fun h => ?_, fun hfit => ?_⟩, fun data hdt => (hhl data hdt).2⟩
  · obtain ⟨data, hdt⟩ := isSome_iff_exists.1 h
    exact (hhl data hdt).1
  · obtain ⟨b, hb⟩ := exists_run hf hsep hnn hfit (prefix_refl _)
    obtain ⟨hrec, -⟩ := run_records (fun c hc => (hf c hc).fits) hb
    obtain ⟨out, hout⟩ := hrec.exists_finalize hnn hfit
    obtain ⟨data, -, hdt, -⟩ := hrec.finalize hout (mappingCount b) (inputLineCount b)
    rw [hbl, hb, bind_some, hout, bind_some, hdt]
    rfl

end

end Cruller.SourceMap
