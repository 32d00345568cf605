import Cruller.Lib.Run
import Cruller.H2.Dispatch
import Cruller.H2.Encode

/-!
# Every header block, once and whole

The decoder's tables follow the server's encoder only when the decoder sees every header block of
the connection, in the order of the wire. `Wire` reads the blocks off the frames alone. A session
is synchronised with it (`Session.Synced`) when the decoder was fed the blocks that are complete,
and the fragment of the block that is going on lies where the next CONTINUATION frame looks for it:
with its stream while that is tracked, with the orphan's afterwards.
-/

namespace Cruller.H2

open List Option

/-- The header blocks on the wire: those that are complete and the one that is going on. -/
structure Wire where
  complete : List (List UInt8) := []
  going : Option (List UInt8) := none

namespace Wire

/-- The block with this fragment, which ends it when the frame says so. -/
def add (w : Wire) (flags : UInt8) (block : List UInt8) : Wire :=
  if hasFlag flags flagEndHeaders then { complete := w.complete ++ [block], going := none }
  else { w with going := some block }

/-- What of the header blocks a frame brings. -/
def next (w : Wire) (f : Frame) : Wire :=
  match f.header.frameType with
  | .headers =>
    match headersFragment f.header.flags f.payload with
    | none => w
    | some fragment => w.add f.header.flags fragment
  | .continuation =>
    match w.going with
    | none => w
    | some block => w.add f.header.flags (block ++ f.payload)
  | _ => w

end Wire

namespace Session

variable {H : Type}

/-! ## Tracked streams -/

/-- The streams have different ids, which this side has used. -/
structure Distinct (s : Session H) : Prop where
  nodup : (s.streams.map Stream.id).Nodup
  pos : ∀ stream ∈ s.streams, 0 < stream.id
  lt : ∀ stream ∈ s.streams, stream.id < s.nextStreamId
  next_pos : 0 < s.nextStreamId

section

variable {s s' : Session H} {stream : Stream} {id : ℕ}

theorem Distinct.find_iff (hs : s.Distinct) :
    s.find id = some stream ↔ stream ∈ s.streams ∧ stream.id = id := by
  constructor
  · intro h
    exact ⟨mem_of_find?_eq_some h, by simpa using find?_some h⟩
  · rintro ⟨hmem, hid⟩
    rcases hf : s.find id with _ | found
    · exact absurd (find?_eq_none.1 hf stream hmem) (by simpa using hid)
    · have hfn : found.id = id := by simpa using find?_some hf
      rw [inj_on_of_nodup_map hs.nodup (mem_of_find?_eq_some hf) hmem
        (hfn.trans hid.symm)]

theorem Distinct.put (hs : s.Distinct) (stream : Stream) : (s.put stream).Distinct := by
  have hids : (s.put stream).streams.map Stream.id = s.streams.map Stream.id := by
    rw [Session.put, List.map_map]
    refine map_congr_left fun old _ => ?_
    simp only [Function.comp_apply]
    split_ifs with hid
    · exact hid.symm
    · rfl
  have hmem : ∀ t ∈ (s.put stream).streams, ∃ t' ∈ s.streams, t'.id = t.id := fun t ht => by
    have := List.mem_map_of_mem (f := Stream.id) ht
    rw [hids] at this
    simpa using this
  refine ⟨hids ▸ hs.nodup, fun t ht => ?_, fun t ht => ?_, hs.next_pos⟩
  · obtain ⟨t', ht', hid⟩ := hmem t ht
    exact hid ▸ hs.pos t' ht'
  · obtain ⟨t', ht', hid⟩ := hmem t ht
    exact hid ▸ hs.lt t' ht'

theorem Distinct.find_put (hs : s.Distinct) {old : Stream} (hold : old ∈ s.streams)
    (hid : old.id = stream.id) : (s.put stream).find stream.id = some stream :=
  (hs.put stream).find_iff.2 ⟨List.mem_map.2 ⟨old, hold, if_pos hid⟩, rfl⟩

/-- Whoever has the stream's object has the fragment that the map has. -/
def Tracks (s : Session H) (stream : Stream) : Prop :=
  ∀ old ∈ s.streams, old.id = stream.id → old.headerBlock = stream.headerBlock

theorem Distinct.tracks (hs : s.Distinct) (hf : s.find id = some stream) : s.Tracks stream := by
  intro old hmem hid
  obtain ⟨hin, -⟩ := hs.find_iff.1 hf
  rw [inj_on_of_nodup_map hs.nodup hmem hin hid]

/-! ## What leaves the blocks alone -/

/-- Nothing that has to do with header blocks is different. -/
structure Keeps (s s' : Session H) : Prop where
  blocks : s'.streams.map (fun t => (t.id, t.headerBlock)) =
    s.streams.map fun t => (t.id, t.headerBlock)
  next : s'.nextStreamId = s.nextStreamId
  expecting : s'.expectingContinuation = s.expectingContinuation
  orphan : s'.orphanHeaderBlock = s.orphanHeaderBlock
  hpack : s'.hpack = s.hpack
  calls : s'.calls = s.calls

@[refl]
theorem Keeps.refl (s : Session H) : s.Keeps s := ⟨rfl, rfl, rfl, rfl, rfl, rfl⟩

theorem Keeps.trans {s₁ s₂ s₃ : Session H} (h : s₁.Keeps s₂) (h' : s₂.Keeps s₃) : s₁.Keeps s₃ where
  blocks := h'.blocks.trans h.blocks
  next := h'.next.trans h.next
  expecting := h'.expecting.trans h.expecting
  orphan := h'.orphan.trans h.orphan
  hpack := h'.hpack.trans h.hpack
  calls := h'.calls.trans h.calls

theorem Keeps.put (h : s.Tracks stream) : s.Keeps (s.put stream) := by
  refine ⟨?_, rfl, rfl, rfl, rfl, rfl⟩
  rw [Session.put, List.map_map]
  refine map_congr_left fun old hmem => ?_
  simp only [Function.comp_apply]
  split_ifs with hid
  · rw [h old hmem hid, hid]
  · rfl

theorem Keeps.distinct (h : s.Keeps s') (hs : s.Distinct) : s'.Distinct := by
  have hids : s'.streams.map Stream.id = s.streams.map Stream.id := by
    have := congrArg (List.map Prod.fst) h.blocks
    simpa [List.map_map, Function.comp_def] using this
  have hmem : ∀ t ∈ s'.streams, ∃ t' ∈ s.streams, t'.id = t.id := fun t ht => by
    have := List.mem_map_of_mem (f := Stream.id) ht
    rw [hids] at this
    simpa using this
  refine ⟨hids ▸ hs.nodup, fun t ht => ?_, fun t ht => ?_, h.next ▸ hs.next_pos⟩
  · obtain ⟨t', ht', hid⟩ := hmem t ht
    exact hid ▸ hs.pos t' ht'
  · obtain ⟨t', ht', hid⟩ := hmem t ht
    rw [h.next, ← hid]
    exact hs.lt t' ht'

theorem Keeps.tracks (h : s.Keeps s') (ht : s.Tracks stream) : s'.Tracks stream := by
  intro old hmem hid
  have hin := List.mem_map_of_mem (f := fun t : Stream => (t.id, t.headerBlock)) hmem
  rw [h.blocks] at hin
  obtain ⟨old', hmem', heq⟩ := List.mem_map.1 hin
  rw [← (Prod.mk.inj heq).2]
  exact ht old' hmem' ((Prod.mk.inj heq).1.trans hid)

/-- The fragment that the next CONTINUATION frame continues. -/
def buffered (s : Session H) : List UInt8 :=
  ((s.find s.expectingContinuation).map Stream.headerBlock).getD s.orphanHeaderBlock

theorem buffered_of_find (he : s.expectingContinuation = id) (hf : s.find id = some stream) :
    s.buffered = stream.headerBlock := by
  rw [buffered, he, hf]
  rfl

theorem buffered_of_none (hf : s.find s.expectingContinuation = none) :
    s.buffered = s.orphanHeaderBlock := by
  rw [buffered, hf]
  rfl

theorem find_headerBlock (s : Session H) (id : ℕ) : (s.find id).map Stream.headerBlock =
    ((s.streams.map fun t => (t.id, t.headerBlock)).find? fun x => x.1 = id).map Prod.snd := by
  rw [find?_map, Option.map_map]
  rfl

theorem Keeps.buffered (h : s.Keeps s') : s'.buffered = s.buffered := by
  rw [Session.buffered, find_headerBlock, h.blocks, h.expecting, h.orphan, ← find_headerBlock]
  rfl

/-- The session and the stream that a function hands back, the stream not yet put. -/
structure Hands (s : Session H) (stream : Stream) (p : Session H × Stream) : Prop where
  keeps : s.Keeps p.1
  id : p.2.id = stream.id
  block : p.2.headerBlock = stream.headerBlock

variable {p : Session H × Stream}

theorem Hands.tracks (h : s.Hands stream p) (ht : s.Tracks stream) :
    p.1.Tracks p.2 := fun old hmem hid =>
  (h.keeps.tracks ht old hmem (hid.trans h.id)).trans h.block.symm

theorem Hands.put (h : s.Hands stream p) (ht : s.Tracks stream) :
    s.Keeps (p.1.put p.2) :=
  h.keeps.trans (.put (h.tracks ht))

theorem Hands.trans {q : Session H × Stream} (h : s.Hands stream p) (h' : p.1.Hands p.2 q) :
    s.Hands stream q :=
  ⟨h.keeps.trans h'.keeps, h'.id.trans h.id, h'.block.trans h.block⟩

theorem Hands.congr (h : s.Hands stream p) (stream' : Stream)
    (hid : stream'.id = p.2.id) (hb : stream'.headerBlock = p.2.headerBlock) :
    s.Hands stream (p.1, stream') :=
  ⟨h.keeps, hid.trans h.id, hb.trans h.block⟩

/-! ## The operations that keep the blocks -/

theorem fail_keeps (s : Session H) (e : Error) : s.Keeps (s.fail e) := ⟨rfl, rfl, rfl, rfl, rfl, rfl⟩

theorem writeFrame_keeps (s : Session H) (type : FrameType) (flags : UInt8) (streamId : ℕ)
    (payload : List UInt8) : s.Keeps (s.writeFrame type flags streamId payload) :=
  ⟨rfl, rfl, rfl, rfl, rfl, rfl⟩

theorem rst_hands (s : Session H) (stream : Stream) (code : ErrorCode) :
    s.Hands stream (s.rst stream code) := by
  unfold rst
  split_ifs
  · exact ⟨.refl s, rfl, rfl⟩
  · exact ⟨writeFrame_keeps s _ _ _ _, rfl, rfl⟩

theorem failStream_keeps (ht : s.Tracks stream) (code : ErrorCode) (e : Error) :
    s.Keeps (s.failStream stream code e) :=
  ((rst_hands s stream code).congr { (s.rst stream code).2 with fatalError := some e } rfl rfl).put
    ht

theorem replenishStream_keeps (ht : s.Tracks stream) (h : s.replenishStream stream = some s') :
    s.Keeps s' := by
  unfold replenishStream at h
  split_ifs at h
  · simp only [bind_eq_bind, bind_eq_some_iff] at h
    obtain ⟨increment, -, h⟩ := h
    rw [← some.inj h]
    exact (writeFrame_keeps s _ _ _ _).trans (.put ht)
  · exact some.inj h ▸ .refl s

theorem replenishStreams_keeps {l : List Stream} (ht : ∀ stream ∈ l, s.Tracks stream)
    (h : l.foldlM replenishStream s = some s') : s.Keeps s' := by
  induction l generalizing s with
  | nil => exact some.inj h ▸ .refl s
  | cons stream rest ih =>
    rw [foldlM_cons, bind_eq_bind, bind_eq_some_iff] at h
    obtain ⟨t, ht', h⟩ := h
    have hone := replenishStream_keeps (ht stream mem_cons_self) ht'
    exact hone.trans (ih (fun u hu => hone.tracks (ht u (mem_cons_of_mem _ hu))) h)

theorem replenishWindow_keeps (hs : s.Distinct) (h : s.replenishWindow = some s') :
    s.Keeps s' := by
  unfold replenishWindow at h
  rw [bind_eq_bind, bind_eq_some_iff] at h
  obtain ⟨t, ht, h⟩ := h
  have hfr : s.Keeps t := by
    split_ifs at ht
    · simp only [bind_eq_bind, bind_eq_some_iff] at ht
      obtain ⟨increment, -, ht⟩ := ht
      exact some.inj ht ▸ ⟨rfl, rfl, rfl, rfl, rfl, rfl⟩
    · exact some.inj ht ▸ .refl s
  refine hfr.trans (replenishStreams_keeps (fun stream hmem => ?_) h)
  have hd := hfr.distinct hs
  exact hd.tracks (hd.find_iff.2 ⟨hmem, rfl⟩)

theorem writeDataFrame_hands (s : Session H) (stream : Stream) (chunk : List UInt8)
    (flags : UInt8) : s.Hands stream (s.writeDataFrame stream chunk flags) :=
  ⟨⟨rfl, rfl, rfl, rfl, rfl, rfl⟩, rfl, rfl⟩

theorem writeDataLoop_hands (endStream : Bool) (cap : ℕ) :
    ∀ (fuel : ℕ) (s : Session H) (stream : Stream) (remaining : List UInt8) (consumed : ℕ),
      s.Hands stream ((writeDataLoop endStream cap fuel s stream remaining consumed).1,
        (writeDataLoop endStream cap fuel s stream remaining consumed).2.1)
  | 0, s, stream, _, _ => ⟨.refl s, rfl, rfl⟩
  | fuel + 1, s, stream, remaining, consumed => by
    rw [writeDataLoop]
    extract_lets chunkLen last flags consumed'
    split
    · exact ⟨.refl s, rfl, rfl⟩
    split
    · exact ⟨.refl s, rfl, rfl⟩
    split
    · exact ⟨.refl s, rfl, rfl⟩
    have hone := writeDataFrame_hands s stream (remaining.take chunkLen) flags
    simp only
    split
    · exact hone
    · exact hone.trans (writeDataLoop_hands endStream cap fuel _ _ _ _)

theorem sentEndStream_block (stream : Stream) : stream.sentEndStream.id = stream.id
    ∧ stream.sentEndStream.headerBlock = stream.headerBlock := by
  unfold Stream.sentEndStream
  split <;> exact ⟨rfl, rfl⟩

theorem recvEndStream_block (stream : Stream) : stream.recvEndStream.id = stream.id
    ∧ stream.recvEndStream.headerBlock = stream.headerBlock := by
  unfold Stream.recvEndStream
  split <;> exact ⟨rfl, rfl⟩

theorem drainSendBody_hands (s : Session H) (stream : Stream) (body : RequestBody) (cap : ℕ) :
    s.Hands stream ((s.drainSendBody stream body cap).1, (s.drainSendBody stream body cap).2.1) := by
  have hid : s.Hands stream (s, stream) := ⟨.refl s, rfl, rfl⟩
  unfold drainSendBody
  split
  · exact hid
  split
  · exact hid
  split
  · have hsn := writeDataLoop_hands true cap (stream.pendingBody.length + 1) s stream
      stream.pendingBody 0
    simp only
    split
    · exact hsn.congr _ (sentEndStream_block _).1 (sentEndStream_block _).2
    · exact hsn.congr _ rfl rfl
  · split
    · exact hid
    next data ended _ =>
    have hsn := writeDataLoop_hands ended cap (data.length + 1) s stream data 0
    simp only
    split
    · exact hsn.congr _ (sentEndStream_block _).1 (sentEndStream_block _).2
    · exact hsn

theorem writeHeaderBlockLoop_keeps (streamId : ℕ) (endStream : Bool) :
    ∀ (fuel : ℕ) (s : Session H) (remaining : List UInt8) (first : Bool),
      s.Keeps (writeHeaderBlockLoop streamId endStream fuel s remaining first)
  | 0, s, _, _ => .refl s
  | fuel + 1, s, remaining, first => by
    rw [writeHeaderBlockLoop]
    split
    · exact writeFrame_keeps s _ _ _ _
    · exact (writeFrame_keeps s _ _ _ _).trans
        (writeHeaderBlockLoop_keeps streamId endStream fuel _ _ false)

theorem writePreface_keeps (s : Session H) : s.Keeps s.writePreface :=
  ⟨rfl, rfl, rfl, rfl, rfl, rfl⟩

theorem writeRequest_keeps (s : Session H) (stream : Stream) (r : RequestAnswers) :
    s.Keeps (s.writeRequest stream r).1
      ∧ ∀ stream' ∈ (s.writeRequest stream r).2, stream'.id = stream.id
        ∧ stream'.headerBlock = stream.headerBlock := by
  unfold writeRequest
  extract_lets update t inline streaming opened inlined
  have ht : s.Keeps t := ⟨rfl, rfl, rfl, rfl, rfl, rfl⟩
  split
  · exact ⟨ht, by simp⟩
  next fields _ =>
  have hu : s.Keeps (t.writeHeaderBlock opened.id (update ++ fields)
    (inline.length = 0 ∧ ¬ streaming)) := ht.trans (writeHeaderBlockLoop_keeps _ _ _ _ _ _)
  have hop : opened.id = stream.id ∧ opened.headerBlock = stream.headerBlock := by
    unfold opened
    split_ifs <;> exact ⟨rfl, rfl⟩
  split
  · have hdr := drainSendBody_hands (t.writeHeaderBlock opened.id (update ++ fields)
      (inline.length = 0 ∧ ¬ streaming)) inlined r.body (2 ^ 64 - 1)
    refine ⟨hu.trans hdr.keeps, fun stream' hmem => ?_⟩
    rw [← some.inj hmem]
    exact ⟨hdr.id.trans hop.1, hdr.block.trans hop.2⟩
  split
  · exact ⟨hu, fun stream' hmem => some.inj hmem ▸ hop⟩
  · refine ⟨hu, fun stream' hmem => ?_⟩
    rw [← some.inj hmem]
    exact ⟨(sentEndStream_block opened).1.trans hop.1,
      (sentEndStream_block opened).2.trans hop.2⟩

theorem detach_keeps (ht : s.Tracks stream) : s.Keeps (s.detach stream).1 := by
  have hdt : s.Tracks { stream with client := none } := ht
  exact .put hdt

theorem resetAndDetach_keeps (ht : s.Tracks stream) : s.Keeps (s.resetAndDetach stream).1 :=
  ((rst_hands s stream .cancel).congr { (s.rst stream .cancel).2 with client := none } rfl rfl).put
    ht

theorem deliverBody_keeps (ht : s.Tracks stream) (a : DeliverAnswers) :
    s.Keeps (s.deliverBody stream a).1 := by
  have hrc : s.Tracks { stream with bodyBuffer := [] } := ht
  unfold deliverBody
  split
  · exact .put ht
  split
  · split
    · exact resetAndDetach_keeps hrc
    split
    · exact detach_keeps hrc
    split
    · exact detach_keeps hrc
    · exact .put hrc
  split
  · exact detach_keeps ht
  · exact .put ht

theorem deliverStream_keeps (ht : s.Tracks stream) (a : DeliverAnswers) :
    s.Keeps (s.deliverStream stream a).1 := by
  have hdl : s.Tracks { stream with headersReady := false } := ht
  unfold deliverStream
  split
  · exact .refl s
  split
  · exact resetAndDetach_keeps ht
  split
  · exact detach_keeps ht
  split
  · split
    · exact resetAndDetach_keeps hdl
    split
    · exact resetAndDetach_keeps hdl
    split
    · exact detach_keeps hdl
    · exact deliverBody_keeps hdl a
  · exact deliverBody_keeps ht a

theorem adjustWindows_blocks {delta : ℤ} : ∀ {l l' : List Stream} {ok : Bool},
    adjustWindows delta l = some (l', ok) →
      (l'.map fun t => (t.id, t.headerBlock)) = l.map fun t => (t.id, t.headerBlock)
  | [], l', ok, h => by
    obtain ⟨rfl, -⟩ := Prod.mk.inj (some.inj h)
    rfl
  | stream :: rest, l', ok, h => by
    rw [adjustWindows] at h
    simp only at h
    split_ifs at h
    · obtain ⟨rfl, -⟩ := Prod.mk.inj (some.inj h)
      rfl
    · simp only [bind_eq_bind, bind_eq_some_iff, Option.pure_def, some.injEq,
        Prod.mk.injEq, Prod.exists] at h
      obtain ⟨w, -, rest', ok', hrs, rfl, -⟩ := h
      simp [adjustWindows_blocks hrs]

theorem applySetting_keeps {unit : ℕ × ℕ} {ok : Bool}
    (h : s.applySetting unit = some (s', ok)) : s.Keeps s' := by
  unfold applySetting at h
  split at h
  · split at h <;> obtain ⟨rfl, -⟩ := Prod.mk.inj (some.inj h)
    · exact fail_keeps s _
    · exact ⟨rfl, rfl, rfl, rfl, rfl, rfl⟩
  · obtain ⟨rfl, -⟩ := Prod.mk.inj (some.inj h)
    exact ⟨rfl, rfl, rfl, rfl, rfl, rfl⟩
  · obtain ⟨rfl, -⟩ := Prod.mk.inj (some.inj h)
    exact ⟨rfl, rfl, rfl, rfl, rfl, rfl⟩
  · split at h
    · obtain ⟨rfl, -⟩ := Prod.mk.inj (some.inj h)
      exact fail_keeps s _
    · simp only [bind_eq_bind, bind_eq_some_iff, Option.pure_def, Prod.exists] at h
      obtain ⟨streams, ok', hadj, h⟩ := h
      cases ok' <;> obtain ⟨rfl, -⟩ := Prod.mk.inj (some.inj h) <;>
        exact ⟨adjustWindows_blocks hadj, rfl, rfl, rfl, rfl, rfl⟩
  · obtain ⟨rfl, -⟩ := Prod.mk.inj (some.inj h)
    exact .refl s

theorem applySettings_keeps : ∀ {units : List (ℕ × ℕ)} {s s' : Session H} {ok : Bool},
    s.applySettings units = some (s', ok) → s.Keeps s'
  | [], s, s', ok, h => by
    obtain ⟨rfl, -⟩ := Prod.mk.inj (some.inj h)
    exact .refl s
  | unit :: rest, s, s', ok, h => by
    rw [applySettings] at h
    simp only [bind_eq_bind, bind_eq_some_iff, Option.pure_def, Prod.exists] at h
    obtain ⟨t, ok', hone, h⟩ := h
    cases ok' with
    | true => exact (applySetting_keeps hone).trans (applySettings_keeps h)
    | false =>
      obtain ⟨rfl, -⟩ := Prod.mk.inj (some.inj h)
      exact applySetting_keeps hone

theorem onSettings_keeps {header : FrameHeader} {payload : List UInt8}
    (h : s.onSettings header payload = some s') : s.Keeps s' := by
  unfold onSettings at h
  split at h
  · exact some.inj h ▸ fail_keeps s _
  split at h
  · rw [← some.inj h]
    split
    · exact fail_keeps s _
    · exact .refl s
  split at h
  · exact some.inj h ▸ fail_keeps s _
  simp only [bind_eq_bind, bind_eq_some_iff, Prod.exists] at h
  obtain ⟨t, ok, happ, h⟩ := h
  refine (applySettings_keeps happ).trans ?_
  split at h
  · exact some.inj h ▸ .refl t
  split at h
  · exact some.inj h ▸ fail_keeps t _
  · exact some.inj h ▸ ⟨rfl, rfl, rfl, rfl, rfl, rfl⟩

/-- WINDOW_UPDATE has nothing to do with header blocks. -/
theorem onWindowUpdate_keeps {header : FrameHeader} {payload : List UInt8} (hs : s.Distinct)
    (h : s.onWindowUpdate header payload = some s') : s.Keeps s' := by
  unfold onWindowUpdate at h
  simp only at h
  split at h
  · exact some.inj h ▸ fail_keeps s _
  split at h
  · split at h
    · exact some.inj h ▸ fail_keeps s _
    split at h
    · exact some.inj h ▸ fail_keeps s _
    · simp only [bind_eq_bind, bind_eq_some_iff, Option.pure_def,
        some.injEq] at h
      obtain ⟨w, -, rfl⟩ := h
      exact ⟨rfl, rfl, rfl, rfl, rfl, rfl⟩
  split at h
  · next stream hf =>
    have ht := hs.tracks hf
    split at h
    · exact some.inj h ▸ failStream_keeps ht _ _
    split at h
    · exact some.inj h ▸ failStream_keeps ht _ _
    · simp only [bind_eq_bind, bind_eq_some_iff, Option.pure_def,
        some.injEq] at h
      obtain ⟨w, -, rfl⟩ := h
      have hop : s.Tracks { stream with sendWindow := w } := ht
      exact (Keeps.put hop).trans
        ⟨rfl, rfl, rfl, rfl, rfl, rfl⟩
  · rw [← some.inj h]
    split
    · exact fail_keeps s _
    · exact .refl s

theorem onPing_keeps (s : Session H) (header : FrameHeader) (payload : List UInt8) :
    s.Keeps (s.onPing header payload) := by
  unfold onPing
  repeat' split
  all_goals exact ⟨rfl, rfl, rfl, rfl, rfl, rfl⟩

theorem onPriority_keeps (s : Session H) (header : FrameHeader) :
    s.Keeps (s.onPriority header) := by
  unfold onPriority
  repeat' split
  all_goals exact ⟨rfl, rfl, rfl, rfl, rfl, rfl⟩

theorem onData_keeps (hs : s.Distinct) (header : FrameHeader) (payload : List UInt8) :
    s.Keeps (s.onData header payload) := by
  unfold onData
  extract_lets t u
  have ht : s.Keeps t := ⟨rfl, rfl, rfl, rfl, rfl, rfl⟩
  refine ht.trans ?_
  split
  · split
    · exact fail_keeps t _
    · exact .refl t
  next stream hf =>
  extract_lets received ended
  have hu : t.Keeps u := ⟨rfl, rfl, rfl, rfl, rfl, rfl⟩
  have htr : u.Tracks stream := (ht.distinct hs).tracks hf
  have hrc : u.Tracks received := htr
  refine hu.trans ?_
  split
  · exact failStream_keeps htr _ _
  split
  · refine Keeps.put ?_
    exact htr
  split
  · exact (Keeps.put hrc).trans (fail_keeps _ _)
  have hen : ended.id = received.id ∧ ended.headerBlock = received.headerBlock := by
    unfold ended
    split
    · exact recvEndStream_block received
    · exact ⟨rfl, rfl⟩
  refine .put fun old hmem hid => ?_
  exact (hrc old hmem (hid.trans hen.1)).trans hen.2.symm

theorem onRstStream_keeps (hs : s.Distinct) (header : FrameHeader) (payload : List UInt8) :
    s.Keeps (s.onRstStream header payload) := by
  unfold onRstStream
  split
  · exact fail_keeps s _
  split
  · exact fail_keeps s _
  split
  · exact .refl s
  · next stream hf =>
    have ht : s.Tracks stream := hs.tracks hf
    exact .put ht

theorem onGoaway_keeps (s : Session H) (header : FrameHeader) (payload : List UInt8) :
    s.Keeps (s.onGoaway header payload) := by
  unfold onGoaway
  split
  · exact fail_keeps s _
  split
  · exact fail_keeps s _
  extract_lets last graceful
  refine ⟨?_, rfl, rfl, rfl, rfl, rfl⟩
  rw [List.map_map]
  refine map_congr_left fun stream _ => ?_
  simp only [Function.comp_apply]
  split
  · rfl
  split <;> rfl

/-! ## Removing and adding streams -/

theorem swapRemove_perm {l r : List Stream} (hs : s.streams = l ++ stream :: r)
    (hid : stream.id = id) (hl : ∀ t ∈ l, t.id ≠ id) :
    (s.swapRemove id).streams.Perm (l ++ r) := by
  have hfn : s.streams.findIdx? (fun t => t.id = id) = some l.length := by
    rw [hs, findIdx?_append, findIdx?_eq_none_iff.2 (by simpa using hl),
      findIdx?_cons]
    simp [hid]
  unfold swapRemove
  rw [hfn]
  rcases eq_nil_or_concat r with rfl | ⟨r', last, rfl⟩
  · have hls : s.streams.getLast? = some stream := by rw [hs, getLast?_append]; rfl
    rw [hls]
    simp only
    rw [hs, set_append_right _ _ le_rfl, Nat.sub_self, set_cons_zero,
      dropLast_concat, append_nil]
  · rw [concat_eq_append] at hs ⊢
    have hls : s.streams.getLast? = some last := by
      rw [hs, ← cons_append, ← append_assoc, getLast?_append]
      rfl
    rw [hls]
    simp only
    rw [hs, set_append_right _ _ le_rfl, Nat.sub_self, set_cons_zero,
      ← cons_append, ← append_assoc, dropLast_concat]
    refine Perm.append_left l ?_
    exact (perm_append_comm : ([last] ++ r').Perm (r' ++ [last]))

theorem swapRemove_fields (s : Session H) (id : ℕ) :
    (s.swapRemove id).nextStreamId = s.nextStreamId
      ∧ (s.swapRemove id).expectingContinuation = s.expectingContinuation
      ∧ (s.swapRemove id).orphanHeaderBlock = s.orphanHeaderBlock
      ∧ (s.swapRemove id).hpack = s.hpack ∧ (s.swapRemove id).calls = s.calls := by
  unfold swapRemove
  split <;> exact ⟨rfl, rfl, rfl, rfl, rfl⟩

theorem Distinct.swapRemove (hs : s.Distinct) (hf : s.find id = some stream) :
    (s.swapRemove id).Distinct
      ∧ ∀ t, t ∈ (s.swapRemove id).streams ↔ t ∈ s.streams ∧ t.id ≠ id := by
  obtain ⟨hid, l, r, hsp, hl⟩ := find?_eq_some_iff_append.1 hf
  have hid : stream.id = id := by simpa using hid
  have hl : ∀ t ∈ l, t.id ≠ id := by simpa using hl
  have hpr := swapRemove_perm hsp hid hl
  have hnd := hs.nodup
  rw [hsp, map_append, map_cons, nodup_middle, nodup_cons,
    ← map_append, hid] at hnd
  have hmem : ∀ t, t ∈ (s.swapRemove id).streams ↔ t ∈ s.streams ∧ t.id ≠ id := by
    intro t
    rw [hpr.mem_iff, hsp]
    constructor
    · intro ht
      refine ⟨by simp only [mem_append, mem_cons] at ht ⊢; tauto, fun h => ?_⟩
      exact hnd.1 (h ▸ List.mem_map_of_mem ht)
    · rintro ⟨ht, hne⟩
      simp only [mem_append, mem_cons] at ht ⊢
      rcases ht with ht | rfl | ht
      · exact Or.inl ht
      · exact absurd hid hne
      · exact Or.inr ht
  refine ⟨⟨(hpr.map _).nodup_iff.2 hnd.2, fun t ht => hs.pos t ((hmem t).1 ht).1,
    fun t ht => ?_, ?_⟩, hmem⟩
  · rw [(swapRemove_fields s id).1]
    exact hs.lt t ((hmem t).1 ht).1
  · rw [(swapRemove_fields s id).1]
    exact hs.next_pos

theorem Distinct.find_swapRemove (hs : s.Distinct) (hf : s.find id = some stream) (id' : ℕ) :
    (s.swapRemove id).find id' = if id' = id then none else s.find id' := by
  obtain ⟨hd, hmem⟩ := hs.swapRemove hf
  split_ifs with h
  · rw [Session.find, find?_eq_none]
    intro t ht
    simpa [h] using ((hmem t).1 ht).2
  · rcases hold : s.find id' with _ | t
    · rw [Session.find, find?_eq_none] at hold ⊢
      exact fun t ht => hold t ((hmem t).1 ht).1
    · obtain ⟨hin, hid⟩ := hs.find_iff.1 hold
      exact hd.find_iff.2 ⟨(hmem t).2 ⟨hin, hid.trans_ne h⟩, hid⟩

end

/-! ## The invariant -/

section

variable {dec : Decoder H} {h₀ : H} {s s' : Session H} {w : Wire} {stream : Stream} {id : ℕ}

/-- The decoder was fed the complete blocks, and the block that is going on is where the next frame
of it looks. -/
structure Synced (dec : Decoder H) (h₀ : H) (s : Session H) (w : Wire) : Prop where
  distinct : s.Distinct
  fed : (s.hpack, s.calls) = feedAll dec h₀ w.complete
  idle : w.going = none → s.expectingContinuation = 0
  going : ∀ block, w.going = some block → 0 < s.expectingContinuation
    ∧ s.expectingContinuation < s.nextStreamId ∧ s.buffered = block

theorem Synced.keeps (hs : Synced dec h₀ s w) (h : s.Keeps s') : Synced dec h₀ s' w where
  distinct := h.distinct hs.distinct
  fed := by rw [h.hpack, h.calls]; exact hs.fed
  idle hw := h.expecting.trans (hs.idle hw)
  going block hw := by
    rw [h.expecting, h.next, h.buffered]
    exact hs.going block hw

theorem Synced.expecting_lt (hs : Synced dec h₀ s w) : s.expectingContinuation < s.nextStreamId := by
  rcases hw : w.going with _ | block
  · rw [hs.idle hw]
    exact hs.distinct.next_pos
  · exact (hs.going block hw).2.1

/-- A removed stream's block goes on as one of no stream. -/
theorem Synced.removeStream (hs : Synced dec h₀ s w) (hf : s.find stream.id = some stream) :
    Synced dec h₀ (s.removeStream stream) w := by
  unfold Session.removeStream
  extract_lets t
  have hd : t.Distinct := by
    unfold t
    split_ifs <;> exact ⟨hs.distinct.nodup, hs.distinct.pos, hs.distinct.lt, hs.distinct.next_pos⟩
  have hft : t.find stream.id = some stream := by
    unfold t
    split_ifs <;> exact hf
  have hfl : t.nextStreamId = s.nextStreamId
      ∧ t.expectingContinuation = s.expectingContinuation
      ∧ t.hpack = s.hpack ∧ t.calls = s.calls := by
    unfold t
    split_ifs <;> exact ⟨rfl, rfl, rfl, rfl⟩
  obtain ⟨hnx, hexp, hhp, hcl⟩ := hfl
  obtain ⟨hnx', hexp', hor', hhp', hcl'⟩ := swapRemove_fields t stream.id
  refine ⟨(hd.swapRemove hft).1, ?_, fun hw => ?_, fun block hw => ?_⟩
  · rw [hhp', hcl', hhp, hcl]
    exact hs.fed
  · rw [hexp', hexp]
    exact hs.idle hw
  · obtain ⟨hpos, hlt, hbuf⟩ := hs.going block hw
    rw [hexp', hexp, hnx', hnx]
    refine ⟨hpos, hlt, ?_⟩
    rw [Session.buffered, hexp', hexp, hd.find_swapRemove hft, hor', ← hbuf, Session.buffered]
    by_cases hid : s.expectingContinuation = stream.id
    · simp [hid, hf, t]
    · rw [if_neg hid]
      unfold t
      rw [if_neg hid]

theorem Synced.swapRemove (hs : Synced dec h₀ s w) (hf : s.find stream.id = some stream)
    (hne : s.expectingContinuation ≠ stream.id) : Synced dec h₀ (s.swapRemove stream.id) w := by
  have hrm := hs.removeStream hf
  rwa [Session.removeStream, if_neg hne] at hrm

theorem Keeps.find (h : s.Keeps s') (hs : s.Distinct) (hf : s.find id = some stream) :
    ∃ stream', s'.find id = some stream' ∧ stream'.id = id := by
  have hbl := find_headerBlock s' id
  rw [h.blocks, ← find_headerBlock, hf] at hbl
  rcases hf' : s'.find id with _ | stream'
  · simp [hf'] at hbl
  · exact ⟨stream', rfl, ((h.distinct hs).find_iff.1 hf').2⟩

theorem Synced.removePut (hs : Synced dec h₀ s w) (hf : s.find id = some stream)
    {p : Session H × Stream} (hp : s.Hands stream p) :
    Synced dec h₀ ((p.1.put p.2).removeStream p.2) w := by
  have ht := hs.distinct.tracks hf
  have hid := (hs.distinct.find_iff.1 hf).2
  have hd := hp.keeps.distinct hs.distinct
  obtain ⟨old, hold, hold'⟩ := hp.keeps.find hs.distinct hf
  exact (hs.keeps (hp.put ht)).removeStream
    (hd.find_put (hd.find_iff.1 hold).1 (hold'.trans (hp.id.trans hid).symm))

theorem Synced.detachWithFailure (hs : Synced dec h₀ s w) (hf : s.find id = some stream)
    (wrote : ℕ) : Synced dec h₀ (s.detachWithFailure stream wrote) w := by
  have hrst := rst_hands s stream .cancel
  exact hs.removePut hf (p := ((s.rst stream .cancel).1.flush wrote,
    { (s.rst stream .cancel).2 with client := none }))
    ⟨hrst.keeps.trans ⟨rfl, rfl, rfl, rfl, rfl, rfl⟩, hrst.id, hrst.block⟩

theorem Synced.deliver (hs : Synced dec h₀ s w) (id : ℕ) (a : DeliverAnswers) :
    Synced dec h₀ (s.deliver id a) w := by
  unfold Session.deliver
  split
  · exact hs
  next stream hf =>
  have ht := hs.keeps (deliverStream_keeps (hs.distinct.tracks hf) a)
  simp only
  split
  · split
    · exact ht
    next stream' hf' =>
    split
    · exact ht.removePut hf' (rst_hands _ stream' .cancel)
    · exact ht.removePut hf' (p := (_, stream')) ⟨.refl _, rfl, rfl⟩
  · exact ht

theorem Synced.replenishWindow (hs : Synced dec h₀ s w) (h : s.replenishWindow = some s') :
    Synced dec h₀ s' w :=
  hs.keeps (replenishWindow_keeps hs.distinct h)

theorem Distinct.push (hs : s.Distinct) (hid : stream.id = s.nextStreamId)
    (hmax : s.nextStreamId < maxStreamId) :
    Distinct { s with
      nextStreamId := min (s.nextStreamId + 2) maxStreamId
      streams := s.streams ++ [stream] } := by
  have hlt : s.nextStreamId < min (s.nextStreamId + 2) maxStreamId := by omega
  refine ⟨?_, ?_, ?_, ?_⟩
  · rw [map_append, map_singleton]
    refine nodup_append.2 ⟨hs.nodup, nodup_singleton _, fun a ha b hb => ?_⟩
    obtain ⟨t, ht, rfl⟩ := List.mem_map.1 ha
    have := hs.lt t ht
    rw [mem_singleton.1 hb, hid]
    exact this.ne
  · intro t ht
    rcases mem_append.1 ht with ht | ht
    · exact hs.pos t ht
    · rw [mem_singleton.1 ht, hid]
      exact hs.next_pos
  · intro t ht
    rcases mem_append.1 ht with ht | ht
    · exact (hs.lt t ht).trans hlt
    · rw [mem_singleton.1 ht, hid]
      exact hlt
  · exact hs.next_pos.trans hlt

theorem Synced.push (hs : Synced dec h₀ s w) (hid : stream.id = s.nextStreamId)
    (hmax : s.nextStreamId < maxStreamId) :
    Synced dec h₀ { s with
      nextStreamId := min (s.nextStreamId + 2) maxStreamId
      streams := s.streams ++ [stream] } w := by
  refine ⟨hs.distinct.push hid hmax, hs.fed, hs.idle, fun block hw => ?_⟩
  obtain ⟨hpos, hexp, hbuf⟩ := hs.going block hw
  have hlt : s.nextStreamId < min (s.nextStreamId + 2) maxStreamId := by omega
  refine ⟨hpos, hexp.trans hlt, ?_⟩
  rw [← hbuf, Session.buffered, Session.buffered, Session.find, Session.find, find?_append]
  have hnew : [stream].find? (fun t => t.id = s.expectingContinuation) = none := by
    simp [hid]
    omega
  rw [hnew, or_none]

/-- A new request leaves the blocks in step. -/
theorem Synced.attach (hs : Synced dec h₀ s w) (hrm : s.hasHeadroom = true) (client : ℕ)
    (r : RequestAnswers) : Synced dec h₀ (s.attach client r) w := by
  have hmax : s.nextStreamId < maxStreamId := by
    simp only [hasHeadroom, Bool.and_eq_true, decide_eq_true_eq] at hrm
    exact hrm.2
  unfold Session.attach
  extract_lets stream t u
  have ht : Synced dec h₀ t w := hs.push (show stream.id = s.nextStreamId from rfl) hmax
  have hfn : t.find stream.id = some stream :=
    ht.distinct.find_iff.2 ⟨mem_append_right _ (mem_singleton.2 rfl), rfl⟩
  have hkp : t.Keeps u := by
    unfold u
    split
    · exact .refl t
    · exact writePreface_keeps t
  obtain ⟨hwr, hst⟩ := writeRequest_keeps u stream r
  have htr := (hkp.trans hwr).tracks (ht.distinct.tracks hfn)
  have hv := ht.keeps (hkp.trans hwr)
  split
  · next v heq =>
    rw [heq] at hv hwr
    have hps : v.Keeps { v with encoderPoisoned := true } := ⟨rfl, rfl, rfl, rfl, rfl, rfl⟩
    have hall := (hkp.trans hwr).trans hps
    obtain ⟨old, hold, hid⟩ := hall.find ht.distinct hfn
    rw [← hid] at hold ⊢
    refine (hv.keeps hps).swapRemove hold ?_
    rw [hall.expecting, hid]
    exact hs.expecting_lt.ne
  · next v stream' heq =>
    rw [heq] at hv hst htr
    obtain ⟨hid, hbl⟩ := hst stream' rfl
    exact hv.keeps (.put fun old hmem hold => (htr old hmem (hold.trans hid)).trans hbl.symm)

/-! ## Header blocks coming in -/

theorem Synced.going_none (hs : Synced dec h₀ s w) (he : s.expectingContinuation = 0) :
    w.going = none := by
  rcases hw : w.going with _ | block
  · rfl
  · exact absurd he (hs.going block hw).1.ne'

theorem Synced.put_idle (hs : Synced dec h₀ s w) (hw : w.going = none) (stream : Stream) :
    Synced dec h₀ (s.put stream) w :=
  ⟨hs.distinct.put stream, hs.fed, hs.idle, fun block hb => by simp [hw] at hb⟩

theorem Synced.applyBlock (hs : Synced dec h₀ s w) (hw : w.going = none) (stream : Stream)
    (acc : BlockFields) : Synced dec h₀ (s.applyBlock stream acc) w := by
  unfold Session.applyBlock
  extract_lets kept told ready
  split
  · exact (hs.keeps (rst_hands s stream _).keeps).put_idle hw _
  split
  · split <;> exact hs.put_idle hw _
  split
  · exact hs.put_idle hw _
  split
  · split <;> exact hs.put_idle hw _
  by_cases hwt : ready.awaitingContinue
  · simp only [if_pos hwt]
    exact (hs.keeps (writeFrame_keeps s _ _ _ _)).put_idle hw _
  · simp only [if_neg hwt]
    exact hs.put_idle hw _

theorem Synced.feed (hs : Synced dec h₀ s w) (he : s.expectingContinuation = 0)
    {hpack : H} {calls : List (List UInt8)} {orphan block : List UInt8}
    (hfd : (hpack, calls) = H2.feed dec s.hpack block) :
    Synced dec h₀ { s with hpack, calls := s.calls ++ calls, orphanHeaderBlock := orphan }
      { complete := w.complete ++ [block], going := none } := by
  refine ⟨⟨hs.distinct.nodup, hs.distinct.pos, hs.distinct.lt, hs.distinct.next_pos⟩, ?_,
    fun _ => he, fun _ h => by simp at h⟩
  rw [feedAll_concat, ← hs.fed, ← hfd]

theorem Synced.decodeDiscardOrphan (hs : Synced dec h₀ s w) (he : s.expectingContinuation = 0)
    (hok : (s.decodeDiscardOrphan dec).fatalError = none) :
    Synced dec h₀ (s.decodeDiscardOrphan dec)
      { complete := w.complete ++ [s.orphanHeaderBlock], going := none } := by
  have hlp := decodeLoop_feed dec Error.compressionError (fun (_ : Unit) _ => ((), none)) s.hpack
    () s.orphanHeaderBlock
  unfold Session.decodeDiscardOrphan at hok ⊢
  generalize decodeLoop dec Error.compressionError (fun (_ : Unit) _ => ((), none)) s.hpack ()
    s.orphanHeaderBlock 0 = out at hlp hok ⊢
  obtain ⟨hpack, calls, _, _ | e⟩ := out
  · exact hs.feed he (hlp rfl)
  · simp [fail] at hok

theorem Synced.decodeHeaderBlock (hs : Synced dec h₀ s w) (he : s.expectingContinuation = 0)
    {block : List UInt8} (hbl : stream.headerBlock = block)
    (hok : (s.decodeHeaderBlock dec stream).fatalError = none) :
    Synced dec h₀ (s.decodeHeaderBlock dec stream)
      { complete := w.complete ++ [block], going := none } := by
  have hlp := decodeLoop_feed dec Error.compressionError (BlockFields.field stream.statusCode)
    s.hpack { decodedBytes := stream.decodedBytes } stream.headerBlock
  rw [hbl] at hlp
  unfold Session.decodeHeaderBlock at hok ⊢
  rw [hbl] at hok ⊢
  generalize decodeLoop dec Error.compressionError (BlockFields.field stream.statusCode) s.hpack
    { decodedBytes := stream.decodedBytes } block 0 = out at hlp hok ⊢
  obtain ⟨hpack, calls, acc, _ | e⟩ := out
  · exact (hs.feed he (hlp rfl)).applyBlock rfl _ acc
  · simp [fail] at hok

theorem ended_headerBlock (c : Bool) (stream : Stream) :
    (if c then stream.recvEndStream else stream).headerBlock = stream.headerBlock := by
  split
  · exact (recvEndStream_block stream).2
  · rfl

theorem Wire.add_end {flags : UInt8} (hend : hasFlag flags flagEndHeaders = true) (w : Wire)
    (block : List UInt8) :
    w.add flags block = { complete := w.complete ++ [block], going := none } := if_pos hend

theorem Wire.add_more {flags : UInt8} (hend : ¬ hasFlag flags flagEndHeaders = true) (w : Wire)
    (block : List UInt8) : w.add flags block = { w with going := some block } := if_neg hend

theorem isIdle_eq_false (hi : ¬ s.isIdle id = true) : 0 < id ∧ id < s.nextStreamId := by
  simp only [isIdle, decide_eq_true_eq, not_or, not_le] at hi
  exact ⟨Nat.pos_of_ne_zero hi.1, hi.2.2⟩

variable {header : FrameHeader} {payload : List UInt8}

/-- HEADERS for no stream feed the decoder their block, or begin one. -/
theorem Synced.onOrphanHeaders (hs : Synced dec h₀ s w) (he : s.expectingContinuation = 0)
    (hf : s.find header.streamIdentifier = none)
    (hok : (s.onOrphanHeaders dec header payload).fatalError = none) :
    ∃ fragment, headersFragment header.flags payload = some fragment
      ∧ Synced dec h₀ (s.onOrphanHeaders dec header payload) (w.add header.flags fragment) := by
  unfold Session.onOrphanHeaders at hok ⊢
  split at hok
  · simp [fail] at hok
  next hid =>
  rw [if_neg hid]
  rcases hfr : headersFragment header.flags payload with _ | fragment
  · simp [hfr, fail] at hok
  simp only [hfr] at hok ⊢
  split at hok
  · simp [fail] at hok
  next hlen =>
  rw [if_neg hlen]
  refine ⟨fragment, rfl, ?_⟩
  have hs' : Synced dec h₀ { s with orphanHeaderBlock := fragment } w :=
    ⟨⟨hs.distinct.nodup, hs.distinct.pos, hs.distinct.lt, hs.distinct.next_pos⟩, hs.fed, hs.idle,
      fun block hb => by simp [hs.going_none he] at hb⟩
  split at hok
  · next hend =>
    rw [if_pos hend, Wire.add_end hend]
    exact hs'.decodeDiscardOrphan he hok
  · next hend =>
    rw [if_neg hend, Wire.add_more hend]
    refine ⟨⟨hs.distinct.nodup, hs.distinct.pos, hs.distinct.lt, hs.distinct.next_pos⟩, hs.fed,
      fun h => by simp at h, fun block hb => ?_⟩
    obtain ⟨hpos, hlt⟩ := isIdle_eq_false hid
    exact ⟨hpos, hlt, (buffered_of_none hf).trans (some.inj hb)⟩

/-- HEADERS for a stream feed the decoder their block, or begin one. -/
theorem Synced.onStreamHeaders (hs : Synced dec h₀ s w) (he : s.expectingContinuation = 0)
    (hf : s.find id = some stream)
    (hok : (s.onStreamHeaders dec stream header payload).fatalError = none) :
    ∃ fragment, headersFragment header.flags payload = some fragment
      ∧ Synced dec h₀ (s.onStreamHeaders dec stream header payload)
        (w.add header.flags fragment) := by
  have hw := hs.going_none he
  obtain ⟨hmem, hid⟩ := hs.distinct.find_iff.1 hf
  unfold Session.onStreamHeaders at hok ⊢
  extract_lets t ends at hok
  have ht : Synced dec h₀ t w := hs.keeps ⟨rfl, rfl, rfl, rfl, rfl, rfl⟩
  rcases hfr : headersFragment header.flags payload with _ | fragment
  · simp [hfr, fail] at hok
  simp only [hfr] at hok ⊢
  split at hok
  · simp [fail] at hok
  next hlen =>
  rw [if_neg hlen]
  refine ⟨fragment, rfl, ?_⟩
  split at hok
  · next hend =>
    rw [if_pos hend, Wire.add_end hend]
    exact ht.decodeHeaderBlock he (ended_headerBlock _ _) hok
  · next hend =>
    rw [if_neg hend, Wire.add_more hend]
    have hput := ht.put_idle hw { stream with headerBlock := fragment, headersEndStream := ends }
    refine ⟨⟨hput.distinct.nodup, hput.distinct.pos, hput.distinct.lt, hput.distinct.next_pos⟩,
      hput.fed, fun h => by simp at h, fun block hb => ?_⟩
    refine ⟨hs.distinct.pos stream hmem, hs.distinct.lt stream hmem, ?_⟩
    have hfn : (t.put { stream with headerBlock := fragment, headersEndStream := ends }).find
        stream.id = some _ := ht.distinct.find_put hmem rfl
    exact (buffered_of_find rfl hfn).trans (some.inj hb)

/-- A CONTINUATION is a part of the block that is open. -/
theorem Synced.onContinuation (hs : Synced dec h₀ s w)
    (hok : (s.onContinuation dec header payload).fatalError = none) :
    ∃ block, w.going = some block
      ∧ Synced dec h₀ (s.onContinuation dec header payload)
        (w.add header.flags (block ++ payload)) := by
  unfold Session.onContinuation at hok ⊢
  split at hok
  · simp [fail] at hok
  next hid =>
  rw [if_neg hid]
  rw [not_or, not_not] at hid
  rcases hw : w.going with _ | block
  · exact absurd (hs.idle hw) hid.1
  obtain ⟨hpos, hlt, hbuf⟩ := hs.going block hw
  refine ⟨block, rfl, ?_⟩
  rcases hf : s.find s.expectingContinuation with _ | stream
  · have hor : s.orphanHeaderBlock = block := by rw [← hbuf, buffered_of_none hf]
    simp only [hf, hor] at hok ⊢
    split at hok
    · simp [fail] at hok
    next hlen =>
    rw [if_neg hlen]
    split at hok
    · next hend =>
      rw [if_pos hend, Wire.add_end hend]
      have hs' : Synced dec h₀ { s with
          orphanHeaderBlock := block ++ payload
          expectingContinuation := 0 } { w with going := none } :=
        ⟨⟨hs.distinct.nodup, hs.distinct.pos, hs.distinct.lt, hs.distinct.next_pos⟩, hs.fed,
          fun _ => rfl, fun _ h => by simp at h⟩
      exact hs'.decodeDiscardOrphan rfl hok
    · next hend =>
      rw [if_neg hend, Wire.add_more hend]
      refine ⟨⟨hs.distinct.nodup, hs.distinct.pos, hs.distinct.lt, hs.distinct.next_pos⟩, hs.fed,
        fun h => by simp at h, fun block' hb => ⟨hpos, hlt, ?_⟩⟩
      rw [← some.inj hb]
      exact buffered_of_none (s := { s with orphanHeaderBlock := block ++ payload }) hf
  · have hbl : stream.headerBlock = block := by rw [← hbuf, buffered_of_find rfl hf]
    obtain ⟨hmem, hsid⟩ := hs.distinct.find_iff.1 hf
    simp only [hf, hbl] at hok ⊢
    split at hok
    · simp [fail] at hok
    next hlen =>
    rw [if_neg hlen]
    split at hok
    · next hend =>
      rw [if_pos hend, Wire.add_end hend]
      have hs' : Synced dec h₀ { s with expectingContinuation := 0 } { w with going := none } :=
        ⟨⟨hs.distinct.nodup, hs.distinct.pos, hs.distinct.lt, hs.distinct.next_pos⟩, hs.fed,
          fun _ => rfl, fun _ h => by simp at h⟩
      exact hs'.decodeHeaderBlock rfl (ended_headerBlock _ _) hok
    · next hend =>
      rw [if_neg hend, Wire.add_more hend]
      refine ⟨hs.distinct.put _, hs.fed, fun h => by simp at h, fun block' hb => ⟨hpos, hlt, ?_⟩⟩
      have hfn : (s.put { stream with headerBlock := block ++ payload }).find stream.id = some _ :=
        hs.distinct.find_put hmem rfl
      rw [← some.inj hb]
      exact buffered_of_find (s := s.put _) hsid.symm hfn

/-- A frame that does not fail the session takes it along with the wire. -/
theorem Synced.dispatchFrame (hs : Synced dec h₀ s w) {f : Frame}
    (hd : s.dispatchFrame dec f.header f.payload = some s') (hok : s'.fatalError = none) :
    Synced dec h₀ s' (w.next f) := by
  unfold Session.dispatchFrame at hd
  split at hd
  · rw [← some.inj hd] at hok
    simp [fail] at hok
  next hexp =>
  split at hd
  · rw [← some.inj hd] at hok
    simp [fail] at hok
  rw [not_and_or, not_not, not_not] at hexp
  unfold Wire.next
  cases ht : f.header.frameType with
  | headers =>
    have he := hexp.resolve_right (by simp [ht])
    rw [ht] at hd
    obtain rfl : s.onHeaders dec f.header f.payload = s' := some.inj hd
    unfold onHeaders at hok ⊢
    rcases hf : s.find f.header.streamIdentifier with _ | stream
    · simp only [hf] at hok ⊢
      obtain ⟨fragment, hfr, hsy⟩ := hs.onOrphanHeaders he hf hok
      simpa only [hfr] using hsy
    · simp only [hf] at hok ⊢
      obtain ⟨fragment, hfr, hsy⟩ := hs.onStreamHeaders he hf hok
      simpa only [hfr] using hsy
  | continuation =>
    rw [ht] at hd
    obtain rfl : s.onContinuation dec f.header f.payload = s' := some.inj hd
    obtain ⟨block, hw, hsy⟩ := hs.onContinuation hok
    simpa only [hw] using hsy
  | settings =>
    rw [ht] at hd
    exact hs.keeps (onSettings_keeps hd)
  | windowUpdate =>
    rw [ht] at hd
    exact hs.keeps (onWindowUpdate_keeps hs.distinct hd)
  | ping =>
    rw [ht] at hd
    exact some.inj hd ▸ hs.keeps (onPing_keeps s f.header f.payload)
  | priority =>
    rw [ht] at hd
    exact some.inj hd ▸ hs.keeps (onPriority_keeps s f.header)
  | data =>
    rw [ht] at hd
    exact some.inj hd ▸ hs.keeps (onData_keeps hs.distinct f.header f.payload)
  | rstStream =>
    rw [ht] at hd
    exact some.inj hd ▸ hs.keeps (onRstStream_keeps hs.distinct f.header f.payload)
  | goaway =>
    rw [ht] at hd
    exact some.inj hd ▸ hs.keeps (onGoaway_keeps s f.header f.payload)
  | pushPromise =>
    rw [ht] at hd
    exact some.inj hd ▸ hs.keeps (fail_keeps s _)
  | other value =>
    rw [ht] at hd
    exact some.inj hd ▸ hs

end

/-! ## Runs -/

/-- A frame that comes in, or something this side does between two frames. -/
inductive Input where
  | frame (f : Frame)
  | attach (client : ℕ) (r : RequestAnswers)
  | drain (id : ℕ) (body : RequestBody) (cap : ℕ)
  | abort (id : ℕ) (wrote : ℕ)
  | deliver (id : ℕ) (a : DeliverAnswers)
  | replenish
  | flush (wrote : ℕ)
  | writeFailed

/-- A client is attached only when there is room. -/
def perform (dec : Decoder H) (s : Session H) : Input → Option (Session H)
  | .frame f => s.dispatchFrame dec f.header f.payload
  | .attach client r => if s.hasHeadroom then some (s.attach client r) else none
  | .drain id body cap =>
    match s.find id with
    | none => some s
    | some stream =>
      let (s, stream, _) := s.drainSendBody stream body cap
      some (s.put stream)
  | .abort id wrote =>
    match s.find id with
    | none => some s
    | some stream => some (s.detachWithFailure stream wrote)
  | .deliver id a => some (s.deliver id a)
  | .replenish => s.replenishWindow
  | .flush wrote => some (s.flush wrote)
  | .writeFailed => some (s.fail .writeFailed)

/-- Nothing more happens after the first fatal error. -/
def step (dec : Decoder H) (s : Session H) (i : Input) : Option (Session H × Input) :=
  if s.fatalError.isSome then none else (s.perform dec i).map fun t => (t, i)

theorem step_input {dec : Decoder H} {s s' : Session H} {i e : Input}
    (hs : s.step dec i = some (s', e)) : e = i := by
  unfold step at hs
  split_ifs at hs
  obtain ⟨t, -, heq⟩ := map_eq_some_iff.1 hs
  exact (Prod.mk.inj heq).2.symm

def Input.onWire (w : Wire) : Input → Wire
  | .frame f => w.next f
  | _ => w

section

variable {dec : Decoder H} {h₀ : H} {s s' : Session H} {w : Wire}

theorem Synced.perform {i : Input} (hs : Synced dec h₀ s w) (hp : s.perform dec i = some s')
    (hok : s'.fatalError = none) : Synced dec h₀ s' (i.onWire w) := by
  cases i with
  | frame f => exact hs.dispatchFrame hp hok
  | attach client r =>
    simp only [Session.perform] at hp
    split_ifs at hp with hrm
    exact some.inj hp ▸ hs.attach hrm client r
  | drain id body cap =>
    simp only [Session.perform] at hp
    split at hp
    · exact some.inj hp ▸ hs
    · next stream hf =>
      exact some.inj hp ▸
        hs.keeps ((drainSendBody_hands s stream body cap).put (hs.distinct.tracks hf))
  | abort id wrote =>
    simp only [Session.perform] at hp
    split at hp
    · exact some.inj hp ▸ hs
    · next stream hf => exact some.inj hp ▸ hs.detachWithFailure hf wrote
  | deliver id a => exact some.inj hp ▸ hs.deliver id a
  | replenish => exact hs.replenishWindow hp
  | flush wrote => exact some.inj hp ▸ hs.keeps ⟨rfl, rfl, rfl, rfl, rfl, rfl⟩
  | writeFailed => exact some.inj hp ▸ hs.keeps (fail_keeps s _)

/-- The decoder has been fed nothing, as no frame has come. -/
theorem Synced.init (dec : Decoder H) (h₀ : H) : Synced dec h₀ { hpack := h₀ } {} where
  distinct := ⟨nodup_nil, by simp, by simp, Nat.one_pos⟩
  fed := rfl
  idle _ := rfl
  going _ h := by simp at h

end

end Session

/-- Until the first fatal error, for every order of frames and of what this side does between them,
the decoder was called on exactly the complete header blocks of the wire, each once, whole and in
order, and is in the state that these leave. -/
theorem header_blocks_synced {H : Type} {dec : Decoder H} {h₀ : H} {is es : List Session.Input}
    {s : Session H} (hr : run (Session.step dec) { hpack := h₀ } is = some (s, es))
    (hok : s.fatalError = none) :
    (s.hpack, s.calls) = feedAll dec h₀ (is.foldl Session.Input.onWire {}).complete := by
  have hstep : ∀ {s s' : Session H} {i e : Session.Input} {w : Wire},
      (s.fatalError = none → s.Synced dec h₀ w) → Session.step dec s i = some (s', e) →
        (s'.fatalError = none → s'.Synced dec h₀ (e.onWire w)) := by
    intro s s' i e w hs hone hok
    unfold Session.step at hone
    split_ifs at hone with hfatal
    obtain ⟨t, hp, heq⟩ := map_eq_some_iff.1 hone
    obtain ⟨rfl, rfl⟩ := Prod.mk.inj heq
    exact (hs (by simpa using hfatal)).perform hp hok
  have hinputs : es = is := by
    rw [← run_map_inputs (g := id) Session.step_input hr, List.map_id]
  have hsync := run_foldl (R := fun s w => s.fatalError = none → s.Synced dec h₀ w) hstep
    (fun _ => Session.Synced.init dec h₀) hr hok
  rw [hinputs] at hsync
  exact hsync.fed

/-- The two fields are indexed, so they are of one byte each and change no table. -/
def indexedDecoder : Decoder Unit := fun _ src => ((), match src with
  | 0x88 :: _ => some ⟨bytesOf ":status", bytesOf "200", 1, by decide, Nat.one_pos⟩
  | 0x90 :: _ => some ⟨bytesOf "accept-encoding", bytesOf "gzip, deflate", 1, by decide,
      Nat.one_pos⟩
  | _ => none)

/-- A request is aborted in the middle of its response's header block: the CONTINUATION frame that
follows still completes the block, and the decoder sees both of its fields. -/
theorem header_blocks_synced_aborted :
    ∃ (dec : Decoder Unit) (s : Session Unit) (es : List Session.Input),
      run (Session.step dec) { hpack := () } [
          .frame ⟨{ length := 0, type := 4, streamIdentifier := 0 }, [], rfl, by decide, by decide⟩,
          .attach 9 {},
          .frame ⟨{ length := 1, type := 1, streamIdentifier := 1 }, [0x88], rfl, by decide, by decide⟩,
          .abort 1 0,
          .frame ⟨{ length := 1, type := 9, flags := 4, streamIdentifier := 1 }, [0x90], rfl, by decide,
            by decide⟩] = some (s, es)
        ∧ s.fatalError = none ∧ s.calls = [[0x88, 0x90], [0x90]] := by
  have hr : run (Session.step indexedDecoder) { hpack := () } [
      .frame ⟨{ length := 0, type := 4, streamIdentifier := 0 }, [], rfl, by decide, by decide⟩,
      .attach 9 {},
      .frame ⟨{ length := 1, type := 1, streamIdentifier := 1 }, [0x88], rfl, by decide, by decide⟩,
      .abort 1 0,
      .frame ⟨{ length := 1, type := 9, flags := 4, streamIdentifier := 1 }, [0x90], rfl, by decide,
        by decide⟩] = some (_, _) := rfl
  exact ⟨indexedDecoder, _, _, hr, rfl, congrArg Prod.snd (header_blocks_synced hr rfl)⟩

end Cruller.H2
