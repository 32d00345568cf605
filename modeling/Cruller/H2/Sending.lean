import Cruller.Lib.Metered
import Cruller.H2.Flow

/-!
# What goes out of a body

A body goes out in DATA frames, which both windows have to admit (`Windows`). Every function that
sends is spelled out here by the frames that it queues and what these take from the windows:
`writeDataWindowed` and `drainSendBody`, the request of a new stream, and the passes of
`drainSendBodies`, which come to a run of single drains.
-/

namespace Cruller.H2

open List Option

/-- How much of the windows the frames take. -/
def dataLength (fs : List OutFrame) : ℕ :=
  (fs.map fun f => if f.type = .data then f.payload.length else 0).sum

@[simp]
theorem dataLength_nil : dataLength [] = 0 := rfl

theorem dataLength_cons (f : OutFrame) (fs : List OutFrame) : dataLength (f :: fs) =
    (if f.type = .data then f.payload.length else 0) + dataLength fs := by
  rw [dataLength, map_cons, sum_cons, dataLength]

theorem dataLength_append (fs gs : List OutFrame) :
    dataLength (fs ++ gs) = dataLength fs + dataLength gs := by
  rw [dataLength, map_append, sum_append, dataLength, dataLength]

/-- A piece of a body; its flag says that it is the last one. -/
def dataFrame (id : ℕ) (endStream : Bool) (p : List UInt8 × Bool) : OutFrame :=
  { type := .data
    flags := if p.2 ∧ endStream then flagEndStream else 0
    streamId := id
    payload := p.1 }

theorem dataLength_dataFrame (id : ℕ) (endStream : Bool) (ps : List (List UInt8 × Bool)) :
    dataLength (ps.map (dataFrame id endStream)) = (ps.map fun p => p.1.length).sum := by
  rw [dataLength, List.map_map]
  rfl

/-- The server's limits on what this side sends. -/
structure Windows where
  conn : ℤ
  stream : ℕ → ℤ
  maxFrame : ℕ

namespace Windows

/-- DATA that is not empty stays within the windows and the largest frame. -/
def Admits (w : Windows) (f : OutFrame) : Prop :=
  f.type = .data → f.payload ≠ [] →
    f.payload.length ≤ w.conn ∧ f.payload.length ≤ w.stream f.streamId
      ∧ f.payload.length ≤ w.maxFrame

/-- A DATA frame takes its length from two windows. -/
def spend (w : Windows) (f : OutFrame) : Windows :=
  if f.type = .data then
    { w with
      conn := w.conn - f.payload.length
      stream := Function.update w.stream f.streamId (w.stream f.streamId - f.payload.length) }
  else w

/-- Each frame fits into what the windows have left. -/
abbrev Affords (w : Windows) (fs : List OutFrame) : Prop := Cruller.Affords Admits spend w fs

variable (w : Windows)

theorem spends_conn (fs : List OutFrame) :
    (fs.foldl spend w).conn = w.conn - dataLength fs := by
  induction fs generalizing w with
  | nil => simp
  | cons f fs ih =>
    rw [foldl_cons, ih, spend, dataLength_cons]
    split_ifs
    · push_cast
      ring
    · simp

theorem spends_maxFrame (fs : List OutFrame) :
    (fs.foldl spend w).maxFrame = w.maxFrame := by
  induction fs generalizing w with
  | nil => rfl
  | cons f fs ih =>
    rw [foldl_cons, ih, spend]
    split_ifs <;> rfl

theorem spends_stream {fs : List OutFrame} {id : ℕ}
    (hfs : ∀ f ∈ fs, f.type = .data → f.streamId = id) :
    (fs.foldl spend w).stream =
      Function.update w.stream id (w.stream id - dataLength fs) := by
  induction fs generalizing w with
  | nil => simp
  | cons f fs ih =>
    have hid := hfs f mem_cons_self
    rw [foldl_cons, ih _ fun g hg => hfs g (mem_cons_of_mem _ hg), spend, dataLength_cons]
    split_ifs with hdt
    · rw [hid hdt]
      simp only [Function.update_self, Function.update_idem]
      congr 1
      push_cast
      ring
    · simp

end Windows

namespace Session

variable {H : Type} {s s' : Session H} {stream stream' : Stream} {id : ℕ}

/-- A stream that is not there yet starts with the window that new streams have. -/
def windows (s : Session H) : Windows where
  conn := s.connSendWindow
  stream id := ((s.find id).map Stream.sendWindow).getD s.remoteInitialWindowSize
  maxFrame := s.remoteMaxFrameSize

/-- The session with these frames queued, and taken from its window. -/
def sending (s : Session H) (fs : List OutFrame) (writeBuffer : ℕ) : Session H :=
  { s with
    written := s.written ++ fs
    writeBuffer
    connSendWindow := s.connSendWindow - dataLength fs }

theorem sending_sending (s : Session H) (fs gs : List OutFrame) (m n : ℕ) :
    (s.sending fs m).sending gs n = s.sending (fs ++ gs) n := by
  simp only [sending, append_assoc, dataLength_append]
  congr 1
  push_cast
  ring

theorem writeDataFrame_eq (s : Session H) (stream : Stream) (chunk : List UInt8) (endStream b : Bool) :
    s.writeDataFrame stream chunk (if b ∧ endStream then flagEndStream else 0) =
      (s.sending [dataFrame stream.id endStream (chunk, b)]
          (s.writeBuffer + frameHeaderSize + chunk.length),
        { stream with sendWindow := stream.sendWindow - chunk.length }) := rfl

/-- The stream after pieces of its body were taken from its window. -/
def spent (stream : Stream) (ps : List (List UInt8 × Bool)) : Stream :=
  { stream with sendWindow := stream.sendWindow - (ps.map fun p => p.1.length).sum }

/-- The windows are those of the session and of the stream. -/
structure Limits (s : Session H) (stream : Stream) (w : Windows) : Prop where
  conn : w.conn = s.connSendWindow
  stream : w.stream stream.id = stream.sendWindow
  maxFrame : w.maxFrame = s.remoteMaxFrameSize

theorem Limits.spend {w : Windows} (h : s.Limits stream w) (endStream : Bool)
    (p : List UInt8 × Bool) (wb : ℕ) :
    (s.sending [dataFrame stream.id endStream p] wb).Limits (spent stream [p])
      (w.spend (dataFrame stream.id endStream p)) where
  conn := by simp [Windows.spend, dataFrame, sending, dataLength, h.conn]
  stream := by simp [Windows.spend, dataFrame, spent, h.stream]
  maxFrame := by simp [Windows.spend, dataFrame, sending, h.maxFrame]

/-- The loop sends pieces of what remains, each within the windows at its turn. -/
theorem writeDataLoop_spec (endStream : Bool) (cap : ℕ) :
    ∀ (fuel : ℕ) (s : Session H) (stream : Stream) (remaining : List UInt8) (consumed : ℕ),
      (remaining ≠ [] ∨ 0 < fuel) → ∃ ps left wb, Pieces remaining ps left
        ∧ (∀ w, s.Limits stream w → w.Affords (ps.map (dataFrame stream.id endStream)))
        ∧ writeDataLoop endStream cap fuel s stream remaining consumed =
          (s.sending (ps.map (dataFrame stream.id endStream)) wb, spent stream ps,
            consumed + (ps.map fun p => p.1.length).sum)
  | 0, s, stream, remaining, consumed, hne =>
    ⟨[], remaining, s.writeBuffer, .stop (hne.resolve_right (lt_irrefl 0)), fun _ _ => trivial,
      by simp [writeDataLoop, sending, spent]⟩
  | fuel + 1, s, stream, remaining, consumed, hne => by
    have hst : remaining.length > 0 → ∃ ps left wb, Pieces remaining ps left
        ∧ (∀ w, s.Limits stream w → w.Affords (ps.map (dataFrame stream.id endStream)))
        ∧ (s, stream, consumed) = (s.sending (ps.map (dataFrame stream.id endStream)) wb,
          spent stream ps, consumed + (ps.map fun p => p.1.length).sum) := fun h =>
      ⟨[], remaining, s.writeBuffer, .stop (length_pos_iff.1 h), fun _ _ => trivial,
        by simp [sending, spent]⟩
    rw [writeDataLoop]
    extract_lets chunkLen last flags consumed'
    split
    · next h => exact hst h.1
    split
    · next h => exact hst h.1
    split
    · next h => exact hst h.2
    have hlen : (remaining.take chunkLen).length = chunkLen :=
      length_take_of_le (Nat.min_le_left _ _)
    have had : ∀ w, s.Limits stream w → ∀ b,
        w.Admits (dataFrame stream.id endStream (remaining.take chunkLen, b)) := by
      intro w hw b _ hne'
      have hpos : 0 < chunkLen := by
        rw [← hlen]
        exact length_pos_iff.2 hne'
      have hwn : chunkLen ≤ (min stream.sendWindow s.connSendWindow).toNat :=
        (Nat.min_le_right _ _).trans (Nat.min_le_right _ _)
      have hfr : chunkLen ≤ s.remoteMaxFrameSize :=
        (Nat.min_le_right _ _).trans (Nat.min_le_left _ _)
      change _ ∧ ((remaining.take chunkLen).length : ℤ) ≤ w.stream stream.id ∧ _
      simp only [dataFrame, hlen, hw.conn, hw.stream, hw.maxFrame]
      omega
    by_cases hls : last
    · -- the piece empties what remains
      have hall : remaining.take chunkLen = remaining := take_of_length_le hls.ge
      have hfl : flags = if (true : Bool) ∧ endStream then flagEndStream else 0 := by
        simp [flags, hls]
      rw [hfl, writeDataFrame_eq, hall]
      simp only [if_pos hls]
      rw [hall] at had
      refine ⟨[(remaining, true)], [], s.writeBuffer + frameHeaderSize + remaining.length,
        .last remaining, fun w hw => ⟨had w hw true, trivial⟩, ?_⟩
      rw [show consumed' = consumed + remaining.length from by rw [← hls]]
      rfl
    · -- the next round goes on with the rest of it
      have hfl : flags = if (false : Bool) ∧ endStream then flagEndStream else 0 := by
        simp [flags, hls]
      have hmr : remaining.drop chunkLen ≠ [] := by
        rw [Ne, drop_eq_nil_iff, not_le]
        exact lt_of_le_of_ne (Nat.min_le_left _ _) hls
      rw [hfl, writeDataFrame_eq]
      simp only [if_neg hls]
      obtain ⟨ps, left, wb, hps, haf, heq⟩ := writeDataLoop_spec endStream cap fuel
        (s.sending [dataFrame stream.id endStream (remaining.take chunkLen, false)]
          (s.writeBuffer + frameHeaderSize + (remaining.take chunkLen).length))
        (spent stream [(remaining.take chunkLen, false)]) (remaining.drop chunkLen) consumed'
        (Or.inl hmr)
      refine ⟨(remaining.take chunkLen, false) :: ps, left, wb, ?_, fun w hw =>
        ⟨had w hw false, haf _ (hw.spend endStream _ _)⟩, ?_⟩
      · have := Pieces.more (remaining.take chunkLen) hps
        rwa [take_append_drop] at this
      · refine heq.trans ?_
        rw [sending_sending]
        refine Prod.ext rfl (Prod.ext ?_ ?_)
        · simp only [spent, map_cons, sum_cons, map_nil, sum_nil]
          congr 1
          push_cast
          ring
        · simp only [consumed', map_cons, sum_cons, hlen]
          omega

/-- What sending some frames of a stream makes of it. -/
structure Drained (s : Session H) (stream : Stream) (p : Session H × Stream)
    (fs : List OutFrame) : Prop where
  sending : ∃ wb, p.1 = s.sending fs wb
  frames : ∀ f ∈ fs, f.type = .data ∧ f.streamId = stream.id
  id : p.2.id = stream.id
  sendWindow : p.2.sendWindow = stream.sendWindow - dataLength fs
  affords : ∀ w, s.Limits stream w → w.Affords fs

theorem Drained.none (s : Session H) (stream : Stream) : s.Drained stream (s, stream) [] where
  sending := ⟨s.writeBuffer, by simp [Session.sending]⟩
  frames := by simp
  id := rfl
  sendWindow := by simp
  affords _ _ := trivial

theorem sentEndStream_localClosed (stream : Stream) : stream.sentEndStream.localClosed = true := by
  unfold Stream.sentEndStream Stream.localClosed
  split <;> simp_all
  rename_i h h'
  rcases hst : stream.state <;> simp_all

/-- The body goes out in pieces, each of which the windows admit. -/
theorem writeDataWindowed_spec (s : Session H) (stream : Stream) (data : List UInt8)
    (endStream : Bool) (cap : ℕ) : ∃ ps left wb, Pieces data ps left
      ∧ s.writeDataWindowed stream data endStream cap =
        (s.sending (ps.map (dataFrame stream.id endStream)) wb, spent stream ps,
          (ps.map fun p => p.1.length).sum)
      ∧ ∀ stream' : Stream, stream'.id = stream.id →
        stream'.sendWindow = (spent stream ps).sendWindow →
        s.Drained stream (s.sending (ps.map (dataFrame stream.id endStream)) wb, stream')
          (ps.map (dataFrame stream.id endStream)) := by
  obtain ⟨ps, left, wb, hps, haf, heq⟩ := writeDataLoop_spec endStream cap (data.length + 1) s
    stream data 0 (Or.inr (Nat.succ_pos _))
  refine ⟨ps, left, wb, hps, by rw [writeDataWindowed, heq, Nat.zero_add],
    fun stream' hid hwn => ⟨⟨wb, rfl⟩, fun f hf => ?_, hid, ?_, haf⟩⟩
  · obtain ⟨p, -, rfl⟩ := List.mem_map.1 hf
    exact ⟨rfl, rfl⟩
  · rw [hwn, dataLength_dataFrame]
    rfl

theorem drainSendBody_drained (s : Session H) (stream : Stream) (body : RequestBody) (cap : ℕ) :
    ∃ fs, s.Drained stream ((s.drainSendBody stream body cap).1,
      (s.drainSendBody stream body cap).2.1) fs := by
  have hen : ∀ t : Stream, t.sentEndStream.id = t.id ∧ t.sentEndStream.sendWindow = t.sendWindow :=
    fun t => ⟨(sentEndStream_sameWindow t).id, (sentEndStream_sameWindow t).sendWindow⟩
  unfold drainSendBody
  split
  · exact ⟨[], .none s stream⟩
  split
  · exact ⟨[], .none s stream⟩
  split
  · obtain ⟨ps, left, wb, -, heq, hdr⟩ := writeDataWindowed_spec s stream stream.pendingBody
      true cap
    refine ⟨ps.map (dataFrame stream.id true), ?_⟩
    simp only
    rw [heq]
    split
    · exact hdr _ (hen _).1 (hen _).2
    · exact hdr _ rfl rfl
  · split
    · exact ⟨[], .none s stream⟩
    next data ended _ =>
    obtain ⟨ps, left, wb, -, heq, hdr⟩ := writeDataWindowed_spec s stream data ended cap
    refine ⟨ps.map (dataFrame stream.id ended), ?_⟩
    simp only
    rw [heq]
    split
    · exact hdr _ (hen _).1 (hen _).2
    · exact hdr _ rfl rfl

/-- Of a body in a buffer, the pieces that go out and what is left pending; the stream is ended when
nothing is. -/
theorem drainSendBody_bytes (s : Session H) (stream : Stream) (body : List UInt8) (cap : ℕ) :
    s.drainSendBody stream (.bytes body) cap = (s, stream, 0)
    ∨ ∃ ps left wb, Pieces stream.pendingBody ps left
      ∧ stream.localClosed = false
      ∧ (s.drainSendBody stream (.bytes body) cap).1 =
        s.sending (ps.map (dataFrame stream.id true)) wb
      ∧ (s.drainSendBody stream (.bytes body) cap).2.1 =
        if left = [] then { spent stream ps with pendingBody := left }.sentEndStream
        else { spent stream ps with pendingBody := left } := by
  unfold drainSendBody
  split
  · exact Or.inl rfl
  next hop =>
  split
  · exact Or.inl rfl
  obtain ⟨ps, left, wb, hps, heq, -⟩ := writeDataWindowed_spec s stream stream.pendingBody true cap
  refine Or.inr ⟨ps, left, wb, hps, by simpa using fun h => hop (Or.inl h), ?_⟩
  simp only
  rw [heq]
  simp only [length_eq_zero_iff]
  rw [show (spent stream ps).pendingBody = stream.pendingBody from rfl, hps.drop_eq]
  split_ifs <;> exact ⟨rfl, rfl⟩

theorem find_put_ne (s : Session H) (hne : id ≠ stream.id) :
    (s.put stream).find id = s.find id := by
  rw [find, put, find?_map]
  have hsm : ((fun t : Stream => decide (t.id = id)) ∘ fun old =>
      if old.id = stream.id then stream else old) = fun t => decide (t.id = id) := by
    funext old
    simp only [Function.comp_apply]
    split_ifs with hid
    · rw [hid]
    · rfl
  rw [hsm, ← find]
  rcases hf : s.find id with _ | found
  · rfl
  · have hid : found.id = id := by simpa using find?_some hf
    rw [map_some, if_neg (by rw [hid]; exact hne)]

theorem Drained.windows {fs : List OutFrame} (hs : s.Distinct) (hf : s.find id = some stream)
    {p : Session H × Stream} (h : s.Drained stream p fs) :
    (p.1.put p.2).windows = fs.foldl Windows.spend s.windows := by
  obtain ⟨t, stream'⟩ := p
  obtain ⟨hmem, hid⟩ := hs.find_iff.1 hf
  obtain ⟨wb, rfl⟩ : ∃ wb, t = s.sending fs wb := h.sending
  have hfr : (fs.foldl Windows.spend s.windows).stream =
      Function.update s.windows.stream id (s.windows.stream id - dataLength fs) :=
    s.windows.spends_stream fun f hf _ => (h.frames f hf).2.trans hid
  have hcn := s.windows.spends_conn fs
  have hmax := s.windows.spends_maxFrame fs
  have hd : (s.sending fs wb).Distinct := ⟨hs.nodup, hs.pos, hs.lt, hs.next_pos⟩
  have hid' : stream'.id = stream.id := h.id
  have hwn : stream'.sendWindow = stream.sendWindow - dataLength fs := h.sendWindow
  generalize fs.foldl Windows.spend s.windows = w at hfr hcn hmax ⊢
  obtain ⟨conn, window, maxFrame⟩ := w
  simp only at hfr hcn hmax
  simp only [Session.windows, Windows.mk.injEq]
  refine ⟨hcn.symm, ?_, hmax.symm⟩
  rw [hfr]
  funext i
  by_cases hi : i = id
  · rw [hi, Function.update_self, ← hid, ← hid', hd.find_put hmem hid'.symm]
    simp only [map_some, getD_some, hwn, Session.windows]
    rw [hid', hid, hf]
    rfl
  · rw [Function.update_of_ne hi, find_put_ne _ (by rw [hid', hid]; exact hi)]
    rfl

theorem limits_windows (hs : s.Distinct) (hf : s.find id = some stream) :
    s.Limits stream s.windows where
  conn := rfl
  stream := by
    simp only [windows]
    rw [(hs.find_iff.1 hf).2, hf]
    rfl
  maxFrame := rfl

theorem hasFlag_header (last first endStream : Bool) :
    hasFlag ((if last then flagEndHeaders else 0) |||
      (if first ∧ endStream then flagEndStream else 0)) flagEndStream = (first && endStream) := by
  cases last <;> cases first <;> cases endStream <;> decide

/-- Frames are written. -/
def queueing (s : Session H) (fs : List OutFrame) (writeBuffer : ℕ) : Session H :=
  { s with written := s.written ++ fs, writeBuffer }

theorem queueing_queueing (s : Session H) (fs gs : List OutFrame) (m n : ℕ) :
    (s.queueing fs m).queueing gs n = s.queueing (fs ++ gs) n := by
  simp only [queueing, append_assoc]

theorem writeHeaderBlockLoop_spec (streamId : ℕ) (endStream : Bool) :
    ∀ (fuel : ℕ) (s : Session H) (remaining : List UInt8), ∃ cs wb,
      writeHeaderBlockLoop streamId endStream fuel s remaining false = s.queueing cs wb
      ∧ ∀ c ∈ cs, c.type = .continuation ∧ c.streamId = streamId
  | 0, s, remaining => ⟨[], s.writeBuffer, by simp [writeHeaderBlockLoop, queueing], by simp⟩
  | fuel + 1, s, remaining => by
    rw [writeHeaderBlockLoop]
    generalize remaining.take (min remaining.length s.remoteMaxFrameSize) = chunk
    generalize remaining.drop chunk.length = rest
    generalize ((if rest.length = 0 then flagEndHeaders else 0) |||
      (if false ∧ endStream then flagEndStream else 0)) = flags
    have hone : s.writeFrame .continuation flags streamId chunk =
      s.queueing [⟨.continuation, flags, streamId, chunk⟩]
        (s.writeBuffer + frameHeaderSize + chunk.length) := rfl
    simp only [Bool.false_eq_true, if_false, hone]
    split
    · exact ⟨_, _, rfl, by simp⟩
    · obtain ⟨cs, wb, heq, hcs⟩ := writeHeaderBlockLoop_spec streamId endStream fuel
        (s.queueing [⟨.continuation, flags, streamId, chunk⟩]
          (s.writeBuffer + frameHeaderSize + chunk.length)) rest
      exact ⟨_, wb, heq.trans (queueing_queueing s _ _ _ _),
        forall_mem_cons.2 ⟨⟨rfl, rfl⟩, hcs⟩⟩

/-- A HEADERS frame and CONTINUATIONs, with nothing between them. -/
theorem writeHeaderBlock_spec (s : Session H) (streamId : ℕ) (block : List UInt8)
    (endStream : Bool) : ∃ f cs wb,
      s.writeHeaderBlock streamId block endStream = s.queueing (f :: cs) wb
      ∧ f.type = .headers ∧ f.streamId = streamId
      ∧ hasFlag f.flags flagEndStream = endStream
      ∧ ∀ c ∈ cs, c.type = .continuation ∧ c.streamId = streamId := by
  rw [writeHeaderBlock, writeHeaderBlockLoop]
  generalize block.take (min block.length s.remoteMaxFrameSize) = chunk
  generalize block.drop chunk.length = rest
  have hfl : hasFlag ((if rest.length = 0 then flagEndHeaders else 0) |||
      (if true ∧ endStream then flagEndStream else 0)) flagEndStream = endStream := by
    have := hasFlag_header (decide (rest.length = 0)) true endStream
    simpa using this
  generalize ((if rest.length = 0 then flagEndHeaders else 0) |||
    (if true ∧ endStream then flagEndStream else 0)) = flags at hfl ⊢
  have hone : s.writeFrame .headers flags streamId chunk =
    s.queueing [⟨.headers, flags, streamId, chunk⟩]
      (s.writeBuffer + frameHeaderSize + chunk.length) := rfl
  simp only [if_true, hone]
  split
  · exact ⟨_, [], _, rfl, rfl, rfl, hfl, by simp⟩
  · obtain ⟨cs, wb, heq, hcs⟩ := writeHeaderBlockLoop_spec streamId endStream block.length
      (s.queueing [⟨.headers, flags, streamId, chunk⟩]
        (s.writeBuffer + frameHeaderSize + chunk.length)) rest
    exact ⟨_, cs, wb, heq.trans (queueing_queueing s _ _ _ _), rfl, rfl, hfl, hcs⟩

/-- The window that a new stream begins with. -/
def newWindow (s : Session H) : ℤ :=
  min s.remoteInitialWindowSize maxWindowSize

/-- A stream that nothing has been sent on. -/
def newStream (s : Session H) (client : ℕ) : Stream where
  id := s.nextStreamId
  client := some client
  sendWindow := s.newWindow

/-- The session with the new stream, before anything is queued. -/
def opened (s : Session H) (client : ℕ) : Session H :=
  { s with
    nextStreamId := min (s.nextStreamId + 2) maxStreamId
    streams := s.streams ++ [s.newStream client]
    prefaceSent := true
    pendingHpackEncCapacity := none }

/-- What comes before the first request. -/
def prefaceFrames : List OutFrame :=
  [{ type := .settings, streamId := 0,
     payload := encodeSetting settingsEnablePush 0
      ++ (encodeSetting settingsInitialWindowSize localInitialWindowSize
      ++ encodeSetting settingsMaxHeaderListSize localMaxHeaderListSize) },
    { type := .windowUpdate, streamId := 0,
      payload := beBytes32 (localInitialWindowSize - defaultWindowSize) }]

/-- The preface goes out before the first request. -/
def preface (s : Session H) : List OutFrame :=
  if s.prefaceSent then [] else prefaceFrames

/-- A HEADERS frame and its CONTINUATIONs. -/
structure HeaderFrames (id : ℕ) (endStream : Bool) (f : OutFrame) (cs : List OutFrame) : Prop where
  type : f.type = .headers
  streamId : f.streamId = id
  flag : hasFlag f.flags flagEndStream = endStream
  rest : ∀ c ∈ cs, c.type = .continuation ∧ c.streamId = id

/-- What becomes of a new request: it cannot be encoded, it has no body, its body is a buffer, of
which the first pieces go out unless it has to wait, or its body comes later. -/
inductive Attached (s : Session H) (client : ℕ) (r : RequestAnswers) : Session H → Prop
  | poisoned (h : r.encoded = none) (wb : ℕ) : Attached s client r
      ({ (s.opened client).queueing s.preface wb with
        encoderPoisoned := true }.swapRemove s.nextStreamId)
  | ended (hbody : r.body = .bytes []) {f : OutFrame} {cs : List OutFrame}
      (hf : HeaderFrames s.nextStreamId true f cs) (wb : ℕ) : Attached s client r
      (((s.opened client).queueing (s.preface ++ f :: cs) wb).put
        (s.newStream client).sentEndStream)
  | buffered {body : List UInt8} (hbody : r.body = .bytes body) (hne : body ≠ []) {f : OutFrame}
      {cs : List OutFrame} (hf : HeaderFrames s.nextStreamId false f cs) (wb : ℕ)
      {stream : Stream} (hstream : stream = { s.newStream client with
        awaitingContinue := r.expectContinue, pendingBody := body })
      {t : Session H} (ht : t = (s.opened client).queueing (s.preface ++ f :: cs) wb) :
      Attached s client r ((t.drainSendBody stream (.bytes body) (2 ^ 64 - 1)).1.put
        (t.drainSendBody stream (.bytes body) (2 ^ 64 - 1)).2.1)
  | streamed {data : List UInt8} {ended : Bool} (hbody : r.body = .stream data ended)
      {f : OutFrame} {cs : List OutFrame} (hf : HeaderFrames s.nextStreamId false f cs) (wb : ℕ) :
      Attached s client r (((s.opened client).queueing (s.preface ++ f :: cs) wb).put
        { s.newStream client with awaitingContinue := r.expectContinue })

/-- What attaching a request does, part by part. -/
theorem attach_attached (s : Session H) (client : ℕ) (r : RequestAnswers) :
    s.Attached client r (s.attach client r) := by
  have hpr : ∃ wb, { (if s.prefaceSent then { s with
        nextStreamId := min (s.nextStreamId + 2) maxStreamId
        streams := s.streams ++ [s.newStream client] }
      else { s with
        nextStreamId := min (s.nextStreamId + 2) maxStreamId
        streams := s.streams ++ [s.newStream client] }.writePreface) with
      pendingHpackEncCapacity := none } = (s.opened client).queueing s.preface wb := by
    unfold preface
    by_cases hsn : s.prefaceSent
    · refine ⟨s.writeBuffer, ?_⟩
      rw [if_pos hsn, if_pos hsn]
      simp [opened, queueing, hsn]
    · rw [if_neg hsn, if_neg hsn]
      exact ⟨_, by
        simp only [writePreface, writeWindowUpdate, writeFrame, opened, queueing, prefaceFrames,
          append_assoc, cons_append, nil_append]
        rfl⟩
  obtain ⟨wb, hwb⟩ := hpr
  unfold attach writeRequest
  extract_lets stream t u update v inline streaming waiting sent
  have hv : v = (s.opened client).queueing s.preface wb := hwb
  rcases hen : r.encoded with _ | fields
  · simp only [hv]
    exact .poisoned hen wb
  -- the frames of the block, after the preface
  have hbl : ∀ endStream : Bool, ∃ f cs wb', HeaderFrames s.nextStreamId endStream f cs
      ∧ v.writeHeaderBlock s.nextStreamId (update ++ fields) endStream =
        (s.opened client).queueing (s.preface ++ f :: cs) wb' := by
    intro endStream
    obtain ⟨f, cs, wb', heq, hty, hid, hfl, hcs⟩ :=
      writeHeaderBlock_spec v s.nextStreamId (update ++ fields) endStream
    refine ⟨f, cs, wb', ⟨hty, hid, hfl, hcs⟩, heq.trans ?_⟩
    rw [hv, queueing_queueing]
  have hid : waiting.id = s.nextStreamId := by
    unfold waiting
    split <;> rfl
  have hwt : inline.length > 0 ∨ streaming = true →
      waiting = { stream with awaitingContinue := r.expectContinue } := by
    intro h
    unfold waiting
    cases r.expectContinue
    · rw [if_neg (by simp)]
    · rw [if_pos ⟨rfl, h⟩]
  rcases hbd : r.body with body | ⟨data, ended⟩
  · have hin : inline = body := by simp only [inline, hbd]
    have hst : streaming = false := by simp only [streaming, hbd]
    by_cases hne : body = []
    · have hnil : inline.length = 0 := by rw [hin, hne, length_nil]
      have hpl : waiting = stream := if_neg (by simp [hnil, hst])
      obtain ⟨f, cs, wb', hf, heq⟩ := hbl true
      rw [hid]
      simp only [hnil, hst, lt_irrefl, if_false, Bool.false_eq_true,
        not_false_eq_true, and_self, decide_true, heq]
      rw [hpl]
      exact .ended (hne ▸ hbd) hf wb'
    · have hpos : inline.length > 0 := hin ▸ length_pos_iff.2 hne
      obtain ⟨f, cs, wb', hf, heq⟩ := hbl false
      rw [hid]
      simp only [hpos, hpos.ne', false_and, decide_false, if_true, heq]
      refine .buffered hbd hne hf wb' ?_ rfl
      unfold sent
      rw [hwt (Or.inl hpos), hin]
      rfl
  · have hin : inline.length = 0 := by simp only [inline, hbd, length_nil]
    have hst : streaming = true := by simp only [streaming, hbd]
    obtain ⟨f, cs, wb', hf, heq⟩ := hbl false
    rw [hid]
    simp only [hin, hst, lt_irrefl, if_false, if_true, not_true_eq_false,
      and_false, decide_false, heq]
    rw [hwt (Or.inr hst)]
    exact .streamed hbd hf wb'

theorem swapRemove_limits (s : Session H) (id : ℕ) : (s.swapRemove id).written = s.written
    ∧ (s.swapRemove id).connSendWindow = s.connSendWindow
    ∧ (s.swapRemove id).remoteInitialWindowSize = s.remoteInitialWindowSize
    ∧ (s.swapRemove id).remoteMaxFrameSize = s.remoteMaxFrameSize
    ∧ (s.swapRemove id).connUnackedBytes = s.connUnackedBytes
    ∧ (s.swapRemove id).prefaceSent = s.prefaceSent := by
  unfold swapRemove
  split <;> exact ⟨rfl, rfl, rfl, rfl, rfl, rfl⟩

/-- What a new request queues: the preface if need be, a header block, and DATA within the limits of
the new stream. -/
structure Requests (s s' : Session H) (hs fs : List OutFrame) : Prop where
  next : s'.nextStreamId = min (s.nextStreamId + 2) maxStreamId
  written : s'.written = s.written ++ (s.preface ++ (hs ++ fs))
  headers : ∀ f ∈ hs, f.streamId = s.nextStreamId ∧ (f.type = .headers ∨ f.type = .continuation)
  frames : ∀ f ∈ fs, f.type = .data ∧ f.streamId = s.nextStreamId
  conn : s'.connSendWindow = s.connSendWindow - dataLength fs
  initial : s'.remoteInitialWindowSize = s.remoteInitialWindowSize
  maxFrame : s'.remoteMaxFrameSize = s.remoteMaxFrameSize
  unacked : s'.connUnackedBytes = s.connUnackedBytes
  preface : s'.prefaceSent = true
  streams : ∀ t' ∈ s'.streams, t' ∈ s.streams ∨ t'.id = s.nextStreamId
    ∧ t'.sendWindow = s.newWindow - dataLength fs
  affords : ∀ w : Windows, w.conn = s.connSendWindow →
    w.stream s.nextStreamId = s.newWindow →
    w.maxFrame = s.remoteMaxFrameSize → w.Affords fs

theorem HeaderFrames.all {endStream : Bool} {f : OutFrame} {cs : List OutFrame}
    (h : HeaderFrames id endStream f cs) :
    ∀ g ∈ f :: cs, g.streamId = id ∧ (g.type = .headers ∨ g.type = .continuation) :=
  forall_mem_cons.2
    ⟨⟨h.streamId, Or.inl h.type⟩, fun c hc => ⟨(h.rest c hc).2, Or.inr (h.rest c hc).1⟩⟩

theorem mem_put {t : Stream} (ht : t ∈ (s.put stream).streams) :
    t = stream ∨ t ∈ s.streams ∧ t.id ≠ stream.id := by
  obtain ⟨old, hold, heq⟩ := List.mem_map.1 ht
  split_ifs at heq with hid
  · exact Or.inl heq.symm
  · exact Or.inr ⟨heq ▸ hold, heq ▸ hid⟩

theorem Requests.of_queued {client : ℕ} {f : OutFrame} {cs : List OutFrame} {endStream : Bool}
    (hf : HeaderFrames s.nextStreamId endStream f cs) (wb : ℕ)
    (hid : stream'.id = s.nextStreamId)
    (hwn : stream'.sendWindow = s.newWindow) :
    s.Requests (((s.opened client).queueing (s.preface ++ f :: cs) wb).put stream') (f :: cs) [] where
  next := rfl
  written := by simp [put, queueing, opened]
  headers := hf.all
  frames := by simp
  conn := by simp [put, queueing, opened]
  initial := rfl
  maxFrame := rfl
  unacked := rfl
  preface := rfl
  streams t' ht' := by
    rcases mem_put ht' with rfl | ⟨hmem, hne⟩
    · exact Or.inr ⟨hid, by simpa using hwn⟩
    · rcases mem_append.1 hmem with hmem | hmem
      · exact Or.inl hmem
      · rw [mem_singleton.1 hmem, hid] at hne
        exact absurd rfl hne
  affords _ _ _ _ := trivial

/-- A new request queues its header block, and DATA within the limits of its stream. -/
theorem Attached.requests {client : ℕ} {r : RequestAnswers} (h : s.Attached client r s') :
    ∃ hs fs, s.Requests s' hs fs := by
  cases h with
  | poisoned hr wb =>
    obtain ⟨hw, hc, hi, hm, hu, hp⟩ := swapRemove_limits
      { (s.opened client).queueing s.preface wb with encoderPoisoned := true } s.nextStreamId
    refine ⟨[], [], (swapRemove_fields _ _).1, hw.trans ?_, by simp, by simp, hc.trans ?_, hi, hm, hu, hp, fun t' ht' => ?_,
      fun _ _ _ _ => trivial⟩
    · simp [queueing, opened]
    · simp [queueing, opened]
    rcases mem_append.1 (swapRemove_subset _ _ ht') with hmem | hmem
    · exact Or.inl hmem
    · rw [mem_singleton.1 hmem]
      exact Or.inr ⟨rfl, by simp [newStream]⟩
  | ended hbd hf wb =>
    have hw := sentEndStream_sameWindow (s.newStream client)
    exact ⟨_, _, .of_queued hf wb hw.id hw.sendWindow⟩
  | streamed hbd hf wb => exact ⟨_, _, .of_queued hf wb rfl rfl⟩
  | @buffered body hbd hne f cs hf wb stream hst t ht =>
    obtain ⟨fs, hdr⟩ := drainSendBody_drained t stream (.bytes body) (2 ^ 64 - 1)
    obtain ⟨wb', heq⟩ := hdr.sending
    have hid : stream.id = s.nextStreamId := by rw [hst]; rfl
    have hwn : stream.sendWindow = s.newWindow := by
      rw [hst]
      rfl
    simp only at heq
    rw [heq]
    refine ⟨f :: cs, fs, ?_, ?_, hf.all, fun g hg => ?_, ?_, ?_, ?_, ?_, ?_, fun t' ht' => ?_,
      fun w hcn hw hmax => ?_⟩
    · simp [put, sending, ht, queueing, opened]
    · simp [put, sending, ht, queueing, opened]
    · exact ⟨(hdr.frames g hg).1, (hdr.frames g hg).2.trans hid⟩
    · simp [put, sending, ht, queueing, opened]
    · simp [put, sending, ht, queueing, opened]
    · simp [put, sending, ht, queueing, opened]
    · simp [put, sending, ht, queueing, opened]
    · simp [put, sending, ht, queueing, opened]
    · have hid' := hdr.id.trans hid
      rcases mem_put ht' with rfl | ⟨hmem, hne'⟩
      · exact Or.inr ⟨hid', hdr.sendWindow.trans (by rw [hwn])⟩
      · rw [sending, ht] at hmem
        rcases mem_append.1 hmem with hmem | hmem
        · exact Or.inl hmem
        · rw [mem_singleton.1 hmem, hid'] at hne'
          exact absurd rfl hne'
    · refine hdr.affords w ⟨?_, ?_, ?_⟩
      · rw [hcn, ht]
        rfl
      · rw [hid, hw, hwn]
      · rw [hmax, ht]
        rfl

theorem attach_requests (s : Session H) (client : ℕ) (r : RequestAnswers) :
    ∃ hs fs, s.Requests (s.attach client r) hs fs :=
  (attach_attached s client r).requests

/-- Only drains of these bodies. -/
def DrainsOf (bodies : ℕ → ℕ → RequestBody) (is : List Input) : Prop :=
  ∀ i ∈ is, ∃ id k cap, i = .drain id (bodies k id) cap

variable {dec : Decoder H} {bodies : ℕ → ℕ → RequestBody}

/-- The drains lead from one state to the other, neither of them failed. -/
def DrainsTo (dec : Decoder H) (bodies : ℕ → ℕ → RequestBody) (s t : Session H) : Prop :=
  t.fatalError = none ∧ ∃ is, run (Session.step dec) s is = some (t, is) ∧ DrainsOf bodies is

theorem DrainsTo.refl (hok : s.fatalError = none) : DrainsTo dec bodies s s :=
  ⟨hok, [], rfl, by simp [DrainsOf]⟩

theorem DrainsTo.trans (h : DrainsTo dec bodies s s') {s'' : Session H}
    (h' : DrainsTo dec bodies s' s'') : DrainsTo dec bodies s s'' := by
  obtain ⟨-, is, hr, his⟩ := h
  obtain ⟨hok, js, hr', hjs⟩ := h'
  refine ⟨hok, is ++ js, run_append.2 ⟨s', is, js, hr, hr', rfl⟩, fun i hi => ?_⟩
  exact (mem_append.1 hi).elim (his i) (hjs i)

theorem drainTurn_drains (hok : s.fatalError = none) (hf : s.find id = some stream) (k slice : ℕ) :
    DrainsTo dec bodies s (s.drainTurn stream (bodies k id) slice).1 := by
  unfold drainTurn
  split
  · exact .refl hok
  obtain ⟨fs, hdr⟩ := drainSendBody_drained s stream (bodies k id) slice
  obtain ⟨wb, heq⟩ := hdr.sending
  have hok' : (s.drainSendBody stream (bodies k id) slice).1.fatalError = none := heq ▸ hok
  refine ⟨hok', [.drain id (bodies k id) slice], ?_, by simpa [DrainsOf] using ⟨k, rfl⟩⟩
  refine run_cons.2 ⟨_, _, [], ?_, rfl, rfl⟩
  rw [Session.step, if_neg (by simp [hok]), Session.perform, hf]
  rfl

theorem drainPass_drains (slice k : ℕ) : ∀ (ids : List ℕ) {s : Session H} (progressed : Bool),
    s.fatalError = none →
      DrainsTo dec bodies s (drainPass slice (bodies k) ids s progressed).1
  | [], _, _, hok => .refl hok
  | id :: rest, s, progressed, hok => by
    rw [drainPass]
    split
    · exact drainPass_drains slice k rest progressed hok
    · next stream hf =>
      have htr : DrainsTo dec bodies s (s.drainTurn stream (bodies k id) slice).1 :=
        drainTurn_drains hok hf k slice
      exact htr.trans (drainPass_drains slice k rest _ htr.1)

theorem drainSendBodiesLoop_drains (slice : ℕ) : ∀ (fuel : ℕ) {s : Session H},
    s.fatalError = none → DrainsTo dec bodies s (drainSendBodiesLoop slice bodies fuel s)
  | 0, _, hok => .refl hok
  | fuel + 1, s, hok => by
    rw [drainSendBodiesLoop]
    split
    · have hps : DrainsTo dec bodies s
          (drainPass slice (bodies fuel) (s.streams.map Stream.id) s false).1 :=
        drainPass_drains slice fuel (s.streams.map Stream.id) false hok
      simp only
      split
      · exact hps.trans (drainSendBodiesLoop_drains slice fuel hps.1)
      · exact hps
    · exact .refl hok

theorem drainSendBodies_drains (hok : s.fatalError = none) :
    DrainsTo dec bodies s (s.drainSendBodies bodies) :=
  drainSendBodiesLoop_drains _ _ hok

/-- An input, or the passes that follow when the windows or the buffer gained room. -/
inductive Activity where
  | input (i : Input)
  | drainAll (bodies : ℕ → ℕ → RequestBody)

/-- An input, or a round of `drainSendBodies`. -/
def act (dec : Decoder H) (s : Session H) : Activity → Option (Session H × Activity)
  | .input i => (s.step dec i).map fun p => (p.1, .input i)
  | .drainAll bodies =>
    if s.fatalError.isSome then none else some (s.drainSendBodies bodies, .drainAll bodies)

/-- The activity has the input as a part. -/
def Activity.Has : Activity → Input → Prop
  | .input i, j => j = i
  | .drainAll bodies, j => ∃ id k cap, j = .drain id (bodies k id) cap

/-- A round of draining is a run of its own. -/
theorem act_run {a e : Activity} (h : s.act dec a = some (s', e)) :
    ∃ is, run (Session.step dec) s is = some (s', is) ∧ ∀ i ∈ is, a.Has i := by
  cases a with
  | input i =>
    obtain ⟨⟨t, e'⟩, hs, heq⟩ := map_eq_some_iff.1 h
    obtain ⟨rfl, -⟩ := Prod.mk.inj heq
    have he := step_input hs
    refine ⟨[i], run_cons.2 ⟨_, _, [], hs, rfl, ?_⟩, by simp [Activity.Has]⟩
    rw [he]
  | drainAll bodies =>
    unfold act at h
    split_ifs at h with hft
    obtain ⟨rfl, -⟩ := Prod.mk.inj (some.inj h)
    have hdr : DrainsTo dec bodies s (s.drainSendBodies bodies) :=
      drainSendBodies_drains (by simpa using hft)
    obtain ⟨-, is, hr, his⟩ := hdr
    exact ⟨is, hr, his⟩

/-- A run of activities is one of the session's steps, each of them one that an activity has. -/
theorem acts_run : ∀ {as : List Activity} {s s' : Session H} {es : List Activity},
    run (Session.act dec) s as = some (s', es) →
      ∃ is, run (Session.step dec) s is = some (s', is) ∧ ∀ i ∈ is, ∃ a ∈ as, a.Has i
  | [], s, s', es, h => by
    obtain ⟨rfl, -⟩ := Prod.mk.inj (some.inj h)
    exact ⟨[], rfl, by simp⟩
  | a :: as, s, s', es, h => by
    obtain ⟨t, e, es', hs, hr, -⟩ := run_cons.1 h
    obtain ⟨is, his, hhas⟩ := act_run hs
    obtain ⟨js, hjs, hhas'⟩ := acts_run hr
    refine ⟨is ++ js, run_append.2 ⟨t, is, js, his, hjs, rfl⟩, fun i hi => ?_⟩
    rcases mem_append.1 hi with hi | hi
    · exact ⟨a, mem_cons_self, hhas i hi⟩
    · obtain ⟨b, hb, hib⟩ := hhas' i hi
      exact ⟨b, mem_cons_of_mem _ hb, hib⟩

end Session

end Cruller.H2
