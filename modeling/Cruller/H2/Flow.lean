import Cruller.H2.HeaderBlocks

/-!
# What leaves flow control alone

Most of what a session does neither spends the credit that the server granted nor grants any for
the connection. `Leaves` says so of two states: the limits are the same, the frames queued in
between satisfy `P`, and every stream that is still tracked was tracked before, as `Q` says.
Everything but the header blocks leaves the request bodies alone too (`Calm`, `Rests`).
-/

namespace Cruller.H2

open List Option

/-- The frame takes nothing from the windows, grants nothing for the connection and starts no
request. -/
structure OutFrame.Quiet (f : OutFrame) : Prop where
  data : f.type = .data → f.payload = []
  grant : f.type = .windowUpdate → f.streamId ≠ 0
  ne_headers : f.type ≠ .headers

/-- Not even an empty DATA. -/
structure OutFrame.Calm (f : OutFrame) : Prop extends f.Quiet where
  ne_data : f.type ≠ .data

namespace Stream

/-- The request has been sent to its end. -/
def endSent (stream : Stream) : Bool :=
  stream.localClosed && !stream.rstDone

/-- The same stream with the same window. -/
structure SameWindow (t t' : Stream) : Prop where
  id : t'.id = t.id
  sendWindow : t'.sendWindow = t.sendWindow

/-- Nothing of the body went out. -/
structure Rests (t t' : Stream) : Prop where
  id : t'.id = t.id
  pendingBody : t'.pendingBody = t.pendingBody
  localClosed : t.localClosed = true → t'.localClosed = true
  endSent : t'.endSent = true → t.endSent = true

/-- The window is as it was, and nothing of the body went out. -/
structure Idles (t t' : Stream) : Prop extends t.SameWindow t', t.Rests t'

@[refl]
theorem Rests.refl (t : Stream) : t.Rests t := ⟨rfl, rfl, fun h => h, fun h => h⟩

@[refl]
theorem SameWindow.refl (t : Stream) : t.SameWindow t := ⟨rfl, rfl⟩

@[refl]
theorem Idles.refl (t : Stream) : t.Idles t := ⟨.refl t, rfl, fun h => h, fun h => h⟩

variable {t t' t'' : Stream}

theorem Rests.trans (h : t.Rests t') (h' : t'.Rests t'') : t.Rests t'' :=
  ⟨h'.id.trans h.id, h'.pendingBody.trans h.pendingBody, h'.localClosed ∘ h.localClosed,
    h.endSent ∘ h'.endSent⟩

theorem SameWindow.trans (h : t.SameWindow t') (h' : t'.SameWindow t'') : t.SameWindow t'' :=
  ⟨h'.id.trans h.id, h'.sendWindow.trans h.sendWindow⟩

theorem Idles.trans (h : t.Idles t') (h' : t'.Idles t'') : t.Idles t'' :=
  ⟨h.toSameWindow.trans h'.toSameWindow, (h.toRests.trans h'.toRests).pendingBody,
    (h.toRests.trans h'.toRests).localClosed, (h.toRests.trans h'.toRests).endSent⟩

theorem Idles.of_eq (id : t'.id = t.id) (sendWindow : t'.sendWindow = t.sendWindow)
    (pendingBody : t'.pendingBody = t.pendingBody) (state : t'.state = t.state)
    (rstDone : t'.rstDone = t.rstDone) : t.Idles t' := by
  have hcl : t'.localClosed = t.localClosed := by simp only [Stream.localClosed, state]
  have hen : t'.endSent = t.endSent := by simp only [Stream.endSent, hcl, rstDone]
  exact ⟨⟨id, sendWindow⟩, pendingBody, fun h => hcl.trans h, fun h => hen.symm.trans h⟩

theorem recvEndStream_idles (t : Stream) : t.Idles t.recvEndStream := by
  unfold recvEndStream
  split <;> rename_i hst
  · exact ⟨⟨rfl, rfl⟩, rfl, by simp [localClosed, hst], by simp [endSent, localClosed]⟩
  · exact ⟨⟨rfl, rfl⟩, rfl, by simp [localClosed], by simp [endSent, localClosed, hst]⟩
  · exact .refl t

end Stream

namespace Session

variable {H : Type} {P : OutFrame → Prop} {Q : Stream → Stream → Prop}
  {s s' s'' : Session H} {stream stream' : Stream} {id : ℕ}

/-- What is written are frames of a kind, and the streams change in one way; the windows stay. -/
structure Leaves (P : OutFrame → Prop) (Q : Stream → Stream → Prop) (s s' : Session H) :
    Prop where
  conn : s'.connSendWindow = s.connSendWindow
  initial : s'.remoteInitialWindowSize = s.remoteInitialWindowSize
  maxFrame : s'.remoteMaxFrameSize = s.remoteMaxFrameSize
  unacked : s'.connUnackedBytes = s.connUnackedBytes
  preface : s'.prefaceSent = s.prefaceSent
  next : s'.nextStreamId = s.nextStreamId
  written : ∃ fs, s'.written = s.written ++ fs ∧ ∀ f ∈ fs, P f
  streams : ∀ t' ∈ s'.streams, ∃ t ∈ s.streams, Q t t'

theorem Leaves.trans (hQ : ∀ {t t' t''}, Q t t' → Q t' t'' → Q t t'') (h : Leaves P Q s s')
    (h' : Leaves P Q s' s'') : Leaves P Q s s'' := by
  refine ⟨h'.conn.trans h.conn, h'.initial.trans h.initial, h'.maxFrame.trans h.maxFrame,
    h'.unacked.trans h.unacked, h'.preface.trans h.preface, h'.next.trans h.next, ?_,
    fun t'' ht'' => ?_⟩
  · obtain ⟨fs, hfs, hP⟩ := h.written
    obtain ⟨gs, hgs, hP'⟩ := h'.written
    refine ⟨fs ++ gs, by rw [hgs, hfs, append_assoc], fun f hf => ?_⟩
    exact (mem_append.1 hf).elim (hP f) (hP' f)
  · obtain ⟨t', ht', hq'⟩ := h'.streams t'' ht''
    obtain ⟨t, ht, hq⟩ := h.streams t' ht'
    exact ⟨t, ht, hQ hq hq'⟩

theorem Leaves.mono {P' : OutFrame → Prop} {Q' : Stream → Stream → Prop} (h : Leaves P Q s s')
    (hP : ∀ f, P f → P' f) (hQ : ∀ {t t'}, Q t t' → Q' t t') : Leaves P' Q' s s' := by
  refine ⟨h.conn, h.initial, h.maxFrame, h.unacked, h.preface, h.next, ?_, fun t' ht' => ?_⟩
  · obtain ⟨fs, hfs, hall⟩ := h.written
    exact ⟨fs, hfs, fun f hf => hP f (hall f hf)⟩
  · obtain ⟨t, ht, hq⟩ := h.streams t' ht'
    exact ⟨t, ht, hQ hq⟩

/-- The stream's object has changed as `Q` allows. -/
theorem Leaves.put (h : Leaves P Q s s') (hmem : stream ∈ s.streams) (hq : Q stream stream') :
    Leaves P Q s (s'.put stream') := by
  refine ⟨h.conn, h.initial, h.maxFrame, h.unacked, h.preface, h.next, h.written,
    fun t' ht' => ?_⟩
  obtain ⟨old, hold, heq⟩ := List.mem_map.1 ht'
  split_ifs at heq
  · exact heq ▸ ⟨stream, hmem, hq⟩
  · exact heq ▸ h.streams old hold

theorem swapRemove_subset (s : Session H) (id : ℕ) : (s.swapRemove id).streams ⊆ s.streams := by
  unfold swapRemove
  split
  · next index last hin hls =>
    intro t ht
    rcases mem_or_eq_of_mem_set (dropLast_subset _ ht) with ht | rfl
    · exact ht
    · exact mem_of_getLast? hls
  · exact Subset.refl _

theorem Leaves.of_eq (hQ : ∀ t, Q t t) (conn : s'.connSendWindow = s.connSendWindow)
    (initial : s'.remoteInitialWindowSize = s.remoteInitialWindowSize)
    (maxFrame : s'.remoteMaxFrameSize = s.remoteMaxFrameSize)
    (unacked : s'.connUnackedBytes = s.connUnackedBytes) (preface : s'.prefaceSent = s.prefaceSent)
    (next : s'.nextStreamId = s.nextStreamId) (written : s'.written = s.written)
    (streams : s'.streams ⊆ s.streams) : Leaves P Q s s' :=
  ⟨conn, initial, maxFrame, unacked, preface, next, ⟨[], by simpa using written, by simp⟩,
    fun t ht => ⟨t, streams ht, hQ t⟩⟩

theorem Leaves.writeFrame (hQ : ∀ t, Q t t) {f : OutFrame} (hf : P f) :
    Leaves P Q s (s.writeFrame f.type f.flags f.streamId f.payload) :=
  ⟨rfl, rfl, rfl, rfl, rfl, rfl, ⟨[f], rfl, by simpa using hf⟩, fun t ht => ⟨t, ht, hQ t⟩⟩

/-- No window, no grant and no body is different. -/
abbrev Calm (s s' : Session H) : Prop := Leaves OutFrame.Calm Stream.Idles s s'

theorem Calm.trans (h : s.Calm s') (h' : s'.Calm s'') : s.Calm s'' :=
  Leaves.trans Stream.Idles.trans h h'

@[refl]
theorem Calm.refl (s : Session H) : s.Calm s :=
  .of_eq .refl rfl rfl rfl rfl rfl rfl rfl (Subset.refl _)

theorem fail_calm (s : Session H) (e : Error) : s.Calm (s.fail e) :=
  .of_eq .refl rfl rfl rfl rfl rfl rfl rfl (Subset.refl _)

theorem flush_calm (s : Session H) (wrote : ℕ) : s.Calm (s.flush wrote) :=
  .of_eq .refl rfl rfl rfl rfl rfl rfl rfl (Subset.refl _)

theorem put_calm (hmem : stream ∈ s.streams) (hi : stream.Idles stream') :
    s.Calm (s.put stream') :=
  (Calm.refl s).put hmem hi

theorem rst_calm (s : Session H) (stream : Stream) (code : ErrorCode) :
    s.Calm (s.rst stream code).1 ∧ stream.Idles (s.rst stream code).2 := by
  unfold rst
  split_ifs
  · exact ⟨.refl s, .refl stream⟩
  · exact ⟨.writeFrame .refl (f := ⟨.rstStream, 0, stream.id, beBytes32 code.toNat⟩)
      ⟨⟨by simp, by simp, by simp⟩, by simp⟩, ⟨rfl, rfl⟩, rfl, by simp [Stream.localClosed],
      by simp [Stream.endSent]⟩

theorem failStream_calm (hmem : stream ∈ s.streams) (code : ErrorCode) (e : Error) :
    s.Calm (s.failStream stream code e) := by
  obtain ⟨hs, hi⟩ := rst_calm s stream code
  exact hs.put hmem (hi.trans (.of_eq rfl rfl rfl rfl rfl))

theorem swapRemove_calm (s : Session H) (id : ℕ) : s.Calm (s.swapRemove id) := by
  refine .of_eq .refl ?_ ?_ ?_ ?_ ?_ ?_ ?_ (swapRemove_subset s id)
    <;> · unfold swapRemove; split <;> rfl

theorem removeStream_calm (s : Session H) (stream : Stream) : s.Calm (s.removeStream stream) := by
  unfold removeStream
  extract_lets t
  refine Calm.trans ?_ (swapRemove_calm t stream.id)
  unfold t
  split_ifs
  · exact .of_eq .refl rfl rfl rfl rfl rfl rfl rfl (Subset.refl _)
  · exact .refl s

theorem detachWithFailure_calm (hmem : stream ∈ s.streams) (wrote : ℕ) :
    s.Calm (s.detachWithFailure stream wrote) := by
  obtain ⟨hs, hi⟩ := rst_calm s stream .cancel
  refine Calm.trans ?_ (removeStream_calm _ _)
  exact (hs.trans (flush_calm _ wrote)).put hmem
    (hi.trans (.of_eq rfl rfl rfl rfl rfl))

theorem detach_calm (hmem : stream ∈ s.streams) (hi : stream.Idles stream') :
    s.Calm (s.detach stream').1 :=
  put_calm hmem (hi.trans (.of_eq rfl rfl rfl rfl rfl))

theorem resetAndDetach_calm (hmem : stream ∈ s.streams) (hi : stream.Idles stream') :
    s.Calm (s.resetAndDetach stream').1 := by
  obtain ⟨hs, hi'⟩ := rst_calm s stream' .cancel
  exact hs.put hmem ((hi.trans hi').trans (.of_eq rfl rfl rfl rfl rfl))

theorem deliverBody_calm (hmem : stream ∈ s.streams) (hi : stream.Idles stream')
    (a : DeliverAnswers) : s.Calm (s.deliverBody stream' a).1 := by
  have hrc : stream.Idles { stream' with bodyBuffer := [] } :=
    hi.trans (.of_eq rfl rfl rfl rfl rfl)
  unfold deliverBody
  split
  · exact put_calm hmem hi
  split
  · split
    · exact resetAndDetach_calm hmem hrc
    split
    · exact detach_calm hmem hrc
    split
    · exact detach_calm hmem hrc
    · exact put_calm hmem hrc
  split
  · exact detach_calm hmem hi
  · exact put_calm hmem hi

theorem deliverStream_calm (hmem : stream ∈ s.streams) (a : DeliverAnswers) :
    s.Calm (s.deliverStream stream a).1 := by
  have hdl : stream.Idles { stream with headersReady := false } :=
    .of_eq rfl rfl rfl rfl rfl
  unfold deliverStream
  split
  · exact .refl s
  split
  · exact resetAndDetach_calm hmem (.refl stream)
  split
  · exact detach_calm hmem (.refl stream)
  split
  · split
    · exact resetAndDetach_calm hmem hdl
    split
    · exact resetAndDetach_calm hmem hdl
    split
    · exact detach_calm hmem hdl
    · exact deliverBody_calm hmem hdl a
  · exact deliverBody_calm hmem (.refl stream) a

theorem mem_of_find (hf : s.find id = some stream) : stream ∈ s.streams :=
  mem_of_find?_eq_some hf

theorem deliver_calm (s : Session H) (id : ℕ) (a : DeliverAnswers) : s.Calm (s.deliver id a) := by
  unfold deliver
  split
  · exact .refl s
  next stream hf =>
  have hdl := deliverStream_calm (mem_of_find hf) a
  simp only
  split
  · split
    · exact hdl
    next found hfn =>
    refine Calm.trans (hdl.trans ?_) (removeStream_calm _ _)
    obtain ⟨hs, hi⟩ := rst_calm (s.deliverStream stream a).1 found .cancel
    split_ifs
    · exact hs.put (mem_of_find hfn) hi
    · exact put_calm (mem_of_find hfn) (.refl found)
  · exact hdl

theorem replenishStream_calm (h₀ : s.Calm s') (hmem : stream ∈ s.streams) (hpos : 0 < stream.id)
    (h : s'.replenishStream stream = some s'') : s.Calm s'' := by
  unfold replenishStream at h
  split_ifs at h
  · simp only [bind_eq_bind, bind_eq_some_iff] at h
    obtain ⟨increment, -, h⟩ := h
    have hfr : s'.Calm (s'.writeWindowUpdate stream.id increment) :=
      .writeFrame .refl (f := ⟨.windowUpdate, 0, stream.id, beBytes32 increment⟩)
        ⟨⟨by simp, fun _ => hpos.ne', by simp⟩, by simp⟩
    exact some.inj h ▸ (h₀.trans hfr).put hmem (.of_eq rfl rfl rfl rfl rfl)
  · exact some.inj h ▸ h₀

theorem replenishStreams_calm (hpos : ∀ t ∈ s.streams, 0 < t.id) : ∀ {l : List Stream}
    {s' s'' : Session H}, s.Calm s' → l ⊆ s.streams → l.foldlM replenishStream s' = some s'' →
      s.Calm s''
  | [], s', s'', h₀, _, h => some.inj h ▸ h₀
  | stream :: rest, s', s'', h₀, hl, h => by
    rw [foldlM_cons, bind_eq_bind, bind_eq_some_iff] at h
    obtain ⟨t, ht, h⟩ := h
    have hmem := hl mem_cons_self
    exact replenishStreams_calm hpos (replenishStream_calm h₀ hmem (hpos stream hmem) ht)
      (fun u hu => hl (mem_cons_of_mem _ hu)) h

/-- A grant for the connection is for all that was taken since the last. -/
theorem replenishWindow_spec (hpos : ∀ t ∈ s.streams, 0 < t.id) (h : s.replenishWindow = some s') :
    s.Calm s' ∨ s.connUnackedBytes < 2 ^ 31
      ∧ Calm { s.writeWindowUpdate 0 s.connUnackedBytes with connUnackedBytes := 0 } s' := by
  unfold replenishWindow at h
  rw [bind_eq_bind, bind_eq_some_iff] at h
  obtain ⟨t, ht, h⟩ := h
  split_ifs at ht
  · simp only [bind_eq_bind, bind_eq_some_iff] at ht
    obtain ⟨increment, hcs, ht⟩ := ht
    unfold intCastU31 at hcs
    split_ifs at hcs with hlt
    obtain rfl := some.inj hcs
    obtain rfl := some.inj ht
    exact Or.inr ⟨hlt, replenishStreams_calm (s := { s.writeWindowUpdate 0 s.connUnackedBytes with
      connUnackedBytes := 0 }) hpos (.refl _) (Subset.refl _) h⟩
  · obtain rfl := some.inj ht
    exact Or.inl (replenishStreams_calm hpos (.refl s) (Subset.refl _) h)

theorem onPing_calm (s : Session H) (header : FrameHeader) (payload : List UInt8) :
    s.Calm (s.onPing header payload) := by
  unfold onPing
  split_ifs
  · exact fail_calm s _
  · exact fail_calm s _
  · exact .refl s
  · exact fail_calm s _
  · exact .writeFrame .refl (f := ⟨.ping, flagAck, 0, payload.take 8⟩)
      ⟨⟨by simp, by simp, by simp⟩, by simp⟩

theorem onPriority_calm (s : Session H) (header : FrameHeader) : s.Calm (s.onPriority header) := by
  unfold onPriority
  split_ifs
  · exact fail_calm s _
  · exact fail_calm s _
  · exact .refl s

theorem onRstStream_calm (s : Session H) (header : FrameHeader) (payload : List UInt8) :
    s.Calm (s.onRstStream header payload) := by
  unfold onRstStream
  split_ifs
  · exact fail_calm s _
  · exact fail_calm s _
  split
  · exact .refl s
  next stream hf =>
  exact put_calm (mem_of_find hf) ⟨⟨rfl, rfl⟩, rfl, by simp [Stream.localClosed],
    by simp [Stream.endSent]⟩

theorem onGoaway_calm (s : Session H) (header : FrameHeader) (payload : List UInt8) :
    s.Calm (s.onGoaway header payload) := by
  unfold onGoaway
  split_ifs
  · exact fail_calm s _
  · exact fail_calm s _
  refine ⟨rfl, rfl, rfl, rfl, rfl, rfl, ⟨[], by simp, by simp⟩, fun t' ht' => ?_⟩
  obtain ⟨t, ht, rfl⟩ := List.mem_map.1 ht'
  refine ⟨t, ht, ?_⟩
  split_ifs <;> exact .of_eq rfl rfl rfl rfl rfl

theorem onData_calm (s : Session H) (header : FrameHeader) (payload : List UInt8) :
    Calm { s with connUnackedBytes := saturatingAdd s.connUnackedBytes header.length }
      (s.onData header payload) := by
  unfold onData
  extract_lets t
  change t.Calm _
  split
  · split_ifs
    · exact fail_calm t _
    · exact .refl t
  next stream hf =>
  have hmem := mem_of_find hf
  have hpr : t.Calm { t with streamProgressed := true } :=
    .of_eq .refl rfl rfl rfl rfl rfl rfl rfl (Subset.refl _)
  simp only
  split
  · exact hpr.trans (failStream_calm (s := { t with streamProgressed := true }) hmem _ _)
  split
  · exact hpr.put hmem (.of_eq rfl rfl rfl rfl rfl)
  have hcn : stream.Idles { stream with
      unackedBytes := saturatingAdd stream.unackedBytes header.length } :=
    .of_eq rfl rfl rfl rfl rfl
  split
  · exact Calm.trans (hpr.put hmem hcn) (fail_calm _ _)
  · split_ifs
    · exact hpr.put hmem ((hcn.trans (Stream.recvEndStream_idles _)).trans
        (.of_eq rfl rfl rfl rfl rfl))
    · exact hpr.put hmem (hcn.trans (.of_eq rfl rfl rfl rfl rfl))

/-- What DATA there is belongs to a tracked stream. -/
structure QuietFrame (s : Session H) (f : OutFrame) : Prop extends f.Quiet where
  tracked : f.type = .data → ∃ t ∈ s.streams, t.id = f.streamId

/-- No window and no grant is different; of a body that waits for leave to go out, the end may be
sent instead. -/
abbrev Quietly (s s' : Session H) : Prop := Leaves (QuietFrame s) Stream.SameWindow s s'

theorem Quietly.trans (h : s.Quietly s') (h' : s'.Quietly s'') : s.Quietly s'' := by
  refine Leaves.trans Stream.SameWindow.trans h (h'.mono (fun f hf => ⟨hf.toQuiet, fun hd => ?_⟩) id)
  obtain ⟨t', ht', hid'⟩ := hf.tracked hd
  obtain ⟨t, ht, hw⟩ := h.streams t' ht'
  exact ⟨t, ht, hw.id.symm.trans hid'⟩

theorem Calm.quietly (h : s.Calm s') : s.Quietly s' :=
  Leaves.mono h (fun _ hf => ⟨hf.toQuiet, fun hd => absurd hd hf.ne_data⟩)
    Stream.Idles.toSameWindow

theorem sentEndStream_sameWindow (stream : Stream) : stream.SameWindow stream.sentEndStream := by
  unfold Stream.sentEndStream
  split <;> exact ⟨rfl, rfl⟩

theorem applyBlock_quietly (hmem : stream ∈ s.streams) (hw : stream.SameWindow stream')
    (acc : BlockFields) : s.Quietly (s.applyBlock stream' acc) := by
  have hput : ∀ {stream'' : Stream}, stream'.SameWindow stream'' → s.Quietly (s.put stream'') :=
    fun hw' => (Calm.refl s).quietly.put hmem (hw.trans hw')
  unfold applyBlock
  extract_lets kept told ready
  split
  · obtain ⟨hs, hi⟩ := rst_calm s stream' .protocolError
    exact hs.quietly.put hmem (hw.trans ⟨hi.id, hi.sendWindow⟩)
  split
  · split <;> exact hput ⟨rfl, rfl⟩
  split
  · exact hput ⟨rfl, rfl⟩
  have htl : stream'.SameWindow told := by
    unfold told
    split <;> exact ⟨rfl, rfl⟩
  split
  · split
    · exact hput (htl.trans ⟨rfl, rfl⟩)
    · exact hput htl
  by_cases hwt : ready.awaitingContinue
  · simp only [if_pos hwt]
    have hfr : s.Quietly (s.writeFrame .data flagEndStream ready.id []) :=
      .writeFrame .refl (f := ⟨.data, flagEndStream, ready.id, []⟩)
        ⟨⟨fun _ => rfl, by simp, by simp⟩, fun _ => ⟨stream, hmem, hw.id.symm⟩⟩
    have hen := sentEndStream_sameWindow { ready with awaitingContinue := false }
    exact hfr.put hmem (hw.trans ⟨hen.id, hen.sendWindow⟩)
  · simp only [if_neg hwt]
    exact hput ⟨rfl, rfl⟩

variable {dec : Decoder H}

theorem decodeHeaderBlock_quietly (hmem : stream ∈ s.streams) (hw : stream.SameWindow stream') :
    s.Quietly (s.decodeHeaderBlock dec stream') := by
  unfold decodeHeaderBlock
  generalize decodeLoop dec Error.compressionError (BlockFields.field stream'.statusCode) s.hpack
    { decodedBytes := stream'.decodedBytes } stream'.headerBlock 0 = out
  obtain ⟨hpack, calls, acc, e⟩ := out
  have hfed : s.Quietly { s with hpack, calls := s.calls ++ calls } :=
    .of_eq .refl rfl rfl rfl rfl rfl rfl rfl (Subset.refl _)
  have hrd : stream.SameWindow { stream' with headerBlock := [] } := hw.trans ⟨rfl, rfl⟩
  rcases e with _ | e
  · simp only
    exact hfed.trans (applyBlock_quietly (s := { s with hpack, calls := s.calls ++ calls }) hmem
      hrd acc)
  · simp only
    refine Quietly.trans ?_ (fail_calm _ e).quietly
    exact hfed.put hmem (hrd.trans ⟨rfl, rfl⟩)

theorem decodeDiscardOrphan_quietly (s : Session H) : s.Quietly (s.decodeDiscardOrphan dec) := by
  unfold decodeDiscardOrphan
  generalize decodeLoop dec Error.compressionError (fun (_ : Unit) _ => ((), none)) s.hpack ()
    s.orphanHeaderBlock 0 = out
  obtain ⟨hpack, calls, _, _ | e⟩ := out
    <;> exact .of_eq .refl rfl rfl rfl rfl rfl rfl rfl (Subset.refl _)

theorem onOrphanHeaders_quietly (s : Session H) (header : FrameHeader) (payload : List UInt8) :
    s.Quietly (s.onOrphanHeaders dec header payload) := by
  unfold onOrphanHeaders
  split
  · exact (fail_calm s _).quietly
  split
  · exact (fail_calm s _).quietly
  next fragment _ =>
  split
  · exact (fail_calm s _).quietly
  have hkp : s.Quietly { s with orphanHeaderBlock := fragment } :=
    .of_eq .refl rfl rfl rfl rfl rfl rfl rfl (Subset.refl _)
  simp only
  split
  · exact hkp.trans (decodeDiscardOrphan_quietly _)
  · exact .of_eq .refl rfl rfl rfl rfl rfl rfl rfl (Subset.refl _)

theorem ended_sameWindow (hw : stream.SameWindow stream') (c : Bool) :
    stream.SameWindow (if c then stream'.recvEndStream else stream') := by
  split
  · exact hw.trans (Stream.recvEndStream_idles stream').toSameWindow
  · exact hw

theorem onStreamHeaders_quietly (hmem : stream ∈ s.streams) (header : FrameHeader)
    (payload : List UInt8) : s.Quietly (s.onStreamHeaders dec stream header payload) := by
  have hpr : s.Quietly { s with streamProgressed := true } :=
    .of_eq .refl rfl rfl rfl rfl rfl rfl rfl (Subset.refl _)
  unfold onStreamHeaders
  simp only
  split
  · exact hpr.trans (fail_calm _ _).quietly
  next fragment _ =>
  have hbl : stream.SameWindow { stream with
      headerBlock := fragment, headersEndStream := hasFlag header.flags flagEndStream } := ⟨rfl, rfl⟩
  split
  · exact hpr.trans (fail_calm _ _).quietly
  split
  · exact hpr.trans (decodeHeaderBlock_quietly (s := { s with streamProgressed := true }) hmem
      (ended_sameWindow hbl _))
  · have hput := hpr.put hmem hbl
    exact ⟨rfl, rfl, rfl, rfl, rfl, rfl, hput.written, hput.streams⟩

theorem onHeaders_quietly (s : Session H) (header : FrameHeader) (payload : List UInt8) :
    s.Quietly (s.onHeaders dec header payload) := by
  unfold onHeaders
  split
  · exact onOrphanHeaders_quietly s header payload
  next stream hf => exact onStreamHeaders_quietly (mem_of_find hf) header payload

theorem onContinuation_quietly (s : Session H) (header : FrameHeader) (payload : List UInt8) :
    s.Quietly (s.onContinuation dec header payload) := by
  have hep : s.Quietly { s with expectingContinuation := 0 } :=
    .of_eq .refl rfl rfl rfl rfl rfl rfl rfl (Subset.refl _)
  unfold onContinuation
  split
  · exact (fail_calm s _).quietly
  split
  · next stream hf =>
    have hmem := mem_of_find hf
    have hbl : stream.SameWindow { stream with headerBlock := stream.headerBlock ++ payload } :=
      ⟨rfl, rfl⟩
    split
    · exact (fail_calm s _).quietly
    simp only
    split
    · exact hep.trans (decodeHeaderBlock_quietly (s := { s with expectingContinuation := 0 })
        hmem (ended_sameWindow hbl _))
    · exact (Calm.refl s).quietly.put hmem hbl
  · split
    · exact (fail_calm s _).quietly
    simp only
    split
    · refine Quietly.trans ?_ (decodeDiscardOrphan_quietly _)
      exact .of_eq .refl rfl rfl rfl rfl rfl rfl rfl (Subset.refl _)
    · exact .of_eq .refl rfl rfl rfl rfl rfl rfl rfl (Subset.refl _)

/-- The server's limits may be different, and nothing that went out or is left to go out. -/
structure Adjusts (s s' : Session H) : Prop where
  unacked : s'.connUnackedBytes = s.connUnackedBytes
  preface : s'.prefaceSent = s.prefaceSent
  next : s'.nextStreamId = s.nextStreamId
  written : ∃ fs, s'.written = s.written ++ fs ∧ ∀ f ∈ fs, f.Calm
  streams : ∀ t' ∈ s'.streams, ∃ t ∈ s.streams, t.Rests t'

theorem Calm.adjusts (h : s.Calm s') : s.Adjusts s' where
  unacked := h.unacked
  preface := h.preface
  next := h.next
  written := h.written
  streams t' ht' := (h.streams t' ht').imp fun _ ht => ⟨ht.1, ht.2.toRests⟩

theorem Adjusts.trans (h : s.Adjusts s') (h' : s'.Adjusts s'') : s.Adjusts s'' := by
  refine ⟨h'.unacked.trans h.unacked, h'.preface.trans h.preface, h'.next.trans h.next, ?_,
    fun t'' ht'' => ?_⟩
  · obtain ⟨fs, hfs, hP⟩ := h.written
    obtain ⟨gs, hgs, hP'⟩ := h'.written
    refine ⟨fs ++ gs, by rw [hgs, hfs, append_assoc], fun f hf => ?_⟩
    exact (mem_append.1 hf).elim (hP f) (hP' f)
  · obtain ⟨t', ht', hr'⟩ := h'.streams t'' ht''
    obtain ⟨t, ht, hr⟩ := h.streams t' ht'
    exact ⟨t, ht, hr.trans hr'⟩

theorem Adjusts.of_streams (unacked : s'.connUnackedBytes = s.connUnackedBytes)
    (preface : s'.prefaceSent = s.prefaceSent) (next : s'.nextStreamId = s.nextStreamId)
    (written : s'.written = s.written)
    (streams : ∀ t' ∈ s'.streams, ∃ t ∈ s.streams, t.Rests t') : s.Adjusts s' :=
  ⟨unacked, preface, next, ⟨[], by simpa using written, by simp⟩, streams⟩

theorem adjustWindows_rests {delta : ℤ} : ∀ {l l' : List Stream} {ok : Bool},
    adjustWindows delta l = some (l', ok) → ∀ t' ∈ l', ∃ t ∈ l, t.Rests t'
  | [], l', ok, h => by
    obtain ⟨rfl, -⟩ := Prod.mk.inj (some.inj h)
    simp
  | stream :: rest, l', ok, h => by
    rw [adjustWindows] at h
    simp only at h
    split_ifs at h
    · obtain ⟨rfl, -⟩ := Prod.mk.inj (some.inj h)
      exact fun t ht => ⟨t, ht, .refl t⟩
    · simp only [bind_eq_bind, bind_eq_some_iff, Option.pure_def, some.injEq,
        Prod.mk.injEq, Prod.exists] at h
      obtain ⟨w, -, rest', ok', hrs, rfl, -⟩ := h
      intro t' ht'
      rcases mem_cons.1 ht' with rfl | ht'
      · exact ⟨stream, mem_cons_self, rfl, rfl, fun h => h, fun h => h⟩
      · obtain ⟨t, ht, hr⟩ := adjustWindows_rests hrs t' ht'
        exact ⟨t, mem_cons_of_mem _ ht, hr⟩

theorem applySetting_adjusts {unit : ℕ × ℕ} {ok : Bool} (h : s.applySetting unit = some (s', ok)) :
    s.Adjusts s' := by
  have hsm : ∀ {t : Session H}, t.connUnackedBytes = s.connUnackedBytes →
      t.prefaceSent = s.prefaceSent → t.nextStreamId = s.nextStreamId → t.written = s.written →
      t.streams = s.streams → s.Adjusts t := fun hu hp hn hw hst =>
    .of_streams hu hp hn hw fun t ht => ⟨t, hst ▸ ht, .refl t⟩
  unfold applySetting at h
  split at h
  · split_ifs at h <;> obtain ⟨rfl, -⟩ := Prod.mk.inj (some.inj h)
      <;> exact hsm rfl rfl rfl rfl rfl
  · obtain ⟨rfl, -⟩ := Prod.mk.inj (some.inj h)
    exact hsm rfl rfl rfl rfl rfl
  · obtain ⟨rfl, -⟩ := Prod.mk.inj (some.inj h)
    exact hsm rfl rfl rfl rfl rfl
  · split_ifs at h
    · obtain ⟨rfl, -⟩ := Prod.mk.inj (some.inj h)
      exact hsm rfl rfl rfl rfl rfl
    · simp only [bind_eq_bind, bind_eq_some_iff, Option.pure_def, some.injEq,
        Prod.exists] at h
      obtain ⟨streams, moved, had, h⟩ := h
      split_ifs at h <;> obtain ⟨rfl, -⟩ := Prod.mk.inj h
        <;> exact .of_streams rfl rfl rfl rfl (adjustWindows_rests had)
  · obtain ⟨rfl, -⟩ := Prod.mk.inj (some.inj h)
    exact hsm rfl rfl rfl rfl rfl

theorem applySettings_adjusts : ∀ {units : List (ℕ × ℕ)} {s s' : Session H} {ok : Bool},
    s.applySettings units = some (s', ok) → s.Adjusts s'
  | [], s, s', ok, h => by
    obtain ⟨rfl, -⟩ := Prod.mk.inj (some.inj h)
    exact (Calm.refl s).adjusts
  | unit :: rest, s, s', ok, h => by
    simp only [applySettings, bind_eq_bind, bind_eq_some_iff, Prod.exists] at h
    obtain ⟨t, ok', hone, h⟩ := h
    have hst := applySetting_adjusts hone
    split_ifs at h
    · exact hst.trans (applySettings_adjusts h)
    · obtain ⟨rfl, -⟩ := Prod.mk.inj (some.inj h)
      exact hst

theorem onSettings_adjusts {header : FrameHeader} {payload : List UInt8}
    (h : s.onSettings header payload = some s') : s.Adjusts s' := by
  unfold onSettings at h
  split at h
  · exact some.inj h ▸ (fail_calm s _).adjusts
  split at h
  · rw [← some.inj h]
    split
    · exact (fail_calm s _).adjusts
    · exact (Calm.refl s).adjusts
  split at h
  · exact some.inj h ▸ (fail_calm s _).adjusts
  · simp only [bind_eq_bind, bind_eq_some_iff, Prod.exists] at h
    obtain ⟨t, ok, hap, h⟩ := h
    have hs := applySettings_adjusts hap
    split at h
    · exact some.inj h ▸ hs
    split at h
    · exact some.inj h ▸ hs.trans (fail_calm t _).adjusts
    · have hack : t.Calm (t.writeFrame .settings flagAck 0 []) :=
        .writeFrame .refl (f := ⟨.settings, flagAck, 0, []⟩) ⟨⟨by simp, by simp, by simp⟩, by simp⟩
      have hall := hs.trans hack.adjusts
      exact some.inj h ▸ ⟨hall.unacked, hall.preface, hall.next, hall.written, hall.streams⟩

/-- WINDOW_UPDATE moves a limit and sends nothing. -/
theorem onWindowUpdate_adjusts {header : FrameHeader} {payload : List UInt8}
    (h : s.onWindowUpdate header payload = some s') : s.Adjusts s' := by
  unfold onWindowUpdate at h
  split at h
  · exact some.inj h ▸ (fail_calm s _).adjusts
  extract_lets inc at h
  split at h
  · split at h
    · exact some.inj h ▸ (fail_calm s _).adjusts
    split at h
    · exact some.inj h ▸ (fail_calm s _).adjusts
    · simp only [bind_eq_bind, bind_eq_some_iff, Option.pure_def] at h
      obtain ⟨w, -, h⟩ := h
      exact some.inj h ▸ .of_streams rfl rfl rfl rfl fun t ht => ⟨t, ht, .refl t⟩
  split at h
  · next stream hf =>
    have hmem := mem_of_find hf
    split at h
    · exact some.inj h ▸ (failStream_calm hmem _ _).adjusts
    simp only at h
    split at h
    · exact some.inj h ▸ (failStream_calm hmem _ _).adjusts
    · simp only [bind_eq_bind, bind_eq_some_iff, Option.pure_def] at h
      obtain ⟨w, -, h⟩ := h
      refine some.inj h ▸ .of_streams rfl rfl rfl rfl fun t' ht' => ?_
      obtain ⟨old, hold, heq⟩ := List.mem_map.1 ht'
      split_ifs at heq
      · exact heq ▸ ⟨stream, hmem, rfl, rfl, fun h => h, fun h => h⟩
      · exact heq ▸ ⟨old, hold, .refl old⟩
  · rw [← some.inj h]
    split
    · exact (fail_calm s _).adjusts
    · exact (Calm.refl s).adjusts

/-- The bytes of a DATA frame that is handed on to `onData`. -/
def received (s : Session H) : Input → ℕ
  | .frame f =>
    if f.header.frameType = .data ∧ s.expectingContinuation = 0 ∧ s.settingsReceived then
      f.header.length
    else 0
  | _ => 0

/-- Only some inputs have to do with flow control; of a header block only the end of a body that
waits. -/
inductive Effect (dec : Decoder H) (s : Session H) : Input → Session H → Prop
  | calm {i : Input} {s' : Session H} (h : s.Calm s') (hr : s.received i = 0) : Effect dec s i s'
  | headers {f : Frame} {s' : Session H}
      (ht : f.header.frameType = .headers ∨ f.header.frameType = .continuation)
      (h : s.Quietly s') : Effect dec s (.frame f) s'
  | data {f : Frame} {s' : Session H} (hr : s.received (.frame f) = f.header.length)
      (h : Calm { s with
        connUnackedBytes := saturatingAdd s.connUnackedBytes f.header.length } s') :
      Effect dec s (.frame f) s'
  | settings {f : Frame} {s' : Session H} (ht : f.header.frameType = .settings)
      (h : s.onSettings f.header f.payload = some s') : Effect dec s (.frame f) s'
  | windowUpdate {f : Frame} {s' : Session H} (ht : f.header.frameType = .windowUpdate)
      (h : s.onWindowUpdate f.header f.payload = some s') : Effect dec s (.frame f) s'
  | attach {client : ℕ} {r : RequestAnswers} (hroom : s.hasHeadroom = true) :
      Effect dec s (.attach client r) (s.attach client r)
  | drain {id : ℕ} {body : RequestBody} {cap : ℕ} {stream : Stream}
      (hf : s.find id = some stream) :
      Effect dec s (.drain id body cap)
        ((s.drainSendBody stream body cap).1.put (s.drainSendBody stream body cap).2.1)
  | replenish {s' : Session H} (h : s.replenishWindow = some s') : Effect dec s .replenish s'

theorem dispatchFrame_effect {f : Frame} (h : s.dispatchFrame dec f.header f.payload = some s') :
    Effect dec s (.frame f) s' := by
  have hot : f.header.frameType ≠ .data → s.received (.frame f) = 0 := fun hne =>
    if_neg fun h => hne h.1
  unfold dispatchFrame at h
  split at h
  · next hexp =>
    exact some.inj h ▸ .calm (fail_calm s _) (if_neg fun h => hexp.1 h.2.1)
  split at h
  · next hset =>
    exact some.inj h ▸ .calm (fail_calm s _) (if_neg fun h => hset.1 h.2.2)
  next hexp hset =>
  split at h <;> rename_i ht
  · exact .settings ht h
  · exact .windowUpdate ht h
  · exact some.inj h ▸ .calm (onPing_calm s _ _) (hot (by simp [ht]))
  · exact some.inj h ▸ .calm (onPriority_calm s _) (hot (by simp [ht]))
  · exact some.inj h ▸ .headers (Or.inl ht) (onHeaders_quietly s _ _)
  · exact some.inj h ▸ .headers (Or.inr ht) (onContinuation_quietly s _ _)
  · refine some.inj h ▸ .data (if_pos ⟨ht, ?_, ?_⟩) (onData_calm s _ _)
    · by_contra hne
      exact hexp ⟨hne, by simp [ht]⟩
    · by_contra hne
      exact hset ⟨hne, by simp [ht]⟩
  · exact some.inj h ▸ .calm (onRstStream_calm s _ _) (hot (by simp [ht]))
  · exact some.inj h ▸ .calm (onGoaway_calm s _ _) (hot (by simp [ht]))
  · exact some.inj h ▸ .calm (fail_calm s _) (hot (by simp [ht]))
  · exact some.inj h ▸ .calm (.refl s) (hot (by simp [ht]))

theorem perform_effect {i : Input} (h : s.perform dec i = some s') : Effect dec s i s' := by
  cases i with
  | frame f => exact dispatchFrame_effect h
  | attach client r =>
    simp only [Session.perform] at h
    split_ifs at h with hrm
    exact some.inj h ▸ .attach hrm
  | drain id body cap =>
    simp only [Session.perform] at h
    split at h
    · exact some.inj h ▸ .calm (.refl s) rfl
    · next stream hf => exact some.inj h ▸ .drain hf
  | abort id wrote =>
    simp only [Session.perform] at h
    split at h
    · exact some.inj h ▸ .calm (.refl s) rfl
    · next stream hf =>
      exact some.inj h ▸ .calm (detachWithFailure_calm (mem_of_find hf) wrote) rfl
  | deliver id a => exact some.inj h ▸ .calm (deliver_calm s id a) rfl
  | replenish => exact .replenish h
  | flush wrote => exact some.inj h ▸ .calm (flush_calm s wrote) rfl
  | writeFailed => exact some.inj h ▸ .calm (fail_calm s _) rfl

end Session

end Cruller.H2
