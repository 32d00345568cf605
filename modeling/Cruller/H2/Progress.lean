import Cruller.H2.ClientSession

/-!
# What the wire does to a stream

Whatever comes in or goes out, the streams stay the same ones with the same clients (`Advances`). A
stream gets its response once, and every byte that is counted as received is kept until it is
delivered (`Stream.Follows`).
-/

namespace Cruller.H2

open List Option

/-- The stream is the same, later. -/
structure Stream.Follows (t t' : Stream) : Prop where
  id : t'.id = t.id
  client : t'.client = t.client
  status : t.statusCode ≠ 0 → t'.statusCode ≠ 0 ∧ (t'.headersReady = true → t.headersReady = true)
  ready : t'.headersReady = true → t'.statusCode ≠ 0 ∨ t.headersReady = true
  bytes : ∃ n, t'.dataBytesReceived = t.dataBytesReceived + n
    ∧ t'.bodyBuffer.length = t.bodyBuffer.length + n

namespace Stream

variable {t t' t'' : Stream}

theorem Follows.of_eq (id : t'.id = t.id) (client : t'.client = t.client)
    (status : t'.statusCode = t.statusCode) (ready : t'.headersReady = t.headersReady)
    (received : t'.dataBytesReceived = t.dataBytesReceived)
    (buffer : t'.bodyBuffer = t.bodyBuffer) : t.Follows t' :=
  ⟨id, client, fun h => ⟨status ▸ h, fun h' => ready ▸ h'⟩, fun h => .inr (ready ▸ h),
    0, received, congrArg _ buffer⟩

@[refl]
theorem Follows.refl (t : Stream) : t.Follows t := .of_eq rfl rfl rfl rfl rfl rfl

theorem Follows.trans (h : t.Follows t') (h' : t'.Follows t'') : t.Follows t'' where
  id := h'.id.trans h.id
  client := h'.client.trans h.client
  status hs := ⟨(h'.status (h.status hs).1).1, fun hr => (h.status hs).2 ((h'.status (h.status hs).1).2 hr)⟩
  ready hr := by
    rcases h'.ready hr with hs | hr'
    · exact .inl hs
    · exact (h.ready hr').imp_left fun hs => (h'.status hs).1
  bytes := by
    obtain ⟨m, hm, hm'⟩ := h.bytes
    obtain ⟨n, hn, hn'⟩ := h'.bytes
    exact ⟨m + n, by omega, by omega⟩

theorem sentEndStream_follows (t : Stream) : t.Follows t.sentEndStream := by
  unfold sentEndStream
  split <;> exact .of_eq rfl rfl rfl rfl rfl rfl

theorem recvEndStream_follows (t : Stream) : t.Follows t.recvEndStream := by
  unfold recvEndStream
  split <;> exact .of_eq rfl rfl rfl rfl rfl rfl

theorem ended_follows (h : t.Follows t') (c : Bool) :
    t.Follows (if c then t'.recvEndStream else t') := by
  split
  · exact h.trans t'.recvEndStream_follows
  · exact h

end Stream

namespace Session

variable {H : Type} {s s' s'' : Session H} {stream stream' : Stream} {id : ℕ}

/-- The same streams, each gone on. -/
structure Advances (s s' : Session H) : Prop where
  next : s'.nextStreamId = s.nextStreamId
  streams : List.Forall₂ Stream.Follows s.streams s'.streams

theorem Advances.of_streams (next : s'.nextStreamId = s.nextStreamId)
    (streams : s'.streams = s.streams) : s.Advances s' :=
  ⟨next, streams ▸ forall₂_same.2 fun t _ => .refl t⟩

@[refl]
theorem Advances.refl (s : Session H) : s.Advances s := .of_streams rfl rfl

theorem Advances.trans (h : s.Advances s') (h' : s'.Advances s'') : s.Advances s'' where
  next := h'.next.trans h.next
  streams := by
    have hcm := forall₂_iff_get.1 h.streams
    have hcm' := forall₂_iff_get.1 h'.streams
    refine forall₂_iff_get.2 ⟨hcm.1.trans hcm'.1, fun i hi hi' => ?_⟩
    exact (hcm.2 i hi (hcm.1 ▸ hi)).trans (hcm'.2 i (hcm.1 ▸ hi) hi')

section

variable {l l' : List Stream}

theorem follows_ids (h : List.Forall₂ Stream.Follows l l') :
    l'.map Stream.id = l.map Stream.id := by
  induction h with
  | nil => rfl
  | cons ht _ ih => rw [map_cons, map_cons, ht.id, ih]

theorem follows_clients (h : List.Forall₂ Stream.Follows l l') :
    l'.filterMap Stream.client = l.filterMap Stream.client := by
  induction h with
  | nil => rfl
  | cons ht _ ih => rw [filterMap_cons, filterMap_cons, ht.client, ih]

theorem follows_mem (h : List.Forall₂ Stream.Follows l l') : ∀ t' ∈ l', ∃ t ∈ l, t.Follows t' := by
  induction h with
  | nil => simp
  | cons ht _ ih =>
    intro t' ht'
    rcases mem_cons.1 ht' with rfl | ht'
    · exact ⟨_, mem_cons_self, ht⟩
    · obtain ⟨u, hu, hf⟩ := ih t' ht'
      exact ⟨u, mem_cons_of_mem _ hu, hf⟩

theorem follows_of_mem (h : List.Forall₂ Stream.Follows l l') :
    ∀ t ∈ l, ∃ t' ∈ l', t.Follows t' := by
  induction h with
  | nil => simp
  | cons ht _ ih =>
    intro t ht₀
    rcases mem_cons.1 ht₀ with rfl | ht₀
    · exact ⟨_, mem_cons_self, ht⟩
    · obtain ⟨u, hu, hf⟩ := ih t ht₀
      exact ⟨u, mem_cons_of_mem _ hu, hf⟩

end

theorem Advances.ids (h : s.Advances s') : s'.streams.map Stream.id = s.streams.map Stream.id :=
  follows_ids h.streams

theorem Advances.clients (h : s.Advances s') : s'.clients = s.clients :=
  follows_clients h.streams

theorem Advances.mem (h : s.Advances s') {t' : Stream} (ht' : t' ∈ s'.streams) :
    ∃ t ∈ s.streams, t.Follows t' :=
  follows_mem h.streams t' ht'

theorem Distinct.of_ids (hs : s.Distinct) (hids : s'.streams.map Stream.id = s.streams.map Stream.id)
    (hnx : s'.nextStreamId = s.nextStreamId) : s'.Distinct := by
  have hmem : ∀ t ∈ s'.streams, ∃ t' ∈ s.streams, t'.id = t.id := fun t ht => by
    have := List.mem_map_of_mem (f := Stream.id) ht
    rw [hids] at this
    simpa using this
  refine ⟨hids ▸ hs.nodup, fun t ht => ?_, fun t ht => ?_, hnx ▸ hs.next_pos⟩
  · obtain ⟨t', ht', hid⟩ := hmem t ht
    exact hid ▸ hs.pos t' ht'
  · obtain ⟨t', ht', hid⟩ := hmem t ht
    exact hid ▸ hnx ▸ hs.lt t' ht'

theorem Advances.distinct (h : s.Advances s') (hs : s.Distinct) : s'.Distinct :=
  hs.of_ids h.ids h.next

theorem Advances.put (h : s.Advances s') (hs : s.Distinct) (hmem : stream ∈ s.streams)
    (hf : stream.Follows stream') : s.Advances (s'.put stream') := by
  refine ⟨h.next, ?_⟩
  rw [Session.put, forall₂_map_right_iff]
  refine ((forall₂_and_left _ _).2 ⟨fun t ht => ht, h.streams⟩).imp fun t t' hboth => ?_
  obtain ⟨ht, hft⟩ := hboth
  split_ifs with hid
  · obtain rfl := inj_on_of_nodup_map hs.nodup ht hmem
      (hft.id.symm.trans (hid.trans hf.id))
    exact hf
  · exact hft

section

theorem fail_advances (s : Session H) (e : Error) : s.Advances (s.fail e) := .of_streams rfl rfl

theorem writeFrame_advances (s : Session H) (type : FrameType) (flags : UInt8) (streamId : ℕ)
    (payload : List UInt8) : s.Advances (s.writeFrame type flags streamId payload) :=
  .of_streams rfl rfl

theorem rst_advances (s : Session H) (stream : Stream) (code : ErrorCode) :
    s.Advances (s.rst stream code).1 ∧ stream.Follows (s.rst stream code).2 := by
  unfold Session.rst
  split
  · exact ⟨.refl s, .refl stream⟩
  · exact ⟨.of_streams rfl rfl, .of_eq rfl rfl rfl rfl rfl rfl⟩

theorem failStream_advances (hs : s.Distinct) (hmem : stream ∈ s.streams) (code : ErrorCode)
    (e : Error) : s.Advances (s.failStream stream code e) := by
  obtain ⟨hadv, hf⟩ := rst_advances s stream code
  exact hadv.put hs hmem (hf.trans (.of_eq rfl rfl rfl rfl rfl rfl))

theorem adjustWindows_advances {delta : ℤ} : ∀ {l l' : List Stream} {ok : Bool},
    adjustWindows delta l = some (l', ok) → List.Forall₂ Stream.Follows l l'
  | [], l', ok, h => by
    obtain ⟨rfl, -⟩ := Prod.mk.inj (some.inj h)
    exact .nil
  | stream :: rest, l', ok, h => by
    rw [adjustWindows] at h
    simp only at h
    split_ifs at h
    · obtain ⟨rfl, -⟩ := Prod.mk.inj (some.inj h)
      exact forall₂_same.2 fun t _ => .refl t
    · simp only [bind_eq_bind, bind_eq_some_iff, Option.pure_def, some.injEq,
        Prod.mk.injEq, Prod.exists] at h
      obtain ⟨w, -, rest', ok', hrs, rfl, -⟩ := h
      exact .cons (.of_eq rfl rfl rfl rfl rfl rfl) (adjustWindows_advances hrs)

theorem applySetting_advances {unit : ℕ × ℕ} {ok : Bool}
    (h : s.applySetting unit = some (s', ok)) : s.Advances s' := by
  unfold applySetting at h
  split at h
  · split_ifs at h <;> obtain ⟨rfl, -⟩ := Prod.mk.inj (some.inj h)
      <;> exact .of_streams rfl rfl
  · obtain ⟨rfl, -⟩ := Prod.mk.inj (some.inj h)
    exact .of_streams rfl rfl
  · obtain ⟨rfl, -⟩ := Prod.mk.inj (some.inj h)
    exact .of_streams rfl rfl
  · split_ifs at h
    · obtain ⟨rfl, -⟩ := Prod.mk.inj (some.inj h)
      exact .of_streams rfl rfl
    · simp only [bind_eq_bind, bind_eq_some_iff, Option.pure_def, some.injEq,
        Prod.exists] at h
      obtain ⟨streams, moved, had, h⟩ := h
      split_ifs at h <;> obtain ⟨rfl, -⟩ := Prod.mk.inj h
        <;> exact ⟨rfl, adjustWindows_advances had⟩
  · obtain ⟨rfl, -⟩ := Prod.mk.inj (some.inj h)
    exact .of_streams rfl rfl

theorem applySettings_advances : ∀ {units : List (ℕ × ℕ)} {s s' : Session H} {ok : Bool},
    s.applySettings units = some (s', ok) → s.Advances s'
  | [], s, s', ok, h => by
    obtain ⟨rfl, -⟩ := Prod.mk.inj (some.inj h)
    exact .refl s
  | unit :: rest, s, s', ok, h => by
    simp only [applySettings, bind_eq_bind, bind_eq_some_iff, Prod.exists] at h
    obtain ⟨t, ok', hone, h⟩ := h
    have hst := applySetting_advances hone
    split_ifs at h
    · exact hst.trans (applySettings_advances h)
    · obtain ⟨rfl, -⟩ := Prod.mk.inj (some.inj h)
      exact hst

variable {header : FrameHeader} {payload : List UInt8}

theorem onSettings_advances
    (h : s.onSettings header payload = some s') : s.Advances s' := by
  unfold onSettings at h
  split at h
  · exact some.inj h ▸ fail_advances s _
  split at h
  · rw [← some.inj h]
    split
    · exact fail_advances s _
    · exact .refl s
  split at h
  · exact some.inj h ▸ fail_advances s _
  · simp only [bind_eq_bind, bind_eq_some_iff, Prod.exists] at h
    obtain ⟨t, ok, hap, h⟩ := h
    have hs := applySettings_advances hap
    split at h
    · exact some.inj h ▸ hs
    split at h
    · exact some.inj h ▸ hs.trans (fail_advances t _)
    · exact some.inj h ▸ ⟨hs.next, hs.streams⟩

/-- WINDOW_UPDATE goes on with the same streams. -/
theorem onWindowUpdate_advances (hs : s.Distinct)
    (h : s.onWindowUpdate header payload = some s') : s.Advances s' := by
  unfold onWindowUpdate at h
  split at h
  · exact some.inj h ▸ fail_advances s _
  extract_lets inc at h
  split at h
  · split at h
    · exact some.inj h ▸ fail_advances s _
    split at h
    · exact some.inj h ▸ fail_advances s _
    · simp only [bind_eq_bind, bind_eq_some_iff, Option.pure_def] at h
      obtain ⟨w, -, h⟩ := h
      exact some.inj h ▸ .of_streams rfl rfl
  split at h
  · next stream hf =>
    have hmem := (hs.find_iff.1 hf).1
    split at h
    · exact some.inj h ▸ failStream_advances hs hmem _ _
    simp only at h
    split at h
    · exact some.inj h ▸ failStream_advances hs hmem _ _
    · simp only [bind_eq_bind, bind_eq_some_iff, Option.pure_def] at h
      obtain ⟨w, -, h⟩ := h
      have hput : s.Advances (s.put { stream with sendWindow := w }) :=
        (Advances.refl s).put hs hmem (.of_eq rfl rfl rfl rfl rfl rfl)
      exact some.inj h ▸ ⟨hput.next, hput.streams⟩
  · rw [← some.inj h]
    split
    · exact fail_advances s _
    · exact .refl s

theorem onPing_advances (s : Session H) (header : FrameHeader) (payload : List UInt8) :
    s.Advances (s.onPing header payload) := by
  unfold onPing
  split_ifs <;> exact .of_streams rfl rfl

theorem onPriority_advances (s : Session H) (header : FrameHeader) :
    s.Advances (s.onPriority header) := by
  unfold onPriority
  split_ifs <;> exact .of_streams rfl rfl

theorem onRstStream_advances (hs : s.Distinct) (header : FrameHeader) (payload : List UInt8) :
    s.Advances (s.onRstStream header payload) := by
  unfold onRstStream
  split_ifs
  · exact fail_advances s _
  · exact fail_advances s _
  split
  · exact .refl s
  next stream hf =>
  exact (Advances.refl s).put hs (hs.find_iff.1 hf).1 (.of_eq rfl rfl rfl rfl rfl rfl)

theorem onGoaway_advances (s : Session H) (header : FrameHeader) (payload : List UInt8) :
    s.Advances (s.onGoaway header payload) := by
  unfold onGoaway
  split_ifs
  · exact fail_advances s _
  · exact fail_advances s _
  refine ⟨rfl, ?_⟩
  rw [forall₂_map_right_iff]
  refine forall₂_same.2 fun t _ => ?_
  split_ifs <;> exact .of_eq rfl rfl rfl rfl rfl rfl

theorem onData_advances (hs : s.Distinct) (header : FrameHeader) (payload : List UInt8) :
    s.Advances (s.onData header payload) := by
  unfold onData
  extract_lets t
  have ht : s.Advances t := .of_streams rfl rfl
  have htd : t.Distinct := ht.distinct hs
  refine ht.trans ?_
  split
  · split_ifs
    · exact fail_advances t _
    · exact .refl t
  next stream hf =>
  have hmem := (htd.find_iff.1 hf).1
  have hpr : t.Advances { t with streamProgressed := true } := .of_streams rfl rfl
  simp only
  split
  · exact hpr.trans (failStream_advances (hpr.distinct htd) hmem _ _)
  split
  · exact hpr.put htd hmem (.of_eq rfl rfl rfl rfl rfl rfl)
  have hcn : stream.Follows { stream with
      unackedBytes := saturatingAdd stream.unackedBytes header.length } :=
    .of_eq rfl rfl rfl rfl rfl rfl
  split
  · exact (hpr.put htd hmem hcn).trans (fail_advances _ _)
  · next fragment _ =>
    have hen := Stream.ended_follows hcn (hasFlag header.flags flagEndStream)
    refine hpr.put htd hmem (hen.trans ⟨rfl, rfl, fun h => ⟨h, id⟩, Or.inr,
      fragment.length, rfl, ?_⟩)
    exact length_append

/-- A header block goes on with its stream and leaves the others as they are. -/
theorem applyBlock_advances (hs : s.Distinct) (hmem : stream ∈ s.streams)
    (hf : stream.Follows stream') (acc : BlockFields) : s.Advances (s.applyBlock stream' acc) := by
  have hput : ∀ {stream'' : Stream}, stream'.Follows stream'' → s.Advances (s.put stream'') :=
    fun hf' => (Advances.refl s).put hs hmem (hf.trans hf')
  unfold applyBlock
  extract_lets kept told ready
  split
  · obtain ⟨hadv, hr⟩ := rst_advances s stream' .protocolError
    exact hadv.put hs hmem ((hf.trans hr).trans (.of_eq rfl rfl rfl rfl rfl rfl))
  split
  · split <;> exact hput (.of_eq rfl rfl rfl rfl rfl rfl)
  split
  · exact hput (.of_eq rfl rfl rfl rfl rfl rfl)
  next hst hacc =>
  have htl : stream'.Follows told := by
    unfold told
    split <;> exact .of_eq rfl rfl rfl rfl rfl rfl
  split
  · split
    · exact hput (htl.trans (.of_eq rfl rfl rfl rfl rfl rfl))
    · exact hput htl
  have hrd : stream'.Follows ready :=
    ⟨rfl, rfl, fun h => absurd h hst, fun _ => .inl hacc, 0, rfl, rfl⟩
  by_cases hwt : ready.awaitingContinue
  · simp only [if_pos hwt]
    have hen := Stream.sentEndStream_follows { ready with awaitingContinue := false }
    have hgs : ready.Follows { ready with awaitingContinue := false } :=
      .of_eq rfl rfl rfl rfl rfl rfl
    exact (writeFrame_advances s .data flagEndStream ready.id []).put hs hmem
      ((hf.trans (hrd.trans (hgs.trans hen))).trans (.of_eq rfl rfl rfl rfl rfl rfl))
  · simp only [if_neg hwt]
    exact hput (hrd.trans (.of_eq rfl rfl rfl rfl rfl rfl))

variable {dec : Decoder H}

theorem decodeHeaderBlock_advances (hs : s.Distinct) (hmem : stream ∈ s.streams)
    (hf : stream.Follows stream') : s.Advances (s.decodeHeaderBlock dec stream') := by
  unfold decodeHeaderBlock
  generalize decodeLoop dec Error.compressionError (BlockFields.field stream'.statusCode) s.hpack
    { decodedBytes := stream'.decodedBytes } stream'.headerBlock 0 = out
  obtain ⟨hpack, calls, acc, e⟩ := out
  have hfed : s.Advances { s with hpack, calls := s.calls ++ calls } := .of_streams rfl rfl
  have hrd : stream.Follows { stream' with headerBlock := [] } :=
    hf.trans (.of_eq rfl rfl rfl rfl rfl rfl)
  rcases e with _ | e
  · simp only
    exact hfed.trans (applyBlock_advances (hfed.distinct hs) hmem hrd acc)
  · simp only
    refine Advances.trans ?_ (fail_advances _ e)
    exact hfed.put hs hmem (hrd.trans (.of_eq rfl rfl rfl rfl rfl rfl))

theorem decodeDiscardOrphan_advances (s : Session H) : s.Advances (s.decodeDiscardOrphan dec) := by
  unfold decodeDiscardOrphan
  generalize decodeLoop dec Error.compressionError (fun (_ : Unit) _ => ((), none)) s.hpack ()
    s.orphanHeaderBlock 0 = out
  obtain ⟨hpack, calls, _, _ | e⟩ := out <;> exact .of_streams rfl rfl

theorem onOrphanHeaders_advances (s : Session H) (header : FrameHeader) (payload : List UInt8) :
    s.Advances (s.onOrphanHeaders dec header payload) := by
  unfold onOrphanHeaders
  split
  · exact fail_advances s _
  split
  · exact fail_advances s _
  next fragment _ =>
  split
  · exact fail_advances s _
  have hkp : s.Advances { s with orphanHeaderBlock := fragment } := .of_streams rfl rfl
  simp only
  split
  · exact hkp.trans (decodeDiscardOrphan_advances _)
  · exact .of_streams rfl rfl

theorem onStreamHeaders_advances (hs : s.Distinct) (hmem : stream ∈ s.streams)
    (header : FrameHeader) (payload : List UInt8) :
    s.Advances (s.onStreamHeaders dec stream header payload) := by
  have hpr : s.Advances { s with streamProgressed := true } := .of_streams rfl rfl
  unfold onStreamHeaders
  simp only
  split
  · exact hpr.trans (fail_advances _ _)
  next fragment _ =>
  have hbl : stream.Follows { stream with
      headerBlock := fragment, headersEndStream := hasFlag header.flags flagEndStream } :=
    .of_eq rfl rfl rfl rfl rfl rfl
  split
  · exact hpr.trans (fail_advances _ _)
  split
  · exact hpr.trans (decodeHeaderBlock_advances (hpr.distinct hs) hmem
      (Stream.ended_follows hbl _))
  · have hput := hpr.put hs hmem hbl
    exact ⟨hput.next, hput.streams⟩

theorem onHeaders_advances (hs : s.Distinct) (header : FrameHeader) (payload : List UInt8) :
    s.Advances (s.onHeaders dec header payload) := by
  unfold onHeaders
  split
  · exact onOrphanHeaders_advances s header payload
  next stream hf => exact onStreamHeaders_advances hs (hs.find_iff.1 hf).1 header payload

theorem onContinuation_advances (hs : s.Distinct) (header : FrameHeader) (payload : List UInt8) :
    s.Advances (s.onContinuation dec header payload) := by
  have hep : s.Advances { s with expectingContinuation := 0 } := .of_streams rfl rfl
  unfold onContinuation
  split
  · exact fail_advances s _
  split
  · next stream hf =>
    have hmem := (hs.find_iff.1 hf).1
    have hbl : stream.Follows { stream with headerBlock := stream.headerBlock ++ payload } :=
      .of_eq rfl rfl rfl rfl rfl rfl
    split
    · exact fail_advances s _
    simp only
    split
    · exact hep.trans (decodeHeaderBlock_advances (hep.distinct hs) hmem
        (Stream.ended_follows hbl _))
    · exact (Advances.refl s).put hs hmem hbl
  · split
    · exact fail_advances s _
    simp only
    split
    · refine Advances.trans ?_ (decodeDiscardOrphan_advances _)
      exact .of_streams rfl rfl
    · exact .of_streams rfl rfl

theorem dispatchFrame_advances (hs : s.Distinct)
    (h : s.dispatchFrame dec header payload = some s') : s.Advances s' := by
  unfold dispatchFrame at h
  split_ifs at h
  · exact some.inj h ▸ fail_advances s _
  · exact some.inj h ▸ fail_advances s _
  split at h
  · exact onSettings_advances h
  · exact onWindowUpdate_advances hs h
  · exact some.inj h ▸ onPing_advances s header payload
  · exact some.inj h ▸ onPriority_advances s header
  · exact some.inj h ▸ onHeaders_advances hs header payload
  · exact some.inj h ▸ onContinuation_advances hs header payload
  · exact some.inj h ▸ onData_advances hs header payload
  · exact some.inj h ▸ onRstStream_advances hs header payload
  · exact some.inj h ▸ onGoaway_advances s header payload
  · exact some.inj h ▸ fail_advances s _
  · exact some.inj h ▸ .refl s

theorem writeDataLoop_advances (endStream : Bool) (cap : ℕ) :
    ∀ (fuel : ℕ) (s : Session H) (stream : Stream) (remaining : List UInt8) (consumed : ℕ),
      s.Advances (writeDataLoop endStream cap fuel s stream remaining consumed).1
        ∧ stream.Follows (writeDataLoop endStream cap fuel s stream remaining consumed).2.1
  | 0, s, stream, _, _ => ⟨.refl s, .refl stream⟩
  | fuel + 1, s, stream, remaining, consumed => by
    rw [writeDataLoop]
    extract_lets chunkLen last flags consumed'
    split
    · exact ⟨.refl s, .refl stream⟩
    split
    · exact ⟨.refl s, .refl stream⟩
    split
    · exact ⟨.refl s, .refl stream⟩
    have hsn : s.Advances (s.writeDataFrame stream (remaining.take chunkLen) flags).1 :=
      .of_streams rfl rfl
    have hst : stream.Follows (s.writeDataFrame stream (remaining.take chunkLen) flags).2 :=
      .of_eq rfl rfl rfl rfl rfl rfl
    simp only
    split
    · exact ⟨hsn, hst⟩
    · obtain ⟨hadv, hf⟩ := writeDataLoop_advances endStream cap fuel
        (s.writeDataFrame stream (remaining.take chunkLen) flags).1
        (s.writeDataFrame stream (remaining.take chunkLen) flags).2 (remaining.drop chunkLen)
        consumed'
      exact ⟨hsn.trans hadv, hst.trans hf⟩

theorem drainSendBody_advances (s : Session H) (stream : Stream) (body : RequestBody) (cap : ℕ) :
    s.Advances (s.drainSendBody stream body cap).1
      ∧ stream.Follows (s.drainSendBody stream body cap).2.1 := by
  have hid : s.Advances s ∧ stream.Follows stream := ⟨.refl s, .refl stream⟩
  unfold drainSendBody
  split
  · exact hid
  split
  · exact hid
  split
  · obtain ⟨hadv, hf⟩ := writeDataLoop_advances true cap (stream.pendingBody.length + 1) s stream
      stream.pendingBody 0
    have hlf : ∀ left, stream.Follows
        { (s.writeDataWindowed stream stream.pendingBody true cap).2.1 with pendingBody := left } :=
      fun left => hf.trans (.of_eq rfl rfl rfl rfl rfl rfl)
    simp only
    split
    · exact ⟨hadv, (hlf _).trans (Stream.sentEndStream_follows _)⟩
    · exact ⟨hadv, hlf _⟩
  · split
    · exact hid
    next data ended _ =>
    obtain ⟨hadv, hf⟩ := writeDataLoop_advances ended cap (data.length + 1) s stream data 0
    simp only
    split
    · exact ⟨hadv, hf.trans (Stream.sentEndStream_follows _)⟩
    · exact ⟨hadv, hf⟩

theorem writeHeaderBlockLoop_advances (streamId : ℕ) (endStream : Bool) :
    ∀ (fuel : ℕ) (s : Session H) (remaining : List UInt8) (first : Bool),
      s.Advances (writeHeaderBlockLoop streamId endStream fuel s remaining first)
  | 0, s, _, _ => .refl s
  | fuel + 1, s, remaining, first => by
    rw [writeHeaderBlockLoop]
    split
    · exact writeFrame_advances s _ _ _ _
    · exact (writeFrame_advances s _ _ _ _).trans
        (writeHeaderBlockLoop_advances streamId endStream fuel _ _ false)

/-- `none` is a request whose fields cannot be encoded. -/
theorem writeRequest_advances (s : Session H) (stream : Stream) (r : RequestAnswers) :
    s.Advances (s.writeRequest stream r).1
      ∧ (∀ stream' ∈ (s.writeRequest stream r).2, stream.Follows stream')
      ∧ (s.writeRequest stream r).2.isNone = r.encoded.isNone := by
  unfold writeRequest
  extract_lets update t inline streaming opened inlined
  have ht : s.Advances t := .of_streams rfl rfl
  split
  · next henc => exact ⟨ht, by simp, by simp [henc]⟩
  next fields henc =>
  have hu : s.Advances (t.writeHeaderBlock opened.id (update ++ fields)
    (inline.length = 0 ∧ ¬ streaming)) := ht.trans (writeHeaderBlockLoop_advances _ _ _ _ _ _)
  have hop : stream.Follows opened := by
    unfold opened
    split_ifs <;> exact .of_eq rfl rfl rfl rfl rfl rfl
  split
  · obtain ⟨hadv, hf⟩ := drainSendBody_advances (t.writeHeaderBlock opened.id (update ++ fields)
      (inline.length = 0 ∧ ¬ streaming)) inlined r.body (2 ^ 64 - 1)
    refine ⟨hu.trans hadv, fun stream' hmem => ?_, by simp [henc]⟩
    have hin : opened.Follows inlined := .of_eq rfl rfl rfl rfl rfl rfl
    exact some.inj hmem ▸ (hop.trans hin).trans hf
  split
  · exact ⟨hu, fun stream' hmem => some.inj hmem ▸ hop, by simp [henc]⟩
  · refine ⟨hu, fun stream' hmem => ?_, by simp [henc]⟩
    exact some.inj hmem ▸ hop.trans (Stream.sentEndStream_follows _)

theorem replenishStreams_advances : ∀ {l : List Stream} {s : Session H}, s.Distinct →
    (∀ t ∈ l, ∃ u ∈ s.streams, u.Follows t ∧ t.Follows u) →
    l.foldlM replenishStream s = some s' → s.Advances s'
  | [], s, _, _, h => some.inj h ▸ .refl s
  | stream :: rest, s, hs, hl, h => by
    rw [foldlM_cons, bind_eq_bind, bind_eq_some_iff] at h
    obtain ⟨t, ht, h⟩ := h
    obtain ⟨u, hu, hus, hsu⟩ := hl stream mem_cons_self
    have hone : s.Advances t ∧ ∀ v ∈ s.streams, ∃ v' ∈ t.streams, v.Follows v' ∧ v'.Follows v := by
      unfold replenishStream at ht
      split_ifs at ht
      · simp only [bind_eq_bind, bind_eq_some_iff] at ht
        obtain ⟨increment, -, ht⟩ := ht
        have hzr : stream.Follows { stream with unackedBytes := 0 } :=
          .of_eq rfl rfl rfl rfl rfl rfl
        have hbc : Stream.Follows { stream with unackedBytes := 0 } stream :=
          .of_eq rfl rfl rfl rfl rfl rfl
        refine ⟨some.inj ht ▸ (writeFrame_advances s _ _ _ _).put hs hu (hus.trans hzr),
          fun v hv => ?_⟩
        rw [← some.inj ht]
        refine ⟨_, List.mem_map.2 ⟨v, hv, rfl⟩, ?_⟩
        split_ifs with hid
        · obtain rfl := inj_on_of_nodup_map hs.nodup hv hu (hid.trans hus.id)
          exact ⟨hus.trans hzr, hbc.trans hsu⟩
        · exact ⟨.refl v, .refl v⟩
      · exact some.inj ht ▸ ⟨.refl s, fun v hv => ⟨v, hv, .refl v, .refl v⟩⟩
    refine hone.1.trans (replenishStreams_advances (hone.1.distinct hs) (fun v hv => ?_) h)
    obtain ⟨w, hw, hwv, hvw⟩ := hl v (mem_cons_of_mem _ hv)
    obtain ⟨w', hw', hww', hw'w⟩ := hone.2 w hw
    exact ⟨w', hw', hw'w.trans hwv, hvw.trans hww'⟩

theorem replenishWindow_advances (hs : s.Distinct) (h : s.replenishWindow = some s') :
    s.Advances s' := by
  unfold replenishWindow at h
  rw [bind_eq_bind, bind_eq_some_iff] at h
  obtain ⟨t, ht, h⟩ := h
  have hfr : s.Advances t := by
    split_ifs at ht
    · simp only [bind_eq_bind, bind_eq_some_iff] at ht
      obtain ⟨increment, -, ht⟩ := ht
      exact some.inj ht ▸ .of_streams rfl rfl
    · exact some.inj ht ▸ .refl s
  exact hfr.trans (replenishStreams_advances (hfr.distinct hs)
    (fun t ht => ⟨t, ht, .refl t, .refl t⟩) h)

end

end Session

end Cruller.H2
