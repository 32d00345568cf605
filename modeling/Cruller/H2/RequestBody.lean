import Cruller.H2.Sending

/-!
# A body that is sent is the request's body

The frames of a request are its HEADERS frame and its DATA frames. As long as no header block comes
in (which may end a body that waits for leave to go out), the DATA frames carry pieces of the body,
what is left of it is what the stream has pending, and the frame that ends the stream is the one
that leaves nothing (`Sends`).
-/

namespace Cruller.H2

open List Option

def OutFrame.endsStream (f : OutFrame) : Bool :=
  hasFlag f.flags flagEndStream

theorem endsStream_dataFrame (id : ℕ) (p : List UInt8 × Bool) :
    (dataFrame id true p).endsStream = p.2 := by
  obtain ⟨piece, b⟩ := p
  cases b <;> simp [dataFrame, OutFrame.endsStream, hasFlag, flagEndStream]

namespace Session

variable {H : Type} {s s' : Session H} {stream : Stream} {id : ℕ} {body : List UInt8}

/-- The HEADERS and DATA frames that were written on a stream. -/
def requestFrames (s : Session H) (id : ℕ) : List OutFrame :=
  s.written.filter fun f => f.streamId = id ∧ (f.type = .headers ∨ f.type = .data)

/-- The bytes of DATA that were written for a stream. -/
def sentBody (s : Session H) (id : ℕ) : List UInt8 :=
  (s.requestFrames id).flatMap fun f => if f.type = .data then f.payload else []

variable {fs hs : List OutFrame} {p : Session H × Stream} {i : Input}

theorem requestFrames_append (h : s'.written = s.written ++ fs) :
    s'.requestFrames id = s.requestFrames id
      ++ fs.filter fun f => f.streamId = id ∧ (f.type = .headers ∨ f.type = .data) := by
  rw [requestFrames, h, filter_append, requestFrames]

theorem requestFrames_of_ne (h : s'.written = s.written ++ fs)
    (hfs : ∀ f ∈ fs, f.streamId = id → f.type ≠ .headers ∧ f.type ≠ .data) :
    s'.requestFrames id = s.requestFrames id := by
  rw [requestFrames_append h, filter_eq_nil_iff.2 fun f hf => ?_, append_nil]
  simp only [decide_eq_true_eq, not_and, not_or]
  exact hfs f hf

/-- No part of a request was queued, and nothing of a body is different. -/
structure Spares (s s' : Session H) : Prop where
  next : s'.nextStreamId = s.nextStreamId
  written : ∃ fs, s'.written = s.written ++ fs ∧ ∀ f ∈ fs, f.type ≠ .headers ∧ f.type ≠ .data
  streams : ∀ t' ∈ s'.streams, ∃ t ∈ s.streams, t.Rests t'

theorem Adjusts.spares (h : s.Adjusts s') : s.Spares s' := by
  obtain ⟨fs, hfs, hall⟩ := h.written
  exact ⟨h.next, ⟨fs, hfs, fun f hf => ⟨(hall f hf).ne_headers, (hall f hf).ne_data⟩⟩, h.streams⟩

theorem Calm.spares (h : s.Calm s') : s.Spares s' := h.adjusts.spares

theorem Spares.counted {n : ℕ} (h : Calm { s with connUnackedBytes := n } s') : s.Spares s' :=
  ⟨h.next, h.spares.written, h.spares.streams⟩

theorem replenishWindow_spares (hs : s.Distinct) (hr : s.replenishWindow = some s') :
    s.Spares s' := by
  rcases replenishWindow_spec hs.pos hr with hc | ⟨-, hc⟩
  · exact hc.spares
  · obtain ⟨fs, hfs, hall⟩ := hc.spares.written
    refine ⟨hc.next, ⟨_, hfs.trans (append_assoc s.written [_] fs), fun f hf => ?_⟩,
      hc.spares.streams⟩
    rcases mem_append.1 hf with hf | hf
    · rw [mem_singleton.1 hf]
      simp
    · exact hall f hf

/-- Requests were only sent on ids that were used. -/
def Fresh (s : Session H) : Prop :=
  ∀ f ∈ s.written, f.type = .headers ∨ f.type = .data → f.streamId < s.nextStreamId

theorem Fresh.of_written (h : s.Fresh) (hw : s'.written = s.written ++ fs)
    (hn : s.nextStreamId ≤ s'.nextStreamId)
    (hfs : ∀ f ∈ fs, f.type = .headers ∨ f.type = .data → f.streamId < s'.nextStreamId) :
    s'.Fresh := by
  intro f hf hty
  rw [hw] at hf
  rcases mem_append.1 hf with hf | hf
  · exact (h f hf hty).trans_le hn
  · exact hfs f hf hty

theorem Fresh.quietly (h : s.Fresh) (hs : s.Distinct) (hq : s.Quietly s') : s'.Fresh := by
  obtain ⟨fs, hfs, hall⟩ := hq.written
  refine h.of_written hfs hq.next.ge fun f hf hty => ?_
  rcases hty with hty | hty
  · exact absurd hty (hall f hf).ne_headers
  · obtain ⟨t, ht, hid⟩ := (hall f hf).tracked hty
    rw [hq.next, ← hid]
    exact hs.lt t ht

theorem Fresh.spares (h : s.Fresh) (ha : s.Spares s') : s'.Fresh := by
  obtain ⟨fs, hfs, hall⟩ := ha.written
  refine h.of_written hfs ha.next.ge fun f hf hty => ?_
  exact hty.elim (fun ht => absurd ht (hall f hf).1) fun ht => absurd ht (hall f hf).2

theorem requests_next (hr : s.Requests s' hs fs)
    (hrm : s.hasHeadroom = true) : s.nextStreamId < s'.nextStreamId := by
  simp only [hasHeadroom, Bool.and_eq_true, decide_eq_true_eq] at hrm
  have := hrm.2
  rw [hr.next]
  omega

theorem preface_type {f : OutFrame} (hf : f ∈ s.preface) : f.type ≠ .headers ∧ f.type ≠ .data := by
  unfold preface at hf
  split_ifs at hf
  · simp at hf
  · simp only [prefaceFrames, mem_cons, not_mem_nil, or_false] at hf
    rcases hf with rfl | rfl <;> simp

theorem Fresh.requests (h : s.Fresh) (hr : s.Requests s' hs fs)
    (hrm : s.hasHeadroom = true) : s'.Fresh := by
  have hlt := requests_next hr hrm
  refine h.of_written hr.written hlt.le fun f hf hty => ?_
  rcases mem_append.1 hf with hf | hf
  · exact hty.elim (fun ht => absurd ht (preface_type hf).1) fun ht => absurd ht (preface_type hf).2
  rcases mem_append.1 hf with hf | hf
  · exact (hr.headers f hf).1 ▸ hlt
  · exact (hr.frames f hf).2 ▸ hlt

variable {dec : Decoder H}

theorem Fresh.perform (h : s.Fresh) (hs : s.Distinct) (hp : s.perform dec i = some s') :
    s'.Fresh := by
  cases perform_effect hp with
  | calm hc _ => exact h.spares hc.spares
  | headers _ hq => exact h.quietly hs hq
  | data _ hc => exact h.spares (.counted hc)
  | settings _ hset => exact h.spares (onSettings_adjusts hset).spares
  | windowUpdate _ hupd => exact h.spares (onWindowUpdate_adjusts hupd).spares
  | @attach client r hrm =>
    obtain ⟨hs', fs, hreq⟩ := attach_requests s client r
    exact h.requests hreq hrm
  | @drain id body cap stream hf =>
    obtain ⟨fs, hd⟩ := drainSendBody_drained s stream body cap
    obtain ⟨wb, heq⟩ := hd.sending
    simp only at heq
    rw [heq]
    refine h.of_written rfl le_rfl fun f hf' _ => ?_
    rw [(hd.frames f hf').2]
    exact hs.lt stream (mem_of_find hf)
  | replenish hr => exact h.spares (replenishWindow_spares hs hr)

theorem Fresh.requestFrames (h : s.Fresh) : s.requestFrames s.nextStreamId = [] := by
  rw [Session.requestFrames, filter_eq_nil_iff]
  intro f hf
  simp only [decide_eq_true_eq, not_and]
  exact fun hid hty => (h f hf hty).ne hid

/-- The pieces that went out of the body, and what is left; the stream, while it is tracked, has
this pending, or has sent the end. -/
structure Sends (s : Session H) (id : ℕ) (body : List UInt8) : Prop where
  lt : id < s.nextStreamId
  pieces : ∃ header ps left, s.requestFrames id = header :: ps.map (dataFrame id true)
    ∧ header.type = .headers ∧ header.endsStream = decide (body = [])
    ∧ (body = [] ∧ ps = [] ∧ left = [] ∨ body ≠ [] ∧ Pieces body ps left)
    ∧ ∀ t ∈ s.streams, t.id = id →
      if left = [] then t.localClosed = true else t.pendingBody = left ∧ t.endSent = false

/-- The request was never sent: its fields could not be encoded. -/
structure Unsent (s : Session H) (id : ℕ) : Prop where
  lt : id < s.nextStreamId
  frames : s.requestFrames id = []
  untracked : ∀ t ∈ s.streams, t.id ≠ id

theorem Sends.spares (h : s.Sends id body) (hs : s.Spares s') : s'.Sends id body := by
  obtain ⟨header, ps, left, hfr, hty, hfl, hps, htr⟩ := h.pieces
  obtain ⟨fs, hfs, hall⟩ := hs.written
  refine ⟨hs.next ▸ h.lt, header, ps, left, ?_, hty, hfl, hps, fun t' ht' hid => ?_⟩
  · rw [requestFrames_of_ne hfs fun f hf _ => hall f hf, hfr]
  · obtain ⟨t, ht, hr⟩ := hs.streams t' ht'
    have hold := htr t ht (hr.id.symm.trans hid)
    split_ifs at hold ⊢
    · exact hr.localClosed hold
    · refine ⟨hr.pendingBody.trans hold.1, ?_⟩
      rw [← Bool.not_eq_true]
      exact fun hen => by simp [hr.endSent hen] at hold

theorem Unsent.spares (h : s.Unsent id) (hs : s.Spares s') : s'.Unsent id := by
  obtain ⟨fs, hfs, hall⟩ := hs.written
  refine ⟨hs.next ▸ h.lt, ?_, fun t' ht' => ?_⟩
  · rw [requestFrames_of_ne hfs fun f hf _ => hall f hf, h.frames]
  · obtain ⟨t, ht, hr⟩ := hs.streams t' ht'
    rw [hr.id]
    exact h.untracked t ht

theorem Drained.requestFrames_ne
    (hd : s.Drained stream p fs) (hne : stream.id ≠ id) :
    (p.1.put p.2).requestFrames id = s.requestFrames id := by
  obtain ⟨wb, heq⟩ := hd.sending
  rw [heq]
  exact requestFrames_of_ne rfl fun f hf hid => absurd ((hd.frames f hf).2.symm.trans hid) hne

theorem Drained.next (hd : s.Drained stream p fs) :
    (p.1.put p.2).nextStreamId = s.nextStreamId := by
  obtain ⟨wb, heq⟩ := hd.sending
  rw [heq]
  rfl

theorem Drained.mem_put (hd : s.Drained stream p fs)
    {t : Stream} (ht : t ∈ (p.1.put p.2).streams) : t = p.2 ∨ t ∈ s.streams ∧ t.id ≠ stream.id := by
  obtain ⟨wb, heq⟩ := hd.sending
  rcases Session.mem_put ht with h | ⟨h, hne⟩
  · exact Or.inl h
  · rw [heq] at h
    exact Or.inr ⟨h, hd.id ▸ hne⟩

theorem Unsent.drained (h : s.Unsent id)
    (hmem : stream ∈ s.streams) (hd : s.Drained stream p fs) : (p.1.put p.2).Unsent id := by
  have hne := h.untracked stream hmem
  refine ⟨hd.next ▸ h.lt, (hd.requestFrames_ne hne).trans h.frames, fun t ht => ?_⟩
  rcases hd.mem_put ht with rfl | ⟨ht, -⟩
  · rw [hd.id]
    exact hne
  · exact h.untracked t ht

theorem Sends.drained_ne (h : s.Sends id body)
    (hne : stream.id ≠ id) (hd : s.Drained stream p fs) : (p.1.put p.2).Sends id body := by
  obtain ⟨header, ps, left, hfr, hty, hfl, hps, htr⟩ := h.pieces
  refine ⟨hd.next ▸ h.lt, header, ps, left, (hd.requestFrames_ne hne).trans hfr, hty, hfl,
    hps, fun t ht hid => ?_⟩
  rcases hd.mem_put ht with rfl | ⟨ht, -⟩
  · exact absurd (hd.id.symm.trans hid) hne
  · exact htr t ht hid

theorem requestFrames_sending (s : Session H) (ps : List (List UInt8 × Bool)) (wb : ℕ)
    (stream' : Stream) : ((s.sending (ps.map (dataFrame id true)) wb).put stream').requestFrames id =
      s.requestFrames id ++ ps.map (dataFrame id true) := by
  have hwr : ((s.sending (ps.map (dataFrame id true)) wb).put stream').written =
      s.written ++ ps.map (dataFrame id true) := rfl
  rw [requestFrames_append hwr]
  congr 1
  rw [filter_eq_self]
  intro f hf
  obtain ⟨p, -, rfl⟩ := List.mem_map.1 hf
  simp [dataFrame]

/-- The stream when some pieces have been sent and something may be left. -/
def afterPieces (stream : Stream) (ps : List (List UInt8 × Bool)) (left : List UInt8) : Stream :=
  if left = [] then { spent stream ps with pendingBody := left }.sentEndStream
  else { spent stream ps with pendingBody := left }

theorem afterPieces_tracked (ps : List (List UInt8 × Bool)) (left : List UInt8)
    (hop : stream.localClosed = false) : (afterPieces stream ps left).id = stream.id
      ∧ if left = [] then (afterPieces stream ps left).localClosed = true
        else (afterPieces stream ps left).pendingBody = left
          ∧ (afterPieces stream ps left).endSent = false := by
  unfold afterPieces
  split_ifs with hnil
  · exact ⟨(sentEndStream_sameWindow _).id, sentEndStream_localClosed _⟩
  · have hop' : { spent stream ps with pendingBody := left }.localClosed = false := hop
    exact ⟨rfl, rfl, by rw [Stream.endSent, hop', Bool.false_and]⟩

theorem Sends.drained (h : s.Sends id body) (hs : s.Distinct) (hf : s.find id = some stream)
    (buffer : List UInt8) (cap : ℕ) :
    ((s.drainSendBody stream (.bytes buffer) cap).1.put
      (s.drainSendBody stream (.bytes buffer) cap).2.1).Sends id body := by
  obtain ⟨hmem, hid⟩ := hs.find_iff.1 hf
  rcases drainSendBody_bytes s stream buffer cap with heq | ⟨qs, left', wb, hqs, hop, heq, heq'⟩
  · rw [heq]
    exact h.spares (put_calm hmem (.refl stream)).spares
  · obtain ⟨header, ps, left, hfr, hty, hfl, hps, htr⟩ := h.pieces
    rw [heq, show (s.drainSendBody stream (.bytes buffer) cap).2.1 = afterPieces stream qs left'
      from heq', hid]
    have hold := htr stream hmem hid
    have hne : left ≠ [] := fun hnil => by simp [hnil, hop] at hold
    rw [if_neg hne] at hold
    rw [hold.1] at hqs
    obtain ⟨hid', haf⟩ := afterPieces_tracked qs left' hop
    refine ⟨h.lt, header, ps ++ qs, left', ?_, hty, hfl, ?_, fun t ht htid => ?_⟩
    · simp [requestFrames_sending, hfr]
    · rcases hps with ⟨-, -, hnil⟩ | ⟨hbd, hps⟩
      · exact absurd hnil hne
      · exact Or.inr ⟨hbd, hps.append hne hqs⟩
    · rcases Session.mem_put ht with rfl | ⟨-, hne'⟩
      · exact haf
      · omega

theorem Requests.requestFrames_ne (hr : s.Requests s' hs fs)
    (hne : id ≠ s.nextStreamId) : s'.requestFrames id = s.requestFrames id := by
  refine requestFrames_of_ne hr.written fun f hf hid => ?_
  rcases mem_append.1 hf with hf | hf
  · exact preface_type hf
  rcases mem_append.1 hf with hf | hf
  · exact absurd (hid.symm.trans (hr.headers f hf).1) hne
  · exact absurd (hid.symm.trans (hr.frames f hf).2) hne

theorem Sends.requests (h : s.Sends id body) (hr : s.Requests s' hs fs)
    (hrm : s.hasHeadroom = true) : s'.Sends id body := by
  obtain ⟨header, ps, left, hfr, hty, hfl, hps, htr⟩ := h.pieces
  refine ⟨h.lt.trans (requests_next hr hrm), header, ps, left,
    (hr.requestFrames_ne h.lt.ne).trans hfr, hty, hfl, hps, fun t ht hid => ?_⟩
  rcases hr.streams t ht with ht | ⟨hid', -⟩
  · exact htr t ht hid
  · exact absurd (hid.symm.trans hid') h.lt.ne

theorem Unsent.requests (h : s.Unsent id) (hr : s.Requests s' hs fs)
    (hrm : s.hasHeadroom = true) : s'.Unsent id := by
  refine ⟨h.lt.trans (requests_next hr hrm), (hr.requestFrames_ne h.lt.ne).trans h.frames,
    fun t ht => ?_⟩
  rcases hr.streams t ht with ht | ⟨hid, -⟩
  · exact h.untracked t ht
  · exact hid.trans_ne h.lt.ne'

theorem requestFrames_queueing (hf : s.Fresh) (client wb : ℕ) {endStream : Bool} {f : OutFrame}
    {cs : List OutFrame} (h : HeaderFrames s.nextStreamId endStream f cs) :
    ((s.opened client).queueing (s.preface ++ f :: cs) wb).requestFrames s.nextStreamId = [f] := by
  have hwr : ((s.opened client).queueing (s.preface ++ f :: cs) wb).written =
      s.written ++ (s.preface ++ f :: cs) := rfl
  rw [requestFrames_append hwr, hf.requestFrames,
    nil_append, filter_append, filter_eq_nil_iff.2 fun g hg => ?_, nil_append,
    filter_cons_of_pos (by simp [h.type, h.streamId]),
    filter_eq_nil_iff.2 fun g hg => ?_]
  · simp [(h.rest g hg).1]
  · simp [preface_type hg]

theorem mem_put_queueing {client wb : ℕ} {t : Stream}
    (hid : stream.id = s.nextStreamId)
    (ht : t ∈ (((s.opened client).queueing fs wb).put stream).streams) :
    t = stream ∨ t.id ≠ s.nextStreamId := by
  rcases Session.mem_put ht with rfl | ⟨-, hne⟩
  · exact Or.inl rfl
  · exact Or.inr (hid ▸ hne)

/-- The body of a new stream goes out, or nothing of it. -/
theorem Attached.sends {client : ℕ} {r : RequestAnswers} (h : s.Attached client r s')
    (hf : s.Fresh) (hs : s.Distinct) (hrm : s.hasHeadroom = true) (hbd : r.body = .bytes body) :
    s'.Sends s.nextStreamId body ∨ s'.Unsent s.nextStreamId := by
  have hnx : s.nextStreamId < min (s.nextStreamId + 2) maxStreamId := by
    simp only [hasHeadroom, Bool.and_eq_true, decide_eq_true_eq] at hrm
    have := hrm.2
    omega
  cases h with
  | poisoned _ wb =>
    right
    have hwr := (swapRemove_limits { (s.opened client).queueing s.preface wb with
      encoderPoisoned := true } s.nextStreamId).1
    have hnx' := (swapRemove_fields { (s.opened client).queueing s.preface wb with
      encoderPoisoned := true } s.nextStreamId).1
    have hpr := swapRemove_perm (s := { (s.opened client).queueing s.preface wb with
      encoderPoisoned := true }) (l := s.streams) (r := []) rfl
      (show (s.newStream client).id = s.nextStreamId from rfl) fun t ht => (hs.lt t ht).ne
    refine ⟨hnx'.symm ▸ hnx, ?_, fun t ht => ?_⟩
    · exact (requestFrames_of_ne hwr fun g hg _ => preface_type hg).trans hf.requestFrames
    · have hmem := hpr.mem_iff.1 ht
      rw [append_nil] at hmem
      exact (hs.lt t hmem).ne
  | @ended hnil f cs hhd wb =>
    left
    obtain rfl : body = [] := by simpa [hbd] using hnil
    refine ⟨hnx, f, [], [], requestFrames_queueing hf client wb hhd, hhd.type, hhd.flag,
      Or.inl ⟨rfl, rfl, rfl⟩, fun t ht hid => ?_⟩
    rcases mem_put_queueing (sentEndStream_sameWindow _).id ht with rfl | hne
    · exact sentEndStream_localClosed _
    · exact absurd hid hne
  | @buffered body' hbd' hne f cs hhd wb stream hst t ht =>
    left
    obtain rfl : body' = body := by simpa [hbd] using hbd'.symm
    have hid : stream.id = s.nextStreamId := by rw [hst]; rfl
    have hpn : stream.pendingBody = body' := by rw [hst]
    have hop : stream.localClosed = false := by rw [hst]; rfl
    have hfl : f.endsStream = decide (body' = []) := by
      rw [OutFrame.endsStream, hhd.flag, decide_eq_false hne]
    rcases drainSendBody_bytes t stream body' (2 ^ 64 - 1) with heq | ⟨qs, left, wb', hqs, -, heq, heq'⟩
    · rw [heq, ht]
      refine ⟨hnx, f, [], body', requestFrames_queueing hf client wb hhd, hhd.type, hfl,
        Or.inr ⟨hne, .stop hne⟩, fun u hu huid => ?_⟩
      rcases mem_put_queueing hid hu with rfl | hne'
      · rw [if_neg hne]
        exact ⟨hpn, by rw [Stream.endSent, hop, Bool.false_and]⟩
      · exact absurd huid hne'
    · rw [heq, show (t.drainSendBody stream (.bytes body') (2 ^ 64 - 1)).2.1 =
        afterPieces stream qs left from heq', hid, ht]
      obtain ⟨hid', haf⟩ := afterPieces_tracked qs left hop
      rw [hpn] at hqs
      refine ⟨hnx, f, qs, left, ?_, hhd.type, hfl, Or.inr ⟨hne, hqs⟩, fun u hu huid => ?_⟩
      · rw [requestFrames_sending, requestFrames_queueing hf client wb hhd]
        rfl
      · rcases Session.mem_put hu with rfl | ⟨-, hne'⟩
        · exact haf
        · omega
  | streamed hst _ _ => simp [hbd] at hst

variable {h₀ : H}

/-- No header block, and of the request's body only what is in its buffer. -/
def Input.Interleaves (id : ℕ) : Input → Prop
  | .frame f => f.header.frameType ≠ .headers ∧ f.header.frameType ≠ .continuation
  | .drain id' body _ => id' = id → ∃ buffer, body = .bytes buffer
  | _ => True

/-- Anything that does not touch this stream but drain it. -/
def Activity.Interleaves (id : ℕ) : Activity → Prop
  | .input i => i.Interleaves id
  | .drainAll bodies => ∀ k, ∃ buffer, bodies k id = .bytes buffer

theorem Sends.perform (h : s.Sends id body ∨ s.Unsent id) (hs : s.Distinct)
    (hi : i.Interleaves id) (hp : s.perform dec i = some s') :
    s'.Sends id body ∨ s'.Unsent id := by
  have hsp : s.Spares s' → s'.Sends id body ∨ s'.Unsent id := fun hs' =>
    h.imp (·.spares hs') (·.spares hs')
  cases perform_effect hp with
  | calm hc _ => exact hsp hc.spares
  | headers ht _ => exact absurd ht (not_or.2 hi)
  | data _ hc => exact hsp (.counted hc)
  | settings _ hset => exact hsp (onSettings_adjusts hset).spares
  | windowUpdate _ hupd => exact hsp (onWindowUpdate_adjusts hupd).spares
  | @attach client r hrm =>
    obtain ⟨hs', fs, hreq⟩ := attach_requests s client r
    exact h.imp (·.requests hreq hrm) (·.requests hreq hrm)
  | @drain id' buffer cap stream hf =>
    obtain ⟨fs, hd⟩ := drainSendBody_drained s stream buffer cap
    obtain ⟨hmem, hid⟩ := hs.find_iff.1 hf
    refine h.imp (fun h => ?_) (·.drained hmem hd)
    by_cases hsm : id' = id
    · obtain ⟨bytes, rfl⟩ := hi hsm
      exact h.drained hs (hsm ▸ hf) bytes cap
    · exact h.drained_ne (hid.trans_ne hsm) hd
  | replenish hr => exact hsp (replenishWindow_spares hs hr)

/-- All of the body was sent, and only the last of the request's frames ends the stream. -/
def Whole (s : Session H) (id : ℕ) (body : List UInt8) : Prop :=
  s.sentBody id = body ∧ ∃ fs f, s.requestFrames id = fs ++ [f] ∧ f.endsStream = true
    ∧ ∀ g ∈ fs, g.endsStream = false

theorem sentBody_eq {header : OutFrame} {ps : List (List UInt8 × Bool)}
    (hfr : s.requestFrames id = header :: ps.map (dataFrame id true))
    (hty : header.type = .headers) : s.sentBody id = ps.flatMap Prod.fst := by
  rw [sentBody, hfr, flatMap_cons, flatMap_map, if_neg (by simp [hty]),
    nil_append]
  rfl

theorem endsStream_pieces {ps : List (List UInt8 × Bool)} (h : ∀ p ∈ ps, p.2 = false) :
    ∀ f ∈ ps.map (dataFrame id true), f.endsStream = false := by
  intro f hf
  obtain ⟨p, hp, rfl⟩ := List.mem_map.1 hf
  rw [endsStream_dataFrame, h p hp]

theorem Sends.sent (h : s.Sends id body) :
    s.sentBody id <+: body
    ∧ ((∀ f ∈ s.requestFrames id, f.endsStream = false) ∨ s.Whole id body)
    ∧ ∀ stream, s.find id = some stream → stream.endSent = true → s.Whole id body := by
  obtain ⟨header, ps, left, hfr, hty, hfl, hps, htr⟩ := h.pieces
  have hbd := sentBody_eq hfr hty
  have hen : ∀ stream, s.find id = some stream → stream.endSent = true → left = [] := by
    intro stream hf hen
    by_contra hne
    have := htr stream (mem_of_find hf) (by simpa using find?_some hf)
    simp [hne, hen] at this
  rcases hps with ⟨rfl, rfl, rfl⟩ | ⟨hne, hps⟩
  · have hwh : s.Whole id [] := ⟨hbd, [], header, hfr, by simpa using hfl, by simp⟩
    exact ⟨by rw [hbd]; exact prefix_rfl, Or.inr hwh, fun _ _ _ => hwh⟩
  · have hfs : header.endsStream = false := by simpa [hne] using hfl
    have hall : left = [] → s.Whole id body := by
      rintro rfl
      obtain ⟨qs, piece, rfl, hqs⟩ := hps.marked
      refine ⟨by rw [hbd, ← hps.flatMap_append, append_nil],
        header :: qs.map (dataFrame id true), dataFrame id true (piece, true), ?_,
        endsStream_dataFrame id _, forall_mem_cons.2 ⟨hfs, endsStream_pieces hqs⟩⟩
      rw [hfr, map_append, cons_append, map_singleton]
    refine ⟨⟨left, by rw [hbd, hps.flatMap_append]⟩, ?_, fun t hf ht => hall (hen t hf ht)⟩
    by_cases hnil : left = []
    · exact Or.inr (hall hnil)
    · left
      rw [hfr]
      exact forall_mem_cons.2 ⟨hfs, endsStream_pieces (hps.unmarked hnil)⟩

theorem Unsent.sent (h : s.Unsent id) :
    s.sentBody id <+: body
    ∧ ((∀ f ∈ s.requestFrames id, f.endsStream = false) ∨ s.Whole id body)
    ∧ ∀ stream, s.find id = some stream → stream.endSent = true → s.Whole id body := by
  refine ⟨?_, Or.inl (by simp [h.frames]), fun stream hf _ => ?_⟩
  · simp [sentBody, h.frames]
  · exact absurd (by simpa using find?_some hf) (h.untracked stream (mem_of_find hf))

/-- No frame is written on a stream that is still to be opened. -/
theorem fresh_run {is es : List Input}
    (hr : run (Session.step dec) { hpack := h₀ } is = some (s, es)) :
    s.Fresh ∧ (s.fatalError = none → ∃ w, s.Synced dec h₀ w) := by
  refine run_inv (P := fun s => s.Fresh ∧ (s.fatalError = none → ∃ w, s.Synced dec h₀ w))
    (fun {s s' i e} hP hone => ?_) ⟨by simp [Fresh], fun _ => ⟨_, .init dec h₀⟩⟩ hr
  unfold step at hone
  split_ifs at hone with hft
  obtain ⟨t, hp, heq⟩ := map_eq_some_iff.1 hone
  obtain ⟨rfl, -⟩ := Prod.mk.inj heq
  obtain ⟨w, hs⟩ := hP.2 (by simpa using hft)
  exact ⟨hP.1.perform hs.distinct hp, fun hok => ⟨_, hs.perform hp hok⟩⟩

/-- What is sent of a body is a prefix of it, along every run. -/
theorem sends_run : ∀ {is es : List Input} {s : Session H},
    (s.fatalError = none → ∃ w, s.Synced dec h₀ w) → (s.Sends id body ∨ s.Unsent id) →
      (∀ i ∈ is, i.Interleaves id) → run (Session.step dec) s is = some (s', es) →
        s'.Sends id body ∨ s'.Unsent id
  | [], _, _, _, h, _, hr => (Prod.mk.inj (some.inj hr)).1 ▸ h
  | i :: is, _, s, hs, h, hi, hr => by
    obtain ⟨t, e, es', hone, hrs, -⟩ := run_cons.1 hr
    unfold step at hone
    split_ifs at hone with hft
    obtain ⟨u, hp, heq⟩ := map_eq_some_iff.1 hone
    obtain ⟨rfl, -⟩ := Prod.mk.inj heq
    obtain ⟨w, hsy⟩ := hs (by simpa using hft)
    exact sends_run (fun hok => ⟨_, hsy.perform hp hok⟩)
      (Sends.perform h hsy.distinct (hi i mem_cons_self) hp)
      (fun j hj => hi j (mem_cons_of_mem _ hj)) hrs

theorem Activity.Interleaves.has {a : Activity} (ha : a.Interleaves id) (h : a.Has i) :
    i.Interleaves id := by
  cases a with
  | input j => exact h ▸ ha
  | drainAll bodies =>
    obtain ⟨id', k, cap, rfl⟩ := h
    rintro rfl
    exact ha k

end Session

/-- Of a body in a buffer, the DATA that was written for its stream is a part from the front, in
every state that drains, window updates, settings and whatever else but header blocks lead to. No
frame of the request ends the stream unless the body was sent whole, and then only the last one
does; and a stream that has sent its end has sent all of it so. -/
theorem request_body_sent {H : Type} {dec : Decoder H} {h₀ : H}
    {as₁ as₂ es₁ es₂ : List Session.Activity} {s₁ s : Session H} {client : ℕ} {r : RequestAnswers}
    {body : List UInt8} (h₁ : run (Session.act dec) { hpack := h₀ } as₁ = some (s₁, es₁))
    (h₂ : run (Session.act dec) s₁ (.input (.attach client r) :: as₂) = some (s, es₂))
    (hbody : r.body = .bytes body) (hi : ∀ a ∈ as₂, a.Interleaves s₁.nextStreamId) :
    s.sentBody s₁.nextStreamId <+: body
    ∧ ((∀ f ∈ s.requestFrames s₁.nextStreamId, f.endsStream = false)
      ∨ s.Whole s₁.nextStreamId body)
    ∧ ∀ stream, s.find s₁.nextStreamId = some stream → stream.endSent = true →
      s.Whole s₁.nextStreamId body := by
  obtain ⟨is₁, hr₁, -⟩ := Session.acts_run h₁
  obtain ⟨hfresh, hsync⟩ := Session.fresh_run hr₁
  obtain ⟨t, e, es, hone, hrest, -⟩ := run_cons.1 h₂
  obtain ⟨⟨u, i⟩, hstep, heq⟩ := map_eq_some_iff.1 hone
  obtain ⟨rfl, -⟩ := Prod.mk.inj heq
  unfold Session.step at hstep
  split_ifs at hstep with hfatal
  obtain ⟨u, hp, heq⟩ := map_eq_some_iff.1 hstep
  obtain ⟨rfl, -⟩ := Prod.mk.inj heq
  obtain ⟨w, hs⟩ := hsync (by simpa using hfatal)
  have hpushed : ∀ hok : u.fatalError = none, ∃ w, u.Synced dec h₀ w := fun hok =>
    ⟨_, hs.perform hp hok⟩
  simp only [Session.perform] at hp
  split_ifs at hp with hroom
  obtain rfl := some.inj hp
  have hsends := (Session.attach_attached s₁ client r).sends hfresh hs.distinct hroom hbody
  obtain ⟨is₂, hr₂, hhas⟩ := Session.acts_run hrest
  have hend := Session.sends_run hpushed hsends (fun j hj => by
    obtain ⟨a, ha, hja⟩ := hhas j hj
    exact (hi a ha).has hja) hr₂
  exact hend.elim (·.sent) (·.sent)

/-- A window of two bytes lets two bytes out; with five more the last byte goes out and ends the
stream. -/
theorem request_body_sent_windowed : ∃ (s₁ s : Session Unit) (es₁ es₂ : List Session.Activity),
    run (Session.act noDecoder) { hpack := () } [
        .input (.frame ⟨{ length := 6, type := 4, streamIdentifier := 0 }, [0, 4, 0, 0, 0, 2], rfl,
          by decide, by decide⟩)] = some (s₁, es₁)
      ∧ run (Session.act noDecoder) s₁ [
        .input (.attach 9 { body := .bytes [1, 2, 3] }),
        .drainAll fun _ _ => .bytes [1, 2, 3],
        .input (.frame ⟨{ length := 4, type := 8, streamIdentifier := 1 }, [0, 0, 0, 5], rfl,
          by decide, by decide⟩),
        .drainAll fun _ _ => .bytes [1, 2, 3]] = some (s, es₂)
      ∧ s.Whole 1 [1, 2, 3] := by
  let settings : List Session.Activity := [
    .input (.frame ⟨{ length := 6, type := 4, streamIdentifier := 0 }, [0, 4, 0, 0, 0, 2], rfl,
      by decide, by decide⟩)]
  let drains : List Session.Activity := [
    .drainAll fun _ _ => .bytes [1, 2, 3],
    .input (.frame ⟨{ length := 4, type := 8, streamIdentifier := 1 }, [0, 0, 0, 5], rfl,
      by decide, by decide⟩),
    .drainAll fun _ _ => .bytes [1, 2, 3]]
  have hrun : (run (Session.act noDecoder) { hpack := () } settings).any fun p =>
      p.1.nextStreamId = 1 ∧
      (run (Session.act noDecoder) p.1 (.input (.attach 9 { body := .bytes [1, 2, 3] }) :: drains)).any
        fun q => (q.1.find 1).any Stream.endSent := by decide +kernel
  simp only [Option.any_eq_true, decide_eq_true_eq] at hrun
  obtain ⟨⟨s₁, es₁⟩, h₁, hid, ⟨s, es₂⟩, h₂, stream, hf, hended⟩ := hrun
  have hi : ∀ a ∈ drains, a.Interleaves s₁.nextStreamId :=
    forall_mem_cons.2 ⟨fun _ => ⟨_, rfl⟩, forall_mem_cons.2 ⟨⟨by decide, by decide⟩,
      forall_mem_cons.2 ⟨fun _ => ⟨_, rfl⟩, by simp⟩⟩⟩
  have hwhole := (request_body_sent h₁ h₂ rfl hi).2.2 stream (hid ▸ hf) hended
  exact ⟨s₁, s, es₁, es₂, h₁, h₂, hid ▸ hwhole⟩

/-- Whatever the order of frames, requests and drains: HEADERS and DATA went out on ids that were
used, the streams have ids of their own, and nothing of a request went out on the next id. -/
theorem request_streams_fresh {H : Type} {dec : Decoder H} {h₀ : H} {as es : List Session.Activity}
    {s : Session H} (hr : run (Session.act dec) { hpack := h₀ } as = some (s, es)) :
    (∀ f ∈ s.written, f.type = .headers ∨ f.type = .data → f.streamId < s.nextStreamId)
    ∧ s.requestFrames s.nextStreamId = []
    ∧ (s.fatalError = none → (s.streams.map Stream.id).Nodup
      ∧ ∀ stream ∈ s.streams, 0 < stream.id ∧ stream.id < s.nextStreamId) := by
  obtain ⟨is, hrun, -⟩ := Session.acts_run hr
  obtain ⟨hfresh, hsync⟩ := Session.fresh_run hrun
  refine ⟨hfresh, hfresh.requestFrames, fun hok => ?_⟩
  obtain ⟨w, hs⟩ := hsync hok
  exact ⟨hs.distinct.nodup, fun stream hmem => ⟨hs.distinct.pos stream hmem,
    hs.distinct.lt stream hmem⟩⟩

/-- Two requests on one session. -/
theorem request_streams_fresh_two : ∃ (s : Session Unit) (es : List Session.Activity),
    run (Session.act noDecoder) { hpack := () } [.input (.attach 9 {}), .input (.attach 10 {})] =
      some (s, es) ∧ s.requestFrames s.nextStreamId = [] := by
  have hrun : (run (Session.act noDecoder) { hpack := () }
      [.input (.attach 9 {}), .input (.attach 10 {})]).isSome := by decide +kernel
  obtain ⟨⟨s, es⟩, hr⟩ := Option.isSome_iff_exists.1 hrun
  exact ⟨s, es, hr, (request_streams_fresh hr).2.1⟩

end Cruller.H2
