import Cruller.Lib.Framing
import Cruller.H2.HeaderBlocks

/-!
# Bytes coming in

`parseFrames` of `h2_client/dispatch.zig`, and how `onData` and `onIdleData` of `ClientSession` feed
it: straight from the socket, or from `read_buffer` when a part of a frame was left over. However
the bytes are split, the same frames are dispatched (`onData_segmentation`).
-/

namespace Cruller.H2

open List Option Nat

/-- `FrameHeader.from`, and what follows the header. -/
def readHeader : List UInt8 → Option (FrameHeader × List UInt8)
  | l₀ :: l₁ :: l₂ :: type :: flags :: i₀ :: i₁ :: i₂ :: i₃ :: rest =>
    some ({
      length := beValue [l₀, l₁, l₂], type, flags
      streamIdentifier := uint31FromBytes [i₀, i₁, i₂, i₃] }, rest)
  | _ => none

variable {remaining rest : List UInt8} {header : FrameHeader}

theorem readHeader_spec (h : readHeader remaining = some (header, rest)) :
    header.streamIdentifier < 2 ^ 31 ∧ remaining.length = frameHeaderSize + rest.length
      ∧ ∀ ys, readHeader (remaining ++ ys) = some (header, rest ++ ys) := by
  unfold readHeader at h
  split at h
  · simp only [some.injEq, Prod.mk.injEq] at h
    obtain ⟨rfl, rfl⟩ := h
    refine ⟨mod_lt _ (by decide), ?_, fun _ => rfl⟩
    simp only [length_cons, frameHeaderSize]
    omega
  · simp at h

theorem readHeader_id (h : readHeader remaining = some (header, rest)) :
    header.streamIdentifier < 2 ^ 31 := (readHeader_spec h).1

/-- The frame at the front of `remaining`; one that is too large is never waited for. -/
def nextFrame (remaining : List UInt8) : Front Frame :=
  match hread : readHeader remaining with
  | none => .short
  | some (header, rest) =>
    if hmax : header.length > defaultMaxFrameSize then .bad
    else if hrest : rest.length < header.length then .short
    else .frame ⟨header, rest.take header.length,
        (List.length_take_of_le (not_lt.1 hrest)).symm, not_lt.1 hmax, readHeader_id hread⟩
      (frameHeaderSize + header.length)

/-- A frame is read when its header and payload are there. -/
theorem nextFrame_spec (remaining : List UInt8) :
    (readHeader remaining = none → nextFrame remaining = .short)
    ∧ ∀ {header : FrameHeader} {rest : List UInt8}
      (h : readHeader remaining = some (header, rest)),
      nextFrame remaining = if hmax : header.length > defaultMaxFrameSize then .bad
        else if hrs : rest.length < header.length then .short
        else .frame ⟨header, rest.take header.length,
          (List.length_take_of_le (not_lt.1 hrs)).symm, not_lt.1 hmax, readHeader_id h⟩
          (frameHeaderSize + header.length) := by
  unfold nextFrame
  split
  · rename_i hrd
    exact ⟨fun _ => rfl, fun h => nomatch h.symm.trans hrd⟩
  · rename_i hrd
    refine ⟨fun h => absurd (h.symm.trans hrd) (by simp), fun h => ?_⟩
    obtain ⟨rfl, rfl⟩ := Prod.mk.inj (some.inj (h.symm.trans hrd))
    rfl

/-- Frames are cut off as `nextFrame` finds them. -/
def frames : Framing UInt8 Frame where
  front := nextFrame
  pos {xs f size} h := by
    rcases hread : readHeader xs with _ | ⟨header, rest⟩
    · simp [(nextFrame_spec xs).1 hread] at h
    · rw [(nextFrame_spec xs).2 hread] at h
      split_ifs at h
      obtain ⟨-, rfl⟩ := Front.frame.inj h
      exact Nat.lt_of_lt_of_le (by decide) (Nat.le_add_right frameHeaderSize header.length)
  le {xs f size} h := by
    rcases hread : readHeader xs with _ | ⟨header, rest⟩
    · simp [(nextFrame_spec xs).1 hread] at h
    · rw [(nextFrame_spec xs).2 hread] at h
      split_ifs at h with hmax hrest
      obtain ⟨-, rfl⟩ := Front.frame.inj h
      rw [(readHeader_spec hread).2.1]
      omega
  append {xs} ys h := by
    rcases hread : readHeader xs with _ | ⟨header, rest⟩
    · exact absurd ((nextFrame_spec xs).1 hread) h
    · rw [(nextFrame_spec xs).2 hread] at h ⊢
      rw [(nextFrame_spec _).2 ((readHeader_spec hread).2.2 ys)]
      by_cases hmax : header.length > defaultMaxFrameSize
      · rw [dif_pos hmax, dif_pos hmax]
      rw [dif_neg hmax] at h ⊢
      rw [dif_neg hmax]
      by_cases hrest : rest.length < header.length
      · exact absurd (dif_pos hrest) h
      have hmore : ¬(rest ++ ys).length < header.length := by
        rw [List.length_append]
        omega
      rw [dif_neg hrest, dif_neg hmore, Front.frame.injEq, Frame.mk.injEq]
      exact ⟨⟨rfl, List.take_append_of_le_length (not_lt.1 hrest)⟩, rfl⟩

namespace Session

variable {H : Type}

/-- The session, the frames that were dispatched, and the bytes consumed. -/
def parseFrames (dec : Decoder H) (s : Session H) (buf : List UInt8) :
    Option (Session H × List Frame × ℕ) :=
  frames.read (fun s f => s.dispatchFrame dec f.header f.payload) (fun s => s.fail .frameSizeError)
    (fun s => s.fatalError.isSome) (buf.length + 1) s buf

end Session

/-- A session and its `read_buffer`; `dispatched` records the frames that were handed on, and no
function reads it. -/
structure Reader (H : Type) where
  session : Session H
  readBuffer : List UInt8 := []
  dispatched : List Frame := []

/-- Bytes from the socket, with requests going on or while the session is parked. -/
inductive Read where
  | data (incoming : List UInt8)
  | idleData (incoming : List UInt8)

def Read.incoming : Read → List UInt8
  | .data incoming => incoming
  | .idleData incoming => incoming

namespace Reader

variable {H : Type} (dec : Decoder H)

/-- What is buffered is parsed as far as it goes. -/
def parseBuffered (r : Reader H) (incoming : List UInt8) : Option (Reader H) :=
  let buffer := r.readBuffer ++ incoming
  (r.session.parseFrames dec buffer).map fun (session, parsed, consumed) =>
    { session, readBuffer := buffer.drop consumed, dispatched := r.dispatched ++ parsed }

/-- `onData`, as far as it reads. -/
def onData (r : Reader H) (incoming : List UInt8) : Option (Reader H) :=
  let r := { r with session := { r.session with streamProgressed := false } }
  if r.readBuffer.length = 0 then
    (r.session.parseFrames dec incoming).map fun (session, parsed, consumed) =>
      { session
        readBuffer :=
          if consumed < incoming.length ∧ session.fatalError.isNone then
            r.readBuffer ++ incoming.drop consumed
          else r.readBuffer
        dispatched := r.dispatched ++ parsed }
  else r.parseBuffered dec incoming

/-- What comes while no client is on the connection. -/
def onIdleData (r : Reader H) (incoming : List UInt8) : Option (Reader H) :=
  r.parseBuffered dec incoming

def read (r : Reader H) : Read → Option (Reader H)
  | .data incoming => r.onData dec incoming
  | .idleData incoming => r.onIdleData dec incoming

/-- Call after call; a session that failed is closed and reads no more. -/
def reads : Reader H → List Read → Option (Reader H)
  | r, [] => some r
  | r, x :: xs =>
    if r.session.fatalError.isSome then some r
    else (r.read dec x).bind fun r => r.reads xs

end Reader

namespace Session

variable {H : Type} {dec : Decoder H}

def mark (s : Session H) (progressed : Bool) : Session H :=
  { s with streamProgressed := progressed }

theorem rst_mark (s : Session H) (b : Bool) (stream : Stream) (code : ErrorCode) :
    (s.mark b).rst stream code = ((s.rst stream code).1.mark b, (s.rst stream code).2) := by
  unfold rst
  split_ifs <;> rfl

theorem failStream_mark (s : Session H) (b : Bool) (stream : Stream) (code : ErrorCode)
    (e : Error) : (s.mark b).failStream stream code e = (s.failStream stream code e).mark b := by
  unfold failStream
  rw [rst_mark]
  rfl

theorem applyBlock_mark (s : Session H) (b : Bool) (stream : Stream) (acc : BlockFields) :
    (s.mark b).applyBlock stream acc = (s.applyBlock stream acc).mark b := by
  unfold applyBlock
  simp only [rst_mark]
  split_ifs <;> rfl

theorem decodeHeaderBlock_mark (s : Session H) (b : Bool) (stream : Stream) :
    (s.mark b).decodeHeaderBlock dec stream = (s.decodeHeaderBlock dec stream).mark b := by
  unfold decodeHeaderBlock
  rw [show (s.mark b).hpack = s.hpack from rfl]
  rcases decodeLoop dec Error.compressionError (BlockFields.field stream.statusCode) s.hpack
    { decodedBytes := stream.decodedBytes } stream.headerBlock 0 with ⟨hpack, calls, acc, _ | e⟩
  · exact applyBlock_mark { s with hpack, calls := s.calls ++ calls } b _ _
  · rfl

theorem decodeDiscardOrphan_mark (s : Session H) (b : Bool) :
    (s.mark b).decodeDiscardOrphan dec = (s.decodeDiscardOrphan dec).mark b := by
  unfold decodeDiscardOrphan
  simp only [mark]
  split <;> rfl

theorem applySetting_mark (s : Session H) (b : Bool) (unit : ℕ × ℕ) :
    (s.mark b).applySetting unit = (s.applySetting unit).map fun r => (r.1.mark b, r.2) := by
  unfold applySetting
  split
  · split_ifs <;> rfl
  · rfl
  · rfl
  · simp only [mark]
    split_ifs
    · rfl
    · rcases adjustWindows _ s.streams with _ | ⟨streams, _ | _⟩ <;> rfl
  · rfl

theorem applySettings_mark (s : Session H) (b : Bool) (units : List (ℕ × ℕ)) :
    (s.mark b).applySettings units = (s.applySettings units).map fun r => (r.1.mark b, r.2) := by
  induction units generalizing s with
  | nil => rfl
  | cons unit rest ih =>
    rw [applySettings, applySettings, applySetting_mark]
    rcases s.applySetting unit with _ | ⟨t, _ | _⟩
    · rfl
    · rfl
    · exact ih t

theorem onSettings_mark (s : Session H) (b : Bool) (header : FrameHeader) (payload : List UInt8) :
    (s.mark b).onSettings header payload = (s.onSettings header payload).map (·.mark b) := by
  unfold onSettings
  rw [applySettings_mark]
  split_ifs
  · rfl
  · rfl
  · rfl
  · rfl
  · rcases s.applySettings (settingsUnits payload) with _ | ⟨t, _ | _⟩
    · rfl
    · rfl
    · simp only [bind_eq_bind, map_some, bind_some, not_true, if_false]
      rw [show (t.mark b).writeBuffer = t.writeBuffer from rfl]
      split_ifs <;> rfl

theorem onOrphanHeaders_mark (s : Session H) (b : Bool) (header : FrameHeader)
    (payload : List UInt8) :
    (s.mark b).onOrphanHeaders dec header payload =
      (s.onOrphanHeaders dec header payload).mark b := by
  unfold onOrphanHeaders
  rw [show (s.mark b).isIdle header.streamIdentifier = s.isIdle header.streamIdentifier from rfl]
  by_cases hid : s.isIdle header.streamIdentifier
  · rw [if_pos hid, if_pos hid]
    rfl
  rw [if_neg hid, if_neg hid]
  rcases headersFragment header.flags payload with _ | fragment
  · rfl
  simp only
  split_ifs
  · rfl
  · exact decodeDiscardOrphan_mark { s with orphanHeaderBlock := fragment } b
  · rfl

theorem onContinuation_mark (s : Session H) (b : Bool) (header : FrameHeader)
    (payload : List UInt8) :
    (s.mark b).onContinuation dec header payload =
      (s.onContinuation dec header payload).mark b := by
  unfold onContinuation
  rw [show (s.mark b).expectingContinuation = s.expectingContinuation from rfl,
    show (s.mark b).find s.expectingContinuation = s.find s.expectingContinuation from rfl]
  by_cases hexp : s.expectingContinuation = 0
    ∨ header.streamIdentifier ≠ s.expectingContinuation
  · rw [if_pos hexp, if_pos hexp]
    rfl
  rw [if_neg hexp, if_neg hexp]
  rcases s.find s.expectingContinuation with _ | stream
  · simp only [show (s.mark b).orphanHeaderBlock = s.orphanHeaderBlock from rfl]
    split_ifs
    · rfl
    · exact decodeDiscardOrphan_mark { s with
        orphanHeaderBlock := s.orphanHeaderBlock ++ payload, expectingContinuation := 0 } b
    · rfl
  · simp only
    split_ifs
    · rfl
    · exact decodeHeaderBlock_mark { s with expectingContinuation := 0 } b _
    · exact decodeHeaderBlock_mark { s with expectingContinuation := 0 } b _
    · rfl

theorem onWindowUpdate_mark (s : Session H) (b : Bool) (header : FrameHeader)
    (payload : List UInt8) :
    ((s.mark b).onWindowUpdate header payload).map (·.mark false) =
      (s.onWindowUpdate header payload).map (·.mark false) := by
  unfold onWindowUpdate
  simp only [show (s.mark b).find header.streamIdentifier = s.find header.streamIdentifier from rfl,
    show (s.mark b).connSendWindow = s.connSendWindow from rfl,
    show (s.mark b).isIdle header.streamIdentifier = s.isIdle header.streamIdentifier from rfl]
  by_cases hcn : header.streamIdentifier = 0
  · simp only [if_pos hcn]
    split_ifs
    · rfl
    · rfl
    · rfl
    · rcases intCastI32 (s.connSendWindow + uint31FromBytes (payload.take 4)) <;> rfl
  · simp only [if_neg hcn]
    rcases s.find header.streamIdentifier with _ | stream
    · simp only
      split_ifs <;> rfl
    · simp only [failStream_mark]
      split_ifs
      · rfl
      · rfl
      · rfl
      · rcases intCastI32 (stream.sendWindow + uint31FromBytes (payload.take 4)) <;> rfl

theorem onData_mark (s : Session H) (b : Bool) (header : FrameHeader) (payload : List UInt8) :
    ((s.mark b).onData header payload).mark false = (s.onData header payload).mark false := by
  have hfn : ∀ (t : Session H) (n id : ℕ), { t with connUnackedBytes := n }.find id = t.find id :=
    fun _ _ _ => rfl
  have hid : ∀ (t : Session H) (n id : ℕ),
      { t with connUnackedBytes := n }.isIdle id = t.isIdle id := fun _ _ _ => rfl
  simp only [onData, hfn, hid, show (s.mark b).find = s.find from rfl,
    show (s.mark b).isIdle = s.isIdle from rfl]
  rcases s.find header.streamIdentifier with _ | stream
  · simp only
    split_ifs <;> rfl
  · rfl

/-- A frame is dispatched alike whatever the session's mark. -/
theorem dispatchFrame_mark (dec : Decoder H) (s : Session H) (b : Bool) (header : FrameHeader)
    (payload : List UInt8) :
    ((s.mark b).dispatchFrame dec header payload).map (·.mark false) =
      (s.dispatchFrame dec header payload).map (·.mark false) := by
  unfold dispatchFrame
  simp only [show (s.mark b).expectingContinuation = s.expectingContinuation from rfl,
    show (s.mark b).settingsReceived = s.settingsReceived from rfl]
  split_ifs
  · rfl
  · rfl
  cases header.frameType with
  | settings =>
    simp only [onSettings_mark, Option.map_map]
    rfl
  | windowUpdate => exact onWindowUpdate_mark s b header payload
  | ping =>
    simp only [onPing, show (s.mark b).writeBuffer = s.writeBuffer from rfl]
    split_ifs <;> rfl
  | priority =>
    simp only [onPriority]
    split_ifs <;> rfl
  | headers =>
    simp only [onHeaders, show (s.mark b).find = s.find from rfl]
    rcases s.find header.streamIdentifier with _ | stream
    · simp only [onOrphanHeaders_mark]
      rfl
    · rfl
  | continuation =>
    simp only [onContinuation_mark]
    rfl
  | data => exact congrArg some (onData_mark s b header payload)
  | rstStream =>
    simp only [onRstStream, show (s.mark b).find = s.find from rfl,
      show (s.mark b).isIdle = s.isIdle from rfl]
    rcases s.find header.streamIdentifier with _ | stream
    · simp only
      split_ifs <;> rfl
    · simp only
      split_ifs <;> rfl
  | goaway =>
    simp only [onGoaway]
    split_ifs <;> rfl
  | pushPromise => rfl
  | other value => rfl

variable {s : Session H}

theorem parseFrames_cuts {s' : Session H} {buf : List UInt8} {parsed : List Frame} {k : ℕ}
    (h : s.parseFrames dec buf = some (s', parsed, k)) :
    frames.Cuts buf parsed (buf.drop k) ∧ k ≤ buf.length
      ∧ (s'.fatalError = none → frames.front (buf.drop k) = .short) := by
  obtain ⟨hct, hk, hsh⟩ := Framing.read_cuts (fun _ => rfl) (lt_succ_self _) h
  exact ⟨hct, hk, fun hok => hsh (by rw [hok]; rfl)⟩

theorem parseFrames_append (hs : s.fatalError = none) (xs ys : List UInt8) :
    s.parseFrames dec (xs ++ ys) = (s.parseFrames dec xs).bind fun q =>
      if q.1.fatalError.isSome then some q
      else (q.1.parseFrames dec (xs.drop q.2.2 ++ ys)).map fun p =>
        (p.1, q.2.1 ++ p.2.1, q.2.2 + p.2.2) := by
  unfold parseFrames
  rw [Framing.read_append (fun _ => rfl) ys (by rw [hs]; rfl) (lt_succ_self xs.length)
    (by rw [length_append]; omega)]
  congr 1
  funext ⟨t, parsed, k⟩
  simp only
  split_ifs
  · rfl
  · simp [Framing.read_rounds _ (lt_succ_self (xs.drop k ++ ys).length)]

theorem parseFrames_mark (dec : Decoder H) {t : Session H} (h : s.mark false = t.mark false)
    (buf : List UInt8) :
    (s.parseFrames dec buf).map (fun r => (r.1.mark false, r.2)) =
      (t.parseFrames dec buf).map fun r => (r.1.mark false, r.2) := by
  refine Framing.read_congr (π := fun s : Session H => s.mark false) (fun {s t} f hst => ?_)
    (fun {s t} hst => ?_) (fun {s t} hst => ?_) h buf
  · have hs := dispatchFrame_mark dec s false f.header f.payload
    rw [hst, dispatchFrame_mark] at hs
    exact hs.symm
  · change (s.mark false).fail .frameSizeError = (t.mark false).fail .frameSizeError
    rw [hst]
  · change (s.mark false).fatalError.isSome = (t.mark false).fatalError.isSome
    rw [hst]

end Session

namespace Reader

variable {H : Type} {dec : Decoder H}

/-- What a session looks like from the outside; of a session that failed, nothing is read any more,
so what it leaves behind does not matter. -/
def seen (r : Reader H) : Session H × List Frame × Option (List UInt8) :=
  (r.session.mark false, r.dispatched,
    if r.session.fatalError.isSome then none else some r.readBuffer)

theorem read_eq (dec : Decoder H) (r : Reader H) (x : Read) :
    ∃ b, ∃ left : Session H × List Frame × ℕ → List UInt8,
      r.read dec x =
        ((r.session.mark b).parseFrames dec (r.readBuffer ++ x.incoming)).map (fun q =>
          { session := q.1, readBuffer := left q, dispatched := r.dispatched ++ q.2.1 })
      ∧ ∀ q, q.1.fatalError = none → left q = (r.readBuffer ++ x.incoming).drop q.2.2 := by
  have hbf : ∀ (r : Reader H) (incoming : List UInt8), r.parseBuffered dec incoming =
      (r.session.parseFrames dec (r.readBuffer ++ incoming)).map fun q =>
        { session := q.1
          readBuffer := (r.readBuffer ++ incoming).drop q.2.2
          dispatched := r.dispatched ++ q.2.1 } := fun _ _ => rfl
  rcases x with incoming | incoming
  · by_cases h0 : r.readBuffer.length = 0
    · have hnil : r.readBuffer = [] := eq_nil_of_length_eq_zero h0
      refine ⟨false, fun q => if q.2.2 < incoming.length ∧ q.1.fatalError.isNone then
        r.readBuffer ++ incoming.drop q.2.2 else r.readBuffer, ?_, fun q hok => ?_⟩
      · rw [read, onData]
        simp only [if_pos h0, Read.incoming]
        rw [hnil, nil_append]
        rfl
      · simp only [hnil, hok]
        by_cases hk : q.2.2 < incoming.length
        · simp [hk, Read.incoming]
        · simp [hk, Read.incoming, drop_eq_nil_of_le (not_lt.1 hk)]
    · refine ⟨false, _, ?_, fun q _ => rfl⟩
      rw [read, onData]
      simp only [if_neg h0]
      exact hbf _ _
  · exact ⟨r.session.streamProgressed, _, hbf r incoming, fun q _ => rfl⟩

variable {r r' : Reader H} {bytes : List UInt8}

theorem reads_of_fatal (h : r.session.fatalError.isSome) (xs : List Read) :
    r.reads dec xs = some r := by
  cases xs with
  | nil => rfl
  | cons x xs => rw [reads, if_pos h]

/-- However the bytes come in, it is as if they were parsed at once. -/
theorem reads_seen (xs : List Read) {t : Session H}
    (ht : t.mark false = r.session.mark false) (hok : r.session.fatalError = none)
    (hsh : frames.front r.readBuffer = .short) :
    (r.reads dec xs).map seen =
      (t.parseFrames dec (r.readBuffer ++ xs.flatMap Read.incoming)).map fun q =>
        (q.1.mark false, r.dispatched ++ q.2.1, if q.1.fatalError.isSome then none
          else some ((r.readBuffer ++ xs.flatMap Read.incoming).drop q.2.2)) := by
  induction xs generalizing r t with
  | nil =>
    have hpr : t.parseFrames dec r.readBuffer = some (t, [], 0) := by
      rw [Session.parseFrames, Framing.read, hsh]
    have htok : t.fatalError = none := by
      rw [← hok, show t.fatalError = (t.mark false).fatalError from rfl, ht]
      rfl
    rw [flatMap_nil, append_nil, hpr]
    simp [reads, seen, hok, htok, ht]
  | cons x xs ih =>
    obtain ⟨b, left, hrd, hlf⟩ := read_eq dec r x
    have hbok : (r.session.mark b).fatalError = none := hok
    -- from outside, `t` parses what the session parses
    have hmr := Session.parseFrames_mark dec (s := t) (t := r.session.mark b) ht
      (r.readBuffer ++ (x :: xs).flatMap Read.incoming)
    have hfc : ∀ s : Session H,
        (s.parseFrames dec (r.readBuffer ++ (x :: xs).flatMap Read.incoming)).map (fun q =>
          (q.1.mark false, r.dispatched ++ q.2.1, if q.1.fatalError.isSome then none
            else some ((r.readBuffer ++ (x :: xs).flatMap Read.incoming).drop q.2.2))) =
        ((s.parseFrames dec (r.readBuffer ++ (x :: xs).flatMap Read.incoming)).map fun q =>
          (q.1.mark false, q.2)).map fun q =>
            (q.1, r.dispatched ++ q.2.1, if q.1.fatalError.isSome then none
              else some ((r.readBuffer ++ (x :: xs).flatMap Read.incoming).drop q.2.2)) := by
      intro s
      rw [Option.map_map]
      rfl
    rw [hfc, hmr, ← hfc, flatMap_cons, ← append_assoc,
      Session.parseFrames_append hbok, reads, if_neg (by simp [hok]), hrd]
    rcases hpr : (r.session.mark b).parseFrames dec (r.readBuffer ++ x.incoming) with
      _ | ⟨s', parsed, k⟩
    · rfl
    rw [map_some, bind_some, bind_some]
    simp only
    by_cases hft : s'.fatalError.isSome
    · rw [if_pos hft, reads_of_fatal hft]
      simp [seen, hft]
    · have hok' : s'.fatalError = none := by simpa using hft
      obtain ⟨-, hk, hsh'⟩ := Session.parseFrames_cuts hpr
      have hrs := hlf (s', parsed, k) hok'
      rw [if_neg hft, ih (t := s') rfl hok' (by rw [hrs]; exact hsh' hok'), hrs,
        Option.map_map]
      congr 1
      funext q
      obtain ⟨u, more, j⟩ := q
      simp only [Function.comp_apply]
      rw [← drop_drop, drop_append_of_le_length hk, append_assoc]

theorem reads_eq_read (hok : r.session.fatalError = none)
    (hsh : frames.front r.readBuffer = .short) {xs : List Read} {x : Read}
    (hx : x.incoming = xs.flatMap Read.incoming) :
    (r.reads dec xs).map seen = (r.read dec x).map seen := by
  have hone : r.reads dec [x] = r.read dec x := by
    rw [reads, if_neg (by simp [hok])]
    rcases r.read dec x with _ | r' <;> rfl
  rw [← hone, reads_seen xs rfl hok hsh, reads_seen [x] rfl hok hsh, flatMap_cons,
    flatMap_nil, append_nil, hx]

/-- A read, or what this side does between two reads. -/
inductive Input where
  | read (x : Read)
  | between (i : Session.Input)

def Input.incoming : Input → List UInt8
  | .read x => x.incoming
  | .between _ => []

/-- A read, or something else that happens in between. -/
def perform (dec : Decoder H) (r : Reader H) : Input → Option (Reader H)
  | .read x => r.read dec x
  | .between (.frame _) => none
  | .between i => (r.session.perform dec i).map fun session => { r with session }

/-- Nothing more happens after the first fatal error. -/
def step (dec : Decoder H) (r : Reader H) (i : Input) : Option (Reader H × Input) :=
  if r.session.fatalError.isSome then none else (r.perform dec i).map fun t => (t, i)

/-- The frames dispatched are the first of the bytes; while the session has not failed, they are
all that have come in whole. -/
structure Follows (r : Reader H) (bytes : List UInt8) : Prop where
  cuts : ∃ rest, frames.Cuts bytes r.dispatched rest
  pending : r.session.fatalError = none → frames.Cuts bytes r.dispatched r.readBuffer
    ∧ frames.front r.readBuffer = .short

theorem Follows.read (h : r.Follows bytes)
    (hok : r.session.fatalError = none) {x : Read} (hr : r.read dec x = some r') :
    r'.Follows (bytes ++ x.incoming) := by
  obtain ⟨b, left, hrd, hlf⟩ := read_eq dec r x
  rw [hrd, map_eq_some_iff] at hr
  obtain ⟨⟨s', parsed, k⟩, hpr, rfl⟩ := hr
  obtain ⟨hct, -, hsh⟩ := Session.parseFrames_cuts hpr
  have hall := ((h.pending hok).1.append x.incoming).trans hct
  refine ⟨⟨_, hall⟩, fun hok' => ?_⟩
  rw [show left (s', parsed, k) = _ from hlf (s', parsed, k) hok']
  exact ⟨hall, hsh hok'⟩

/-- What has been dispatched and what is buffered is what was read. -/
theorem Follows.step {i e : Input} (h : r.Follows bytes)
    (hs : r.step dec i = some (r', e)) : r'.Follows (bytes ++ e.incoming) := by
  unfold Reader.step at hs
  split_ifs at hs with hft
  have hok : r.session.fatalError = none := by simpa using hft
  obtain ⟨t, hp, heq⟩ := map_eq_some_iff.1 hs
  obtain ⟨rfl, rfl⟩ := Prod.mk.inj heq
  rcases i with x | i
  · exact h.read hok hp
  · have hsm : t.dispatched = r.dispatched ∧ t.readBuffer = r.readBuffer := by
      unfold perform at hp
      split at hp
      · simp_all
      · simp at hp
      · obtain ⟨s, -, rfl⟩ := map_eq_some_iff.1 hp
        exact ⟨rfl, rfl⟩
    rw [Input.incoming, append_nil]
    exact ⟨hsm.1 ▸ h.cuts, fun _ => hsm.1 ▸ hsm.2 ▸ h.pending hok⟩

theorem step_input {i e : Input} (hs : r.step dec i = some (r', e)) : e = i := by
  unfold Reader.step at hs
  split_ifs at hs
  obtain ⟨t, -, heq⟩ := map_eq_some_iff.1 hs
  exact (Prod.mk.inj heq).2.symm

/-- After a run the frames dispatched are those of all the bytes that came in. -/
theorem follows_run {s : Session H} {is es : List Input}
    (hr : run (Reader.step dec) { session := s } is = some (r, es)) :
    r.Follows (is.flatMap Input.incoming) := by
  have hin : ({ session := s } : Reader H).Follows [] :=
    ⟨⟨[], .nil _⟩, fun _ => ⟨.nil _, rfl⟩⟩
  have hfl := run_foldl (R := fun r bytes => r.Follows bytes)
    (fun h hs => h.step hs) hin hr
  have hip : es = is := by
    rw [← run_map_inputs (g := id) step_input hr, List.map_id]
  rw [hip] at hfl
  have hfd : ∀ (l : List Input) (acc : List UInt8),
      l.foldl (fun bytes e => bytes ++ e.incoming) acc = acc ++ l.flatMap Input.incoming := by
    intro l
    induction l with
    | nil => simp
    | cons i l ih => simp [ih]
  rwa [hfd, nil_append] at hfl

/-- Of two readers of the same bytes, one has dispatched what the other has, and perhaps more; only
one that failed can lag behind, and two that did not have dispatched and left over the same. -/
structure Agree (r q : Reader H) : Prop where
  comparable : r.dispatched <+: q.dispatched ∨ q.dispatched <+: r.dispatched
  ahead : r.session.fatalError = none → q.dispatched <+: r.dispatched
  same : r.session.fatalError = none → q.session.fatalError = none →
    r.dispatched = q.dispatched ∧ r.readBuffer = q.readBuffer

theorem Follows.agree {q : Reader H} (hr : r.Follows bytes)
    (hq : q.Follows bytes) : r.Agree q := by
  obtain ⟨rest, hrs⟩ := hr.cuts
  obtain ⟨rest', hrs'⟩ := hq.cuts
  have hah : r.session.fatalError = none → ∃ mid,
      frames.Cuts bytes r.dispatched r.readBuffer ∧ r.dispatched = q.dispatched ++ mid
      ∧ frames.Cuts rest' mid r.readBuffer := by
    intro hok
    obtain ⟨hct, hsh⟩ := hr.pending hok
    rcases hct.comparable hrs' with ⟨more, hmr, hcut⟩ | ⟨more, hmr, hcut⟩
    · obtain ⟨rfl, rfl⟩ := hcut.of_short hsh
      exact ⟨[], hct, by rw [hmr, append_nil, append_nil], .nil _⟩
    · exact ⟨more, hct, hmr, hcut⟩
  refine ⟨?_, fun hok => ?_, fun hok hok' => ?_⟩
  · rcases hrs.comparable hrs' with ⟨more, hmr, -⟩ | ⟨more, hmr, -⟩
    · exact Or.inl ⟨more, hmr.symm⟩
    · exact Or.inr ⟨more, hmr.symm⟩
  · obtain ⟨mid, -, hmid, -⟩ := hah hok
    exact ⟨mid, hmid.symm⟩
  · obtain ⟨hct, hsh⟩ := hr.pending hok
    obtain ⟨hct', hsh'⟩ := hq.pending hok'
    rcases hct.comparable hct' with ⟨more, hmr, hcut⟩ | ⟨more, hmr, hcut⟩
    · obtain ⟨rfl, hbuf⟩ := hcut.of_short hsh
      exact ⟨by rw [hmr, append_nil], hbuf.symm⟩
    · obtain ⟨rfl, hbuf⟩ := hcut.of_short hsh'
      exact ⟨by rw [hmr, append_nil], hbuf⟩

end Reader

/-- However the bytes are split into calls, the frames dispatched up to and with the first fatal
error, this error, and without one the bytes left pending are those of a single call. Whatever else
happens between the calls, the frames are the same as far as neither session has failed. -/
theorem onData_segmentation {H : Type} {dec : Decoder H} {s : Session H}
    (hs : s.fatalError = none) :
    (∀ (xs : List Read) (x : Read), x.incoming = xs.flatMap Read.incoming →
      (Reader.reads dec { session := s } xs).map Reader.seen =
        (Reader.read dec { session := s } x).map Reader.seen)
    ∧ ∀ (is js : List Reader.Input) (r q : Reader H) (es fs : List Reader.Input),
      is.flatMap Reader.Input.incoming = js.flatMap Reader.Input.incoming →
      run (Reader.step dec) { session := s } is = some (r, es) →
      run (Reader.step dec) { session := s } js = some (q, fs) → r.Agree q := by
  refine ⟨fun xs x hx => Reader.reads_eq_read hs rfl hx, fun is js r q es fs hbytes hr hq => ?_⟩
  have hfollows := Reader.follows_run hq
  rw [← hbytes] at hfollows
  exact (Reader.follows_run hr).agree hfollows

/-- The SETTINGS frame of a server, cut in the middle of its header. -/
theorem onData_segmentation_settings :
    (Reader.reads noDecoder { session := { hpack := () } }
        [.data [0, 0, 0, 4], .data [0, 0, 0, 0, 0]]).map Reader.seen =
      (Reader.read noDecoder { session := { hpack := () } }
        (.data [0, 0, 0, 4, 0, 0, 0, 0, 0])).map Reader.seen
    ∧ ∃ r q es fs,
      run (Reader.step noDecoder) { session := { hpack := () } }
        [.read (.data [0, 0, 0, 4]), .between (.flush 9), .read (.idleData [0, 0, 0, 0, 0])] =
          some (r, es)
      ∧ run (Reader.step noDecoder) { session := { hpack := () } }
        [.read (.data [0, 0, 0, 4, 0, 0, 0, 0, 0])] = some (q, fs)
      ∧ r.Agree q := by
  have hs : ({ hpack := () } : Session Unit).fatalError = none := rfl
  have h := @onData_segmentation Unit noDecoder _ hs
  obtain ⟨⟨r, es⟩, hr⟩ := isSome_iff_exists.1 (show (run (Reader.step noDecoder)
    { session := { hpack := () } } [.read (.data [0, 0, 0, 4]), .between (.flush 9),
      .read (.idleData [0, 0, 0, 0, 0])]).isSome from by decide +kernel)
  obtain ⟨⟨q, fs⟩, hq⟩ := isSome_iff_exists.1 (show (run (Reader.step noDecoder)
    { session := { hpack := () } } [.read (.data [0, 0, 0, 4, 0, 0, 0, 0, 0])]).isSome
      from by decide +kernel)
  exact ⟨h.1 [.data [0, 0, 0, 4], .data [0, 0, 0, 0, 0]] (.data [0, 0, 0, 4, 0, 0, 0, 0, 0]) rfl,
    r, q, es, fs, hr, hq,
    h.2 [.read (.data [0, 0, 0, 4]), .between (.flush 9), .read (.idleData [0, 0, 0, 0, 0])]
      [.read (.data [0, 0, 0, 4, 0, 0, 0, 0, 0])] r q es fs rfl hr hq⟩

/-- What a session that failed leaves in its buffer depends on the path; and a stream that is opened
between two calls makes a frame welcome that would have ended a single one. -/
theorem onData_segmentation_refuted :
    (¬ ∀ (xs : List Read) (x : Read) (r q : Reader Unit),
      x.incoming = xs.flatMap Read.incoming →
      Reader.reads noDecoder { session := { hpack := () } } xs = some r →
      Reader.read noDecoder { session := { hpack := () } } x = some q →
      r.readBuffer = q.readBuffer)
    ∧ ¬ ∀ (is js es fs : List Reader.Input) (r q : Reader Unit),
      is.flatMap Reader.Input.incoming = js.flatMap Reader.Input.incoming →
      run (Reader.step noDecoder) { session := { hpack := () } } is = some (r, es) →
      run (Reader.step noDecoder) { session := { hpack := () } } js = some (q, fs) →
      r.dispatched = q.dispatched := by
  constructor
  · intro h
    -- a PING frame before the server's SETTINGS, and one byte more
    have hdiffer : (Reader.reads noDecoder { session := { hpack := () } }
        [.data [0, 0, 0, 6, 0], .data [0, 0, 0, 0, 7]]).any fun r =>
      (Reader.read noDecoder { session := { hpack := () } }
        (.data [0, 0, 0, 6, 0, 0, 0, 0, 0, 7])).any fun q =>
          decide (r.readBuffer ≠ q.readBuffer) := by decide +kernel
    simp only [Option.any_eq_true, decide_eq_true_eq] at hdiffer
    obtain ⟨r, hr, q, hq, hne⟩ := hdiffer
    exact hne (h [.data [0, 0, 0, 6, 0], .data [0, 0, 0, 0, 7]]
      (.data [0, 0, 0, 6, 0, 0, 0, 0, 0, 7]) r q rfl hr hq)
  · intro h
    -- SETTINGS, RST_STREAM of the first stream, SETTINGS
    have hdiffer : (run (Reader.step noDecoder) { session := { hpack := () } }
        [.read (.data [0, 0, 0, 4, 0, 0, 0, 0, 0, 0, 0, 4, 3, 0, 0, 0, 0, 1, 0, 0, 0, 8,
          0, 0, 0, 4, 0, 0, 0, 0, 0])]).any fun r =>
      (run (Reader.step noDecoder) { session := { hpack := () } }
        [.read (.data [0, 0, 0, 4, 0, 0, 0, 0, 0]), .between (.attach 9 {}),
          .read (.data [0, 0, 4, 3, 0, 0, 0, 0, 1, 0, 0, 0, 8, 0, 0, 0, 4, 0, 0, 0, 0, 0])]).any
        fun q => decide (r.1.dispatched ≠ q.1.dispatched) := by decide +kernel
    simp only [Option.any_eq_true, decide_eq_true_eq] at hdiffer
    obtain ⟨⟨r, es⟩, hr, ⟨q, fs⟩, hq, hne⟩ := hdiffer
    exact hne (h
      [.read (.data [0, 0, 0, 4, 0, 0, 0, 0, 0, 0, 0, 4, 3, 0, 0, 0, 0, 1, 0, 0, 0, 8,
        0, 0, 0, 4, 0, 0, 0, 0, 0])]
      [.read (.data [0, 0, 0, 4, 0, 0, 0, 0, 0]), .between (.attach 9 {}),
        .read (.data [0, 0, 4, 3, 0, 0, 0, 0, 1, 0, 0, 0, 8, 0, 0, 0, 4, 0, 0, 0, 0, 0])]
      es fs r q rfl hr hq)

end Cruller.H2
