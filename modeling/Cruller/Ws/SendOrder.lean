import Cruller.Lib.Throughout
import Cruller.Ws.Outgoing

/-!
# The order of outgoing frames

What the transport has taken and then `send_buffer` are the frames that were sent, in order
(`Ordered`). One step keeps that unless it is one of two (`Send.InOrder`): a pong or a close frame
that is written into a tunnel past bytes that wait in `send_buffer`, and a close frame that is not
taken at once with all that waits, since the client then clears `send_buffer`. A run without such
steps keeps the order (`ordered_run`).
-/

namespace Cruller.Ws

open List Option

namespace WebSocket

variable {tmpLen : ℕ+} {env : Env} {c : WebSocket tmpLen} {sent : List UInt8}

/-- What the body of a close frame may be: `sendCloseWithBody` has room for 125 bytes, and ends the
connection where they are no text. -/
def IsCloseBody (env : Env) (body : List UInt8) : Prop :=
  body.length ≤ 125 ∧ (body ≠ [] → env.validate_utf8 body = true)

/-- The body of the frame that `close` sends. -/
def closeBody (reason : Option (List UInt8)) : List UInt8 :=
  match reason with
  | some str => if str.length ≤ 128 then str else []
  | none => []

/-- What was sent is what the transport has taken and what waits. -/
structure Ordered (c : WebSocket tmpLen) (sent : List UInt8) : Prop where
  ping_frame_bytes : c.ping_frame_bytes.length = 134
  queue : ∃ xs, c.send_buffer.Holds xs ∧ c.transport.taken ++ xs = sent
    ∧ (xs ≠ [] → c.hasTCP)

theorem Ordered.toList (h : c.Ordered sent) :
    c.transport.taken ++ c.send_buffer.toList = sent := by
  obtain ⟨xs, hhl, htk, -⟩ := h.queue
  rw [hhl.toList, htk]

theorem Puts.ordered {P : Prop} {xs bytes : List UInt8} {r : Option (WebSocket tmpLen × Bool)}
    (h : Puts P c xs bytes r) (hP : P) (hpn : c.ping_frame_bytes.length = 134)
    (htcp : c.hasTCP) (hsn : c.transport.taken ++ xs = sent) :
    ∃ next, r = some (next, true) ∧ next.Ordered (sent ++ bytes) := by
  obtain ⟨o, ys, hr, hys, htn, -, hor⟩ := h
  refine ⟨c.withOutput o, hr, hpn, ys, hys, ?_, fun _ => (hasTCP_withOutput htn).trans htcp⟩
  rw [← hsn]
  exact hor hP

/-- The frame that `writeCopy` sends. -/
def sentFrame (env : Env) (c : WebSocket tmpLen) (bytes : Copy) (small : Bool) (opcode : Opcode) :
    List UInt8 :=
  if !c.hasBackpressure ∧ small then c.copied env bytes opcode
  else c.encoded env bytes opcode

theorem ordered_writeCopy (henv : env.Writes) (h : c.Ordered sent) (htcp : c.hasTCP)
    {bytes : Copy} {small : Bool} {opcode : Opcode} (hraw : bytes.isRaw = false) :
    ∃ next, c.writeCopy env bytes small opcode = some next
      ∧ next.Ordered (sent ++ c.sentFrame env bytes small opcode) := by
  obtain ⟨xs, hhl, hsn, -⟩ := h.queue
  have hcn : bytes.isRaw = true → bytes.content ≠ [] := by simp [hraw]
  rw [writeCopy, sentFrame]
  split_ifs with hsm
  · obtain ⟨masks, hcp⟩ := copy_eq env c bytes opcode
    have hne := copied_ne_nil env c opcode hcn
    have hpt := puts_enqueueEncodedBytes (c := c.withOutput { c.output with
      masks := masks }) henv hhl hne htcp
    obtain ⟨next, hnx, hor⟩ := (hpt.of_withOutput rfl rfl rfl).ordered
      (fun _ => eq_nil_of_not_hasBackpressure hhl hsm.1) h.ping_frame_bytes htcp hsn
    refine ⟨next, ?_, hor⟩
    rw [hcp]
    dsimp only
    rw [hnx]
    rfl
  · obtain ⟨next, hnx, hor⟩ := (puts_sendData opcode _ henv hhl hcn
      htcp).ordered trivial h.ping_frame_bytes htcp hsn
    refine ⟨next, ?_, hor⟩
    rw [hnx]
    rfl

theorem ordered_dispatchAbruptClose (h : c.Ordered sent) (code : ErrorCode) :
    (c.dispatchAbruptClose code).Ordered (sent ++ []) := by
  rw [append_nil, dispatchAbruptClose]
  split_ifs
  · exact ⟨h.ping_frame_bytes, h.queue⟩
  · exact h

theorem ordered_handleWritable (henv : env.Writes) (h : c.Ordered sent) :
    ∃ next, c.handleWritable env = some next ∧ next.Ordered (sent ++ []) := by
  rw [handleWritable]
  split_ifs with hcl hem
  · exact ⟨c, rfl, by rwa [append_nil]⟩
  · exact ⟨c, rfl, by rwa [append_nil]⟩
  · obtain ⟨xs, hhl, hsn, htcp⟩ := h.queue
    have hne : xs ≠ [] := by
      rintro rfl
      rw [hhl.readableSlice_zero] at hem
      simp at hem
    obtain ⟨next, hnx, hor⟩ := (puts_sendBuffer henv hhl hne (htcp hne)).ordered trivial
      h.ping_frame_bytes (htcp hne) hsn
    refine ⟨next, ?_, hor⟩
    rw [hnx]
    rfl

/-- A payload for the next pong. -/
def withPing (c : WebSocket tmpLen) (payload : List UInt8) : WebSocket tmpLen :=
  { c with
    ping_frame_bytes := c.ping_frame_bytes.take 6 ++ payload ++
      c.ping_frame_bytes.drop (6 + payload.length)
    ping_len := payload.length }

/-- A pong goes behind what was sent. -/
theorem ordered_sendPong (henv : env.Writes) (h : c.Ordered sent) {payload : List UInt8}
    (hlen : payload.length ≤ 125)
    (hor : c.proxy_tunnel.isSome → c.send_buffer.count = 0) :
    ∃ next ok, (c.withPing payload).sendPong env = some (next, ok) ∧
      next.Ordered (sent ++ if c.hasTCP then pongFrame env c payload else []) := by
  obtain ⟨xs, hhl, hsn, -⟩ := h.queue
  have hpn := h.ping_frame_bytes
  have hpn' : (c.withPing payload).ping_frame_bytes.length = 134 := by
    simp [withPing, hpn]
    omega
  by_cases htcp : c.hasTCP
  · have htk : (c.ping_frame_bytes.take 6).length = 6 := by
      rw [List.length_take, hpn]
      rfl
    have hsl : slice (c.withPing payload).ping_frame_bytes 6 (c.withPing payload).ping_len =
        some payload := by
      rw [slice_eq_some]
      refine ⟨by rw [hpn']; simp only [withPing]; omega, ?_⟩
      simp only [withPing]
      rw [append_assoc, drop_append_of_le_length htk.ge,
        drop_of_length_le htk.le, nil_append, take_left]
    obtain ⟨bytes, hby, hpt⟩ := puts_sendPong (c := c.withPing payload) henv hhl htcp
      hpn' hsl
    have hnil : (c.withPing payload).proxy_tunnel.isSome = true → xs = [] := by
      intro htn
      rw [← length_eq_zero_iff, ← hhl.count]
      exact hor htn
    obtain ⟨next, hnx, hod⟩ := hpt.ordered hnil hby htcp hsn
    rw [if_pos htcp]
    exact ⟨next, true, hnx, hod⟩
  · have hsd : (c.withPing payload).sendPong env =
        some ((c.withPing payload).dispatchAbruptClose .ended, false) := by
      rw [sendPong, if_pos]
      change (!c.hasTCP) = true
      simp [htcp]
    rw [if_neg htcp]
    exact ⟨_, _, hsd, ordered_dispatchAbruptClose ⟨hpn', h.queue⟩ _⟩

/-- The next write takes the frame with all that waits before it. -/
def takesWhole (env : Env) (c : WebSocket tmpLen) (frame : List UInt8) : Bool :=
  if c.proxy_tunnel.isSome ∨ !c.hasBackpressure then
    (env.write c.transport.writes frame).any fun answer => answer.1 = frame.length
  else
    (c.send_buffer.writeWithSize frame).any fun send_buffer =>
      (env.write c.transport.writes (send_buffer.readableSlice 0)).any fun answer =>
        send_buffer.count ≤ answer.1

theorem count_of_takesWhole {frame : List UInt8} {xs : List UInt8}
    (h : c.send_buffer.Holds xs) (hne : frame ≠ []) (htcp : c.hasTCP)
    (hor : c.proxy_tunnel.isSome → xs = []) (hwh : c.takesWhole env frame)
    {next : WebSocket tmpLen} {ok : Bool}
    (hr : c.enqueueEncodedBytes env frame = some (next, ok)) : next.send_buffer.count = 0 := by
  unfold takesWhole at hwh
  rw [enqueueEncodedBytes] at hr
  split_ifs at hwh hr with hnow
  · have hnil : xs = [] := hnow.elim hor (eq_nil_of_not_hasBackpressure h)
    obtain ⟨⟨wrote, backpressure⟩, hwr, htk⟩ := (Option.any_eq_true _ _).1 hwh
    have hlen : ¬ wrote < frame.length := by
      simp only [decide_eq_true_eq] at htk
      omega
    rw [write, hwr] at hr
    simp only [hlen, if_false, some.injEq, Prod.mk.injEq] at hr
    rw [← hr.1]
    simpa [hnil] using h.count
  · rw [copyToSendBuffer_eq hne, buffer] at hr
    obtain ⟨g, hg, hany⟩ := (Option.any_eq_true _ _).1 hwh
    obtain ⟨⟨wrote, backpressure⟩, hwr, htk⟩ := (Option.any_eq_true _ _).1 hany
    have hop : ¬ (c.proxy_tunnel = none ∧ c.tcp.isClosed = true) := by
      rintro ⟨hno, hcl⟩
      simp [hasTCP, hno, hcl] at htcp
    simp only [decide_eq_true_eq] at htk
    simp only [hg, bind_eq_bind, bind_some, if_true, sendBuffer, hop, if_false,
      write, hwr] at hr
    split_ifs at hr
    simp only [some.injEq, Prod.mk.injEq] at hr
    rw [← hr.1]
    simp only [LinearFifo.discard]
    omega

/-- A close frame goes behind what was sent, if the transport takes it whole. -/
theorem ordered_sendCloseWithBody (henv : env.Writes) (h : c.Ordered sent) {code : ℕ}
    {body : List UInt8} (hbody : IsCloseBody env body)
    (hor : c.proxy_tunnel.isSome → c.send_buffer.count = 0)
    (hwh : c.hasTCP → c.takesWhole env (closeFrame env c code body)) :
    ∃ next, c.sendCloseWithBody env code body = some next ∧
      next.Ordered (sent ++ if c.hasTCP then closeFrame env c code body else []) := by
  obtain ⟨xs, hhl, hsn, hxs⟩ := h.queue
  by_cases htcp : c.hasTCP
  · have hnil : c.proxy_tunnel.isSome = true → xs = [] := by
      intro htn
      rw [← length_eq_zero_iff, ← hhl.count]
      exact hor htn
    have hne := closeFrame_ne_nil env c code body
    obtain ⟨o, ys, hr, hys, -, -, htk⟩ := puts_enqueueEncodedBytes (c := { c with
      masks := c.masks + 1 }) henv hhl hne htcp
    have hcn := count_of_takesWhole (c := { c with masks := c.masks + 1 }) hhl hne
      htcp hnil (hwh htcp) hr
    have hys_nil : ys = [] := by
      rw [← length_eq_zero_iff, ← hys.count]
      exact hcn
    rw [sendCloseWithBody_eq htcp hbody.1 hbody.2, if_pos htcp, hr, bind_some]
    refine ⟨_, rfl, ?_⟩
    rw [if_pos rfl]
    have hcl : (({ c with masks := c.masks + 1 } : WebSocket tmpLen).withOutput
        o).clearData.Ordered (sent ++ closeFrame env c code body) := by
      refine ⟨h.ping_frame_bytes, [], LinearFifo.holds_initDynamic, ?_, fun hne => absurd rfl hne⟩
      have hor' := htk hnil
      rw [hys_nil] at hor'
      rw [← hsn]
      exact hor'
    rw [dispatchClose]
    split_ifs
    · exact ⟨hcl.ping_frame_bytes, hcl.queue⟩
    · exact hcl
  · have hnil : xs = [] := by
      by_contra hne
      exact htcp (hxs hne)
    rw [sendCloseWithBody, if_pos (by simp [htcp]), if_neg htcp]
    refine ⟨_, rfl, ?_⟩
    have hab := ordered_dispatchAbruptClose h .ended
    obtain ⟨zs, hzs, htk, -⟩ := hab.queue
    have hsm : (c.dispatchAbruptClose .ended).send_buffer = c.send_buffer := by
      rw [dispatchAbruptClose]
      split_ifs <;> rfl
    have hzs_nil : zs = [] := by
      rw [← length_eq_zero_iff, ← hzs.count, hsm, hhl.count, hnil]
      rfl
    refine ⟨hab.ping_frame_bytes, [], LinearFifo.holds_initDynamic, ?_, fun hne => absurd rfl hne⟩
    rw [hzs_nil] at htk
    exact htk

end WebSocket

/-- What makes the client send, and what happens to its transport. A ping that the server sent is
answered by a pong, and its close frame by one. -/
inductive Send (env : Env) where
  | writeString (str : ReceivedText) (op : ℕ)
  | writeBinaryData (data : List UInt8) (op : ℕ)
  | writeBlob (blob_value : Option (List UInt8)) (op : ℕ)
  | close (code : ℕ)
      (reason : { reason // WebSocket.IsCloseBody env (WebSocket.closeBody reason) })
  | sendPong (payload : { payload : List UInt8 // payload.length ≤ 125 })
  | sendCloseWithBody (code : ℕ) (body : { body // WebSocket.IsCloseBody env body })
  | handleWritable
  | tunnelDrained (hasBackpressure : Bool)

inductive AssertionFailed where
  | assertionFailed
deriving DecidableEq

namespace Send

variable {tmpLen : ℕ+} (env : Env) (c : WebSocket tmpLen)

/-- The state behind a call; `none` is a failed assertion. -/
def step : Send env → Option (WebSocket tmpLen)
  | writeString str op => c.writeString env str op
  | writeBinaryData data op => c.writeBinaryData env data op
  | writeBlob blob_value op => c.writeBlob env blob_value op
  | close code reason => c.close env code reason.1
  | sendPong payload => ((c.withPing payload.1).sendPong env).map Prod.fst
  | sendCloseWithBody code body => c.sendCloseWithBody env code body.1
  | handleWritable => c.handleWritable env
  | tunnelDrained hasBackpressure =>
    some { c with proxy_tunnel := c.proxy_tunnel.map fun _ => ⟨hasBackpressure⟩ }

/-- The encoded frame that is sent; none without a connection. -/
def frame : Send env → List UInt8
  | writeString (.latin1 slice) op =>
    if c.hasTCP then
      c.sentFrame env (.latin1 slice)
        (slice.length < WebSocket.stack_frame_size ∧
          WebsocketHeader.frameSizeIncludingMask (WebSocket.Copy.latin1 slice).content.length
            < WebSocket.stack_frame_size) (.enumFromInt (op % 16))
    else []
  | writeString (.utf16 slice) op =>
    if c.hasTCP then
      c.sentFrame env (.utf16 slice) (slice.length * 4 < WebSocket.stack_frame_size)
        (.enumFromInt (op % 16))
    else []
  | writeBinaryData data op =>
    if !c.hasTCP ∨ op > 0xF then []
    else c.sentFrame env (.bytes data)
      (WebsocketHeader.frameSizeIncludingMask data.length < WebSocket.stack_frame_size)
      (.enumFromInt op)
  | writeBlob (some data) op =>
    if !c.hasTCP ∨ op > 0xF then []
    else c.sentFrame env (.bytes data)
      (data ≠ [] ∧
        WebsocketHeader.frameSizeIncludingMask data.length < WebSocket.stack_frame_size)
      (.enumFromInt op)
  | close code reason =>
    if c.hasTCP then c.closeFrame env code (WebSocket.closeBody reason.1) else []
  | sendPong payload => if c.hasTCP then c.pongFrame env payload.1 else []
  | sendCloseWithBody code body => if c.hasTCP then c.closeFrame env code body.1 else []
  | writeBlob none _ | handleWritable | tunnelDrained _ => []

/-- A close frame has nothing before it and is taken whole. -/
def ClosesInOrder (code : ℕ) (body : List UInt8) : Prop :=
  (c.proxy_tunnel.isSome → c.send_buffer.count = 0)
    ∧ (c.hasTCP → c.takesWhole env (c.closeFrame env code body))

/-- In a tunnel nothing waits when a pong or a close frame is sent, and a close frame is taken at
once with all that waits. -/
def InOrder : Send env → Prop
  | sendPong _ => c.proxy_tunnel.isSome → c.send_buffer.count = 0
  | close code reason => ClosesInOrder env c code (WebSocket.closeBody reason.1)
  | sendCloseWithBody code body => ClosesInOrder env c code body.1
  | _ => True

instance (code : ℕ) (body : List UInt8) : Decidable (ClosesInOrder env c code body) :=
  inferInstanceAs (Decidable (_ ∧ _))

instance (s : Send env) : Decidable (s.InOrder env c) :=
  match s with
  | sendPong _ => inferInstanceAs (Decidable (c.proxy_tunnel.isSome → _ = 0))
  | close code reason =>
    inferInstanceAs (Decidable (ClosesInOrder env c code (WebSocket.closeBody reason.1)))
  | sendCloseWithBody code body => inferInstanceAs (Decidable (ClosesInOrder env c code body.1))
  | writeString _ _ | writeBinaryData _ _ | writeBlob _ _ | handleWritable | tunnelDrained _ =>
    isTrue trivial

/-- The step, with the frames that were sent so far. -/
def apply (p : WebSocket tmpLen × List UInt8) (s : Send env) :
    Except AssertionFailed (WebSocket tmpLen × List UInt8) :=
  match s.step env p.1 with
  | some next => .ok (next, p.2 ++ s.frame env p.1)
  | none => .error .assertionFailed

variable {env c} {sent : List UInt8}

/-- A call puts its frame behind what was sent. -/
theorem ordered_step (henv : env.Writes) (h : c.Ordered sent) (s : Send env)
    (hor : s.InOrder env c) :
    ∃ next, s.step env c = some next ∧ next.Ordered (sent ++ s.frame env c) := by
  have hnn : ∀ code, ∃ next, some (c.dispatchAbruptClose code) = some next ∧
      next.Ordered (sent ++ []) :=
    fun code => ⟨_, rfl, WebSocket.ordered_dispatchAbruptClose h code⟩
  cases s with
  | writeString str op =>
    cases str with
    | latin1 slice =>
      simp only [step, frame, WebSocket.writeString]
      by_cases htcp : c.hasTCP = true
      · rw [if_neg (by simp [htcp]), if_pos htcp]
        exact WebSocket.ordered_writeCopy henv h htcp rfl
      · rw [if_pos (by simpa using htcp), if_neg htcp]
        exact hnn .ended
    | utf16 slice =>
      simp only [step, frame, WebSocket.writeString]
      by_cases htcp : c.hasTCP = true
      · rw [if_neg (by simp [htcp]), if_pos htcp]
        exact WebSocket.ordered_writeCopy henv h htcp rfl
      · rw [if_pos (by simpa using htcp), if_neg htcp]
        exact hnn .ended
  | writeBinaryData data op =>
    simp only [step, frame, WebSocket.writeBinaryData]
    split_ifs with hrf
    · exact hnn .ended
    · exact WebSocket.ordered_writeCopy henv h (by simpa using fun hno => hrf (Or.inl hno)) rfl
  | writeBlob blob_value op =>
    cases blob_value with
    | none =>
      simp only [step, frame, WebSocket.writeBlob, ite_self]
      exact hnn .ended
    | some data =>
      simp only [step, frame, WebSocket.writeBlob]
      split_ifs with hrf
      · exact hnn .ended
      · exact WebSocket.ordered_writeCopy henv h (by simpa using fun hno => hrf (Or.inl hno))
          rfl
  | close code reason =>
    obtain ⟨reason, hbody⟩ := reason
    have hsn := WebSocket.ordered_sendCloseWithBody henv h hbody hor.1 hor.2
    simp only [step, frame, WebSocket.close]
    by_cases htcp : c.hasTCP = true
    · rw [if_neg (by simp [htcp])]
      rcases reason with _ | str
      · exact hsn
      · simp only [WebSocket.closeBody] at hsn ⊢
        split_ifs at hsn ⊢ <;> exact hsn
    · rw [if_pos (by simpa using htcp), if_neg htcp, append_nil]
      exact ⟨c, rfl, h⟩
  | sendPong payload =>
    obtain ⟨next, ok, hnx, hod⟩ := WebSocket.ordered_sendPong henv h payload.2 hor
    exact ⟨next, by rw [step, hnx]; rfl, hod⟩
  | sendCloseWithBody code body =>
    exact WebSocket.ordered_sendCloseWithBody henv h body.2 hor.1 hor.2
  | handleWritable => exact WebSocket.ordered_handleWritable henv h
  | tunnelDrained hasBackpressure =>
    obtain ⟨xs, hhl, hst, htcp⟩ := h.queue
    refine ⟨_, rfl, h.ping_frame_bytes, xs, hhl, by rw [frame, append_nil]; exact hst,
      fun hne => ?_⟩
    have hsm := htcp hne
    rw [WebSocket.hasTCP] at hsm ⊢
    rwa [isSome_map]

/-- Every run of sends in order leaves the bytes in order, and none crashes. -/
theorem ordered_run (henv : env.Writes) (h : c.Ordered sent) {steps : List (Send env)}
    (hst : Meets (apply env) (fun p s => s.InOrder env p.1) (c, sent) steps) :
    Ends (fun p => p.1.Ordered p.2) (fun _ => False) (steps.foldlM (apply env) (c, sent)) := by
  refine ends_foldlM (fun p s hp hs => ?_) h hst
  obtain ⟨next, hnx, hor⟩ := ordered_step henv hp s hs
  rw [apply, hnx]
  exact hor

end Send

/-- What the transport has taken and what waits are the frames in the order they were sent. -/
theorem Send.frames_of_run {tmpLen : ℕ+} {env : Env} (henv : env.Writes)
    {proxy_tunnel : Option WebSocketProxyTunnel} {deflate_params : Bool}
    {buffered_data : List UInt8} {c : WebSocket tmpLen}
    (hinit : WebSocket.init proxy_tunnel deflate_params buffered_data = some c)
    {steps : List (Send env)}
    (hsteps : Meets (apply env) (fun p s => s.InOrder env p.1) (c, []) steps) :
    Ends (fun p => p.1.transport.taken ++ p.1.send_buffer.toList = p.2) (fun _ => False)
      (steps.foldlM (apply env) (c, [])) := by
  obtain ⟨send_buffer, receive_buffer, heq, hholds, -⟩ :=
    @WebSocket.init_eq tmpLen proxy_tunnel deflate_params buffered_data
  have hthis := some.inj (hinit.symm.trans heq)
  have hstart : c.Ordered [] := by
    subst hthis
    exact ⟨rfl, [], hholds, rfl, fun hne => absurd rfl hne⟩
  exact (ordered_run henv hstart hsteps).imp fun p => WebSocket.Ordered.toList

/-- A socket that takes ten bytes at a time, and then all at once. -/
theorem Send.frames_of_run_short_writes :
    ∃ (env : Env) (c : WebSocket 1) (steps : List (Send env)),
      WebSocket.init none false [] = some c
      ∧ Meets (apply env) (fun p s => s.InOrder env p.1) (c, []) steps
      ∧ Ends (fun p => p.1.transport.taken ++ p.1.send_buffer.toList = p.2) (fun _ => False)
        (steps.foldlM (apply env) (c, [])) := by
  obtain ⟨c, hthis⟩ : ∃ c : WebSocket 1, c =
    (WebSocket.init none false []).get (WebSocket.isSome_init _ _ _) := ⟨_, rfl⟩
  have hinit : WebSocket.init none false [] = some c := by rw [hthis, some_get]
  have hsteps : Meets (apply (Env.reference fun n => if n < 3 then 10 else 1000))
      (fun p s => s.InOrder (Env.reference fun n => if n < 3 then 10 else 1000) p.1) (c, [])
      [.writeString (.latin1 [104, 105]) 1, .writeBinaryData [1, 2, 3, 4, 5, 6] 2,
        .sendPong ⟨[7], by decide⟩, .handleWritable, .handleWritable,
        .close 1000 ⟨none, Nat.zero_le _, fun h => absurd rfl h⟩] := by
    rw [hthis]
    decide +kernel
  exact ⟨_, c, _, hinit, hsteps, frames_of_run (Env.writes_reference _) hinit hsteps⟩

/-- In a tunnel that holds bytes back, a pong overtakes a text that was sent before it. -/
theorem Send.frames_of_run_refuted :
    ¬ ∀ (env : Env) (proxy_tunnel : Option WebSocketProxyTunnel) (c : WebSocket 1)
      (steps : List (Send env)), env.Writes → WebSocket.init proxy_tunnel false [] = some c →
      Ends (fun p => p.1.transport.taken ++ p.1.send_buffer.toList = p.2) (fun _ => False)
        (steps.foldlM (apply env) (c, [])) := by
  intro h
  obtain ⟨c, hthis⟩ : ∃ c : WebSocket 1, c =
    (WebSocket.init (some ⟨true⟩) false []).get (WebSocket.isSome_init _ _ _) := ⟨_, rfl⟩
  have hrun := h (Env.reference fun _ => 1000) (some ⟨true⟩) c
    [.writeString (.latin1 [104, 105]) 1, .sendPong ⟨[7], by decide⟩] (Env.writes_reference _)
    (by rw [hthis, some_get])
  rw [hthis] at hrun
  revert hrun
  decide +kernel

end Cruller.Ws
