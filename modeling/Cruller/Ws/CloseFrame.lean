import Cruller.Ws.Reassembly

/-!
# Cut close frames

Once a call has looked for the body of a close frame, `receive_body_remain` counts what has come of
it, and the next call takes the count for the length of the body. From the second byte on it is told
by `close_frame_buffering` what the count means. But where nothing of the body has come, the frame is
an empty one, and where one byte has come it has a length that no close frame has. All other cuts do
no harm (`handleAll_close`).
-/

namespace Cruller.Ws

open List Option

namespace ServerFrame

/-- Without a body, or with a code and a reason. -/
def Closes (f : ServerFrame) : Prop :=
  f.opcode = .Close ∧ f.final = true
    ∧ (f.payload = [] ∨ 2 ≤ f.payload.length ∧ f.payload.length ≤ 125
      ∧ Text.Valid (f.payload.drop 2))

instance (f : ServerFrame) : Decidable f.Closes := inferInstanceAs (Decidable (_ ∧ _))

/-- What a close frame says. -/
def closed (f : ServerFrame) : Seen :=
  if f.payload = [] then .closed 1000 []
  else .closed (WebSocket.closeCode (readInt (f.payload.take 2))) (f.payload.drop 2)

theorem Closes.length_le {f : ServerFrame} (h : f.Closes) : f.payload.length ≤ 125 := by
  rcases h.2.2 with hnil | ⟨-, hle, -⟩
  · simp [hnil]
  · exact hle

theorem Closes.two_le {f : ServerFrame} (h : f.Closes) (hne : f.payload ≠ []) :
    2 ≤ f.payload.length ∧ Text.Valid (f.payload.drop 2) :=
  ⟨(h.2.2.resolve_left hne).1, (h.2.2.resolve_left hne).2.2⟩

end ServerFrame

/-- A call ends where `n` bytes are still to come. -/
def EndsBefore (calls : List (List UInt8)) (n : ℕ) : Prop :=
  n ∈ calls.tails.map fun after => after.flatten.length

instance (calls : List (List UInt8)) (n : ℕ) : Decidable (EndsBefore calls n) :=
  inferInstanceAs (Decidable (_ ∈ _))

variable {n : ℕ} {calls : List (List UInt8)}

@[simp] theorem endsBefore_nil : EndsBefore [] n ↔ n = 0 := by simp [EndsBefore]

theorem endsBefore_cons {data : List UInt8} :
    EndsBefore (data :: calls) n ↔ n = (data :: calls).flatten.length ∨ EndsBefore calls n := by
  simp [EndsBefore]

theorem EndsBefore.le (h : EndsBefore calls n) :
    n ≤ calls.flatten.length := by
  induction calls with
  | nil => simp [endsBefore_nil.1 h]
  | cons data calls ih =>
    rcases endsBefore_cons.1 h with rfl | h
    · exact le_rfl
    · have := ih h
      simp only [flatten_cons, length_append]
      omega

theorem endsBefore_length (calls : List (List UInt8)) : EndsBefore calls calls.flatten.length := by
  rcases calls with _ | ⟨data, calls⟩
  · simp
  · exact endsBefore_cons.2 (Or.inl rfl)

/-- What is seen of a close frame when it comes in these calls. -/
def ServerFrame.closedBy (f : ServerFrame) (calls : List (List UInt8)) : Seen :=
  if f.payload = [] ∨ EndsBefore calls f.payload.length then .closed 1000 []
  else if EndsBefore calls (f.payload.length - 1) then .lost .invalid_control_frame
  else f.closed

/-- No call ends one byte behind the header of the close frame, and none right behind the header
unless an empty frame would do as well. -/
def ServerFrame.CutWell (f : ServerFrame) (calls : List (List UInt8)) : Prop :=
  f.payload = []
    ∨ if EndsBefore calls f.payload.length then f.closed = .closed 1000 []
      else ¬ EndsBefore calls (f.payload.length - 1)

instance (f : ServerFrame) (calls : List (List UInt8)) : Decidable (f.CutWell calls) :=
  inferInstanceAs (Decidable (_ ∨ _))

/-- The code is seen as it was sent, just where the calls cut the frame well. -/
theorem ServerFrame.closedBy_eq_closed_iff {f : ServerFrame} :
    f.closedBy calls = f.closed ↔ f.CutWell calls := by
  rw [closedBy, CutWell]
  by_cases hnil : f.payload = []
  · simp [closed, hnil]
  by_cases hend : EndsBefore calls f.payload.length
  · simp only [hnil, hend, or_true, if_true, false_or]
    exact eq_comm
  by_cases hone : EndsBefore calls (f.payload.length - 1)
  · simp [hnil, hend, hone, closed]
  · simp [hnil, hend, hone]

theorem ServerFrame.closedBy_whole {f : ServerFrame} (hcl : f.Closes)
    (before : List (List UInt8)) (front : List UInt8) :
    f.closedBy (before ++ [front ++ f.encode]) = f.closed := by
  have hec : f.payload.length < f.encode.length := by
    simp [ServerFrame.encode]
    omega
  have hen : ∀ n, EndsBefore (before ++ [front ++ f.encode]) n → n = 0 ∨ f.encode.length ≤ n := by
    intro n h
    induction before with
    | nil =>
      rcases endsBefore_cons.1 h with rfl | h
      · simp
      · exact Or.inl (endsBefore_nil.1 h)
    | cons data before ih =>
      rcases endsBefore_cons.1 h with rfl | h
      · simp
        omega
      · exact ih h
  rw [closedBy_eq_closed_iff, CutWell]
  by_cases hnil : f.payload = []
  · exact Or.inl hnil
  obtain ⟨htwo, -⟩ := hcl.two_le hnil
  right
  rw [if_neg fun h => absurd (hen _ h) (by omega)]
  exact fun h => absurd (hen _ h) (by omega)

namespace WebSocket

variable {tmpLen : ℕ+} {env : Env} {c : WebSocket tmpLen} {l : Receiving} {f : ServerFrame}
  {data later got left : List UInt8}

/-- The connection is open. -/
structure Open (c : WebSocket tmpLen) : Prop where
  outgoing : c.outgoing_websocket = true
  hasTCP : c.hasTCP = true
  ping_bytes : c.ping_frame_bytes.length = 134
  sends : ∃ xs, c.send_buffer.Holds xs

theorem dispatchClose_dispatched (h : c.outgoing_websocket = true) (code : ℕ)
    (reason : List UInt8) :
    (c.dispatchClose code reason).dispatched = c.dispatched ++ [.didClose code reason] := by
  rw [dispatchClose, if_pos h]
  rfl

theorem sendCloseWithBody_dispatched (henv : env.Writes) (hop : c.Open) (code : ℕ)
    {body : List UInt8} (hlen : body.length ≤ 125)
    (hvl : body ≠ [] → env.validate_utf8 body = true) :
    ∃ c', c.sendCloseWithBody env code body = some c'
      ∧ c'.dispatched = c.dispatched ++ [.didClose code body] := by
  obtain ⟨xs, hhl⟩ := hop.sends
  obtain ⟨o, _, hr, -⟩ := @puts_enqueueEncodedBytes tmpLen env { c with masks := c.masks + 1 } xs _
    henv hhl (closeFrame_ne_nil env c code body) hop.hasTCP
  refine ⟨_, by rw [sendCloseWithBody_eq hop.hasTCP hlen hvl, hr, bind_some], ?_⟩
  rw [if_pos rfl]
  refine dispatchClose_dispatched ?_ code body
  exact hop.outgoing

theorem sendClose_dispatched (henv : env.Writes) (hop : c.Open) :
    ∃ c', c.sendClose env = some c' ∧ c'.dispatched = c.dispatched ++ [.didClose 1000 []] :=
  sendCloseWithBody_dispatched henv hop 1000 (by simp) (fun h => absurd rfl h)

/-- The last call of `CppWebSocket`; what comes later is ignored. -/
structure Done (c c' : WebSocket tmpLen) (seen : Seen) : Prop where
  dispatched : c'.dispatched.map Dispatch.seen = c.dispatched.map Dispatch.seen ++ [seen]
  close_received : c'.close_received = true

theorem handleAll_of_close_received (h : c.close_received = true) (calls : List (List UInt8)) :
    c.handleAll env calls = some c := by
  induction calls with
  | nil => rfl
  | cons data calls ih =>
    rw [handleAll, foldlM_cons, handleData, if_pos h]
    exact ih

/-- A control frame of which a part has come. -/
structure Body (c : WebSocket tmpLen) (l : Receiving) (f : ServerFrame) (got left : List UInt8) :
    Prop where
  length : c.ping_len = f.payload.length
  remain : l.receive_body_remain = got.length
  lies : Lies c.ping_frame_bytes 6 got
  payload : f.payload = got ++ left

/-- The body is complete and the frame is answered, or all of the data is put behind what there is. -/
theorem bufferClose_cases (henv : env.Writes)
    (hutf8 : ∀ bytes, Text.Valid bytes → env.validate_utf8 bytes = true) (hop : c.Open)
    (hcl : f.Closes) (hne : f.payload ≠ []) (hbd : c.Body l f got left)
    (hrs : left = l.data ++ later) :
    (later = [] ∧ ∃ c', c.bufferClose env l = some (c', { l with
        receive_body_remain := f.payload.length
        data := []
        terminated := true }, .break) ∧ c'.dispatched.map Dispatch.seen =
          c.dispatched.map Dispatch.seen ++ [f.closed])
      ∨ later ≠ [] ∧ ∃ bytes, bytes.length = 134 ∧ Lies bytes 6 (got ++ l.data)
        ∧ c.bufferClose env l = some ({ c with ping_frame_bytes := bytes }, { l with
          receive_body_remain := (got ++ l.data).length
          data := [] }, .break) := by
  obtain ⟨htwo, hvl⟩ := hcl.two_le hne
  have hsh := hcl.length_le
  have hpn := hop.ping_bytes
  have hlen : f.payload.length = got.length + (l.data.length + later.length) := by
    simp [hbd.payload, hrs]
  obtain ⟨bytes, hbytes⟩ := exists_splice
    (show 6 + got.length + l.data.length ≤ c.ping_frame_bytes.length by omega)
  have hbytes_length : bytes.length = 134 := (agree_splice hbytes).length.trans hpn
  have hls := hbd.lies.splice hbytes
  have hcp : min l.data.length (f.payload.length - got.length) = l.data.length := by omega
  have hcd : c.bufferClose env l = if got.length + l.data.length < f.payload.length then
      some ({ c with ping_frame_bytes := bytes }, { l with
        receive_body_remain := (got ++ l.data).length
        data := [] }, .break)
    else
      (slice bytes 6 f.payload.length).bind fun close_data =>
        (sendCloseWithBody env { c with ping_frame_bytes := bytes, close_received := true }
          (closeCode (readInt (close_data.take 2))) (close_data.drop 2)).bind fun c' =>
            some ({ c' with close_frame_buffering := false }, { l with
              receive_body_remain := (got ++ l.data).length
              data := []
              terminated := true }, .break) := by
    rw [bufferClose, hbd.remain, hbd.length, hcp, take_length, hbytes]
    simp only [bind_eq_bind, bind_some, drop_length, ge_iff_le, htwo, if_true,
      length_append]
    rfl
  rw [hcd]
  by_cases hlt : later = []
  · left
    have hall : got ++ l.data = f.payload := by
      rw [hbd.payload, hrs, hlt, append_nil]
    have hsl : slice bytes 6 f.payload.length = some f.payload := by
      rw [← hall]
      exact slice_of_lies hbytes_length (hall ▸ hsh) hls
    rw [hlt, length_nil] at hlen
    obtain ⟨c', hsn, hds⟩ := @sendCloseWithBody_dispatched tmpLen env
      { c with ping_frame_bytes := bytes, close_received := true } henv
      ⟨hop.1, hop.2, hbytes_length, hop.4⟩ (closeCode (readInt (f.payload.take 2)))
      (f.payload.drop 2) (by simp; omega) (fun _ => hutf8 _ hvl)
    refine ⟨hlt, { c' with close_frame_buffering := false }, ?_, ?_⟩
    · simp [hsl, hsn, hall]
      omega
    · change c'.dispatched.map _ = _
      rw [hds, map_append, ServerFrame.closed, if_neg hne]
      rfl
  · right
    have hpos := length_pos_iff.2 hlt
    exact ⟨hlt, bytes, hbytes_length, hls, if_pos (by omega)⟩

/-- Between two calls, in the body of a close frame. -/
structure Closing (c : WebSocket tmpLen) (f : ServerFrame) (got left : List UInt8) : Prop where
  isOpen : c.Open
  close_received : c.close_received = false
  initial : c.initial_data_handler = none
  state : c.receive_state = .close
  buffering : c.close_frame_buffering = true
  body : c.Body (c.locals []) f got left
  left : left ≠ []

theorem terminate_dispatched (h : c.outgoing_websocket = true) (code : ErrorCode) :
    (c.terminate code).dispatched = c.dispatched ++ [.didAbruptClose code] := by
  rw [terminate, fail, if_pos h, cancel]
  dsimp only
  split_ifs <;> rfl

theorem turn_close (h : l.receive_state = .close) : c.turn env l = c.receiveClose env l := by
  rw [turn, h]

theorem receiveClose_zero (h : l.receive_body_remain = 0) :
    c.receiveClose env l =
      (sendClose env { c with close_received := true }).bind fun c' =>
        some (c', { l with terminated := true }, .break) := by
  rw [receiveClose, if_neg (by omega), if_neg (by omega)]
  rfl

theorem receive_of_break (c' : WebSocket tmpLen) (l' : Receiving)
    (h : c.turn env (c.locals data) = some (c', l', .break)) :
    c.receive env data = some (c'.settle l') := by
  change (loop env (3 * data.length + 3) c (c.locals data)).bind _ = _
  rw [loop, h]
  rfl

theorem Done.settle {c' : WebSocket tmpLen} {l' : Receiving} {seen : Seen}
    (h : c'.dispatched.map Dispatch.seen = c.dispatched.map Dispatch.seen ++ [seen])
    (htr : l'.terminated = true) : c.Done (c'.settle l') seen := by
  rw [WebSocket.settle, if_pos htr]
  exact ⟨h, rfl⟩

theorem Closing.receive_none (henv : env.Writes) (h : c.Closing f [] left) :
    ∃ c', c.receive env data = some c' ∧ c.Done c' (.closed 1000 []) := by
  have hop : ({ c with close_received := true } : WebSocket tmpLen).Open :=
    ⟨h.isOpen.1, h.isOpen.2, h.isOpen.3, h.isOpen.4⟩
  have hzr : c.receive_body_remain = 0 := h.body.remain
  obtain ⟨c', hsn, hds⟩ := sendClose_dispatched henv hop
  refine ⟨_, receive_of_break c' { c.locals data with terminated := true } ?_,
    Done.settle ?_ rfl⟩
  · rw [turn_close h.state, receiveClose_zero hzr, hsn]
    rfl
  · rw [hds, map_append]
    rfl

theorem Closing.receive_one (h : c.Closing f got left) (hone : got.length = 1) :
    ∃ c', c.receive env data = some c' ∧ c.Done c' (.lost .invalid_control_frame) := by
  have hrm : c.receive_body_remain = 1 := h.body.remain.trans hone
  refine ⟨_, receive_of_break (c.terminate .invalid_control_frame)
    { c.locals data with terminated := true } ?_, Done.settle ?_ rfl⟩
  · rw [turn_close h.state]
    exact if_pos (Or.inl hrm)
  · rw [terminate_dispatched h.isOpen.outgoing, map_append]
    rfl

theorem Closing.receive_more (henv : env.Writes)
    (hutf8 : ∀ bytes, Text.Valid bytes → env.validate_utf8 bytes = true) (hcl : f.Closes)
    (h : c.Closing f got (data ++ later)) (htwo : 2 ≤ got.length) :
    (later = [] ∧ ∃ c', c.receive env data = some c' ∧ c.Done c' f.closed)
      ∨ ∃ c', c.receive env data = some c' ∧ c'.Closing f (got ++ data) later
        ∧ c'.dispatched = c.dispatched := by
  have hlen : f.payload.length = got.length + (data ++ later).length := by
    rw [h.body.payload, length_append]
  have hsh := hcl.length_le
  have hne : f.payload ≠ [] := by
    rw [← length_pos_iff]
    omega
  have hrm : c.receive_body_remain = got.length := h.body.remain
  have htr : c.turn env (c.locals data) = c.bufferClose env (c.locals data) := by
    have hlc : (c.locals data).receive_body_remain = got.length := hrm
    rw [turn_close h.state, receiveClose, if_neg (by omega), if_pos (by omega), if_pos h.buffering]
  have hbd : c.Body (c.locals data) f got (data ++ later) :=
    ⟨h.body.1, h.body.2, h.body.3, h.body.4⟩
  rcases bufferClose_cases henv hutf8 h.isOpen hcl hne hbd rfl with
    ⟨hlt, c', hbf, hds⟩ | ⟨hlt, bytes, hby, hls, hbf⟩
  · exact Or.inl ⟨hlt, _, receive_of_break _ _ (htr.trans hbf), Done.settle hds rfl⟩
  · right
    refine ⟨_, receive_of_break _ _ (htr.trans hbf), ?_, rfl⟩
    exact {
      isOpen := ⟨h.isOpen.1, h.isOpen.2, hby, h.isOpen.4⟩
      close_received := h.close_received
      initial := h.initial
      state := h.state
      buffering := h.buffering
      body := ⟨h.body.1, rfl, hls, by rw [h.body.payload, append_assoc]⟩
      left := hlt }

/-- How a close frame ends of whose body `got` has come. -/
def closedAfter (f : ServerFrame) (got : List UInt8) : Seen :=
  if got.length = 0 then .closed 1000 []
  else if got.length = 1 then .lost .invalid_control_frame
  else f.closed

variable {calls : List (List UInt8)} {last : Assembly} {received : List (List Received)}
  {rest : List UInt8} {fs : List ServerFrame}

/-- The pieces of a close frame, up to its end. -/
theorem handleAll_closing (henv : env.Writes)
    (hutf8 : ∀ bytes, Text.Valid bytes → env.validate_utf8 bytes = true) (hcs : f.Closes)
    (h : c.Closing f got calls.flatten)
    (hne : ∀ data ∈ calls, data ≠ []) :
    ∃ c', c.handleAll env calls = some c' ∧ c.Done c' (closedAfter f got) := by
  induction calls generalizing c got with
  | nil => exact absurd rfl h.left
  | cons data calls ih =>
    have hcl : ∀ {c'}, c.receive env data = some c' →
        c.handleAll env (data :: calls) = c'.handleAll env calls := by
      intro c' hrc
      rw [handleAll, foldlM_cons, handleData, if_neg (by simp [h.close_received]), h.initial]
      dsimp only
      rw [hrc]
      rfl
    have hdn : ∀ {c' seen}, c.receive env data = some c' → c.Done c' seen →
        ∃ c', c.handleAll env (data :: calls) = some c' ∧ c.Done c' seen := by
      intro c' seen hrc hdn
      exact ⟨c', (hcl hrc).trans (handleAll_of_close_received hdn.close_received calls),
        hdn⟩
    rw [closedAfter]
    split_ifs with hzr hone
    · obtain rfl := length_eq_zero_iff.1 hzr
      obtain ⟨c', hrc, hsn⟩ := h.receive_none henv
      exact hdn hrc hsn
    · obtain ⟨c', hrc, hsn⟩ := h.receive_one hone
      exact hdn hrc hsn
    · rcases h.receive_more henv hutf8 hcs (by omega) with
        ⟨-, c', hrc, hsn⟩ | ⟨c', hrc, hcn, hds⟩
      · exact hdn hrc hsn
      · obtain ⟨c'', hall, hsn⟩ := ih hcn fun d hd => hne d (mem_cons_of_mem _ hd)
        refine ⟨c'', (hcl hrc).trans hall, ?_, hsn.close_received⟩
        rw [hsn.dispatched, hds, closedAfter, if_neg, if_neg]
        all_goals
          rw [length_append]
          omega

variable {asm : Assembly}

theorem acceptHeader_close (hcl : f.Closes) {first second : UInt8}
    (hsl : f.header.slice = [first, second]) :
    c.acceptHeader env l first second = some ({ c with header_fragment := none }, { l with
      receive_state := .close
      receiving_type := .Close
      receive_body_remain := f.payload.length
      is_fragmented := false
      is_final := true }, .again) := by
  obtain ⟨first', second', hsl', hpr⟩ := ServerFrame.parse_header f
  obtain ⟨rfl, rfl⟩ : first = first' ∧ second = second' := by
    rw [hsl] at hsl'
    simpa using hsl'
  have hlen : (WebsocketHeader.packLength f.payload.length).val = f.payload.length := by
    rw [ServerFrame.val_packLength, if_pos hcl.length_le]
  obtain ⟨hop, hfn, -⟩ := hcl
  unfold acceptHeader
  rw [hpr, hlen]
  simp [hop, hfn, ServerFrame.state, startBody]

theorem At.of_close (hcl : f.Closes) {waiting : Bool}
    (h : c.At l asm waiting [f] rest) :
    ∃ fragment first second, f.header.slice = [first, second] ∧ l.receive_state = .need_header
      ∧ c.Pending fragment 0 false false ∧ c.Assembled l asm
      ∧ first :: second :: f.payload = fragment.toList ++ rest := by
  obtain ⟨first, second, hsl, -⟩ := ServerFrame.parse_header f
  have hlength := ServerFrame.length_eq_nil hcl.length_le
  have hon : ∀ {kind sofar}, asm.open f ≠ some (kind, sofar) := by
    intro kind sofar hon
    rcases Assembly.open_cases hon with ⟨h | h, -⟩ | ⟨h, -⟩ <;> simp [hcl.1] at h
  cases h with
  | boundary hst hpn hasm hrs =>
    refine ⟨none, first, second, hsl, hst, hpn, hasm, ?_⟩
    rw [hrs]
    simp [ServerFrame.encode, hsl, hlength]
  | @header _ _ _ first' second' hst hpn hasm hsl' hrs =>
    refine ⟨some first', first', second', hsl', hst, hpn, hasm, ?_⟩
    rw [hrs]
    simp [hlength]
  | length _ _ _ hrd =>
    obtain ⟨_, _, hrd, -⟩ := hrd
    exact absurd hrd hon
  | body _ _ hrd =>
    obtain ⟨_, _, hrd, -⟩ := hrd
    exact absurd hrd hon
  | controlHeader _ hop => rcases hop with hop | hop <;> simp [hcl.1] at hop
  | control hop => rcases hop with hop | hop <;> simp [hcl.1] at hop

/-- The loop from the beginning of a close frame: it stops in the header or in the body, or the
frame is answered. -/
theorem loop_close (henv : env.Writes)
    (hutf8 : ∀ bytes, Text.Valid bytes → env.validate_utf8 bytes = true) (hcl : f.Closes)
    {m : ℕ} (hst : c.Steady) (htr : l.terminated = false)
    (hat : c.At l asm false [f] (l.data ++ later)) (hne : l.data ≠ []) (hm : l.measure < m) :
    ∃ c' l', loop env m c l = some (c', l')
      ∧ ((c'.dispatched = c.dispatched ∧ c'.Steady ∧ l'.terminated = false
          ∧ c'.At l' asm true [f] later)
        ∨ (c'.dispatched = c.dispatched ∧ ∃ got, (c'.settle l').Closing f got later)
        ∨ (later = [] ∧ l'.terminated = true
          ∧ c'.dispatched.map Dispatch.seen = c.dispatched.map Dispatch.seen ++ [f.closed])) := by
  obtain ⟨fragment, first, second, hsl, hsa, hpn, hasm, hrs⟩ := hat.of_close hcl
  have hby := length_pos_iff.2 hne
  rw [Receiving.measure, hsa] at hm
  obtain ⟨n, rfl⟩ : ∃ n, m = n + 2 := ⟨m - 2, by omega⟩
  rw [← append_assoc] at hrs
  rw [loop, turn, hsa]
  dsimp only
  rcases needHeader_cases env hpn.header_fragment hne hrs with
    ⟨hbr, hlr⟩ | ⟨data, hlt, hdt, hac⟩
  · rw [hbr]
    refine ⟨_, _, rfl, Or.inl ⟨rfl, { hst with }, htr, ?_⟩⟩
    refine .header hsa ⟨rfl, hpn.2, hpn.3, hpn.4⟩ ?_ hsl ?_
    · rcases asm with _ | ⟨k, s⟩ <;> exact hasm
    · rw [hlr, ServerFrame.length_eq_nil hcl.length_le]
      simp
  rw [hac, acceptHeader_close hcl hsl, bind_eq_bind, bind_some]
  dsimp only
  rw [loop, turn_close rfl]
  by_cases hnil : f.payload = []
  · -- without a body
    obtain ⟨rfl, rfl⟩ := append_eq_nil_iff.1 (hdt.symm.trans hnil)
    have hop : ({ c with header_fragment := none, close_received := true } :
        WebSocket tmpLen).Open := ⟨hst.outgoing, hst.hasTCP, hst.ping_bytes, hst.sends⟩
    obtain ⟨c', hsn, hds⟩ := sendClose_dispatched henv hop
    rw [receiveClose_zero (by simp [hnil]), hsn]
    refine ⟨_, _, rfl, Or.inr (Or.inr ⟨rfl, rfl, ?_⟩)⟩
    rw [hds, map_append, ServerFrame.closed, if_pos hnil]
    rfl
  obtain ⟨htwo, -⟩ := hcl.two_le hnil
  have hsh := hcl.length_le
  rw [receiveClose, if_neg (by dsimp only; omega), if_pos (by dsimp only; omega),
    if_neg (by simp [hst.close_frame_buffering])]
  have hop : ({ c with
      header_fragment := none
      ping_len := f.payload.length
      close_frame_buffering := true } : WebSocket tmpLen).Open :=
    ⟨hst.outgoing, hst.hasTCP, hst.ping_bytes, hst.sends⟩
  rcases bufferClose_cases (l := { l with
      data := data
      receive_state := .close
      receiving_type := .Close
      receive_body_remain := 0
      is_fragmented := false
      is_final := true }) henv hutf8 hop hcl hnil ⟨rfl, rfl, nil_prefix, rfl⟩ hdt with
    ⟨hlr, c', hbf, hds⟩ | ⟨hlr, bytes, hby, hls, hbf⟩
  · rw [hbf]
    exact ⟨_, _, rfl, Or.inr (Or.inr ⟨hlr, rfl, hds⟩)⟩
  · rw [hbf]
    refine ⟨_, _, rfl, Or.inr (Or.inl ⟨rfl, data, ?_⟩)⟩
    rw [settle, if_neg (by simp [htr])]
    exact {
      isOpen := ⟨hst.outgoing, hst.hasTCP, hby, hst.sends⟩
      close_received := hst.close_received
      initial := hst.initial
      state := rfl
      buffering := rfl
      body := ⟨rfl, rfl, hls, hdt⟩
      left := hlr }

/-- A close frame behind other frames. -/
theorem receive_close (henv : env.Lawful)
    (hutf8 : ∀ bytes, Text.Valid bytes → env.validate_utf8 bytes = true) (hcl : f.Closes)
    (h : c.Waits asm (fs ++ [f]) (data ++ later))
    (hrun : Cruller.run Assembly.accept asm fs = some (last, received)) (hne : data ≠ []) :
    ∃ c', c.receive env data = some c'
      ∧ ((∃ asm' fs' done more, c'.Waits asm' (fs' ++ [f]) later
          ∧ Cruller.run Assembly.accept asm' fs' = some (last, more)
          ∧ received.flatten = done ++ more.flatten
          ∧ c'.dispatched.map Dispatch.seen =
            c.dispatched.map Dispatch.seen ++ done.map Received.seen)
        ∨ ((∃ got, c'.Closing f got later) ∧ c'.dispatched.map Dispatch.seen =
            c.dispatched.map Dispatch.seen ++ received.flatten.map Received.seen)
        ∨ (later = [] ∧ c'.close_received = true ∧ c'.dispatched.map Dispatch.seen =
            c.dispatched.map Dispatch.seen ++ received.flatten.map Received.seen ++ [f.closed])) := by
  have hms : (c.locals data).measure < 3 * data.length + 3 := by
    rw [Receiving.measure]
    split <;> simp [WebSocket.locals]
  have hrv : c.receive env data =
      (loop env (3 * data.length + 3) c (c.locals data)).bind fun r => some (r.1.settle r.2) := rfl
  have hst : ∀ {c' : WebSocket tmpLen} {l' : Receiving}, (c'.settle l').dispatched =
      c'.dispatched := by
    intro c' l'
    rw [settle]
    split_ifs <;> rfl
  obtain ⟨c1, l1, asm1, fs1, done, more, hst1, htr1, hrun1, hrc, hsn,
    ⟨hlp, hat⟩ | ⟨rfl, ⟨m, hlp, hm⟩, hat, hne1⟩⟩ :=
      loop_before henv h.1 rfl hrun (h.locals data) (fun _ => hne) hms
  · refine ⟨c1.settle l1, by rw [hrv, hlp]; rfl, Or.inl ⟨asm1, fs1, done, more, ?_⟩⟩
    exact ⟨waits_settle hst1 htr1 hat, hrun1, hrc, by rw [hst, hsn]⟩
  obtain ⟨rfl, rfl⟩ : asm1 = last ∧ more = [] := by simpa using hrun1
  rw [flatten_nil, append_nil] at hrc
  obtain ⟨_, _, _, -, hsa, -⟩ := hat.of_close hcl
  obtain ⟨c2, l2, hlp2, ⟨hd, hst2, htr2, hat2⟩ | ⟨hd, hcs⟩ | ⟨hlt, htr2, hd⟩⟩ :=
    loop_close henv.writes hutf8 hcl hst1 htr1 hat (hne1 hsa) hm
  all_goals
    refine ⟨c2.settle l2, by rw [hrv, hlp, hlp2]; rfl, ?_⟩
    rw [hst]
  · refine Or.inl ⟨asm1, [], done, [], waits_settle hst2 htr2 hat2, rfl, ?_, ?_⟩
    · simp [hrc]
    · rw [hd, hsn]
  · exact Or.inr (Or.inl ⟨hcs, by rw [hd, hsn, hrc]⟩)
  · refine Or.inr (Or.inr ⟨hlt, ?_, by rw [hd, hsn, hrc]⟩)
    rw [settle, if_pos htr2]

theorem At.suffix {g : ServerFrame} {gs : List ServerFrame} {waiting : Bool}
    (h : c.At l asm waiting (g :: gs) rest) : gs.flatMap ServerFrame.encode <:+ rest := by
  cases h with
  | boundary _ _ _ hrs =>
    rw [hrs, flatMap_cons]
    exact suffix_append _ _
  | header _ _ _ _ hrs =>
    rw [hrs, ← cons_append]
    exact suffix_append _ _
  | length _ _ _ _ _ _ _ hrs =>
    rw [hrs, ← append_assoc]
    exact suffix_append _ _
  | body _ _ _ _ _ _ hrs => exact hrs ▸ suffix_append _ _
  | controlHeader _ _ _ _ _ _ hrs => exact hrs ▸ suffix_append _ _
  | control _ _ _ _ _ _ _ _ _ hrs => exact hrs ▸ suffix_append _ _

theorem Waits.length_lt (hcl : f.Closes)
    (h : c.Waits asm (fs ++ [f]) rest) : f.payload.length < rest.length := by
  rcases fs with _ | ⟨g, fs⟩
  · obtain ⟨fragment, first, second, -, -, -, -, hrs⟩ := At.of_close hcl h.2
    have hlen := congrArg List.length hrs
    rcases fragment with _ | fragment <;> simp at hlen <;> omega
  · have hle : ((fs ++ [f]).flatMap ServerFrame.encode).length ≤ rest.length :=
      (At.suffix h.2).length_le
    have hen : f.payload.length < f.encode.length := by
      simp [ServerFrame.encode]
      omega
    rw [List.flatMap_append, length_append, flatMap_singleton] at hle
    omega

theorem closedAfter_eq
    (hpy : f.payload = got ++ calls.flatten) (hlf : calls.flatten ≠ []) :
    closedAfter f got = f.closedBy calls := by
  have hpos := length_pos_iff.2 hlf
  have hlen : f.payload.length = got.length + calls.flatten.length := by
    rw [hpy, length_append]
  have hne : f.payload ≠ [] := by
    rw [← length_pos_iff]
    omega
  have hnot : ∀ {n}, calls.flatten.length < n → ¬ EndsBefore calls n := fun hlt h =>
    absurd h.le (by omega)
  rw [closedAfter, ServerFrame.closedBy]
  by_cases hzr : got.length = 0
  · rw [if_pos hzr, if_pos (Or.inr _)]
    rw [hlen, hzr, Nat.zero_add]
    exact endsBefore_length calls
  rw [if_neg hzr, if_neg (not_or.2 ⟨hne, hnot (by omega)⟩)]
  by_cases hone : got.length = 1
  · rw [if_pos hone, if_pos]
    rw [hlen, hone, Nat.add_sub_cancel_left]
    exact endsBefore_length calls
  · rw [if_neg hone, if_neg (hnot (by omega))]

theorem closedBy_nil (hcl : f.Closes) : f.closedBy [] = f.closed := by
  rw [ServerFrame.closedBy, ServerFrame.closed]
  by_cases hnil : f.payload = []
  · rw [if_pos (Or.inl hnil), if_pos hnil]
  · obtain ⟨htwo, -⟩ := hcl.two_le hnil
    simp only [endsBefore_nil]
    rw [if_neg (not_or.2 ⟨hnil, by omega⟩), if_neg (by omega)]

/-- What comes of a close frame behind others, however they are cut. -/
theorem handleAll_close (henv : env.Lawful)
    (hutf8 : ∀ bytes, Text.Valid bytes → env.validate_utf8 bytes = true) (hcl : f.Closes)
    (h : c.Waits asm (fs ++ [f]) calls.flatten)
    (hrun : Cruller.run Assembly.accept asm fs = some (last, received))
    (hne : ∀ data ∈ calls, data ≠ []) :
    ∃ c', c.handleAll env calls = some c' ∧ c'.dispatched.map Dispatch.seen =
      c.dispatched.map Dispatch.seen ++ received.flatten.map Received.seen
        ++ [f.closedBy calls] := by
  induction calls generalizing c asm fs received with
  | nil => exact absurd h.frames_eq_nil (by simp)
  | cons data calls ih =>
    have hln := h.length_lt hcl
    have hen : ∀ {n}, n ≤ f.payload.length →
        (EndsBefore (data :: calls) n ↔ EndsBefore calls n) := by
      intro n hn
      rw [endsBefore_cons]
      exact or_iff_right (by omega)
    have hclosedBy : f.closedBy (data :: calls) = f.closedBy calls := by
      simp [ServerFrame.closedBy, hen le_rfl, hen (Nat.sub_le _ 1)]
    have hne' : ∀ d ∈ calls, d ≠ [] := fun d hd => hne d (mem_cons_of_mem _ hd)
    have hwt := h
    rw [flatten_cons] at h
    obtain ⟨c1, hrc, hca⟩ := receive_close henv hutf8 hcl h hrun
      (hne data mem_cons_self)
    have hcll : c.handleAll env (data :: calls) = c1.handleAll env calls := by
      rw [handleAll, foldlM_cons, handleData, if_neg (by simp [h.1.close_received]),
        h.1.initial]
      dsimp only
      rw [hrc]
      rfl
    rw [hcll, hclosedBy]
    rcases hca with ⟨asm1, fs1, done, more, hwt1, hrun1, hrv, hsn⟩ |
      ⟨⟨got, hcs⟩, hsn⟩ | ⟨hlt, hcd, hsn⟩
    · obtain ⟨c2, hall, hsn2⟩ := ih hwt1 hrun1 hne'
      refine ⟨c2, hall, ?_⟩
      rw [hsn2, hsn, hrv, map_append, append_assoc (c.dispatched.map _)]
    · obtain ⟨c2, hall, hdn⟩ := handleAll_closing henv.writes hutf8 hcl hcs hne'
      refine ⟨c2, hall, ?_⟩
      rw [hdn.dispatched, hsn, closedAfter_eq hcs.body.payload hcs.left]
    · obtain rfl : calls = [] := by
        rcases calls with _ | ⟨d, calls⟩
        · rfl
        · exact absurd (append_eq_nil_iff.1 hlt).1 (hne' d mem_cons_self)
      refine ⟨c1, rfl, ?_⟩
      rw [hsn, closedBy_nil hcl]

theorem handleAll_fresh_close (henv : env.Lawful)
    (hutf8 : ∀ bytes, Text.Valid bytes → env.validate_utf8 bytes = true)
    {proxy_tunnel : Option WebSocketProxyTunnel} {deflate_params : Bool}
    (hin : WebSocket.init proxy_tunnel deflate_params [] = some c) (hcl : f.Closes)
    {frames : List ServerFrame}
    (hrun : Cruller.run Assembly.accept none frames = some (last, received))
    (hne : ∀ data ∈ calls, data ≠ [])
    (hcut : calls.flatten = frames.flatMap ServerFrame.encode ++ f.encode) :
    ∃ c', c.handleAll env calls = some c' ∧ c'.dispatched.map Dispatch.seen =
      received.flatten.map Received.seen ++ [f.closedBy calls] := by
  obtain ⟨send_buffer, receive_buffer, heq, hsn, hrc, hhd⟩ :=
    @init_eq tmpLen proxy_tunnel deflate_params []
  obtain rfl := some.inj (hin.symm.trans heq)
  have hfr := waits_fresh send_buffer receive_buffer deflate_params proxy_tunnel hsn hrc
    hhd (frames ++ [f])
  rw [List.flatMap_append, flatMap_singleton, ← hcut] at hfr
  exact handleAll_close henv hutf8 hcl hfr hrun hne

/-- A cut close frame is passed on as it is in one call if it is cut well, and only then. -/
theorem close_seen_iff (henv : env.Lawful)
    (hutf8 : ∀ bytes, Text.Valid bytes → env.validate_utf8 bytes = true)
    {proxy_tunnel : Option WebSocketProxyTunnel} {deflate_params : Bool}
    (hinit : WebSocket.init proxy_tunnel deflate_params [] = some c) (hcloses : f.Closes)
    {frames : List ServerFrame} {last : Assembly} {received : List (List Received)}
    (hrun : Cruller.run Assembly.accept none frames = some (last, received))
    {calls : List (List UInt8)} (hne : ∀ data ∈ calls, data ≠ [])
    (hcut : calls.flatten = frames.flatMap ServerFrame.encode ++ f.encode)
    {before : List (List UInt8)} {front : List UInt8} (hbefore : ∀ data ∈ before, data ≠ [])
    (honce : before.flatten ++ front = frames.flatMap ServerFrame.encode) :
    (∃ c1 c2, c.handleAll env calls = some c1
      ∧ c.handleAll env (before ++ [front ++ f.encode]) = some c2
      ∧ c1.dispatched.map Dispatch.seen = c2.dispatched.map Dispatch.seen) ↔ f.CutWell calls := by
  obtain ⟨c1, hall1, hseen1⟩ := handleAll_fresh_close henv hutf8 hinit hcloses hrun hne hcut
  have hwhole : ∀ data ∈ before ++ [front ++ f.encode], data ≠ [] := by
    intro data hdata
    rcases mem_append.1 hdata with hdata | hdata
    · exact hbefore data hdata
    · rw [mem_singleton.1 hdata]
      simp [ServerFrame.encode, WebsocketHeader.slice]
  obtain ⟨c2, hall2, hseen2⟩ := handleAll_fresh_close henv hutf8 hinit hcloses hrun hwhole (by
    simp [← honce])
  rw [f.closedBy_whole hcloses] at hseen2
  rw [← ServerFrame.closedBy_eq_closed_iff]
  constructor
  · rintro ⟨c1', c2', hall1', hall2', hsame⟩
    obtain rfl := some.inj (hall1.symm.trans hall1')
    obtain rfl := some.inj (hall2.symm.trans hall2')
    rw [hseen1, hseen2] at hsame
    simpa using hsame
  · intro hclosed
    exact ⟨c1, c2, hall1, hall2, by rw [hseen1, hseen2, hclosed]⟩

/-- Behind a ping, with a cut in the header and one in the reason. -/
theorem close_seen_iff_reason :
    ∃ c c1 c2 : WebSocket 1, WebSocket.init none false [] = some c
      ∧ c.handleAll (Env.reference fun _ => 1000)
        [[0x89], [1, 7, 0x88], [4, 0x03, 0xEA, 104], [105]] = some c1
      ∧ c.handleAll (Env.reference fun _ => 1000)
        [[0x89, 1, 7], [0x88, 4, 0x03, 0xEA, 104, 105]] = some c2
      ∧ c1.dispatched.map Dispatch.seen = c2.dispatched.map Dispatch.seen := by
  obtain ⟨c, hinit⟩ := isSome_iff_exists.1 (@isSome_init 1 none false [])
  have hiff := close_seen_iff (f := ⟨.Close, true, [0x03, 0xEA, 104, 105]⟩)
    (Env.lawful_reference fun _ => 1000) (fun _ => decide_eq_true) hinit (by decide +kernel)
    (show Cruller.run Assembly.accept none [⟨.Ping, true, [7]⟩] = some (none, [[⟨.Ping, [7]⟩]]) by
      decide +kernel)
    (show ∀ data ∈ [[0x89], [1, 7, 0x88], [4, 0x03, 0xEA, 104], [105]], data ≠ [] by decide)
    (by decide +kernel) (show ∀ data ∈ [[0x89, 1, 7]], data ≠ [] by decide)
    (show [[0x89, 1, 7]].flatten ++ [] = _ by decide +kernel)
  obtain ⟨c1, c2, hcut, hwhole, hsame⟩ := hiff.2 (by decide +kernel)
  refine ⟨c, c1, c2, hinit, hcut, ?_, hsame⟩
  rw [← hwhole]
  rfl

/-- Behind the header the code 1002 is lost. -/
theorem close_seen_iff_refuted :
    ¬ ∀ (env : Env) (c : WebSocket 1) (f : ServerFrame) (calls : List (List UInt8)), env.Lawful →
      (∀ bytes, Text.Valid bytes → env.validate_utf8 bytes = true) →
      WebSocket.init none false [] = some c → f.Closes → (∀ data ∈ calls, data ≠ []) →
      calls.flatten = f.encode → ∃ c1 c2, c.handleAll env calls = some c1
        ∧ c.handleAll env [f.encode] = some c2
        ∧ c1.dispatched.map Dispatch.seen = c2.dispatched.map Dispatch.seen := by
  intro h
  obtain ⟨c, hinit⟩ := isSome_iff_exists.1 (@isSome_init 1 none false [])
  have henv := Env.lawful_reference fun _ => 1000
  obtain ⟨c1, c2, hcut, hwhole, hsame⟩ := h _ c ⟨.Close, true, [0x03, 0xEA]⟩
    [[0x88, 2], [0x03, 0xEA]] henv (fun _ => decide_eq_true) hinit (by decide +kernel) (by decide)
    (by decide +kernel)
  obtain ⟨c1', hcut', hseen1⟩ := handleAll_fresh_close (f := ⟨.Close, true, [0x03, 0xEA]⟩) henv
    (fun _ => decide_eq_true) hinit (by decide +kernel) (run_nil none)
    (show ∀ data ∈ [[0x88, 2], [0x03, 0xEA]], data ≠ [] by decide) (by decide +kernel)
  obtain ⟨c2', hwhole', hseen2⟩ := handleAll_fresh_close (f := ⟨.Close, true, [0x03, 0xEA]⟩) henv
    (fun _ => decide_eq_true) hinit (by decide +kernel) (run_nil none)
    (show ∀ data ∈ [ServerFrame.encode ⟨.Close, true, [0x03, 0xEA]⟩], data ≠ [] by decide +kernel)
    (by decide +kernel)
  obtain rfl := some.inj (hcut.symm.trans hcut')
  obtain rfl := some.inj (hwhole.symm.trans hwhole')
  rw [hseen1, hseen2] at hsame
  revert hsame
  decide +kernel

end WebSocket

end Cruller.Ws
