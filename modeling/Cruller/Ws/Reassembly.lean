import Cruller.Ws.Frames

/-!
# Messages out of cut frames

However the bytes of allowed frames are cut into calls of `handleData`, the program sees the
messages, the pings and the pongs in order, each once and whole (`handleAll_seen`). Between the
calls the client is at a place in the stream (`At`): between two frames, behind the first byte of a
header, in the bytes of a length, or in the body of a data frame or of a control frame. A turn of
the loop goes on from such a place to the next one.
-/

namespace Cruller.Ws

open List

/-- The bytes to read, and whether the next turn may read none. -/
def Receiving.measure (l : Receiving) : ℕ :=
  3 * l.data.length +
    match l.receive_state with
    | .need_header => 0
    | .extended_payload_length_16 | .extended_payload_length_64 => 2
    | _ => 1

namespace WebSocket

variable {tmpLen : ℕ+} {env : Env} {c : WebSocket tmpLen} {xs data : List UInt8} {kind : Opcode}

/-- What stays as it is while frames come in. -/
structure Steady (c : WebSocket tmpLen) : Prop where
  outgoing : c.outgoing_websocket = true
  hasTCP : c.hasTCP = true
  close_received : c.close_received = false
  close_frame_buffering : c.close_frame_buffering = false
  initial : c.initial_data_handler = none
  chunk : c.receive_pending_chunk_len = 0
  compressed : c.receiving_compressed = false
  message_compressed : c.message_is_compressed = false
  ping_bytes : c.ping_frame_bytes.length = 134
  length_bytes : c.payload_length_frame_bytes.length = 8
  head : c.receive_buffer.head = 0
  sends : ∃ xs, c.send_buffer.Holds xs

/-! ## `consume` -/

theorem readableSlice_of_head {f : ByteFifo tmpLen} (h : f.Holds xs) (hhd : f.head = 0) :
    f.readableSlice 0 = xs := by
  have hc := h.count
  have hle := h.count_le
  rw [h.readableSlice_zero, hhd, take_of_length_le (by omega)]

theorem holds_cleared {f : ByteFifo tmpLen} (h : f.Holds xs) :
    ({ buf := f.buf, head := 0, count := 0 } : ByteFifo tmpLen).Holds [] :=
  LinearFifo.Holds.of_start rfl rfl rfl h.mask

theorem consume_part (env : Env) (hst : c.Steady) (hbuf : c.receive_buffer.Holds xs)
    {left : ℕ} (final : Bool) (hle : data.length ≤ left) (hpr : ¬ (final = true ∧ data.length = left))
    (kind : Opcode) :
    ∃ (g : ByteFifo tmpLen) (r : ℕ), c.consume env data left kind final = some ({ c with
        receive_buffer := g
        receive_body_remain := r
        receive_pending_chunk_len := 0 }, data.length)
      ∧ g.Holds (xs ++ data) ∧ g.head = 0 := by
  have hwh : ¬ (final = true ∧ data.length = left ∧ c.receive_pending_chunk_len = 0) :=
    fun h => hpr ⟨h.1, h.2.1⟩
  rw [consume, if_neg (by omega), if_neg (by simp [hst.compressed])]
  dsimp only
  rw [if_neg fun h => hwh h.1, if_neg fun h => hwh h.1]
  by_cases hnil : data = []
  · refine ⟨c.receive_buffer, c.receive_body_remain, ?_, by simpa [hnil] using hbuf, hst.head⟩
    have hsm : c = { c with receive_pending_chunk_len := 0 } := by rw [← hst.chunk]
    rw [if_pos hnil, hnil]
    exact congrArg (fun this => some (this, 0)) hsm
  · obtain ⟨g, hg, hhl, hhd⟩ := hbuf.writeWithSize rfl hnil
    rw [if_neg hnil, hg, Option.bind_eq_bind, Option.bind_some]
    simp only [hst.chunk, Nat.sub_zero, Nat.zero_sub]
    by_cases hlf : left - data.length = 0
    · have hfn : final = false := by
        by_contra hf
        exact hpr ⟨by simpa using hf, by omega⟩
      rw [if_pos hlf, hfn]
      exact ⟨g, 0, rfl, hhl, hhd hst.head⟩
    · rw [if_neg hlf]
      exact ⟨g, c.receive_body_remain, rfl, hhl, hhd hst.head⟩

/-- The end of a message: it is dispatched, from the buffer or from where it lies. -/
theorem consume_whole (henv : env.Lawful) (hst : c.Steady) (hbuf : c.receive_buffer.Holds xs)
    (data : List UInt8) (hkn : kind = .Text ∨ kind = .Binary)
    (hvl : kind = .Text → Text.Valid (xs ++ data)) :
    ∃ (g : ByteFifo tmpLen) (r : ℕ) (call : Dispatch),
      c.consume env data data.length kind true = some ({ c with
        receive_buffer := g
        receive_body_remain := r
        receive_pending_chunk_len := 0
        dispatched := c.dispatched ++ [call]
        message_is_compressed := false }, data.length)
      ∧ call.seen = Received.seen ⟨kind, xs ++ data⟩ ∧ g.Holds [] ∧ g.head = 0 := by
  have hkn' : kind = .Text ∨ kind = .Binary ∨ kind = .Ping ∨ kind = .Pong := by
    rcases hkn with h | h
    · exact Or.inl h
    · exact Or.inr (Or.inl h)
  have hcn := hbuf.count
  rw [consume, if_neg (lt_irrefl _), if_neg (by simp [hst.compressed])]
  dsimp only
  by_cases hxs : xs = []
  · have hzr : c.receive_buffer.count = 0 := by rw [hcn, hxs]; rfl
    obtain ⟨call, hcl, hsn⟩ := dispatchData_seen henv hst.outgoing kind data hkn'
      (by simpa [hxs] using hvl)
    refine ⟨c.receive_buffer, c.receive_body_remain, call, ?_, by simpa [hxs] using hsn,
      hxs ▸ hbuf, hst.head⟩
    rw [if_pos ⟨⟨rfl, rfl, hst.chunk⟩, hzr⟩, hcl, ← hst.chunk]
    rfl
  · have hne : ¬ ((true = true ∧ data.length = data.length ∧ c.receive_pending_chunk_len = 0) ∧
        c.receive_buffer.count = 0) := by
      rintro ⟨-, hzr⟩
      exact hxs (length_eq_zero_iff.1 (hcn ▸ hzr))
    rw [if_neg hne]
    by_cases hnil : data = []
    · obtain ⟨call, hcl, hsn⟩ := dispatchData_seen henv hst.outgoing kind xs hkn'
        (by simpa [hnil] using hvl)
      refine ⟨_, 0, call, ?_, by simpa [hnil] using hsn, holds_cleared hbuf, rfl⟩
      rw [if_pos ⟨⟨rfl, rfl, hst.chunk⟩, hnil⟩, readableSlice_of_head hbuf hst.head, hcl, hnil]
      rfl
    · obtain ⟨g, hg, hhl, hhd⟩ := hbuf.writeWithSize rfl hnil
      obtain ⟨call, hcl, hsn⟩ := dispatchData_seen (c := { c with
        receive_buffer := g
        receive_pending_chunk_len := 0
        receive_body_remain := 0 }) henv hst.outgoing kind (xs ++ data) hkn' hvl
      refine ⟨_, 0, call, ?_, hsn, holds_cleared hhl, rfl⟩
      rw [if_neg (fun h => hnil h.2), if_neg hnil, hg, Option.bind_eq_bind, Option.bind_some]
      simp only [hst.chunk, Nat.sub_self, if_true]
      rw [readableSlice_of_head hhl (hhd hst.head), hcl]
      rfl

/-! ## Places -/

/-- What the client has read of a header. -/
structure Pending (c : WebSocket tmpLen) (header_fragment : Option UInt8) (length_len : ℕ)
    (ping pong : Bool) : Prop where
  header_fragment : c.header_fragment = header_fragment
  length_len : c.payload_length_frame_len = length_len
  ping : c.ping_received = ping
  pong : c.pong_received = pong

variable {l : Receiving} {asm : Assembly} {f : ServerFrame} {fs : List ServerFrame}
  {later : List UInt8}

/-- The message that has begun is known and in the buffer. -/
def Assembled (c : WebSocket tmpLen) (l : Receiving) : Assembly → Prop
  | none => c.receiving_is_final = true ∧ c.receive_buffer.Holds []
  | some (kind, sofar) => c.receiving_is_final = false ∧ l.last_receive_data_type = kind
    ∧ (kind = .Text ∨ kind = .Binary) ∧ c.receive_buffer.Holds sofar

/-- In a data frame, of whose payload `got` has come. -/
def Reading (c : WebSocket tmpLen) (l : Receiving) (asm : Assembly) (f : ServerFrame)
    (got : List UInt8) : Prop :=
  ∃ kind sofar, asm.open f = some (kind, sofar) ∧ c.receiving_is_final = f.final
    ∧ l.is_final = f.final ∧ l.last_receive_data_type = kind ∧ (kind = .Text ∨ kind = .Binary)
    ∧ c.receive_buffer.Holds (sofar ++ got)

/-- The place in the stream: the frames that are not complete, of which the first may have begun,
and the bytes to come. When the client waits for them, there is a next one. -/
inductive At (c : WebSocket tmpLen) (l : Receiving) (asm : Assembly) (waiting : Bool) :
    List ServerFrame → List UInt8 → Prop
  | boundary {fs : List ServerFrame} {rest : List UInt8} (hstate : l.receive_state = .need_header)
      (hpend : c.Pending none 0 false false) (hasm : c.Assembled l asm)
      (hrest : rest = fs.flatMap ServerFrame.encode) : At c l asm waiting fs rest
  | header {f : ServerFrame} {fs : List ServerFrame} {rest : List UInt8} {first second : UInt8}
      (hstate : l.receive_state = .need_header) (hpend : c.Pending (some first) 0 false false)
      (hasm : c.Assembled l asm) (hslice : f.header.slice = [first, second])
      (hrest : rest = second :: (f.length ++ f.payload ++ fs.flatMap ServerFrame.encode)) :
      At c l asm waiting (f :: fs) rest
  | length {f : ServerFrame} {fs : List ServerFrame} {rest g r : List UInt8}
      (hstate : l.receive_state = f.state) (hlong : 125 < f.payload.length)
      (hpend : c.Pending none g.length false false) (hread : c.Reading l asm f [])
      (hlies : Lies c.payload_length_frame_bytes 0 g) (hlength : f.length = g ++ r)
      (hleft : r ≠ []) (hrest : rest = r ++ (f.payload ++ fs.flatMap ServerFrame.encode)) :
      At c l asm waiting (f :: fs) rest
  | body {f : ServerFrame} {fs : List ServerFrame} {rest g r : List UInt8}
      (hstate : l.receive_state = .need_body) (hpend : c.Pending none 0 false false)
      (hread : c.Reading l asm f g) (hremain : l.receive_body_remain = r.length)
      (hpayload : f.payload = g ++ r) (hleft : r = [] → waiting = false ∧ f.final = false)
      (hrest : rest = r ++ fs.flatMap ServerFrame.encode) : At c l asm waiting (f :: fs) rest
  | controlHeader {f : ServerFrame} {fs : List ServerFrame} {rest : List UInt8}
      (hwaiting : waiting = false) (hop : f.opcode = .Ping ∨ f.opcode = .Pong)
      (hstate : l.receive_state = f.state) (hpend : c.Pending none 0 false false)
      (hasm : c.Assembled l asm) (hremain : l.receive_body_remain = f.payload.length)
      (hrest : rest = f.payload ++ fs.flatMap ServerFrame.encode) : At c l asm waiting (f :: fs) rest
  | control {f : ServerFrame} {fs : List ServerFrame} {rest g r : List UInt8}
      (hop : f.opcode = .Ping ∨ f.opcode = .Pong) (hstate : l.receive_state = f.state)
      (hpend : c.Pending none 0 (f.opcode = .Ping) (f.opcode = .Pong)) (hasm : c.Assembled l asm)
      (hlength : c.ping_len = f.payload.length) (hremain : l.receive_body_remain = g.length)
      (hlies : Lies c.ping_frame_bytes 6 g) (hpayload : f.payload = g ++ r)
      (hleft : r ≠ []) (hrest : rest = r ++ fs.flatMap ServerFrame.encode) :
      At c l asm waiting (f :: fs) rest

/-- At most one frame has been read to its end. -/
def Moves (asm : Assembly) (fs : List ServerFrame) (asm' : Assembly) (fs' : List ServerFrame)
    (done : List Received) : Prop :=
  asm' = asm ∧ fs' = fs ∧ done = [] ∨ ∃ f, fs = f :: fs' ∧ asm.accept f = some (asm', done)

/-- A turn that goes on to another place, or stops where it waits for what comes later. -/
def Goes (c : WebSocket tmpLen) (asm : Assembly) (fs : List ServerFrame) (later : List UInt8)
    (bound : ℕ) (r : Option (WebSocket tmpLen × Receiving × Flow)) : Prop :=
  ∃ c' l' flow asm' fs' done, r = some (c', l', flow) ∧ c'.Steady ∧ l'.terminated = false
    ∧ Moves asm fs asm' fs' done
    ∧ c'.dispatched.map Dispatch.seen = c.dispatched.map Dispatch.seen ++ done.map Received.seen
    ∧ match flow with
      | .again => c'.At l' asm' false fs' (l'.data ++ later)
        ∧ (l'.receive_state = .need_header → l'.data ≠ []) ∧ l'.measure < bound
      | .break => c'.At l' asm' true fs' later

variable {last asm' : Assembly} {received : List (List Received)} {left got after : List UInt8}
  {done : List Received} {fragment : Option UInt8} {calls : List (List UInt8)}

theorem cut_cases {data later : List UInt8} (h : left ++ after = data ++ later) :
    (∃ rest, data = left ++ rest ∧ after = rest ++ later)
      ∨ ∃ more, more ≠ [] ∧ left = data ++ more ∧ later = more ++ after := by
  rcases append_eq_append_iff.1 h with ⟨rest, hdt, haf⟩ | ⟨more, hlf, hlt⟩
  · exact Or.inl ⟨rest, hdt, haf⟩
  · rcases eq_nil_or_concat more with rfl | ⟨_, _, rfl⟩
    · exact Or.inl ⟨[], by simpa using hlf.symm, by simpa using hlt.symm⟩
    · exact Or.inr ⟨_, by simp, hlf, hlt⟩

variable {c' : WebSocket tmpLen} {l' : Receiving}

theorem goes_boundary {bound : ℕ}
    (hst : c'.Steady) (htr : l'.terminated = false)
    (hlg : asm.accept f = some (asm', done)) (hsa : l'.receive_state = .need_header)
    (hpn : c'.Pending none 0 false false) (hasm : c'.Assembled l' asm')
    (hsn : c'.dispatched.map Dispatch.seen =
      c.dispatched.map Dispatch.seen ++ done.map Received.seen)
    (hrs : fs.flatMap ServerFrame.encode = l'.data ++ later) (hbn : 3 * l'.data.length < bound) :
    c.Goes asm (f :: fs) later bound
      (some (c', l', if l'.data = [] then .break else .again)) := by
  refine ⟨c', l', _, asm', fs, done, rfl, hst, htr, Or.inr ⟨f, rfl, hlg⟩, hsn, ?_⟩
  by_cases hnil : l'.data = []
  · rw [if_pos hnil]
    rw [hnil, nil_append] at hrs
    exact .boundary hsa hpn hasm hrs.symm
  · rw [if_neg hnil]
    refine ⟨.boundary hsa hpn hasm hrs.symm, fun _ => hnil, ?_⟩
    simpa [Receiving.measure, hsa] using hbn

theorem goes_break {bound : ℕ} {fs : List ServerFrame}
    (hst : c'.Steady) (htr : l'.terminated = false) (hsn : c'.dispatched = c.dispatched)
    (hat : c'.At l' asm true fs later) : c.Goes asm fs later bound (some (c', l', .break)) :=
  ⟨c', l', .break, asm, fs, [], rfl, hst, htr, Or.inl ⟨rfl, rfl, rfl⟩, by simp [hsn], hat⟩

theorem Assembled.congr (h : c.Assembled l asm)
    (hfn : c'.receiving_is_final = c.receiving_is_final)
    (hbf : c'.receive_buffer = c.receive_buffer)
    (hls : l'.last_receive_data_type = l.last_receive_data_type) : c'.Assembled l' asm := by
  rcases asm with _ | ⟨kind, sofar⟩
  · exact ⟨hfn.trans h.1, hbf ▸ h.2⟩
  · exact ⟨hfn.trans h.1, hls.trans h.2.1, h.2.2.1, hbf ▸ h.2.2.2⟩

/-! ## The body of a data frame -/

/-- A part of a payload. -/
theorem goes_needBody (henv : env.Lawful) (hst : c.Steady) (htr : l.terminated = false)
    {accepted : Assembly × List Received}
    (hlg : asm.accept f = some accepted) (hpn : c.Pending none 0 false false)
    (hrd : c.Reading l asm f got) (hrm : l.receive_body_remain = left.length)
    (hsa : l.receive_state = .need_body)
    (hpy : f.payload = got ++ left)
    (hrs : left ++ fs.flatMap ServerFrame.encode = l.data ++ later) :
    c.Goes asm (f :: fs) later (3 * l.data.length + 1) (c.needBody env l) := by
  obtain ⟨asm', done⟩ := accepted
  obtain ⟨kind, sofar, hon, hfn, hln, hls, hkn, hbuf⟩ := hrd
  have hcs := Assembly.accept_cases hlg
  rcases hcs with ⟨hop, -⟩ | ⟨kind', sofar', hon', -, hcs⟩
  · rcases Assembly.open_cases hon with ⟨h | h, -⟩ | ⟨h, -⟩ <;> rcases hop with h' | h' <;>
      simp [h] at h'
  obtain ⟨rfl, rfl⟩ := Prod.mk.inj (Option.some.inj (hon.symm.trans hon'))
  subst hls
  have hcut := cut_cases hrs
  rw [needBody, hrm]
  rcases hcut with ⟨data, hdt, haf⟩ | ⟨more, hmr, hsp, hlt⟩
  · -- all of the body is there
    have htk : l.data.take (min left.length l.data.length) = left := by
      rw [hdt, length_append, Nat.min_eq_left (by omega), take_left]
    have hdr : l.data.drop (min left.length l.data.length) = data := by
      rw [hdt, length_append, Nat.min_eq_left (by omega), drop_left]
    have hlen : l.data.length = left.length + data.length := by rw [hdt, length_append]
    rw [htk, hdr]
    rcases hcs with ⟨hf, rfl, rfl⟩ | ⟨hf, hvl, rfl, rfl⟩
    · have hlf := hln.trans hf
      obtain ⟨g, r, hcn, hhl, hhd⟩ := consume_part env hst hbuf l.is_final
        (le_refl left.length) (by simp [hlf]) l.last_receive_data_type
      rw [hcn]
      simp only [Option.bind_eq_bind, Option.bind_some, Nat.sub_self, if_true]
      refine goes_boundary ?_ htr hlg rfl ⟨hpn.1, hpn.2, hpn.3, hpn.4⟩ ?_ (by simp)
        haf (by simp only; omega)
      · exact { hst with chunk := rfl, head := hhd }
      · refine ⟨hfn.trans hf, rfl, hkn, ?_⟩
        rw [hpy, ← append_assoc]
        exact hhl
    · have hlf := hln.trans hf
      have hvl' : l.last_receive_data_type = .Text → Text.Valid (sofar ++ got ++ left) := by
        intro hk
        rw [append_assoc, ← hpy]
        exact hvl hk
      obtain ⟨g, r, call, hcn, hsn, hhl, hhd⟩ := consume_whole henv hst hbuf left hkn hvl'
      rw [← hlf] at hcn
      rw [hcn]
      simp only [Option.bind_eq_bind, Option.bind_some, Nat.sub_self, if_true]
      refine goes_boundary ?_ htr hlg rfl ⟨hpn.1, hpn.2, hpn.3, hpn.4⟩
        ⟨hfn.trans hf, hhl⟩ ?_ haf (by simp only; omega)
      · exact { hst with chunk := rfl, head := hhd, message_compressed := rfl }
      · rw [map_append, map_singleton, hsn, hpy, append_assoc]
        rfl
  · -- the rest of the body is still to come
    have hlen : left.length = l.data.length + more.length := by rw [hsp, length_append]
    have hpos := length_pos_iff.2 hmr
    rw [Nat.min_eq_right (by omega), take_length, drop_length]
    obtain ⟨g, r, hcn, hhl, hhd⟩ := consume_part env hst hbuf l.is_final
      (show l.data.length ≤ left.length by omega) (by omega) l.last_receive_data_type
    have hle' : left.length - l.data.length ≠ 0 := by omega
    rw [hcn]
    simp only [Option.bind_eq_bind, Option.bind_some, hle', if_false, if_true]
    refine goes_break ?_ htr rfl ?_
    · exact { hst with chunk := rfl, head := hhd }
    refine .body (g := got ++ l.data) (r := more) hsa ⟨hpn.1, hpn.2, hpn.3, hpn.4⟩
      ⟨_, sofar, hon, hfn, hln, rfl, hkn, ?_⟩ ?_ ?_ (fun h => absurd h hmr) hlt
    · rw [← append_assoc]
      exact hhl
    · simp only
      omega
    · rw [hpy, hsp, append_assoc]

/-! ## The bytes of a length -/

/-- The bytes of a long payload's length are read, however they are cut. -/
theorem goes_extendedPayloadLength (hst : c.Steady) (htr : l.terminated = false)
    (hsh : f.payload.length < 2 ^ 63) (hln : 125 < f.payload.length)
    (hsa : l.receive_state = f.state) (hpn : c.Pending none got.length false false)
    (hrd : c.Reading l asm f []) (hls : Lies c.payload_length_frame_bytes 0 got)
    (hlength : f.length = got ++ left) (hlf : left ≠ [])
    (hrs : left ++ (f.payload ++ fs.flatMap ServerFrame.encode) = l.data ++ later) :
    c.Goes asm (f :: fs) later (3 * l.data.length + 2)
      (c.extendedPayloadLength l f.length.length) := by
  obtain ⟨kind, sofar, hop, hfn, hli, hlt, hkn, hbuf⟩ := hrd
  have hby : f.length.length ≤ 8 := by
    rw [ServerFrame.length, length_writeInt, WebsocketHeader.lengthByteCount]
    split_ifs <;> omega
  have hlen : f.length.length = got.length + left.length := by rw [hlength, length_append]
  have hlb := hst.length_bytes
  rw [extendedPayloadLength]
  by_cases hnil : l.data = []
  · rw [if_pos hnil]
    rw [hnil, nil_append] at hrs
    exact goes_break hst htr rfl (.length hsa hln hpn
      ⟨kind, sofar, hop, hfn, hli, hlt, hkn, hbuf⟩ hls hlength hlf hrs.symm)
  rw [if_neg hnil, hpn.length_len, hlen, Nat.add_sub_cancel_left]
  rcases cut_cases hrs with ⟨data, hdt, haf⟩ | ⟨more, hmr, hsp, hlr⟩
  · -- the length is complete
    have htk : l.data.take left.length = left := by rw [hdt, take_left]
    have hdr : l.data.drop left.length = data := by rw [hdt, drop_left]
    have hmin : min left.length l.data.length = left.length := by
      rw [hdt, length_append]
      omega
    have hpos := length_pos_iff.2 hlf
    obtain ⟨bytes, hby'⟩ := exists_splice
      (show got.length + left.length ≤ c.payload_length_frame_bytes.length by omega)
    have hls' : Lies bytes 0 (got ++ left) := hls.splice (by rw [Nat.zero_add]; exact hby')
    have hsl : slice bytes 0 (got.length + left.length) = some f.length := by
      rw [← length_append, hlength]
      exact hls'.slice (by simp [hlf])
    have hrd := ServerFrame.readInt_length hsh hln
    have hps : f.payload.length ≠ 0 := by omega
    rw [hmin]
    simp only [htk, hdr, hby', Option.bind_eq_bind, Option.bind_some, Nat.lt_irrefl, if_false,
      hsl, hrd, hps]
    refine ⟨_, _, .again, asm, f :: fs, [], rfl, ?_, htr, Or.inl ⟨rfl, rfl, rfl⟩, by simp, ?_,
      fun h => by simp at h, ?_⟩
    · exact { hst with length_bytes := (agree_splice hby').length.trans hst.length_bytes }
    · exact .body (g := []) (r := f.payload) rfl ⟨hpn.1, rfl, hpn.3, hpn.4⟩
        ⟨kind, sofar, hop, hfn, hli, hlt, hkn, hbuf⟩ rfl rfl
        (fun h => by simp [h] at hln) haf.symm
    · simp only [Receiving.measure, hdt, length_append]
      omega
  · have hlen' : left.length = l.data.length + more.length := by rw [hsp, length_append]
    have hpos := length_pos_iff.2 hmr
    obtain ⟨bytes, hby'⟩ := exists_splice
      (show got.length + l.data.length ≤ c.payload_length_frame_bytes.length by omega)
    have hls' : Lies bytes 0 (got ++ l.data) := hls.splice (by rw [Nat.zero_add]; exact hby')
    have hsr : got.length + l.data.length < got.length + left.length := by omega
    rw [Nat.min_eq_right (by omega)]
    simp only [take_length, drop_length, hby', Option.bind_eq_bind, Option.bind_some,
      hsr, if_true]
    refine goes_break ?_ htr rfl ?_
    · exact { hst with length_bytes := (agree_splice hby').length.trans hst.length_bytes }
    · exact .length (g := got ++ l.data) (r := more) hsa hln
        ⟨hpn.1, by simp, hpn.3, hpn.4⟩
        ⟨kind, sofar, hop, hfn, hli, hlt, hkn, hbuf⟩ hls'
        (by rw [hlength, hsp, append_assoc]) hmr hlr

/-! ## Pings and pongs -/

/-- A control frame's payload is kept in its buffer until it is whole. -/
theorem receiveControl_eq (hst : c.Steady)
    (hsh : (got ++ left).length ≤ 125) (hlength : c.ping_len = (got ++ left).length)
    (hrm : l.receive_body_remain = got.length) (hls : Lies c.ping_frame_bytes 6 got)
    (hrs : left ++ after = l.data ++ later) :
    (∃ data bytes, l.data = left ++ data ∧ after = data ++ later ∧ bytes.length = 134
        ∧ Lies bytes 6 (got ++ left)
        ∧ c.receiveControl l = some ({ c with ping_frame_bytes := bytes }, { l with
          receive_body_remain := (got ++ left).length
          data := data }, true))
      ∨ ∃ more bytes, more ≠ [] ∧ left = l.data ++ more ∧ later = more ++ after
        ∧ bytes.length = 134 ∧ Lies bytes 6 (got ++ l.data)
        ∧ c.receiveControl l = some ({ c with ping_frame_bytes := bytes }, { l with
          receive_body_remain := (got ++ l.data).length
          data := [] }, false) := by
  have hpn := hst.ping_bytes
  rw [length_append] at hsh hlength
  rcases cut_cases hrs with ⟨data, hdt, haf⟩ | ⟨more, hmr, hsp, hlt⟩
  · left
    have hlen : l.data.length = left.length + data.length := by rw [hdt, length_append]
    obtain ⟨bytes, hby⟩ := exists_splice
      (show 6 + got.length + left.length ≤ c.ping_frame_bytes.length by omega)
    refine ⟨data, bytes, hdt, haf, (agree_splice hby).length.trans hpn,
      hls.splice hby, ?_⟩
    have htl : min (got.length + left.length) (got.length + l.data.length) =
        got.length + left.length := by omega
    have htk : l.data.take left.length = left := by rw [hdt, take_left]
    have hdr : l.data.drop left.length = data := by rw [hdt, drop_left]
    rw [receiveControl, hrm, hlength, htl, Nat.add_sub_cancel_left, htk, hby]
    simp [hdr]
  · right
    have hlen : left.length = l.data.length + more.length := by rw [hsp, length_append]
    have hpos := length_pos_iff.2 hmr
    obtain ⟨bytes, hby⟩ := exists_splice
      (show 6 + got.length + l.data.length ≤ c.ping_frame_bytes.length by omega)
    refine ⟨more, bytes, hmr, hsp, hlt, (agree_splice hby).length.trans hpn,
      hls.splice hby, ?_⟩
    have htl : min (got.length + left.length) (got.length + l.data.length) =
        got.length + l.data.length := by omega
    rw [receiveControl, hrm, hlength, htl, Nat.add_sub_cancel_left, take_length, hby]
    simp only [Option.bind_eq_bind, Option.bind_some, drop_length, length_append]
    rw [decide_eq_false (by omega)]
    rfl

theorem slice_of_lies {bytes part : List UInt8} (hlen : bytes.length = 134)
    (hsh : part.length ≤ 125) (h : Lies bytes 6 part) : slice bytes 6 part.length = some part := by
  rw [slice_eq_some]
  exact ⟨by omega, prefix_iff_eq_take.1 h⟩

/-- What is known of a control frame of which `got` has come. -/
structure Controlling (c : WebSocket tmpLen) (l : Receiving) (f : ServerFrame)
    (got left : List UInt8) : Prop where
  length : c.ping_len = f.payload.length
  remain : l.receive_body_remain = got.length
  lies : Lies c.ping_frame_bytes 6 got
  payload : f.payload = got ++ left
  state : l.receive_state = f.state

/-- A turn for a control frame: when the payload is complete, the frame is dispatched. -/
theorem goes_control (hst : c.Steady) (htr : l.terminated = false)
    (hop : f.opcode = .Ping ∨ f.opcode = .Pong) (hsh : f.payload.length ≤ 125)
    (hlg : asm.accept f = some (asm, [⟨f.opcode, f.payload⟩]))
    (hpn : c.Pending none 0 (f.opcode = .Ping) (f.opcode = .Pong)) (hasm : c.Assembled l asm)
    (hcn : c.Controlling l f got left)
    (hrs : left ++ fs.flatMap ServerFrame.encode = l.data ++ later)
    {r : Option (WebSocket tmpLen × Receiving × Flow)}
    (hpr : ∀ c' l', c.receiveControl l = some (c', l', false) → r = some (c', l', .break))
    (hwh : ∀ bytes l', bytes.length = 134 → slice bytes 6 c.ping_len = some f.payload →
      c.receiveControl l = some ({ c with ping_frame_bytes := bytes }, l', true) →
      ∃ c', r = some (c', { l' with
          receive_state := .need_header
          receive_body_remain := 0
          receiving_type := l'.last_receive_data_type }, if l'.data = [] then .break else .again)
        ∧ c'.Steady ∧ c'.Pending none 0 false false
        ∧ c'.receiving_is_final = c.receiving_is_final ∧ c'.receive_buffer = c.receive_buffer
        ∧ c'.dispatched.map Dispatch.seen =
          c.dispatched.map Dispatch.seen ++ [Received.seen ⟨f.opcode, f.payload⟩]) :
    c.Goes asm (f :: fs) later (3 * l.data.length + 1) r := by
  have hpy := hcn.payload
  rcases receiveControl_eq hst (hpy ▸ hsh) (hpy ▸ hcn.length) hcn.remain
    hcn.lies hrs with ⟨data, bytes, hdt, haf, hlen, hls, hrc⟩
      | ⟨more, bytes, hmr, hsp, hlt, hlen, hls, hrc⟩
  · rw [← hpy] at hls hrc
    have hsl : slice bytes 6 c.ping_len = some f.payload := by
      rw [hcn.length]
      exact slice_of_lies hlen hsh hls
    obtain ⟨c', rfl, hst', hpn', hfn, hbf, hsn⟩ := hwh bytes _ hlen hsl hrc
    refine goes_boundary hst' htr hlg rfl hpn' (hasm.congr hfn hbf rfl) hsn haf ?_
    simp only [hdt, length_append]
    omega
  · rw [hpr _ _ hrc]
    refine goes_break { hst with ping_bytes := hlen } htr rfl
      (.control (g := got ++ l.data) (r := more) hop hcn.state
        ⟨hpn.1, hpn.2, hpn.3, hpn.4⟩ (hasm.congr rfl rfl rfl) hcn.length rfl
        hls (by rw [hpy, hsp, append_assoc]) hmr hlt)

theorem goes_ping (henv : env.Lawful) (hst : c.Steady) (htr : l.terminated = false)
    (hop : f.opcode = .Ping) (hsh : f.payload.length ≤ 125)
    (hlg : asm.accept f = some (asm, [⟨f.opcode, f.payload⟩]))
    (hpn : c.Pending none 0 (f.opcode = .Ping) (f.opcode = .Pong)) (hasm : c.Assembled l asm)
    (hcn : c.Controlling l f got left)
    (hrs : left ++ fs.flatMap ServerFrame.encode = l.data ++ later) :
    c.Goes asm (f :: fs) later (3 * l.data.length + 1) (c.ping env l) := by
  have hpg : c.ping_received = true := hpn.ping.trans (by simp [hop])
  rw [ping, if_neg (by simp [hpg]), if_pos hpg]
  dsimp only
  refine goes_control hst htr (Or.inl hop) hsh hlg hpn hasm hcn hrs
    (fun c' l' hrc => by rw [hrc]; rfl) fun bytes l' hlen hsl hrc => ?_
  obtain ⟨call, hcl, hsn⟩ := dispatchData_seen (c := { c with ping_frame_bytes := bytes })
    henv hst.outgoing .Ping f.payload (by simp) (by simp)
  obtain ⟨xs, hxs⟩ := hst.sends
  obtain ⟨pong, hpo, o, ys, hsd, hys, htn, -⟩ := puts_sendPong
    (c := { ({ c with ping_frame_bytes := bytes } : WebSocket tmpLen).dispatch call with
      ping_received := false }) henv.writes hxs hst.hasTCP hlen hsl
  simp only [hrc, hsl, Option.bind_eq_bind, Option.bind_some, Bool.not_true,
    Bool.false_eq_true, if_false, hcl]
  rw [hsd, Option.bind_some]
  refine ⟨_, rfl, ?_, ⟨hpn.1, hpn.2, rfl, hpn.4.trans (by simp [hop])⟩, rfl, rfl, ?_⟩
  · exact { hst with
      ping_bytes := hpo
      sends := ⟨ys, hys⟩
      hasTCP := (hasTCP_withOutput htn).trans hst.hasTCP }
  · change (c.dispatched ++ [call]).map Dispatch.seen = _
    rw [map_append, map_singleton, hsn, hop]

theorem goes_pong (henv : env.Lawful) (hst : c.Steady) (htr : l.terminated = false)
    (hop : f.opcode = .Pong) (hsh : f.payload.length ≤ 125)
    (hlg : asm.accept f = some (asm, [⟨f.opcode, f.payload⟩]))
    (hpn : c.Pending none 0 (f.opcode = .Ping) (f.opcode = .Pong)) (hasm : c.Assembled l asm)
    (hcn : c.Controlling l f got left)
    (hrs : left ++ fs.flatMap ServerFrame.encode = l.data ++ later) :
    c.Goes asm (f :: fs) later (3 * l.data.length + 1) (c.pong env l) := by
  have hpg : c.pong_received = true := hpn.pong.trans (by simp [hop])
  rw [pong, if_neg (by simp [hpg]), if_pos hpg]
  dsimp only
  refine goes_control hst htr (Or.inr hop) hsh hlg hpn hasm hcn hrs
    (fun c' l' hrc => by rw [hrc]; rfl) fun bytes l' hlen hsl hrc => ?_
  obtain ⟨call, hcl, hsn⟩ := dispatchData_seen (c := { c with ping_frame_bytes := bytes })
    henv hst.outgoing .Pong f.payload (by simp) (by simp)
  simp only [hrc, hsl, Option.bind_eq_bind, Option.bind_some, Bool.not_true,
    Bool.false_eq_true, if_false, hcl]
  refine ⟨_, rfl, { hst with ping_bytes := hlen },
    ⟨hpn.1, hpn.2, hpn.3.trans (by simp [hop]), rfl⟩, rfl, rfl, ?_⟩
  change (c.dispatched ++ [call]).map Dispatch.seen = _
  rw [map_append, map_singleton, hsn, hop]

/-! ## Headers -/

theorem Steady.uncompressed (hst : c.Steady) : ({ c with
    receiving_compressed := false
    message_is_compressed := false } : WebSocket tmpLen) = c := by
  have h := congrArg₂ (fun r m => ({ c with
    receiving_compressed := r
    message_is_compressed := m } : WebSocket tmpLen)) hst.compressed hst.message_compressed
  exact h.symm

/-- Behind the header of a data frame. -/
theorem goes_startBody (henv : env.Lawful) (hst : c.Steady) (htr : l.terminated = false)
    {kind : Opcode} {sofar : List UInt8}
    (hlg : asm.accept f = some (asm', done)) (hon : asm.open f = some (kind, sofar))
    (hpn : c.Pending none 0 false false) (hfn : c.receiving_is_final = f.final)
    (hln : l.is_final = f.final) (hls : l.last_receive_data_type = kind)
    (hkn : kind = .Text ∨ kind = .Binary) (hbuf : c.receive_buffer.Holds sofar)
    (hsa : l.receive_state = f.state)
    (hrm : l.receive_body_remain = (WebsocketHeader.packLength f.payload.length).val)
    (hrs : f.length ++ (f.payload ++ fs.flatMap ServerFrame.encode) = l.data ++ later) :
    c.Goes asm (f :: fs) later (3 * l.data.length + 3) (c.startBody env l false) := by
  subst hls
  have hop : f.opcode = .Text ∨ f.opcode = .Binary ∨ f.opcode = .Continue := by
    rcases Assembly.open_cases hon with ⟨h | h, -⟩ | ⟨h, -⟩ <;> simp [h]
  have hbd : f.state = if f.payload.length ≤ 125 then .need_body
      else if f.payload.length ≤ 0xFFFF then .extended_payload_length_16
      else .extended_payload_length_64 := by
    rcases hop with h | h | h <;> simp [ServerFrame.state, h]
  have hfl : (if l.receiving_type = .Text ∨ l.receiving_type = .Binary then
        { c with message_is_compressed := false, receiving_compressed := false }
      else if l.receiving_type = .Continue then
        { c with receiving_compressed := c.message_is_compressed }
      else c) = c := by
    have hsm := hst.uncompressed
    split_ifs
    · exact hsm
    · rw [hst.message_compressed]
      conv_rhs => rw [← hsm]
    · rfl
  rw [ServerFrame.val_packLength] at hrm
  rw [startBody]
  dsimp only
  rw [hfl]
  by_cases hem : l.receive_body_remain = 0 ∧ l.receive_state = .need_body ∧ l.is_final = true
  · -- an empty frame that is the end of a message
    obtain ⟨hzr, -, hlf⟩ := hem
    have hnil : f.payload = [] := by
      rw [← length_eq_zero_iff]
      split_ifs at hrm <;> omega
    have hlength : f.length = [] := ServerFrame.length_eq_nil (by simp [hnil])
    rw [hlength, hnil, nil_append, nil_append] at hrs
    rcases Assembly.accept_cases hlg with ⟨h, -⟩ | ⟨kind', sofar', hon', -, hcs⟩
    · rcases hop with h' | h' | h' <;> simp [h'] at h
    obtain ⟨rfl, rfl⟩ := Prod.mk.inj (Option.some.inj (hon.symm.trans hon'))
    rcases hcs with ⟨hf, -⟩ | ⟨hf, hvl, rfl, rfl⟩
    · simp [hln, hf] at hlf
    obtain ⟨g, r, call, hcn, hsn, hhl, hhd⟩ := consume_whole henv hst hbuf []
      hkn (by simpa [hnil] using hvl)
    rw [length_nil] at hcn
    rw [if_pos ⟨hzr, by rw [hsa, hbd, if_pos (by simp [hnil])], hlf⟩, hzr, hlf, hcn]
    simp only [Option.bind_eq_bind, Option.bind_some]
    refine goes_boundary ?_ htr hlg rfl ?_ ?_ ?_ hrs ?_
    · exact { hst with
        chunk := rfl
        head := hhd
        compressed := rfl
        message_compressed := rfl }
    · exact ⟨hpn.1, hpn.2, hpn.3, hpn.4⟩
    · exact ⟨hfn.trans hf, hhl⟩
    · change (c.dispatched ++ [call]).map Dispatch.seen = _
      rw [map_append, map_singleton, hsn, hnil]
      rfl
    · simp only
      omega
  rw [if_neg hem]
  refine ⟨c, l, .again, asm, f :: fs, [], rfl, hst, htr, Or.inl ⟨rfl, rfl, rfl⟩, by simp, ?_⟩
  have hrd : ∀ {got}, got = ([] : List UInt8) → c.Reading l asm f got := by
    rintro _ rfl
    exact ⟨_, sofar, hon, hfn, hln, rfl, hkn, by rwa [append_nil]⟩
  by_cases hsh : f.payload.length ≤ 125
  · rw [if_pos hsh] at hrm
    rw [ServerFrame.length_eq_nil hsh, nil_append] at hrs
    rw [hbd, if_pos hsh] at hsa
    refine ⟨.body (g := []) (r := f.payload) hsa hpn (hrd rfl) hrm rfl ?_ hrs.symm,
      by simp [hsa], by simp [Receiving.measure, hsa]⟩
    intro hnil
    refine ⟨rfl, ?_⟩
    by_contra hf
    exact hem ⟨by simp [hrm, hnil], hsa, by simpa [hln] using hf⟩
  · have hlen : f.length ≠ [] := by
      rw [← length_pos_iff, ServerFrame.length, length_writeInt,
        WebsocketHeader.lengthByteCount]
      split_ifs <;> omega
    refine ⟨.length (g := []) (r := f.length) hsa (by omega) hpn (hrd rfl)
      List.nil_prefix rfl hlen hrs.symm, ?_, ?_⟩
    · rw [hsa, hbd, if_neg hsh]
      split_ifs <;> simp
    · rw [hbd, if_neg hsh] at hsa
      rw [Receiving.measure, hsa]
      split_ifs <;> simp

/-- The two bytes of a header that is accepted lead on to its length or its payload. -/
theorem goes_acceptHeader (henv : env.Lawful) (hst : c.Steady) (htr : l.terminated = false)
    {accepted : Assembly × List Received} (hlg : asm.accept f = some accepted)
    {first second : UInt8} (hsl : f.header.slice = [first, second])
    (hpn : c.Pending fragment 0 false false) (hasm : c.Assembled l asm)
    (hrs : f.length ++ (f.payload ++ fs.flatMap ServerFrame.encode) = l.data ++ later) :
    c.Goes asm (f :: fs) later (3 * l.data.length + 3) (c.acceptHeader env l first second) := by
  obtain ⟨asm', done⟩ := accepted
  obtain ⟨first', second', hsl', hpr⟩ := ServerFrame.parse_header f
  obtain ⟨rfl, rfl⟩ : first = first' ∧ second = second' := by
    rw [hsl] at hsl'
    simpa using hsl'
  unfold acceptHeader
  rw [hpr]
  dsimp only
  rcases Assembly.accept_cases hlg with ⟨hop, hf, hsh, rfl, rfl⟩ |
    ⟨kind, sofar, hon, -, -⟩
  · have hlength := ServerFrame.length_eq_nil hsh
    have hrm : (WebsocketHeader.packLength f.payload.length).val = f.payload.length := by
      rw [ServerFrame.val_packLength, if_pos hsh]
    rw [hlength, nil_append] at hrs
    rcases hop with hop | hop
    all_goals
      have hcn : f.opcode.isControl = true := by rw [hop]; rfl
      simp only [hop, hf, startBody, reduceCtorEq, or_self, false_and, and_false, if_false,
        Bool.not_true, decide_false, Bool.false_eq_true]
      have hsa : f.state ≠ .need_body := by simp [ServerFrame.state, hop]
      rw [if_neg (fun h => hsa h.2.1)]
      refine ⟨_, _, .again, asm', f :: fs, [], rfl, ?_, htr, Or.inl ⟨rfl, rfl, rfl⟩, by simp,
        .controlHeader rfl (by simp [hop]) rfl ⟨rfl, hpn.2, hpn.3, hpn.4⟩ ?_ hrm
          hrs.symm, ?_, ?_⟩
      · exact { hst with }
      · rcases asm' with _ | ⟨k, s⟩ <;> exact hasm
      · simp [ServerFrame.state, hop]
      · simp [Receiving.measure, ServerFrame.state, hop]
  · have hsr : ∀ {c' : WebSocket tmpLen} {l' : Receiving}, c'.Steady → l'.terminated = false →
        c'.Pending none 0 false false → c'.receiving_is_final = f.final → l'.is_final = f.final →
        l'.last_receive_data_type = kind → (kind = .Text ∨ kind = .Binary) →
        c'.receive_buffer.Holds sofar → l'.receive_state = f.state → l'.data = l.data →
        l'.receive_body_remain = (WebsocketHeader.packLength f.payload.length).val →
        c'.Goes asm (f :: fs) later (3 * l.data.length + 3) (c'.startBody env l' false) := by
      intro c' l' hst' htr' hpn' hf' hlf' hls' hkn' hbuf' hsa' hdt' hrm'
      rw [← hdt']
      exact goes_startBody henv hst' htr' hlg hon hpn' hf' hlf' hls' hkn' hbuf' hsa'
        hrm' (hdt' ▸ hrs)
    have hpn' : ∀ {c' : WebSocket tmpLen}, c'.header_fragment = none →
        c'.payload_length_frame_len = c.payload_length_frame_len →
        c'.ping_received = c.ping_received → c'.pong_received = c.pong_received →
        c'.Pending none 0 false false := fun h1 h2 h3 h4 =>
      ⟨h1, h2.trans hpn.2, h3.trans hpn.3, h4.trans hpn.4⟩
    rcases Assembly.open_cases hon with ⟨hop, rfl, rfl, rfl⟩ | ⟨hop, rfl⟩
    · obtain ⟨hfn, hbuf⟩ := hasm
      rcases hop with hop | hop
      all_goals
        have hcn : f.opcode.isControl = false := by rw [hop]; rfl
        simp only [hop, hfn, reduceCtorEq, false_and, and_false, true_or, or_true, if_false,
          if_true, not_true, Bool.false_eq_true] at hsr hcn ⊢
        rw [hcn]
        simp only [Bool.false_eq_true, false_and, if_false]
        refine hsr ?_ htr (hpn' rfl rfl rfl rfl) rfl rfl rfl trivial hbuf rfl rfl rfl
        exact { hst with }
    · obtain ⟨hfn, hls, hkn, hbuf⟩ := hasm
      have hcn : f.opcode.isControl = false := by rw [hop]; rfl
      simp only [hop, hfn, reduceCtorEq, false_and, and_false, true_or, or_false, if_false,
        if_true, Bool.false_eq_true] at hcn ⊢
      rw [hcn]
      simp only [Bool.false_eq_true, false_and, if_false]
      refine hsr ?_ htr (hpn' rfl rfl rfl rfl) rfl rfl hls hkn hbuf rfl rfl rfl
      exact { hst with }

theorem needHeader_cases (env : Env) {first second : UInt8}
    (hfr : c.header_fragment = fragment) (hne : l.data ≠ [])
    (hrs : first :: second :: after = fragment.toList ++ l.data ++ later) :
    (c.needHeader env l = some ({ c with header_fragment := some first }, l, .break)
        ∧ later = second :: after)
      ∨ ∃ data, data.length < l.data.length ∧ after = data ++ later
        ∧ c.needHeader env l = c.acceptHeader env { l with data := data } first second := by
  rw [needHeader, hfr]
  rcases fragment with _ | fragment
  · rcases hdt : l.data with _ | ⟨a, _ | ⟨b, data⟩⟩
    · exact absurd hdt hne
    · -- one byte is not enough
      left
      rw [hdt] at hrs
      simp only [Option.toList_none, nil_append, cons_append, List.cons.injEq] at hrs
      obtain ⟨rfl, hrs⟩ := hrs
      exact ⟨rfl, hrs.symm⟩
    · right
      rw [hdt] at hrs
      simp only [Option.toList_none, nil_append, cons_append, List.cons.injEq] at hrs
      obtain ⟨rfl, rfl, hrs⟩ := hrs
      exact ⟨data, by simp, hrs, rfl⟩
  · right
    rcases hdt : l.data with _ | ⟨b, data⟩
    · exact absurd hdt hne
    · rw [hdt] at hrs
      simp only [Option.toList_some, cons_append, nil_append, List.cons.injEq] at hrs
      obtain ⟨rfl, rfl, hrs⟩ := hrs
      refine ⟨data, by simp, hrs, ?_⟩
      cases data <;> rfl

/-- Where a header is needed, the first byte or both of them are taken. -/
theorem goes_needHeader (henv : env.Lawful) (hst : c.Steady) (htr : l.terminated = false)
    {fs : List ServerFrame}
    (hlg : ∀ f fs', fs = f :: fs' → ∃ accepted, asm.accept f = some accepted)
    (hsa : l.receive_state = .need_header) (hpn : c.Pending fragment 0 false false)
    (hasm : c.Assembled l asm) (hne : l.data ≠ [])
    (hrs : fs.flatMap ServerFrame.encode = fragment.toList ++ l.data ++ later) :
    c.Goes asm fs later (3 * l.data.length) (c.needHeader env l) := by
  rcases fs with _ | ⟨f, fs⟩
  · simp only [flatMap_nil] at hrs
    have := congrArg List.length hrs
    have := length_pos_iff.2 hne
    simp only [length_nil, length_append] at *
    omega
  obtain ⟨accepted, hlg⟩ := hlg f fs rfl
  obtain ⟨first, second, hsl, -⟩ := ServerFrame.parse_header f
  rw [flatMap_cons, ServerFrame.encode, hsl, append_assoc, append_assoc] at hrs
  rcases needHeader_cases env hpn.header_fragment hne hrs with
    ⟨hbr, hlr⟩ | ⟨data, hlt, hdt, hac⟩
  · rw [hbr]
    exact goes_break { hst with } htr rfl (.header hsa ⟨rfl, hpn.2, hpn.3, hpn.4⟩
      (hasm.congr rfl rfl rfl) hsl (by rw [hlr, append_assoc]; rfl))
  · have hl : ({ l with data := data } : Receiving).terminated = false := htr
    obtain ⟨c', l', flow, asm', fs', done, hr, hst', htr', hmv, hsn, hfl⟩ :=
      goes_acceptHeader henv hst hl hlg hsl hpn (hasm.congr rfl rfl rfl) hdt
    refine ⟨c', l', flow, asm', fs', done, hac.trans hr, hst', htr', hmv, hsn, ?_⟩
    cases flow with
    | «break» => exact hfl
    | again =>
      refine ⟨hfl.1, hfl.2.1, ?_⟩
      have := hfl.2.2
      simp only at this
      omega

/-! ## Turn after turn -/

theorem accept_control (hop : f.opcode = .Ping ∨ f.opcode = .Pong)
    (hlg : ∃ accepted, asm.accept f = some accepted) :
    f.payload.length ≤ 125 ∧ asm.accept f = some (asm, [⟨f.opcode, f.payload⟩]) := by
  obtain ⟨⟨asm', done⟩, hac⟩ := hlg
  rcases Assembly.accept_cases hac with ⟨-, -, hsh, rfl, rfl⟩ | ⟨_, _, hon, -⟩
  · exact ⟨hsh, hac⟩
  · rcases Assembly.open_cases hon with ⟨h | h, -⟩ | ⟨h, -⟩ <;> rcases hop with h' | h' <;>
      simp [h] at h'

/-- A turn of the loop reads on in the frames that are expected. -/
theorem goes_turn (henv : env.Lawful) (hst : c.Steady) (htr : l.terminated = false)
    {fs : List ServerFrame}
    (hlg : ∀ f fs', fs = f :: fs' → ∃ accepted, asm.accept f = some accepted)
    (hat : c.At l asm false fs (l.data ++ later))
    (hne : l.receive_state = .need_header → l.data ≠ []) :
    c.Goes asm fs later l.measure (c.turn env l) := by
  rw [turn]
  cases hat with
  | boundary hsa hpn hasm hrs =>
    rw [hsa, Receiving.measure, hsa]
    exact goes_needHeader henv hst htr hlg hsa hpn hasm (hne hsa)
      (by simpa using hrs.symm)
  | @header f fs _ first second hsa hpn hasm hsl hrs =>
    rw [hsa, Receiving.measure, hsa]
    refine goes_needHeader henv hst htr hlg hsa hpn hasm (hne hsa) ?_
    rw [flatMap_cons, ServerFrame.encode, hsl, Option.toList_some, append_assoc [first],
      hrs]
    simp
  | @length f fs _ got left hsa hln hpn hrd hls hlength hlf hrs =>
    obtain ⟨accepted, hac⟩ := hlg f fs rfl
    obtain ⟨kind, sofar, hon, -⟩ := id hrd
    have hop : f.opcode = .Text ∨ f.opcode = .Binary ∨ f.opcode = .Continue := by
      rcases Assembly.open_cases hon with ⟨h | h, -⟩ | ⟨h, -⟩ <;> simp [h]
    have hsh : f.payload.length < 2 ^ 63 := by
      rcases Assembly.accept_cases hac with ⟨h, -⟩ | ⟨_, _, -, h, -⟩
      · rcases hop with h' | h' | h' <;> simp [h'] at h
      · exact h
    have hgs := goes_extendedPayloadLength hst htr hsh hln hsa hpn hrd hls hlength
      hlf hrs.symm
    have hsa' : f.state = if f.payload.length ≤ 0xFFFF then .extended_payload_length_16
        else .extended_payload_length_64 := by
      rcases hop with h | h | h <;> simp [ServerFrame.state, h, Nat.not_le.2 hln]
    have hby : f.length.length = if f.payload.length ≤ 0xFFFF then 2 else 8 := by
      rw [ServerFrame.length, length_writeInt, WebsocketHeader.lengthByteCount,
        if_neg (Nat.not_le.2 hln)]
    rw [Receiving.measure, hsa, hsa']
    rw [hby] at hgs
    split_ifs at hgs ⊢ <;> exact hgs
  | @body f fs _ got left hsa hpn hrd hrm hpy _ hrs =>
    obtain ⟨accepted, hac⟩ := hlg f fs rfl
    rw [hsa, Receiving.measure, hsa]
    exact goes_needBody henv hst htr hac hpn hrd hrm hsa hpy hrs.symm
  | @controlHeader f fs _ _ hop hsa hpn hasm hrm hrs =>
    obtain ⟨hsh, hac⟩ := accept_control hop (hlg f fs rfl)
    have hcn : ∀ {c' : WebSocket tmpLen}, c'.ping_len = l.receive_body_remain →
        c'.Controlling { l with receive_body_remain := 0 } f [] f.payload := fun h =>
      ⟨h.trans hrm, rfl, List.nil_prefix, rfl, hsa⟩
    rcases hop with hop | hop
    · have hfr : c.ping env l = ({ c with
          ping_len := l.receive_body_remain
          ping_received := true } : WebSocket tmpLen).ping env { l with receive_body_remain := 0 } := by
        rw [ping, if_neg (fun h => absurd h.2 (by omega)), ping]
        simp [hpn.ping]
      have hsa' : l.receive_state = .ping := by rw [hsa, ServerFrame.state, hop]
      rw [Receiving.measure, hsa']
      dsimp only
      rw [hfr]
      exact goes_ping henv { hst with } htr hop hsh hac ⟨hpn.1, hpn.2, by simp [hop],
        hpn.4.trans (by simp [hop])⟩ (hasm.congr rfl rfl rfl) (hcn rfl) hrs.symm
    · have hfr : c.pong env l = ({ c with
          ping_len := l.receive_body_remain
          pong_received := true } : WebSocket tmpLen).pong env { l with receive_body_remain := 0 } := by
        rw [pong, if_neg (fun h => absurd h.2 (by omega)), pong]
        simp [hpn.pong]
      have hsa' : l.receive_state = .pong := by rw [hsa, ServerFrame.state, hop]
      rw [Receiving.measure, hsa']
      dsimp only
      rw [hfr]
      exact goes_pong henv { hst with } htr hop hsh hac ⟨hpn.1, hpn.2,
        hpn.3.trans (by simp [hop]), by simp [hop]⟩ (hasm.congr rfl rfl rfl) (hcn rfl) hrs.symm
  | @control f fs _ got left hop hsa hpn hasm hlength hrm hls hpy _ hrs =>
    obtain ⟨hsh, hac⟩ := accept_control hop (hlg f fs rfl)
    have hcn : c.Controlling l f got left := ⟨hlength, hrm, hls, hpy, hsa⟩
    rcases hop with hop | hop
    · have hsa' : l.receive_state = .ping := by rw [hsa, ServerFrame.state, hop]
      rw [Receiving.measure, hsa']
      exact goes_ping henv hst htr hop hsh hac hpn hasm hcn hrs.symm
    · have hsa' : l.receive_state = .pong := by rw [hsa, ServerFrame.state, hop]
      rw [Receiving.measure, hsa']
      exact goes_pong henv hst htr hop hsh hac hpn hasm hcn hrs.symm

/-- What is received from a place on is what was taken before and what comes after. -/
theorem Moves.run {fs fs' : List ServerFrame}
    (h : Moves asm fs asm' fs' done)
    (hrun : Cruller.run Assembly.accept asm fs = some (last, received)) :
    ∃ more, Cruller.run Assembly.accept asm' fs' = some (last, more)
      ∧ received.flatten = done ++ more.flatten := by
  rcases h with ⟨rfl, rfl, rfl⟩ | ⟨f, rfl, hac⟩
  · exact ⟨received, hrun, rfl⟩
  · obtain ⟨asm1, done1, more, hac1, hmr, rfl⟩ := run_cons.1 hrun
    obtain ⟨rfl, rfl⟩ := Prod.mk.inj (Option.some.inj (hac.symm.trans hac1))
    exact ⟨more, hmr, rfl⟩

/-- The loop stops where it waits for what comes later, or it comes to the frames that are left out
of account. -/
theorem loop_before (henv : env.Lawful) {n : ℕ} {fs others : List ServerFrame}
    (hst : c.Steady) (htr : l.terminated = false)
    (hrun : Cruller.run Assembly.accept asm fs = some (last, received))
    (hat : c.At l asm false (fs ++ others) (l.data ++ later))
    (hne : l.receive_state = .need_header → l.data ≠ []) (hn : l.measure < n) :
    ∃ c' l' asm' fs' done more, c'.Steady ∧ l'.terminated = false
      ∧ Cruller.run Assembly.accept asm' fs' = some (last, more)
      ∧ received.flatten = done ++ more.flatten
      ∧ c'.dispatched.map Dispatch.seen =
        c.dispatched.map Dispatch.seen ++ done.map Received.seen
      ∧ (loop env n c l = some (c', l') ∧ c'.At l' asm' true (fs' ++ others) later
        ∨ fs' = [] ∧ (∃ m, loop env n c l = loop env m c' l' ∧ l'.measure < m)
          ∧ c'.At l' asm' false others (l'.data ++ later)
          ∧ (l'.receive_state = .need_header → l'.data ≠ [])) := by
  induction n generalizing c l asm fs received with
  | zero => omega
  | succ n ih =>
    rcases fs with _ | ⟨f, fs⟩
    · exact ⟨c, l, asm, [], [], received, hst, htr, hrun, rfl, by simp,
        Or.inr ⟨rfl, ⟨_, rfl, hn⟩, hat, hne⟩⟩
    obtain ⟨_, _, _, hac, -⟩ := run_cons.1 hrun
    have hlg : ∀ g gs, f :: fs ++ others = g :: gs → ∃ accepted, asm.accept g = some accepted := by
      rintro g gs heq
      obtain ⟨rfl, -⟩ := List.cons.inj heq
      exact ⟨_, hac⟩
    obtain ⟨c1, l1, flow, asm1, fs1, done, hr, hst1, htr1, hmv, hsn, hfl⟩ :=
      goes_turn henv hst htr hlg hat hne
    obtain ⟨gs, rfl, hmv'⟩ : ∃ gs, fs1 = gs ++ others ∧ Moves asm (f :: fs) asm1 gs done := by
      rcases hmv with ⟨h1, h2, h3⟩ | ⟨g, heq, hg⟩
      · exact ⟨f :: fs, h2, Or.inl ⟨h1, rfl, h3⟩⟩
      · obtain ⟨rfl, rfl⟩ := List.cons.inj heq
        exact ⟨fs, rfl, Or.inr ⟨f, rfl, hg⟩⟩
    obtain ⟨more, hrun1, hrc⟩ := hmv'.run hrun
    rw [loop, hr, Option.bind_eq_bind, Option.bind_some]
    cases flow with
    | «break» =>
      exact ⟨c1, l1, asm1, gs, done, more, hst1, htr1, hrun1, hrc, hsn,
        Or.inl ⟨rfl, hfl⟩⟩
    | again =>
      obtain ⟨hat1, hne1, hlt⟩ := hfl
      obtain ⟨c2, l2, asm2, fs2, done2, more2, hst2, htr2, hrun2, hrc2, hsn2, hend⟩ :=
        ih hst1 htr1 hrun1 hat1 hne1 (by omega)
      refine ⟨c2, l2, asm2, fs2, done ++ done2, more2, hst2, htr2, hrun2, ?_, ?_, hend⟩
      · rw [hrc, hrc2, append_assoc]
      · rw [hsn2, hsn, map_append, append_assoc]

theorem loop_at (henv : env.Lawful) {n : ℕ} {fs : List ServerFrame}
    (hst : c.Steady) (htr : l.terminated = false)
    (hrun : Cruller.run Assembly.accept asm fs = some (last, received))
    (hat : c.At l asm false fs (l.data ++ later))
    (hne : l.receive_state = .need_header → l.data ≠ []) (hn : l.measure < n) :
    ∃ c' l' asm' fs' done more, loop env n c l = some (c', l') ∧ c'.Steady
      ∧ l'.terminated = false ∧ c'.At l' asm' true fs' later
      ∧ Cruller.run Assembly.accept asm' fs' = some (last, more)
      ∧ received.flatten = done ++ more.flatten
      ∧ c'.dispatched.map Dispatch.seen =
        c.dispatched.map Dispatch.seen ++ done.map Received.seen := by
  rw [← append_nil fs] at hat
  obtain ⟨c', l', asm', fs', done, more, hst', htr', hrun', hrc, hsn,
    ⟨hlp, hat'⟩ | ⟨-, -, hat', hne'⟩⟩ := loop_before henv hst htr hrun hat hne hn
  · rw [append_nil] at hat'
    exact ⟨c', l', asm', fs', done, more, hlp, hst', htr', hat', hrun', hrc, hsn⟩
  · cases hat' with
    | boundary hsa _ _ hrs =>
      exact absurd (append_eq_nil_iff.1 hrs).1 (hne' hsa)

/-! ## Call after call -/

/-- The local variables at the beginning of `handleData`. -/
def locals (c : WebSocket tmpLen) (data : List UInt8) : Receiving where
  data := data
  receive_state := c.receive_state
  receiving_type := c.receiving_type
  receive_body_remain := c.receive_body_remain
  is_final := c.receiving_is_final
  last_receive_data_type := c.receiving_type

/-- Between two calls the client waits for the first of these bytes. -/
def Waits (c : WebSocket tmpLen) (asm : Assembly) (fs : List ServerFrame) (rest : List UInt8) :
    Prop :=
  c.Steady ∧ c.At (c.locals []) asm true fs rest

theorem Waits.locals {fs : List ServerFrame} {rest : List UInt8} (h : c.Waits asm fs rest)
    (data : List UInt8) : c.At (c.locals data) asm false fs rest := by
  have hasm : ∀ {asm}, c.Assembled (c.locals []) asm → c.Assembled (c.locals data) asm := by
    rintro (_ | ⟨k, s⟩) h <;> exact h
  cases h.2 with
  | boundary hst hpn hasm' hrs => exact .boundary hst hpn (hasm hasm') hrs
  | header hst hpn hasm' hsl hrs => exact .header hst hpn (hasm hasm') hsl hrs
  | length hst hln hpn hrd hls hlength hlf hrs =>
    exact .length hst hln hpn hrd hls hlength hlf hrs
  | body hst hpn hrd hrm hpy hlf hrs =>
    exact .body hst hpn hrd hrm hpy (fun h => absurd (hlf h).1 (by simp)) hrs
  | controlHeader hwt => simp at hwt
  | control hop hst hpn hasm' hlength hrm hls hpy hlf hrs =>
    exact .control hop hst hpn (hasm hasm') hlength hrm hls hpy hlf hrs

/-- At the end of a call the client waits for what is still to come. -/
theorem waits_settle {fs : List ServerFrame} {rest : List UInt8} (hst : c.Steady)
    (htr : l.terminated = false) (h : c.At l asm true fs rest) :
    (c.settle l).Waits asm fs rest := by
  have hsl : c.settle l = { c with
      receive_state := l.receive_state
      receiving_type := l.last_receive_data_type
      receive_body_remain := l.receive_body_remain } := by
    rw [settle, if_neg (by simp [htr])]
  rw [hsl]
  have hasm : ∀ {asm}, c.Assembled l asm → ({ c with
      receive_state := l.receive_state
      receiving_type := l.last_receive_data_type
      receive_body_remain := l.receive_body_remain } : WebSocket tmpLen).Assembled
        (WebSocket.locals { c with
          receive_state := l.receive_state
          receiving_type := l.last_receive_data_type
          receive_body_remain := l.receive_body_remain } []) asm := by
    rintro (_ | ⟨k, s⟩) h <;> exact h
  refine ⟨{ hst with }, ?_⟩
  cases h with
  | boundary hsa hpn hasm' hrs =>
    exact .boundary hsa ⟨hpn.1, hpn.2, hpn.3, hpn.4⟩ (hasm hasm') hrs
  | header hsa hpn hasm' hsc hrs =>
    exact .header hsa ⟨hpn.1, hpn.2, hpn.3, hpn.4⟩ (hasm hasm') hsc hrs
  | length hsa hln hpn hrd hls hlength hlf hrs =>
    obtain ⟨kind, sofar, hon, hfn, -, hlt, hkn, hbuf⟩ := hrd
    exact .length hsa hln ⟨hpn.1, hpn.2, hpn.3, hpn.4⟩
      ⟨kind, sofar, hon, hfn, hfn, hlt, hkn, hbuf⟩ hls hlength hlf hrs
  | body hsa hpn hrd hrm hpy hlf hrs =>
    obtain ⟨kind, sofar, hon, hfn, -, hlt, hkn, hbuf⟩ := hrd
    exact .body hsa ⟨hpn.1, hpn.2, hpn.3, hpn.4⟩
      ⟨kind, sofar, hon, hfn, hfn, hlt, hkn, hbuf⟩ hrm hpy hlf hrs
  | controlHeader hwt => simp at hwt
  | control hop hsa hpn hasm' hlength hrm hls hpy hlf hrs =>
    exact .control hop hsa ⟨hpn.1, hpn.2, hpn.3, hpn.4⟩ (hasm hasm') hlength hrm hls
      hpy hlf hrs

theorem receive_waits (henv : env.Lawful) {fs : List ServerFrame}
    (h : c.Waits asm fs (data ++ later))
    (hrun : Cruller.run Assembly.accept asm fs = some (last, received)) (hne : data ≠ []) :
    ∃ c' asm' fs' done more, c.receive env data = some c' ∧ c'.Waits asm' fs' later
      ∧ Cruller.run Assembly.accept asm' fs' = some (last, more)
      ∧ received.flatten = done ++ more.flatten
      ∧ c'.dispatched.map Dispatch.seen =
        c.dispatched.map Dispatch.seen ++ done.map Received.seen := by
  have hms : (c.locals data).measure < 3 * data.length + 3 := by
    rw [Receiving.measure]
    split <;> simp [WebSocket.locals]
  obtain ⟨c', l', asm', fs', done, more, hlp, hst, htr, hat, hrun', hrc, hsn⟩ :=
    loop_at henv h.1 rfl hrun (h.locals data) (fun _ => hne) hms
  refine ⟨c'.settle l', asm', fs', done, more, ?_, waits_settle hst htr hat, hrun', hrc, ?_⟩
  · change (loop env (3 * data.length + 3) c (c.locals data)).bind _ = _
    rw [hlp]
    rfl
  · rw [settle, if_neg (by simp [htr])]
    exact hsn

theorem handleAll_waits (henv : env.Lawful) {fs : List ServerFrame}
    (h : c.Waits asm fs (calls.flatten ++ later))
    (hrun : Cruller.run Assembly.accept asm fs = some (last, received))
    (hne : ∀ data ∈ calls, data ≠ []) :
    ∃ c' asm' fs' done more, c.handleAll env calls = some c' ∧ c'.Waits asm' fs' later
      ∧ Cruller.run Assembly.accept asm' fs' = some (last, more)
      ∧ received.flatten = done ++ more.flatten
      ∧ c'.dispatched.map Dispatch.seen =
        c.dispatched.map Dispatch.seen ++ done.map Received.seen := by
  induction calls generalizing c asm fs received with
  | nil => exact ⟨c, asm, fs, [], received, rfl, h, hrun, rfl, by simp⟩
  | cons data calls ih =>
    rw [flatten_cons, append_assoc] at h
    obtain ⟨c1, asm1, fs1, done1, more1, hrv, hwt1, hrun1, hrc1, hsn1⟩ :=
      receive_waits henv h hrun (hne data mem_cons_self)
    obtain ⟨c2, asm2, fs2, done2, more2, hall, hwt2, hrun2, hrc2, hsn2⟩ :=
      ih hwt1 hrun1 fun d hd => hne d (mem_cons_of_mem _ hd)
    refine ⟨c2, asm2, fs2, done1 ++ done2, more2, ?_, hwt2, hrun2, ?_, ?_⟩
    · have hcl : c.handleData env data = some c1 := by
        rw [handleData, if_neg (by simp [h.1.close_received]), h.1.initial]
        exact hrv
      rw [handleAll, foldlM_cons, hcl]
      exact hall
    · rw [hrc1, hrc2, append_assoc]
    · rw [hsn2, hsn1, map_append, append_assoc]

theorem Waits.frames_eq_nil {fs : List ServerFrame} (h : c.Waits asm fs []) : fs = [] := by
  cases h.2 with
  | boundary _ _ _ hrs =>
    rcases fs with _ | ⟨f, fs⟩
    · rfl
    · simp [ServerFrame.encode, WebsocketHeader.slice] at hrs
  | header _ _ _ _ hrs => simp at hrs
  | length _ _ _ _ _ _ hlf hrs => simp [hlf] at hrs
  | body _ _ _ _ _ hlf hrs =>
    obtain ⟨hnil, -⟩ := append_eq_nil_iff.1 hrs.symm
    exact absurd (hlf hnil).1 (by simp)
  | controlHeader hwt => simp at hwt
  | control _ _ _ _ _ _ _ _ hlf hrs => simp [hlf] at hrs

theorem waits_fresh (send_buffer receive_buffer : ByteFifo tmpLen) (deflate_params : Bool)
    (proxy_tunnel : Option WebSocketProxyTunnel) (hsn : send_buffer.Holds [])
    (hrc : receive_buffer.Holds []) (hhd : receive_buffer.head = 0) (fs : List ServerFrame) :
    ({ tcp := { isClosed := proxy_tunnel.isSome }
       send_buffer := send_buffer
       receive_buffer := receive_buffer
       deflate := if deflate_params then some {} else none
       proxy_tunnel := proxy_tunnel } : WebSocket tmpLen).Waits none fs
      (fs.flatMap ServerFrame.encode) := by
  refine ⟨?_, .boundary rfl ⟨rfl, rfl, rfl, rfl⟩ ⟨rfl, hrc⟩ rfl⟩
  exact {
    outgoing := rfl
    hasTCP := by cases proxy_tunnel <;> rfl
    close_received := rfl
    close_frame_buffering := rfl
    initial := rfl
    chunk := rfl
    compressed := rfl
    message_compressed := rfl
    ping_bytes := rfl
    length_bytes := rfl
    head := hhd
    sends := ⟨[], hsn⟩ }

/-- Initial data is handled as a call before all the others. -/
theorem handleAll_initial_data (henv : env.Lawful) {initial_data : List UInt8}
    {fs : List ServerFrame}
    (h : c.Waits asm fs (initial_data ++ later))
    (hrun : Cruller.run Assembly.accept asm fs = some (last, received))
    (hin : initial_data ≠ []) (hcl : calls ≠ []) :
    ({ c with initial_data_handler := some initial_data } : WebSocket tmpLen).handleAll env calls =
      c.handleAll env (initial_data :: calls) := by
  obtain ⟨data, calls, rfl⟩ := exists_cons_of_ne_nil hcl
  obtain ⟨c1, _, _, _, _, hrc, ⟨hst, -⟩, -⟩ := receive_waits henv h hrun hin
  have hsm : ({ c with initial_data_handler := none } : WebSocket tmpLen) = c := by
    rw [← h.1.initial]
  have hop : (!c.tcp.isClosed) = true ∨ c.proxy_tunnel.isSome = true := by
    have htcp := h.1.hasTCP
    simp only [hasTCP, Bool.or_eq_true, Bool.and_eq_true] at htcp
    rcases htcp with htcp | htcp
    · exact Or.inr htcp
    · exact Or.inl htcp.1
  have hwt : ({ c with initial_data_handler := some initial_data } :
      WebSocket tmpLen).handleWithoutDeinit env initial_data = some c1 := by
    have hhn : handleWithoutDeinit env
        ({ c with initial_data_handler := some initial_data } : WebSocket tmpLen) initial_data =
          ({ c with initial_data_handler := none } : WebSocket tmpLen).receive env initial_data :=
      (if_pos ⟨h.1.outgoing, hop⟩).trans (if_neg (by simp [h.1.close_received]))
    rw [hhn, hsm, hrc]
  have hfr : ({ c with initial_data_handler := some initial_data } :
      WebSocket tmpLen).handleData env data = c1.receive env data := by
    rw [handleData, if_neg (by simp [h.1.close_received])]
    dsimp only
    rw [hwt]
    simp [hst.outgoing, hst.hasTCP]
  have hsc : c.handleData env initial_data = some c1 := by
    rw [handleData, if_neg (by simp [h.1.close_received]), h.1.initial]
    exact hrc
  have hth : c1.handleData env data = c1.receive env data := by
    rw [handleData, if_neg (by simp [hst.close_received]), hst.initial]
  simp only [handleAll, foldlM_cons, hfr, hsc, hth, Option.bind_eq_bind,
    Option.bind_some]

/-- However the bytes of allowed frames are cut, the program sees what they amount to. -/
theorem handleAll_seen (henv : env.Lawful) {proxy_tunnel : Option WebSocketProxyTunnel}
    {deflate_params : Bool} {buffered_data : List UInt8}
    (hinit : WebSocket.init proxy_tunnel deflate_params buffered_data = some c)
    {frames : List ServerFrame} {last : Assembly} {received : List (List Received)}
    (hrun : Cruller.run Assembly.accept none frames = some (last, received))
    {calls : List (List UInt8)} (hne : ∀ data ∈ calls, data ≠ [])
    (hcalls : buffered_data ≠ [] → calls ≠ [])
    (hcut : buffered_data ++ calls.flatten = frames.flatMap ServerFrame.encode) :
    ∃ c', c.handleAll env calls = some c'
      ∧ c'.dispatched.map Dispatch.seen = received.flatten.map Received.seen := by
  obtain ⟨send_buffer, receive_buffer, heq, hsend, hreceive, hhead⟩ :=
    @init_eq tmpLen proxy_tunnel deflate_params buffered_data
  obtain rfl := Option.some.inj (hinit.symm.trans heq)
  have hfresh := waits_fresh send_buffer receive_buffer deflate_params proxy_tunnel hsend hreceive
    hhead frames
  rw [← hcut] at hfresh
  by_cases hnil : buffered_data = []
  · rw [hnil, nil_append, ← append_nil calls.flatten] at hfresh
    obtain ⟨c', asm', fs', done, more, hall, hwaits, hrun', hreceived, hseen⟩ :=
      handleAll_waits henv hfresh hrun hne
    rw [hwaits.frames_eq_nil] at hrun'
    simp only [run_nil, Option.some.injEq, Prod.mk.injEq] at hrun'
    rw [if_pos hnil]
    refine ⟨c', hall, ?_⟩
    rw [hseen, hreceived, ← hrun'.2]
    simp
  · have hall_eq := handleAll_initial_data henv hfresh hrun hnil (hcalls hnil)
    rw [← flatten_cons, ← append_nil (buffered_data :: calls).flatten] at hfresh
    obtain ⟨c', asm', fs', done, more, hall, hwaits, hrun', hreceived, hseen⟩ :=
      handleAll_waits henv hfresh hrun (by
        rintro data (_ | ⟨_, hdata⟩)
        · exact hnil
        · exact hne data hdata)
    rw [hwaits.frames_eq_nil] at hrun'
    simp only [run_nil, Option.some.injEq, Prod.mk.injEq] at hrun'
    rw [if_neg hnil]
    refine ⟨c', hall_eq.trans hall, ?_⟩
    rw [hseen, hreceived, ← hrun'.2]
    simp

/-- A text in three frames, one of them empty, with a ping in between. -/
theorem handleAll_seen_fragmented :
    ∃ c c' : WebSocket 1, WebSocket.init none false [0x01, 1, 104, 0x89] = some c
      ∧ c.handleAll (Env.reference fun _ => 1000) [[1], [7, 0], [0, 0x80, 1, 105]] = some c'
      ∧ c'.dispatched.map Dispatch.seen = [.bytes [7] .Ping, .text [104, 105]] := by
  obtain ⟨c, hinit⟩ := Option.isSome_iff_exists.1
    (@isSome_init 1 none false [0x01, 1, 104, 0x89])
  obtain ⟨c', hall, hseen⟩ := handleAll_seen (Env.lawful_reference fun _ => 1000) hinit
    (show Cruller.run Assembly.accept none [⟨.Text, false, [104]⟩, ⟨.Ping, true, [7]⟩,
      ⟨.Continue, false, []⟩, ⟨.Continue, true, [105]⟩] =
        some (none, [[], [⟨.Ping, [7]⟩], [], [⟨.Text, [104, 105]⟩]]) by decide +kernel)
    (show ∀ data ∈ [[1], [7, 0], [0, 0x80, 1, 105]], data ≠ [] by decide)
    (fun _ => by decide) (by decide +kernel)
  exact ⟨c, c', hinit, hall, hseen.trans (by decide +kernel)⟩

end WebSocket

end Cruller.Ws
