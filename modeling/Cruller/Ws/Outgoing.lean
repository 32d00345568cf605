import Cruller.Text.Streams
import Cruller.Ws.Client

/-!
# Frames on their way out

As long as no write fails, each way of sending puts a frame behind what the transport has taken and
what waits for it (`Puts`). The one exception is `enqueueEncodedBytes` in a tunnel, which writes at
once: where bytes wait in `send_buffer`, it overtakes them.
-/

namespace Cruller.Ws

open List Option

/-- No write fails. -/
def Env.Writes (env : Env) : Prop := ∀ n bytes, (env.write n bytes).isSome

/-- A transport that takes at its `n`-th write up to `limit n` bytes, without a compressor; a tunnel
then holds bytes back. -/
def Env.reference (limit : ℕ → ℕ) : Env where
  write n bytes := some (min (limit n) bytes.length, true)
  write_le h := by
    simp only [Option.some.injEq, Prod.mk.injEq] at h
    omega
  entropySlice n _ := .ofNat (n + 1)
  simdutf := Text.reference
  validate_utf8 bytes := Text.Valid bytes
  compress _ _ := none
  decompress _ _ := .error .InflateFailed

theorem Env.writes_reference (limit : ℕ → ℕ) : (Env.reference limit).Writes := fun _ _ => rfl

/-- The side of the client that sending changes. -/
structure Output (tmpLen : ℕ+) where
  send_buffer : ByteFifo tmpLen
  deflate : Option WebSocketDeflate
  proxy_tunnel : Option WebSocketProxyTunnel
  transport : Transport
  masks : ℕ

namespace WebSocket

variable {tmpLen : ℕ+} {env : Env} {c : WebSocket tmpLen} {xs bytes : List UInt8}

/-- What is sent belongs to the output. -/
def withOutput (c : WebSocket tmpLen) (o : Output tmpLen) : WebSocket tmpLen :=
  { c with
    send_buffer := o.send_buffer
    deflate := o.deflate
    proxy_tunnel := o.proxy_tunnel
    transport := o.transport
    masks := o.masks }

/-- The part of a client that sending changes. -/
def output (c : WebSocket tmpLen) : Output tmpLen where
  send_buffer := c.send_buffer
  deflate := c.deflate
  proxy_tunnel := c.proxy_tunnel
  transport := c.transport
  masks := c.masks

theorem hasTCP_withOutput {o : Output tmpLen}
    (h : o.proxy_tunnel.isSome = c.proxy_tunnel.isSome) :
    (c.withOutput o).hasTCP = c.hasTCP := by
  change (o.proxy_tunnel.isSome || _) = (c.proxy_tunnel.isSome || _)
  rw [h]
  rfl

/-- Of a client whose `send_buffer` holds `xs`: nothing changes but the output, and where the bytes
are put in order, they are behind what was there. -/
def Puts (inOrder : Prop) (c : WebSocket tmpLen) (xs bytes : List UInt8)
    (r : Option (WebSocket tmpLen × Bool)) : Prop :=
  ∃ o ys, r = some (c.withOutput o, true) ∧ o.send_buffer.Holds ys
    ∧ o.proxy_tunnel.isSome = c.proxy_tunnel.isSome
    ∧ (o.deflate.isSome = c.deflate.isSome)
    ∧ (inOrder → o.transport.taken ++ ys = c.transport.taken ++ xs ++ bytes)

theorem Puts.of_withOutput {P : Prop} {o : Output tmpLen} {r : Option (WebSocket tmpLen × Bool)}
    (h : Puts P (c.withOutput o) xs bytes r)
    (htn : o.proxy_tunnel.isSome = c.proxy_tunnel.isSome)
    (hdf : o.deflate.isSome = c.deflate.isSome)
    (htk : o.transport.taken = c.transport.taken) : Puts P c xs bytes r := by
  obtain ⟨o', ys, hr, hhl, ht, hd, hor⟩ := h
  refine ⟨o', ys, hr, hhl, ht.trans htn, hd.trans hdf, fun hP => ?_⟩
  rw [hor hP, ← htk]
  rfl

theorem write_eq (henv : env.Writes) (c : WebSocket tmpLen) (bytes : List UInt8) :
    ∃ wrote o, c.write env bytes = (c.withOutput o, some wrote) ∧ wrote ≤ bytes.length
      ∧ (∃ backpressure, env.write c.transport.writes bytes = some (wrote, backpressure))
      ∧ o.send_buffer = c.send_buffer ∧ o.deflate = c.deflate
      ∧ o.proxy_tunnel.isSome = c.proxy_tunnel.isSome
      ∧ o.transport.taken = c.transport.taken ++ bytes.take wrote := by
  obtain ⟨⟨wrote, backpressure⟩, h⟩ := isSome_iff_exists.1 (henv c.transport.writes bytes)
  refine ⟨wrote, { c.output with
    transport := ⟨c.transport.writes + 1, c.transport.taken ++ bytes.take wrote⟩
    proxy_tunnel := c.proxy_tunnel.map fun _ => ⟨backpressure⟩ }, ?_, env.write_le h,
    ⟨backpressure, h⟩, rfl, rfl, isSome_map, rfl⟩
  rw [write, h]
  rfl

theorem puts_sendBuffer (henv : env.Writes) (h : c.send_buffer.Holds xs) (hne : xs ≠ [])
    (htcp : c.hasTCP) : Puts True c xs [] (c.sendBuffer env) := by
  have hslice := h.readableSlice_zero
  have hcn := h.count
  have hle := h.count_le
  have hpos := length_pos_iff.2 hne
  have hhd : c.send_buffer.head < c.send_buffer.buf.length := by
    rcases h.head with hh | hh <;> omega
  generalize hk : c.send_buffer.buf.length - c.send_buffer.head = k at hslice
  have hslice_ne : c.send_buffer.readableSlice 0 ≠ [] := by
    simpa [hslice, Ne, not_or] using ⟨by omega, hne⟩
  have hop : ¬ (c.proxy_tunnel = none ∧ c.tcp.isClosed = true) := by
    rintro ⟨hno, hcl⟩
    simp [hasTCP, hno, hcl] at htcp
  obtain ⟨wrote, o, hwr, hwt, -, hbf, hdf, htn, htk⟩ :=
    write_eq henv c (c.send_buffer.readableSlice 0)
  have hlen : wrote ≤ (xs.take k).length := hslice ▸ hwt
  have hds := h.discard (n := wrote) (by
    rw [List.length_take] at hlen
    omega)
  rw [sendBuffer, if_neg hslice_ne, if_neg hop, hwr]
  refine ⟨{ o with send_buffer := o.send_buffer.discard wrote }, xs.drop wrote, rfl,
    hbf ▸ hds, htn, congrArg Option.isSome hdf, fun _ => ?_⟩
  change o.transport.taken ++ xs.drop wrote = _
  rw [htk, append_assoc, hslice, take_take, Nat.min_eq_left (by rw [List.length_take] at hlen; omega),
    take_append_drop, append_nil]

theorem puts_buffer (do_write : Bool) (henv : env.Writes) (h : c.send_buffer.Holds xs)
    (hne : bytes ≠ []) (htcp : c.hasTCP) :
    Puts True c xs bytes (c.buffer env bytes do_write) := by
  obtain ⟨g, hg, hhl, -⟩ := h.writeWithSize rfl hne
  rw [buffer, hg]
  cases do_write with
  | false => exact ⟨{ c.output with send_buffer := g }, _, rfl, hhl, rfl, rfl, fun _ => by
      rw [append_assoc]; rfl⟩
  | true =>
    obtain ⟨o, ys, hr, hys, ht, hd, hor⟩ :=
      puts_sendBuffer (c := { c with send_buffer := g }) henv hhl (by simp [hne]) htcp
    refine ⟨o, ys, hr, hys, ht, hd, fun hP => ?_⟩
    rw [hor hP, append_nil, append_assoc]

theorem frame_ne_nil (compressed : Bool) (opcode : Opcode) (mask : Mask) (content : List UInt8) :
    Copy.frame compressed opcode mask content ≠ [] := by
  simp [Copy.frame, WebsocketHeader.slice]

/-- What `copy` writes. -/
def copied (env : Env) (c : WebSocket tmpLen) (bytes : Copy) (opcode : Opcode) : List UInt8 :=
  (c.copy env bytes opcode).2

/-- The frame that `sendData` makes. -/
def encoded (env : Env) (c : WebSocket tmpLen) (bytes : Copy) (opcode : Opcode) : List UInt8 :=
  match c.deflate with
  | some deflate =>
    if (opcode = .Text ∨ opcode = .Binary) ∧ !bytes.isRaw ∧
        c.shouldCompress bytes.content.length opcode then
      match env.compress deflate.compressed bytes.content with
      | some compressed => Copy.frame true opcode (c.nextMask env) compressed
      | none => c.copied env bytes opcode
    else c.copied env bytes opcode
  | none => c.copied env bytes opcode

theorem copy_eq (env : Env) (c : WebSocket tmpLen) (bytes : Copy) (opcode : Opcode) :
    ∃ masks, c.copy env bytes opcode =
      (c.withOutput { c.output with masks := masks }, c.copied env bytes opcode) := by
  cases bytes with
  | raw slice => exact ⟨c.masks, rfl⟩
  | utf16 slice => exact ⟨c.masks + 1, rfl⟩
  | latin1 slice => exact ⟨c.masks + 1, rfl⟩
  | bytes slice => exact ⟨c.masks + 1, rfl⟩

theorem copied_ne_nil (env : Env) (c : WebSocket tmpLen) {bytes : Copy} (opcode : Opcode)
    (h : bytes.isRaw = true → bytes.content ≠ []) :
    c.copied env bytes opcode ≠ [] := by
  cases bytes with
  | raw slice => exact h rfl
  | utf16 slice => exact frame_ne_nil _ _ _ _
  | latin1 slice => exact frame_ne_nil _ _ _ _
  | bytes slice => exact frame_ne_nil _ _ _ _

section

variable {bytes : Copy} (opcode : Opcode) (do_write : Bool)

theorem puts_sendDataUncompressed (henv : env.Writes) (h : c.send_buffer.Holds xs)
    (hraw : bytes.isRaw = true → bytes.content ≠ []) (htcp : c.hasTCP) :
    Puts True c xs (c.copied env bytes opcode)
      (c.sendDataUncompressed env bytes do_write opcode) := by
  obtain ⟨masks, hcp⟩ := copy_eq env c bytes opcode
  rw [sendDataUncompressed, hcp]
  dsimp only
  rw [if_neg (copied_ne_nil env c opcode hraw)]
  have hpt := puts_buffer (c := c.withOutput { c.output with masks := masks })
    do_write henv h (copied_ne_nil env c opcode hraw) htcp
  exact hpt.of_withOutput rfl rfl rfl

/-- Data goes to the transport or behind what waits, encoded whole. -/
theorem puts_sendData (henv : env.Writes) (h : c.send_buffer.Holds xs)
    (hraw : bytes.isRaw = true → bytes.content ≠ []) (htcp : c.hasTCP) :
    Puts True c xs (c.encoded env bytes opcode) (c.sendData env bytes do_write opcode) := by
  have hpl := puts_sendDataUncompressed opcode do_write henv h hraw htcp
  rw [sendData, encoded]
  rcases hdf : c.deflate with _ | deflate
  · exact hpl
  · dsimp only
    by_cases hdt : (opcode = .Text ∨ opcode = .Binary) ∧ (!bytes.isRaw) = true
    · by_cases hsh : c.shouldCompress bytes.content.length opcode = true
      · have hcm : ¬ (!c.shouldCompress bytes.content.length opcode) = true := by
          simp [hsh]
        have hall : (opcode = .Text ∨ opcode = .Binary) ∧ (!bytes.isRaw) = true ∧
            c.shouldCompress bytes.content.length opcode = true :=
          ⟨hdt.1, hdt.2, hsh⟩
        rw [if_pos hdt, if_neg hcm, if_pos hall]
        -- the compressor goes on whether or not it succeeds
        generalize hwn : (some { deflate with
          compressed := deflate.compressed ++ [bytes.content] } : Option WebSocketDeflate) = window
        have hsm : window.isSome = c.deflate.isSome := by
          rw [← hwn, hdf]
          rfl
        rcases env.compress deflate.compressed bytes.content with _ | compressed
        · have hpt := puts_sendDataUncompressed
            (c := c.withOutput { c.output with deflate := window })
            opcode do_write henv h hraw htcp
          have hsa : (c.withOutput { c.output with deflate := window }).copied env bytes
              opcode = c.copied env bytes opcode := by
            cases bytes <;> rfl
          rw [hsa] at hpt
          exact hpt.of_withOutput rfl hsm rfl
        · have hpt := puts_buffer (c := c.withOutput { c.output with
            deflate := window
            masks := c.masks + 1 }) do_write henv h
            (frame_ne_nil true opcode (c.nextMask env) compressed) htcp
          exact hpt.of_withOutput rfl hsm rfl
      · have hcm : (!c.shouldCompress bytes.content.length opcode) = true := by
          simpa using hsh
        have hall : ¬ ((opcode = .Text ∨ opcode = .Binary) ∧ (!bytes.isRaw) = true ∧
            c.shouldCompress bytes.content.length opcode = true) := fun hall => hsh hall.2.2
        rw [if_pos hdt, if_pos hcm, if_neg hall]
        exact hpl
    · have hall : ¬ ((opcode = .Text ∨ opcode = .Binary) ∧ (!bytes.isRaw) = true ∧
          c.shouldCompress bytes.content.length opcode = true) :=
        fun hall => hdt ⟨hall.1, hall.2.1⟩
      rw [if_neg hdt, if_neg hall]
      exact hpl

end

theorem copyToSendBuffer_eq (hne : bytes ≠ []) {do_write : Bool} :
    c.copyToSendBuffer env bytes do_write = c.buffer env bytes do_write := by
  have hpl : c.sendDataUncompressed env (.raw bytes) do_write .Binary =
      c.buffer env bytes do_write := by
    rw [sendDataUncompressed]
    simp [copy, hne]
  rw [copyToSendBuffer, sendData]
  split
  · rw [if_neg (by simp [Copy.isRaw]), hpl]
  · exact hpl

theorem eq_nil_of_not_hasBackpressure (h : c.send_buffer.Holds xs)
    (hfr : (!c.hasBackpressure) = true) : xs = [] := by
  have hcn := h.count
  by_contra hne
  have hpos := length_pos_iff.2 hne
  simp [hasBackpressure, hcn, hpos] at hfr

theorem puts_enqueueEncodedBytes (henv : env.Writes) (h : c.send_buffer.Holds xs)
    (hne : bytes ≠ []) (htcp : c.hasTCP) :
    Puts (c.proxy_tunnel.isSome → xs = []) c xs bytes
      (c.enqueueEncodedBytes env bytes) := by
  rw [enqueueEncodedBytes]
  by_cases hnow : c.proxy_tunnel.isSome = true ∨ (!c.hasBackpressure) = true
  · have hnil : (c.proxy_tunnel.isSome → xs = []) → xs = [] := fun hor =>
      hnow.elim hor (eq_nil_of_not_hasBackpressure h)
    obtain ⟨wrote, o, hwr, hwt, -, hbf, hdf, htn, htk⟩ :=
      write_eq henv c bytes
    rw [if_pos hnow, hwr]
    dsimp only
    by_cases hsh : wrote < bytes.length
    · have htcp' : (c.withOutput o).hasTCP := (hasTCP_withOutput htn).trans htcp
      have hdr : bytes.drop wrote ≠ [] := by simpa using hsh
      obtain ⟨o', ys, hr, hys, ht, hd, hor⟩ :=
        puts_buffer (c := c.withOutput o) false henv
          (by rw [← hbf] at h; exact h) hdr htcp'
      rw [if_pos hsh, copyToSendBuffer_eq hdr, hr]
      refine ⟨o', ys, rfl, hys, ht.trans htn, hd.trans (congrArg Option.isSome hdf),
        fun hor' => ?_⟩
      rw [hor trivial, hnil hor']
      change o.transport.taken ++ [] ++ bytes.drop wrote = _
      rw [htk, append_nil, append_nil, append_assoc, take_append_drop]
    · rw [if_neg hsh]
      refine ⟨o, xs, rfl, hbf ▸ h, htn, congrArg Option.isSome hdf, fun hor' => ?_⟩
      rw [hnil hor', htk, take_of_length_le (by omega), append_nil, append_nil]
  · rw [if_neg hnow, copyToSendBuffer_eq hne]
    obtain ⟨o, ys, hr, hys, ht, hd, hor⟩ := puts_buffer true henv h hne htcp
    exact ⟨o, ys, hr, hys, ht, hd, fun _ => hor trivial⟩

/-- The bytes of a pong. -/
def pongFrame (env : Env) (c : WebSocket tmpLen) (payload : List UInt8) : List UInt8 :=
  let header : WebsocketHeader := {
    len := Fin.ofNat 128 payload.length
    mask := true
    opcode := .Pong }
  let mask : Mask := if payload = [] then fun _ => 0 else c.nextMask env
  header.slice ++ mask.bytes ++ mask.fill payload

@[simp] theorem length_fill (mask : Mask) (input : List UInt8) :
    (mask.fill input).length = input.length := by simp [Mask.fill]

theorem length_pongFrame {payload : List UInt8} :
    (pongFrame env c payload).length = 6 + payload.length := by
  simp only [pongFrame, length_append, WebsocketHeader.length_slice, length_fill]
  rfl

theorem puts_sendPong (henv : env.Writes) (h : c.send_buffer.Holds xs) (htcp : c.hasTCP)
    (hlen : c.ping_frame_bytes.length = 134) {payload : List UInt8}
    (hpy : slice c.ping_frame_bytes 6 c.ping_len = some payload) :
    ∃ ping_frame_bytes : List UInt8, ping_frame_bytes.length = 134 ∧
      Puts (c.proxy_tunnel.isSome → xs = [])
        { c with ping_frame_bytes := ping_frame_bytes } xs (pongFrame env c payload)
        (c.sendPong env) := by
  obtain ⟨hle, hsl⟩ := slice_eq_some.1 hpy
  have hpl : payload.length = c.ping_len := by
    simp [hsl]
    omega
  obtain ⟨ping_frame_bytes, hsp⟩ := exists_splice
    (show 0 + (pongFrame env c payload).length ≤ c.ping_frame_bytes.length by
      rw [length_pongFrame]; omega)
  refine ⟨ping_frame_bytes, (agree_splice hsp).length.trans hlen, ?_⟩
  have hne : pongFrame env c payload ≠ [] := by
    rw [← length_pos_iff, length_pongFrame]
    omega
  have hsn : ∃ masks, c.sendPong env =
      (splice c.ping_frame_bytes 0 (pongFrame env c payload)).bind fun bytes =>
        { c with ping_frame_bytes := bytes, masks := masks }.enqueueEncodedBytes env
          (pongFrame env c payload) := by
    rw [sendPong, if_neg (by simp [htcp]), hpy]
    by_cases hnil : payload = []
    · exact ⟨c.masks, by simp [pongFrame, hnil, ← hpl]⟩
    · exact ⟨c.masks + 1, by simp [pongFrame, hnil, ← hpl]⟩
  obtain ⟨masks, hsn⟩ := hsn
  have hpt := puts_enqueueEncodedBytes (c := { c with
    ping_frame_bytes := ping_frame_bytes, masks := masks }) henv h hne htcp
  rw [hsn, hsp, bind_some]
  exact hpt.of_withOutput (o := { c.output with masks := masks }) rfl rfl rfl

/-- The bytes of a close frame. -/
def closeFrame (env : Env) (c : WebSocket tmpLen) (code : ℕ) (body : List UInt8) : List UInt8 :=
  let header : WebsocketHeader := {
    len := Fin.ofNat 128 (body.length + 2)
    mask := true
    opcode := .Close }
  header.slice ++ (c.nextMask env).bytes ++ (c.nextMask env).fill (writeInt 2 code ++ body)

theorem closeFrame_ne_nil (env : Env) (c : WebSocket tmpLen) (code : ℕ) (body : List UInt8) :
    closeFrame env c code body ≠ [] := by
  simp [closeFrame, WebsocketHeader.slice]

theorem sendCloseWithBody_eq (htcp : c.hasTCP) {code : ℕ} {body : List UInt8}
    (hlen : body.length ≤ 125) (hvl : body ≠ [] → env.validate_utf8 body = true) :
    c.sendCloseWithBody env code body =
      ({ c with masks := c.masks + 1 }.enqueueEncodedBytes env
        (closeFrame env c code body)).bind fun r =>
          some (if r.2 then r.1.clearData.dispatchClose code body else r.1) := by
  rw [sendCloseWithBody, if_neg (by simp [htcp]), if_neg (by omega), if_neg]
  · rfl
  · rintro ⟨hbd, hin⟩
    simp [hvl hbd] at hin

theorem init_eq (proxy_tunnel : Option WebSocketProxyTunnel)
    (deflate_params : Bool) (buffered_data : List UInt8) :
    ∃ send_buffer receive_buffer : ByteFifo tmpLen,
      WebSocket.init proxy_tunnel deflate_params buffered_data = some {
        tcp := { isClosed := proxy_tunnel.isSome }
        send_buffer := send_buffer
        receive_buffer := receive_buffer
        initial_data_handler := if buffered_data = [] then none else some buffered_data
        deflate := if deflate_params then some {} else none
        proxy_tunnel := proxy_tunnel }
      ∧ send_buffer.Holds [] ∧ receive_buffer.Holds [] ∧ receive_buffer.head = 0 := by
  obtain ⟨g, hg, hhl, -⟩ := (@LinearFifo.holds_initDynamic ⟨.Dynamic, tmpLen, tmpLen.pos⟩
    UInt8).ensureTotalCapacity rfl 2048
  refine ⟨g, g, ?_, hhl, hhl, ?_⟩
  · rw [WebSocket.init, hg]
    rfl
  · rw [LinearFifo.ensureTotalCapacity] at hg
    split_ifs at hg
    all_goals exact some.inj hg ▸ rfl

theorem isSome_init (proxy_tunnel : Option WebSocketProxyTunnel)
    (deflate_params : Bool) (buffered_data : List UInt8) :
    (@WebSocket.init tmpLen proxy_tunnel deflate_params buffered_data).isSome := by
  obtain ⟨_, _, h, -⟩ := @init_eq tmpLen proxy_tunnel deflate_params buffered_data
  rw [h]
  rfl

end WebSocket

end Cruller.Ws
