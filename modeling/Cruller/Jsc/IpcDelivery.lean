import Cruller.Jsc.IpcStream

/-!
# Messages arrive as they were sent

The messages that are handed over do not depend on the pieces, and the messages that were sent
arrive (`received_any_cut`), as long as the lengths and the capacities that the code keeps in a `u32`
fit. They do where the whole stream is short enough (`received_ne_none`).
-/

namespace Cruller.Jsc.Ipc

open List Option

variable {V : Type} (env : Env V)

/-- A release build, memory that is not short, and buffers that stay within a `u32` while they hold
no more than `n` bytes. -/
structure Fits (n : ℕ) : Prop where
  asserts : env.allow_assert = false
  memory : ∀ text, env.toJSByParseJSON text ≠ .error .OutOfMemory
  length_lt : n < 2 ^ 32
  grows : ∀ cap need, cap < need → need ≤ n →
    need ≤ env.growCapacity cap need ∧ env.growCapacity cap need < 2 ^ 32

section Fits

variable {env} {n : ℕ} (hfits : Fits env n)

include hfits

theorem write_ne_none {b : ByteList} {bytes : List UInt8} (h : b.len + bytes.length ≤ n) :
    b.write env.growCapacity bytes ≠ none := by
  rw [ByteList.len, ← length_append] at h
  simp only [ByteList.write]
  split_ifs with hcap hok hok
  · simp
  · exact absurd ⟨hcap, b.cap_lt⟩ hok
  · simp
  · exact absurd (hfits.grows _ _ (not_le.1 hcap) h) hok

variable {data : List UInt8}

theorem decodeMessage_ne_none {tag : IPCMessageType} {message_len : ℕ}
    (h5 : advanced.header_length ≤ data.length) (h : data.length ≤ n) :
    advanced.decodeMessage env tag data message_len ≠ none := by
  have hlt := hfits.length_lt
  unfold advanced.decodeMessage
  split
  · simp
  · split
    · simp
    · rw [if_pos (by omega)]
      simp

theorem advanced_ne_none (h : data.length ≤ n) :
    advanced.decodeIPCMessage env data ≠ none := by
  unfold advanced.decodeIPCMessage
  split
  · simp
  · rename_i h5
    dsimp only
    split
    · simp
    · exact decodeMessage_ne_none hfits (not_lt.1 h5) h
    · exact decodeMessage_ne_none hfits (not_lt.1 h5) h
    · simp

theorem decodeValue_ne_none (json_data : List UInt8) : json.decodeValue env json_data ≠ none := by
  unfold json.decodeValue
  simp only [hfits.asserts, Bool.false_eq_true, false_and, and_false, if_false]
  split
  · simp
  · split
    · simp
    · simp
    · rename_i hpr
      exact absurd hpr (hfits.memory _)
    · simp

theorem decodeLine_ne_none (data : List UInt8) {idx : ℕ} (h : idx < n) :
    json.decodeLine env data idx ≠ none := by
  have hlt := hfits.length_lt
  unfold json.decodeLine
  split
  · simp
  · rename_i tag json_data _
    obtain ⟨v, hv⟩ := ne_none_iff_exists'.1
      (decodeValue_ne_none hfits (if tag = 2 then json_data else tag :: json_data))
    rw [hv, bind_some]
    cases v with
    | error e => simp
    | ok v =>
      dsimp only
      rw [if_pos (by omega)]
      simp

/-- A loop does not crash and leaves no more than `m` bytes in the buffer. -/
theorem directLoop_ne_none {adv_buf : ByteList} (hem : adv_buf.slice = []) (rounds : ℕ)
    (h : Handed V) (hn : data.length ≤ n) :
    ∃ h' buf, directLoop env adv_buf rounds h data = some (h', buf) ∧ buf.len ≤ data.length := by
  have hzr : adv_buf.len = 0 := by rw [ByteList.len, hem, length_nil]
  induction rounds generalizing h data with
  | zero => exact ⟨h, adv_buf, rfl, by omega⟩
  | succ rounds ih =>
    obtain ⟨r, hr⟩ := ne_none_iff_exists'.1 (advanced_ne_none hfits hn)
    rw [directLoop, hr, bind_some]
    rcases r with e | result
    · cases e with
      | NotEnoughBytes =>
        obtain ⟨buf, hbuf⟩ := ne_none_iff_exists'.1
          (write_ne_none hfits (show adv_buf.len + data.length ≤ n by omega))
        refine ⟨h, buf, by rw [hbuf]; rfl, ?_⟩
        rw [ByteList.len, ByteList.slice_write hbuf, hem, nil_append]
      | InvalidFormat | JSError | JSTerminated | OutOfMemory => exact ⟨_, adv_buf, rfl, by omega⟩
    · dsimp only
      split_ifs
      · have hdr : (data.drop result.bytes_consumed).length ≤ n := by
          rw [length_drop]
          omega
        obtain ⟨h', buf, hlp, hlen⟩ := ih (h.handleIPCMessage result.message) hdr
        rw [length_drop] at hlen
        exact ⟨h', buf, hlp, by omega⟩
      · exact ⟨_, adv_buf, rfl, by omega⟩

theorem bufferedLoop_ne_none {adv_buf : ByteList} (hn : adv_buf.len ≤ n) (rounds : ℕ)
    (h : Handed V) (start : ℕ) :
    ∃ h' buf, bufferedLoop env adv_buf rounds h start = some (h', buf)
      ∧ buf.len ≤ adv_buf.len := by
  have hdr (k : ℕ) : (adv_buf.moveToFront k).len ≤ adv_buf.len := by
    simp [ByteList.len]
  induction rounds generalizing h start with
  | zero => exact ⟨h, adv_buf, rfl, le_rfl⟩
  | succ rounds ih =>
    have hdr' : (adv_buf.slice.drop start).length ≤ n := by
      rw [length_drop]
      exact le_trans (Nat.sub_le _ _) hn
    obtain ⟨r, hr⟩ := ne_none_iff_exists'.1 (advanced_ne_none hfits hdr')
    rw [bufferedLoop]
    dsimp only
    rw [hr, bind_some]
    rcases r with e | result
    · cases e with
      | NotEnoughBytes => exact ⟨h, _, rfl, hdr start⟩
      | InvalidFormat | JSError | JSTerminated | OutOfMemory => exact ⟨_, adv_buf, rfl, le_rfl⟩
    · dsimp only
      split_ifs
      · exact ih (h.handleIPCMessage result.message) (start + result.bytes_consumed)
      · exact ⟨_, _, rfl, hdr _⟩

theorem lineLoop_ne_none (rounds : ℕ) (h : Handed V) {json_buf : JSONLineBuffer}
    (hs : json_buf.Scanned) (hn : json_buf.data.len ≤ n) :
    ∃ h' buf, lineLoop env rounds h json_buf = some (h', buf)
      ∧ buf.data.len ≤ json_buf.data.len := by
  induction rounds generalizing h json_buf with
  | zero => exact ⟨h, json_buf, rfl, le_rfl⟩
  | succ rounds ih =>
    rw [lineLoop, JSONLineBuffer.next_eq hs]
    rcases hidx : json_buf.activeSlice.findIdx? (· = newline) with _ | idx
    · exact ⟨h, json_buf, rfl, le_rfl⟩
    · have hlt := (findIdx?_eq_some_iff_getElem.1 hidx).1
      have hlen := json_buf.length_activeSlice
      obtain ⟨r, hr⟩ := ne_none_iff_exists'.1
        (decodeLine_ne_none hfits (json_buf.activeSlice.take (idx + 1)) (show idx < n by omega))
      simp only [map_some, json.decodeIPCMessage, hr, bind_some]
      rcases r with e | result
      · cases e with
        | NotEnoughBytes | InvalidFormat | JSError | JSTerminated | OutOfMemory =>
          exact ⟨_, json_buf, rfl, le_rfl⟩
      · obtain ⟨-, hs'⟩ := JSONLineBuffer.scanned_consume hs (hs.newline_pos_eq.trans hidx)
        have hcn := decodeLine_consumed env hr
        rw [← hcn] at hs'
        have hle := json_buf.len_consume result.bytes_consumed
        obtain ⟨h', buf, hlp, hbuf⟩ := ih (h.handleIPCMessage result.message) hs' (by omega)
        exact ⟨h', buf, hlp, by omega⟩

/-- With a turn for each byte, the loop comes to an end, and buffers no more than it got. -/
theorem onData2_ne_none {h : Handed V} {incoming : IncomingBuffer}
    (hgd : incoming.Good) (hn : incoming.len + data.length ≤ n) :
    ∃ h' incoming', onData2 env h incoming data = some (h', incoming')
      ∧ incoming'.len ≤ incoming.len + data.length := by
  cases incoming with
  | json json_buf =>
    obtain ⟨list, hls⟩ := ne_none_iff_exists'.1 (write_ne_none hfits (b := json_buf.data) hn)
    have hap : json_buf.append env.growCapacity data =
        some { json_buf with data := list }.scanForNewline := by
      rw [JSONLineBuffer.append, hls]
      rfl
    have hlen : list.len = json_buf.data.len + data.length := by
      simp [ByteList.len, ByteList.slice_write hls]
    have hsc : ({ json_buf with data := list } : JSONLineBuffer).scanForNewline.data.len =
        json_buf.data.len + data.length := by
      rw [JSONLineBuffer.data_scanForNewline, hlen]
    obtain ⟨h', buf, hlp, hbuf⟩ := lineLoop_ne_none hfits
      (({ json_buf with data := list } : JSONLineBuffer).scanForNewline.data.len + 1) h
      (JSONLineBuffer.scanned_append hgd hap) (hsc.trans_le hn)
    refine ⟨h', .json buf, ?_, hbuf.trans hsc.le⟩
    simp only [onData2, hap, bind_eq_bind, bind_some, hlp, map_some]
  | advanced adv_buf =>
    have hn' : adv_buf.len + data.length ≤ n := hn
    simp only [onData2]
    split_ifs with hzr
    · obtain ⟨h', buf, hlp, hbuf⟩ := directLoop_ne_none hfits (length_eq_zero_iff.1 hzr)
        (data.length + 1) h (show data.length ≤ n by omega)
      exact ⟨h', .advanced buf, by rw [hlp]; rfl, hbuf.trans (Nat.le_add_left _ _)⟩
    · obtain ⟨list, hls⟩ := ne_none_iff_exists'.1 (write_ne_none hfits hn')
      have hlen : list.len = adv_buf.len + data.length := by
        simp [ByteList.len, ByteList.slice_write hls]
      obtain ⟨h', buf, hlp, hbuf⟩ := bufferedLoop_ne_none hfits
        (show list.len ≤ n from hlen.trans_le hn') (list.len + 1) h 0
      refine ⟨h', .advanced buf, ?_, hbuf.trans hlen.le⟩
      simp only [hls, bind_eq_bind, bind_some, hlp, map_some]

theorem foldlM_receive_ne_none {pieces : List (List UInt8)} {h : Handed V}
    {incoming : IncomingBuffer} (hgd : incoming.Good)
    (hn : incoming.len + pieces.flatten.length ≤ n) :
    pieces.foldlM (receive env) (h, incoming) ≠ none := by
  induction pieces generalizing h incoming with
  | nil => simp
  | cons piece pieces ih =>
    rw [flatten_cons, length_append] at hn
    rw [foldlM_cons, receive]
    rcases hcl : h.closed with _ | e
    · obtain ⟨h', incoming', hca, hlen⟩ := onData2_ne_none hfits (h := h) hgd
        (show incoming.len + piece.length ≤ n by omega)
      rw [if_neg (by simp), hca, bind_eq_bind, bind_some]
      exact ih (onData2_takes env hcl hgd hca).2.1 (by omega)
    · simp [foldlM_receive_closed env pieces incoming hcl]

theorem received_ne_none (mode : Mode) {pieces : List (List UInt8)}
    (hn : pieces.flatten.length ≤ n) : received env mode pieces ≠ none := by
  obtain ⟨hgd, -, -⟩ := IncomingBuffer.good_init mode
  have hlen : (IncomingBuffer.init mode).len = 0 := by cases mode <;> rfl
  have htl : (IncomingBuffer.init mode).len + pieces.flatten.length ≤ n := by omega
  obtain ⟨r, hr⟩ := ne_none_iff_exists'.1
    (foldlM_receive_ne_none hfits (h := .init) hgd htl)
  rw [received, hr]
  simp

end Fits

/-- Deserializing gives back what was serialized; a text of JSON is a line that starts with no tag. -/
def Restores (mode : Mode) (v : V) : Prop :=
  match mode with
  | .advanced => ∀ bytes, env.serialize v = some bytes → env.deserialize bytes = .ok v
  | .json => ∀ text, env.jsonStringifyFast v = some text →
    newline ∉ text ∧ (∃ c cs, text = c :: cs ∧ c ≠ 2) ∧ json.decodeValue env text = some (.ok v)

/-- What the other side is to get for a value. -/
def messageOf : V × IsInternal → DecodedIPCMessage V
  | (v, .internal) => .internal v
  | (v, .external) => .data v

variable {v : V} {is_internal : IsInternal} {bytes : List UInt8}

/-- What is serialized in advanced mode is a frame of its own length with its message. -/
theorem advanced_serialize_front
    (hrs : Restores env .advanced v)
    (h : advanced.serialize env v is_internal = some bytes) (hlt : bytes.length < 2 ^ 32) :
    (framing env .advanced).front bytes =
      .frame (.ok (messageOf (v, is_internal))) bytes.length := by
  unfold advanced.serialize at h
  split at h
  · simp at h
  · rename_i serialized hsr
    split_ifs at h with hsz
    obtain rfl := some.inj h
    have hvl : leValue (leBytes 4 serialized.length) = serialized.length :=
      leValue_leBytes (by norm_num; omega)
    have htk : (leBytes 4 serialized.length ++ serialized).take 4 =
        leBytes 4 serialized.length := take_left' (leBytes_length 4 _)
    have hdr : (leBytes 4 serialized.length ++ serialized).drop 4 = serialized :=
      drop_left' (leBytes_length 4 _)
    have hpy := hrs serialized hsr
    simp only [length_cons, length_append, leBytes_length] at hlt
    have hms (tag : IPCMessageType) (b : UInt8) : advanced.decodeMessage env tag
        (b :: (leBytes 4 serialized.length ++ serialized)) serialized.length =
          some (.ok ⟨advanced.header_length + serialized.length,
            if tag = .SerializedInternalMessage then .internal v else .data v⟩) := by
      rw [advanced.decodeMessage, if_neg (by simp [advanced.header_length]),
        show advanced.header_length = 4 + 1 from rfl, drop_succ_cons, hdr, take_length,
        hpy]
      exact if_pos (by omega)
    have hlength : ¬ 4 + serialized.length + 1 < advanced.header_length := by
      rw [advanced.header_length]
      omega
    have hrm : ¬ 4 + serialized.length + 1 - advanced.header_length < serialized.length := by
      rw [advanced.header_length]
      omega
    have hsz : advanced.header_length + serialized.length = 4 + serialized.length + 1 := by
      rw [advanced.header_length]
      omega
    cases is_internal with
    | internal | external =>
      simp [packetFront, IPCMessageType.intFromEnum, IPCMessageType.enumFromInt, htk, hvl,
        hms, hlength, hrm, hsz, content, messageOf]

theorem lineFront_line {tag : UInt8} {json_data : List UInt8}
    (hln : newline ∉ tag :: json_data)
    (hvl : json.decodeValue env (if tag = 2 then json_data else tag :: json_data) =
      some (.ok v)) (hlt : json_data.length + 2 < 2 ^ 32) :
    lineFront env (tag :: json_data ++ [newline]) =
      .frame (.ok (if tag = 2 then .internal v else .data v)) (json_data.length + 2) := by
  have hfn : (tag :: json_data ++ [newline]).findIdx? (· = newline) =
      some (tag :: json_data).length := by
    rw [findIdx?_append, findIdx?_eq_none_iff.2 (by
      intro x hx
      simpa using fun hxn : x = newline => hln (hxn ▸ hx))]
    simp [findIdx?_cons]
  have htk : (tag :: json_data ++ [newline]).take (tag :: json_data).length =
      tag :: json_data := take_left
  have hfits : (tag :: json_data).length + 1 < 2 ^ 32 := hlt
  rw [lineFront, hfn]
  simp only [json.decodeLine, htk, hvl, bind_some, if_pos hfits]
  rfl

theorem json_serialize_front
    (hrs : Restores env .json v)
    (h : json.serialize env v is_internal = some bytes) (hlt : bytes.length < 2 ^ 32) :
    (framing env .json).front bytes = .frame (.ok (messageOf (v, is_internal))) bytes.length := by
  obtain ⟨text, htx, rfl⟩ := map_eq_some_iff.1 h
  obtain ⟨hln, ⟨c, cs, rfl, hc⟩, hvl⟩ := hrs text htx
  cases is_internal with
  | external =>
    have hlt' : cs.length + 2 < 2 ^ 32 := by simpa using hlt
    have hfr := lineFront_line env hln (by rwa [if_neg hc]) hlt'
    rw [if_neg hc] at hfr
    simpa [messageOf] using hfr
  | internal =>
    have hlt' : (c :: cs).length + 2 < 2 ^ 32 := by simpa using hlt
    have htg : newline ∉ 2 :: c :: cs := by simpa [newline] using hln
    have hfr := lineFront_line env htg (by rwa [if_pos rfl]) hlt'
    simpa [messageOf] using hfr

theorem serialize_front {mode : Mode}
    (hrs : Restores env mode v) (h : serialize env mode v is_internal = some bytes)
    (hlt : bytes.length < 2 ^ 32) :
    (framing env mode).front bytes = .frame (.ok (messageOf (v, is_internal))) bytes.length := by
  cases mode with
  | advanced => exact advanced_serialize_front env hrs h hlt
  | json => exact json_serialize_front env hrs h hlt

theorem takes_sent {mode : Mode} {sent : List (V × IsInternal)} {packets : List (List UInt8)}
    {h : Handed V} (hop : h.closed = none)
    (hsn : List.Forall₂ (fun m bytes => Restores env mode m.1
      ∧ serialize env mode m.1 m.2 = some bytes ∧ bytes.length < 2 ^ 32) sent packets) :
    Takes env mode h packets.flatten { h with messages := h.messages ++ sent.map messageOf } [] := by
  induction hsn generalizing h with
  | nil =>
    simp only [map_nil, append_nil]
    exact takes_nil env mode h
  | @cons m bytes sent packets hone _ ih =>
    obtain ⟨hrt, hby, hlt⟩ := hone
    have hfr := serialize_front env hrt hby hlt
    have hmr := (framing env mode).append packets.flatten (by rw [hfr]; nofun)
    rw [hfr] at hmr
    have hrs := ih (h := h.handleIPCMessage (messageOf m)) hop
    simp only [Handed.handleIPCMessage, append_assoc, singleton_append] at hrs
    refine .frame hmr (t := h.handleIPCMessage (messageOf m)) rfl
      (by simp [Handed.handleIPCMessage, hop]) ?_
    rw [flatten_cons, drop_left, map_cons]
    exact hrs

/-- Whatever the pieces, and whatever lengths fit: the same messages and the same error as at once,
and the messages that were sent if these are what the stream is made of. -/
theorem received_any_cut (mode : Mode) (pieces : List (List UInt8)) :
    (∀ r whole, received env mode pieces = some r →
      received env mode [pieces.flatten] = some whole → r = whole)
    ∧ (Fits env pieces.flatten.length →
      received env mode pieces ≠ none ∧ received env mode [pieces.flatten] ≠ none)
    ∧ ∀ sent packets r, packets.flatten = pieces.flatten →
      List.Forall₂ (fun (m : V × IsInternal) bytes => Restores env mode m.1
        ∧ serialize env mode m.1 m.2 = some bytes ∧ bytes.length < 2 ^ 32) sent packets →
      received env mode pieces = some r → r = ⟨sent.map messageOf, none⟩ := by
  refine ⟨fun r whole hr hwhole => ?_, fun hfits => ⟨?_, ?_⟩,
    fun sent packets r heq hsent hr => ?_⟩
  · obtain ⟨rest, htakes⟩ := received_takes env hr
    obtain ⟨rest', htakes'⟩ := received_takes env hwhole
    rw [flatten_singleton] at htakes'
    exact htakes.unique htakes'
  · exact received_ne_none hfits mode le_rfl
  · exact received_ne_none hfits mode (by rw [flatten_singleton])
  · obtain ⟨rest, htakes⟩ := received_takes env hr
    have hall := takes_sent env (h := .init) rfl hsent
    rw [heq] at hall
    exact htakes.unique hall

/-- Booleans: a byte in the advanced mode, and `true` and `false` in the JSON mode. -/
def booleans : Env Bool where
  serialize b := some [if b then 1 else 0]
  deserialize bytes :=
    if bytes = [1] then .ok true else if bytes = [0] then .ok false else .error .JSError
  jsonStringifyFast b := some (if b then [116, 114, 117, 101] else [102, 97, 108, 115, 101])
  toJSByParseJSON text :=
    if text = [116, 114, 117, 101] then .ok true
    else if text = [102, 97, 108, 115, 101] then .ok false
    else .error .JSError
  max_length := 2 ^ 31 - 1
  allow_assert := false
  growCapacity cap need := max need (cap + cap / 2 + 64)

/-- `true` on a line. -/
def line : List UInt8 := [116, 114, 117, 101, 10]

/-- The buffer behind a message. -/
def drained : IncomingBuffer := .json ⟨⟨[], 64, by norm_num, by norm_num⟩, 0, none, 0⟩

theorem onData2_line (h : Handed Bool) : onData2 booleans h (.init .json) line =
    some (h.handleIPCMessage (.data true), drained) := rfl

theorem onData2_line_drained (h : Handed Bool) : onData2 booleans h drained line =
    some (h.handleIPCMessage (.data true), drained) := rfl

theorem foldlM_receive_lines (n : ℕ) {h : Handed Bool} (hop : h.closed = none) :
    (List.replicate n line).foldlM (receive booleans) (h, drained) =
      some (⟨h.messages ++ List.replicate n (.data true), none⟩, drained) := by
  induction n generalizing h with
  | zero =>
    rw [← hop]
    simp
  | succ n ih =>
    rw [replicate_succ, foldlM_cons, receive, if_neg (by simp [hop]),
      onData2_line_drained, bind_eq_bind, bind_some,
      ih (h := h.handleIPCMessage (.data true)) hop]
    simp [Handed.handleIPCMessage, replicate_succ]

theorem received_lines {n : ℕ} (hn : 0 < n) : received booleans .json (List.replicate n line) =
    some ⟨List.replicate n (.data true), none⟩ := by
  obtain ⟨n, rfl⟩ : ∃ k, n = k + 1 := ⟨n - 1, by omega⟩
  rw [received, replicate_succ, foldlM_cons, receive, if_neg (by simp [Handed.init]),
    onData2_line, bind_eq_bind, bind_some,
    foldlM_receive_lines n (h := Handed.init.handleIPCMessage (.data true)) rfl]
  simp [Handed.init, Handed.handleIPCMessage, replicate_succ]

theorem received_long (env : Env V) {stream : List UInt8} (hln : 2 ^ 32 ≤ stream.length) :
    received env .json [stream] = none := by
  have hwr : ByteList.empty.write env.growCapacity stream = none := by
    simp [ByteList.write, ByteList.empty]
    omega
  rw [received, foldlM_cons, receive, if_neg (by simp [Handed.init])]
  simp [onData2, IncomingBuffer.init, JSONLineBuffer.append, JSONLineBuffer.init, hwr]

theorem length_lines (n : ℕ) : (List.replicate n line).flatten.length = n * 5 := by
  rw [length_flatten, map_replicate, sum_replicate]
  rfl

/-- A gigabyte of lines: one by one they are handled, and in one piece they are too long. -/
theorem received_lines_ne :
    received booleans .json (List.replicate (2 ^ 30) line) =
      some ⟨List.replicate (2 ^ 30) (.data true), none⟩
    ∧ received booleans .json [(List.replicate (2 ^ 30) line).flatten] = none :=
  ⟨received_lines (by norm_num), received_long _ (by rw [length_lines]; norm_num)⟩

theorem fits_booleans : Fits booleans 100 where
  asserts := rfl
  memory text := by
    simp only [booleans]
    split_ifs <;> simp
  length_lt := by norm_num
  grows cap need hcap hnd := by
    simp only [booleans]
    omega

/-- Two messages in three pieces. -/
theorem received_any_cut_booleans : received booleans .advanced
    [[2, 1, 0], [0, 0, 1, 3], [1, 0, 0, 0, 0]] = some ⟨[.data true, .internal false], none⟩ := by
  obtain ⟨-, hfits, hsent⟩ :=
    received_any_cut booleans .advanced [[2, 1, 0], [0, 0, 1, 3], [1, 0, 0, 0, 0]]
  obtain ⟨r, hr⟩ := ne_none_iff_exists'.1 (hfits
    { fits_booleans with length_lt := by simp, grows := fun cap need hcap hneed =>
        fits_booleans.grows cap need hcap (hneed.trans (by simp)) }).1
  have hpackets := hsent [(true, .external), (false, .internal)]
    [[2, 1, 0, 0, 0, 1], [3, 1, 0, 0, 0, 0]] r rfl (by
      refine .cons ⟨?_, rfl, by simp⟩ (.cons ⟨?_, rfl, by simp⟩ .nil)
      all_goals
        intro bytes hbytes
        cases hbytes
        rfl) hr
  rw [hr, hpackets]
  rfl

end Cruller.Jsc.Ipc
