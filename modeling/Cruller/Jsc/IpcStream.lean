import Cruller.Lib.Framing
import Cruller.Jsc.Ipc

/-!
# However the bytes arrive

A packet of the advanced mode and a line of the JSON mode are frames of the stream (`framing`), and
each of the loops of `onData2` reads frames (`onData2_reads`). So the messages that are handed over,
and the error that ends them, are a function of the stream alone.
-/

namespace Cruller.Jsc.Ipc

open List Option

variable {V : Type} (env : Env V)

/-- What a frame holds: a message, or why there is none. -/
abbrev Content (V : Type) := Except IPCDecodeError (DecodedIPCMessage V)

/-- What a frame says. -/
def content : Option (Except IPCDecodeError (DecodeIPCMessageResult V)) → Content V
  | none => .error .OutOfMemory
  | some (.error e) => .error e
  | some (.ok result) => .ok result.message

/-- The packet at the front. -/
def packetFront (data : List UInt8) : Front (Content V) :=
  if data.length < advanced.header_length then .short
  else
    let message_len := leValue ((data.drop 1).take 4)
    match IPCMessageType.enumFromInt (data.headD 0) with
    | .Version => .frame (.ok (.version message_len)) advanced.header_length
    | .other _ => .bad
    | tag =>
      if data.length - advanced.header_length < message_len then .short
      else .frame (content (advanced.decodeMessage env tag data message_len))
        (advanced.header_length + message_len)

/-- The line at the front. -/
def lineFront (data : List UInt8) : Front (Content V) :=
  match data.findIdx? (· = newline) with
  | none => .short
  | some idx => .frame (content (json.decodeLine env data idx)) (idx + 1)

variable {data xs : List UInt8} {h h' : Handed V} {idx n : ℕ}
  {r : Except IPCDecodeError (DecodeIPCMessageResult V)}

variable (ys : List UInt8)

theorem decodeMessage_append {tag : IPCMessageType} {message_len : ℕ}
    (h5 : advanced.header_length ≤ data.length)
    (h : message_len ≤ data.length - advanced.header_length) :
    advanced.decodeMessage env tag (data ++ ys) message_len =
      advanced.decodeMessage env tag data message_len := by
  have hlen : message_len ≤ (data ++ ys).length - advanced.header_length := by
    rw [length_append]
    omega
  have htk : ((data ++ ys).drop advanced.header_length).take message_len =
      (data.drop advanced.header_length).take message_len := by
    rw [drop_append_of_le_length h5,
      take_append_of_le_length (by rw [length_drop]; exact h)]
  unfold advanced.decodeMessage
  rw [if_neg (not_lt.2 hlen), if_neg (not_lt.2 h), htk]

theorem decodeLine_append
    (h : idx ≤ data.length) :
    json.decodeLine env (data ++ ys) idx = json.decodeLine env data idx := by
  unfold json.decodeLine
  rw [take_append_of_le_length h]

theorem packetFront_append
    (h : packetFront env xs ≠ .short) : packetFront env (xs ++ ys) = packetFront env xs := by
  unfold packetFront at h ⊢
  have h5 : advanced.header_length ≤ xs.length := by
    by_contra hlt
    exact h (if_pos (not_le.1 hlt))
  have hpos : 0 < xs.length := lt_of_lt_of_le (by decide) h5
  rw [if_neg (not_lt.2 h5)] at h ⊢
  rw [if_neg (by rw [length_append]; omega)]
  have hwr : ((xs ++ ys).drop 1).take 4 = (xs.drop 1).take 4 := by
    rw [drop_append_of_le_length (by omega), take_append_of_le_length]
    rw [length_drop]
    exact Nat.le_sub_of_add_le h5
  have hhd : (xs ++ ys).headD 0 = xs.headD 0 := by
    cases xs with
    | nil => simp at hpos
    | cons x xs => rfl
  rw [hwr, hhd]
  dsimp only at h ⊢
  cases htag : IPCMessageType.enumFromInt (xs.headD 0) with
  | Version => rfl
  | other n => rfl
  | SerializedMessage | SerializedInternalMessage =>
    simp only [htag] at h
    by_cases hlen : xs.length - advanced.header_length < leValue ((xs.drop 1).take 4)
    · exact absurd (if_pos hlen) h
    · have hlen' := not_lt.1 hlen
      simp only [if_neg hlen, decodeMessage_append env ys h5 hlen']
      rw [if_neg (by rw [length_append]; omega)]

theorem packetFront_size {f : Content V} {size : ℕ}
    (h : packetFront env xs = .frame f size) : 0 < size ∧ size ≤ xs.length := by
  unfold packetFront at h
  split_ifs at h with h5
  have h5' : 5 ≤ xs.length := not_lt.1 h5
  dsimp only at h
  cases htag : IPCMessageType.enumFromInt (xs.headD 0) with
  | Version =>
    simp only [htag, Front.frame.injEq] at h
    obtain ⟨-, rfl⟩ := h
    exact ⟨by decide, h5'⟩
  | other n =>
    simp only [htag] at h
    simp at h
  | SerializedMessage | SerializedInternalMessage =>
    simp only [htag] at h
    split_ifs at h with hlen
    obtain ⟨-, rfl⟩ := Front.frame.inj h
    simp only [advanced.header_length] at hlen ⊢
    omega

/-- The framing of advanced mode: a header with the size of what follows. -/
def packets : Framing UInt8 (Content V) where
  front := packetFront env
  pos h := (packetFront_size env h).1
  le h := (packetFront_size env h).2
  append := packetFront_append env

theorem lineFront_eq_frame {f : Content V} {size : ℕ}
    (h : lineFront env xs = .frame f size) :
    ∃ idx, xs.findIdx? (· = newline) = some idx ∧ size = idx + 1 ∧ idx < xs.length := by
  unfold lineFront at h
  split at h
  · simp at h
  · rename_i idx hidx
    exact ⟨idx, hidx, (Front.frame.inj h).2.symm, (findIdx?_eq_some_iff_getElem.1 hidx).1⟩

/-- The framing of JSON mode: one message in each line. -/
def lines : Framing UInt8 (Content V) where
  front := lineFront env
  pos h := by
    obtain ⟨idx, -, rfl, -⟩ := lineFront_eq_frame env h
    exact Nat.succ_pos _
  le h := by
    obtain ⟨idx, -, rfl, hlt⟩ := lineFront_eq_frame env h
    exact hlt
  append {xs} ys h := by
    rcases hidx : xs.findIdx? (· = newline) with _ | idx
    · exact absurd (by rw [lineFront, hidx]) h
    · have hlt := (List.findIdx?_eq_some_iff_getElem.1 hidx).1
      rw [lineFront, lineFront, List.findIdx?_append, hidx, Option.some_or]
      simp only [decodeLine_append env ys hlt.le]

/-- The frames of a mode. -/
def framing : Mode → Framing UInt8 (Content V)
  | .advanced => packets env
  | .json => lines env

@[simp]
theorem front_advanced (xs : List UInt8) :
    (framing env .advanced).front xs = packetFront env xs := rfl

@[simp]
theorem front_json (xs : List UInt8) : (framing env .json).front xs = lineFront env xs := rfl

/-- A frame is handed over, or closes the channel. -/
def deliver (h : Handed V) : Content V → Option (Handed V)
  | .ok message => some (h.handleIPCMessage message)
  | .error e => some (h.closeSocket e)

/-- Reading what has arrived hands the messages over and leaves `rest` in the buffer. -/
abbrev Takes (mode : Mode) (h : Handed V) (xs : List UInt8) (h' : Handed V) (rest : List UInt8) :
    Prop :=
  (framing env mode).Reads deliver (·.closeSocket .InvalidFormat) (·.closed.isSome) h xs h' rest

/-- The decoder says what is at the front. -/
inductive Decodes (front : Front (Content V)) :
    Except IPCDecodeError (DecodeIPCMessageResult V) → Prop
  | short : front = .short → Decodes front (.error .NotEnoughBytes)
  | bad : front = .bad → Decodes front (.error .InvalidFormat)
  | failed {e : IPCDecodeError} {size : ℕ} : e ≠ .NotEnoughBytes → front = .frame (.error e) size →
    Decodes front (.error e)
  | ok {result : DecodeIPCMessageResult V} :
    front = .frame (.ok result.message) result.bytes_consumed → Decodes front (.ok result)

theorem IPCDecodeError.ofJS_ne (e : BunError) : IPCDecodeError.ofJS e ≠ .NotEnoughBytes := by
  cases e <;> nofun

theorem decodeMessage_decodes {tag : IPCMessageType} {message_len : ℕ}
    (h : advanced.decodeMessage env tag data message_len = some r) :
    Decodes (if data.length - advanced.header_length < message_len then .short
      else .frame (content (advanced.decodeMessage env tag data message_len))
        (advanced.header_length + message_len)) r := by
  rw [h]
  unfold advanced.decodeMessage at h
  by_cases hlen : data.length - advanced.header_length < message_len
  · rw [if_pos hlen] at h ⊢
    obtain rfl := some.inj h
    exact .short rfl
  · rw [if_neg hlen] at h ⊢
    split at h
    · obtain rfl := some.inj h
      exact .failed (IPCDecodeError.ofJS_ne _) rfl
    · split_ifs at h
      all_goals
        obtain rfl := some.inj h
        exact .ok rfl

theorem advanced_decodes
    (h : advanced.decodeIPCMessage env data = some r) :
    Decodes ((framing env .advanced).front data) r := by
  change Decodes (packetFront env data) r
  unfold advanced.decodeIPCMessage at h
  unfold packetFront
  split_ifs at h ⊢ with h5
  · obtain rfl := some.inj h
    exact .short rfl
  · dsimp only at h ⊢
    cases htag : IPCMessageType.enumFromInt (data.headD 0) with
    | Version =>
      simp only [htag, some.injEq] at h
      subst h
      exact .ok rfl
    | other n =>
      simp only [htag, some.injEq] at h
      subst h
      exact .bad rfl
    | SerializedMessage | SerializedInternalMessage =>
      simp only [htag] at h
      exact decodeMessage_decodes env h

theorem decodeValue_ne {json_data : List UInt8} :
    json.decodeValue env json_data ≠ some (.error .NotEnoughBytes) := by
  unfold json.decodeValue
  dsimp only
  split
  · simp
  · split
    · simp
    · split <;> simp

theorem decodeLine_ne :
    json.decodeLine env data idx ≠ some (.error .NotEnoughBytes) := by
  unfold json.decodeLine
  split
  · simp
  · intro h
    obtain ⟨v, hv, h⟩ := bind_eq_some_iff.1 h
    cases v with
    | error e =>
      obtain rfl : e = .NotEnoughBytes := by simpa using h
      exact decodeValue_ne env hv
    | ok v =>
      dsimp only at h
      split_ifs at h <;> simp at h

theorem decodeLine_consumed {result : DecodeIPCMessageResult V}
    (h : json.decodeLine env data idx = some (.ok result)) : result.bytes_consumed = idx + 1 := by
  unfold json.decodeLine at h
  split at h
  · simp at h
  · obtain ⟨v, -, h⟩ := bind_eq_some_iff.1 h
    cases v with
    | error e => simp at h
    | ok v =>
      dsimp only at h
      split_ifs at h
      all_goals
        obtain rfl := Except.ok.inj (some.inj h)
        rfl

theorem decodeLine_decodes
    (hidx : data.findIdx? (· = newline) = some idx) (h : json.decodeLine env data idx = some r) :
    Decodes ((framing env .json).front data) r := by
  have hfr : (framing env .json).front data = .frame (content (some r)) (idx + 1) := by
    simp [lineFront, hidx, h]
  cases r with
  | error e => exact .failed (fun he => decodeLine_ne env (he ▸ h)) hfr
  | ok result => exact .ok (by rw [hfr, decodeLine_consumed env h]; rfl)

section Loops

variable {mode : Mode} {h h' : Handed V} {xs : List UInt8}
  {r : Except IPCDecodeError (DecodeIPCMessageResult V)}

theorem takes_short (hd : Decodes ((framing env mode).front xs) (.error .NotEnoughBytes)) :
    Takes env mode h xs h xs := by
  cases hd with
  | short hf => exact .short hf
  | failed hne _ => exact absurd rfl hne

theorem takes_error {e : IPCDecodeError} (hne : e ≠ .NotEnoughBytes)
    (hd : Decodes ((framing env mode).front xs) (.error e)) (rest : List UInt8) :
    Takes env mode h xs (h.closeSocket e) rest := by
  cases hd with
  | short _ => exact absurd rfl hne
  | bad hf => exact .bad (fun _ => rfl) hf rest
  | failed _ hf => exact .fails hf rfl rfl rest

theorem takes_ok {result : DecodeIPCMessageResult V} (hop : h.closed = none)
    (hd : Decodes ((framing env mode).front xs) (.ok result)) {rest : List UInt8}
    (hrs : Takes env mode (h.handleIPCMessage result.message) (xs.drop result.bytes_consumed) h'
      rest) : Takes env mode h xs h' rest := by
  cases hd with
  | ok hf => exact .frame hf rfl (by simp [Handed.handleIPCMessage, hop]) hrs

end Loops

theorem takes_nil (mode : Mode) (h : Handed V) : Takes env mode h [] h [] := by
  cases mode <;> exact .short rfl

theorem directLoop_takes {adv_buf buf : ByteList} (hem : adv_buf.slice = [])
    (hop : h.closed = none) (hn : data.length < n)
    (hlp : directLoop env adv_buf n h data = some (h', buf)) :
    Takes env .advanced h data h' buf.slice := by
  induction n generalizing h data with
  | zero => omega
  | succ n ih =>
    obtain ⟨r, hr, hlp⟩ := bind_eq_some_iff.1 hlp
    have hd := advanced_decodes env hr
    rcases r with e | result
    · cases e with
      | NotEnoughBytes =>
        obtain ⟨buf', hbuf, heq⟩ := map_eq_some_iff.1 hlp
        obtain ⟨rfl, rfl⟩ := Prod.mk.inj heq
        rw [ByteList.slice_write hbuf, hem, nil_append]
        exact takes_short env hd
      | InvalidFormat | JSError | JSTerminated | OutOfMemory =>
        obtain ⟨rfl, rfl⟩ := Prod.mk.inj (some.inj hlp)
        exact takes_error env (by decide) hd _
    · refine takes_ok env hop hd ?_
      have hsz : 0 < result.bytes_consumed ∧ result.bytes_consumed ≤ data.length := by
        cases hd with
        | ok hf => exact packetFront_size env hf
      dsimp only at hlp
      split_ifs at hlp with hmr
      · exact ih (h := h.handleIPCMessage result.message) hop
          (by rw [length_drop]; omega) hlp
      · obtain ⟨rfl, rfl⟩ := Prod.mk.inj (some.inj hlp)
        rw [hem, drop_eq_nil_of_le (not_lt.1 hmr)]
        exact takes_nil env _ _

/-- The loop over the buffer takes the frames that are complete and leaves the rest. -/
theorem bufferedLoop_takes {adv_buf buf : ByteList} {start : ℕ}
    (hop : h.closed = none) (hn : adv_buf.len - start < n)
    (hlp : bufferedLoop env adv_buf n h start = some (h', buf)) :
    Takes env .advanced h (adv_buf.slice.drop start) h' buf.slice := by
  induction n generalizing h start with
  | zero => omega
  | succ n ih =>
    obtain ⟨r, hr, hlp⟩ := bind_eq_some_iff.1 hlp
    have hd := advanced_decodes env hr
    rcases r with e | result
    · cases e with
      | NotEnoughBytes =>
        obtain ⟨rfl, rfl⟩ := Prod.mk.inj (some.inj hlp)
        exact takes_short env hd
      | InvalidFormat | JSError | JSTerminated | OutOfMemory =>
        obtain ⟨rfl, rfl⟩ := Prod.mk.inj (some.inj hlp)
        exact takes_error env (by decide) hd _
    · refine takes_ok env hop hd ?_
      have hsz : 0 < result.bytes_consumed
          ∧ result.bytes_consumed ≤ (adv_buf.slice.drop start).length := by
        cases hd with
        | ok hf => exact packetFront_size env hf
      rw [length_drop] at hsz
      dsimp only at hlp
      split_ifs at hlp with hmr
      · rw [drop_drop]
        exact ih (h := h.handleIPCMessage result.message) hop
          (by rw [ByteList.len] at hn ⊢; omega) hlp
      · obtain ⟨rfl, rfl⟩ := Prod.mk.inj (some.inj hlp)
        rw [drop_eq_nil_of_le (not_lt.1 hmr), ByteList.slice_moveToFront, ByteList.len,
          drop_length]
        exact takes_nil env _ _

/-- The loop hands over the lines that have ended. -/
theorem lineLoop_takes {json_buf buf : JSONLineBuffer}
    (hop : h.closed = none) (hs : json_buf.Scanned) (hn : json_buf.activeSlice.length < n)
    (hlp : lineLoop env n h json_buf = some (h', buf)) :
    Takes env .json h json_buf.activeSlice h' buf.activeSlice ∧ buf.Scanned := by
  induction n generalizing h json_buf with
  | zero => omega
  | succ n ih =>
    rw [lineLoop, JSONLineBuffer.next_eq hs] at hlp
    rcases hidx : json_buf.activeSlice.findIdx? (· = newline) with _ | idx
    · rw [hidx] at hlp
      obtain ⟨rfl, rfl⟩ := Prod.mk.inj (some.inj hlp)
      have hsh : lineFront env json_buf.activeSlice = .short := by rw [lineFront, hidx]
      exact ⟨.short hsh, hs⟩
    · rw [hidx] at hlp
      obtain ⟨r, hr, hlp⟩ := bind_eq_some_iff.1 hlp
      have hlt := (findIdx?_eq_some_iff_getElem.1 hidx).1
      have hln : json.decodeLine env json_buf.activeSlice idx = some r := by
        rw [← hr, json.decodeIPCMessage]
        conv_lhs => rw [← take_append_drop (idx + 1) json_buf.activeSlice]
        exact decodeLine_append env _ (by rw [List.length_take]; omega)
      have hd := decodeLine_decodes env hidx hln
      rcases r with e | result
      · cases e with
        | NotEnoughBytes => exact absurd hln (decodeLine_ne env)
        | InvalidFormat | JSError | JSTerminated | OutOfMemory =>
          obtain ⟨rfl, rfl⟩ := Prod.mk.inj (some.inj hlp)
          exact ⟨takes_error env (by decide) hd _, hs⟩
      · have hcn := decodeLine_consumed env hln
        obtain ⟨hac, hs'⟩ := JSONLineBuffer.scanned_consume hs (hs.newline_pos_eq.trans hidx)
        rw [← hcn] at hac hs'
        obtain ⟨htk, hsc⟩ := ih (h := h.handleIPCMessage result.message) hop hs'
          (by rw [hac, length_drop]; omega) hlp
        rw [hac] at htk
        exact ⟨takes_ok env hop hd htk, hsc⟩

namespace IncomingBuffer

def mode : IncomingBuffer → Mode
  | advanced _ => .advanced
  | json _ => .json

/-- What has not been decoded yet. -/
def rest : IncomingBuffer → List UInt8
  | advanced buf => buf.slice
  | json buf => buf.activeSlice

/-- The bytes in the buffer, those that have been consumed among them. -/
def len : IncomingBuffer → ℕ
  | advanced buf => buf.len
  | json buf => buf.data.len

/-- The buffer knows where its first line ends. -/
def Good : IncomingBuffer → Prop
  | advanced _ => True
  | json buf => buf.Scanned

theorem good_init (mode : Mode) :
    (init mode).Good ∧ (init mode).rest = [] ∧ (init mode).mode = mode := by
  cases mode with
  | advanced => exact ⟨trivial, rfl, rfl⟩
  | json => exact ⟨JSONLineBuffer.scanned_init, rfl, rfl⟩

end IncomingBuffer

/-- A chunk is taken as though it stood behind what was left over. -/
theorem onData2_takes {incoming incoming' : IncomingBuffer}
    (hop : h.closed = none) (hgd : incoming.Good)
    (hcl : onData2 env h incoming data = some (h', incoming')) :
    Takes env incoming.mode h (incoming.rest ++ data) h' incoming'.rest
      ∧ incoming'.Good ∧ incoming'.mode = incoming.mode := by
  cases incoming with
  | json json_buf =>
    obtain ⟨buf, hbuf, hcl⟩ := bind_eq_some_iff.1 hcl
    obtain ⟨⟨h₁, buf₁⟩, hlp, heq⟩ := map_eq_some_iff.1 hcl
    obtain ⟨rfl, rfl⟩ := Prod.mk.inj heq
    have hac := JSONLineBuffer.active_append hgd hbuf
    have hlen := buf.length_activeSlice
    obtain ⟨htk, hsc⟩ := lineLoop_takes env hop
      (JSONLineBuffer.scanned_append hgd hbuf) (by omega) hlp
    rw [hac] at htk
    exact ⟨htk, hsc, rfl⟩
  | advanced adv_buf =>
    simp only [onData2] at hcl
    split_ifs at hcl with hlen
    · have hem : adv_buf.slice = [] := length_eq_zero_iff.1 hlen
      obtain ⟨⟨h₁, buf₁⟩, hlp, heq⟩ := map_eq_some_iff.1 hcl
      obtain ⟨rfl, rfl⟩ := Prod.mk.inj heq
      have htk := directLoop_takes env hem hop (Nat.lt_succ_self _) hlp
      simp only [IncomingBuffer.rest, hem, nil_append]
      exact ⟨htk, trivial, rfl⟩
    · obtain ⟨buf, hbuf, hcl⟩ := bind_eq_some_iff.1 hcl
      obtain ⟨⟨h₁, buf₁⟩, hlp, heq⟩ := map_eq_some_iff.1 hcl
      obtain ⟨rfl, rfl⟩ := Prod.mk.inj heq
      have htk := bufferedLoop_takes env hop (by omega) hlp
      rw [drop_zero, ByteList.slice_write hbuf] at htk
      exact ⟨htk, trivial, rfl⟩

theorem foldlM_receive_closed (pieces : List (List UInt8))
    (incoming : IncomingBuffer) {e : IPCDecodeError} (hcl : h.closed = some e) :
    pieces.foldlM (receive env) (h, incoming) = some (h, incoming) := by
  induction pieces with
  | nil => rfl
  | cons piece pieces ih =>
    rw [foldlM_cons, receive, if_pos (by simp [hcl])]
    exact ih

theorem foldlM_receive_takes {pieces : List (List UInt8)}
    {incoming incoming' : IncomingBuffer} (hop : h.closed = none) (hgd : incoming.Good)
    (hfr : (framing env incoming.mode).front incoming.rest = .short)
    (hrun : pieces.foldlM (receive env) (h, incoming) = some (h', incoming')) :
    ∃ rest, Takes env incoming.mode h (incoming.rest ++ pieces.flatten) h' rest := by
  induction pieces generalizing h incoming with
  | nil =>
    obtain ⟨rfl, rfl⟩ := Prod.mk.inj (some.inj hrun)
    rw [flatten_nil, append_nil]
    exact ⟨_, .short hfr⟩
  | cons piece pieces ih =>
    rw [foldlM_cons] at hrun
    obtain ⟨⟨h₁, incoming₁⟩, hone, hrun⟩ := bind_eq_some_iff.1 hrun
    rw [receive, if_neg (by simp [hop])] at hone
    obtain ⟨htk, hgd₁, hmd⟩ := onData2_takes env hop hgd hone
    have hfl : h.closed.isSome = false := by rw [hop]; rfl
    rw [flatten_cons, ← append_assoc]
    rcases hcl : h₁.closed with _ | e
    · have hfl₁ : h₁.closed.isSome = false := by rw [hcl]; rfl
      have hfr₁ := htk.front_rest (fun _ => rfl) hfl₁
      rw [← hmd] at hfr₁
      obtain ⟨rest, hrs⟩ := ih hcl hgd₁ hfr₁ hrun
      rw [hmd] at hrs
      exact ⟨rest, htk.append (fun _ => rfl) hfl hfl₁ hrs⟩
    · -- the socket is closed, and nothing more comes
      have hst := foldlM_receive_closed env pieces incoming₁ hcl
      obtain ⟨rfl, rfl⟩ := Prod.mk.inj (some.inj (hst.symm.trans hrun))
      exact ⟨[], htk.append_failed (fun _ => rfl) hfl (by simp [hcl]) _ _⟩

theorem received_takes {mode : Mode} {pieces : List (List UInt8)} {r : Handed V}
    (h : received env mode pieces = some r) :
    ∃ rest, Takes env mode .init pieces.flatten r rest := by
  obtain ⟨⟨r', incoming⟩, hrun, rfl⟩ := map_eq_some_iff.1 h
  obtain ⟨hgd, hrs, hmd⟩ := IncomingBuffer.good_init mode
  obtain ⟨rest, htk⟩ := foldlM_receive_takes env rfl hgd
    (by rw [hrs]; cases mode <;> rfl) hrun
  rw [hrs, hmd] at htk
  exact ⟨rest, htk⟩

end Cruller.Jsc.Ipc
