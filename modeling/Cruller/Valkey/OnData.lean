import Cruller.Valkey.Encoding

/-!
# Values out of chunks: `onData`

A chunk is read where it lies as long as the read buffer is empty, and else behind what the buffer
holds; what is left of a value goes to the buffer. The rest of the client is a `Handler`: what it
makes of a value, when it stops, and whether its socket still hands over data.

However the bytes of well-formed values are cut, the values are handled that one chunk would hand
over (`Expects.receive`), as long as no value is fragile and the client does not stop with its
socket open before the last one: `Steady`. Otherwise some cut loses or adds one
(`exists_other_cut`).
-/

namespace Cruller.Valkey

open List Option ValkeyReader

variable {σ δ : Type}

/-- `byte_list` and how much of it has been consumed. -/
structure OffsetByteList where
  head : ℕ
  byte_list : List UInt8
deriving DecidableEq

namespace OffsetByteList

def empty : OffsetByteList := ⟨0, []⟩

/-- What has not been read yet. -/
def remaining (b : OffsetByteList) : List UInt8 := b.byte_list.drop b.head

/-- `none` where the length, or the capacity that comes with it, does not fit into its `u32`; this
is from `limit` on. -/
def write (limit : UInt32) (b : OffsetByteList) (bytes : List UInt8) : Option OffsetByteList :=
  if b.byte_list.length + bytes.length ≤ limit.toNat then
    some { b with byte_list := b.byte_list ++ bytes }
  else none

/-- The head is a `u32`, which saturates. -/
def consume (b : OffsetByteList) (bytes : ℕ) : OffsetByteList :=
  let head := min (b.head + bytes) (2 ^ 32 - 1)
  if b.byte_list.length ≤ head then empty else { b with head := head }

end OffsetByteList

/-- The client without its read buffer. A failure's message has no say in whether the socket stays
open. -/
structure Handler (σ δ : Type) where
  handleResponse : σ → RESPValue δ → σ × Option RedisError
  fail : σ → String → RedisError → σ
  sendNextCommand : σ → σ
  /-- Disconnected or failed. -/
  stopped : σ → Bool
  /-- The socket hands over what arrives. -/
  isOpen : σ → Bool
  isOpen_fail : ∀ s m m' e, isOpen (fail s m e) = isOpen (fail s m' e)

/-- The client, with the values that have been handled so far. -/
structure Receiver (σ δ : Type) where
  read_buffer : OffsetByteList
  session : σ
  handled : List (RESPValue δ)

/-- Where `onData` reads: the buffer, or the chunk on the stack. -/
inductive DataPath where
  | buffer
  | stack
deriving DecidableEq

def DataPath.name : DataPath → String
  | buffer => "buffer path"
  | stack => "stack path"

namespace Handler

variable (h : Handler σ δ) (fl : FloatText δ) (limit : UInt32)

/-- A value is handled; whether to go on with the next. -/
def settle (path : DataPath) (s : σ) (value : RESPValue δ) : σ × Bool :=
  match h.handleResponse s value with
  | (s, some err) => (h.fail s ("Failed to handle response (" ++ path.name ++ ")") err, false)
  | (s, none) => if h.stopped s then (s, false) else (h.sendNextCommand s, true)

/-- Past a value: the rest of the data, in the buffer or on the stack. -/
def advance (path : DataPath) (c : Receiver σ δ) (consumed : ℕ) (rest : List UInt8) :
    Receiver σ δ × List UInt8 :=
  match path with
  | .buffer =>
    let read_buffer := c.read_buffer.consume (consumed % 2 ^ 32)
    ({ c with read_buffer }, read_buffer.remaining)
  | .stack => (c, rest)

/-- What is left waits for more, in the buffer. -/
def keep (path : DataPath) (c : Receiver σ δ) (data : List UInt8) : Option (Receiver σ δ) :=
  match path with
  | .buffer => some c
  | .stack => (c.read_buffer.write limit data).map fun read_buffer => { c with read_buffer }

/-- As many values as are complete; `n` bounds the rounds. -/
def readLoop (path : DataPath) : ℕ → Receiver σ δ → List UInt8 → Option (Receiver σ δ)
  | 0, c, _ => some c
  | n + 1, c, data =>
    if data = [] then some c
    else
      match readValue fl data with
      | .error .InvalidResponse => keep limit path c data
      | .error err =>
        some { c with
          session := h.fail c.session ("Failed to read data (" ++ path.name ++ ")") err }
      | .ok (value, rest) =>
        let consumed := data.length - rest.length
        if consumed = 0 then
          some { c with
            session := h.fail c.session
              ("Parser consumed 0 bytes unexpectedly (" ++ path.name ++ ")") .InvalidResponse }
        else
          let (c, data) := advance path c consumed rest
          let (session, more) := h.settle path c.session value
          let c := { c with session, handled := c.handled ++ [value] }
          if more then readLoop path n c data else some c

/-- `none` is a crash. -/
def onData (c : Receiver σ δ) (data : List UInt8) : Option (Receiver σ δ) :=
  if c.read_buffer.remaining = [] then h.readLoop fl limit .stack (data.length + 1) c data
  else do
    let read_buffer ← c.read_buffer.write limit data
    h.readLoop fl limit .buffer (read_buffer.remaining.length + 1) { c with read_buffer }
      read_buffer.remaining

/-- A chunk arrives: a socket that is closed hands nothing over. -/
def receive (c : Receiver σ δ) (chunk : List UInt8) : Option (Receiver σ δ) :=
  if h.isOpen c.session then h.onData fl limit c chunk else some c

/-- The values that are handled when the chunks arrive one after another at an empty buffer. -/
def handledOf (s : σ) (chunks : List (List UInt8)) : Option (List (RESPValue δ)) :=
  (chunks.foldlM (h.receive fl limit) ⟨.empty, s, []⟩).map Receiver.handled

/-- The values that are handled as long as the client goes on. -/
def served (s : σ) : List (RESPValue δ) → List (RESPValue δ)
  | [] => []
  | v :: vs => v :: if (h.settle .stack s v).2 then served (h.settle .stack s v).1 vs else []

/-- No value is fragile, and the client does not stop, or have its socket closed while it goes on,
before the last one. -/
def Steady (s : σ) : List (RESPValue δ) → Prop
  | [] => True
  | v :: vs => ¬ v.Fragile ∧
    if (h.settle .stack s v).2 then
      vs ≠ [] → h.isOpen (h.settle .stack s v).1 ∧ Steady (h.settle .stack s v).1 vs
    else vs ≠ [] → ¬ h.isOpen (h.settle .stack s v).1

section

variable {h fl limit}

theorem settle_isOpen (path : DataPath) (s : σ) (v : RESPValue δ) :
    (h.settle path s v).2 = (h.settle .stack s v).2
      ∧ h.isOpen (h.settle path s v).1 = h.isOpen (h.settle .stack s v).1 := by
  simp only [settle]
  rcases h.handleResponse s v with ⟨s', _ | e⟩
  · exact ⟨rfl, rfl⟩
  · exact ⟨rfl, h.isOpen_fail ..⟩

theorem settle_of_more {path : DataPath} {s : σ} {v : RESPValue δ}
    (hmr : (h.settle .stack s v).2 = true) : h.settle path s v = h.settle .stack s v := by
  simp only [settle] at hmr ⊢
  rcases hr : h.handleResponse s v with ⟨s', _ | e⟩
  · rfl
  · rw [hr] at hmr
    exact absurd hmr Bool.false_ne_true

end

end Handler

namespace OffsetByteList

variable {b : OffsetByteList}

/-- The buffer holds `data` yet to be read, and is reset when there is none. -/
structure Filled (b : OffsetByteList) (data : List UInt8) : Prop where
  remaining : b.remaining = data
  head : b.head ≤ b.byte_list.length
  reset : data = [] → b = empty

theorem filled_empty : empty.Filled [] := ⟨rfl, Nat.le_refl _, fun _ => rfl⟩

theorem Filled.length {data : List UInt8} (hb : b.Filled data) :
    b.byte_list.length = b.head + data.length := by
  have hlen := congrArg List.length hb.remaining
  have := hb.head
  rw [OffsetByteList.remaining, length_drop] at hlen
  omega

theorem Filled.write {data : List UInt8} (hb : b.Filled data) {limit : UInt32} {bytes : List UInt8}
    (hrm : b.byte_list.length + bytes.length ≤ limit.toNat) (hne : data ++ bytes ≠ []) :
    ∃ b', b.write limit bytes = some b' ∧ b'.Filled (data ++ bytes)
      ∧ b'.byte_list.length = b.byte_list.length + bytes.length := by
  refine ⟨_, if_pos hrm, ⟨?_, ?_, fun h => absurd h hne⟩, length_append⟩
  · rw [← hb.remaining]
    exact drop_append_of_le_length hb.head
  · have := hb.head
    simp only [length_append]
    omega

theorem Filled.consume {w q : List UInt8} (hb : b.Filled (w ++ q))
    (hlen : b.byte_list.length < 2 ^ 32) :
    (b.consume (w.length % 2 ^ 32)).Filled q
      ∧ (b.consume (w.length % 2 ^ 32)).byte_list.length ≤ b.byte_list.length := by
  have hall := hb.length
  rw [length_append] at hall
  have hhd : min (b.head + w.length % 2 ^ 32) (2 ^ 32 - 1) = b.head + w.length := by
    rw [Nat.mod_eq_of_lt (by omega)]
    omega
  rw [OffsetByteList.consume, hhd]
  split_ifs with hend
  · have hq : q = [] := length_eq_zero_iff.1 (by omega)
    rw [hq]
    exact ⟨filled_empty, Nat.zero_le _⟩
  · refine ⟨⟨?_, ?_, ?_⟩, le_rfl⟩
    · change b.byte_list.drop (b.head + w.length) = q
      rw [← drop_drop, show b.byte_list.drop b.head = w ++ q from hb.remaining,
        drop_left]
    · simp
      omega
    · rintro rfl
      simp at hall
      omega

end OffsetByteList

open OffsetByteList

namespace Handler

variable {h : Handler σ δ} {fl : FloatText δ} {limit : UInt32}

/-- The client is to handle `total` in all when it has read `rest` as well. -/
inductive Expects (h : Handler σ δ) (fl : FloatText δ) (limit : UInt32)
    (total : List (RESPValue δ)) (c : Receiver σ δ) (rest : List UInt8) : Prop
  | closed : h.isOpen c.session = false → c.handled = total → Expects h fl limit total c rest
  | ready {vs : List (RESPValue δ)} {data : List UInt8} : h.isOpen c.session = true →
    c.read_buffer.Filled data → (data ≠ [] → readValue fl data = .error .InvalidResponse) →
    c.read_buffer.byte_list.length + rest.length ≤ limit.toNat →
    Encodes fl max_nesting_depth vs (data ++ rest) → h.Steady c.session vs →
    c.handled ++ h.served c.session vs = total → Expects h fl limit total c rest

variable {c : Receiver σ δ} {path : DataPath} {n size : ℕ} {total vs : List (RESPValue δ)}
  {data rest : List UInt8} {s : σ}

theorem Expects.of_end
    (hbuf : c.read_buffer = empty) (htl : c.handled = total) : Expects h fl limit total c [] := by
  rcases hop : h.isOpen c.session
  · exact .closed hop htl
  · have hst : h.Steady c.session [] := trivial
    refine .ready hop (hbuf ▸ filled_empty) (by simp) (by simp [hbuf, empty]) (.nil _) hst ?_
    rw [served, append_nil, htl]

theorem Expects.handled
    (hc : Expects h fl limit total c []) : c.handled = total := by
  rcases hc with ⟨-, htl⟩ | @⟨vs, data, -, hfl, hsh, -, henc, -, htl⟩
  · exact htl
  · rw [append_nil] at henc
    rcases vs with _ | ⟨v, vs⟩
    · rwa [served, append_nil] at htl
    · obtain ⟨w, rest, rfl, hne, hw, -⟩ := henc.uncons
      have := hsh (by simp [hne])
      rw [show readValue fl (w ++ rest) = .ok (v, rest) from hw.takes.reads rest] at this
      simp at this

/-- How the data lies in the buffer, and how much the buffer may have to hold. -/
def Placed (path : DataPath) (b : OffsetByteList) (data : List UInt8) (size : ℕ) : Prop :=
  match path with
  | .buffer => b.Filled data ∧ b.byte_list.length = size
  | .stack => b = empty ∧ data.length = size

theorem Placed.advance {w q : List UInt8}
    (hp : Placed path c.read_buffer (w ++ q) size) (hsz : size ≤ limit.toNat) :
    ∃ b size', advance path c w.length q = ({ c with read_buffer := b }, q)
      ∧ Placed path b q size' ∧ size' ≤ size := by
  have hlt := limit.toNat_lt
  rcases path with _ | _
  · obtain ⟨hfl, rfl⟩ := hp
    obtain ⟨hq, hle⟩ := hfl.consume (by omega)
    refine ⟨c.read_buffer.consume (w.length % 2 ^ 32), _, ?_, ⟨hq, rfl⟩, hle⟩
    simp only [Handler.advance, hq.remaining]
  · obtain ⟨hbuf, hlen⟩ := hp
    refine ⟨c.read_buffer, q.length, rfl, ⟨hbuf, rfl⟩, ?_⟩
    rw [← hlen, length_append]
    omega

theorem Placed.eq_empty {b : OffsetByteList}
    (hp : Placed path b [] size) : b = empty := by
  rcases path with _ | _
  · exact hp.1.reset rfl
  · exact hp.1

theorem readLoop_nil :
    h.readLoop fl limit path n c [] = some c := by
  rcases n with _ | n <;> simp [readLoop]

theorem readLoop_value {v : RESPValue δ}
    {w q : List UInt8} (hw : Encodes fl max_nesting_depth [v] w) (hne : w ≠ []) :
    h.readLoop fl limit path (n + 1) c (w ++ q) =
      let d := advance path c w.length q
      let r := h.settle path d.1.session v
      let c' := { d.1 with session := r.1, handled := d.1.handled ++ [v] }
      if r.2 then h.readLoop fl limit path n c' d.2 else some c' := by
  have hrd : readValue fl (w ++ q) = .ok (v, q) := hw.takes.reads q
  have hcn : (w ++ q).length - q.length = w.length := by simp
  have hpos : w.length ≠ 0 := by simpa using hne
  rw [readLoop, if_neg (by simp [hne]), hrd]
  simp only [hcn, if_neg hpos]

theorem readLoop_short
    (hnil : data ≠ []) (hrd : readValue fl data = .error .InvalidResponse)
    (hp : Placed path c.read_buffer data size) (hrm : size + rest.length ≤ limit.toNat) :
    ∃ b, h.readLoop fl limit path (n + 1) c data = some { c with read_buffer := b }
      ∧ b.Filled data ∧ b.byte_list.length + rest.length ≤ limit.toNat := by
  rw [readLoop, if_neg hnil, hrd]
  rcases path with _ | _
  · obtain ⟨hfl, rfl⟩ := hp
    exact ⟨c.read_buffer, rfl, hfl, hrm⟩
  · obtain ⟨hbuf, rfl⟩ := hp
    have hfits : empty.byte_list.length + data.length ≤ limit.toNat := by
      simp only [OffsetByteList.empty, length_nil]
      omega
    obtain ⟨b, hb, hfl, hlen⟩ := filled_empty.write hfits (by simpa using hnil)
    refine ⟨b, ?_, hfl, ?_⟩
    · simp [keep, hbuf, hb]
    · simp [hlen, OffsetByteList.empty]
      omega

/-- The loop hands over every value that has come whole. -/
theorem readLoop_expects
    (hn : data.length < n)
    (hop : h.isOpen c.session = true) (henc : Encodes fl max_nesting_depth vs (data ++ rest))
    (hst : h.Steady c.session vs) (hp : Placed path c.read_buffer data size)
    (hrm : size + rest.length ≤ limit.toNat) :
    ∃ c', h.readLoop fl limit path n c data = some c'
      ∧ Expects h fl limit (c.handled ++ h.served c.session vs) c' rest := by
  induction n generalizing c data size vs with
  | zero => omega
  | succ n ih =>
    rcases eq_or_ne data [] with rfl | hnil
    · have hfl : c.read_buffer.Filled [] := hp.eq_empty ▸ filled_empty
      refine ⟨c, readLoop_nil, .ready hop hfl (by simp) ?_ henc hst rfl⟩
      rw [hp.eq_empty]
      simp only [OffsetByteList.empty, length_nil]
      omega
    rcases vs with _ | ⟨v, vs⟩
    · exact absurd (append_eq_nil_iff.1 henc.eq_nil).1 hnil
    obtain ⟨w, bs, heq, hne, hw, hbs⟩ := henc.uncons
    have hsn := hst.1
    rcases prefix_append_cases (p := data) ⟨rest, heq⟩ with ⟨hpre, hlt⟩ | ⟨q, rfl, hq⟩
    · have hsh : readValue fl data = .error .InvalidResponse :=
        hw.takes.short hsn data hpre hlt
      obtain ⟨b, hlp, hfl, hlen⟩ := readLoop_short (n := n) (h := h) hnil hsh hp hrm
      exact ⟨_, hlp, .ready hop hfl (fun _ => hsh) hlen henc hst rfl⟩
    · rw [append_assoc, append_cancel_left_eq] at heq
      subst heq
      obtain ⟨b, size', hadv, hp', hle⟩ := hp.advance (by omega : size ≤ limit.toNat)
      obtain ⟨hmr, hiso⟩ := h.settle_isOpen path c.session v
      rw [readLoop_value hw hne, hadv, served]
      dsimp only
      rw [hmr]
      rcases vs with _ | ⟨u, us⟩
      · -- it was the last value
        obtain ⟨rfl, rfl⟩ := append_eq_nil_iff.1 hbs.eq_nil
        refine ⟨⟨b, (h.settle path c.session v).1, c.handled ++ [v]⟩, ?_,
          .of_end hp'.eq_empty ?_⟩
        · split_ifs
          · exact readLoop_nil
          · rfl
        · simp [served]
      · have hgs := hst.2
        rcases hgo : (h.settle .stack c.session v).2
        · -- the client has stopped, with its socket closed
          rw [hgo, if_neg Bool.false_ne_true] at hgs
          refine ⟨_, rfl, .closed ?_ rfl⟩
          rw [hiso]
          exact Bool.not_eq_true _ ▸ hgs (by simp)
        · rw [hgo, if_pos rfl] at hgs
          obtain ⟨hop', hst'⟩ := hgs (by simp)
          rw [settle_of_more hgo]
          obtain ⟨c', hc', hexp⟩ := ih
            (c := ⟨b, (h.settle .stack c.session v).1, c.handled ++ [v]⟩) (by
              have := length_pos_iff.2 hne
              rw [length_append] at hn
              omega) hop' hbs hst' hp' (by omega)
          refine ⟨c', hc', ?_⟩
          simpa using hexp

theorem Expects.receive {chunk : List UInt8}
    (hc : Expects h fl limit total c (chunk ++ rest)) :
    ∃ c', h.receive fl limit c chunk = some c' ∧ Expects h fl limit total c' rest := by
  rcases hc with ⟨hcl, htl⟩ | @⟨vs, data, hop, hfl, hsh, hrm, henc, hst, rfl⟩
  · exact ⟨c, by rw [Handler.receive, hcl]; rfl, .closed hcl htl⟩
  · rw [← append_assoc] at henc
    rw [length_append] at hrm
    rw [Handler.receive, if_pos hop, onData, hfl.remaining]
    split_ifs with hnil
    · subst hnil
      have hbuf := hfl.reset rfl
      refine readLoop_expects (by omega) hop henc hst ⟨hbuf, rfl⟩ (by omega)
    · have hfits : c.read_buffer.byte_list.length + chunk.length ≤ limit.toNat := by omega
      obtain ⟨b, hb, hfl', hlen⟩ := hfl.write hfits (by simp [hnil])
      rw [hb]
      simp only [bind_eq_bind, bind_some, hfl'.remaining]
      have hp : Placed .buffer b (data ++ chunk) b.byte_list.length := ⟨hfl', rfl⟩
      exact readLoop_expects (c := ⟨b, c.session, c.handled⟩) (Nat.lt_succ_self _) hop henc
        hst hp (by omega)

theorem Expects.chunks {chunks : List (List UInt8)}
    (hc : Expects h fl limit total c chunks.flatten) :
    ∃ c', chunks.foldlM (h.receive fl limit) c = some c' ∧ c'.handled = total := by
  induction chunks generalizing c with
  | nil => exact ⟨c, rfl, hc.handled⟩
  | cons chunk chunks ih =>
    obtain ⟨c', hc', hexp⟩ := hc.receive
    obtain ⟨c'', hc'', htl⟩ := ih hexp
    exact ⟨c'', by rw [foldlM_cons, hc']; exact hc'', htl⟩

theorem handledOf_of_steady {chunks : List (List UInt8)}
    (hop : h.isOpen s = true) (henc : Encodes fl max_nesting_depth vs chunks.flatten)
    (hst : h.Steady s vs) (hrm : chunks.flatten.length ≤ limit.toNat) :
    h.handledOf fl limit s chunks = some (h.served s vs) := by
  have hc : Expects h fl limit (h.served s vs) ⟨empty, s, []⟩ chunks.flatten := by
    refine .ready hop filled_empty (by simp) ?_ henc hst rfl
    simpa [OffsetByteList.empty] using hrm
  obtain ⟨c', hc', htl⟩ := hc.chunks
  rw [handledOf, hc', map_some, htl]

theorem readLoop_all (h : Handler σ δ) (limit : UInt32) (c : Receiver σ δ)
    (hn : data.length < n) (henc : Encodes fl max_nesting_depth vs data) :
    ∃ c', h.readLoop fl limit .stack n c data = some c'
      ∧ c'.handled = c.handled ++ h.served c.session vs := by
  induction vs generalizing n c data with
  | nil =>
    rw [henc.eq_nil]
    exact ⟨c, readLoop_nil, (append_nil _).symm⟩
  | cons v vs ih =>
    obtain ⟨n, rfl⟩ : ∃ k, n = k + 1 := ⟨n - 1, by omega⟩
    obtain ⟨w, rest, rfl, hne, hw, hrs⟩ := henc.uncons
    have hpos := length_pos_iff.2 hne
    rw [length_append] at hn
    rw [readLoop_value hw hne, served]
    dsimp only [Handler.advance]
    split_ifs with hmr
    · obtain ⟨c', hc', hh⟩ := ih (n := n)
        (c := ⟨c.read_buffer, (h.settle .stack c.session v).1, c.handled ++ [v]⟩) (by omega) hrs
      exact ⟨c', hc', by simpa using hh⟩
    · exact ⟨_, rfl, rfl⟩

theorem onData_empty {hd : List (RESPValue δ)} :
    h.onData fl limit ⟨empty, s, hd⟩ data =
      h.readLoop fl limit .stack (data.length + 1) ⟨empty, s, hd⟩ data := if_pos rfl

theorem handledOf_singleton {bs : List UInt8}
    (hop : h.isOpen s = true) (henc : Encodes fl max_nesting_depth vs bs) :
    h.handledOf fl limit s [bs] = some (h.served s vs) := by
  obtain ⟨c', hc', hh⟩ := readLoop_all h limit ⟨empty, s, []⟩
    (Nat.lt_succ_self bs.length) henc
  have hone : [bs].foldlM (h.receive fl limit) ⟨empty, s, []⟩ = some c' := by
    rw [foldlM_cons, Handler.receive, if_pos hop, onData_empty, hc']
    rfl
  rw [handledOf, hone, map_some, hh]
  rfl

end Handler

end Cruller.Valkey
