import Cruller.Valkey.Pending

/-!
# When the way of cutting makes no difference

Where the values are not `Steady`, some way of cutting their bytes makes a difference: a fragile
value cut before the last byte of its contents fails the client, and what follows is read from the
middle of the value (`exists_other_cut`); behind a value that stops the client, what arrives with it
is dropped and what arrives later is not. Together with the other direction this is
`onData_cut`.
-/

namespace Cruller.Valkey

open List Option ValkeyReader OffsetByteList

variable {σ δ : Type}

namespace Handler

variable {h : Handler σ δ} {fl : FloatText δ} {limit : UInt32}

theorem readLoop_error {path : DataPath} {n : ℕ} {c : Receiver σ δ} {data : List UInt8}
    {e : RedisError} (hne : data ≠ []) (hrd : readValue fl data = .error e)
    (he : e ≠ .InvalidResponse) :
    h.readLoop fl limit path (n + 1) c data = some { c with
      session := h.fail c.session ("Failed to read data (" ++ path.name ++ ")") e } := by
  rw [readLoop, if_neg hne, hrd]
  cases e with
  | InvalidResponse => exact absurd rfl he
  | _ => rfl

/-- The loop handles nothing, or first of all the value at the front. -/
theorem readLoop_handled {path : DataPath} {n : ℕ} {c c' : Receiver σ δ} {data : List UInt8}
    (hc : h.readLoop fl limit path n c data = some c') : c'.handled = c.handled
      ∨ ∃ v rest, readValue fl data = .ok (v, rest) ∧ c.handled ++ [v] <+: c'.handled := by
  induction n generalizing c data with
  | zero =>
    cases hc
    exact Or.inl rfl
  | succ n ih =>
    rcases eq_or_ne data [] with rfl | hne
    · rw [readLoop_nil] at hc
      cases hc
      exact Or.inl rfl
    rcases hrd : readValue fl data with e | ⟨v, rest⟩
    · by_cases he : e = .InvalidResponse
      · subst he
        rw [readLoop, if_neg hne, hrd] at hc
        rcases path with _ | _
        · cases hc
          exact Or.inl rfl
        · obtain ⟨b, -, rfl⟩ := map_eq_some_iff.1 hc
          exact Or.inl rfl
      · rw [readLoop_error hne hrd he] at hc
        cases hc
        exact Or.inl rfl
    · have hsm : (advance path c (data.length - rest.length) rest).1.handled = c.handled := by
        cases path <;> rfl
      rw [readLoop, if_neg hne, hrd] at hc
      dsimp only at hc
      split_ifs at hc
      · cases hc
        exact Or.inl rfl
      · refine Or.inr ⟨v, rest, rfl, ?_⟩
        rw [← hsm]
        rcases ih hc with heq | ⟨u, -, -, hpre⟩
        · rw [heq]
        · exact (prefix_append ..).trans hpre
      · cases hc
        exact Or.inr ⟨v, rest, rfl, by rw [hsm]⟩

variable {s : σ} {hd vs : List (RESPValue δ)} {bs : List UInt8}

theorem receive_value {v : RESPValue δ} {w : List UInt8}
    (hop : h.isOpen s = true) (hw : Encodes fl max_nesting_depth [v] w) (hne : w ≠ []) :
    h.receive fl limit ⟨empty, s, hd⟩ w =
      some ⟨empty, (h.settle .stack s v).1, hd ++ [v]⟩ := by
  have hlp : h.readLoop fl limit .stack (w.length + 1) ⟨empty, s, hd⟩ (w ++ []) = _ :=
    readLoop_value hw hne
  rw [append_nil] at hlp
  rw [receive, if_pos hop, onData_empty, hlp]
  dsimp only [Handler.advance]
  split_ifs
  · exact readLoop_nil
  · rfl

theorem receive_error (limit : UInt32) (hd : List (RESPValue δ)) {p : List UInt8}
    {e : RedisError}
    (hop : h.isOpen s = true) (hne : p ≠ []) (hrd : readValue fl p = .error e)
    (he : e ≠ .InvalidResponse) :
    ∃ s', h.receive fl limit ⟨empty, s, hd⟩ p = some ⟨empty, s', hd⟩ :=
  ⟨_, by rw [receive, if_pos hop, onData_empty, readLoop_error hne hrd he]⟩

theorem receive_all (limit : UInt32) (hd : List (RESPValue δ))
    (hop : h.isOpen s = true) (henc : Encodes fl max_nesting_depth vs bs) :
    ∃ c', h.receive fl limit ⟨empty, s, hd⟩ bs = some c' ∧ c'.handled = hd ++ h.served s vs := by
  obtain ⟨c', hc', hh⟩ := readLoop_all h limit ⟨empty, s, hd⟩
    (Nat.lt_succ_self bs.length) henc
  exact ⟨c', by rw [receive, if_pos hop, onData_empty, hc'], hh⟩

/-- The values handled from an empty buffer on, behind those of `hd`. -/
def handledFrom (h : Handler σ δ) (fl : FloatText δ) (limit : UInt32) (s : σ)
    (hd : List (RESPValue δ)) (chunks : List (List UInt8)) : Option (List (RESPValue δ)) :=
  (chunks.foldlM (h.receive fl limit) ⟨empty, s, hd⟩).map Receiver.handled

theorem handledFrom_cons {s' : σ} {hd' : List (RESPValue δ)} {chunk : List UInt8}
    {chunks : List (List UInt8)}
    (hc : h.receive fl limit ⟨empty, s, hd⟩ chunk = some ⟨empty, s', hd'⟩) :
    h.handledFrom fl limit s hd (chunk :: chunks) = h.handledFrom fl limit s' hd' chunks := by
  rw [handledFrom, foldlM_cons, hc]
  rfl

theorem handledFrom_closed {chunk : List UInt8}
    (hcl : h.isOpen s = false) : h.handledFrom fl limit s hd [chunk] = some hd := by
  rw [handledFrom, foldlM_cons, receive, hcl]
  rfl

theorem handledFrom_all
    (hop : h.isOpen s = true) (henc : Encodes fl max_nesting_depth vs bs) :
    h.handledFrom fl limit s hd [bs] = some (hd ++ h.served s vs) := by
  obtain ⟨c', hc', hh⟩ := receive_all limit hd hop henc
  rw [handledFrom, foldlM_cons, hc', ← hh]
  rfl

theorem handledFrom_fragile (limit : UInt32) {v : RESPValue δ} {w : List UInt8} (hv : v.Fragile)
    (hop : h.isOpen s = true) (hw : Encodes fl max_nesting_depth [v] w) :
    ∃ p q, w = p ++ q ∧ ∀ hd bs more,
      h.handledFrom fl limit s hd [p, q ++ bs] ≠ some (hd ++ v :: more) := by
  obtain ⟨p, b, rest, e, rfl, he, hst⟩ := hw.stops ⟨v, by simp, hv⟩
  rcases hst with hrd | ⟨-, ⟨⟩⟩
  have hne : p ≠ [] := by
    rintro rfl
    exact he (by cases hrd; rfl)
  refine ⟨p, b :: (crlf ++ rest), rfl, fun hd bs more hbad => ?_⟩
  obtain ⟨s', hp⟩ := receive_error limit hd hop hne hrd he
  rw [handledFrom_cons hp] at hbad
  rcases hop' : h.isOpen s'
  · rw [handledFrom_closed hop'] at hbad
    simp at hbad
  · obtain ⟨c', hc', hh⟩ := map_eq_some_iff.1 hbad
    rw [foldlM_cons, receive, if_pos hop', onData_empty] at hc'
    obtain ⟨c'', hc'', heq⟩ := bind_eq_some_iff.1 hc'
    cases heq
    rcases readLoop_handled hc'' with hsm | ⟨g, q, hrd', hpre⟩
    · rw [hsm] at hh
      simp at hh
    · rw [hh] at hpre
      have hg : g = v := by
        simpa using (prefix_append_right_inj hd).1 hpre
      subst hg
      rw [cons_append, append_assoc] at hrd'
      have hfr : readValueOf fl (some _) (b :: (crlf ++ (rest ++ bs))) = .ok (g, q) := hrd'
      exact not_fragile_of_crlf hfr hv

/-- A stream that is not steady is seen differently in another cut. -/
theorem exists_other_cut (limit : UInt32)
    (hop : h.isOpen s = true) (henc : Encodes fl max_nesting_depth vs bs)
    (hsd : ¬ h.Steady s vs) : ∃ chunks : List (List UInt8), chunks.flatten = bs
      ∧ ∀ hd, h.handledFrom fl limit s hd chunks ≠ some (hd ++ h.served s vs) := by
  induction vs generalizing s bs with
  | nil => exact absurd trivial hsd
  | cons v vs ih =>
    obtain ⟨w, rest, rfl, hne, hw, hrs⟩ := henc.uncons
    by_cases hv : v.Fragile
    · obtain ⟨p, q, rfl, hbad⟩ := handledFrom_fragile limit hv hop hw
      exact ⟨[p, q ++ rest], by simp, fun hd => hbad hd rest _⟩
    rw [Handler.Steady, not_and] at hsd
    have hst := hsd hv
    rw [served]
    rcases vs with _ | ⟨u, us⟩
    · simp at hst
    have hcut : ∀ chunks : List (List UInt8), chunks.flatten = rest →
        (∀ hd, h.handledFrom fl limit (h.settle .stack s v).1 hd chunks ≠
          some (hd ++ if (h.settle .stack s v).2 then
            h.served (h.settle .stack s v).1 (u :: us) else [])) →
        ∃ chunks : List (List UInt8), chunks.flatten = w ++ rest ∧ ∀ hd,
          h.handledFrom fl limit s hd chunks ≠ some (hd ++ v ::
            if (h.settle .stack s v).2 then h.served (h.settle .stack s v).1 (u :: us)
            else []) := by
      rintro chunks rfl hbad
      refine ⟨w :: chunks, rfl, fun hd => ?_⟩
      rw [handledFrom_cons (receive_value hop hw hne)]
      simpa using hbad (hd ++ [v])
    rcases hgo : (h.settle .stack s v).2
    · -- the client stops, but what arrives later is handled
      rw [hgo] at hst hcut
      have hop' : h.isOpen (h.settle .stack s v).1 = true := by simpa using hst
      refine hcut [rest] (by simp) fun hd => ?_
      rw [handledFrom_all hop' hrs]
      simp [served]
    · rw [hgo] at hst hcut
      rcases hop' : h.isOpen (h.settle .stack s v).1
      · refine hcut [rest] (by simp) fun hd => ?_
        rw [handledFrom_closed hop']
        simp [served]
      · obtain ⟨chunks, hfl, hbad⟩ := ih hop' hrs (by simpa [hop'] using hst)
        exact hcut chunks hfl hbad

theorem exists_overflow
    (hop : h.isOpen s = true) (henc : Encodes fl max_nesting_depth vs bs)
    (hlm : limit.toNat < bs.length) : ∃ chunks : List (List UInt8), chunks.flatten = bs
      ∧ h.handledOf fl limit s chunks = none := by
  rcases vs with _ | ⟨v, vs⟩
  · rw [henc.eq_nil] at hlm
    simp at hlm
  obtain ⟨t, rest, rfl⟩ := henc.head
  refine ⟨[[t.toByte], rest], by simp, ?_⟩
  have hrd : readValue fl [t.toByte] = .error .InvalidResponse := readValueOf_singleton t
  have hone : h.receive fl limit ⟨empty, s, []⟩ [t.toByte] =
      (empty.write limit [t.toByte]).map fun b => ⟨b, s, []⟩ := by
    rw [receive, if_pos hop, onData_empty, readLoop, if_neg (by simp), hrd]
    rfl
  rw [handledOf, foldlM_cons, hone]
  rw [length_cons] at hlm
  rcases Nat.eq_zero_or_pos limit.toNat with hz | hpos
  · rw [OffsetByteList.write, if_neg (by simp [empty, hz])]
    rfl
  · rw [OffsetByteList.write, if_pos (by simp [empty]; omega), map_some,
      bind_eq_bind, bind_some, foldlM_cons, receive, if_pos hop, onData]
    rw [if_neg (by simp [empty, remaining]), OffsetByteList.write, if_neg (by
      simp [empty]
      omega)]
    rfl

end Handler

/-- On the strict prefixes of a value the reader asks for more, and only that, unless the value is
fragile. -/
theorem readValue_short_iff {v : RESPValue δ} {w : List UInt8} {fl : FloatText δ}
    (hw : Encodes fl max_nesting_depth [v] w) :
    (∀ p, p <+: w → p ≠ w → readValue fl p = .error .InvalidResponse) ↔ ¬ v.Fragile := by
  constructor
  · intro hall hv
    obtain ⟨p, b, rest, e, rfl, he, hst⟩ := hw.stops ⟨v, by simp, hv⟩
    rcases hst with hrd | ⟨-, ⟨⟩⟩
    have hsh := hall p (prefix_append ..) (by simp)
    rw [readValue, hrd] at hsh
    exact he (by cases hsh; rfl)
  · exact hw.takes.short

/-- However the bytes of well-formed values are cut, the same values are handled as when they
arrive at once, exactly when the values are steady and the read buffer can hold their bytes; and
the reader takes every strict prefix of a value for a prefix exactly when the value is not
fragile. -/
theorem onData_cut {h : Handler σ δ} {fl : FloatText δ} {limit : UInt32} {s : σ}
    {vs : List (RESPValue δ)} {bs : List UInt8} (hopen : h.isOpen s = true)
    (henc : Encodes fl max_nesting_depth vs bs) :
    ((∀ chunks : List (List UInt8), chunks.flatten = bs →
        h.handledOf fl limit s chunks = h.handledOf fl limit s [bs])
      ↔ h.Steady s vs ∧ bs.length ≤ limit.toNat)
    ∧ ∀ {v : RESPValue δ} {w : List UInt8}, Encodes fl max_nesting_depth [v] w →
      ((∀ p, p <+: w → p ≠ w → readValue fl p = .error .InvalidResponse) ↔ ¬ v.Fragile) := by
  refine ⟨?_, readValue_short_iff⟩
  rw [Handler.handledOf_singleton hopen henc]
  constructor
  · intro hall
    refine ⟨not_not.1 fun hsteady => ?_, not_lt.1 fun hlimit => ?_⟩
    · obtain ⟨chunks, hflat, hbad⟩ := Handler.exists_other_cut limit hopen henc hsteady
      exact hbad [] (hall chunks hflat)
    · obtain ⟨chunks, hflat, hnone⟩ := Handler.exists_overflow hopen henc hlimit
      have := hall chunks hflat
      rw [hnone] at this
      simp at this
  · rintro ⟨hsteady, hlimit⟩ chunks rfl
    exact Handler.handledOf_of_steady hopen henc hsteady hlimit

def bytesOf (text : String) : List UInt8 := text.toList.map Char.toUInt8

/-- Floating-point numbers that are never looked at. -/
def noFloats : FloatText ℕ := ⟨0, 0, 0, fun _ => none⟩

/-- A client that has connected and had its HELLO answered. -/
def readyClient : ValkeyClient ⟨85, 51⟩ ℕ :=
  let hello : Command := ⟨"HELLO", [bytesOf "3"], ⟨false, true, false, false⟩⟩
  let connect : List (ValkeyClient.Event ℕ) :=
    [.doConnect none, .opened hello, .response (.SimpleString (bytesOf "OK"))]
  connect.foldl ValkeyClient.apply (ValkeyClient.start 0 20 {} [])

theorem not_fragile_leaf {v : RESPValue δ} (hc : v.children = []) (hb : ∀ str, v ≠ .BlobError str)
    (hv : ∀ format content, v ≠ .VerbatimString format content) : ¬ v.Fragile := by
  rintro (_ | _ | ⟨hmem, -⟩)
  · exact hb _ rfl
  · exact hv _ _ rfl
  · simp [hc] at hmem

/-- An array of a string and a bulk string, and an integer. -/
def nestedReplies : List (RESPValue ℕ) :=
  [.Array [.SimpleString (bytesOf "OK"), .BulkString (some (bytesOf "k"))], .Integer 5]

theorem encodes_nestedReplies : Encodes noFloats max_nesting_depth nestedReplies
    (bytesOf "*2\r\n+OK\r\n$1\r\nk\r\n:5\r\n") :=
  .nest (.array _) (by decide : IsLine (bytesOf "2")) (by decide)
    (.leaf (.simpleString (by decide)) (.leaf (.bulkString (by decide : IsLine (bytesOf "1"))
      (by decide)) (.nil _)))
    (.leaf (.integer (by decide : IsLine (bytesOf "5")) (by decide)) (.nil _))

/-- The first cut is inside the array, the second between the two bytes that end a line. -/
theorem onData_cut_nestedReplies :
    ValkeyClient.handler.handledOf noFloats 100 readyClient
        [bytesOf "*2\r\n+O", bytesOf "K\r\n$1\r", bytesOf "\nk\r\n:5\r\n"] =
      ValkeyClient.handler.handledOf noFloats 100 readyClient
        [bytesOf "*2\r\n+OK\r\n$1\r\nk\r\n:5\r\n"] := by
  refine (onData_cut (by decide +kernel) encodes_nestedReplies).1.2 ⟨⟨?_, ?_⟩, by decide⟩ _ rfl
  · rintro (_ | _ | ⟨hmem, hfr⟩)
    simp only [RESPValue.children, List.mem_cons, List.not_mem_nil, or_false] at hmem
    rcases hmem with rfl | rfl
    · exact not_fragile_leaf rfl (by simp) (by simp) hfr
    · exact not_fragile_leaf rfl (by simp) (by simp) hfr
  · rw [if_pos (by decide +kernel)]
    refine fun _ => ⟨by decide +kernel, not_fragile_leaf rfl (by simp) (by simp), ?_⟩
    split_ifs <;> simp

/-- A verbatim string that is cut inside its contents. -/
theorem onData_cut_refuted : ¬ ∀ (vs : List (RESPValue ℕ)) (bs : List UInt8),
    Encodes noFloats max_nesting_depth vs bs →
      ∀ chunks : List (List UInt8), chunks.flatten = bs →
        ValkeyClient.handler.handledOf noFloats 100 readyClient chunks =
          ValkeyClient.handler.handledOf noFloats 100 readyClient [bs] := by
  intro hall
  have henc : Encodes noFloats max_nesting_depth
      [.VerbatimString (bytesOf "txt") (bytesOf "hi")] (bytesOf "=6\r\ntxt:hi\r\n") :=
    .leaf (.verbatimString (by decide : IsLine (bytesOf "6")) rfl (by decide)) (.nil _)
  have heq := hall _ _ henc [bytesOf "=6\r\ntxt:", bytesOf "hi\r\n"] rfl
  have hcut : (ValkeyClient.handler.handledOf noFloats 100 readyClient
      [bytesOf "=6\r\ntxt:", bytesOf "hi\r\n"]).map List.length = some 0 := by decide +kernel
  have honce : (ValkeyClient.handler.handledOf noFloats 100 readyClient
      [bytesOf "=6\r\ntxt:hi\r\n"]).map List.length = some 1 := by decide +kernel
  rw [heq, honce] at hcut
  simp at hcut

end Cruller.Valkey
