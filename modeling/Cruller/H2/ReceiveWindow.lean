import Cruller.H2.Sending

/-!
# Every byte received is credited once

What the server may send on the connection is what was granted by WINDOW_UPDATE frames. Every DATA
frame that the session looks at is counted with its padding, whatever becomes of its stream, and
`replenishWindow` grants again what was counted, so that the grants sent and the bytes still to be
granted come to the preface's grant and the bytes received.
-/

namespace Cruller.H2

open List

/-- What a WINDOW_UPDATE grants to the connection. -/
def OutFrame.grant (f : OutFrame) : ℕ :=
  if f.type = .windowUpdate ∧ f.streamId = 0 then u32FromBytes f.payload else 0

def granted (fs : List OutFrame) : ℕ :=
  (fs.map OutFrame.grant).sum

theorem granted_append (fs gs : List OutFrame) : granted (fs ++ gs) = granted fs + granted gs := by
  simp [granted]

theorem granted_eq_zero {fs : List OutFrame} (h : ∀ f ∈ fs, f.type = .windowUpdate → f.streamId ≠ 0) :
    granted fs = 0 := by
  rw [granted, sum_eq_zero_iff]
  intro n hn
  obtain ⟨f, hf, rfl⟩ := mem_map.1 hn
  exact if_neg fun hg => h f hf hg.1 hg.2

theorem u32FromBytes_beBytes32 {value : ℕ} (h : value < 2 ^ 32) :
    u32FromBytes (beBytes32 value) = value := by
  simp only [u32FromBytes, beValue, beBytes32, foldl_cons, foldl_nil, UInt8.toNat_ofNat']
  omega

theorem granted_windowUpdate {increment : ℕ} (h : increment < 2 ^ 32) :
    granted [⟨.windowUpdate, 0, 0, beBytes32 increment⟩] = increment := by
  rw [granted, map_singleton, sum_singleton, OutFrame.grant, if_pos ⟨rfl, rfl⟩,
    u32FromBytes_beBytes32 h]

namespace Session

variable {H : Type} {s s' : Session H} {total : ℕ}

/-- The preface raises the connection's window above its default. -/
def prefaceGrant (s : Session H) : ℕ :=
  if s.prefaceSent then localInitialWindowSize - defaultWindowSize else 0

/-- What was granted and what is still to be granted come to what was received. -/
def Credited (s : Session H) (total : ℕ) : Prop :=
  granted s.written + s.connUnackedBytes = s.prefaceGrant + total

theorem Credited.of_written (h : s.Credited total) (hun : s'.connUnackedBytes = s.connUnackedBytes)
    (hpr : s'.prefaceSent = s.prefaceSent)
    {fs : List OutFrame} (hwr : s'.written = s.written ++ fs)
    (hfs : ∀ f ∈ fs, f.type = .windowUpdate → f.streamId ≠ 0) : s'.Credited total := by
  rw [Credited, prefaceGrant, hun, hpr, hwr, granted_append, granted_eq_zero hfs]
  exact h

theorem Credited.quietly (h : s.Credited total) (hq : s.Quietly s') : s'.Credited total := by
  obtain ⟨fs, hfs, hall⟩ := hq.written
  exact h.of_written hq.unacked hq.preface hfs fun f hf => (hall f hf).grant

theorem Credited.calm (h : s.Credited total) (hc : s.Calm s') : s'.Credited total :=
  h.quietly hc.quietly

theorem Credited.adjusts (h : s.Credited total) (ha : s.Adjusts s') : s'.Credited total := by
  obtain ⟨fs, hfs, hq⟩ := ha.written
  exact h.of_written ha.unacked ha.preface hfs fun f hf => (hq f hf).grant

theorem granted_preface (s : Session H) (hs : s'.prefaceSent = true) :
    s.prefaceGrant + granted s.preface = s'.prefaceGrant := by
  rw [prefaceGrant, preface, prefaceGrant, if_pos hs]
  split_ifs
  · rfl
  · rw [prefaceFrames, ← singleton_append, granted_append,
      granted_windowUpdate (by decide), granted_eq_zero (by simp)]
    simp

theorem Credited.requests (h : s.Credited total) {hs fs : List OutFrame}
    (hr : s.Requests s' hs fs) : s'.Credited total := by
  have hhs : granted hs = 0 := granted_eq_zero fun f hf hty => by
    rcases (hr.headers f hf).2 with hf' | hf' <;> simp [hf'] at hty
  have hfs : granted fs = 0 := granted_eq_zero fun f hf hty => by
    simp [(hr.frames f hf).1] at hty
  have hpre := granted_preface s hr.preface
  rw [Credited] at h ⊢
  rw [hr.unacked, hr.written, granted_append, granted_append, granted_append, hhs, hfs]
  omega

theorem Credited.replenish (h : s.Credited total) (hs : s.Distinct)
    (hr : s.replenishWindow = some s') : s'.Credited total := by
  rcases replenishWindow_spec hs.pos hr with hc | ⟨hlt, hc⟩
  · exact h.calm hc
  · refine Credited.calm ?_ hc
    change granted (s.written ++ [_]) + 0 = s.prefaceGrant + total
    rw [granted_append, granted_windowUpdate (hlt.trans (by decide))]
    exact h

/-- Counting the frame would saturate the counter. -/
def saturates (s : Session H) (i : Input) : Bool :=
  2 ^ 32 ≤ s.connUnackedBytes + s.received i

/-- One step that saturates no counter, and the bytes of DATA that it counts. -/
def creditStep (dec : Decoder H) (s : Session H) (i : Input) : Option (Session H × ℕ) :=
  if s.saturates i then none else (s.step dec i).map fun p => (p.1, s.received i)

/-- How much of the connection's window a frame takes. -/
def Input.received : Input → ℕ
  | .frame f => if f.header.frameType = .data then f.header.length else 0
  | _ => 0

variable {dec : Decoder H} {h₀ : H} {i : Input} {n : ℕ}

theorem creditStep_eq_some (h : s.creditStep dec i = some (s', n)) :
    s.fatalError = none ∧ s.perform dec i = some s' ∧ n = s.received i
      ∧ s.connUnackedBytes + s.received i < 2 ^ 32 := by
  unfold creditStep step at h
  split_ifs at h with hsat hft
  · simp at h
  obtain ⟨⟨t, i'⟩, hs, heq⟩ := Option.map_eq_some_iff.1 h
  obtain ⟨u, hp, heq'⟩ := Option.map_eq_some_iff.1 hs
  obtain ⟨rfl, rfl⟩ := Prod.mk.inj heq
  obtain ⟨rfl, -⟩ := Prod.mk.inj heq'
  refine ⟨by simpa using hft, hp, rfl, ?_⟩
  simpa [saturates] using hsat

/-- A step grants, now or later, what it received, as long as no counter is full. -/
theorem Credited.perform (h : s.Credited total) (hs : s.Distinct) (hp : s.perform dec i = some s')
    (hsat : s.connUnackedBytes + s.received i < 2 ^ 32) : s'.Credited (total + s.received i) := by
  cases perform_effect hp with
  | calm hc hr =>
    rw [hr]
    exact h.calm hc
  | @headers f _ ht hq =>
    have hr : s.received (.frame f) = 0 := if_neg fun hd => by
      rcases ht with ht | ht <;> simp [ht] at hd
    rw [hr]
    exact h.quietly hq
  | @data f _ hr hc =>
    rw [hr] at hsat ⊢
    refine Credited.calm ?_ hc
    have hsum : granted s.written + s.connUnackedBytes = s.prefaceGrant + total := h
    change granted s.written + saturatingAdd s.connUnackedBytes f.header.length =
      s.prefaceGrant + (total + f.header.length)
    rw [saturatingAdd, min_eq_left (by omega)]
    omega
  | @settings f _ ht hset =>
    have hr : s.received (.frame f) = 0 := if_neg fun hd => by simp [ht] at hd
    rw [hr]
    exact h.adjusts (onSettings_adjusts hset)
  | @windowUpdate f _ ht hupd =>
    have hr : s.received (.frame f) = 0 := if_neg fun hd => by simp [ht] at hd
    rw [hr]
    exact h.adjusts (onWindowUpdate_adjusts hupd)
  | @attach client r _ =>
    obtain ⟨hs', fs, hreq⟩ := attach_requests s client r
    exact h.requests hreq
  | @drain id body cap stream hf =>
    obtain ⟨fs, hdr⟩ := drainSendBody_drained s stream body cap
    obtain ⟨wb, heq⟩ := hdr.sending
    simp only at heq
    rw [heq]
    exact h.of_written rfl rfl rfl fun f hf hty => by simp [(hdr.frames f hf).1] at hty
  | replenish hr => exact h.replenish hs hr

theorem received_eq (hp : s.perform dec i = some s') (hok : s'.fatalError = none) :
    s.received i = i.received := by
  cases i with
  | frame f =>
    simp only [received, Input.received]
    by_cases ht : f.header.frameType = .data
    · change s.dispatchFrame dec f.header f.payload = some s' at hp
      unfold dispatchFrame at hp
      split_ifs at hp with hexp hset
      · simp [← Option.some.inj hp, fail] at hok
      · simp [← Option.some.inj hp, fail] at hok
      · rw [if_pos ⟨ht, by simpa [ht] using hexp, by simpa [ht] using hset⟩, if_pos ht]
    · rw [if_neg fun h => ht h.1, if_neg ht]
  | _ => rfl

theorem Credited.creditStep (h : s.Credited total) (hs : ∃ w, s.Synced dec h₀ w)
    (hone : s.creditStep dec i = some (s', n)) : s'.Credited (total + n) := by
  obtain ⟨w, hs⟩ := hs
  obtain ⟨-, hp, rfl, hsat⟩ := creditStep_eq_some hone
  exact h.perform hs.distinct hp hsat

theorem Synced.creditStep (hs : ∃ w, s.Synced dec h₀ w) (hone : s.creditStep dec i = some (s', n))
    (hok : s'.fatalError = none) : ∃ w, s'.Synced dec h₀ w := by
  obtain ⟨w, hs⟩ := hs
  obtain ⟨-, hp, -, -⟩ := creditStep_eq_some hone
  exact ⟨_, hs.perform hp hok⟩

theorem sum_received : ∀ {is : List Input} {ns : List ℕ} {s t : Session H},
    run (creditStep dec) s is = some (t, ns) → t.fatalError = none →
      s.fatalError = none ∧ ns.sum = (is.map Input.received).sum
  | [], ns, s, t, hr, hok => by
    obtain ⟨rfl, rfl⟩ := Prod.mk.inj (Option.some.inj hr)
    exact ⟨hok, rfl⟩
  | i :: is, ns, s, t, hr, hok => by
    obtain ⟨s', n, ns', hone, hrs, rfl⟩ := run_cons.1 hr
    obtain ⟨hok', hsum⟩ := sum_received hrs hok
    obtain ⟨hft, hp, rfl, -⟩ := creditStep_eq_some hone
    exact ⟨hft, by rw [sum_cons, map_cons, sum_cons, hsum, received_eq hp hok']⟩

end Session

/-- As long as the counter is not saturated, the connection's grants and the bytes still to be
granted come to the preface's grant and the DATA that the session looked at, padding included; that
is all DATA while the session has not failed. -/
theorem receive_window_accounting {H : Type} {dec : Decoder H} {h₀ : H} {is : List Session.Input}
    {ns : List ℕ} {s : Session H}
    (hr : run (Session.creditStep dec) { hpack := h₀ } is = some (s, ns)) :
    granted s.written + s.connUnackedBytes = s.prefaceGrant + ns.sum
    ∧ (s.fatalError = none → ns.sum = (is.map Session.Input.received).sum) := by
  refine ⟨?_, fun hok => (Session.sum_received hr hok).2⟩
  have hrun : (s.fatalError = none → ∃ w, s.Synced dec h₀ w) ∧
      s.Credited (ns.foldl (fun total n => total + n) 0) := run_foldl
    (R := fun s total => (s.fatalError = none → ∃ w, s.Synced dec h₀ w) ∧ s.Credited total)
    (fun {s s' i n total} hR hone => by
      obtain ⟨hok, -⟩ := Session.creditStep_eq_some hone
      have hs := hR.1 hok
      exact ⟨fun hok' => Session.Synced.creditStep hs hone hok', hR.2.creditStep hs hone⟩)
    ⟨fun _ => ⟨_, Session.Synced.init dec h₀⟩, (rfl : Session.Credited { hpack := h₀ } 0)⟩ hr
  rw [sum_eq_foldl]
  exact hrun.2

/-- Two DATA frames, the first one padded and for a stream that is tracked, the second one for a
stream that was reset and removed. -/
theorem receive_window_accounting_removed : ∃ (s : Session Unit) (ns : List ℕ),
    run (Session.creditStep noDecoder) { hpack := () } [
        .frame ⟨{ length := 0, type := 4, streamIdentifier := 0 }, [], rfl, by decide, by decide⟩,
        .attach 9 {},
        .frame ⟨{ length := 3, type := 0, flags := 8, streamIdentifier := 1 }, [1, 5, 0], rfl,
          by decide, by decide⟩,
        .abort 1 0,
        .frame ⟨{ length := 2, type := 0, streamIdentifier := 1 }, [5, 6], rfl, by decide,
          by decide⟩] = some (s, ns)
      ∧ s.fatalError = none ∧ granted s.written + s.connUnackedBytes = s.prefaceGrant + ns.sum
      ∧ ns.sum = 5 := by
  have hr : run (Session.creditStep noDecoder) { hpack := () } [
      .frame ⟨{ length := 0, type := 4, streamIdentifier := 0 }, [], rfl, by decide, by decide⟩,
      .attach 9 {},
      .frame ⟨{ length := 3, type := 0, flags := 8, streamIdentifier := 1 }, [1, 5, 0], rfl,
        by decide, by decide⟩,
      .abort 1 0,
      .frame ⟨{ length := 2, type := 0, streamIdentifier := 1 }, [5, 6], rfl, by decide,
        by decide⟩] = some (_, _) := rfl
  obtain ⟨hsum, hall⟩ := receive_window_accounting hr
  exact ⟨_, _, hr, rfl, hsum, hall rfl⟩

/-- The preface grants what nothing was received for; and DATA before the server's SETTINGS fails the
session before it is counted. -/
theorem receive_window_accounting_refuted :
    (¬ ∀ (is : List Session.Input) (s : Session Unit) (ns : List ℕ),
      run (Session.creditStep noDecoder) { hpack := () } is = some (s, ns) →
        granted s.written + s.connUnackedBytes = (is.map Session.Input.received).sum)
    ∧ ¬ ∀ (is : List Session.Input) (s : Session Unit) (ns : List ℕ),
      run (Session.creditStep noDecoder) { hpack := () } is = some (s, ns) →
        granted s.written + s.connUnackedBytes =
          s.prefaceGrant + (is.map Session.Input.received).sum := by
  constructor
  · intro h
    have := h [.attach 9 {}] _ _ rfl
    revert this
    decide
  · intro h
    have := h [.frame ⟨{ length := 5, type := 0, streamIdentifier := 1 }, [0, 0, 0, 0, 0], rfl,
      by decide, by decide⟩] _ _ rfl
    revert this
    decide

end Cruller.H2
