import Cruller.H2.Sending

/-!
# The windows stay in range and are never overdrawn

The connection's window is never negative; a stream's is when SETTINGS took away what was spent
already. What the code relies on is that a window of the largest size remains above `-maxWindowSize`
however the initial size changes: no stream has spent more than the largest window beyond what it
was granted, so its window is at least the initial size less the largest one (`Bounded`).
-/

namespace Cruller.H2

open List Option

namespace Windows

theorem dataLength_le {w : Windows} {fs : List OutFrame} {id : ℕ} (h : w.Affords fs)
    (hfs : ∀ f ∈ fs, f.type = .data ∧ f.streamId = id) :
    dataLength fs = 0 ∨ dataLength fs ≤ w.conn ∧ dataLength fs ≤ w.stream id := by
  induction fs generalizing w with
  | nil => exact Or.inl rfl
  | cons f fs ih =>
    obtain ⟨hty, hid⟩ := hfs f mem_cons_self
    have hrs := ih h.2 fun g hg => hfs g (mem_cons_of_mem _ hg)
    rw [spend, if_pos hty] at hrs
    simp only [hid, Function.update_self] at hrs
    rw [dataLength_cons, if_pos hty]
    by_cases hnil : f.payload = []
    · simpa [hnil] using hrs
    · obtain ⟨hcn, hst, -⟩ := h.1 hty hnil
      rw [hid] at hst
      push_cast
      omega

theorem spends_of_ne_data (w : Windows) {fs : List OutFrame} (h : ∀ f ∈ fs, f.type ≠ .data) :
    fs.foldl spend w = w := by
  induction fs with
  | nil => rfl
  | cons f fs ih =>
    rw [foldl_cons, spend, if_neg (h f mem_cons_self)]
    exact ih fun g hg => h g (mem_cons_of_mem _ hg)

end Windows

namespace Session

variable {H : Type} {s s' : Session H} {stream : Stream} {id : ℕ}

/-- What the windows and the frame size are at most and at least. -/
structure Bounded (s : Session H) : Prop where
  conn_nonneg : 0 ≤ s.connSendWindow
  conn_le : s.connSendWindow ≤ maxWindowSize
  initial_le : s.remoteInitialWindowSize ≤ maxWindowSize
  maxFrame_ge : defaultMaxFrameSize ≤ s.remoteMaxFrameSize
  maxFrame_le : s.remoteMaxFrameSize ≤ maxFrameSize
  stream_ge : ∀ t ∈ s.streams, (s.remoteInitialWindowSize : ℤ) - maxWindowSize ≤ t.sendWindow
  stream_le : ∀ t ∈ s.streams, t.sendWindow ≤ maxWindowSize

theorem Bounded.init (h₀ : H) : Bounded { hpack := h₀ } := by
  refine ⟨?_, ?_, ?_, ?_, ?_, by simp, by simp⟩ <;> simp <;> decide

theorem Bounded.of_streams (h : s.Bounded) (conn : s'.connSendWindow = s.connSendWindow)
    (initial : s'.remoteInitialWindowSize = s.remoteInitialWindowSize)
    (maxFrame : s'.remoteMaxFrameSize = s.remoteMaxFrameSize)
    (streams : ∀ t' ∈ s'.streams, ∃ t ∈ s.streams, t'.sendWindow = t.sendWindow) : s'.Bounded := by
  refine ⟨conn ▸ h.conn_nonneg, conn ▸ h.conn_le, initial ▸ h.initial_le, maxFrame ▸ h.maxFrame_ge,
    maxFrame ▸ h.maxFrame_le, fun t' ht' => ?_, fun t' ht' => ?_⟩
  · obtain ⟨t, ht, heq⟩ := streams t' ht'
    rw [initial, heq]
    exact h.stream_ge t ht
  · obtain ⟨t, ht, heq⟩ := streams t' ht'
    rw [heq]
    exact h.stream_le t ht

theorem Bounded.quietly (h : s.Bounded) (hq : s.Quietly s') : s'.Bounded :=
  h.of_streams hq.conn hq.initial hq.maxFrame fun t' ht' =>
    (hq.streams t' ht').imp fun _ ht => ⟨ht.1, ht.2.sendWindow⟩

theorem Bounded.calm (h : s.Bounded) (hc : s.Calm s') : s'.Bounded := h.quietly hc.quietly

theorem intCastI32_of_le {value : ℤ} (hge : -2 ^ 31 ≤ value) (hle : value ≤ maxWindowSize) :
    intCastI32 value = some value :=
  if_pos ⟨hge, by simp only [maxWindowSize] at hle; omega⟩

/-- Every window moves by the same amount, or one is too large. -/
theorem adjustWindows_spec (delta : ℤ) : ∀ {l : List Stream},
    (∀ t ∈ l, -2 ^ 31 ≤ t.sendWindow + delta) → ∃ l' ok, adjustWindows delta l = some (l', ok)
      ∧ (ok = true → ∀ t' ∈ l', ∃ t ∈ l, t'.sendWindow = t.sendWindow + delta
        ∧ t'.sendWindow ≤ maxWindowSize)
  | [], _ => ⟨[], true, rfl, by simp⟩
  | stream :: rest, h => by
    obtain ⟨rest', ok, hrs, hmv⟩ :=
      adjustWindows_spec delta fun t ht => h t (mem_cons_of_mem _ ht)
    rw [adjustWindows]
    simp only
    split_ifs with hgt
    · exact ⟨_, false, rfl, by simp⟩
    · have hle := not_lt.1 hgt
      rw [intCastI32_of_le (h stream mem_cons_self) hle, hrs]
      refine ⟨_, ok, rfl, fun hok t' ht' => ?_⟩
      rcases mem_cons.1 ht' with rfl | ht'
      · simp
        omega
      · obtain ⟨t, ht, heq⟩ := hmv hok t' ht'
        exact ⟨t, mem_cons_of_mem _ ht, heq⟩

/-- The function goes through, and its session is in range unless it failed. -/
def Accepts (s' : Option (Session H)) : Prop :=
  ∃ t, s' = some t ∧ (t.fatalError = none → t.Bounded)

/-- A setting keeps the windows in their bounds, or the session fails. -/
theorem applySetting_bounded (h : s.Bounded) (unit : ℕ × ℕ) :
    ∃ t ok, s.applySetting unit = some (t, ok) ∧ (ok = true → t.Bounded)
      ∧ (ok = false → t.fatalError.isSome) := by
  unfold applySetting
  split
  · split_ifs with hout
    · exact ⟨_, false, rfl, by simp, fun _ => rfl⟩
    · push Not at hout
      exact ⟨_, true, rfl, fun _ => ⟨h.conn_nonneg, h.conn_le, h.initial_le, hout.1, hout.2,
        h.stream_ge, h.stream_le⟩, by simp⟩
  · exact ⟨_, true, rfl, fun _ => ⟨h.conn_nonneg, h.conn_le, h.initial_le, h.maxFrame_ge,
      h.maxFrame_le, h.stream_ge, h.stream_le⟩, by simp⟩
  · exact ⟨_, true, rfl, fun _ => ⟨h.conn_nonneg, h.conn_le, h.initial_le, h.maxFrame_ge,
      h.maxFrame_le, h.stream_ge, h.stream_le⟩, by simp⟩
  · next value =>
    split_ifs with hout
    · exact ⟨_, false, rfl, by simp, fun _ => rfl⟩
    obtain ⟨l', ok, had, hmv⟩ := adjustWindows_spec
      ((value : ℤ) - s.remoteInitialWindowSize) (l := s.streams) fun t ht => by
        have := h.stream_ge t ht
        simp only [maxWindowSize] at this
        omega
    simp only [had, bind_eq_bind, bind_some]
    cases ok
    · exact ⟨_, false, rfl, by simp, fun _ => rfl⟩
    · refine ⟨_, true, rfl, fun _ => ⟨h.conn_nonneg, h.conn_le, not_lt.1 hout, h.maxFrame_ge,
        h.maxFrame_le, fun t' ht' => ?_, fun t' ht' => ?_⟩, by simp⟩
      · obtain ⟨t, ht, heq, -⟩ := hmv rfl t' ht'
        have := h.stream_ge t ht
        change (value : ℤ) - maxWindowSize ≤ t'.sendWindow
        omega
      · obtain ⟨-, -, -, hle⟩ := hmv rfl t' ht'
        exact hle
  · exact ⟨_, true, rfl, fun _ => h, by simp⟩

theorem applySettings_bounded : ∀ (units : List (ℕ × ℕ)) {s : Session H}, s.Bounded →
    ∃ t ok, s.applySettings units = some (t, ok) ∧ (ok = true → t.Bounded)
      ∧ (ok = false → t.fatalError.isSome)
  | [], s, h => ⟨s, true, rfl, fun _ => h, by simp⟩
  | unit :: rest, s, h => by
    obtain ⟨t, ok, hone, hok, hft⟩ := applySetting_bounded h unit
    simp only [applySettings, hone, bind_eq_bind, bind_some]
    cases ok
    · exact ⟨t, false, rfl, hok, hft⟩
    · exact applySettings_bounded rest (hok rfl)

theorem onSettings_accepts (h : s.Bounded) (header : FrameHeader) (payload : List UInt8) :
    Accepts (s.onSettings header payload) := by
  have hfl : ∀ (t : Session H) (e : Error), Accepts (some (t.fail e)) := fun t e =>
    ⟨_, rfl, by simp [fail]⟩
  unfold onSettings
  split
  · exact hfl s _
  split
  · split
    · exact hfl s _
    · exact ⟨s, rfl, fun _ => h⟩
  split
  · exact hfl s _
  · obtain ⟨t, ok, hap, hok, hft⟩ := applySettings_bounded (settingsUnits payload) h
    simp only [hap, bind_eq_bind, bind_some]
    cases ok
    · exact ⟨t, rfl, fun hno => by simp [hno] at hft⟩
    · simp only [not_true_eq_false, if_false]
      have ht := hok rfl
      split
      · exact hfl t _
      · exact ⟨_, rfl, fun _ => ⟨ht.conn_nonneg, ht.conn_le, ht.initial_le, ht.maxFrame_ge,
          ht.maxFrame_le, ht.stream_ge, ht.stream_le⟩⟩

/-- WINDOW_UPDATE goes through: a window beyond its range fails the stream or the session. -/
theorem onWindowUpdate_accepts (h : s.Bounded) (header : FrameHeader) (payload : List UInt8) :
    Accepts (s.onWindowUpdate header payload) := by
  have hfl : ∀ e : Error, Accepts (some (s.fail e)) := fun e => ⟨_, rfl, by simp [fail]⟩
  unfold onWindowUpdate
  split
  · exact hfl _
  extract_lets inc next
  split
  · split
    · exact hfl _
    split
    · exact hfl _
    next hle =>
    have hge : 0 ≤ next := by
      have := h.conn_nonneg
      unfold next
      omega
    rw [intCastI32_of_le (by omega) (not_lt.1 hle)]
    exact ⟨_, rfl, fun _ => ⟨hge, not_lt.1 hle, h.initial_le, h.maxFrame_ge, h.maxFrame_le,
      h.stream_ge, h.stream_le⟩⟩
  split
  · next stream hf =>
    have hmem := mem_of_find hf
    split
    · exact ⟨_, rfl, fun _ => h.calm (failStream_calm hmem _ _)⟩
    extract_lets next
    split
    · exact ⟨_, rfl, fun _ => h.calm (failStream_calm hmem _ _)⟩
    next hle =>
    have hge := h.stream_ge stream hmem
    have hge' : (s.remoteInitialWindowSize : ℤ) - maxWindowSize ≤ next := by
      unfold next
      omega
    rw [intCastI32_of_le (by simp only [maxWindowSize] at hge'; omega) (not_lt.1 hle)]
    refine ⟨_, rfl, fun _ => ⟨h.conn_nonneg, h.conn_le, h.initial_le, h.maxFrame_ge,
      h.maxFrame_le, fun t' ht' => ?_, fun t' ht' => ?_⟩⟩
    · rcases mem_put ht' with rfl | ⟨ht', -⟩
      · exact hge'
      · exact h.stream_ge t' ht'
    · rcases mem_put ht' with rfl | ⟨ht', -⟩
      · exact not_lt.1 hle
      · exact h.stream_le t' ht'
  · refine ⟨_, rfl, fun _ => ?_⟩
    split
    · exact h.calm (fail_calm s _)
    · exact h

theorem dispatchFrame_isSome (h : s.Bounded) (dec : Decoder H) (header : FrameHeader)
    (payload : List UInt8) : (s.dispatchFrame dec header payload).isSome := by
  unfold dispatchFrame
  split
  · rfl
  split
  · rfl
  split
  · obtain ⟨t, heq, -⟩ := onSettings_accepts h header payload
    rw [heq]
    rfl
  · obtain ⟨t, heq, -⟩ := onWindowUpdate_accepts h header payload
    rw [heq]
    rfl
  all_goals rfl

variable {fs : List OutFrame}

theorem Bounded.drained (h : s.Bounded) (hmem : stream ∈ s.streams)
    {p : Session H × Stream} (hd : s.Drained stream p fs) : (p.1.put p.2).Bounded := by
  obtain ⟨t, stream'⟩ := p
  obtain ⟨wb, rfl⟩ : ∃ wb, t = s.sending fs wb := hd.sending
  have hwn : stream'.sendWindow = stream.sendWindow - dataLength fs := hd.sendWindow
  let w : Windows := ⟨s.connSendWindow, fun _ => stream.sendWindow, s.remoteMaxFrameSize⟩
  have hle := Windows.dataLength_le (hd.affords w ⟨rfl, rfl, rfl⟩) hd.frames
  have hcn : dataLength fs = 0 ∨ (dataLength fs : ℤ) ≤ s.connSendWindow :=
    hle.imp_right And.left
  have hst : dataLength fs = 0 ∨ (dataLength fs : ℤ) ≤ stream.sendWindow :=
    hle.imp_right And.right
  have hng := h.conn_nonneg
  have hin := h.initial_le
  refine ⟨?_, ?_, h.initial_le, h.maxFrame_ge, h.maxFrame_le, fun t' ht' => ?_, fun t' ht' => ?_⟩
  · change 0 ≤ s.connSendWindow - dataLength fs
    omega
  · have := h.conn_le
    change s.connSendWindow - dataLength fs ≤ maxWindowSize
    omega
  · rcases mem_put ht' with rfl | ⟨ht', -⟩
    · have := h.stream_ge stream hmem
      change (s.remoteInitialWindowSize : ℤ) - maxWindowSize ≤ _
      rw [hwn]
      omega
    · exact h.stream_ge t' ht'
  · rcases mem_put ht' with rfl | ⟨ht', -⟩
    · have := h.stream_le stream hmem
      rw [hwn]
      omega
    · exact h.stream_le t' ht'

theorem newWindow_eq (h : s.Bounded) : s.newWindow = s.remoteInitialWindowSize :=
  min_eq_left (by exact_mod_cast h.initial_le)

theorem Bounded.requests {hs : List OutFrame} (h : s.Bounded) (hr : s.Requests s' hs fs) :
    s'.Bounded := by
  let w : Windows := ⟨s.connSendWindow, fun _ => s.newWindow, s.remoteMaxFrameSize⟩
  have hle := Windows.dataLength_le (hr.affords w rfl rfl rfl) hr.frames
  have hcn : dataLength fs = 0 ∨ (dataLength fs : ℤ) ≤ s.connSendWindow :=
    hle.imp_right And.left
  have hst : dataLength fs = 0 ∨ (dataLength fs : ℤ) ≤ s.newWindow :=
    hle.imp_right And.right
  rw [newWindow_eq h] at hst
  have hng := h.conn_nonneg
  have hin := h.initial_le
  refine ⟨?_, ?_, hr.initial ▸ h.initial_le, hr.maxFrame ▸ h.maxFrame_ge,
    hr.maxFrame ▸ h.maxFrame_le, fun t' ht' => ?_, fun t' ht' => ?_⟩
  · rw [hr.conn]
    omega
  · have := h.conn_le
    rw [hr.conn]
    omega
  · rw [hr.initial]
    rcases hr.streams t' ht' with ht' | ⟨-, hwn⟩
    · exact h.stream_ge t' ht'
    · rw [hwn, newWindow_eq h]
      omega
  · rcases hr.streams t' ht' with ht' | ⟨-, hwn⟩
    · exact h.stream_le t' ht'
    · rw [hwn, newWindow_eq h]
      omega

variable {dec : Decoder H} {h₀ : H}

theorem Bounded.replenish (h : s.Bounded) (hs : s.Distinct) (hr : s.replenishWindow = some s') :
    s'.Bounded := by
  rcases replenishWindow_spec hs.pos hr with hc | ⟨-, hc⟩
  · exact h.calm hc
  · refine Bounded.calm ?_ hc
    exact ⟨h.conn_nonneg, h.conn_le, h.initial_le, h.maxFrame_ge, h.maxFrame_le, h.stream_ge,
      h.stream_le⟩

theorem Bounded.perform {i : Input} (h : s.Bounded) (hs : s.Distinct)
    (hp : s.perform dec i = some s') (hok : s'.fatalError = none) : s'.Bounded := by
  cases perform_effect hp with
  | calm hc _ => exact h.calm hc
  | headers _ hq => exact h.quietly hq
  | @data f _ _ hc =>
    refine Bounded.calm (s := { s with
      connUnackedBytes := saturatingAdd s.connUnackedBytes f.header.length }) ?_ hc
    exact ⟨h.conn_nonneg, h.conn_le, h.initial_le, h.maxFrame_ge, h.maxFrame_le, h.stream_ge,
      h.stream_le⟩
  | @settings f _ _ hset =>
    obtain ⟨t, heq, ht⟩ := onSettings_accepts h f.header f.payload
    rw [hset] at heq
    exact some.inj heq ▸ ht (some.inj heq ▸ hok)
  | @windowUpdate f _ _ hupd =>
    obtain ⟨t, heq, ht⟩ := onWindowUpdate_accepts h f.header f.payload
    rw [hupd] at heq
    exact some.inj heq ▸ ht (some.inj heq ▸ hok)
  | @attach client r _ =>
    obtain ⟨hs', fs, hreq⟩ := attach_requests s client r
    exact h.requests hreq
  | @drain id body cap stream hf =>
    obtain ⟨fs, hd⟩ := drainSendBody_drained s stream body cap
    exact h.drained (mem_of_find hf) hd
  | replenish hr => exact h.replenish hs hr

/-- The frames queued from one state to the other were within the windows, each at its turn. -/
def Writes (s s' : Session H) : Prop :=
  ∃ fs, s'.written = s.written ++ fs ∧ s.windows.Affords fs

theorem Writes.of_frames (h : s'.written = s.written ++ fs)
    (hfs : ∀ f ∈ fs, f.type = .data → f.payload = []) : s.Writes s' :=
  ⟨fs, h, affords_of_forall fun f hf _ hdt hne => absurd (hfs f hf hdt) hne⟩

theorem Writes.quietly (h : s.Quietly s') : s.Writes s' := by
  obtain ⟨fs, hfs, hq⟩ := h.written
  exact .of_frames hfs fun f hf => (hq f hf).data

theorem Writes.adjusts (h : s.Adjusts s') : s.Writes s' := by
  obtain ⟨fs, hfs, hq⟩ := h.written
  exact .of_frames hfs fun f hf => (hq f hf).data

theorem Writes.requests {hs : List OutFrame} (h : s.Bounded) (hd : s.Distinct)
    (hr : s.Requests s' hs fs) : s.Writes s' := by
  have hnew : s.find s.nextStreamId = none := by
    rw [find, find?_eq_none]
    intro t ht
    simpa using (hd.lt t ht).ne
  have hpre : ∀ f ∈ s.preface, f.type ≠ .data := by
    unfold preface
    split_ifs
    · simp
    · simp [prefaceFrames]
  have hhs : ∀ f ∈ hs, f.type ≠ .data := fun f hf => by
    rcases (hr.headers f hf).2 with hf' | hf' <;> simp [hf']
  refine ⟨_, hr.written, affords_append.2 ⟨affords_of_forall fun f hf _ hdt =>
    absurd hdt (hpre f hf), ?_⟩⟩
  rw [Windows.spends_of_ne_data _ hpre]
  refine affords_append.2 ⟨affords_of_forall fun f hf _ hdt => absurd hdt (hhs f hf), ?_⟩
  rw [Windows.spends_of_ne_data _ hhs]
  refine hr.affords _ rfl ?_ rfl
  simp only [windows, hnew]
  exact (newWindow_eq h).symm

theorem Writes.replenish (hs : s.Distinct) (hr : s.replenishWindow = some s') : s.Writes s' := by
  rcases replenishWindow_spec hs.pos hr with hc | ⟨-, hc⟩
  · exact .quietly hc.quietly
  · obtain ⟨fs, hfs, hq⟩ := hc.written
    refine .of_frames (hfs.trans (append_assoc s.written [_] fs)) fun f hf hdt => ?_
    rcases mem_append.1 hf with hf | hf
    · rw [mem_singleton.1 hf] at hdt
      simp at hdt
    · exact (hq f hf).data hdt

theorem Writes.drained (hs : s.Distinct) (hf : s.find id = some stream)
    {p : Session H × Stream} (hd : s.Drained stream p fs) : s.Writes (p.1.put p.2) := by
  obtain ⟨wb, heq⟩ := hd.sending
  refine ⟨fs, ?_, hd.affords _ (limits_windows hs hf)⟩
  rw [heq]
  rfl

theorem Writes.perform {i : Input} (h : s.Bounded) (hs : s.Distinct)
    (hp : s.perform dec i = some s') : s.Writes s' := by
  cases perform_effect hp with
  | calm hc _ => exact .quietly hc.quietly
  | headers _ hq => exact .quietly hq
  | data _ hc =>
    obtain ⟨fs, hfs, hq⟩ := hc.written
    exact .of_frames hfs fun f hf => (hq f hf).data
  | settings _ hset => exact .adjusts (onSettings_adjusts hset)
  | windowUpdate _ hupd => exact .adjusts (onWindowUpdate_adjusts hupd)
  | @attach client r _ =>
    obtain ⟨hs', fs, hreq⟩ := attach_requests s client r
    exact .requests h hs hreq
  | @drain id body cap stream hf =>
    obtain ⟨fs, hd⟩ := drainSendBody_drained s stream body cap
    exact .drained hs hf hd
  | replenish hr => exact .replenish hs hr

theorem Writes.drains {bodies : ℕ → ℕ → RequestBody} : ∀ {is es : List Input} {s s' : Session H},
    s.Distinct → DrainsOf bodies is → run (Session.step dec) s is = some (s', es) → s.Writes s'
  | [], es, s, s', _, _, hr => by
    obtain ⟨rfl, -⟩ := Prod.mk.inj (some.inj hr)
    exact ⟨[], (append_nil _).symm, trivial⟩
  | i :: is, es, s, s', hs, hd, hr => by
    obtain ⟨t, e, es', hone, hrs, -⟩ := run_cons.1 hr
    have hd' : DrainsOf bodies is := fun j hj => hd j (mem_cons_of_mem _ hj)
    obtain ⟨id, k, cap, rfl⟩ := hd i mem_cons_self
    unfold step at hone
    split_ifs at hone
    obtain ⟨u, hp, heq⟩ := map_eq_some_iff.1 hone
    obtain ⟨rfl, -⟩ := Prod.mk.inj heq
    rcases hf : s.find id with _ | stream
    · simp only [Session.perform, hf] at hp
      obtain rfl := some.inj hp
      exact Writes.drains hs hd' hrs
    · simp only [Session.perform, hf] at hp
      obtain rfl := some.inj hp
      obtain ⟨fs, hdr⟩ := drainSendBody_drained s stream (bodies k id) cap
      have hkp := (drainSendBody_hands s stream (bodies k id) cap).put (hs.tracks hf)
      obtain ⟨gs, hgs, haf⟩ := Writes.drains (hkp.distinct hs) hd' hrs
      obtain ⟨wb, hsn⟩ := hdr.sending
      simp only at hsn
      rw [hdr.windows hs hf] at haf
      refine ⟨fs ++ gs, ?_, affords_append.2 ⟨hdr.affords _ (limits_windows hs hf), haf⟩⟩
      rw [hgs, hsn]
      exact append_assoc _ _ _

/-- Until the session fails the windows keep their bounds. -/
theorem bounded_run {is es : List Input}
    (hr : run (Session.step dec) { hpack := h₀ } is = some (s, es)) (hok : s.fatalError = none) :
    s.Bounded ∧ ∃ w, s.Synced dec h₀ w := by
  refine run_inv (P := fun s => s.fatalError = none → s.Bounded ∧ ∃ w, s.Synced dec h₀ w)
    (fun {s s' i e} hP hone hok' => ?_) (fun _ => ⟨.init h₀, _, .init dec h₀⟩) hr hok
  unfold step at hone
  split_ifs at hone with hft
  obtain ⟨t, hp, heq⟩ := map_eq_some_iff.1 hone
  obtain ⟨rfl, -⟩ := Prod.mk.inj heq
  obtain ⟨hb, w, hs⟩ := hP (by simpa using hft)
  exact ⟨hb.perform hs.distinct hp hok', _, hs.perform hp hok'⟩

theorem Writes.act {a e : Activity} (h : s.Bounded) (hs : s.Distinct)
    (hact : s.act dec a = some (s', e)) : s.Writes s' := by
  cases a with
  | input i =>
    obtain ⟨⟨t, i'⟩, hone, heq⟩ := map_eq_some_iff.1 hact
    obtain ⟨rfl, -⟩ := Prod.mk.inj heq
    unfold step at hone
    split_ifs at hone
    obtain ⟨u, hp, heq'⟩ := map_eq_some_iff.1 hone
    obtain ⟨rfl, -⟩ := Prod.mk.inj heq'
    exact .perform h hs hp
  | drainAll bodies =>
    obtain ⟨is, hr, hhas⟩ := act_run hact
    exact .drains hs hhas hr

end Session

/-- Until the session fails, for every order of frames, requests and drains: the connection's window
is between zero and the largest window, every stream's between minus and plus that, no frame makes a
checked cast fail, and what is sent next stays within the windows and the largest frame, every frame
with bytes of DATA at its turn. -/
theorem send_windows {H : Type} {dec : Decoder H} {h₀ : H} {as es : List Session.Activity}
    {s : Session H} (hr : run (Session.act dec) { hpack := h₀ } as = some (s, es))
    (hok : s.fatalError = none) :
    (0 ≤ s.connSendWindow ∧ s.connSendWindow ≤ maxWindowSize)
    ∧ (∀ stream ∈ s.streams,
      -(maxWindowSize : ℤ) ≤ stream.sendWindow ∧ stream.sendWindow ≤ maxWindowSize)
    ∧ (∀ f : Frame, (s.dispatchFrame dec f.header f.payload).isSome)
    ∧ ∀ (a e : Session.Activity) (s' : Session H), s.act dec a = some (s', e) →
      ∃ fs, s'.written = s.written ++ fs ∧ s.windows.Affords fs := by
  obtain ⟨is, hrun, -⟩ := Session.acts_run hr
  obtain ⟨hb, w, hs⟩ := Session.bounded_run hrun hok
  refine ⟨⟨hb.conn_nonneg, hb.conn_le⟩, fun stream hmem => ⟨?_, hb.stream_le stream hmem⟩,
    fun f => Session.dispatchFrame_isSome hb dec _ _, fun a e s' hact =>
      Session.Writes.act hb hs.distinct hact⟩
  have := hb.stream_ge stream hmem
  omega

/-- Ten bytes of a body go out before the server lowers the window of new streams to zero. -/
theorem send_windows_lowered : ∃ (s : Session Unit) (es : List Session.Activity),
    run (Session.act noDecoder) { hpack := () } [
        .input (.frame ⟨{ length := 0, type := 4, streamIdentifier := 0 }, [], rfl, by decide,
          by decide⟩),
        .input (.attach 9 { body := .stream [] false }),
        .input (.drain 1 (.stream (List.replicate 10 7) false) 100),
        .input (.frame ⟨{ length := 6, type := 4, streamIdentifier := 0 }, [0, 4, 0, 0, 0, 0], rfl,
          by decide, by decide⟩)] = some (s, es)
      ∧ s.streams.map Stream.sendWindow = [-10]
      ∧ ∀ stream ∈ s.streams, -(maxWindowSize : ℤ) ≤ stream.sendWindow := by
  have hr : run (Session.act noDecoder) { hpack := () } [
      .input (.frame ⟨{ length := 0, type := 4, streamIdentifier := 0 }, [], rfl, by decide,
        by decide⟩),
      .input (.attach 9 { body := .stream [] false }),
      .input (.drain 1 (.stream (List.replicate 10 7) false) 100),
      .input (.frame ⟨{ length := 6, type := 4, streamIdentifier := 0 }, [0, 4, 0, 0, 0, 0], rfl,
        by decide, by decide⟩)] = some (_, _) := rfl
  exact ⟨_, _, hr, rfl, fun stream hmem => ((send_windows hr rfl).2.1 stream hmem).1⟩

/-- An empty frame that ends a body goes out all the same when the stream's window is negative. -/
theorem send_windows_refuted :
    ¬ ∀ (as es : List Session.Activity) (s s' : Session Unit) (a e : Session.Activity)
      (f : OutFrame), run (Session.act noDecoder) { hpack := () } as = some (s, es) →
        s.act noDecoder a = some (s', e) → s'.written = s.written ++ [f] → f.type = .data →
          f.payload.length ≤ s.windows.stream f.streamId := by
  intro h
  have := h [
      .input (.frame ⟨{ length := 0, type := 4, streamIdentifier := 0 }, [], rfl, by decide,
        by decide⟩),
      .input (.attach 9 { body := .stream [] false }),
      .input (.drain 1 (.stream (List.replicate 10 7) false) 100),
      .input (.frame ⟨{ length := 6, type := 4, streamIdentifier := 0 }, [0, 4, 0, 0, 0, 0], rfl,
        by decide, by decide⟩)] _ _ _ (.input (.drain 1 (.stream [] true) 100)) _
    ⟨.data, flagEndStream, 1, []⟩ rfl rfl rfl rfl
  revert this
  decide

end Cruller.H2
