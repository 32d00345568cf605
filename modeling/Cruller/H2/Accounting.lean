import Cruller.H2.Progress

/-!
# No client is lost, none is answered twice

Every time that a client is handed to a session it waits there, is on one stream, or has had its one
outcome. Between two steps that is an equation between the numbers of times (`Holds`); within a step
it is one too when those are counted whom the code has in hand.
-/

namespace Cruller.H2

open List Option

/-- The client of a stream has what the stream has delivered, and has not been told that this is
all. -/
structure Stream.Serves (t : Stream) (state : InternalState) : Prop where
  live : state.Live
  no_redirect : state.isRedirectPending = false
  not_last : state.receivedLastChunk = false
  ready : t.headersReady = true → t.statusCode ≠ 0
  waits : state.responseStage ≠ .body → state.contentLength = none ∧ state.allowKeepalive = true
    ∧ state.totalBodyReceived = 0 ∧ state.bodyOutLen = 0
  reads : state.responseStage = .body → t.statusCode ≠ 0 ∧ t.headersReady = false
  quiet : state.isDone = true → state.bodyOutLen = 0
  took : ∃ n, t.dataBytesReceived = n + t.bodyBuffer.length ∧ state.Took n

theorem Stream.Serves.follows {t t' : Stream} {state : InternalState} (h : t.Serves state)
    (hf : t.Follows t') : t'.Serves state where
  live := h.live
  no_redirect := h.no_redirect
  not_last := h.not_last
  ready hr := (hf.ready hr).elim (fun hs => hs) fun hr' => (hf.status (h.ready hr')).1
  waits := h.waits
  reads hb := by
    obtain ⟨hst, hrd⟩ := h.reads hb
    refine ⟨(hf.status hst).1, ?_⟩
    rw [← Bool.not_eq_true]
    exact fun hr => absurd ((hf.status hst).2 hr) (by simp [hrd])
  quiet := h.quiet
  took := by
    obtain ⟨n, hn, htk⟩ := h.took
    obtain ⟨m, hm, hm'⟩ := hf.bytes
    exact ⟨n, by omega, htk⟩

namespace Connection

variable {H : Type}

/-- The books are in order, with some clients taken off the queue and some off their streams. -/
structure Holds (c : Connection H) (waiters hand : List ℕ) : Prop where
  distinct : c.session.Distinct
  once : ∀ id, waiters.count id + hand.count id + c.pendingAttach.count id
    + c.session.clients.count id ≤ 1
  balance : ∀ id, c.engaged.count id = waiters.count id + hand.count id + c.pendingAttach.count id
    + c.session.clients.count id + (c.outcomes.map Prod.fst).count id
  parked : ∀ id, id ∈ waiters ∨ id ∈ c.pendingAttach → (c.clients id).state = {}
  live : ∀ id ∈ hand, (c.clients id).state.Live
  serves : ∀ t ∈ c.session.streams, ∀ id, t.client = some id → t.Serves (c.clients id).state

section

variable {c : Connection H} {w d : List ℕ} {s' : Session H} {stream stream' t : Stream}
  {id id' : ℕ} {state : InternalState}

variable {s : Session H} {aborted : ℕ → Bool}

theorem mem_clients (hmem : t ∈ s.streams) (hcl : t.client = some id) :
    0 < s.clients.count id :=
  count_pos_iff.2 (mem_filterMap.2 ⟨t, hmem, hcl⟩)

theorem setState_of_ne (h : id' ≠ id) (c : Connection H) (state : InternalState) :
    (c.setState id state).clients id' = c.clients id' :=
  Function.update_of_ne h _ _

@[simp]
theorem setState_state (c : Connection H) (id : ℕ) (state : InternalState) :
    ((c.setState id state).clients id).state = state := by
  simp [setState]

theorem Holds.advance (h : c.Holds w d) (hadv : c.session.Advances s') :
    Holds { c with session := s' } w d where
  distinct := hadv.distinct h.distinct
  once id := by simpa only [hadv.clients] using h.once id
  balance id := by simpa only [hadv.clients] using h.balance id
  parked := h.parked
  live := h.live
  serves t ht id hcl := by
    obtain ⟨u, hu, hf⟩ := hadv.mem ht
    exact (h.serves u hu id (hf.client ▸ hcl)).follows hf

/-! ## Clients in hand -/

theorem Holds.takeAll (ids : List ℕ) (h : c.Holds (ids ++ w) d) : c.Holds w (ids ++ d) where
  distinct := h.distinct
  once x := by
    have := h.once x
    simp only [count_append] at this ⊢
    omega
  balance x := by
    have := h.balance x
    simp only [count_append] at this ⊢
    omega
  parked x hx := h.parked x (hx.imp_left (mem_append_right _))
  live x hx := by
    rcases mem_append.1 hx with hx | hx
    · rw [h.parked x (.inl (mem_append_left _ hx))]
      exact InternalState.live_new
    · exact h.live x hx
  serves := h.serves

theorem Holds.take (h : c.Holds (id :: w) d) : c.Holds w (id :: d) := Holds.takeAll [id] h

theorem Holds.alone (h : c.Holds w (id :: d)) : w.count id = 0 ∧ d.count id = 0
    ∧ c.pendingAttach.count id = 0 ∧ c.session.clients.count id = 0 := by
  have := h.once id
  rw [count_cons_self] at this
  omega

theorem Holds.update (h : c.Holds w (id :: d)) (state : InternalState) :
    (∀ x, x ∈ w ∨ x ∈ c.pendingAttach → ((c.setState id state).clients x).state = {})
    ∧ (∀ x ∈ d, ((c.setState id state).clients x).state.Live)
    ∧ ∀ t ∈ c.session.streams, ∀ x, t.client = some x →
      t.Serves ((c.setState id state).clients x).state := by
  obtain ⟨hw, hd, hp, hc⟩ := h.alone
  refine ⟨fun x hx => ?_, fun x hx => ?_, fun t ht x hcl => ?_⟩
  · have hne : x ≠ id := by
      rintro rfl
      exact hx.elim (fun hx => absurd hw (count_pos_iff.2 hx).ne')
        fun hx => absurd hp (count_pos_iff.2 hx).ne'
    rw [setState_of_ne hne]
    exact h.parked x hx
  · have hne : x ≠ id := by
      rintro rfl
      exact absurd hd (count_pos_iff.2 hx).ne'
    rw [setState_of_ne hne]
    exact h.live x (mem_cons_of_mem _ hx)
  · have hne : x ≠ id := by
      rintro rfl
      exact absurd hc (mem_clients ht hcl).ne'
    rw [setState_of_ne hne]
    exact h.serves t ht x hcl

theorem Holds.setState (h : c.Holds w (id :: d)) (hst : state.Live) :
    (c.setState id state).Holds w (id :: d) := by
  obtain ⟨hpr, hlv, hsr⟩ := h.update state
  refine ⟨h.distinct, h.once, h.balance, hpr, fun x hx => ?_, hsr⟩
  rcases mem_cons.1 hx with rfl | hx
  · simpa using hst
  · exact hlv x hx

theorem Holds.conclude (h : c.Holds w (id :: d)) (outcome : Outcome) (state : InternalState) :
    (c.conclude id outcome state).Holds w d := by
  obtain ⟨hpr, hlv, hsr⟩ := h.update state
  refine ⟨h.distinct, fun x => ?_, fun x => ?_, hpr, hlv, hsr⟩
  · have := h.once x
    rw [count_cons] at this
    exact (by omega : w.count x + d.count x + c.pendingAttach.count x
      + c.session.clients.count x ≤ 1)
  · have := h.balance x
    rw [count_cons] at this
    have hout : ((c.conclude id outcome state).outcomes.map Prod.fst).count x =
        (c.outcomes.map Prod.fst).count x + if id == x then 1 else 0 := by
      rw [show (c.conclude id outcome state).outcomes = c.outcomes ++ [(id, outcome)] from rfl,
        map_append, count_append, map_singleton, count_singleton]
    rw [hout]
    exact (by omega : c.engaged.count x = w.count x + d.count x + c.pendingAttach.count x
      + c.session.clients.count x + ((c.outcomes.map Prod.fst).count x + if id == x then 1 else 0))

theorem Holds.failFromH2 (h : c.Holds w (id :: d)) (e : Failure) : (c.failFromH2 id e).Holds w d := by
  have hlv := h.live id mem_cons_self
  rw [Connection.failFromH2, if_pos ⟨hlv.not_done, hlv.not_fail⟩]
  exact h.conclude _ _

theorem Holds.retryAfterH2Coalesce (h : c.Holds w (id :: d)) :
    (c.retryAfterH2Coalesce id).Holds w d :=
  h.conclude _ _

theorem Holds.failEach (e : Failure) : ∀ (ids : List ℕ) {c : Connection H}, c.Holds w (ids ++ d) →
    (c.failEach ids e).Holds w d
  | [], _, h => h
  | _ :: ids, _, h => Holds.failEach e ids (h.failFromH2 e)

theorem Holds.retryEach : ∀ (ids : List ℕ) {c : Connection H}, c.Holds w (ids ++ d) →
    (ids.foldl Connection.retryAfterH2Coalesce c).Holds w d
  | [], _, h => h
  | _ :: ids, _, h => Holds.retryEach ids h.retryAfterH2Coalesce

/-! ## Onto the queue and off it -/

/-- A new client waits to be placed. -/
theorem Holds.engage (h : c.Holds w d) (id : ℕ) (hnew : w.count id + d.count id + c.pendingAttach.count id
    + c.session.clients.count id = 0) (request : Request) :
    (c.engage id request).Holds (id :: w) d := by
  have hne : ∀ {x}, 0 < w.count x + d.count x + c.pendingAttach.count x
      + c.session.clients.count x → (c.engage id request).clients x = c.clients x := fun hx =>
    Function.update_of_ne (by rintro rfl; omega) _ _
  refine ⟨h.distinct, fun x => ?_, fun x => ?_, fun x hx => ?_, fun x hx => ?_,
    fun t ht x hcl => ?_⟩
  · have := h.once x
    rw [count_cons]
    by_cases hx : id = x
    · subst hx
      exact (by simp; omega : w.count id + (if id == id then 1 else 0) + d.count id
        + c.pendingAttach.count id + c.session.clients.count id ≤ 1)
    · exact (by simp [hx]; omega : w.count x + (if id == x then 1 else 0) + d.count x
        + c.pendingAttach.count x + c.session.clients.count x ≤ 1)
  · have := h.balance x
    rw [show (c.engage id request).engaged = c.engaged ++ [id] from rfl, count_append,
      count_singleton, count_cons]
    exact (by omega : c.engaged.count x + (if id == x then 1 else 0) = w.count x
      + (if id == x then 1 else 0) + d.count x + c.pendingAttach.count x
      + c.session.clients.count x + (c.outcomes.map Prod.fst).count x)
  · by_cases hid : x = id
    · subst hid
      simp [Connection.engage]
    · have hx : x ∈ w ∨ x ∈ c.pendingAttach :=
        hx.imp_left fun hx => (mem_cons.1 hx).resolve_left hid
      rw [show (c.engage id request).clients x = c.clients x from Function.update_of_ne hid _ _]
      exact h.parked x hx
  · rw [hne (by have := count_pos_iff.2 hx; omega)]
    exact h.live x hx
  · have hpos : 0 < c.session.clients.count x := mem_clients ht hcl
    rw [hne (by omega)]
    exact h.serves t ht x hcl

theorem Holds.park (h : c.Holds (id :: w) d) : (c.park id).Holds w d := by
  refine ⟨h.distinct, fun x => ?_, fun x => ?_, fun x hx => h.parked x ?_, h.live, h.serves⟩
  · have := h.once x
    rw [count_cons] at this
    rw [show (c.park id).pendingAttach = c.pendingAttach ++ [id] from rfl, count_append,
      count_singleton]
    exact (by omega : w.count x + d.count x + (c.pendingAttach.count x + if id == x then 1 else 0)
      + c.session.clients.count x ≤ 1)
  · have := h.balance x
    rw [count_cons] at this
    rw [show (c.park id).pendingAttach = c.pendingAttach ++ [id] from rfl, count_append,
      count_singleton]
    exact (by omega : c.engaged.count x = w.count x + d.count x
      + (c.pendingAttach.count x + if id == x then 1 else 0) + c.session.clients.count x
      + (c.outcomes.map Prod.fst).count x)
  · rcases hx with hx | hx
    · exact .inl (mem_cons_of_mem _ hx)
    · rcases mem_append.1 hx with hx | hx
      · exact .inr hx
      · exact .inl (mem_singleton.1 hx ▸ mem_cons_self)

theorem Holds.unpark (h : c.Holds w d) (ids rest : List ℕ) (hp : c.pendingAttach.Perm (ids ++ rest)) :
    Holds { c with pendingAttach := rest } (ids ++ w) d := by
  have hcn : ∀ x, c.pendingAttach.count x = ids.count x + rest.count x := fun x => by
    rw [hp.count_eq, count_append]
  refine ⟨h.distinct, fun x => ?_, fun x => ?_, fun x hx => h.parked x ?_, h.live, h.serves⟩
  · have := h.once x
    rw [hcn] at this
    rw [count_append]
    exact (by omega : ids.count x + w.count x + d.count x + rest.count x
      + c.session.clients.count x ≤ 1)
  · have := h.balance x
    rw [hcn] at this
    rw [count_append]
    exact (by omega : c.engaged.count x = ids.count x + w.count x + d.count x + rest.count x
      + c.session.clients.count x + (c.outcomes.map Prod.fst).count x)
  · rw [hp.mem_iff, mem_append]
    simp only [mem_append] at hx
    tauto

/-! ## Onto a stream and off it -/

theorem Holds.unique (h : c.Holds w d) (hmem : stream ∈ c.session.streams)
    (hcl : stream.client = some id) (ht : t ∈ c.session.streams) (htc : t.client = some id) :
    t = stream := by
  obtain ⟨l, r, hsp⟩ := append_of_mem hmem
  have hon := h.once id
  have hcn : c.session.clients.count id = (l.filterMap Stream.client).count id
      + (r.filterMap Stream.client).count id + 1 := by
    rw [Session.clients, hsp, filterMap_append, filterMap_cons_some hcl,
      count_append, count_cons_self, Nat.add_assoc]
  rw [hsp] at ht
  rcases mem_append.1 ht with ht | ht
  · have : 0 < (l.filterMap Stream.client).count id :=
      count_pos_iff.2 (mem_filterMap.2 ⟨t, ht, htc⟩)
    omega
  rcases mem_cons.1 ht with rfl | ht
  · rfl
  · have : 0 < (r.filterMap Stream.client).count id :=
      count_pos_iff.2 (mem_filterMap.2 ⟨t, ht, htc⟩)
    omega

theorem put_split (hs : s.Distinct) (hmem : t ∈ s.streams)
    (hid : stream.id = t.id) : ∃ l r, s.streams = l ++ t :: r
      ∧ (s.put stream).streams = l ++ stream :: r := by
  obtain ⟨l, r, hsp⟩ := append_of_mem hmem
  refine ⟨l, r, hsp, ?_⟩
  have hnd := hs.nodup
  rw [hsp, map_append, map_cons, nodup_middle, nodup_cons,
    ← map_append] at hnd
  have hkp : ∀ u ∈ l ++ r, (if u.id = stream.id then stream else u) = u := fun u hu =>
    if_neg fun h => hnd.1 (by rw [← hid, ← h]; exact List.mem_map_of_mem hu)
  rw [Session.put, hsp, map_append, map_cons, if_pos hid.symm,
    map_congr_left fun u hu => hkp u (mem_append_left r hu),
    map_congr_left fun u hu => hkp u (mem_append_right l hu), List.map_id', List.map_id']

/-- A stream goes on with its client. -/
theorem Holds.serve (h : c.Holds w d) (stream' : Stream) (hmem : stream ∈ c.session.streams)
    (hcl : stream.client = some id) (hid : stream'.id = stream.id)
    (hcl' : stream'.client = some id) (hsr : stream'.Serves state) :
    ({ c with session := c.session.put stream' }.setState id state).Holds w d := by
  obtain ⟨l, r, hsp, hput⟩ := put_split h.distinct hmem hid
  have hcn : (c.session.put stream').clients = c.session.clients := by
    rw [Session.clients, Session.clients, hput, hsp, filterMap_append,
      filterMap_append, filterMap_cons_some hcl, filterMap_cons_some hcl']
  have hone : c.session.clients.count id = 1 := by
    have := h.once id
    have : 0 < c.session.clients.count id := mem_clients hmem hcl
    omega
  have hne : ∀ {x}, 0 < w.count x + d.count x + c.pendingAttach.count x → x ≠ id := by
    rintro x hx rfl
    have := h.once x
    omega
  refine ⟨h.distinct.put stream', fun x => ?_, fun x => ?_, fun x hx => ?_, fun x hx => ?_,
    fun t ht x hx => ?_⟩
  · have := h.once x
    rw [← hcn] at this
    exact this
  · have := h.balance x
    rw [← hcn] at this
    exact this
  · have hx' : x ∈ w ∨ x ∈ c.pendingAttach := hx
    rw [setState_of_ne (hne (by
      rcases hx' with hx' | hx' <;> have := count_pos_iff.2 hx' <;> omega))]
    exact h.parked x hx'
  · rw [setState_of_ne (hne (by have := count_pos_iff.2 hx; omega))]
    exact h.live x hx
  · obtain ⟨old, hold, heq⟩ := List.mem_map.1 ht
    split_ifs at heq with hsm
    · subst heq
      obtain rfl := some.inj (hcl'.symm.trans hx)
      rw [setState_state]
      exact hsr
    · subst heq
      by_cases hxid : x = id
      · subst hxid
        exact absurd ((congrArg _ (h.unique hmem hcl hold hx)).trans hid.symm) hsm
      · rw [setState_of_ne hxid]
        exact h.serves old hold x hx

/-- A stream without its client may be removed. -/
theorem Holds.letGo (h : c.Holds w d) (stream' : Stream) (hadv : c.session.Advances s')
    (hmem : stream ∈ c.session.streams) (hcl : stream.client = some id)
    (hid : stream'.id = stream.id) (hcl' : stream'.client = none) :
    Holds { c with session := s'.put stream' } w (id :: d) := by
  have h' := h.advance hadv
  obtain ⟨u, hu, hf⟩ := Session.follows_of_mem hadv.streams stream hmem
  obtain ⟨l, r, hsp, hput⟩ := put_split h'.distinct hu (hid.trans hf.id.symm)
  have hcn : ∀ x, s'.clients.count x = (s'.put stream').clients.count x
      + if id == x then 1 else 0 := fun x => by
    rw [Session.clients, Session.clients, hput, hsp, filterMap_append,
      filterMap_append, filterMap_cons_some (hf.client.trans hcl),
      filterMap_cons_none hcl', count_append, count_append, count_cons,
      Nat.add_assoc]
  refine ⟨h'.distinct.put stream', fun x => ?_, fun x => ?_, h'.parked, fun x hx => ?_,
    fun t ht x hx => ?_⟩
  · have : w.count x + d.count x + c.pendingAttach.count x + s'.clients.count x ≤ 1 := h'.once x
    rw [hcn x] at this
    rw [count_cons]
    exact (by omega : w.count x + (d.count x + if id == x then 1 else 0)
      + c.pendingAttach.count x + (s'.put stream').clients.count x ≤ 1)
  · have : c.engaged.count x = w.count x + d.count x + c.pendingAttach.count x
        + s'.clients.count x + (c.outcomes.map Prod.fst).count x := h'.balance x
    rw [hcn x] at this
    rw [count_cons]
    exact (by omega : c.engaged.count x = w.count x + (d.count x + if id == x then 1 else 0)
      + c.pendingAttach.count x + (s'.put stream').clients.count x
      + (c.outcomes.map Prod.fst).count x)
  · rcases mem_cons.1 hx with rfl | hx
    · exact (h.serves stream hmem x hcl).live
    · exact h.live x hx
  · obtain ⟨old, hold, heq⟩ := List.mem_map.1 ht
    split_ifs at heq
    · rw [← heq, hcl'] at hx
      cases hx
    · exact h'.serves t (heq ▸ hold) x hx

theorem Holds.remove {streamId : ℕ} (h : c.Holds w d) (hf : c.session.find streamId = some t) :
    Holds { c with session := c.session.swapRemove streamId } w (t.client.toList ++ d) := by
  obtain ⟨hid, l, r, hsp, hl⟩ := find?_eq_some_iff_append.1 hf
  have hpr := Session.swapRemove_perm hsp (by simpa using hid) (by simpa using hl)
  obtain ⟨hds, hmem⟩ := h.distinct.swapRemove hf
  have hcl : ∀ x, c.session.clients.count x = t.client.toList.count x
      + (c.session.swapRemove streamId).clients.count x := fun x => by
    rw [Session.clients, Session.clients, (hpr.filterMap _).count_eq, hsp,
      filterMap_append, filterMap_append, count_append, count_append]
    cases hc : t.client with
    | none => simp [filterMap_cons_none hc]
    | some id =>
      rw [filterMap_cons_some hc, toList_some, count_cons, count_singleton]
      omega
  refine ⟨hds, fun x => ?_, fun x => ?_, h.parked, fun x hx => ?_, fun u hu x hx => ?_⟩
  · have := h.once x
    rw [hcl x] at this
    rw [count_append]
    exact (by omega : w.count x + (t.client.toList.count x + d.count x) + c.pendingAttach.count x
      + (c.session.swapRemove streamId).clients.count x ≤ 1)
  · have := h.balance x
    rw [hcl x] at this
    rw [count_append]
    exact (by omega : c.engaged.count x = w.count x + (t.client.toList.count x + d.count x)
      + c.pendingAttach.count x + (c.session.swapRemove streamId).clients.count x
      + (c.outcomes.map Prod.fst).count x)
  · rcases mem_append.1 hx with hx | hx
    · exact (h.serves t (mem_of_find?_eq_some hf) x (by simpa using hx)).live
    · exact h.live x hx
  · exact h.serves u ((hmem u).1 hu).1 x hx

theorem Holds.removeStream (h : c.Holds w d) (hmem : t ∈ c.session.streams)
    (hid : stream.id = t.id) :
    Holds { c with session := c.session.removeStream stream } w (t.client.toList ++ d) := by
  have hadv : c.session.Advances (if c.session.expectingContinuation = stream.id then
      { c.session with orphanHeaderBlock := stream.headerBlock } else c.session) := by
    split
    · exact .of_streams rfl rfl
    · exact .refl _
  obtain ⟨u, hu, hf⟩ := Session.follows_of_mem hadv.streams t hmem
  have hfn := (hadv.distinct h.distinct).find_iff.2 ⟨hu, hf.id.trans hid.symm⟩
  have hrm := (h.advance hadv).remove hfn
  rw [hf.client] at hrm
  exact hrm

/-- A client off the queue gets a stream of its own at the next id. -/
theorem Holds.push (h : c.Holds (id :: w) d) (hid : stream.id = c.session.nextStreamId)
    (hcl : stream.client = some id) (hmax : c.session.nextStreamId < maxStreamId)
    (hsr : stream.Serves state) :
    Holds { c.setState id state with session := { c.session with
      nextStreamId := min (c.session.nextStreamId + 2) maxStreamId
      streams := c.session.streams ++ [stream] } } w d := by
  obtain ⟨hpr, hlv, hall⟩ := h.take.update state
  have hct : (c.session.streams ++ [stream]).filterMap Stream.client =
      c.session.clients ++ [id] := by
    rw [filterMap_append, filterMap_cons_some hcl, filterMap_nil]
    rfl
  have hcn : ∀ x, ((c.session.streams ++ [stream]).filterMap Stream.client).count x =
      c.session.clients.count x + if id == x then 1 else 0 := fun x => by
    rw [hct, count_append, count_singleton]
  refine ⟨h.distinct.push hid hmax, fun x => ?_, fun x => ?_, hpr, hlv,
    fun t ht x hx => ?_⟩
  · have := h.once x
    rw [count_cons] at this
    refine (?_ : w.count x + d.count x + c.pendingAttach.count x
      + ((c.session.streams ++ [stream]).filterMap Stream.client).count x ≤ 1)
    rw [hcn]
    omega
  · have := h.balance x
    rw [count_cons] at this
    refine (?_ : c.engaged.count x = w.count x + d.count x + c.pendingAttach.count x
      + ((c.session.streams ++ [stream]).filterMap Stream.client).count x
      + (c.outcomes.map Prod.fst).count x)
    rw [hcn]
    omega
  · rcases mem_append.1 ht with ht | ht
    · exact hall t ht x hx
    · rw [mem_singleton.1 ht] at hx ⊢
      obtain rfl := some.inj (hcl.symm.trans hx)
      change stream.Serves ((c.setState _ state).clients _).state
      rw [setState_state]
      exact hsr

theorem Holds.clear (h : c.Holds w d) :
    Holds { c with session := { c.session with streams := [] } } w (c.session.clients ++ d) := by
  refine ⟨⟨nodup_nil, by simp, by simp, h.distinct.next_pos⟩, fun x => ?_, fun x => ?_,
    h.parked, fun x hx => ?_, by simp⟩
  · have := h.once x
    rw [count_append]
    refine (?_ : w.count x + (c.session.clients.count x + d.count x) + c.pendingAttach.count x
      + ([] : List ℕ).count x ≤ 1)
    rw [count_nil]
    omega
  · have := h.balance x
    rw [count_append]
    refine (?_ : c.engaged.count x = w.count x + (c.session.clients.count x + d.count x)
      + c.pendingAttach.count x + ([] : List ℕ).count x + (c.outcomes.map Prod.fst).count x)
    rw [count_nil]
    omega
  · rcases mem_append.1 hx with hx | hx
    · obtain ⟨t, ht, hc⟩ := mem_filterMap.1 hx
      exact (h.serves t ht x hc).live
    · exact h.live x hx

/-! ## Failing everyone -/

theorem failEach_pendingAttach (l : List ℕ) (e : Failure) : ∀ (ids : List ℕ) (c : Connection H),
    { c.failEach ids e with pendingAttach := l } = { c with pendingAttach := l }.failEach ids e
  | [], _ => rfl
  | id :: ids, c => by
    have hone : { c.failFromH2 id e with pendingAttach := l } =
        { c with pendingAttach := l }.failFromH2 id e := by
      unfold Connection.failFromH2
      simp only
      split <;> rfl
    exact (failEach_pendingAttach l e ids (c.failFromH2 id e)).trans
      (congrArg (fun c => c.failEach ids e) hone)

theorem failEach_session (s : Session H) (e : Failure) : ∀ (ids : List ℕ) (c : Connection H),
    { c.failEach ids e with session := s } = { c with session := s }.failEach ids e
  | [], _ => rfl
  | id :: ids, c => by
    have hone : { c.failFromH2 id e with session := s } =
        { c with session := s }.failFromH2 id e := by
      unfold Connection.failFromH2
      simp only
      split <;> rfl
    exact (failEach_session s e ids (c.failFromH2 id e)).trans
      (congrArg (fun c => c.failEach ids e) hone)

theorem retryEach_pendingAttach (l : List ℕ) : ∀ (ids : List ℕ) (c : Connection H),
    { ids.foldl Connection.retryAfterH2Coalesce c with pendingAttach := l } =
      ids.foldl Connection.retryAfterH2Coalesce { c with pendingAttach := l }
  | [], _ => rfl
  | id :: ids, c => retryEach_pendingAttach l ids (c.retryAfterH2Coalesce id)

theorem failEach_same (e : Failure) : ∀ (ids : List ℕ) (c : Connection H),
    (c.failEach ids e).session = c.session
  | [], _ => rfl
  | id :: ids, c => by
    have hone : (c.failFromH2 id e).session = c.session := by
      unfold Connection.failFromH2
      simp only
      split <;> rfl
    exact (failEach_same e ids (c.failFromH2 id e)).trans hone

theorem Holds.failStreams (h : c.Holds w d) (e : Failure) :
    Holds { c.failEach c.session.clients e with
      session := { (c.failEach c.session.clients e).session with streams := [] } } w d := by
  rw [failEach_same, failEach_session]
  exact Holds.failEach e _ h.clear

theorem Holds.onClose (h : c.Holds w d) (e : Failure) : (c.onClose e).Holds w d := by
  have hpn : Holds { c.failEach c.pendingAttach e with pendingAttach := [] } w d := by
    rw [failEach_pendingAttach]
    exact Holds.failEach e _ ((h.unpark _ [] (by simp)).takeAll _)
  exact hpn.failStreams e

theorem Holds.failAll (h : c.Holds w d) (e : Error) (writable : Bool) :
    (c.failAll e writable).Holds w d := by
  unfold Connection.failAll
  extract_lets s t u
  have hadv : c.session.Advances u := by
    unfold u
    split
    · exact .of_streams rfl rfl
    · exact .of_streams rfl rfl
  exact (h.advance hadv).onClose _

/-! ## Taking clients in -/

theorem serves_new (t : Stream) (hrd : t.headersReady = false)
    (hrc : t.dataBytesReceived = 0) (hbf : t.bodyBuffer = []) {stage : HTTPStage}
    (hst : stage ≠ .body) : t.Serves { responseStage := stage } where
  live := ⟨fun h => by simp at h, fun h => by simp at h⟩
  no_redirect := rfl
  not_last := rfl
  ready h := by simp [hrd] at h
  waits _ := ⟨rfl, rfl, rfl, rfl⟩
  reads h := absurd h hst
  quiet _ := rfl
  took := ⟨0, by simp [hrc, hbf], ⟨rfl⟩⟩

theorem hasHeadroom_lt (hrm : s.hasHeadroom = true) :
    s.nextStreamId < maxStreamId := by
  simp only [Session.hasHeadroom, Bool.and_eq_true, decide_eq_true_eq] at hrm
  exact hrm.2

/-- A client that waits gets a stream or fails. -/
theorem Holds.open (h : c.Holds (id :: w) d) (hro : c.session.hasHeadroom = true)
    (r : RequestAnswers) :
    if r.encoded.isNone then Holds { c with session := c.session.attach id r } w (id :: d)
    else Holds { c.setState id { (c.clients id).state with responseStage := .headers } with
      session := c.session.attach id r } w d := by
  have hmax := hasHeadroom_lt hro
  have hfr : (c.clients id).state = {} := h.parked id (.inl mem_cons_self)
  unfold Session.attach
  extract_lets stream s t
  have hph : ∀ stage : HTTPStage, stage ≠ .body →
      Holds { c.setState id { (c.clients id).state with responseStage := stage } with
        session := s } w d := fun stage hsg => by
    rw [hfr]
    exact h.push rfl rfl hmax (serves_new stream rfl rfl rfl hsg)
  have hpr : s.Advances t := by
    unfold t
    split
    · exact .refl s
    · exact .of_streams rfl rfl
  obtain ⟨hadv, hst, hno⟩ := Session.writeRequest_advances t stream r
  have hwr := hpr.trans hadv
  have hs : s.Distinct := h.distinct.push rfl hmax
  have hmem : stream ∈ s.streams := mem_append_right _ (mem_singleton.2 rfl)
  rcases hw : t.writeRequest stream r with ⟨v, _ | stream'⟩
  · rw [hw] at hno hwr
    rw [if_pos (show r.encoded.isNone = true from hno.symm)]
    have hsm : c.setState id { (c.clients id).state with responseStage := .pending } = c := by
      have hsa : { (c.clients id).state with responseStage := .pending } =
          (c.clients id).state := by rw [hfr]
      rw [hsa, Connection.setState, Function.update_eq_self]
    have hhl := hph .pending (by decide)
    rw [hsm] at hhl
    have hps : s.Advances { v with encoderPoisoned := true } :=
      hwr.trans (.of_streams rfl rfl)
    obtain ⟨u, hu, hf⟩ := Session.follows_of_mem hps.streams stream hmem
    have hfn : Session.find { v with encoderPoisoned := true } stream.id = some u :=
      (hps.distinct hs).find_iff.2 ⟨hu, hf.id⟩
    have hrm := (hhl.advance hps).remove hfn
    rw [hf.client] at hrm
    exact hrm
  · rw [hw] at hno hwr hst
    rw [if_neg (by rw [← hno]; simp)]
    exact (hph _ (by decide)).advance (hwr.put hs hmem (hst stream' rfl))

theorem sendProgressUpdate_of_not_done (h : (c.clients id).state.isDone = false) :
    c.sendProgressUpdate id = c := by
  rw [sendProgressUpdate, if_neg (by simp [h])]

theorem Holds.attach (h : c.Holds (id :: w) d) (hrm : c.session.hasHeadroom = true)
    (a : AttachAnswers) : (c.attach id a).Holds w d := by
  have hop := h.open hrm a.request
  have hfr : (c.clients id).state = {} := h.parked id (.inl mem_cons_self)
  unfold Connection.attach
  extract_lets c₁ c₂ bounced c₃ fresh c₄
  split_ifs at hop ⊢ with hno
  · have hfd : c₂.Holds w d := hop.failFromH2 .encoding
    have hbn : c₃.Holds w d := by
      unfold c₃ bounced
      rw [retryEach_pendingAttach]
      exact Holds.retryEach _ ((hfd.unpark _ [] (by simp)).takeAll _)
    exact hbn.advance (.of_streams rfl rfl)
  · have hhl : c₄.Holds w d := hop
    split
    · exact hhl.failAll _ _
    next wrote _ =>
    have hfl : Holds { c₄ with session := c₄.session.flush wrote } w d :=
      hhl.advance (.of_streams rfl rfl)
    simp only
    split_ifs
    · exact hfl
    · rw [sendProgressUpdate_of_not_done]
      · exact hfl
      · change (c₄.clients id).state.isDone = false
        unfold c₄ fresh c₁
        rw [setState_state]
        simp only [hfr]
        rfl
    · exact hfl

theorem Holds.adopt (h : c.Holds (id :: w) d) (a : AttachAnswers) : (c.adopt id a).Holds w d := by
  unfold Connection.adopt
  split_ifs with hpr hrm
  · exact h.park
  · exact h.attach hrm a
  · exact h.take.retryAfterH2Coalesce

theorem Holds.drainOne {answers : ℕ → AttachAnswers} (h : c.Holds (id :: w) d) :
    (Connection.drainOne aborted answers c id).Holds w d := by
  unfold Connection.drainOne
  split
  · exact h.take.failFromH2 _
  · split_ifs with hab hrm
    · exact h.take.failFromH2 _
    · exact h.attach hrm _
    · exact h.take.retryAfterH2Coalesce

theorem Holds.drainEach {answers : ℕ → AttachAnswers} :
    ∀ (ids : List ℕ) {c : Connection H}, c.Holds (ids ++ w) d →
      (ids.foldl (Connection.drainOne aborted answers) c).Holds w d
  | [], _, h => h
  | _ :: ids, _, h => Holds.drainEach ids h.drainOne

theorem Holds.drainPending (h : c.Holds w d) (aborted : ℕ → Bool) (answers : ℕ → AttachAnswers) :
    (c.drainPending aborted answers).Holds w d := by
  unfold Connection.drainPending
  split_ifs
  · exact h
  · exact Holds.drainEach _ (h.unpark _ [] (by simp))

/-! ## Delivering -/

theorem Holds.redispatch (h : c.Holds w (id :: d)) (hd : c.delivering = true)
    (back : Option (Request × AttachAnswers)) :
    (c.redispatch id back).Holds w d ∧ (c.redispatch id back).session = c.session := by
  have hcn := h.conclude .retry {}
  unfold Connection.redispatch
  simp only
  split
  · next request a =>
    split_ifs
    · obtain ⟨hw, hd', hp, hc⟩ := h.alone
      have hen := hcn.engage id (by
        refine (?_ : w.count id + d.count id + c.pendingAttach.count id
          + c.session.clients.count id = 0)
        omega) request
      refine ⟨hen.adopt a, ?_⟩
      rw [Connection.adopt, if_pos (Or.inl (by exact hd))]
      rfl
    · exact ⟨hcn, rfl⟩
  · exact ⟨hcn, rfl⟩

theorem failFromH2_session (c : Connection H) (id : ℕ) (e : Failure) :
    (c.failFromH2 id e).session = c.session := failEach_same e [id] c

theorem Holds.doRedirect (h : c.Holds w (id :: d)) (hd : c.delivering = true)
    (back : Option (Request × AttachAnswers)) :
    (c.doRedirect id back).Holds w d ∧ (c.doRedirect id back).session = c.session := by
  unfold Connection.doRedirect
  split_ifs
  · exact ⟨h.failFromH2 _, failFromH2_session c id _⟩
  · exact h.redispatch hd back

theorem progressUpdate_eq (hlv : (c.clients id).state.Live)
    (hno : (c.clients id).state.isRedirectPending = false)
    (back : Option (Request × AttachAnswers)) :
    c.progressUpdate id back = c.sendProgressUpdate id := by
  rw [progressUpdate, if_neg (by rintro (h | h); exacts [hlv.not_done h, hlv.not_fail h]),
    if_neg (by simp [hno])]

theorem Holds.progressUpdate (h : c.Holds w (id :: d))
    (hno : (c.clients id).state.isRedirectPending = false)
    (hdn : (c.clients id).state.isDone = true) (back : Option (Request × AttachAnswers)) :
    (c.progressUpdate id back).Holds w d ∧ (c.progressUpdate id back).session = c.session := by
  rw [progressUpdate_eq (h.live id mem_cons_self) hno, sendProgressUpdate, if_pos hdn]
  exact ⟨h.conclude _ _, rfl⟩

theorem Holds.finishStream (h : c.Holds w (id :: d))
    (hno : (c.clients id).state.isRedirectPending = false)
    (hls : (c.clients id).state.receivedLastChunk = true)
    (htk : (c.clients id).state.Took stream.dataBytesReceived)
    (back : Option (Request × AttachAnswers)) :
    (c.finishStream stream id back).Holds w d
      ∧ (c.finishStream stream id back).session = c.session := by
  have hrc := htk.received
  unfold Connection.finishStream
  split
  · next length hlength =>
    rw [hlength, elim_some] at hrc
    split_ifs with hne
    · exact ⟨h.failFromH2 _, failFromH2_session c id _⟩
    · push Not at hne
      refine h.progressUpdate hno ?_ back
      rw [InternalState.isDone, hlength]
      simp [hrc, hne]
  · next hlength =>
    refine h.progressUpdate hno ?_ back
    rw [InternalState.isDone, hlength]
    exact hls

/-- What a delivery leaves: the books in order, and the stream without its client when it is
finished. -/
structure Delivered (streamId : ℕ) (p : Connection H × Bool) : Prop where
  holds : p.1.Holds [] []
  finished : p.2 = true → ∀ t ∈ p.1.session.streams, t.id = streamId → t.client = none

/-- The stream has let go of its client, who is still to be dealt with. -/
structure Detached (c : Connection H) (id streamId : ℕ) (c' : Connection H) : Prop where
  holds : c'.Holds [] [id]
  clients : c'.clients = c.clients
  delivering : c'.delivering = c.delivering
  free : ∀ t ∈ c'.session.streams, t.id = streamId → t.client = none

theorem Holds.detached (h : c.Holds [] []) (stream : Stream) (hadv : c.session.Advances s')
    (hmem : t ∈ c.session.streams) (hcl : t.client = some id) (hid : stream.id = t.id)
    (hno : stream.client = none) :
    c.Detached id t.id { c with session := s'.put stream } where
  holds := h.letGo stream hadv hmem hcl hid hno
  clients := rfl
  delivering := rfl
  free u hu huid := by
    obtain ⟨old, -, rfl⟩ := List.mem_map.1 hu
    split_ifs at huid ⊢ with hsm
    · exact hno
    · exact absurd (huid.trans hid.symm) hsm

theorem Holds.detach (h : c.Holds [] []) (stream : Stream) (hmem : t ∈ c.session.streams)
    (hcl : t.client = some id) (hid : stream.id = t.id) :
    c.Detached id t.id (c.detach stream) :=
  h.detached { stream with client := none } (.refl _) hmem hcl hid rfl

theorem Holds.resetAndDetach (h : c.Holds [] []) (stream : Stream) (hmem : t ∈ c.session.streams)
    (hcl : t.client = some id) (hid : stream.id = t.id) :
    c.Detached id t.id (c.resetAndDetach stream) := by
  obtain ⟨hadv, hf⟩ := Session.rst_advances c.session stream .cancel
  exact h.detached { (c.session.rst stream .cancel).2 with client := none } hadv hmem hcl
    (hf.id.trans hid) rfl

section

variable {c' c'' : Connection H} {streamId : ℕ}

theorem Detached.setState (h : c.Detached id streamId c') (state : InternalState) (hlv : state.Live) :
    (c.setState id state).Detached id streamId (c'.setState id state) where
  holds := h.holds.setState hlv
  clients := by rw [Connection.setState, Connection.setState, h.clients]
  delivering := h.delivering
  free := h.free

theorem Detached.delivered (h : c.Detached id streamId c')
    (hdl : c''.Holds [] [] ∧ c''.session = c'.session) : Delivered streamId (c'', true) :=
  ⟨hdl.1, fun _ => by rw [hdl.2]; exact h.free⟩

theorem Detached.failed (h : c.Detached id streamId c') (e : Failure) :
    Delivered streamId (c'.failFromH2 id e, true) :=
  h.delivered ⟨h.holds.failFromH2 e, failFromH2_session c' id e⟩

end

theorem Holds.untouched (h : c.Holds [] []) (hmem : stream ∈ c.session.streams) :
    Delivered stream.id ({ c with session := c.session.put stream }, false) :=
  ⟨h.advance ((Session.Advances.refl _).put h.distinct hmem (.refl stream)), by simp⟩

/-- The client gets some of its body, and may be done. -/
theorem Holds.deliverBody (h : c.Holds [] []) (hmem : stream ∈ c.session.streams) (hcl : stream.client = some id) (a : DeliverReplies) :
    Delivered stream.id (c.deliverBody stream id a) := by
  have hsr := h.serves stream hmem id hcl
  obtain ⟨n, hrc, htk⟩ := hsr.took
  unfold Connection.deliverBody
  extract_lets fresh received terminal han
  split
  · exact h.untouched hmem
  next hst =>
  split
  · have htk' : han.Took n := by
      unfold han
      split
      · exact htk.congr rfl rfl
      · exact htk
    have hhn : han.Live ∧ han.isRedirectPending = false
        ∧ han.receivedLastChunk = terminal := by
      unfold han
      split
      · next htr => exact ⟨⟨hsr.live.not_done, hsr.live.not_fail⟩,
          hsr.no_redirect, htr.symm⟩
      · next htr => exact ⟨hsr.live, hsr.no_redirect,
          hsr.not_last.trans (by simpa using htr : terminal = false).symm⟩
    split
    · exact (h.resetAndDetach received hmem hcl rfl).failed _
    next next report hbd =>
    obtain ⟨hlt, heq, hrp⟩ := handleResponseBody_eq htk' hbd
    rw [← hrc] at hlt
    have hnx : next.Live ∧ next.isRedirectPending = false
        ∧ next.receivedLastChunk = terminal ∧ next.contentLength = han.contentLength := by
      rw [heq]
      exact ⟨⟨hhn.1.not_done, hhn.1.not_fail⟩, hhn.2.1, hhn.2.2, rfl⟩
    have hdt := (h.detach received hmem hcl rfl).setState next hnx.1
    split
    · next htr =>
      refine hdt.delivered (hdt.holds.finishStream ?_ ?_ ?_ a.back)
      · rw [setState_state]
        exact hnx.2.1
      · rw [setState_state, hnx.2.2.1, htr]
      · rw [setState_state]
        exact hlt
    next htr =>
    have hop : next.receivedLastChunk = false := by
      rw [hnx.2.2.1]
      simpa using htr
    split
    · next hdn =>
      refine hdt.delivered (hdt.holds.progressUpdate ?_ ?_ a.back)
      · rw [setState_state]
        exact hnx.2.1
      · rw [setState_state]
        exact hdn.2
    next hdn =>
    have hnot : next.isDone = false := by
      rw [← Bool.not_eq_true]
      intro hfl
      have hany : han.contentLength.any (· ≤ next.totalBodyReceived) = true := by
        rw [← hnx.2.2.2]
        rw [InternalState.isDone] at hfl
        split at hfl
        · next length hlength => simpa [hlength] using hfl
        · simp [hop] at hfl
      exact hdn ⟨hrp hany, hfl⟩
    have hst' : next.responseStage = .body := by
      rw [heq]
      unfold han
      split <;> simpa [fresh] using hst
    have hsr' : received.Serves next :=
      { live := hnx.1
        no_redirect := hnx.2.1
        not_last := hop
        ready := hsr.ready
        waits := fun hs => absurd hst' hs
        reads := fun _ => hsr.reads (by simpa [fresh] using hst)
        quiet := fun hfl => by simp [hnot] at hfl
        took := ⟨stream.dataBytesReceived, by simp [received], hlt⟩ }
    have hkp := h.serve received hmem hcl rfl hcl hsr'
    simp only
    split
    · rw [progressUpdate_eq (by rw [setState_state]; exact hnx.1)
        (by rw [setState_state]; exact hnx.2.1), sendProgressUpdate_of_not_done
        (by rw [setState_state]; exact hnot)]
      exact ⟨hkp, by simp⟩
    · exact ⟨hkp, by simp⟩
  next hem =>
  split
  · have hzr : stream.bodyBuffer.length = 0 := by omega
    have hdt := (h.detach stream hmem hcl rfl).setState
      { fresh with receivedLastChunk := true } ⟨hsr.live.not_done, hsr.live.not_fail⟩
    refine hdt.delivered (hdt.holds.finishStream ?_ ?_ ?_ a.back)
    · rw [setState_state]
      exact hsr.no_redirect
    · rw [setState_state]
    · rw [setState_state, hrc, hzr, Nat.add_zero]
      exact htk.congr rfl rfl
  · exact h.untouched hmem

/-- A client that would be told that it is done while its stream still has it. -/
def premature (c : Connection H) (streamId : ℕ) (a : DeliverReplies) : Bool :=
  match c.session.find streamId with
  | none => false
  | some stream =>
    match stream.client with
    | none => false
    | some id =>
      !a.aborted && stream.fatalError.isNone && stream.headersReady && a.headerProgress
        && !(stream.remoteClosed && stream.bodyBuffer.isEmpty)
        && endless (c.clients id).request stream a.resolves

/-- The client is told, once. -/
theorem Holds.deliverStream (h : c.Holds [] []) (hd : c.delivering = true)
    (hf : c.session.find stream.id = some stream) (a : DeliverReplies)
    (hsn : c.premature stream.id a = false) :
    Delivered stream.id (c.deliverStream stream a) := by
  have hmem := (h.distinct.find_iff.1 hf).1
  unfold Connection.deliverStream
  split
  · next hcl =>
    refine ⟨h, fun _ t ht htid => ?_⟩
    rw [inj_on_of_nodup_map h.distinct.nodup ht hmem htid, hcl]
  next id hcl =>
  have hsr := h.serves stream hmem id hcl
  split
  · exact (h.resetAndDetach stream hmem hcl rfl).failed _
  next hab =>
  split
  · next e _ =>
    have hdt := h.detach stream hmem hcl rfl
    simp only
    split
    · exact hdt.delivered (hdt.holds.redispatch (hdt.delivering.trans hd) a.back)
    · exact hdt.failed _
  next hft =>
  split
  swap
  · exact h.deliverBody hmem hcl a
  next hrd =>
  extract_lets delivered
  have hwt : (c.clients id).state.responseStage ≠ .body := fun hs => by
    simp [(hsr.reads hs).2] at hrd
  obtain ⟨hlength, hkp, htl, hout⟩ := hsr.waits hwt
  split
  · exact (h.resetAndDetach delivered hmem hcl rfl).failed _
  next state finished hap =>
  obtain ⟨follows, heq, hen⟩ := applyHeaders_eq hap
  have hlv : state.Live := heq ▸ ⟨hsr.live.not_done, hsr.live.not_fail⟩
  have hzr : stream.dataBytesReceived = stream.bodyBuffer.length := by
    obtain ⟨n, hn, htk⟩ := hsr.took
    have := htk.received
    rw [hlength, elim_none, htl] at this
    omega
  split
  · next hrc =>
    have hdt := (h.resetAndDetach delivered hmem hcl rfl).setState state hlv
    exact hdt.delivered (hdt.holds.doRedirect (hdt.delivering.trans hd) a.back)
  next hrc =>
  have hno : state.isRedirectPending = false := by simpa using hrc
  have htk : ∀ {state' : InternalState}, state'.totalBodyReceived = 0 → state'.Took 0 :=
    fun {state'} h0 => ⟨by rw [h0]; cases state'.contentLength <;> simp⟩
  have htl' : state.totalBodyReceived = 0 := by rw [heq]; exact htl
  split
  · next hdn =>
    have hdt := (h.detach delivered hmem hcl rfl).setState { state with
      receivedLastChunk := true
      contentLength := if finished then some 0 else state.contentLength }
      ⟨hlv.not_done, hlv.not_fail⟩
    refine hdt.delivered (hdt.holds.finishStream ?_ ?_ ?_ a.back)
    · rw [setState_state]
      exact hno
    · rw [setState_state]
    · rw [setState_state]
      rcases hdn with hfin | ⟨-, hem⟩
      · exact ⟨by simp [hfin, htl']⟩
      · rw [show delivered.dataBytesReceived = 0 from hzr.trans hem]
        exact htk htl'
  next hdn =>
  push Not at hdn
  have hop : state.receivedLastChunk = false := heq ▸ hsr.not_last
  have hsr' : delivered.Serves state :=
    { live := hlv
      no_redirect := hno
      not_last := hop
      ready := fun hr => by simp [delivered] at hr
      waits := fun hs => absurd (heq ▸ rfl) hs
      reads := fun _ => ⟨hsr.ready hrd, rfl⟩
      quiet := fun _ => by rw [heq]; exact hout
      took := ⟨0, by simpa [delivered] using hzr, htk htl'⟩ }
  have hkt := h.serve delivered hmem hcl rfl hcl hsr'
  have hmem' : delivered ∈ (c.session.put delivered).streams :=
    List.mem_map.2 ⟨stream, hmem, if_pos rfl⟩
  have hbd := hkt.deliverBody hmem' hcl a
  simp only
  split
  swap
  · exact hbd
  next hpr =>
  rw [progressUpdate_eq (by rw [setState_state]; exact hlv) (by rw [setState_state]; exact hno),
    sendProgressUpdate_of_not_done]
  · exact hbd
  -- the fields announce a body, or this is what was ruled out
  rw [setState_state, InternalState.isDone]
  split
  · next length hlen =>
    rw [htl', decide_eq_false_iff_not]
    intro hle
    obtain rfl : length = 0 := by omega
    have hfl : follows = false := by
      have := hno
      rw [heq] at this
      simpa [hsr.no_redirect] using this
    have hno' := hen (by simpa using hdn.1) hfl hkp hlen
    rw [premature, hf] at hsn
    simp only [hcl] at hsn
    rw [show endless (c.clients id).request stream a.resolves = true from hno'] at hsn
    simp [hab, hft, hrd, hpr] at hsn
    exact absurd (by simpa using hsn.2) (hdn.2 hsn.1)
  · exact hop

/-- Delivery leaves the books in order, unless it tells a client too early that it is done. -/
theorem Holds.deliver (h : c.Holds [] []) (hd : c.delivering = true) {streamId : ℕ}
    {a : DeliverReplies} (hsn : c.premature streamId a = false) :
    (c.deliver streamId a).Holds [] [] := by
  unfold Connection.deliver
  split
  · exact h
  next stream hf =>
  obtain rfl := (h.distinct.find_iff.1 hf).2
  obtain ⟨hhl, hfr⟩ := h.deliverStream hd hf a hsn
  rcases hdl : c.deliverStream stream a with ⟨c', finished⟩
  rw [hdl] at hhl hfr
  simp only
  split
  swap
  · exact hhl
  next hfn =>
  split
  · exact hhl
  next t ht =>
  obtain ⟨hmem, hid⟩ := hhl.distinct.find_iff.1 ht
  have hno := hfr hfn t hmem hid
  have hrs : c'.session.Advances
        (if t.state ≠ .closed then c'.session.rst t .cancel else (c'.session, t)).1
      ∧ t.Follows (if t.state ≠ .closed then c'.session.rst t .cancel else (c'.session, t)).2 := by
    split
    · exact Session.rst_advances c'.session t .cancel
    · exact ⟨.refl _, .refl t⟩
  have hput := hrs.1.put hhl.distinct hmem hrs.2
  obtain ⟨u, hu, hf'⟩ := Session.follows_of_mem hput.streams t hmem
  have hrm := (hhl.advance hput).removeStream hu (hrs.2.id.trans hf'.id.symm)
  rw [hf'.client, hno] at hrm
  exact hrm

/-! ## Aborts -/

theorem Holds.detachWithFailure (h : c.Holds w d) (hmem : stream ∈ c.session.streams) (e : Failure)
    (wrote : ℕ) : (c.detachWithFailure stream e wrote).Holds w d := by
  obtain ⟨hadv, hf⟩ := Session.rst_advances c.session stream .cancel
  have hfl : c.session.Advances ((c.session.rst stream .cancel).1.flush wrote) :=
    hadv.trans (.of_streams rfl rfl)
  have hmem' : ∀ {s : Session H}, c.session.Advances s →
      { (c.session.rst stream .cancel).2 with client := none } ∈
        (s.put { (c.session.rst stream .cancel).2 with client := none }).streams := fun hs => by
    obtain ⟨u, hu, hfu⟩ := Session.follows_of_mem hs.streams stream hmem
    exact List.mem_map.2 ⟨u, hu, if_pos (hfu.id.trans hf.id.symm)⟩
  unfold Connection.detachWithFailure
  simp only
  split
  · next hcl =>
    have hgn : (c.session.rst stream .cancel).2 =
        { (c.session.rst stream .cancel).2 with client := none } := by
      rw [← hf.client.trans hcl]
    have hput := hfl.put h.distinct hmem hf
    rw [hgn] at hput
    exact (h.advance hput).removeStream (hmem' hfl) rfl
  · next id hcl =>
    have hgn := h.letGo { (c.session.rst stream .cancel).2 with client := none } hfl hmem
      hcl hf.id rfl
    exact (hgn.removeStream (hmem' hfl) rfl).failFromH2 e

theorem swapRemoveAt_perm {l : List ℕ} {index : ℕ} (h : index < l.length) :
    l.Perm (l[index] :: swapRemoveAt l index) := by
  have hsp : l = l.take index ++ l[index] :: l.drop (index + 1) := by simp
  have hlen : (l.take index).length = index := by simp; omega
  generalize l[index] = x at hsp ⊢
  generalize l.take index = front at hsp hlen
  generalize l.drop (index + 1) = rest at hsp
  subst hsp hlen
  unfold swapRemoveAt
  rcases eq_nil_or_concat rest with rfl | ⟨rest', last, rfl⟩
  · have hls : (front ++ [x]).getLast? = some x := by simp
    rw [hls]
    simp only
    rw [if_pos h, set_append_right _ _ le_rfl, Nat.sub_self, set_cons_zero,
      dropLast_concat]
    exact perm_append_singleton x front
  · rw [concat_eq_append] at h ⊢
    have hls : (front ++ x :: (rest' ++ [last])).getLast? = some last := by
      rw [← cons_append, ← append_assoc, getLast?_append]
      rfl
    rw [hls]
    simp only
    rw [if_pos h, set_append_right _ _ le_rfl, Nat.sub_self, set_cons_zero,
      show front ++ last :: (rest' ++ [last]) = (front ++ last :: rest') ++ [last] by simp,
      dropLast_concat]
    refine List.perm_middle.trans (Perm.cons x (Perm.append_left front ?_))
    exact perm_append_singleton last rest'

theorem Holds.abortByHttpId (h : c.Holds [] []) (asyncHttpId wrote : ℕ) :
    (c.abortByHttpId asyncHttpId wrote).Holds [] [] := by
  unfold Connection.abortByHttpId
  extract_lets named
  split
  · next index hin =>
    obtain ⟨hlt, -⟩ := findIdx?_eq_some_iff_getElem.1 hin
    rw [getElem?_eq_getElem hlt, getD_some]
    have htk := (h.unpark [c.pendingAttach[index]] _ (swapRemoveAt_perm hlt)).takeAll _
    exact htk.failFromH2 _
  · split
    · next stream hf => exact h.detachWithFailure (mem_of_find?_eq_some hf) _ _
    · exact h

theorem Holds.reapAbortedLoop : ∀ (fuel : ℕ) {c : Connection H} (index : ℕ),
    c.Holds [] [] → (reapAbortedLoop aborted fuel c index).Holds [] []
  | 0, _, _, h => h
  | fuel + 1, c, index, h => by
    rw [Connection.reapAbortedLoop]
    split
    · exact h
    · next stream hget =>
      split
      · exact Holds.reapAbortedLoop fuel index
          (h.detachWithFailure (mem_of_getElem? hget) _ _)
      · exact Holds.reapAbortedLoop fuel _ h

theorem Holds.drainResponseBody (h : c.Holds w d) (hcl : id ∈ c.session.clients) :
    (c.drainResponseBody id).Holds w d := by
  obtain ⟨t, ht, hc⟩ := mem_filterMap.1 hcl
  have hsr := h.serves t ht id hc
  unfold Connection.drainResponseBody
  simp only
  split_ifs with hst hrd hout
  · exact h
  · exact h
  · exact h
  · rw [sendProgressUpdate_of_not_done]
    · exact h
    · simpa using fun hdn => hout (hsr.quiet hdn)

/-! ## Runs -/

/-- The step, unless it tells a client that it is done while its stream still has it. -/
def Input.sound (c : Connection H) : Input → Bool
  | .deliver streamId a => !c.premature streamId a
  | _ => true

/-- A step whose input is one that the connection can get now. -/
def soundStep (dec : Decoder H) (c : Connection H) (i : Input) : Option (Connection H × Input) :=
  if i.sound c then c.step dec i else none

theorem not_mem_held (h : id ∉ c.held) :
    c.pendingAttach.count id + c.session.clients.count id = 0 := by
  rw [held, mem_append, not_or] at h
  rw [count_eq_zero.2 h.1, count_eq_zero.2 h.2]

theorem Holds.start (h : c.Holds [] []) (hnew : id ∉ c.held) (request : Request) :
    (c.engage id request).Holds [id] [] :=
  h.engage id (by simpa using not_mem_held hnew) request

theorem Holds.within {dec : Decoder H} {i : Session.Input} {c' : Connection H} (h : c.Holds w d)
    (hw : c.within dec i = some c')
    (hadv : ∀ s', c.session.perform dec i = some s' → c.session.Advances s') : c'.Holds w d := by
  obtain ⟨s', hs, rfl⟩ := map_eq_some_iff.1 hw
  exact h.advance (hadv s' hs)

/-- Every input leaves each client with one who answers for it. -/
theorem Holds.step {dec : Decoder H} {c' : Connection H} {i e : Input} (h : c.Holds [] [])
    (hs : c.soundStep dec i = some (c', e)) : c'.Holds [] [] := by
  unfold soundStep at hs
  split_ifs at hs with hsn
  obtain ⟨c₁, hp, heq⟩ := map_eq_some_iff.1 hs
  obtain ⟨rfl, -⟩ := Prod.mk.inj heq
  cases i with
  | adopt id request a =>
    simp only [Connection.perform] at hp
    split_ifs at hp with hhl
    exact some.inj hp ▸ (h.start hhl request).adopt a
  | enqueue id request =>
    simp only [Connection.perform] at hp
    split_ifs at hp with hhl
    exact some.inj hp ▸ (h.start hhl request).park
  | attach id request a =>
    simp only [Connection.perform] at hp
    split_ifs at hp with hrf
    push Not at hrf
    exact some.inj hp ▸ (h.start hrf.1 request).attach
      (show c.session.hasHeadroom = true by simpa using hrf.2) a
  | frame f => exact h.within hp fun s' hs' => Session.dispatchFrame_advances h.distinct hs'
  | failAll e writable => exact some.inj hp ▸ h.failAll e writable
  | drainPending aborted answers => exact some.inj hp ▸ h.drainPending aborted answers
  | drain streamId body cap =>
    refine h.within hp fun s' hs' => ?_
    simp only [Session.perform] at hs'
    split at hs'
    · exact some.inj hs' ▸ .refl _
    · next stream hf =>
      obtain ⟨hadv, hfl⟩ := Session.drainSendBody_advances c.session stream body cap
      exact some.inj hs' ▸
        hadv.put h.distinct (h.distinct.find_iff.1 hf).1 hfl
  | setDelivering delivering =>
    exact some.inj hp ▸ ⟨h.distinct, h.once, h.balance, h.parked, h.live, h.serves⟩
  | deliver streamId a =>
    simp only [Connection.perform] at hp
    split_ifs at hp with hd
    exact some.inj hp ▸ h.deliver hd (by simpa [Input.sound] using hsn)
  | replenish => exact h.within hp fun s' hs' => Session.replenishWindow_advances h.distinct hs'
  | flush wrote =>
    exact h.within hp fun s' hs' => some.inj hs' ▸ .of_streams rfl rfl
  | writeFailed =>
    exact h.within hp fun s' hs' => some.inj hs' ▸ Session.fail_advances _ _
  | abort asyncHttpId wrote => exact some.inj hp ▸ h.abortByHttpId asyncHttpId wrote
  | reapAborted aborted => exact some.inj hp ▸ Holds.reapAbortedLoop _ _ h
  | drainResponseBody asyncHttpId =>
    simp only [Connection.perform] at hp
    split at hp
    · next id hf =>
      exact some.inj hp ▸ h.drainResponseBody (mem_of_find?_eq_some hf)
    · exact some.inj hp ▸ h
  | onClose e => exact some.inj hp ▸ h.onClose e

/-- A new connection has no clients. -/
theorem Holds.init (h₀ : H) : Holds ({ session := { hpack := h₀ } } : Connection H) [] [] where
  distinct := ⟨nodup_nil, by simp, by simp, Nat.one_pos⟩
  once id := by simp [Session.clients]
  balance id := by simp [Session.clients]
  parked id hid := by simp at hid
  live id hid := by simp at hid
  serves t ht := by simp at ht

end

end Connection

/-- In every state of a run that tells no client too early that it is done, every time that a client
was handed to the session it is still in one place, or has had one outcome. -/
theorem clients_accounted {H : Type} {dec : Decoder H} {h₀ : H} {is es : List Connection.Input}
    {c : Connection H}
    (hr : run (Connection.soundStep dec) { session := { hpack := h₀ } } is = some (c, es)) :
    c.held.Nodup
    ∧ (∀ id, c.engaged.count id = c.held.count id + (c.outcomes.map Prod.fst).count id)
    ∧ ∀ id, c.engaged.count id = 1 →
      (id ∈ c.held ∧ id ∉ c.outcomes.map Prod.fst)
        ∨ (id ∉ c.held ∧ (c.outcomes.map Prod.fst).count id = 1) := by
  have hholds : c.Holds [] [] :=
    run_inv (P := fun c => c.Holds [] []) (fun h hs => h.step hs) (.init h₀) hr
  have hcount : ∀ id, c.held.count id = c.pendingAttach.count id + c.session.clients.count id :=
    fun id => count_append
  have honce : ∀ id, c.held.count id ≤ 1 := fun id => by
    have := hholds.once id
    rw [hcount]
    simpa using this
  have hbalance : ∀ id, c.engaged.count id =
      c.held.count id + (c.outcomes.map Prod.fst).count id := fun id => by
    have := hholds.balance id
    rw [hcount]
    simpa using this
  refine ⟨nodup_iff_count_le_one.2 honce, hbalance, fun id hid => ?_⟩
  have := hbalance id
  rcases Nat.le_one_iff_eq_zero_or_eq_one.1 (honce id) with hzero | hone
  · exact .inr ⟨count_eq_zero.1 hzero, by omega⟩
  · exact .inl ⟨count_pos_iff.1 (by omega), count_eq_zero.1 (by omega)⟩

/-- What the decoder makes of `:status: 200`, and of a length and a type that are not indexed. -/
def plainDecoder : Decoder Unit := fun _ block =>
  match block with
  | 0x88 :: _ => ((), some ⟨statusName, bytesOf "200", 1, by decide, by decide⟩)
  | 0x0f :: 0x0d :: length :: rest =>
    ((), some ⟨bytesOf "content-length", rest.take length.toNat, 3 + length.toNat, by decide,
      Nat.add_pos_left (Nat.succ_pos 2) _⟩)
  | 0x0f :: 0x10 :: length :: rest =>
    ((), some ⟨bytesOf "content-type", rest.take length.toNat, 3 + length.toNat, by decide,
      Nat.add_pos_left (Nat.succ_pos 2) _⟩)
  | _ => ((), none)

/-- An empty SETTINGS frame. -/
def settingsFrame : Frame :=
  ⟨{ length := 0, type := 4, streamIdentifier := 0 }, [], rfl, by decide, by decide⟩

/-- A HEADERS frame with its whole block, on stream 1. -/
def responseFrame (block : List UInt8) (hblock : block.length ≤ defaultMaxFrameSize) : Frame :=
  ⟨{ length := block.length, type := 1, flags := flagEndHeaders, streamIdentifier := 1 }, block, rfl,
    hblock, Nat.one_lt_two_pow (by decide)⟩

/-- A response of five bytes is on its way to one client when another one, still waiting, is
aborted. -/
theorem clients_accounted_aborted : ∃ (c : Connection Unit) (es : List Connection.Input),
    run (Connection.soundStep plainDecoder) { session := { hpack := () } } [
      .attach 7 { asyncHttpId := 70 } {}, .frame settingsFrame, .enqueue 8 { asyncHttpId := 80 },
      .frame (responseFrame [0x88, 0x0f, 0x0d, 1, 0x35] (by decide)), .setDelivering true,
      .deliver 1 { headerProgress := true }, .abort 80 0] = some (c, es)
    ∧ c.held = [7] ∧ c.outcomes = [(8, .failure .aborted)]
    ∧ ∀ id, c.engaged.count id = c.held.count id + (c.outcomes.map Prod.fst).count id := by
  obtain ⟨⟨c, es⟩, hr⟩ := isSome_iff_exists.1 (show (run
    (Connection.soundStep plainDecoder) { session := { hpack := () } } [
      .attach 7 { asyncHttpId := 70 } {}, .frame settingsFrame, .enqueue 8 { asyncHttpId := 80 },
      .frame (responseFrame [0x88, 0x0f, 0x0d, 1, 0x35] (by decide)), .setDelivering true,
      .deliver 1 { headerProgress := true }, .abort 80 0]).isSome from by decide +kernel)
  have hend : (run (Connection.soundStep plainDecoder) { session := { hpack := () } } [
      .attach 7 { asyncHttpId := 70 } {}, .frame settingsFrame, .enqueue 8 { asyncHttpId := 80 },
      .frame (responseFrame [0x88, 0x0f, 0x0d, 1, 0x35] (by decide)), .setDelivering true,
      .deliver 1 { headerProgress := true }, .abort 80 0]).map
        (fun p => (p.1.held, p.1.outcomes)) = some ([7], [(8, .failure .aborted)]) := by
    decide +kernel
  rw [hr] at hend
  obtain ⟨hheld, hout⟩ := Prod.mk.inj (some.inj hend)
  exact ⟨c, es, hr, hheld, hout, (clients_accounted hr).2.1⟩

/-- An event stream of length zero: its client is told that it has everything, and stays on its
stream. -/
theorem clients_accounted_refuted :
    (run (Connection.step plainDecoder) { session := { hpack := () } } [
      .attach 7 {} {}, .frame settingsFrame,
      .frame (responseFrame ([0x88, 0x0f, 0x0d, 1, 0x30, 0x0f, 0x10, 17]
        ++ bytesOf "text/event-stream") (by decide)), .setDelivering true,
      .deliver 1 { headerProgress := true }]).map
        (fun p => (p.1.engaged, p.1.held, p.1.outcomes)) = some ([7], [7], [(7, .result)]) := by
  decide +kernel

end Cruller.H2
