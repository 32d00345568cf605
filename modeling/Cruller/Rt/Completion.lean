import Cruller.Rt.HostHttp

/-!
# One completion for each request

Every request is answered by one completion. Most operations answer at once; an HTTP request that
was started answers with the last result of its client, and is among `active` until then. For a
fixed id the host is in one of three phases (`Host.Phase`): nothing was asked, the HTTP request is
running, or the completion was sent. A step moves only forward through them.
-/

namespace Cruller

/-- A submit that is not a part of an HTTP request made before. -/
def Command.IsRequest (command : Command) : Prop :=
  command.messageKind = .submit ∧ command.operationKind ≠ .httpRequestBody
    ∧ command.operationKind ≠ .httpRequestEnd

instance (command : Command) : Decidable command.IsRequest :=
  inferInstanceAs (Decidable (_ ∧ _ ∧ _))

/-- The operation that a completion of the command names. -/
def Command.endOperation (command : Command) : UInt16 :=
  if command.operationKind = .httpRequestStart then Operation.httpResponseEnd.toInt
  else command.operation

/-- A message to the engine and whether its send succeeded. -/
def HostEvent.message : HostEvent → Option (Command × Bool)
  | sent command ok => some (command, ok)
  | _ => none

namespace Host

/-- The messages for the engine so far, the failed ones included. -/
def messages (h : Host) : List (Command × Bool) :=
  h.trace.filterMap HostEvent.message

/-- What the host sent for one request. -/
def messagesFor (h : Host) (id : UInt64) : List (Command × Bool) :=
  h.messages.filter fun m => m.1.requestId = id

/-- From `h` to `h'` the messages `ms` were sent, and the same HTTP requests are running. -/
structure Sends (h h' : Host) (ms : List (Command × Bool)) : Prop where
  active : h'.active = h.active
  messages : h'.messages = h.messages ++ ms

/-- One message is sent, and it completes the request. -/
def Completes (h h' : Host) (id : UInt64) (operation : UInt16) : Prop :=
  ∃ m ok, h.Sends h' [(m, ok)] ∧ m.messageKind = .completion ∧ m.operation = operation
    ∧ m.requestId = id

section

variable {h h₁ h₂ h' : Host} {ms ms' : List (Command × Bool)} {command : Command} {id : UInt64}
  {operation : UInt16}

@[simp]
theorem Sends.refl : h.Sends h [] := ⟨rfl, by simp⟩

theorem Sends.trans (h₀ : h.Sends h₁ ms) (h₁ : h₁.Sends h₂ ms') : h.Sends h₂ (ms ++ ms') where
  active := h₁.active.trans h₀.active
  messages := by rw [h₁.messages, h₀.messages, List.append_assoc]

/-- Only `sent` events are messages. -/
theorem Sends.of_trace (es : List HostEvent) (ha : h'.active = h.active)
    (ht : h'.trace = h.trace ++ es) : h.Sends h' (es.filterMap HostEvent.message) where
  active := ha
  messages := by rw [Host.messages, ht, List.filterMap_append]; rfl

theorem sends_record (h : Host) {e : HostEvent} (he : e.message = none) :
    h.Sends (h.record e) [] where
  active := rfl
  messages := by simp [Host.messages, he]

theorem Completes.after (h₀ : h.Sends h₁ []) (hc : h₁.Completes h₂ id operation) :
    h.Completes h₂ id operation := by
  obtain ⟨m, ok, hs, hm⟩ := hc
  exact ⟨m, ok, h₀.trans hs, hm⟩

theorem Completes.before (hc : h.Completes h₁ id operation) (h₁ : h₁.Sends h₂ []) :
    h.Completes h₂ id operation := by
  obtain ⟨m, ok, hs, hm⟩ := hc
  exact ⟨m, ok, by simpa using hs.trans h₁, hm⟩

theorem sends_release (h : Host) (ref : BufferRef) : h.Sends (h.release ref) [] :=
  .of_trace [.released ref (h.pool.getSlot ref).isSome] rfl rfl

theorem sends_releasePayload (h : Host) (command : Command) :
    h.Sends (h.releasePayload command) [] := by
  unfold releasePayload
  split
  · exact .refl
  · exact sends_release h _

theorem sends_send (h : Host) (command : Command) (ok : Bool) :
    h.Sends (h.send command ok) [(command, ok)] :=
  .of_trace [.sent command ok] rfl rfl

theorem completes_send (h : Host) {m : Command} (ok : Bool) (hk : m.messageKind = .completion) :
    h.Completes (h.send m ok) m.requestId m.operation :=
  ⟨m, ok, sends_send h m ok, hk, rfl, rfl⟩

theorem sends_sendCompletion (h : Host) (command : Command) (ok : Bool) :
    h.Sends (h.sendCompletion command ok).1 [(command, ok)] := by
  unfold sendCompletion
  cases ok
  · exact (sends_send h command false).trans (sends_releasePayload _ _)
  · exact sends_send h command true

theorem completes_sendCompletion (h : Host) (command : Command) {status : ℤ} {resourceId : UInt64}
    {payload : BufferRef} {arg0 : UInt64} (ok : Bool) :
    h.Completes (h.sendCompletion { completionFor command with
      status, resourceId, payload, arg0 } ok).1 command.requestId command.operation :=
  ⟨_, ok, sends_sendCompletion h _ ok, rfl, rfl, rfl⟩

theorem completes_completeError (h : Host) (command : Command) (status : ℤ) (payload : BufferRef)
    (ok : Bool) : h.Completes (h.completeError command status payload ok) command.requestId
      command.operation :=
  completes_sendCompletion h command ok

theorem completes_unsupported (h : Host) (command : Command) (ok : Bool) :
    h.Completes (h.unsupported command ok) command.requestId command.operation :=
  .after (sends_releasePayload h command) (completes_completeError _ _ _ _ ok)

theorem sends_addResource {fd : Fd} {appendOk : Bool} {rid : UInt64}
    (ha : h.addResource fd appendOk = some (some (h', rid))) : h.Sends h' [] := by
  unfold addResource at ha
  repeat' split at ha
  all_goals
    simp only [Option.bind_eq_bind, Option.bind_eq_some_iff, Option.pure_def, Option.some.injEq,
      Prod.mk.injEq, reduceCtorEq] at ha
  all_goals
    obtain ⟨_, -, rfl, -⟩ := ha
    exact .of_trace [.added _ fd] rfl rfl

theorem sends_removeResource (h : Host) (rid : UInt64) : h.Sends (h.removeResource rid).1 [] := by
  unfold removeResource
  split
  · exact .refl
  · next fd _ => exact .of_trace [.removed rid fd, .closed fd] rfl (by simp)

theorem completes_openPath {path : List UInt8} {a : Answers}
    (ho : h.openPath command path a = some h') :
    h.Completes h' command.requestId command.operation := by
  unfold openPath at ho
  by_cases hpt : path.length = 0 ∨ (0 : UInt8) ∈ path
  · rw [if_pos hpt] at ho
    exact Option.some.inj ho ▸ completes_completeError _ _ _ _ _
  rw [if_neg hpt] at ho
  by_cases hdp : ¬ a.dupeOk
  · rw [if_pos hdp] at ho
    exact Option.some.inj ho ▸ completes_completeError _ _ _ _ _
  rw [if_neg hdp] at ho
  split at ho
  · exact Option.some.inj ho ▸ completes_completeError _ _ _ _ _
  next fd _ =>
  simp only at ho
  split at ho
  · simp at ho
  · rw [← Option.some.inj ho]
    exact .after ((sends_record h rfl).trans (sends_record _ rfl))
      (completes_completeError _ _ _ _ _)
  next h₁ rid hadd =>
  have had := (sends_record h rfl).trans (sends_addResource hadd)
  have hsn : h₁.Completes (h₁.sendCompletion { completionFor command with resourceId := rid }
    a.sendOk).1 _ _ := completes_sendCompletion h₁ command a.sendOk
  split at ho
  · rw [← Option.some.inj ho]
    exact .after had hsn
  · rw [← Option.some.inj ho]
    exact .before (.after had hsn) (sends_removeResource _ _)

theorem completes_openFile {a : Answers} (ho : h.openFile command a = some h') :
    h.Completes h' command.requestId command.operation := by
  unfold openFile at ho
  split_ifs at ho
  · rw [← Option.some.inj ho]
    exact completes_unsupported _ _ _
  split at ho
  · rw [← Option.some.inj ho]
    exact completes_completeError _ _ _ _ _
  · obtain ⟨h₁, hpt, rfl⟩ := Option.map_eq_some_iff.1 ho
    exact (completes_openPath hpt).before (sends_release _ _)

theorem completes_closeResource (h : Host) (command : Command) (a : Answers) :
    h.Completes (h.closeResource command a) command.requestId command.operation := by
  have hqt := (sends_releasePayload h command).trans
    (sends_removeResource (h.releasePayload command) command.resourceId)
  unfold closeResource
  simp only
  split
  · exact .after hqt (completes_sendCompletion _ command _)
  · exact .after hqt (completes_completeError _ _ _ _ _)

theorem completes_readResource {a : Answers} (hr : h.readResource command a = some h') :
    h.Completes h' command.requestId command.operation := by
  unfold readResource at hr
  split at hr
  · exact Option.some.inj hr ▸ completes_completeError _ _ _ _ _
  next fd _ =>
  split at hr
  · exact Option.some.inj hr ▸ completes_completeError _ _ _ _ _
  simp only at hr
  split at hr
  · exact Option.some.inj hr ▸ .after (sends_record h rfl) (completes_completeError _ _ _ _ _)
  · simp only [Option.bind_eq_bind, Option.bind_eq_some_iff, Option.pure_def,
      Option.some.injEq] at hr
    obtain ⟨_, -, rfl⟩ := hr
    exact .after (sends_record h rfl) (completes_sendCompletion _ command _)

theorem completes_writeResource (h : Host) (command : Command) (a : Answers) :
    h.Completes (h.writeResource command a) command.requestId command.operation := by
  unfold writeResource
  split
  · exact (completes_completeError _ _ _ _ _).before (sends_releasePayload _ _)
  next fd _ =>
  split
  · exact (completes_completeError _ _ _ _ _).before (sends_releasePayload _ _)
  simp only
  split
  · exact .after (sends_record h rfl) ((completes_completeError _ _ _ _ _).before (sends_releasePayload _ _))
  · exact .after (sends_record h rfl) ((completes_sendCompletion _ command _).before
      (sends_releasePayload _ command))

/-- A started request sends nothing yet and is running. -/
def Starts (h h' : Host) (id : UInt64) : Prop :=
  ∃ r, r.requestId = id ∧ h'.active = h.active ++ [r] ∧ h'.messages = h.messages

theorem httpStart_cases {a : Answers} (hs : h.httpStart command a = some h') :
    h.Starts h' command.requestId
      ∨ h.Completes h' command.requestId Operation.httpResponseEnd.toInt := by
  simp only [httpStart, Option.bind_eq_bind, Option.bind_eq_some_iff] at hs
  obtain ⟨e | h₁, hc, hs⟩ := hs
  · right
    rw [← Option.some.inj hs]
    exact .before (completes_send _ _ rfl) (sends_releasePayload _ command)
  · left
    obtain ⟨r, hr, rfl⟩ := createRequest_eq_ok hc
    have hqt := (sends_record (e := .started command.requestId)
      { h.addRequest r with active := h.active ++ [r] } rfl).trans (sends_releasePayload _ command)
    rw [← Option.some.inj hs]
    exact ⟨r, hr, hqt.active, hqt.messages.trans (List.append_nil _)⟩

theorem sends_httpCancel (h : Host) (command : Command) : h.Sends (h.httpCancel command) [] := by
  unfold httpCancel
  split
  · exact .refl
  · exact sends_record h rfl

theorem sends_httpWriteBody (h : Host) (command : Command) (a : Answers) :
    h.Sends (h.httpWriteBody command a) [] := by
  unfold httpWriteBody
  repeat' split
  all_goals
    first
    | exact sends_releasePayload h command
    | exact (sends_record h rfl).trans (sends_releasePayload _ command)

theorem sends_httpEndBody (h : Host) (command : Command) :
    h.Sends (h.httpEndBody command) [] := by
  unfold httpEndBody
  split
  · exact .refl
  · exact sends_record h rfl

end

end Host

/-- A cancellation of what cannot be cancelled. -/
def Command.IsBadCancel (command : Command) : Prop :=
  command.messageKind = .cancel ∧ command.operationKind ≠ .httpRequestStart

instance (command : Command) : Decidable command.IsBadCancel :=
  inferInstanceAs (Decidable (_ ∧ _))

namespace Host

section

variable {h h' : Host} {command : Command} {a : Answers}

/-- A request is completed at once or it is an HTTP request that starts; of the other commands
only a cancel that is refused sends anything. -/
theorem dispatch_cases (hd : h.dispatch command a = some h') :
    (command.IsRequest ∧ h.Completes h' command.requestId command.endOperation)
      ∨ (command.IsRequest ∧ command.operationKind = .httpRequestStart
        ∧ h.Starts h' command.requestId)
      ∨ (command.IsBadCancel ∧ ¬ command.IsRequest
        ∧ h.Completes h' command.requestId command.operation)
      ∨ (¬ command.IsRequest ∧ h.Sends h' []) := by
  have hend : command.operationKind ≠ .httpRequestStart →
      command.endOperation = command.operation := fun ho => if_neg ho
  unfold dispatch at hd
  cases hk : command.messageKind with
  | submit =>
    rw [hk] at hd
    cases ho : command.operationKind with
    | httpRequestStart =>
      rw [ho] at hd
      have hreq : command.IsRequest := ⟨hk, by simp [ho]⟩
      rcases httpStart_cases hd with hs | hc
      · exact Or.inr (Or.inl ⟨hreq, rfl, hs⟩)
      · exact Or.inl ⟨hreq, by rwa [Command.endOperation, if_pos ho]⟩
    | httpRequestBody =>
      rw [ho] at hd
      refine Or.inr (Or.inr (Or.inr ⟨fun hr => hr.2.1 ho, ?_⟩))
      exact Option.some.inj hd ▸ sends_httpWriteBody h command a
    | httpRequestEnd =>
      rw [ho] at hd
      refine Or.inr (Or.inr (Or.inr ⟨fun hr => hr.2.2 ho, ?_⟩))
      exact Option.some.inj hd ▸ sends_httpEndBody h command
    | _ =>
      rw [ho] at hd
      refine Or.inl ⟨⟨hk, by simp [ho]⟩, ?_⟩
      rw [hend (by simp [ho])]
      first
      | exact completes_openFile hd
      | exact Option.some.inj hd ▸ completes_closeResource h command a
      | exact completes_readResource hd
      | exact Option.some.inj hd ▸ completes_writeResource h command a
      | exact Option.some.inj hd ▸ completes_unsupported h command a.sendOk
  | cancel =>
    rw [hk] at hd
    have hreq : ¬ command.IsRequest := fun hr => absurd (hk.symm.trans hr.1) (by simp)
    by_cases ho : command.operationKind = .httpRequestStart
    · rw [ho] at hd
      exact Or.inr (Or.inr (Or.inr ⟨hreq, Option.some.inj hd ▸ sends_httpCancel h command⟩))
    · refine Or.inr (Or.inr (Or.inl ⟨⟨hk, ho⟩, hreq, ?_⟩))
      simp only at hd
      exact Option.some.inj hd ▸ completes_unsupported h command a.sendOk
  | shutdown =>
    rw [hk] at hd
    refine Or.inr (Or.inr (Or.inr ⟨fun hr => absurd (hk.symm.trans hr.1) (by simp), ?_⟩))
    exact Option.some.inj hd ▸ .of_trace [] rfl (by simp)
  | _ =>
    rw [hk] at hd
    refine Or.inr (Or.inr (Or.inr ⟨fun hr => absurd (hk.symm.trans hr.1) (by simp), ?_⟩))
    exact Option.some.inj hd ▸ sends_releasePayload h command

end

/-- No headers or body of the result fail to reach the engine. -/
def Delivers (h : Host) (request : HttpRequest) (r : CallbackResult) (a : CallbackAnswers) : Prop :=
  let ready := if r.canStream then h.sendReady request.requestId r.isHttp2 a.readyOk else h
  (∀ metadata ∈ r.metadata, ∀ t,
      ready.sendMetadata request.requestId metadata a ≠ some (t, false))
    ∧ (r.body.length ≠ 0 → ∀ s t, ready.callbackMetadata request r a = some s →
      s.sendBytes request.requestId .event .httpResponseBody r.body 0 0 a.body ≠ some (t, false))

/-- Messages of one request, none of which is a completion as long as `ok` holds. -/
def Progress (id : UInt64) (ok : Prop) (ms : List (Command × Bool)) : Prop :=
  ∀ m ∈ ms, m.1.requestId = id ∧ (ok → m.1.messageKind ≠ .completion)

section

variable {h h' : Host} {id : UInt64} {request : HttpRequest} {r : CallbackResult}
  {a : CallbackAnswers}

theorem sends_allocate {len : ℕ} {addr : Option ℕ} {appendOk : Bool} {ref : Option BufferRef}
    (ha : h.allocate len addr appendOk = some (h', ref)) : h.Sends h' [] := by
  unfold allocate at ha
  split_ifs at ha
  simp only [Option.bind_eq_bind, Option.bind_eq_some_iff, Option.pure_def, Option.some.injEq,
    Prod.mk.injEq, Prod.exists] at ha
  obtain ⟨pool, _, -, rfl, -⟩ := ha
  exact .of_trace [] rfl (by simp)

theorem progress_nil {ok : Prop} : Progress id ok [] := by simp [Progress]

theorem Progress.append {ok : Prop} {ms ms' : List (Command × Bool)} (h₀ : Progress id ok ms)
    (h₁ : Progress id ok ms') : Progress id ok (ms ++ ms') :=
  fun m hm => (List.mem_append.1 hm).elim (h₀ m) (h₁ m)

theorem Progress.mono {ok ok' : Prop} {ms : List (Command × Bool)} (hp : Progress id ok ms)
    (hok : ok' → ok) : Progress id ok' ms :=
  fun m hm => ⟨(hp m hm).1, fun h => (hp m hm).2 (hok h)⟩

variable {ok : Bool}

theorem progress_event {m : Command} (hk : m.kind = MessageKind.event.toInt)
    (hi : m.requestId = id) : Progress id True [(m, ok)] := by
  intro x hx
  rw [List.mem_singleton.1 hx]
  refine ⟨hi, fun _ => ?_⟩
  rw [Command.messageKind, hk]
  simp [MessageKind.toInt, MessageKind.ofInt]

theorem sends_sendBytes {operation : Operation} {bytes : List UInt8} {status : ℤ} {arg0 : UInt64}
    {b : BytesAnswers}
    (hs : h.sendBytes id .event operation bytes status arg0 b = some (h', ok)) :
    ∃ ms, h.Sends h' ms ∧ Progress id True ms := by
  simp only [sendBytes, Option.bind_eq_bind, Option.bind_eq_some_iff, Prod.exists] at hs
  obtain ⟨h₁, ref, hal, hs⟩ := hs
  have hq := sends_allocate hal
  rcases ref with _ | ref
  · simp only [Option.pure_def, Option.some.injEq, Prod.mk.injEq] at hs
    obtain ⟨rfl, -⟩ := hs
    exact ⟨[], hq, progress_nil⟩
  rcases hmap : h₁.pool.map ref with _ | mapped
  · simp only [hmap, Option.pure_def, Option.some.injEq, Prod.mk.injEq] at hs
    obtain ⟨rfl, -⟩ := hs
    exact ⟨[], hq.trans (sends_release _ _), progress_nil⟩
  simp only [hmap, ne_eq, ite_not] at hs
  split_ifs at hs
  all_goals
    simp only [Option.pure_def, Option.some.injEq, Prod.mk.injEq] at hs
    obtain ⟨rfl, -⟩ := hs
  · exact ⟨_, hq.trans (sends_send _ _ _), progress_event rfl rfl⟩
  · exact ⟨_, (hq.trans (sends_send _ _ _)).trans (sends_release _ _), progress_event rfl rfl⟩

theorem sends_sendMetadata {metadata : Response}
    (hs : h.sendMetadata id metadata a = some (h', ok)) :
    ∃ ms, h.Sends h' ms ∧ Progress id True ms := by
  unfold sendMetadata at hs
  by_cases hok : ¬ a.headersOk
  · rw [if_pos hok] at hs
    obtain ⟨rfl, -⟩ := Prod.mk.inj (Option.some.inj hs)
    exact ⟨[], .refl, progress_nil⟩
  rw [if_neg hok] at hs
  split at hs
  · simp at hs
  · obtain ⟨rfl, -⟩ := Prod.mk.inj (Option.some.inj hs)
    exact ⟨[], .refl, progress_nil⟩
  · exact sends_sendBytes hs

theorem sends_retry {ok again : Bool} {ms : List (Command × Bool)} (hs : h.Sends h' ms)
    (hp : Progress id True ms) :
    ∃ ms', h.Sends (if ok then h' else h'.sendTerminal id (-12) 3 again) ms'
      ∧ Progress id (ok = true) ms' := by
  cases ok with
  | true => exact ⟨ms, hs, hp.mono fun _ => trivial⟩
  | false =>
    refine ⟨_, hs.trans (sends_send h' _ again), (hp.mono fun _ => trivial).append fun m hm => ?_⟩
    rw [List.mem_singleton.1 hm]
    exact ⟨rfl, by simp⟩

theorem delivers_of_empty (h : Host) (request : HttpRequest) (a : CallbackAnswers)
    (hm : r.metadata = none) (hb : r.body = []) : h.Delivers request r a :=
  ⟨fun metadata hmem => by simp [hm] at hmem, fun hlen => absurd (by simp [hb]) hlen⟩

theorem sends_callbackMetadata (hc : h.callbackMetadata request r a = some h') :
    ∃ ms, h.Sends h' ms ∧ Progress request.requestId
      (∀ metadata ∈ r.metadata, ∀ t, h.sendMetadata request.requestId metadata a ≠ some (t, false))
      ms := by
  unfold callbackMetadata at hc
  rcases hm : r.metadata with _ | metadata
  · simp only [hm, Option.some.injEq] at hc
    exact ⟨[], hc ▸ .refl, progress_nil⟩
  simp only [hm, Option.bind_eq_bind, Option.bind_eq_some_iff, Option.pure_def, Option.some.injEq,
    Prod.exists] at hc
  obtain ⟨h₁, ok, hs, rfl⟩ := hc
  obtain ⟨ms, hsn, hp⟩ := sends_sendMetadata hs
  obtain ⟨ms', hsn', hp'⟩ := @sends_retry _ _ _ ok a.metadataErrorOk _ hsn hp
  refine ⟨ms', hsn', hp'.mono fun hd => ?_⟩
  cases ok with
  | true => rfl
  | false => exact absurd hs (hd metadata rfl h₁)

theorem sends_callbackBody (hc : h.callbackBody request r a = some h') :
    ∃ ms, h.Sends h' ms ∧ Progress request.requestId
      (r.body.length ≠ 0 → ∀ t, h.sendBytes request.requestId .event .httpResponseBody r.body 0 0
        a.body ≠ some (t, false)) ms := by
  unfold callbackBody at hc
  split_ifs at hc with hlen
  · exact ⟨[], Option.some.inj hc ▸ .refl, progress_nil⟩
  simp only [Option.bind_eq_bind, Option.bind_eq_some_iff, Option.pure_def, Option.some.injEq,
    Prod.exists] at hc
  obtain ⟨h₁, ok, hs, rfl⟩ := hc
  obtain ⟨ms, hsn, hp⟩ := sends_sendBytes hs
  obtain ⟨ms', hsn', hp'⟩ := @sends_retry _ _ _ ok a.bodyErrorOk _ hsn hp
  refine ⟨ms', hsn', hp'.mono fun hd => ?_⟩
  cases ok with
  | true => rfl
  | false => exact absurd hs (hd hlen h₁)

theorem completes_sendTerminal (h : Host) (id : UInt64) (status : ℤ) (reason : UInt64) (ok : Bool) :
    h.Completes (h.sendTerminal id status reason ok) id Operation.httpResponseEnd.toInt :=
  completes_send h ok rfl

theorem destroy_messages (h : Host) (request : HttpRequest) :
    (h.destroy request).messages = h.messages := by
  simp [messages, destroy, removeRequest, HostEvent.message]

/-- The messages of a callback are for its request. Those before the last result are no
completions unless a delivery failed, and the last one is. -/
theorem callback_cases (hc : h.callback request r a = some h') :
    ∃ ms, Progress request.requestId (h.Delivers request r a) ms
      ∧ (h.Sends h' ms ∨ ∃ m ok, h'.active = h.active.erase request
        ∧ h'.messages = h.messages ++ ms ++ [(m, ok)] ∧ m.messageKind = .completion
        ∧ m.operation = Operation.httpResponseEnd.toInt ∧ m.requestId = request.requestId) := by
  simp only [callback, Option.bind_eq_bind, Option.bind_eq_some_iff] at hc
  obtain ⟨h₁, hmt, h₂, hbd, hend⟩ := hc
  obtain ⟨ms₀, hs₀, hp₀⟩ : ∃ ms, h.Sends
      (if r.canStream then h.sendReady request.requestId r.isHttp2 a.readyOk else h) ms
      ∧ Progress request.requestId True ms := by
    split_ifs
    · exact ⟨_, sends_send _ _ _, progress_event rfl rfl⟩
    · exact ⟨[], .refl, progress_nil⟩
  obtain ⟨ms₁, hs₁, hp₁⟩ := sends_callbackMetadata hmt
  obtain ⟨ms₂, hs₂, hp₂⟩ := sends_callbackBody hbd
  have hs := (hs₀.trans hs₁).trans hs₂
  refine ⟨ms₀ ++ ms₁ ++ ms₂, ((hp₀.mono fun _ => trivial).append (hp₁.mono fun hd => hd.1)).append
    (hp₂.mono fun hd hlen t => hd.2 hlen h₁ t hmt), ?_⟩
  by_cases hmr : r.hasMore
  · rw [if_pos hmr] at hend
    exact Or.inl (Option.some.inj hend ▸ hs)
  · rw [if_neg hmr] at hend
    rw [← Option.some.inj hend]
    obtain ⟨m, ok, hls, hk, ho, hi⟩ := completes_sendTerminal h₂ request.requestId
      (if r.isSuccess then 0 else -5) (endReason r) a.endOk
    refine Or.inr ⟨m, ok, ?_, ?_, hk, ho, hi⟩
    · exact congrArg (·.erase request) (hs.trans hls).active
    · rw [destroy_messages, (hs.trans hls).messages, ← List.append_assoc]

end

/-- A command, a callback of a running request, or what the others did meanwhile. -/
inductive Turn where
  | command (command : Command) (a : Answers)
  | callback (request : HttpRequest) (r : CallbackResult) (a : CallbackAnswers)
  | others (pool : DataPool) (toHost toEngine : CommandChannel)

/-- One turn of the host; the pool and the channels may be used by others in between. -/
def perform (h : Host) : Turn → Option Host
  | .command c a => h.dispatch c a
  | .callback request r a => if request ∈ h.active then h.callback request r a else none
  | .others pool toHost toEngine => some { h with pool, toHost, toEngine }

/-- The event of a turn is the state it started from and what happened there. -/
def turn (h : Host) (i : Turn) : Option (Host × Host × Turn) :=
  (h.perform i).map fun t => (t, h, i)

theorem turn_input {h t : Host} {i : Turn} {e : Host × Turn} (hs : h.turn i = some (t, e)) :
    e.2 = i := by
  obtain ⟨u, -, heq⟩ := Option.map_eq_some_iff.1 hs
  rw [← (Prod.mk.inj heq).2]

def Turn.request : Turn → Option Command
  | .command c _ => if c.IsRequest then some c else none
  | _ => none

/-- The requests of a run that have this id. -/
def Turn.requestsFor (id : UInt64) (is : List Turn) : List Command :=
  (is.filterMap Turn.request).filter fun c => c.requestId = id

/-- How far the request with this id is, when `asked` lists the requests made for it. -/
inductive Phase (id : UInt64) (h : Host) : List Command → Prop
  | fresh : h.messagesFor id = [] → (h.active.filter fun r => r.requestId = id) = [] →
      Phase id h []
  | running {c : Command} {r : HttpRequest} : c.operationKind = .httpRequestStart →
      (∀ m ∈ h.messagesFor id, m.1.messageKind ≠ .completion) →
      (h.active.filter fun r => r.requestId = id) = [r] → Phase id h [c]
  | done {c m : Command} {ok : Bool} {ms : List (Command × Bool)} :
      (∀ m ∈ ms, m.1.messageKind ≠ .completion) → h.messagesFor id = ms ++ [(m, ok)] →
      m.messageKind = .completion → m.operation = c.endOperation →
      (h.active.filter fun r => r.requestId = id) = [] → Phase id h [c]

section

variable {h h' : Host} {id : UInt64} {asked : List Command} {command : Command}

theorem requestsFor_request {a : Answers} (hr : command.IsRequest) (hid : command.requestId = id) :
    Turn.requestsFor id [.command command a] = [command] := by
  simp [Turn.requestsFor, Turn.request, hr, hid]

theorem requestsFor_other {a : Answers} (h : ¬ command.IsRequest ∨ command.requestId ≠ id) :
    Turn.requestsFor id [.command command a] = [] := by
  rcases h with h | h <;> by_cases hr : command.IsRequest <;>
    simp_all [Turn.requestsFor, Turn.request]

theorem Phase.congr (hp : Phase id h asked) (hm : h'.messagesFor id = h.messagesFor id)
    (ha : (h'.active.filter fun r => r.requestId = id) = h.active.filter fun r => r.requestId = id) :
    Phase id h' asked := by
  cases hp with
  | fresh hms hact => exact .fresh (hm.trans hms) (ha.trans hact)
  | running ho hms hact => exact .running ho (hm ▸ hms) (ha.trans hact)
  | done hms hls hk ho hact => exact .done hms (hm.trans hls) hk ho (ha.trans hact)

theorem Sends.messagesFor {ms : List (Command × Bool)} (hs : h.Sends h' ms) :
    h'.messagesFor id = h.messagesFor id ++ ms.filter fun m => m.1.requestId = id := by
  rw [Host.messagesFor, hs.messages, List.filter_append]
  rfl

theorem Phase.sends (hp : Phase id h asked) {ms : List (Command × Bool)} (hs : h.Sends h' ms)
    (hne : ∀ m ∈ ms, m.1.requestId ≠ id) : Phase id h' asked := by
  refine hp.congr ?_ (by rw [hs.active])
  rw [hs.messagesFor, List.filter_eq_nil_iff.2 (by simpa using hne), List.append_nil]

theorem Phase.completes_other (hp : Phase id h asked) {id' : UInt64} {operation : UInt16}
    (hc : h.Completes h' id' operation) (hne : id' ≠ id) : Phase id h' asked := by
  obtain ⟨m, ok, hs, -, -, hi⟩ := hc
  refine hp.sends hs fun m' hm => ?_
  rw [List.mem_singleton.1 hm, hi]
  exact hne

theorem Phase.complete (hp : Phase id h []) (hc : h.Completes h' id command.endOperation) :
    Phase id h' [command] := by
  obtain ⟨m, ok, hs, hk, ho, hi⟩ := hc
  cases hp with
  | fresh hms hact =>
    refine .done (by simp) (show _ = [] ++ [(m, ok)] from ?_) hk ho (by rw [hs.active, hact])
    rw [hs.messagesFor, hms]
    simp [hi]

theorem Phase.start (hp : Phase id h []) (ho : command.operationKind = .httpRequestStart)
    (hs : h.Starts h' id) : Phase id h' [command] := by
  obtain ⟨r, hr, ha, hm⟩ := hs
  cases hp with
  | fresh hms hact =>
    refine .running (r := r) ho ?_ ?_
    · rw [Host.messagesFor, hm]
      exact fun m hm => by simp [show h.messages.filter _ = [] from hms] at hm
    · simp [ha, hact, hr]

theorem Phase.starts_other (hp : Phase id h asked) {id' : UInt64} (hs : h.Starts h' id')
    (hne : id' ≠ id) : Phase id h' asked := by
  obtain ⟨r, hr, ha, hm⟩ := hs
  refine hp.congr (by rw [Host.messagesFor, hm]; rfl) ?_
  rw [ha, List.filter_append]
  simp [hr, hne]

theorem Phase.afterCommand {a : Answers} (hp : Phase id h asked) (hd : h.dispatch command a = some h')
    (hbad : command.requestId = id → ¬ command.IsBadCancel)
    (hlen : (asked ++ Turn.requestsFor id [.command command a]).length ≤ 1) :
    Phase id h' (asked ++ Turn.requestsFor id [.command command a]) := by
  by_cases hid : command.requestId = id
  · rcases dispatch_cases hd with ⟨hr, hc⟩ | ⟨hr, ho, hs⟩ | ⟨hb, -, -⟩ | ⟨hr, hs⟩
    · rw [requestsFor_request hr hid] at hlen ⊢
      obtain rfl : asked = [] := by simpa using hlen
      exact hp.complete (hid ▸ hc)
    · rw [requestsFor_request hr hid] at hlen ⊢
      obtain rfl : asked = [] := by simpa using hlen
      exact hp.start ho (hid ▸ hs)
    · exact absurd hb (hbad hid)
    · rw [requestsFor_other (Or.inl hr), List.append_nil]
      exact hp.sends hs (by simp)
  · rw [requestsFor_other (Or.inr hid), List.append_nil]
    rcases dispatch_cases hd with ⟨-, hc⟩ | ⟨-, -, hs⟩ | ⟨-, -, hc⟩ | ⟨-, hs⟩
    · exact hp.completes_other hc hid
    · exact hp.starts_other hs hid
    · exact hp.completes_other hc hid
    · exact hp.sends hs (by simp)

/-- A callback moves its own request on, and no other. -/
theorem Phase.afterCallback {request : HttpRequest} {r : CallbackResult} {a : CallbackAnswers}
    (hp : Phase id h asked) (hm : request ∈ h.active) (hc : h.callback request r a = some h')
    (hdel : request.requestId = id → h.Delivers request r a) : Phase id h' asked := by
  obtain ⟨ms, hpr, hcs⟩ := callback_cases hc
  by_cases hid : request.requestId = id
  · have hin : request ∈ h.active.filter fun r => r.requestId = id :=
      List.mem_filter.2 ⟨hm, by simpa using hid⟩
    cases hp with
    | fresh hms hact => simp [hact] at hin
    | done hms hls hk ho hact => simp [hact] at hin
    | @running c r' ho hms hact =>
    obtain rfl : request = r' := by simpa [hact] using hin
    have hkp : ms.filter (fun m => m.1.requestId = id) = ms :=
      List.filter_eq_self.2 fun m hm => by simpa [hid] using (hpr m hm).1
    have hpl : ∀ m ∈ h.messagesFor id ++ ms, m.1.messageKind ≠ .completion := fun m hm =>
      (List.mem_append.1 hm).elim (hms m) fun hm => (hpr m hm).2 (hdel hid)
    rcases hcs with hs | ⟨m, ok, ha, hmsg, hk, hop, hi⟩
    · refine .running ho ?_ (by rw [hs.active, hact])
      rw [hs.messagesFor, hkp]
      exact hpl
    · refine .done hpl (m := m) (show _ = _ ++ [(m, ok)] from ?_) hk ?_ ?_
      · simp [Host.messagesFor, hmsg, hkp, hi, hid]
      · rw [hop, Command.endOperation, if_pos ho]
      · rw [ha, ← List.erase_filter, hact]
        simp
  · have hno : ∀ m ∈ ms, m.1.requestId ≠ id := fun m hm => (hpr m hm).1 ▸ hid
    rcases hcs with hs | ⟨m, ok, ha, hmsg, -, -, hi⟩
    · exact hp.sends hs hno
    · have hdr : ms.filter (fun m => m.1.requestId = id) = [] :=
        List.filter_eq_nil_iff.2 (by simpa using hno)
      refine hp.congr ?_ ?_
      · simp [Host.messagesFor, hmsg, hdr, hi, hid]
      · rw [ha, ← List.erase_filter, List.erase_of_not_mem]
        simp [hid]

theorem requestsFor_cons (id : UInt64) (i : Turn) (is : List Turn) :
    Turn.requestsFor id (i :: is) = Turn.requestsFor id [i] ++ Turn.requestsFor id is := by
  rw [← List.singleton_append, Turn.requestsFor, List.filterMap_append, List.filter_append]
  rfl

/-- What the host relies on for one id: its cancels can be refused no more, and the results of its
callbacks reach the engine. -/
def Regular (id : UInt64) : Host × Turn → Prop
  | (_, .command command _) => command.requestId = id → ¬ command.IsBadCancel
  | (h, .callback request r a) => request.requestId = id → h.Delivers request r a
  | (_, .others _ _ _) => True

theorem Phase.perform {i : Turn} (hp : Phase id h asked) (hs : h.perform i = some h')
    (hreg : Regular id (h, i)) (hlen : (asked ++ Turn.requestsFor id [i]).length ≤ 1) :
    Phase id h' (asked ++ Turn.requestsFor id [i]) := by
  cases i with
  | command command a => exact hp.afterCommand hs hreg hlen
  | callback request r a =>
    simp only [Host.perform] at hs
    split_ifs at hs with hm
    rw [show Turn.requestsFor id [.callback request r a] = [] from rfl, List.append_nil]
    exact hp.afterCallback hm hs hreg
  | others pool toHost toEngine =>
    rw [show Turn.requestsFor id [.others pool toHost toEngine] = [] from rfl, List.append_nil,
      ← Option.some.inj hs]
    exact hp.congr rfl rfl

/-- A run takes the one request through its phases. -/
theorem Phase.run : ∀ {is : List Turn} {h t : Host} {es : List (Host × Turn)}
    {asked : List Command}, Phase id h asked → Cruller.run turn h is = some (t, es) →
      (∀ e ∈ es, Regular id e) → (asked ++ Turn.requestsFor id is).length ≤ 1 →
      Phase id t (asked ++ Turn.requestsFor id is)
  | [], h, t, es, asked, hp, hr, _, _ => by
    simp only [run_nil, Option.some.injEq, Prod.mk.injEq] at hr
    rw [← hr.1]
    simpa [Turn.requestsFor] using hp
  | i :: is, h, t, es, asked, hp, hr, hreg, hlen => by
    obtain ⟨u, e, es', hs, hrs, rfl⟩ := run_cons.1 hr
    obtain ⟨u', hpr, heq⟩ := Option.map_eq_some_iff.1 hs
    obtain ⟨rfl, rfl⟩ := Prod.mk.inj heq
    rw [requestsFor_cons, ← List.append_assoc] at hlen ⊢
    refine Phase.run (hp.perform hpr (hreg _ List.mem_cons_self) ?_) hrs
      (fun e he => hreg e (List.mem_cons_of_mem _ he)) hlen
    rw [List.length_append] at hlen
    omega

end

end Host

/-- In every run whose requests have distinct ids, whatever fails elsewhere: for an id whose
cancels and results are regular, a completion is the last message of its id and carries the
operation that ends its request, and once the request is not running exactly one completion was
made for it. -/
theorem one_completion {is : List Host.Turn} {h : Host} {es : List (Host × Host.Turn)}
    (hr : run Host.turn {} is = some (h, es))
    (hids : ((is.filterMap Host.Turn.request).map (·.requestId)).Nodup) {id : UInt64}
    (hreg : ∀ e ∈ es, Host.Regular id e) :
    (∀ ms m ms', h.messagesFor id = ms ++ m :: ms' → m.1.messageKind = .completion →
        ms' = [] ∧ ∃ c ∈ is.filterMap Host.Turn.request, c.requestId = id
          ∧ m.1.operation = c.endOperation)
      ∧ ∀ c ∈ is.filterMap Host.Turn.request, c.requestId = id →
        (∀ r ∈ h.active, r.requestId ≠ id) →
          ∃ m ok, (h.messagesFor id).filter (·.1.messageKind = .completion) = [(m, ok)]
            ∧ m.operation = c.endOperation := by
  have hlen : (Host.Turn.requestsFor id is).length ≤ 1 := by
    have hcount := List.nodup_iff_count_le_one.1 hids id
    rw [List.count, List.countP_map, List.countP_eq_length_filter] at hcount
    simpa only [Host.Turn.requestsFor, Function.comp_def, beq_eq_decide] using hcount
  have hmem : ∀ c, c ∈ Host.Turn.requestsFor id is ↔
      c ∈ is.filterMap Host.Turn.request ∧ c.requestId = id := fun c => by
    simp [Host.Turn.requestsFor]
  have hphase : Host.Phase id h (Host.Turn.requestsFor id is) :=
    Host.Phase.run (.fresh rfl rfl) hr hreg hlen
  generalize hasked : Host.Turn.requestsFor id is = asked at hphase hmem
  cases hphase with
  | fresh hms hact =>
    refine ⟨fun ms m ms' heq _ => by simp [hms] at heq, fun c hc hid _ => ?_⟩
    simpa using (hmem c).2 ⟨hc, hid⟩
  | @running c r ho hms hact =>
    refine ⟨fun ms m ms' heq hk => absurd hk (hms m (by simp [heq])), fun c hc hid hidle => ?_⟩
    have hr' : r ∈ h.active.filter fun r => r.requestId = id := by simp [hact]
    exact absurd (by simpa using (List.mem_filter.1 hr').2) (hidle r (List.mem_filter.1 hr').1)
  | @done c m ok ms hms hlast hk ho hact =>
    constructor
    · intro ms₁ m' ms₂ heq hk'
      rw [hlast] at heq
      rcases List.eq_nil_or_concat ms₂ with rfl | ⟨ms₃, x, rfl⟩
      · obtain ⟨-, h₁⟩ := List.append_inj' heq rfl
        rw [← List.singleton_inj.1 h₁]
        obtain ⟨hc, hid⟩ := (hmem c).1 (List.mem_singleton.2 rfl)
        exact ⟨rfl, c, hc, hid, ho⟩
      · rw [List.concat_eq_append, ← List.cons_append, ← List.append_assoc] at heq
        obtain ⟨h₁, -⟩ := List.append_inj' heq rfl
        exact absurd hk' (hms m' (by simp [h₁]))
    · intro c' hc' hid' _
      obtain rfl := List.mem_singleton.1 ((hmem c').2 ⟨hc', hid'⟩)
      refine ⟨m, ok, ?_, ho⟩
      rw [hlast, List.filter_append, List.filter_eq_nil_iff.2 (by simpa using hms)]
      simp [hk]

/-- A request that is answered in two pieces. -/
theorem one_completion_get :
    ∃ h es, run Host.turn {} [.others { slots := [{ bytes := some ⟨0, 64⟩, refs := 1 }] } {} {},
        .command { operation := 48, requestId := 7, payload := ⟨1, 0, 1, 0, 64⟩ }
          { mem := fun i => ([0x48, 0x54, 0x52, 0x43, 1] : List UInt8).getD i 0 },
        .callback ⟨7, false⟩ { hasMore := true } {}, .callback ⟨7, false⟩ {} {}] = some (h, es)
      ∧ ∃ m ok, (h.messagesFor 7).filter (·.1.messageKind = .completion) = [(m, ok)]
        ∧ m.operation = 54 := by
  have hr : run Host.turn {} [.others { slots := [{ bytes := some ⟨0, 64⟩, refs := 1 }] } {} {},
      .command { operation := 48, requestId := 7, payload := ⟨1, 0, 1, 0, 64⟩ }
        { mem := fun i => ([0x48, 0x54, 0x52, 0x43, 1] : List UInt8).getD i 0 },
      .callback ⟨7, false⟩ { hasMore := true } {}, .callback ⟨7, false⟩ {} {}] = some (_, _) := rfl
  refine ⟨_, _, hr, ?_⟩
  refine (one_completion hr (by decide) ?_).2
    { operation := 48, requestId := 7, payload := ⟨1, 0, 1, 0, 64⟩ } (by decide) rfl ?_
  · intro e he
    have hi := List.mem_map_of_mem (f := Prod.snd) he
    rw [run_map_inputs Host.turn_input hr] at hi
    simp only [List.mem_cons, List.not_mem_nil, or_false] at hi
    rcases e with ⟨h, i⟩
    rcases hi with rfl | rfl | rfl | rfl
    · exact trivial
    · exact fun _ hb => absurd hb (by decide)
    · exact fun _ => Host.delivers_of_empty h ⟨7, false⟩ {} rfl rfl
    · exact fun _ => Host.delivers_of_empty h ⟨7, false⟩ {} rfl rfl
  · intro r hr
    exact absurd hr List.not_mem_nil

/-- An HTTP request is completed under another operation, a close that is cancelled is completed
twice, a body that cannot be buffered adds a completion, and a completion that is not sent is not
made up for. -/
theorem one_completion_refuted :
    (∃ h es, run Host.turn {} [.command { operation := 48, requestId := 7 } {}] = some (h, es)
        ∧ (h.messagesFor 7).map (fun m => (m.1.messageKind, m.1.operation, m.2)) =
          [(.completion, 54, true)])
      ∧ (∃ h es, run Host.turn {} [.command { operation := 17, requestId := 5 } {},
          .command { kind := 4, operation := 17, requestId := 5 } {}] = some (h, es)
        ∧ (h.messagesFor 5).map (fun m => (m.1.messageKind, m.1.operation, m.2)) =
          [(.completion, 17, true), (.completion, 17, true)])
      ∧ (∃ h es, run Host.turn {}
          [.others { slots := [{ bytes := some ⟨0, 64⟩, refs := 1 }] } {} {},
            .command { operation := 48, requestId := 7, payload := ⟨1, 0, 1, 0, 64⟩ }
              { mem := fun i => ([0x48, 0x54, 0x52, 0x43, 1] : List UInt8).getD i 0 },
            .callback ⟨7, false⟩ { body := [97], hasMore := true } {},
            .callback ⟨7, false⟩ {} {}] = some (h, es)
        ∧ (h.messagesFor 7).map (fun m => (m.1.messageKind, m.1.operation, m.2)) =
          [(.completion, 54, true), (.completion, 54, true)])
      ∧ ∃ h es, run Host.turn {} [.command { operation := 17, requestId := 5 }
          { sendOk := false }] = some (h, es)
        ∧ (h.messagesFor 5).map (fun m => (m.1.messageKind, m.1.operation, m.2)) =
          [(.completion, 17, false)] :=
  ⟨⟨_, _, rfl, rfl⟩, ⟨_, _, rfl, rfl⟩, ⟨_, _, rfl, rfl⟩, _, _, rfl, rfl⟩

end Cruller
