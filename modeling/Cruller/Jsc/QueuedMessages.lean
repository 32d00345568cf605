import Cruller.Lib.Throughout
import Cruller.Jsc.SendQueue

/-!
# What lies in the queue of messages

The messages that were asked for are numbered. What is finished, what waits for an answer and what
lies in the queue are the numbers in order, and what the socket took is the items of the log and a
part of the first item (`Inv`). Every move of the queue keeps this; a message with a handle may
come back from waiting into the queue, and no other message is transmitted twice.
-/

namespace Cruller.Jsc.Ipc

open List Option

variable {V C H : Type}

/-! ## Numbers -/

theorem eq_range_of_append_eq_range {xs ys : List ℕ} {n : ℕ} (h : xs ++ ys = List.range n) :
    xs = List.range xs.length ∧ ys = List.range' xs.length ys.length := by
  obtain ⟨k, rfl⟩ : ∃ k, n = xs.length + k := by
    have hlen := congrArg List.length h
    rw [length_append, length_range] at hlen
    exact ⟨_, hlen.symm⟩
  rw [range_add] at h
  obtain ⟨hxs, hys⟩ := append_inj h (by rw [length_range])
  refine ⟨hxs, ?_⟩
  rw [hys, length_map, length_range, range_eq_range', map_add_range',
    Nat.add_zero]

/-! ## Messages and transmissions -/

/-- The bytes of a message. -/
def bytesOf (asked : List (Asked C H)) (i : ℕ) : List UInt8 :=
  (asked[i]?.bind Asked.bytes).getD []

def callbackOf (asked : List (Asked C H)) (i : ℕ) : Option C := asked[i]?.bind Asked.callback

def handleOf (asked : List (Asked C H)) (i : ℕ) : Option H := asked[i]?.bind Asked.handle

namespace Transmission

/-- The messages of a transmission. -/
def ids : Transmission → List ℕ
  | .messages is => is
  | .packet _ => []

/-- The bytes of a transmission. -/
def bytes (asked : List (Asked C H)) : Transmission → List UInt8
  | .messages is => is.flatMap (bytesOf asked)
  | .packet p => p

end Transmission

/-- The messages of a log, each as often as it was transmitted. -/
def sentIds (log : List Transmission) : List ℕ := log.flatMap Transmission.ids

/-- How often a transmission was refused. -/
def nacks (answers : List (ℕ × AckNack)) : ℕ := answers.countP (·.2 = .nack)

/-- A message that had a NACK when there had been two or more NACKs before. -/
def GivenUp (answers : List (ℕ × AckNack)) (i : ℕ) : Prop :=
  ∃ before after, answers = before ++ (i, .nack) :: after ∧ 2 ≤ nacks before

section

variable {asked : List (Asked C H)} (a : Asked C H) {i : ℕ} {is : List ℕ}

theorem bytesOf_append (h : i < asked.length) : bytesOf (asked ++ [a]) i = bytesOf asked i := by
  rw [bytesOf, bytesOf, getElem?_append_left h]

theorem callbackOf_append (h : i < asked.length) :
    callbackOf (asked ++ [a]) i = callbackOf asked i := by
  rw [callbackOf, callbackOf, getElem?_append_left h]

theorem handleOf_append (h : i < asked.length) : handleOf (asked ++ [a]) i = handleOf asked i := by
  rw [handleOf, handleOf, getElem?_append_left h]

@[simp]
theorem bytesOf_append_length : bytesOf (asked ++ [a]) asked.length = a.bytes.getD [] := by
  simp [bytesOf]

@[simp]
theorem callbackOf_append_length : callbackOf (asked ++ [a]) asked.length = a.callback := by
  simp [callbackOf]

@[simp]
theorem handleOf_append_length : handleOf (asked ++ [a]) asked.length = a.handle := by
  simp [handleOf]

theorem flatMap_bytesOf_append (h : ∀ i ∈ is, i < asked.length) :
    is.flatMap (bytesOf (asked ++ [a])) = is.flatMap (bytesOf asked) :=
  flatMap_congr fun i hi => bytesOf_append a (h i hi)

theorem filterMap_callbackOf_append (h : ∀ i ∈ is, i < asked.length) :
    is.filterMap (callbackOf (asked ++ [a])) = is.filterMap (callbackOf asked) :=
  filterMap_congr fun i hi => callbackOf_append a (h i hi)

end

theorem sentIds_append (log : List Transmission) (t : Transmission) :
    sentIds (log ++ [t]) = sentIds log ++ t.ids := by
  simp [sentIds]

theorem nacks_append (answers : List (ℕ × AckNack)) (a : ℕ × AckNack) :
    nacks (answers ++ [a]) = nacks answers + if a.2 = .nack then 1 else 0 := by
  simp [nacks, countP_append, countP_cons]

theorem GivenUp.append {answers : List (ℕ × AckNack)} {i : ℕ} (h : GivenUp answers i)
    (more : List (ℕ × AckNack)) : GivenUp (answers ++ more) i := by
  obtain ⟨before, after, rfl, hle⟩ := h
  exact ⟨before, after ++ more, by simp, hle⟩

/-! ## The invariant -/

/-- The item is what these messages make. -/
structure SendHandle.Made (item : SendHandle C H) (mode : Mode) (asked : List (Asked C H)) :
    Prop where
  packet : item.isAckNack → item.messages = [] ∧ item.handle = none ∧
    (item.data = getAckPacket mode ∨ item.data = getNackPacket mode)
  data : ¬ item.isAckNack → item.data = item.messages.flatMap (bytesOf asked)
  messages : ¬ item.isAckNack → item.messages ≠ []
  callbacks : item.callbacks.callNextTick = item.messages.filterMap (callbackOf asked)
  handle : ∀ i ∈ item.messages, handleOf asked i = item.handle
  single : item.handle.isSome → ∃ i, item.messages = [i]

/-- The log, where `held` waits for an answer and so many are done. -/
structure Logged (asked : List (Asked C H)) (log : List Transmission) (held : List ℕ)
    (done retry_count : ℕ) : Prop where
  /-- A message that was transmitted and is still to be done has come back. -/
  sent : ∀ i ∈ sentIds log, i ≤ done ∧ (i = done → held = [] ∧ (handleOf asked i).isSome)
  sorted : (sentIds log).Pairwise (· ≤ ·)
  complete : ∀ i, i < done → bytesOf asked i ≠ [] → i ∈ sentIds log
  tail : held ≠ [] → ∃ before after, log = before ++ .messages held :: after ∧ sentIds after = []
  count : ∀ i, (sentIds log).count i ≤ min retry_count 2 + 1
  count_queued : ∀ i, done ≤ i → (sentIds log).count i ≤ min retry_count 2
  once : ∀ i, handleOf asked i = none → (sentIds log).count i ≤ 1

/-- The callbacks of finished messages have been called, those of others not. -/
structure Settled (asked : List (Asked C H)) (finished : List ℕ) (called : List C)
    (answers : List (ℕ × AckNack)) (retry_count : ℕ) : Prop where
  called : called = finished.filterMap (callbackOf asked)
  retries : retry_count = nacks answers
  acked : ∀ i, (i, .ack) ∈ answers → i ∈ finished
  finished : ∀ i ∈ finished, (handleOf asked i).isSome → bytesOf asked i ≠ [] →
    (i, .ack) ∈ answers ∨ GivenUp answers i

namespace SendQueue

/-- The messages that wait for an answer. -/
def held (s : SendQueue C H) : List ℕ := s.waiting_for_ack.elim [] SendHandle.messages

/-- How many messages are finished or wait for an answer. -/
def done (s : SendQueue C H) : ℕ := (s.history.finished ++ s.held).length

/-- What has been written of the first item. -/
def part (s : SendQueue C H) : List UInt8 :=
  s.queue.head?.elim [] fun first => first.data.take first.cursor

/-- The queue is what was asked for and is not finished. -/
structure Inv (s : SendQueue C H) : Prop where
  bytes : ∀ a ∈ s.history.asked, a.bytes ≠ some []
  items : ∀ item ∈ s.queue, item.Made s.mode s.history.asked
  waiting : ∀ item, s.waiting_for_ack = some item →
    item.handle.isSome ∧ item.Made s.mode s.history.asked
  order : s.history.finished ++ s.held ++ s.queue.flatMap SendHandle.messages =
    List.range s.history.asked.length
  first : ∀ first rest, s.queue = first :: rest →
    (first.cursor ≠ 0 → first.cursor < first.data.length) ∧ ∀ item ∈ rest, item.cursor = 0
  /-- While an answer is awaited no message is written. -/
  still : s.waiting_for_ack.isSome → ∀ item ∈ s.queue, ¬ item.isAckNack → item.cursor = 0
  writing : s.write_in_progress → ∃ first rest, s.queue = first :: rest ∧
    (s.waiting_for_ack.isSome → first.isAckNack) ∧ first.cursor < first.data.length
  later : ∀ n, s.windows_write = some n → s.write_in_progress ∧
    ∃ first rest, s.queue = first :: rest ∧ n ≤ (first.data.drop first.cursor).length
  wire : s.history.wire = s.history.log.flatMap (Transmission.bytes s.history.asked) ++ s.part
  packets : ∀ packet, .packet packet ∈ s.history.log →
    packet = getAckPacket s.mode ∨ packet = getNackPacket s.mode
  logged : Logged s.history.asked s.history.log s.held s.done s.retry_count
  settled : Settled s.history.asked s.history.finished s.history.called s.history.answers
    s.retry_count

/-- What `s` comes to while nothing more is asked for. -/
structure Onward (s t : SendQueue C H) : Prop where
  inv : Inv t
  asked : t.history.asked = s.history.asked
  mode : t.mode = s.mode
  version : t.has_written_version = s.has_written_version

theorem Onward.trans {s t u : SendQueue C H} (h : Onward s t) (h' : Onward t u) : Onward s u :=
  ⟨h'.inv, h'.asked.trans h.asked, h'.mode.trans h.mode, h'.version.trans h.version⟩

theorem Onward.ends {s t : SendQueue C H} (h : Onward s t) {r : Except Crash (SendQueue C H)}
    (hr : Ends (Onward t) (· ≠ .assertion) r) : Ends (Onward s) (· ≠ .assertion) r :=
  hr.imp fun _ => h.trans

end SendQueue

theorem getAckPacket_ne_nil (mode : Mode) : getAckPacket mode ≠ [] := by
  cases mode <;> decide

theorem getNackPacket_ne_nil (mode : Mode) : getNackPacket mode ≠ [] := by
  cases mode <;> decide

namespace SendHandle.Made

variable {item : SendHandle C H} {mode : Mode} {asked : List (Asked C H)}

theorem data_ne_nil (h : item.Made mode asked) (hack : item.isAckNack) : item.data ≠ [] := by
  rcases (h.packet hack).2.2 with hdt | hdt
  · rw [hdt]
    exact getAckPacket_ne_nil mode
  · rw [hdt]
    exact getNackPacket_ne_nil mode

theorem not_isAckNack (h : item.Made mode asked) (hhn : item.handle.isSome) :
    ¬ item.isAckNack := by
  intro hack
  rw [(h.packet hack).2.1] at hhn
  cases hhn

theorem transmission (h : item.Made mode asked) :
    (if item.isAckNack then Transmission.packet item.data else .messages item.messages).ids =
        item.messages ∧
      (if item.isAckNack then Transmission.packet item.data else .messages item.messages).bytes
        asked = item.data := by
  split_ifs with hack
  · exact ⟨(h.packet hack).1.symm, rfl⟩
  · exact ⟨rfl, (h.data hack).symm⟩

theorem append (h : item.Made mode asked) (hlt : ∀ i ∈ item.messages, i < asked.length)
    (a : Asked C H) : item.Made mode (asked ++ [a]) where
  packet := h.packet
  data hack := by rw [h.data hack, flatMap_bytesOf_append a hlt]
  messages := h.messages
  callbacks := by rw [h.callbacks, filterMap_callbackOf_append a hlt]
  handle i hi := by rw [handleOf_append a (hlt i hi), h.handle i hi]
  single := h.single

end SendHandle.Made

/-! ## Moves of the log -/

namespace Logged

variable {asked : List (Asked C H)} {log : List Transmission} {held : List ℕ}
  {done retry_count : ℕ}

theorem not_mem (h : Logged asked log held done retry_count) {i : ℕ} (hle : done ≤ i)
    (hhn : handleOf asked i = none) : i ∉ sentIds log := by
  intro hi
  obtain ⟨hle', heq⟩ := h.sent i hi
  have hsm := (heq (by omega)).2
  rw [hhn] at hsm
  cases hsm

theorem append (h : Logged asked log held done retry_count) (hdn : done ≤ asked.length)
    (a : Asked C H) : Logged (asked ++ [a]) log held done retry_count where
  sent i hi := by
    obtain ⟨hle, heq⟩ := h.sent i hi
    refine ⟨hle, fun hi' => ?_⟩
    obtain ⟨hhl, hsm⟩ := heq hi'
    have hlt : i < asked.length := by
      by_contra hge
      rw [handleOf, getElem?_eq_none (by omega)] at hsm
      cases hsm
    rw [handleOf_append a hlt]
    exact ⟨hhl, hsm⟩
  sorted := h.sorted
  complete i hi hne := h.complete i hi (by rwa [bytesOf_append a (by omega)] at hne)
  tail := h.tail
  count := h.count
  count_queued := h.count_queued
  once i hi := by
    by_cases hlt : i < asked.length
    · exact h.once i (by rwa [handleOf_append a hlt] at hi)
    · have hno : handleOf asked i = none := by
        rw [handleOf, getElem?_eq_none (by omega)]
        rfl
      exact h.once i hno

theorem skip (h : Logged asked log [] done retry_count) {k : ℕ} (hpos : 0 < k)
    (hby : ∀ i ∈ List.range' done k, bytesOf asked i = []) :
    Logged asked log [] (done + k) retry_count where
  sent i hi := by
    have := (h.sent i hi).1
    exact ⟨by omega, by omega⟩
  sorted := h.sorted
  complete i hi hne := by
    by_cases hlt : i < done
    · exact h.complete i hlt hne
    · exact absurd (hby i (mem_range'_1.2 ⟨by omega, hi⟩)) hne
  tail := h.tail
  count := h.count
  count_queued i hi := h.count_queued i (by omega)
  once := h.once

theorem packet (h : Logged asked log held done retry_count) (packet : List UInt8) :
    Logged asked (log ++ [.packet packet]) held done retry_count := by
  have hids : sentIds (log ++ [.packet packet]) = sentIds log := by
    rw [sentIds_append]
    exact append_nil _
  refine ⟨?_, ?_, ?_, ?_, ?_, ?_, ?_⟩
  · rw [hids]
    exact h.sent
  · rw [hids]
    exact h.sorted
  · rw [hids]
    exact h.complete
  · intro hhl
    obtain ⟨before, after, rfl, haf⟩ := h.tail hhl
    refine ⟨before, after ++ [.packet packet], by simp, ?_⟩
    rw [sentIds_append, haf]
    rfl
  · rw [hids]
    exact h.count
  · rw [hids]
    exact h.count_queued
  · rw [hids]
    exact h.once

/-- Messages are transmitted, and done. -/
theorem transmit (h : Logged asked log [] done retry_count) {k : ℕ} (hpos : 0 < k) (held : List ℕ)
    (hhl : held ≠ [] → held = List.range' done k)
    (hone : (∀ i ∈ List.range' done k, handleOf asked i = none) ∨ ∀ i, handleOf asked i = none →
      i ∉ List.range' done k) :
    Logged asked (log ++ [.messages (List.range' done k)]) held (done + k) retry_count := by
  have hids : sentIds (log ++ [.messages (List.range' done k)]) =
      sentIds log ++ List.range' done k := sentIds_append _ _
  have hcn : ∀ i, (List.range' done k).count i ≤ 1 :=
    fun i => nodup_iff_count_le_one.1 nodup_range' i
  have hzr : ∀ i, i ∉ List.range' done k → (List.range' done k).count i = 0 :=
    fun i hi => count_eq_zero.2 hi
  refine ⟨?_, ?_, ?_, ?_, ?_, ?_, ?_⟩
  · intro i hi
    rw [hids, mem_append, mem_range'_1] at hi
    rcases hi with hi | hi
    · have := (h.sent i hi).1
      exact ⟨by omega, by omega⟩
    · exact ⟨by omega, by omega⟩
  · rw [hids, pairwise_append]
    have hsr : (List.range' done k).Pairwise (· < ·) := pairwise_lt_range'
    refine ⟨h.sorted, hsr.imp le_of_lt, fun i hi j hj => ?_⟩
    exact (h.sent i hi).1.trans (mem_range'_1.1 hj).1
  · intro i hi hne
    rw [hids, mem_append, mem_range'_1]
    by_cases hlt : i < done
    · exact Or.inl (h.complete i hlt hne)
    · exact Or.inr ⟨by omega, hi⟩
  · intro hne
    exact ⟨log, [], by rw [hhl hne], rfl⟩
  · intro i
    rw [hids, count_append]
    by_cases hi : i ∈ List.range' done k
    · have := h.count_queued i (mem_range'_1.1 hi).1
      have := hcn i
      omega
    · rw [hzr i hi]
      exact h.count i
  · intro i hi
    rw [hids, count_append, hzr i (fun hmem => by have := mem_range'_1.1 hmem; omega)]
    exact h.count_queued i (by omega)
  · intro i hi
    rw [hids, count_append]
    by_cases hmem : i ∈ List.range' done k
    · rcases hone with hone | hone
      · have hnot := h.not_mem (mem_range'_1.1 hmem).1 (hone i hmem)
        rw [count_eq_zero.2 hnot]
        have := hcn i
        omega
      · exact absurd hmem (hone i hi)
    · rw [hzr i hmem]
      exact h.once i hi

theorem release (h : Logged asked log held done retry_count) :
    Logged asked log [] done retry_count :=
  { h with
    sent := fun i hi => ⟨(h.sent i hi).1, fun hdn => ⟨rfl, ((h.sent i hi).2 hdn).2⟩⟩
    tail := fun hne => absurd rfl hne }

theorem retry (h : Logged asked log held done retry_count) {retry_count' : ℕ}
    (hle : retry_count ≤ retry_count') : Logged asked log held done retry_count' :=
  { h with
    count := fun i => (h.count i).trans (by omega)
    count_queued := fun i hi => (h.count_queued i hi).trans (by omega) }

theorem comeBack (h : Logged asked log [done] (done + 1) retry_count)
    (hhn : (handleOf asked done).isSome) (hlt : retry_count + 1 < 3) :
    Logged asked log [] done (retry_count + 1) where
  sent i hi := by
    obtain ⟨hle, heq⟩ := h.sent i hi
    refine ⟨?_, fun hi' => ⟨rfl, hi' ▸ hhn⟩⟩
    by_contra hgt
    have hnil := (heq (by omega)).1
    cases hnil
  sorted := h.sorted
  complete i hi hne := h.complete i (by omega) hne
  tail hne := absurd rfl hne
  count i := (h.count i).trans (by omega)
  count_queued i _ := (h.count i).trans (by omega)
  once := h.once

end Logged

namespace Settled

variable {asked : List (Asked C H)} {finished : List ℕ} {called : List C}
  {answers : List (ℕ × AckNack)} {retry_count : ℕ}

theorem append (h : Settled asked finished called answers retry_count)
    (hlt : ∀ i ∈ finished, i < asked.length) (a : Asked C H) :
    Settled (asked ++ [a]) finished called answers retry_count where
  called := by rw [h.called, filterMap_callbackOf_append a hlt]
  retries := h.retries
  acked := h.acked
  finished i hi := by
    rw [handleOf_append a (hlt i hi), bytesOf_append a (hlt i hi)]
    exact h.finished i hi

theorem complete (h : Settled asked finished called answers retry_count) {ids : List ℕ}
    (hids : ∀ i ∈ ids, (handleOf asked i).isSome → bytesOf asked i ≠ [] →
      (i, .ack) ∈ answers ∨ GivenUp answers i) :
    Settled asked (finished ++ ids) (called ++ ids.filterMap (callbackOf asked)) answers
      retry_count where
  called := by rw [h.called, filterMap_append]
  retries := h.retries
  acked i hi := mem_append_left _ (h.acked i hi)
  finished i hi hhn hne := by
    rcases mem_append.1 hi with hi | hi
    · exact h.finished i hi hhn hne
    · exact hids i hi hhn hne

theorem nack (h : Settled asked finished called answers retry_count) (i : ℕ) :
    Settled asked finished called (answers ++ [(i, .nack)]) (retry_count + 1) where
  called := h.called
  retries := by
    rw [nacks_append, h.retries]
    rfl
  acked j hj := by
    rcases mem_append.1 hj with hj | hj
    · exact h.acked j hj
    · simp at hj
  finished j hj hhn hne := by
    rcases h.finished j hj hhn hne with hack | hgv
    · exact Or.inl (mem_append_left _ hack)
    · exact Or.inr (hgv.append _)

theorem ack (h : Settled asked finished called answers retry_count) (i : ℕ) :
    Settled asked (finished ++ [i]) (called ++ [i].filterMap (callbackOf asked))
      (answers ++ [(i, .ack)]) retry_count where
  called := by rw [h.called, filterMap_append]
  retries := by
    rw [nacks_append, h.retries]
    rfl
  acked j hj := by
    rcases mem_append.1 hj with hj | hj
    · exact mem_append_left _ (h.acked j hj)
    · simp only [mem_singleton, Prod.mk.injEq, and_true] at hj
      exact mem_append_right _ (mem_singleton.2 hj)
  finished j hj hhn hne := by
    rcases mem_append.1 hj with hj | hj
    · rcases h.finished j hj hhn hne with hack | hgv
      · exact Or.inl (mem_append_left _ hack)
      · exact Or.inr (hgv.append _)
    · rw [mem_singleton] at hj
      exact Or.inl (by simp [hj])

end Settled

namespace SendQueue.Inv

variable {s : SendQueue C H} {first item : SendHandle C H} {rest : List (SendHandle C H)}

theorem held_of_none (hw : s.waiting_for_ack = none) : s.held = [] := by
  rw [held, hw]
  rfl

theorem held_of_some (hw : s.waiting_for_ack = some item) : s.held = item.messages := by
  rw [held, hw]
  rfl

theorem done_range (h : Inv s) : s.history.finished ++ s.held = List.range s.done :=
  (eq_range_of_append_eq_range h.order).1

theorem lt_asked (h : Inv s) {i : ℕ}
    (hi : i ∈ s.history.finished ++ s.held ++ s.queue.flatMap SendHandle.messages) :
    i < s.history.asked.length := by
  rw [h.order] at hi
  exact mem_range.1 hi

theorem first_range (h : Inv s) (hq : s.queue = first :: rest) :
    first.messages = List.range' s.done first.messages.length := by
  have hor := h.order
  rw [hq, flatMap_cons, ← append_assoc] at hor
  have hfr := (eq_range_of_append_eq_range hor).1
  obtain ⟨-, hms⟩ := eq_range_of_append_eq_range hfr
  exact hms

theorem part_rest (h : Inv s) (hq : s.queue = first :: rest) :
    (rest.head?.elim [] fun item => item.data.take item.cursor) = [] := by
  cases rest with
  | nil => rfl
  | cons item rest =>
    have hcr := (h.first first _ hq).2 item mem_cons_self
    simp [hcr]

theorem made_first (h : Inv s) (hq : s.queue = first :: rest) :
    first.Made s.mode s.history.asked :=
  h.items first (by rw [hq]; exact mem_cons_self)

theorem made_rest (h : Inv s) (hq : s.queue = first :: rest) :
    ∀ item ∈ rest, item.Made s.mode s.history.asked := by
  intro item him
  exact h.items item (by rw [hq]; exact mem_cons_of_mem _ him)

theorem cursor_rest (h : Inv s) (hq : s.queue = first :: rest) :
    ∀ item ∈ rest, item.cursor = 0 :=
  (h.first first rest hq).2

theorem first_of_zero {queue : List (SendHandle C H)} (h : ∀ item ∈ queue, item.cursor = 0) :
    ∀ first rest, queue = first :: rest →
      (first.cursor ≠ 0 → first.cursor < first.data.length) ∧ ∀ item ∈ rest, item.cursor = 0 := by
  rintro first rest rfl
  exact ⟨fun hne => absurd (h first mem_cons_self) hne,
    fun item him => h item (mem_cons_of_mem _ him)⟩

/-! ## Moves of the queue -/

theorem socketClosed (h : Inv s) : Inv s.socketClosed :=
  { h with later := by simp [SendQueue.socketClosed] }

theorem closeSocket (h : Inv s) (is_deinit : Bool) : Inv (s.closeSocket is_deinit) := by
  rw [SendQueue.closeSocket]
  split_ifs
  · exact { h with }
  · exact h.socketClosed

/-- An item without bytes goes. -/
theorem removeEmpty (h : Inv s) (hq : s.queue = first :: rest) (hpr : ¬ s.write_in_progress)
    (hw : s.waiting_for_ack.isSome → first.isAckNack)
    (hem : (first.data.drop first.cursor).length = 0) :
    Inv ({ s with queue := rest }.complete first) := by
  have hmd := h.made_first hq
  have hzr : first.cursor = 0 := by
    by_contra hne
    have := (h.first first rest hq).1 hne
    rw [length_drop] at hem
    omega
  have hnil : first.data = [] := by
    rw [hzr, drop_zero, length_eq_zero_iff] at hem
    exact hem
  have hack : ¬ first.isAckNack := fun hack => hmd.data_ne_nil hack hnil
  have hwt : s.waiting_for_ack = none := by
    rw [← not_isSome_iff_eq_none]
    exact fun hsm => hack (hw hsm)
  have hhl : s.held = [] := held_of_none hwt
  have hby : ∀ i ∈ first.messages, bytesOf s.history.asked i = [] := by
    have hdt := hmd.data hack
    rw [hnil, eq_comm, flatMap_eq_nil_iff] at hdt
    exact hdt
  have hlog := h.logged
  rw [hhl] at hlog
  have hsk := hlog.skip (length_pos_iff.2 (hmd.messages hack))
    (by rw [← h.first_range hq]; exact hby)
  have hst := h.settled.complete fun i hi _ hne => absurd (hby i hi) hne
  exact {
    h with
    items := h.made_rest hq
    order := by
      have hor := h.order
      rw [hq, hhl, flatMap_cons, append_nil] at hor
      change s.history.finished ++ first.messages ++ s.held ++ rest.flatMap SendHandle.messages =
        List.range s.history.asked.length
      rw [← hor, hhl, append_nil, append_assoc]
    first := first_of_zero (h.cursor_rest hq)
    still := fun _ item him _ => h.cursor_rest hq item him
    writing := fun hpr' => absurd hpr' hpr
    later := fun n hn => absurd (h.later n hn).1 hpr
    wire := by
      have hpt : s.part = [] := by
        rw [part, hq]
        simp [hzr]
      have hwr := h.wire
      change s.history.wire = s.history.log.flatMap (Transmission.bytes s.history.asked) ++
        rest.head?.elim [] fun item => item.data.take item.cursor
      rw [h.part_rest hq, hwr, hpt]
    logged := by
      change Logged s.history.asked s.history.log s.held
        (s.history.finished ++ first.messages ++ s.held).length s.retry_count
      rw [done, hhl] at hsk
      rw [hhl]
      simpa [Nat.add_comm, Nat.add_left_comm] using hsk
    settled := by
      rw [← hmd.callbacks] at hst
      exact hst }

/-- What an item puts on the wire. -/
def transmission (item : SendHandle C H) : Transmission :=
  if item.isAckNack then .packet item.data else .messages item.messages

theorem wire_transmit (h : Inv s) (hq : s.queue = first :: rest) :
    s.history.wire ++ (first.data.drop first.cursor).take (first.data.drop first.cursor).length =
      (s.history.log ++ [transmission first]).flatMap (Transmission.bytes s.history.asked) ++
        rest.head?.elim [] fun item => item.data.take item.cursor := by
  have hpr : s.part = first.data.take first.cursor := by
    rw [part, hq]
    rfl
  have hby : (transmission first).bytes s.history.asked = first.data :=
    (h.made_first hq).transmission.2
  rw [h.part_rest hq, h.wire, hpr, take_length, append_assoc, take_append_drop,
    List.flatMap_append, flatMap_singleton, hby, append_nil]

theorem packets_transmit (h : Inv s) (hq : s.queue = first :: rest) (packet : List UInt8)
    (hp : .packet packet ∈ s.history.log ++ [transmission first]) :
    packet = getAckPacket s.mode ∨ packet = getNackPacket s.mode := by
  rcases mem_append.1 hp with hp | hp
  · exact h.packets packet hp
  · rw [mem_singleton, transmission] at hp
    split_ifs at hp with hack
    cases hp
    exact ((h.made_first hq).packet hack).2.2

/-- An item without a handle has been written. -/
theorem transmit (h : Inv s) (hq : s.queue = first :: rest)
    (hw : s.waiting_for_ack.isSome → first.isAckNack) (hlt : s.windows_write = none)
    (hhn : first.handle = none) :
    Inv ((({ s with write_in_progress := false, queue := rest }.took first
      (first.data.drop first.cursor).length).transmitted first).complete first) := by
  have hmd := h.made_first hq
  have hno : ∀ i ∈ first.messages, handleOf s.history.asked i = none := by
    intro i hi
    rw [hmd.handle i hi, hhn]
  have hst := h.settled.complete fun i hi hsm _ => by
    rw [hno i hi] at hsm
    cases hsm
  have hlg : Logged s.history.asked (s.history.log ++ [transmission first]) s.held
      (s.history.finished ++ first.messages ++ s.held).length s.retry_count := by
    rw [transmission]
    split_ifs with hack
    · rw [(hmd.packet hack).1, append_nil]
      exact h.logged.packet _
    · have hhl : s.held = [] := by
        refine held_of_none ?_
        rw [← not_isSome_iff_eq_none]
        exact fun hsm => hack (hw hsm)
      have hlog := h.logged
      rw [hhl] at hlog ⊢
      have hnx := hlog.transmit (length_pos_iff.2 (hmd.messages hack)) []
        (fun hne => absurd rfl hne) (Or.inl (by rw [← h.first_range hq]; exact hno))
      rw [← h.first_range hq] at hnx
      rw [done, hhl] at hnx
      simpa using hnx
  have hmv : first.messages ++ s.held = s.held ++ first.messages := by
    by_cases hack : first.isAckNack
    · rw [(hmd.packet hack).1, append_nil, nil_append]
    · have hhl : s.held = [] := by
        refine held_of_none ?_
        rw [← not_isSome_iff_eq_none]
        exact fun hsm => hack (hw hsm)
      rw [hhl, append_nil, nil_append]
  exact {
    h with
    items := h.made_rest hq
    order := by
      have hor := h.order
      rw [hq, flatMap_cons] at hor
      change s.history.finished ++ first.messages ++ s.held ++ rest.flatMap SendHandle.messages =
        List.range s.history.asked.length
      rw [← hor, append_assoc s.history.finished, hmv]
      simp only [append_assoc]
    first := first_of_zero (h.cursor_rest hq)
    still := fun _ item him _ => h.cursor_rest hq item him
    writing := fun hpr => by cases hpr
    later := fun n hn => by
      have hn : s.windows_write = some n := hn
      rw [hlt] at hn
      cases hn
    wire := h.wire_transmit hq
    packets := h.packets_transmit hq
    logged := hlg
    settled := by
      rw [← hmd.callbacks] at hst
      exact hst }

/-- An item with a handle has been written, and waits for an answer. -/
theorem await (h : Inv s) (hq : s.queue = first :: rest)
    (hw : s.waiting_for_ack.isSome → first.isAckNack) (hlt : s.windows_write = none)
    (hhn : first.handle.isSome) :
    Inv { ({ s with write_in_progress := false, queue := rest }.took first
      (first.data.drop first.cursor).length).transmitted first with
        waiting_for_ack := some first } := by
  have hmd := h.made_first hq
  have hack := hmd.not_isAckNack hhn
  have hhl : s.held = [] := by
    refine held_of_none ?_
    rw [← not_isSome_iff_eq_none]
    exact fun hsm => hack (hw hsm)
  have hrn := h.first_range hq
  have hsm : ∀ i ∈ first.messages, (handleOf s.history.asked i).isSome := by
    intro i hi
    rw [hmd.handle i hi]
    exact hhn
  have hlg : Logged s.history.asked (s.history.log ++ [transmission first]) first.messages
      (s.history.finished ++ first.messages).length s.retry_count := by
    have hlog := h.logged
    rw [hhl] at hlog
    have hnx := hlog.transmit (length_pos_iff.2 (hmd.messages hack))
      first.messages (fun _ => hrn) (Or.inr (by
        intro i hi hmem
        rw [← hrn] at hmem
        have := hsm i hmem
        rw [hi] at this
        cases this))
    rw [← hrn, done, hhl] at hnx
    rw [transmission, if_neg hack]
    simpa using hnx
  exact {
    h with
    items := h.made_rest hq
    waiting := by
      intro item him
      have him : some first = some item := him
      cases him
      exact ⟨hhn, hmd⟩
    order := by
      have hor := h.order
      rw [hq, hhl, flatMap_cons, append_nil, ← append_assoc] at hor
      exact hor
    first := first_of_zero (h.cursor_rest hq)
    still := fun _ item him _ => h.cursor_rest hq item him
    writing := fun hpr => by cases hpr
    later := fun n hn => by
      have hn : s.windows_write = some n := hn
      rw [hlt] at hn
      cases hn
    wire := h.wire_transmit hq
    packets := h.packets_transmit hq
    logged := hlg }

/-- A part of the first item has been written. -/
theorem advance (h : Inv s) (hq : s.queue = first :: rest)
    (hw : s.waiting_for_ack.isSome → first.isAckNack) (hlt : s.windows_write = none) {n : ℕ}
    (hn : n < (first.data.drop first.cursor).length) :
    Inv { { s with write_in_progress := false, queue := first :: rest }.took first n with
      queue := { first with cursor := first.cursor + n } :: rest } := by
  rw [length_drop] at hn
  have hmd := h.made_first hq
  exact {
    h with
    items := by
      intro item him
      rcases mem_cons.1 him with rfl | him
      · exact { hmd with }
      · exact h.made_rest hq item him
    order := by
      have hor := h.order
      rw [hq] at hor
      exact hor
    first := by
      intro first' rest' hq'
      cases hq'
      exact ⟨fun _ => by dsimp only; omega, h.cursor_rest hq⟩
    still := by
      intro hsm item him hack
      rcases mem_cons.1 him with rfl | him
      · exact absurd (hw hsm) hack
      · exact h.cursor_rest hq item him
    writing := fun hpr => by cases hpr
    later := fun n hn => by
      have hn : s.windows_write = some n := hn
      rw [hlt] at hn
      cases hn
    wire := by
      have hpt : s.part = first.data.take first.cursor := by
        rw [part, hq]
        rfl
      change s.history.wire ++ (first.data.drop first.cursor).take n =
        s.history.log.flatMap (Transmission.bytes s.history.asked) ++
          first.data.take (first.cursor + n)
      rw [h.wire, hpt, append_assoc, take_add] }

theorem not_writing_of_nil (h : Inv s) (hq : s.queue = []) : ¬ s.write_in_progress := by
  intro hpr
  obtain ⟨first, rest, hq', -⟩ := h.writing hpr
  rw [hq] at hq'
  cases hq'

theorem cursor_zero (h : Inv s) (hq : s.queue = first :: rest) (hzr : first.cursor = 0) :
    ∀ item ∈ s.queue, item.cursor = 0 := by
  intro item him
  rw [hq] at him
  rcases mem_cons.1 him with rfl | him
  · exact hzr
  · exact h.cursor_rest hq item him

theorem part_of_zero (h : ∀ item ∈ s.queue, item.cursor = 0) : s.part = [] := by
  rw [part]
  cases hq : s.queue with
  | nil => rfl
  | cons first rest =>
    have hzr := h first (by rw [hq]; exact mem_cons_self)
    simp [hzr]

/-- A reply goes to the front while nothing is being written. -/
theorem prepend (h : Inv s) (hmd : item.Made s.mode s.history.asked) (hzr : item.cursor = 0)
    (hack : item.isAckNack) (hcr : ∀ item ∈ s.queue, item.cursor = 0)
    (hpr : ¬ s.write_in_progress) : Inv { s with queue := item :: s.queue } :=
  { h with
    items := by
      intro other hot
      rcases mem_cons.1 hot with rfl | hot
      · exact hmd
      · exact h.items other hot
    order := by
      have hor := h.order
      change s.history.finished ++ s.held ++ (item :: s.queue).flatMap SendHandle.messages =
        List.range s.history.asked.length
      rw [flatMap_cons, (hmd.packet hack).1, nil_append]
      exact hor
    first := by
      intro first rest hq
      cases hq
      exact ⟨fun hne => absurd hzr hne, hcr⟩
    still := by
      intro _ other hot hnot
      rcases mem_cons.1 hot with rfl | hot
      · exact hzr
      · exact hcr other hot
    writing := fun hpr' => absurd hpr' hpr
    later := fun n hn => absurd (h.later n hn).1 hpr
    wire := by
      have hwr := h.wire
      rw [part_of_zero hcr] at hwr
      change s.history.wire = s.history.log.flatMap (Transmission.bytes s.history.asked) ++
        item.data.take item.cursor
      rw [hzr, take_zero, hwr] }

/-- An answer to the other side is put behind the first item. -/
theorem putSecond (h : Inv s) (hq : s.queue = first :: rest)
    (hmd : item.Made s.mode s.history.asked) (hzr : item.cursor = 0) (hack : item.isAckNack) :
    Inv { s with queue := first :: item :: rest } :=
  { h with
    items := by
      intro other hot
      rcases mem_cons.1 hot with rfl | hot
      · exact h.made_first hq
      rcases mem_cons.1 hot with rfl | hot
      · exact hmd
      · exact h.made_rest hq other hot
    order := by
      have hor := h.order
      rw [hq] at hor
      change s.history.finished ++ s.held ++
        (first :: item :: rest).flatMap SendHandle.messages = List.range s.history.asked.length
      rw [flatMap_cons, flatMap_cons, (hmd.packet hack).1, nil_append,
        ← flatMap_cons]
      exact hor
    first := by
      intro first' rest' hq'
      cases hq'
      refine ⟨(h.first first rest hq).1, fun other hot => ?_⟩
      rcases mem_cons.1 hot with rfl | hot
      · exact hzr
      · exact h.cursor_rest hq other hot
    still := by
      intro hsm other hot hnot
      rcases mem_cons.1 hot with rfl | hot
      · exact h.still hsm other (by rw [hq]; exact mem_cons_self) hnot
      rcases mem_cons.1 hot with rfl | hot
      · exact hzr
      · exact h.cursor_rest hq other hot
    writing := by
      intro hpr
      obtain ⟨first', rest', hq', hfr⟩ := h.writing hpr
      rw [hq] at hq'
      cases hq'
      exact ⟨first, item :: rest, rfl, hfr⟩
    later := by
      intro n hn
      obtain ⟨hpr, first', rest', hq', hle⟩ := h.later n hn
      rw [hq] at hq'
      cases hq'
      exact ⟨hpr, first, item :: rest, rfl, hle⟩
    wire := by
      have hwr := h.wire
      rw [part, hq] at hwr
      exact hwr }

theorem insertMessage (env : Env V) (h : Inv s) (hvr : s.has_written_version)
    (hmd : item.Made s.mode s.history.asked) (hzr : item.cursor = 0) (hack : item.isAckNack) :
    Ends (Onward s) (· ≠ .assertion) (s.insertMessage env item) := by
  rw [SendQueue.insertMessage, if_neg (by rw [hvr]; simp)]
  split
  · next hq =>
    rw [if_neg (h.not_writing_of_nil hq)]
    have hnx := h.prepend hmd hzr hack (by rw [hq]; simp) (h.not_writing_of_nil hq)
    rw [hq] at hnx
    exact ⟨hnx, rfl, rfl, rfl⟩
  · next first rest hq =>
    split_ifs with hst har
    · rw [← hq]
      exact ⟨h.prepend hmd hzr hack (h.cursor_zero hq hst.1) hst.2, rfl, rfl, rfl⟩
    · exact Crash.noConfusion
    · exact ⟨h.putSecond hq hmd hzr hack, rfl, rfl, rfl⟩

theorem insertMessage_of_waiting (env : Env V) (h : Inv s) (hw : s.waiting_for_ack.isSome)
    {t : SendQueue C H} (hqu : t.queue = s.queue)
    (hpr : t.write_in_progress = s.write_in_progress)
    (hvr : t.has_written_version) (message : SendHandle C H) :
    t.insertMessage env message = .ok { t with queue := message :: s.queue } ∧
        (∀ item ∈ s.queue, item.cursor = 0) ∧ ¬ s.write_in_progress ∨
      ∃ first rest, s.queue = first :: rest ∧ first.isAckNack ∧
        t.insertMessage env message = .ok { t with queue := first :: message :: rest } := by
  rw [SendQueue.insertMessage, hpr, hqu, if_neg (by rw [hvr]; simp)]
  split
  · next hq =>
    rw [if_neg (h.not_writing_of_nil hq)]
    exact Or.inl ⟨by rw [hq], by simp [hq], h.not_writing_of_nil hq⟩
  · next first rest hq =>
    by_cases hst : first.cursor = 0 ∧ ¬ s.write_in_progress
    · rw [if_pos hst]
      exact Or.inl ⟨by rw [hq], h.cursor_zero hq hst.1, hst.2⟩
    · have hack : first.isAckNack := by
        by_contra hnot
        have hzr := h.still hw first (by rw [hq]; exact mem_cons_self) hnot
        refine hst ⟨hzr, fun hpr => ?_⟩
        obtain ⟨first', rest', hq', hfr, -⟩ := h.writing hpr
        rw [hq] at hq'
        cases hq'
        exact hnot (hfr hw)
      rw [if_neg hst, if_neg (by simp [hack])]
      exact Or.inr ⟨first, rest, hq, hack, rfl⟩

/-- The message that waits has a NACK and comes back. -/
theorem comeBack (env : Env V) (h : Inv s) (hvr : s.has_written_version)
    (hw : s.waiting_for_ack = some item) (hlt : s.retry_count + 1 < 3) :
    ∃ t, { s.answered item .nack with retry_count := s.retry_count + 1 }.insertMessage env
        { item with cursor := 0 } = .ok t ∧ Onward s { t with waiting_for_ack := none } := by
  obtain ⟨hhn, hmd⟩ := h.waiting item hw
  have hhl : s.held = item.messages := held_of_some hw
  obtain ⟨i, hi⟩ := hmd.single hhn
  have hdn : s.done = i + 1 ∧ s.history.finished.length = i := by
    have hor := h.order
    rw [hhl, hi] at hor
    have hrn := (eq_range_of_append_eq_range hor).1
    have hi' := (eq_range_of_append_eq_range (n := (s.history.finished ++ [i]).length) hrn).2
    rw [length_singleton, range'_one, List.cons.injEq] at hi'
    rw [done, hhl, hi, length_append]
    exact ⟨by simp [hi'.1], hi'.1.symm⟩
  have hsm : (handleOf s.history.asked i).isSome := by
    rw [hmd.handle i (by rw [hi]; exact mem_singleton_self i)]
    exact hhn
  have hlg : Logged s.history.asked s.history.log []
      (s.history.finished ++ []).length (s.retry_count + 1) := by
    have hlog := h.logged
    rw [hhl, hi, hdn.1] at hlog
    rw [append_nil, hdn.2]
    exact hlog.comeBack hsm hlt
  have hst : Settled s.history.asked s.history.finished s.history.called
      (s.history.answers ++ item.messages.map (·, .nack)) (s.retry_count + 1) := by
    rw [hi]
    exact h.settled.nack i
  have hbc : { item with cursor := 0 }.Made s.mode s.history.asked := { hmd with }
  have hnot := hmd.not_isAckNack hhn
  rcases h.insertMessage_of_waiting env (by rw [hw]; rfl)
      (t := { s.answered item .nack with retry_count := s.retry_count + 1 }) rfl rfl hvr
      { item with cursor := 0 } with
    ⟨hin, hzr, hpr⟩ | ⟨first, rest, hq, hack, hin⟩
  · refine ⟨_, hin, ⟨{
      h with
      items := ?_
      waiting := fun other hot => by cases hot
      order := ?_
      first := ?_
      still := fun hsm => by cases hsm
      writing := fun hpr' => absurd hpr' hpr
      later := fun n hn => absurd (h.later n hn).1 hpr
      wire := ?_
      logged := hlg
      settled := hst }, rfl, rfl, rfl⟩⟩
    · intro other hot
      rcases mem_cons.1 hot with rfl | hot
      · exact hbc
      · exact h.items other hot
    · have hor := h.order
      rw [hhl] at hor
      change s.history.finished ++ [] ++ (item.messages ++ s.queue.flatMap SendHandle.messages) =
        List.range s.history.asked.length
      rw [append_nil, ← append_assoc]
      exact hor
    · intro first rest hq
      cases hq
      exact ⟨fun hne => absurd rfl hne, hzr⟩
    · have hwr := h.wire
      rw [part_of_zero hzr] at hwr
      exact hwr
  · refine ⟨_, hin, ⟨{
      h with
      items := ?_
      waiting := fun other hot => by cases hot
      order := ?_
      first := ?_
      still := fun hsm => by cases hsm
      writing := ?_
      later := ?_
      wire := ?_
      logged := hlg
      settled := hst }, rfl, rfl, rfl⟩⟩
    · intro other hot
      rcases mem_cons.1 hot with rfl | hot
      · exact h.made_first hq
      rcases mem_cons.1 hot with rfl | hot
      · exact hbc
      · exact h.made_rest hq other hot
    · have hor := h.order
      have hfr := ((h.made_first hq).packet hack).1
      rw [hhl, hq, flatMap_cons, hfr, nil_append] at hor
      change s.history.finished ++ [] ++
        (first.messages ++ (item.messages ++ rest.flatMap SendHandle.messages)) =
          List.range s.history.asked.length
      rw [append_nil, hfr, nil_append, ← append_assoc]
      exact hor
    · intro first' rest' hq'
      cases hq'
      refine ⟨(h.first first rest hq).1, fun other hot => ?_⟩
      rcases mem_cons.1 hot with rfl | hot
      · rfl
      · exact h.cursor_rest hq other hot
    · intro hpr
      obtain ⟨first', rest', hq', -, hlt'⟩ := h.writing hpr
      rw [hq] at hq'
      cases hq'
      exact ⟨first, _, rfl, fun hsm => (by cases hsm), hlt'⟩
    · intro n hn
      obtain ⟨hpr, first', rest', hq', hle⟩ := h.later n hn
      rw [hq] at hq'
      cases hq'
      exact ⟨hpr, first, _, rfl, hle⟩
    · have hwr := h.wire
      rw [part, hq] at hwr
      exact hwr

/-- An item that waited has been answered. -/
theorem finish (h : Inv s) (hw : s.waiting_for_ack = some item) (answers : List (ℕ × AckNack))
    {retry_count : ℕ} (hle : s.retry_count ≤ retry_count)
    (hst : Settled s.history.asked (s.history.finished ++ item.messages)
      (s.history.called ++ item.callbacks.callNextTick) answers retry_count) :
    Inv { s with
      retry_count := retry_count
      waiting_for_ack := none
      history := { s.history with
        answers := answers
        finished := s.history.finished ++ item.messages
        called := s.history.called ++ item.callbacks.callNextTick } } := by
  have hhl : s.held = item.messages := held_of_some hw
  exact {
    h with
    waiting := fun other hot => by cases hot
    order := by
      have hor := h.order
      rw [hhl] at hor
      change s.history.finished ++ item.messages ++ [] ++ s.queue.flatMap SendHandle.messages =
        List.range s.history.asked.length
      rw [append_nil]
      exact hor
    still := fun hsm => by cases hsm
    writing := by
      intro hpr
      obtain ⟨first, rest, hq, -, hlt⟩ := h.writing hpr
      exact ⟨first, rest, hq, fun hsm => (by cases hsm), hlt⟩
    logged := by
      change Logged s.history.asked s.history.log []
        (s.history.finished ++ item.messages ++ []).length retry_count
      have hlog := (h.logged.retry hle).release
      rw [done, hhl] at hlog
      rw [append_nil]
      exact hlog
    settled := hst }

/-! ## Messages that are asked for -/

theorem lt_asked_of_sent (h : Inv s) {i : ℕ} (hi : i ∈ sentIds s.history.log) :
    i < s.history.asked.length := by
  by_contra hge
  obtain ⟨hle, heq⟩ := h.logged.sent i hi
  have hdn : s.done ≤ s.history.asked.length := by
    have hlen := congrArg List.length h.order
    rw [length_append, length_range] at hlen
    rw [done]
    omega
  have hsm := (heq (by omega)).2
  rw [handleOf, getElem?_eq_none (by omega)] at hsm
  cases hsm

theorem log_bytes_append (h : Inv s) (a : Asked C H) :
    s.history.log.flatMap (Transmission.bytes (s.history.asked ++ [a])) =
      s.history.log.flatMap (Transmission.bytes s.history.asked) := by
  refine flatMap_congr fun t ht => ?_
  cases t with
  | packet p => rfl
  | messages is =>
    refine flatMap_bytesOf_append a fun i hi => h.lt_asked_of_sent ?_
    rw [sentIds, mem_flatMap]
    exact ⟨_, ht, hi⟩

theorem made_append (h : Inv s) (a : Asked C H) :
    ∀ item ∈ s.queue, item.Made s.mode (s.history.asked ++ [a]) := by
  intro item him
  refine (h.items item him).append (fun i hi => h.lt_asked ?_) a
  exact mem_append_right _ (mem_flatMap.2 ⟨item, him, hi⟩)

theorem waiting_append (h : Inv s) (a : Asked C H) (item : SendHandle C H)
    (hw : s.waiting_for_ack = some item) :
    item.handle.isSome ∧ item.Made s.mode (s.history.asked ++ [a]) := by
  obtain ⟨hhn, hmd⟩ := h.waiting item hw
  refine ⟨hhn, hmd.append (fun i hi => h.lt_asked ?_) a⟩
  rw [held_of_some hw]
  exact mem_append_left _ (mem_append_right _ hi)

theorem logged_append (h : Inv s) (a : Asked C H) :
    Logged (s.history.asked ++ [a]) s.history.log s.held s.done s.retry_count := by
  refine h.logged.append ?_ a
  have hlen := congrArg List.length h.order
  rw [length_append, length_range] at hlen
  rw [done]
  omega

theorem settled_append (h : Inv s) (a : Asked C H) :
    Settled (s.history.asked ++ [a]) s.history.finished s.history.called s.history.answers
      s.retry_count := by
  refine h.settled.append (fun i hi => h.lt_asked ?_) a
  exact mem_append_left _ (mem_append_left _ hi)

theorem bytes_append (h : Inv s) {a : Asked C H} (ha : a.bytes ≠ some []) :
    ∀ b ∈ s.history.asked ++ [a], b.bytes ≠ some [] := by
  intro b hb
  rcases mem_append.1 hb with hb | hb
  · exact h.bytes b hb
  · rw [mem_singleton.1 hb]
    exact ha

theorem order_append (h : Inv s) :
    s.history.finished ++ s.held ++
        (s.queue.flatMap SendHandle.messages ++ [s.history.asked.length]) =
      List.range (s.history.asked.length + 1) := by
  rw [range_succ, ← append_assoc, h.order]

/-- A message with an item of its own. -/
theorem askFresh (h : Inv s) {a : Asked C H} (ha : a.bytes ≠ some []) :
    Inv { s.asks a with queue := s.queue ++
      [⟨a.bytes.getD [], 0, a.handle, .init a.callback, [s.history.asked.length]⟩] } := by
  set fresh : SendHandle C H :=
    ⟨a.bytes.getD [], 0, a.handle, .init a.callback, [s.history.asked.length]⟩ with hfr
  have hnot : ¬ fresh.isAckNack := by
    rw [hfr, SendHandle.isAckNack]
    cases a.callback <;> simp [CallbackList.init]
  have hmd : fresh.Made s.mode (s.history.asked ++ [a]) := {
    packet := fun hack => absurd hack hnot
    data := fun _ => by simp [hfr]
    messages := fun _ => by simp [hfr]
    callbacks := by
      rw [hfr]
      cases hcl : a.callback <;> simp [CallbackList.init, CallbackList.callNextTick, hcl]
    handle := by simp [hfr]
    single := fun _ => ⟨_, rfl⟩ }
  exact {
    h with
    bytes := h.bytes_append ha
    items := by
      intro item him
      rcases mem_append.1 him with him | him
      · exact h.made_append a item him
      · rw [mem_singleton.1 him]
        exact hmd
    waiting := h.waiting_append a
    order := by
      change s.history.finished ++ s.held ++ (s.queue ++ [fresh]).flatMap SendHandle.messages =
        List.range (s.history.asked ++ [a]).length
      rw [List.flatMap_append, flatMap_singleton, length_append, length_singleton]
      exact h.order_append
    first := by
      intro first rest hq
      have hq : s.queue ++ [fresh] = first :: rest := hq
      cases hqu : s.queue with
      | nil =>
        rw [hqu] at hq
        cases hq
        exact ⟨fun hne => absurd rfl hne, by simp⟩
      | cons first' rest' =>
        rw [hqu] at hq
        cases hq
        refine ⟨(h.first first rest' hqu).1, fun item him => ?_⟩
        rcases mem_append.1 him with him | him
        · exact h.cursor_rest hqu item him
        · rw [mem_singleton.1 him]
    still := by
      intro hsm item him hack
      rcases mem_append.1 him with him | him
      · exact h.still hsm item him hack
      · rw [mem_singleton.1 him]
    writing := by
      intro hpr
      obtain ⟨first, rest, hq, hfs⟩ := h.writing hpr
      refine ⟨first, rest ++ [fresh], ?_, hfs⟩
      change s.queue ++ [fresh] = _
      rw [hq, cons_append]
    later := by
      intro n hn
      obtain ⟨hpr, first, rest, hq, hle⟩ := h.later n hn
      refine ⟨hpr, first, rest ++ [fresh], ?_, hle⟩
      change s.queue ++ [fresh] = _
      rw [hq, cons_append]
    wire := by
      have hpt : ((s.queue ++ [fresh]).head?.elim [] fun item => item.data.take item.cursor) =
          s.part := by
        rw [part]
        cases s.queue with
        | nil => rfl
        | cons first rest => rfl
      change s.history.wire = s.history.log.flatMap (Transmission.bytes (s.history.asked ++ [a])) ++
        (s.queue ++ [fresh]).head?.elim [] fun item => item.data.take item.cursor
      rw [hpt, h.log_bytes_append a, h.wire]
    logged := h.logged_append a
    settled := h.settled_append a }

/-- A message that is put to the last item. -/
theorem askLast (h : Inv s) {front : List (SendHandle C H)} {last : SendHandle C H}
    (hq : s.queue = front ++ [last]) (hhn : last.handle = none) (hack : ¬ last.isAckNack)
    {a : Asked C H} (ha : a.bytes ≠ some []) (hno : a.handle = none)
    {callbacks : CallbackList C} (hnot : callbacks ≠ .ack_nack)
    (hcl : callbacks.callNextTick = last.callbacks.callNextTick ++ a.callback.toList) :
    Inv { s.asks a with queue := front ++
      [{ last with
        data := last.data ++ a.bytes.getD []
        callbacks := callbacks
        messages := last.messages ++ [s.history.asked.length] }] } := by
  have hls : last ∈ s.queue := by
    rw [hq]
    exact mem_append_right _ (mem_singleton_self last)
  have hmd := h.made_append a last hls
  set last' : SendHandle C H := { last with
    data := last.data ++ a.bytes.getD []
    callbacks := callbacks
    messages := last.messages ++ [s.history.asked.length] } with hls'
  have hnot' : ¬ last'.isAckNack := hnot
  have hmd' : last'.Made s.mode (s.history.asked ++ [a]) := {
    packet := fun hack' => absurd hack' hnot'
    data := fun _ => by
      rw [hls']
      simp only [List.flatMap_append, flatMap_singleton, bytesOf_append_length]
      rw [hmd.data hack]
    messages := fun _ => by simp [hls']
    callbacks := by
      rw [hls']
      simp only [filterMap_append, hcl, hmd.callbacks]
      cases hcb : a.callback <;> simp [hcb]
    handle := by
      intro i hi
      rcases mem_append.1 hi with hi | hi
      · exact hmd.handle i hi
      · rw [mem_singleton.1 hi, handleOf_append_length, hno]
        exact hhn.symm
    single := by
      intro hsm
      have hsm : last.handle.isSome := hsm
      rw [hhn] at hsm
      cases hsm }
  have hcr : last.cursor ≠ 0 → last.cursor < last.data.length → last'.cursor < last'.data.length
      := by
    intro _ hlt
    rw [hls']
    simp only [length_append]
    omega
  exact {
    h with
    bytes := h.bytes_append ha
    items := by
      intro item him
      rcases mem_append.1 him with him | him
      · exact h.made_append a item (by rw [hq]; exact mem_append_left _ him)
      · rw [mem_singleton.1 him]
        exact hmd'
    waiting := h.waiting_append a
    order := by
      have hor := h.order_append
      rw [hq, List.flatMap_append, flatMap_singleton,
        append_assoc (front.flatMap SendHandle.messages)] at hor
      change s.history.finished ++ s.held ++ (front ++ [last']).flatMap SendHandle.messages =
        List.range (s.history.asked ++ [a]).length
      rw [List.flatMap_append, flatMap_singleton, length_append, length_singleton]
      exact hor
    first := by
      intro first rest hq'
      have hq' : front ++ [last'] = first :: rest := hq'
      cases front with
      | nil =>
        cases hq'
        refine ⟨fun hne => ?_, by simp⟩
        exact hcr hne ((h.first last [] hq).1 hne)
      | cons first' rest' =>
        cases hq'
        obtain ⟨hfr, hrs⟩ := h.first first (rest' ++ [last]) hq
        refine ⟨hfr, fun item him => ?_⟩
        rcases mem_append.1 him with him | him
        · exact hrs item (mem_append_left _ him)
        · rw [mem_singleton.1 him]
          exact hrs last (mem_append_right _ (mem_singleton_self last))
    still := by
      intro hsm item him hnot
      rcases mem_append.1 him with him | him
      · exact h.still hsm item (by rw [hq]; exact mem_append_left _ him) hnot
      · rw [mem_singleton.1 him]
        exact h.still hsm last hls hack
    writing := by
      intro hpr
      obtain ⟨first, rest, hq', hfr, hlt⟩ := h.writing hpr
      rw [hq] at hq'
      cases front with
      | nil =>
        cases hq'
        refine ⟨last', [], rfl, fun hsm => absurd (hfr hsm) hack, ?_⟩
        rw [hls']
        simp only [length_append]
        omega
      | cons first' rest' =>
        cases hq'
        exact ⟨first, rest' ++ [last'], rfl, hfr, hlt⟩
    later := by
      intro n hn
      obtain ⟨hpr, first, rest, hq', hle⟩ := h.later n hn
      rw [hq] at hq'
      cases front with
      | nil =>
        cases hq'
        refine ⟨hpr, last', [], rfl, hle.trans ?_⟩
        rw [hls']
        simp only [length_drop, length_append]
        omega
      | cons first' rest' =>
        cases hq'
        exact ⟨hpr, first, rest' ++ [last'], rfl, hle⟩
    wire := by
      have hpt : ((front ++ [last']).head?.elim [] fun item => item.data.take item.cursor) =
          s.part := by
        rw [part, hq]
        cases front with
        | nil =>
          have hle : last.cursor ≤ last.data.length := by
            by_cases hzr : last.cursor = 0
            · omega
            · exact ((h.first last [] hq).1 hzr).le
          exact take_append_of_le_length hle
        | cons first rest => rfl
      change s.history.wire = s.history.log.flatMap (Transmission.bytes (s.history.asked ++ [a])) ++
        (front ++ [last']).head?.elim [] fun item => item.data.take item.cursor
      rw [hpt, h.log_bytes_append a, h.wire]
    logged := h.logged_append a
    settled := h.settled_append a }

end SendQueue.Inv

end Cruller.Jsc.Ipc
