import Cruller.Threading.Memory

/-!
# Nothing is lost in the unbounded queue

The queue is entered at one place (`Entrance`): `front`, the item the consumer took from it, or
the item a producer is to store there. With that, what was pushed is what was returned, what the
consumer goes through and what is queued, in this order (`Inv`), in every order of the steps
(`Reachable.inv`). Once no push is under way the consumer alone gets all of it
(`Inv.drains`).
-/

namespace Cruller.Threading

open List Option

variable {P T : Type*}

/-- The item that is out of `front` and leads on to what is queued. -/
def Consumer.taken : Consumer T → Option T
  | .exchangeBack first | .waitNext first | .storeFront first _ | .swapBack first => some first
  | .idle | .loadNext _ | .exchangeFront _ _ | .walk _ _ _ _ | .failed => none

/-- The batch is the chain from its front to its last item. -/
def Returned.Whole : Returned T → Prop
  | .batch b items =>
    b.count = items.length ∧ b.front = items.head? ∧ b.last = items.getLast?
  | .popped _ | .nothing => True

theorem Batch.itemsFrom_of_isChain {next : T → Option T} : ∀ {l : List T},
    l.IsChain (next · = some ·) → Batch.itemsFrom next l.head? l.length = l
  | [], _ => rfl
  | [_], _ => rfl
  | a :: b :: l, h => by
    obtain ⟨hab, h⟩ := isChain_cons_cons.1 h
    rw [head?_cons, length_cons, itemsFrom, hab]
    exact congrArg (a :: ·) (itemsFrom_of_isChain h)

namespace UnboundedQueue

variable {q : UnboundedQueue P T} {held queue : List T}

/-- The consumer will find `item` at the front, or a producer is about to put it there. -/
def Entrance (q : UnboundedQueue P T) (item : T) : Prop :=
  q.front = some item ∨ q.consumer.taken = some item ∨ ∃ p, q.producers p = .link none item

/-- What the consumer has read so far is so. -/
def Knows (q : UnboundedQueue P T) (held queue : List T) : Consumer T → Prop
  | .idle | .exchangeBack _ | .swapBack _ => held = []
  | .loadNext first => held = [] ∧ q.front = some first
  | .exchangeFront first next_ptr =>
    held = [] ∧ q.front = some first ∧ ∀ item ∈ next_ptr, q.next first = some item
  | .waitNext first => held = [] ∧ queue.getLast? ≠ some first
  | .storeFront first new_first => held = [] ∧ q.next first = some new_first
  | .walk first last next_item count =>
    held.head? = some first ∧ held.getLast? = some last ∧ ∃ seen rest,
      held = seen ++ next_item :: rest ∧ count = seen.length + 1
        ∧ (seen ++ [next_item]).IsChain (q.next · = some ·)
  | .failed => False

/-- The queue is a chain of links, with the pieces that the producers have not joined yet, and what
was pushed is what was returned, is held or waits. -/
structure Inv [DecidableEq P] (q : UnboundedQueue P T) (held queue : List T) : Prop where
  memory : Memory q.next q.producers held queue
  record : q.items = q.returnedItems ++ (held ++ queue)
  called : ∀ p, q.called p
    = (q.pushed.filter (·.1 = p)).map Prod.snd ++ (q.producers p).chain
  back : q.back = queue.getLast?
  entrance : ∀ item, q.Entrance item ↔ queue.head? = some item
  /-- There is one way into the queue. -/
  front_alone : q.front ≠ none →
    q.consumer.taken = none ∧ ∀ p item, q.producers p ≠ .link none item
  taken_alone : q.consumer.taken ≠ none → ∀ p item, q.producers p ≠ .link none item
  knows : q.Knows held queue q.consumer
  whole : ∀ r ∈ q.returned, r.Whole

variable [DecidableEq P]

/-- The empty queue. -/
theorem inv_init (next : T → Option T) : (init next : UnboundedQueue P T).Inv [] [] where
  memory := .init next
  record := rfl
  called _ := rfl
  back := rfl
  entrance item := by
    unfold Entrance
    simp [init, Consumer.taken]
  front_alone h := absurd rfl h
  taken_alone h := absurd rfl h
  knows := rfl
  whole r hr := nomatch hr

theorem Inv.mem_of_front (h : q.Inv held queue) {item : T} (him : q.Entrance item) :
    item ∈ held ++ queue :=
  mem_append_right _ (mem_of_mem_head? ((h.entrance item).1 him))

/-- Links that nothing reads yet can be written without the consumer's knowing. -/
theorem Inv.knows_write (h : q.Inv held queue) {next' : T → Option T}
    (hnx : ∀ item ∈ held ++ queue, q.next item ≠ none → next' item = q.next item) :
    ({ q with next := next' } : UnboundedQueue P T).Knows held queue q.consumer := by
  have hkn := h.knows
  cases hcn : q.consumer with
  | exchangeFront first next_ptr =>
    rw [hcn] at hkn
    obtain ⟨hhl, hfr, hptr⟩ := hkn
    refine ⟨hhl, hfr, fun item hi => ?_⟩
    have him := hptr item hi
    rw [← him]
    exact hnx first (h.mem_of_front (.inl hfr)) (by rw [him]; nofun)
  | storeFront first new_first =>
    rw [hcn] at hkn
    obtain ⟨hhl, hfs⟩ := hkn
    refine ⟨hhl, ?_⟩
    have hen : q.Entrance first := .inr (.inl (by rw [hcn]; rfl))
    exact (hnx first (h.mem_of_front hen) (by rw [hfs]; nofun)).trans hfs
  | walk first last next_item count =>
    rw [hcn] at hkn
    obtain ⟨hhd, hls, seen, rest, hhl, hct, hch⟩ := hkn
    refine ⟨hhd, hls, seen, rest, hhl, hct, ?_⟩
    refine hch.imp_of_mem_imp fun a b ha _ hab => ?_
    have hmem : a ∈ held ++ queue := by
      rw [hhl]
      rcases mem_append.1 ha with ha | ha
      · simp [ha]
      · simp [mem_singleton.1 ha]
    exact (hnx a hmem (by rw [hab]; nofun)).trans hab
  | idle => rwa [hcn] at hkn
  | loadNext first => rwa [hcn] at hkn
  | exchangeBack first => rwa [hcn] at hkn
  | waitNext first => rwa [hcn] at hkn
  | swapBack first => rwa [hcn] at hkn
  | failed => rwa [hcn] at hkn

theorem Inv.goes (h : q.Inv held queue) {c : Consumer T} (htk : c.taken = q.consumer.taken)
    (hkn : q.Knows held queue c) :
    ({ q with consumer := c } : UnboundedQueue P T).Inv held queue where
  memory := h.memory
  record := h.record
  called := h.called
  back := h.back
  entrance item := by
    rw [← h.entrance item]
    unfold Entrance
    rw [htk]
  front_alone hfr := ⟨htk.trans (h.front_alone hfr).1, (h.front_alone hfr).2⟩
  taken_alone hne := h.taken_alone (htk ▸ hne)
  knows := hkn
  whole := h.whole

theorem Inv.nothing (h : q.Inv held queue) (hid : q.consumer = .idle) :
    (q.give .nothing).Inv held queue where
  memory := h.memory
  record := by
    have := h.record
    simpa [items, returnedItems, give, Returned.items] using this
  called := h.called
  back := h.back
  entrance item := by
    rw [← h.entrance item]
    unfold Entrance
    rw [hid]
    rfl
  front_alone hfr := ⟨rfl, (h.front_alone hfr).2⟩
  taken_alone hne := absurd rfl hne
  knows := by
    have := h.knows
    rwa [hid] at this
  whole r hr := by
    rcases mem_append.1 hr with hr | hr
    · exact h.whole r hr
    · cases mem_singleton.1 hr
      trivial

variable {first last : T} {p : P}

/-- `front` is taken, to be stored again or not. -/
theorem Inv.takes {queue : List T} (h : q.Inv held queue)
    (hfr : q.front = some first) {c : Consumer T} (htk : c.taken = some first)
    (hkn : ({ q with front := none } : UnboundedQueue P T).Knows held queue c) :
    ({ q with front := none, consumer := c } : UnboundedQueue P T).Inv held queue where
  memory := h.memory
  record := h.record
  called := h.called
  back := h.back
  entrance item := by
    obtain ⟨hno, hln⟩ := h.front_alone (by rw [hfr]; nofun)
    rw [← h.entrance item]
    unfold Entrance
    simp only [htk, hfr, hno, hln, reduceCtorEq, false_or, or_false, exists_false]
  front_alone hne := absurd rfl hne
  taken_alone _ := (h.front_alone (by rw [hfr]; nofun)).2
  knows := hkn
  whole := h.whole

/-- `pop` returns the first of the queue, and what is behind it is what is left. -/
theorem Inv.pops {queue : List T} (h : q.Inv [] (first :: queue))
    (hnx : q.next first = queue.head?) (hln : ∀ p item, q.producers p ≠ .link none item) :
    (({ q with front := queue.head?, back := queue.getLast? } : UnboundedQueue P T).give
      (.popped first)).Inv [] queue where
  memory := h.memory.popped (by
    cases queue with
    | nil => exact .inr rfl
    | cons second queue => exact .inl (by rw [hnx]; nofun))
  record := by
    have := h.record
    simpa [items, returnedItems, give, Returned.items] using this
  called := h.called
  back := rfl
  entrance item := by
    simp only [Entrance, give, Consumer.taken, hln, reduceCtorEq, exists_false, or_false]
  front_alone _ := ⟨rfl, hln⟩
  taken_alone hne := absurd rfl hne
  knows := rfl
  whole r hr := by
    rcases mem_append.1 hr with hr | hr
    · exact h.whole r hr
    · cases mem_singleton.1 hr
      trivial

/-- `popBatch` returns what it went through. -/
theorem Inv.gives (h : q.Inv held queue) (hcn : q.consumer.taken = none)
    (hfr : held.head? = some first) (hls : held.getLast? = some last)
    (hch : held.IsChain (q.next · = some ·)) :
    (q.give (.batch ⟨some first, some last, held.length⟩
      (Batch.items q.next ⟨some first, some last, held.length⟩))).Inv [] queue := by
  have him : Batch.items q.next ⟨some first, some last, held.length⟩ = held := by
    unfold Batch.items
    rw [← hfr]
    exact Batch.itemsFrom_of_isChain hch
  rw [him]
  have hset : ∀ item ∈ held.dropLast, q.next item ≠ none := by
    obtain ⟨l, rfl⟩ := getLast?_eq_some_iff.1 hls
    intro item hi
    rw [dropLast_concat] at hi
    obtain ⟨a, b, rfl⟩ := append_of_mem hi
    rw [append_assoc, cons_append] at hch
    have hrs := (isChain_append.1 hch).2.1
    cases b with
    | nil => rw [(isChain_cons_cons.1 hrs).1]; nofun
    | cons second b => rw [(isChain_cons_cons.1 hrs).1]; nofun
  exact {
    memory := h.memory.given hset
    record := by
      have := h.record
      simpa [items, returnedItems, give, Returned.items] using this
    called := h.called
    back := h.back
    entrance := fun item => by
      rw [← h.entrance item]
      unfold Entrance
      rw [hcn]
      rfl
    front_alone := fun hfn => ⟨rfl, (h.front_alone hfn).2⟩
    taken_alone := fun hne => absurd rfl hne
    knows := rfl
    whole := fun r hr => by
      rcases mem_append.1 hr with hr | hr
      · exact h.whole r hr
      · cases mem_singleton.1 hr
        exact ⟨rfl, hfr.symm, hls.symm⟩ }

variable [DecidableEq T]

/-! ## The producers -/

theorem Inv.inUse_iff (h : q.Inv held queue) (item : T) :
    q.InUse item ↔ item ∈ held ++ queue ∨ ∃ p, item ∈ (q.producers p).chain := by
  unfold InUse
  rw [h.record, count_append]
  refine or_congr ?_ ?_
  · rw [← count_pos_iff]
    omega
  · constructor
    · rintro ⟨p, first, last, chain, hp, hi⟩
      exact ⟨p, by rwa [hp]⟩
    · rintro ⟨p, hi⟩
      cases hp : q.producers p with
      | swapBack first last chain => exact ⟨p, first, last, chain, hp, by rwa [hp] at hi⟩
      | idle => rw [hp] at hi; cases hi
      | link old first => rw [hp] at hi; cases hi

theorem Inv.setNext (h : q.Inv held queue) {item : T} (him : ¬ q.InUse item) (ptr : Option T) :
    (q.step (.setNext item ptr)).Inv held queue := by
  rw [h.inUse_iff, not_or, not_exists] at him
  have hnx : ∀ i ∈ held ++ queue, Function.update q.next item ptr i = q.next i := by
    rintro i hi
    rw [Function.update_of_ne]
    rintro rfl
    exact him.1 hi
  have hwr := h.memory.write hnx fun p i hi => by
    rw [Function.update_of_ne]
    rintro rfl
    exact him.2 p hi
  exact {
    memory := hwr
    record := h.record
    called := h.called
    back := h.back
    entrance := h.entrance
    front_alone := h.front_alone
    taken_alone := h.taken_alone
    knows := h.knows_write fun i hi _ => hnx i hi
    whole := h.whole }

/-- A producer begins with a chain of its own. -/
theorem Inv.pushBatch (h : q.Inv held queue) {chain : List T}
    (hal : q.Allowed (.pushBatch p first last chain)) :
    (q.step (.pushBatch p first last chain)).Inv held queue := by
  obtain ⟨hid, hlt, hls, huse⟩ := hal
  have hnew : ∀ item ∈ chain, item ∉ held ++ queue ∧ ∀ p, item ∉ (q.producers p).chain := by
    intro item hi
    have := huse item hi
    rwa [h.inUse_iff, not_or, not_exists] at this
  have hmem := mem_of_getLast? hls
  have hnx : ∀ i ∈ held ++ queue, Function.update q.next last none i = q.next i := by
    rintro i hi
    rw [Function.update_of_ne]
    rintro rfl
    exact (hnew i hmem).1 hi
  have hwr := h.memory.write hnx fun p i hi => by
    rw [Function.update_of_ne]
    rintro rfl
    exact (hnew i hmem).2 p hi
  have hln : ∀ p' item, Function.update q.producers p (.swapBack first last chain) p'
      = .link none item ↔ q.producers p' = .link none item := by
    intro p' item
    by_cases heq : p' = p
    · subst heq
      rw [Function.update_self, hid]
      exact ⟨nofun, nofun⟩
    · rw [Function.update_of_ne heq]
  exact {
    memory := hwr.prepared hid hlt hls (fun i hi => (hnew i hi).1)
      fun p i hi => (hnew i hi).2 p
    record := h.record
    called := fun p' => by
      change Function.update q.called p _ p' = _ ++ (Function.update q.producers p _ p').chain
      by_cases heq : p' = p
      · subst heq
        rw [Function.update_self, Function.update_self, h.called p', hid]
        simp [Producer.chain, step]
      · rw [Function.update_of_ne heq, Function.update_of_ne heq]
        exact h.called p'
    back := h.back
    entrance := fun item => by
      rw [← h.entrance item]
      exact or_congr_right (or_congr_right (exists_congr fun p' => hln p' item))
    front_alone := fun hfr =>
      ⟨(h.front_alone hfr).1, fun p' item => mt (hln p' item).1 ((h.front_alone hfr).2 _ _)⟩
    taken_alone := fun htk p' item => mt (hln p' item).1 (h.taken_alone htk _ _)
    knows := h.knows_write fun i hi _ => hnx i hi
    whole := h.whole }

/-- The chain is the end of the queue, and not linked to it. -/
theorem Inv.swapBack (h : q.Inv held queue) {chain : List T}
    (hp : q.producers p = .swapBack first last chain) :
    (q.produce p).Inv held (queue ++ chain) := by
  obtain ⟨hlt, hls, hnew⟩ := h.memory.chain hp
  have hch : chain.head? = some first := hlt.it_eq.symm
  have hfs : queue = [] → ∀ p item, q.producers p ≠ .link none item := by
    rintro rfl p' item hp'
    have := (h.entrance item).1 (.inr (.inr ⟨p', hp'⟩))
    cases this
  have hln : queue ≠ [] → ∀ p' item, Function.update q.producers p (.link q.back first) p'
      = .link none item ↔ q.producers p' = .link none item := by
    intro hne p' item
    by_cases heq : p' = p
    · subst heq
      rw [Function.update_self, hp, h.back]
      refine ⟨fun hp' => ?_, nofun⟩
      exact absurd (getLast?_eq_none_iff.1 (Producer.link.inj hp').1) hne
    · rw [Function.update_of_ne heq]
  have hal : q.front ≠ none ∨ q.consumer.taken ≠ none → queue ≠ [] := by
    rintro hsm rfl
    rcases hsm with hfr | htk
    · obtain ⟨item, hi⟩ := ne_none_iff_exists'.1 hfr
      cases (h.entrance item).1 (.inl hi)
    · obtain ⟨item, hi⟩ := ne_none_iff_exists'.1 htk
      cases (h.entrance item).1 (.inr (.inl hi))
  have hpr : q.produce p = { q with
      back := some last
      producers := Function.update q.producers p (.link q.back first)
      pushed := q.pushed ++ chain.map (p, ·) } := by
    unfold produce
    rw [hp]
  rw [hpr]
  exact {
    memory := h.back ▸ h.memory.swapped hp hfs
    record := by
      have hrc := h.record
      simp only [items] at hrc
      simp only [items, map_append, hrc, List.map_map, Function.comp_def, List.map_id',
        append_assoc]
      rfl
    called := fun p' => by
      change q.called p' = ((q.pushed ++ chain.map (p, ·)).filter (·.1 = p')).map Prod.snd
        ++ (Function.update q.producers p (.link q.back first) p').chain
      rw [h.called p', filter_append, map_append]
      by_cases heq : p' = p
      · subst heq
        rw [Function.update_self, hp]
        simp [Producer.chain, List.filter_map, Function.comp_def]
      · rw [Function.update_of_ne heq]
        simp [List.filter_map, Function.comp_def, Ne.symm heq]
    back := by
      rw [getLast?_append, hls]
      rfl
    entrance := fun item => by
      rw [head?_append]
      cases queue with
      | nil =>
        have hbc : q.back = none := h.back
        have hno : ¬ q.Entrance item := fun hi => nomatch (h.entrance item).1 hi
        simp only [Entrance, not_or, not_exists] at hno
        simp only [Entrance, hno, false_or, head?_nil, none_or, hch]
        constructor
        · rintro ⟨p', hp'⟩
          by_cases heq : p' = p
          · subst heq
            rw [Function.update_self] at hp'
            rw [(Producer.link.inj hp').2]
          · rw [Function.update_of_ne heq] at hp'
            exact absurd hp' (hno.2.2 p')
        · rintro ⟨⟩
          exact ⟨p, by rw [Function.update_self, hbc]⟩
      | cons a queue =>
        have := h.entrance item
        refine Iff.trans ?_ this
        exact or_congr_right (or_congr_right (exists_congr fun p' => hln nofun p' item))
    front_alone := fun hfr => ⟨(h.front_alone hfr).1, fun p' item =>
      mt (hln (hal (.inl hfr)) p' item).1 ((h.front_alone hfr).2 _ _)⟩
    taken_alone := fun htk p' item =>
      mt (hln (hal (.inr htk)) p' item).1 (h.taken_alone htk _ _)
    knows := by
      have hkn := h.knows
      cases hcn : q.consumer with
      | waitNext first' =>
        rw [hcn] at hkn
        refine ⟨hkn.1, fun hget => ?_⟩
        rw [getLast?_append, hls] at hget
        obtain rfl : last = first' := some.inj hget
        refine hnew last (mem_of_getLast? hls) (h.mem_of_front (.inr (.inl ?_)))
        rw [hcn]
        rfl
      | _ => rwa [hcn] at hkn
    whole := h.whole }

/-- The chain is linked. -/
theorem Inv.linked (h : q.Inv held queue) {old : T}
    (hp : q.producers p = .link (some old) first) : (q.produce p).Inv held queue := by
  have hpr : q.produce p = { q with
      next := Function.update q.next old (some first)
      producers := Function.update q.producers p .idle } := by
    unfold produce
    rw [hp]
  have hno := (h.memory.link hp).1
  have hln : ∀ p' item, Function.update q.producers p .idle p' = .link none item
      ↔ q.producers p' = .link none item := by
    intro p' item
    by_cases heq : p' = p
    · subst heq
      rw [Function.update_self, hp]
      exact ⟨nofun, nofun⟩
    · rw [Function.update_of_ne heq]
  rw [hpr]
  exact {
    memory := h.memory.linked hp (fun item hi => by cases hi; exact Function.update_self ..)
      fun item hi => Function.update_of_ne (by rintro rfl; exact hi rfl) _ _
    record := h.record
    called := fun p' => by
      by_cases heq : p' = p
      · subst heq
        have := h.called p'
        rw [hp] at this
        simpa [Producer.chain] using this
      · have := h.called p'
        simpa [Function.update_of_ne heq] using this
    back := h.back
    entrance := fun item => by
      rw [← h.entrance item]
      exact or_congr_right (or_congr_right (exists_congr fun p' => hln p' item))
    front_alone := fun hfr =>
      ⟨(h.front_alone hfr).1, fun p' item => mt (hln p' item).1 ((h.front_alone hfr).2 _ _)⟩
    taken_alone := fun htk p' item => mt (hln p' item).1 (h.taken_alone htk _ _)
    knows := h.knows_write fun i _ hne => Function.update_of_ne (by
      rintro rfl
      exact hne hno) _ _
    whole := h.whole }

/-- The chain is the front. -/
theorem Inv.stored (h : q.Inv held queue)
    (hp : q.producers p = .link none first) : (q.produce p).Inv held queue := by
  have hpr : q.produce p = { q with
      front := some first, producers := Function.update q.producers p .idle } := by
    unfold produce
    rw [hp]
  have hfr : q.front = none := by
    by_contra hfr
    exact (h.front_alone hfr).2 p first hp
  have htk : q.consumer.taken = none := by
    by_contra htk
    exact h.taken_alone htk p first hp
  have hln : ∀ p' item, Function.update q.producers p .idle p' ≠ .link none item := by
    intro p' item hp'
    obtain ⟨hne, hp'⟩ := eq_of_update hp' nofun
    exact hne (h.memory.single hp' hp)
  have hhd := (h.entrance first).1 (.inr (.inr ⟨p, hp⟩))
  rw [hpr]
  exact {
    memory := h.memory.linked hp nofun fun item _ => rfl
    record := h.record
    called := fun p' => by
      by_cases heq : p' = p
      · subst heq
        have := h.called p'
        rw [hp] at this
        simpa [Producer.chain] using this
      · have := h.called p'
        simpa [Function.update_of_ne heq] using this
    back := h.back
    entrance := fun item => by
      simp only [Entrance, htk, hln, hhd, reduceCtorEq, exists_false, or_false]
    front_alone := fun _ => ⟨htk, hln⟩
    taken_alone := fun hne => absurd htk hne
    knows := by
      have hkn := h.knows
      cases hcn : q.consumer with
      | loadNext first' =>
        rw [hcn] at hkn
        cases hfr.symm.trans hkn.2
      | exchangeFront first' next_ptr =>
        rw [hcn] at hkn
        cases hfr.symm.trans hkn.2.1
      | _ => rwa [hcn] at hkn
    whole := h.whole }

/-! ## The consumer's steps -/

/-- A bound on the steps left to the consumer while no producer moves. -/
def left (held queue : List T) (c : Consumer T) : ℕ :=
  7 * (held.length + queue.length) + match c with
    | .idle => 6
    | .loadNext _ => 5
    | .exchangeFront _ _ => 4
    | .exchangeBack _ => 3
    | .waitNext _ => 2
    | .storeFront _ _ => 1
    | .swapBack _ => queue.length + 1
    | .walk _ _ _ count => held.length - count
    | .failed => 0

/-- The consumer waits for a link that a producer owes. -/
def Waits (q : UnboundedQueue P T) : Prop :=
  q.consume false = q ∧ ∃ p old first, q.producers p = .link (some old) first

/-- A step of the consumer to `q'`: there is less left to do. -/
def Advances (q : UnboundedQueue P T) (held queue : List T) (q' : UnboundedQueue P T) : Prop :=
  q'.consumer ≠ q.consumer ∧ ∃ held' queue', q'.Inv held' queue'
    ∧ left held' queue' q'.consumer < left held queue q.consumer

omit [DecidableEq T] in
/-- `pop` returns an item whose link is set. -/
theorem Inv.popsLinked (h : q.Inv [] queue) {second : T} (hfirst : q.Entrance first)
    (hlink : ∀ p item, q.producers p ≠ .link none item) (hsecond : q.next first = some second)
    (hbusy : q.consumer ≠ .idle) (hleft : 1 ≤ left [] queue q.consumer - 7 * queue.length) :
    q.Advances [] queue
      (({ q with front := some second } : UnboundedQueue P T).give (.popped first)) := by
  obtain ⟨queue, rfl⟩ := head?_eq_some_iff.1 ((h.entrance first).1 hfirst)
  cases queue with
  | nil => cases hsecond.symm.trans (h.memory.queue_last first rfl)
  | cons b queue =>
    obtain rfl := ((isChain_cons_cons.1 h.memory.queue_joined).1).eq hsecond
    have hpops := h.pops hsecond hlink
    rw [← getLast?_cons_cons (a := first), ← h.back] at hpops
    refine ⟨Ne.symm hbusy, [], b :: queue, hpops, ?_⟩
    simp only [left, give, length_cons, length_nil] at hleft ⊢
    omega

theorem Inv.exchangeFront (h : q.Inv held queue) {next_ptr : Option T}
    (hcn : q.consumer = .exchangeFront first next_ptr) :
    q.Advances held queue (q.consume false) := by
  have hkn := h.knows
  rw [hcn] at hkn
  obtain ⟨rfl, hfr, hptr⟩ := hkn
  have hln := (h.front_alone (by rw [hfr]; nofun)).2
  unfold UnboundedQueue.consume
  rw [hcn]
  simp only [hfr, and_self, if_true]
  cases next_ptr with
  | none =>
    refine ⟨by rw [hcn]; nofun, [], queue, h.takes hfr rfl rfl, ?_⟩
    simp only [left, hcn]
    omega
  | some second =>
    refine h.popsLinked (.inl hfr) hln (hptr second rfl) (by rw [hcn]; nofun) ?_
    simp only [left, hcn, length_nil]
    omega

/-- The consumer sees whether its item is the last one. -/
theorem Inv.exchangeBack (h : q.Inv held queue)
    (hcn : q.consumer = .exchangeBack first) :
    q.Advances held queue (q.consume false) := by
  have hkn := h.knows
  rw [hcn] at hkn
  obtain rfl : held = [] := hkn
  have htk : q.consumer.taken = some first := by rw [hcn]; rfl
  have hln := h.taken_alone (by rw [htk]; nofun)
  have hfr : q.front = none := by
    by_contra hfr
    cases htk.symm.trans (h.front_alone hfr).1
  obtain ⟨queue, rfl⟩ := head?_eq_some_iff.1 ((h.entrance first).1 (.inr (.inl htk)))
  unfold UnboundedQueue.consume
  rw [hcn]
  simp only []
  split_ifs with hbc hno
  · -- The last of the queue is its first.
    have hnil : queue = [] := by
      cases queue with
      | nil => rfl
      | cons b queue =>
        rw [h.back, getLast?_cons_cons] at hbc
        have hnd := (nodup_append.1 h.memory.nodup).2.1
        exact absurd (mem_of_getLast? hbc) (nodup_cons.1 hnd).1
    subst hnil
    have hps := h.pops (h.memory.queue_last first rfl) hln
    rw [head?_nil, ← hfr] at hps
    refine ⟨by rw [hcn]; nofun, [], [], hps, ?_⟩
    simp only [left, give, hcn, length_nil, length_singleton]
    omega
  · rw [h.back] at hno
    cases getLast?_eq_none_iff.1 hno
  · rw [h.back] at hbc
    refine ⟨by rw [hcn]; nofun, [], _, h.goes (by rw [hcn]; rfl) ⟨rfl, hbc⟩, ?_⟩
    simp only [left, hcn]
    omega

theorem Inv.waitNext (h : q.Inv held queue)
    (hcn : q.consumer = .waitNext first) :
    q.Advances held queue (q.consume false) ∨ q.Waits := by
  have hkn := h.knows
  rw [hcn] at hkn
  obtain ⟨rfl, hls⟩ := hkn
  have htk : q.consumer.taken = some first := by rw [hcn]; rfl
  obtain ⟨queue, rfl⟩ := head?_eq_some_iff.1 ((h.entrance first).1 (.inr (.inl htk)))
  cases hnx : q.next first with
  | none =>
    right
    refine ⟨by simp [UnboundedQueue.consume, hcn, hnx], ?_⟩
    cases queue with
    | nil => exact absurd rfl hls
    | cons b queue =>
      rcases (isChain_cons_cons.1 h.memory.queue_joined).1 with hb | ⟨-, p, hp⟩
      · cases hnx.symm.trans hb
      · exact ⟨p, first, b, hp⟩
  | some second =>
    left
    simp only [UnboundedQueue.consume, hcn, hnx]
    refine ⟨by rw [hcn]; nofun, [], _, h.goes (by rw [hcn]; rfl) ⟨rfl, hnx⟩, ?_⟩
    simp only [left, hcn]
    omega

theorem Inv.storeFront (h : q.Inv held queue) {new_first : T}
    (hcn : q.consumer = .storeFront first new_first) :
    q.Advances held queue (q.consume false) := by
  have hkn := h.knows
  rw [hcn] at hkn
  obtain ⟨rfl, hnx⟩ := hkn
  have htk : q.consumer.taken = some first := by rw [hcn]; rfl
  simp only [UnboundedQueue.consume, hcn]
  refine h.popsLinked (.inr (.inl htk)) (h.taken_alone (by rw [htk]; nofun)) hnx
    (by rw [hcn]; nofun) ?_
  simp only [left, hcn, length_nil]
  omega

/-- The consumer takes the whole queue. -/
theorem Inv.swapsBack (h : q.Inv held queue)
    (hcn : q.consumer = .swapBack first) :
    q.Advances held queue (q.consume false) := by
  have hkn := h.knows
  rw [hcn] at hkn
  obtain rfl : held = [] := hkn
  have htk : q.consumer.taken = some first := by rw [hcn]; rfl
  have hln := h.taken_alone (by rw [htk]; nofun)
  have hfr : q.front = none := by
    by_contra hfr
    cases htk.symm.trans (h.front_alone hfr).1
  have hhd := (h.entrance first).1 (.inr (.inl htk))
  obtain ⟨last, hls⟩ : ∃ last, queue.getLast? = some last := by
    obtain ⟨queue, rfl⟩ := head?_eq_some_iff.1 hhd
    exact ⟨_, getLast?_cons⟩
  have hbc := h.back.trans hls
  simp only [UnboundedQueue.consume, hcn, hbc]
  refine ⟨by rw [hcn]; nofun, queue, [], ?_, ?_⟩
  · exact {
      memory := h.memory.taken
      record := by
        have hrc : q.items = q.returnedItems ++ (queue ++ []) := by simpa using h.record
        exact hrc
      called := h.called
      back := rfl
      entrance := fun item => by
        simp only [Entrance, hfr, Consumer.taken, hln, reduceCtorEq, exists_false, or_false,
          head?_nil]
      front_alone := fun hne => absurd hfr hne
      taken_alone := fun hne => absurd rfl hne
      knows := by
        obtain ⟨queue, rfl⟩ := head?_eq_some_iff.1 hhd
        exact ⟨rfl, hls, [], queue, rfl, rfl, .singleton first⟩
      whole := h.whole }
  · simp only [left, hcn, length_nil]
    omega

/-- The consumer goes to the next item, or waits for its link. -/
theorem Inv.walk (h : q.Inv held queue) {next_item : T} {count : ℕ}
    (hcn : q.consumer = .walk first last next_item count) :
    q.Advances held queue (q.consume false) ∨ q.Waits := by
  have hkn := h.knows
  rw [hcn] at hkn
  obtain ⟨hfr, hls, seen, rest, rfl, rfl, hch⟩ := hkn
  by_cases heq : next_item = last
  · -- The last item comes once, so there is nothing behind it.
    left
    subst heq
    have hrs : rest = [] := by
      cases rest with
      | nil => rfl
      | cons b rest =>
        rw [getLast?_append_cons, getLast?_cons_cons] at hls
        have hnd := (nodup_append.1 (nodup_append.1 h.memory.nodup).1).2.1
        exact absurd (mem_of_getLast? hls) (nodup_cons.1 hnd).1
    subst hrs
    have hgv := h.gives (by rw [hcn]; rfl) hfr hls hch
    have hlength : (seen ++ [next_item]).length = seen.length + 1 := by simp
    rw [hlength] at hgv
    simp only [UnboundedQueue.consume, hcn, if_true]
    refine ⟨by rw [hcn]; nofun, [], queue, hgv, ?_⟩
    simp only [left, give, hcn, hlength, length_nil]
    omega
  · obtain ⟨b, rest, rfl⟩ : ∃ b rest', rest = b :: rest' := by
      cases rest with
      | nil =>
        rw [getLast?_append_cons] at hls
        exact absurd (some.inj hls) heq
      | cons b rest => exact ⟨b, rest, rfl⟩
    have hjn : Joined q.next q.producers next_item b :=
      (isChain_cons_cons.1 (isChain_append.1 h.memory.held_joined).2.1).1
    cases hnx : q.next next_item with
    | none =>
      right
      refine ⟨by simp [UnboundedQueue.consume, hcn, heq, hnx], ?_⟩
      rcases hjn with hb | ⟨-, p, hp⟩
      · cases hnx.symm.trans hb
      · exact ⟨p, next_item, b, hp⟩
    | some next =>
      left
      obtain rfl := hjn.eq hnx
      simp only [UnboundedQueue.consume, hcn, if_neg heq, hnx]
      refine ⟨by rw [hcn]; simp, seen ++ next_item :: b :: rest, queue,
        h.goes (by rw [hcn]; rfl) ⟨hfr, hls, seen ++ [next_item], rest, by simp, by simp, ?_⟩, ?_⟩
      · refine isChain_append.2 ⟨hch, .singleton b, fun x hx y hy => ?_⟩
        rw [getLast?_concat] at hx
        cases hx
        cases hy
        exact hnx
      · simp [left, hcn]
        omega

/-- A step of the consumer goes on, or waits for a producer. -/
theorem Inv.consume (h : q.Inv held queue) (hbs : q.consumer ≠ .idle) :
    q.Advances held queue (q.consume false) ∨ q.Waits := by
  have hkn := h.knows
  cases hcn : q.consumer with
  | idle => exact absurd hcn hbs
  | failed => rw [hcn] at hkn; exact hkn.elim
  | loadNext first =>
    rw [hcn] at hkn
    simp only [UnboundedQueue.consume, hcn]
    refine .inl ⟨by rw [hcn]; nofun, held, queue, h.goes (by rw [hcn]; rfl)
      ⟨hkn.1, hkn.2, fun item hi => hi⟩, ?_⟩
    simp only [left, hcn]
    omega
  | exchangeFront first next_ptr => exact .inl (h.exchangeFront hcn)
  | exchangeBack first => exact .inl (h.exchangeBack hcn)
  | waitNext first => exact h.waitNext hcn
  | storeFront first new_first => exact .inl (h.storeFront hcn)
  | swapBack first => exact .inl (h.swapsBack hcn)
  | walk first last next_item count => exact h.walk hcn

theorem Inv.consumes (h : q.Inv held queue) (spurious : Bool) :
    ∃ held' queue', (q.consume spurious).Inv held' queue' := by
  have hfl : ∃ held' queue', (q.consume false).Inv held' queue' := by
    by_cases hid : q.consumer = .idle
    · refine ⟨held, queue, ?_⟩
      unfold UnboundedQueue.consume
      rwa [hid]
    · rcases h.consume hid with ⟨-, held', queue', had, -⟩ | ⟨hwt, -⟩
      · exact ⟨held', queue', had⟩
      · exact ⟨held, queue, by rwa [hwt]⟩
  cases hsp : spurious with
  | false => exact hfl
  | true =>
    cases hcn : q.consumer with
    | exchangeFront first next_ptr =>
      -- The exchange fails, and `front` is what it was.
      have hkn := h.knows
      rw [hcn] at hkn
      have hst : q.consume true = { q with consumer := .loadNext first } := by
        simp [UnboundedQueue.consume, hcn, hkn.2.1]
      rw [hst]
      exact ⟨held, queue, h.goes (by rw [hcn]; rfl) ⟨hkn.1, hkn.2.1⟩⟩
    | _ =>
      have hst : q.consume true = q.consume false := by
        unfold UnboundedQueue.consume
        rw [hcn]
      rwa [hst]

omit [DecidableEq T] in
theorem Inv.pop (h : q.Inv held queue) (hidle : q.consumer = .idle) : q.pop.Inv held queue := by
  have hknows := h.knows
  rw [hidle] at hknows
  unfold UnboundedQueue.pop
  cases hfront : q.front with
  | none => exact h.nothing hidle
  | some first =>
    have hgoes := h.goes (c := .loadNext first) (by rw [hidle]; rfl) ⟨hknows, hfront⟩
    rwa [hfront] at hgoes

omit [DecidableEq T] in
theorem Inv.popBatch (h : q.Inv held queue) (hidle : q.consumer = .idle) :
    q.popBatch.Inv held queue := by
  have hknows := h.knows
  rw [hidle] at hknows
  unfold UnboundedQueue.popBatch
  cases hfront : q.front with
  | none => exact h.nothing hidle
  | some first => exact h.takes hfront rfl hknows

/-- Every atomic operation keeps the queue. -/
theorem Inv.step (h : q.Inv held queue) {op : Op P T} (hal : q.Allowed op) :
    ∃ held' queue', (q.step op).Inv held' queue' := by
  cases op with
  | setNext item ptr => exact ⟨held, queue, h.setNext hal ptr⟩
  | pushBatch p first last chain => exact ⟨held, queue, h.pushBatch hal⟩
  | produce p =>
    cases hp : q.producers p with
    | idle =>
      refine ⟨held, queue, ?_⟩
      simpa only [UnboundedQueue.step, produce, hp] using h
    | swapBack first last chain => exact ⟨held, queue ++ chain, h.swapBack hp⟩
    | link old first =>
      cases old with
      | none => exact ⟨held, queue, h.stored hp⟩
      | some old => exact ⟨held, queue, h.linked hp⟩
  | pop => exact ⟨held, queue, h.pop hal⟩
  | popBatch => exact ⟨held, queue, h.popBatch hal⟩
  | consume spurious => exact h.consumes spurious

theorem Reachable.inv (h : q.Reachable) : ∃ held queue, q.Inv held queue := by
  induction h with
  | init next => exact ⟨[], [], inv_init next⟩
  | step _ hal ih =>
    obtain ⟨held, queue, h⟩ := ih
    exact h.step hal

/-! ## What the queue does -/

/-- The consumer by itself: it calls `pop` again and again. -/
def alone (q : UnboundedQueue P T) : UnboundedQueue P T :=
  match q.consumer with
  | .idle => q.pop
  | _ => q.consume false

/-- The items of one producer that were returned, in order. -/
def returnedOf (q : UnboundedQueue P T) (p : P) : List T :=
  ((q.pushed.take q.returnedItems.length).filter (·.1 = p)).map Prod.snd

omit [DecidableEq P] in
theorem consume_same (q : UnboundedQueue P T) (spurious : Bool) :
    (q.consume spurious).pushed = q.pushed
      ∧ (q.consume spurious).producers = q.producers := by
  unfold UnboundedQueue.consume
  split
  · exact ⟨rfl, rfl⟩
  · exact ⟨rfl, rfl⟩
  · split_ifs
    · split <;> exact ⟨rfl, rfl⟩
    · split <;> exact ⟨rfl, rfl⟩
  · split_ifs <;> exact ⟨rfl, rfl⟩
  · split <;> exact ⟨rfl, rfl⟩
  · exact ⟨rfl, rfl⟩
  · split <;> exact ⟨rfl, rfl⟩
  · split_ifs
    · exact ⟨rfl, rfl⟩
    · split <;> exact ⟨rfl, rfl⟩
  · exact ⟨rfl, rfl⟩

/-- When no producer is at work, the consumer gets everything. -/
theorem Inv.drains : ∀ (k : ℕ) {q : UnboundedQueue P T} {held queue : List T},
    q.Inv held queue → (∀ p, q.producers p = .idle) → left held queue q.consumer < k →
    ∃ n, (alone^[n] q).returnedItems = q.items ∧ (alone^[n] q).consumer = .idle
  | 0, _, _, _, _, _, hk => absurd hk (Nat.not_lt_zero _)
  | k + 1, q, held, queue, h, hqt, hk => by
    by_cases hid : q.consumer = .idle
    · have hkn := h.knows
      rw [hid] at hkn
      obtain rfl : held = [] := hkn
      cases hfr : q.front with
      | none =>
        refine ⟨0, ?_, hid⟩
        have hnil : queue = [] := by
          cases queue with
          | nil => rfl
          | cons a queue =>
            have := (h.entrance a).2 rfl
            simp [Entrance, hfr, hid, Consumer.taken, hqt] at this
        subst hnil
        simpa using h.record.symm
      | some first =>
        have hal : q.alone = { q with consumer := .loadNext first } := by
          simp [alone, UnboundedQueue.pop, hid, hfr]
        have hgs := h.goes (c := .loadNext first) (by rw [hid]; rfl) ⟨rfl, hfr⟩
        obtain ⟨n, hn⟩ := drains k hgs hqt (by
          simp only [left, hid] at hk ⊢
          omega)
        exact ⟨n + 1, by rwa [Function.iterate_succ_apply, hal]⟩
    · have hal : q.alone = q.consume false := by
        unfold alone
        split
        next hid' => exact absurd hid' hid
        next => rfl
      obtain ⟨hps, hpr⟩ := q.consume_same false
      rcases h.consume hid with ⟨-, held', queue', hnx, hls⟩ | ⟨-, p, old, first, hp⟩
      · obtain ⟨n, hn, hdn⟩ := drains k hnx (by rwa [hpr]) (by omega)
        refine ⟨n + 1, ?_, ?_⟩
        · simp [hal, hn, items, hps]
        · rwa [Function.iterate_succ_apply, hal]
      · cases (hqt p).symm.trans hp

omit [DecidableEq P] in
theorem consume_nothing {spurious : Bool}
    (h : (q.consume spurious).returned = q.returned ++ [.nothing]) : q.front = none := by
  unfold UnboundedQueue.consume at h
  split at h
  · simp at h
  · simp at h
  · split_ifs at h
    · split at h <;> simp [give] at h
    · split at h
      next hfront => exact hfront
      next => simp at h
  · split_ifs at h <;> simp [give] at h
  · split at h <;> simp at h
  · simp [give] at h
  · split at h <;> simp at h
  · split_ifs at h
    · simp [give] at h
    · split at h <;> simp at h
  · simp at h

theorem step_nothing {op : Op P T}
    (h : (q.step op).returned = q.returned ++ [.nothing]) : q.front = none := by
  cases op with
  | setNext item ptr => simp [UnboundedQueue.step] at h
  | pushBatch p first last chain => simp [UnboundedQueue.step] at h
  | produce p =>
    simp only [UnboundedQueue.step] at h
    unfold UnboundedQueue.produce at h
    split at h <;> simp at h
  | pop =>
    simp only [UnboundedQueue.step] at h
    unfold UnboundedQueue.pop at h
    split at h
    next hfr => exact hfr
    next => simp at h
  | popBatch =>
    simp only [UnboundedQueue.step] at h
    unfold UnboundedQueue.popBatch at h
    split at h
    next hfr => exact hfr
    next => simp at h
  | consume spurious => exact consume_nothing h

/-- The queue loses nothing and repeats nothing. -/
structure Lossless (q : UnboundedQueue P T) : Prop where
  /-- What is returned is what was pushed, in this order and as often. -/
  fifo : q.returnedItems <+: q.items
  ordered : ∀ p, q.returnedOf p <+: q.called p
  whole : ∀ r ∈ q.returned, r.Whole
  /-- No null `back` or `next` is read through. -/
  safe : q.consumer ≠ .failed
  nothing : ∀ op, q.Allowed op → (q.step op).returned = q.returned ++ [.nothing] →
    q.front = none
  /-- The consumer only ever waits for a push that has swapped `back` and not linked. -/
  waits : q.consumer ≠ .idle → q.consume false = q →
    ∃ p old first, q.producers p = .link (some old) first
  /-- With no push under way, the consumer gets everything. -/
  drains : (∀ p, q.producers p = .idle) →
    ∃ n, (alone^[n] q).returnedItems = q.items ∧ (alone^[n] q).consumer = .idle

/-- Whatever the order of the steps. -/
theorem lossless_of_reachable (h : q.Reachable) : q.Lossless := by
  obtain ⟨held, queue, hinv⟩ := h.inv
  exact {
    fifo := ⟨held ++ queue, hinv.record.symm⟩
    ordered := fun p => by
      rw [hinv.called p]
      have htaken : q.returnedOf p <+: (q.pushed.filter (·.1 = p)).map Prod.snd :=
        ((List.take_prefix _ _).filter _).map _
      exact htaken.trans (prefix_append _ _)
    whole := hinv.whole
    safe := fun hfailed => by
      have := hinv.knows
      rw [hfailed] at this
      exact this
    nothing := fun op _ hop => step_nothing hop
    waits := fun hbusy hwaits => by
      rcases hinv.consume hbusy with ⟨hne, -⟩ | ⟨-, howed⟩
      · rw [hwaits] at hne
        exact absurd rfl hne
      · exact howed
    drains := fun hquiet => Inv.drains _ hinv hquiet (Nat.lt_succ_self _) }

/-- Two items are pushed at once, and the consumer has the first while the second is not linked. -/
def raceOps : List (Op ℕ ℕ) :=
  [.pushBatch 0 1 1 [1], .produce 0, .pushBatch 1 2 2 [2], .produce 1, .produce 0, .pop,
    .consume false, .consume false, .consume false, .consume false, .produce 1, .consume false,
    .consume false]

/-- The queue after the race. -/
def raced : UnboundedQueue ℕ ℕ :=
  raceOps.foldl step (init fun _ => none)

theorem Reachable.next (h : q.Reachable) (op : Op P T) (hal : q.Allowed op) :
    (q.step op).Reachable :=
  h.step hal

theorem reachable_raced : raced.Reachable := by
  have hfr := (Reachable.init (P := ℕ) fun _ : ℕ => none).next (.pushBatch 0 1 1 [1]) (by
    refine ⟨rfl, ⟨rfl, rfl⟩, rfl, fun item _ => ?_⟩
    simp [InUse, init, items, returnedItems])
  have hsc := (hfr.next (.produce 0) trivial).next (.pushBatch 1 2 2 [2]) (by
    refine ⟨rfl, ⟨rfl, rfl⟩, rfl, fun item hi => ?_⟩
    cases mem_singleton.1 hi
    rintro (hcn | ⟨p, first, last, chain, hp, -⟩)
    · exact absurd hcn (by decide)
    · obtain ⟨hne, hp⟩ := eq_of_update hp nofun
      have hid := (Function.update_of_ne hne _ _).symm.trans hp
      cases hid)
  have hpd := ((hsc.next (.produce 1) trivial).next (.produce 0) trivial).next .pop rfl
  have hwt := (((hpd.next (.consume false) trivial).next (.consume false) trivial).next
    (.consume false) trivial).next (.consume false) trivial
  exact ((hwt.next (.produce 1) trivial).next (.consume false) trivial).next (.consume false)
    trivial

/-- Two producers overlap, and the consumer waits for the link between them. -/
theorem lossless_raced : raced.Lossless ∧ raced.returnedItems = [1] ∧ raced.items = [1, 2] :=
  ⟨lossless_of_reachable reachable_raced, rfl, rfl⟩

end UnboundedQueue

end Cruller.Threading
