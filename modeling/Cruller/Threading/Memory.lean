import Mathlib.Data.List.Infix
import Cruller.Threading.UnboundedQueue

/-!
# The items of the queue in memory

What is queued is a list in memory but for the links that producers still owe, each of which
stands at the end of what the list was when `back` was swapped (`Memory`). Each step of a producer
or of the consumer keeps it so, with what it takes from the list or adds to it.
-/

namespace Cruller.Threading

open List

variable {P T : Type*}

/-- What a producer has called `pushBatch` with and has not swapped in yet. -/
def Producer.chain : Producer T → List T
  | .swapBack _ _ chain => chain
  | .idle | .link _ _ => []

/-- `b` comes after `a`, or will when a producer has linked it. -/
def Joined (next : T → Option T) (producers : P → Producer T) (a b : T) : Prop :=
  next a = some b ∨ next a = none ∧ ∃ p, producers p = .link (some a) b

variable {next next' : T → Option T} {producers : P → Producer T} {held queue : List T}
  {p : P} {first last old : T}

/-- `held` is what `popBatch` goes through, and `queue` what is queued. -/
structure Memory (next : T → Option T) (producers : P → Producer T) (held queue : List T) :
    Prop where
  nodup : (held ++ queue).Nodup
  held_joined : held.IsChain (Joined next producers)
  held_last : ∀ item ∈ held.getLast?, next item = none
  queue_joined : queue.IsChain (Joined next producers)
  queue_last : ∀ item ∈ queue.getLast?, next item = none
  link : ∀ {p old first}, producers p = .link (some old) first →
    next old = none ∧ old ∈ held.dropLast ++ queue.dropLast
  single : ∀ {p p' old first first'}, producers p = .link old first →
    producers p' = .link old first' → p = p'
  chain : ∀ {p first last chain}, producers p = .swapBack first last chain →
    IsList next (some first) chain ∧ chain.getLast? = some last
      ∧ ∀ item ∈ chain, item ∉ held ++ queue
  apart : ∀ {p p'}, p ≠ p' → (producers p).chain.Disjoint (producers p').chain

/-- The queue is empty and no producer has begun. -/
theorem Memory.init (next : T → Option T) : Memory next (fun _ : P => .idle) [] [] where
  nodup := nodup_nil
  held_joined := .nil
  held_last := by simp
  queue_joined := .nil
  queue_last := by simp
  link h := nomatch h
  single h := nomatch h
  chain h := nomatch h
  apart _ := disjoint_nil_left _

theorem mem_of_mem_dropLast (h : old ∈ held.dropLast ++ queue.dropLast) : old ∈ held ++ queue := by
  rcases mem_append.1 h with h | h
  · exact mem_append_left _ (dropLast_subset _ h)
  · exact mem_append_right _ (dropLast_subset _ h)

theorem Memory.write (h : Memory next producers held queue)
    (hmem : ∀ item ∈ held ++ queue, next' item = next item)
    (hch : ∀ p, ∀ item ∈ (producers p).chain, next' item = next item) :
    Memory next' producers held queue where
  nodup := h.nodup
  held_joined := h.held_joined.imp_of_mem_imp fun a b ha _ hab => by
    unfold Joined
    rwa [hmem a (mem_append_left _ ha)]
  held_last item hi := by
    rw [hmem item (mem_append_left _ (mem_of_getLast? hi))]
    exact h.held_last item hi
  queue_joined := h.queue_joined.imp_of_mem_imp fun a b ha _ hab => by
    unfold Joined
    rwa [hmem a (mem_append_right _ ha)]
  queue_last item hi := by
    rw [hmem item (mem_append_right _ (mem_of_getLast? hi))]
    exact h.queue_last item hi
  link hp := by
    obtain ⟨hno, hold⟩ := h.link hp
    exact ⟨(hmem _ (mem_of_mem_dropLast hold)).trans hno, hold⟩
  single := h.single
  chain {p first last chain} hp := by
    obtain ⟨hls, hlt, hnew⟩ := h.chain hp
    refine ⟨hls.congr fun item hi => hch p item ?_, hlt, hnew⟩
    rw [hp]
    exact hi
  apart := h.apart

theorem Memory.not_last (h : Memory next producers held queue)
    (hp : producers p = .link (some old) first) :
    held.getLast? ≠ some old ∧ queue.getLast? ≠ some old := by
  obtain ⟨hhl, hqu, hds⟩ := nodup_append'.1 h.nodup
  have hls : ∀ {l : List T}, l.Nodup → l.getLast? = some old → old ∉ l.dropLast := by
    intro l hl hi hd
    obtain ⟨l, rfl⟩ := getLast?_eq_some_iff.1 hi
    rw [dropLast_concat] at hd
    exact (nodup_append.1 hl).2.2 old hd old (mem_singleton_self old) rfl
  rcases mem_append.1 (h.link hp).2 with hold | hold
  · exact ⟨fun hi => hls hhl hi hold,
      fun hi => hds (dropLast_subset _ hold) (mem_of_getLast? hi)⟩
  · exact ⟨fun hi => hds (mem_of_getLast? hi) (dropLast_subset _ hold),
      fun hi => hls hqu hi hold⟩

theorem Joined.eq {a b c : T}
    (h : Joined next producers a b) (hc : next a = some c) : b = c := by
  rcases h with h | ⟨h, -⟩
  · exact Option.some.inj (h.symm.trans hc)
  · cases h.symm.trans hc

variable [DecidableEq P]

variable {producer : Producer T}

theorem eq_of_update {producer' : Producer T} {p p' : P}
    (h : Function.update producers p producer p' = producer') (hne : producer ≠ producer') :
    p' ≠ p ∧ producers p' = producer' := by
  by_cases heq : p' = p
  · subst heq
    rw [Function.update_self] at h
    exact absurd h hne
  · rw [Function.update_of_ne heq] at h
    exact ⟨heq, h⟩

theorem mem_chain_update {p p' : P} {item : T} (hnil : producer.chain = [])
    (h : item ∈ (Function.update producers p producer p').chain) :
    item ∈ (producers p').chain := by
  by_cases heq : p' = p
  · subst heq
    rw [Function.update_self, hnil] at h
    cases h
  · rwa [Function.update_of_ne heq] at h

theorem Joined.update {a b : T} (h : Joined next producers a b)
    (hp : producers p ≠ .link (some a) b) :
    Joined next (Function.update producers p producer) a b := by
  rcases h with h | ⟨hno, p', hp'⟩
  · exact .inl h
  · refine .inr ⟨hno, p', ?_⟩
    rw [Function.update_of_ne, hp']
    rintro rfl
    exact hp hp'

/-- A producer stores what it owes. -/
theorem Memory.linked {old : Option T} (h : Memory next producers held queue)
    (hp : producers p = .link old first) (hst : ∀ item ∈ old, next' item = some first)
    (hnx : ∀ item, old ≠ some item → next' item = next item) :
    Memory next' (Function.update producers p .idle) held queue := by
  have hjn : ∀ a b, Joined next producers a b →
      Joined next' (Function.update producers p .idle) a b := by
    intro a b hab
    by_cases heq : old = some a
    · subst heq
      rcases hab with hab | ⟨-, p', hp'⟩
      · rw [(h.link hp).1] at hab
        cases hab
      · cases h.single hp hp'
        cases hp.symm.trans hp'
        exact .inl (hst a rfl)
    · have hab' : Joined next (Function.update producers p .idle) a b := hab.update fun hp' => by
        rw [hp] at hp'
        cases hp'
        exact heq rfl
      unfold Joined
      rwa [hnx a heq]
  exact {
    nodup := h.nodup
    held_joined := h.held_joined.imp hjn
    held_last := fun item hi => by
      rw [hnx, h.held_last item hi]
      rintro rfl
      exact (h.not_last hp).1 hi
    queue_joined := h.queue_joined.imp hjn
    queue_last := fun item hi => by
      rw [hnx, h.queue_last item hi]
      rintro rfl
      exact (h.not_last hp).2 hi
    link := fun hp' => by
      obtain ⟨hne, hp'⟩ := eq_of_update hp' nofun
      obtain ⟨hno, hold⟩ := h.link hp'
      refine ⟨?_, hold⟩
      rw [hnx, hno]
      rintro rfl
      exact hne (h.single hp' hp)
    single := fun hp₁ hp₂ =>
      h.single (eq_of_update hp₁ nofun).2 (eq_of_update hp₂ nofun).2
    chain := fun {p' first' last chain} hp' => by
      obtain ⟨hne, hp'⟩ := eq_of_update hp' nofun
      obtain ⟨hls, hlt', hnew⟩ := h.chain hp'
      refine ⟨hls.congr fun item hi => hnx item ?_, hlt', hnew⟩
      rintro rfl
      exact hnew item hi (mem_of_mem_dropLast (h.link hp).2)
    apart := fun {p₁ p₂} hne item h₁ h₂ =>
      h.apart hne (mem_chain_update rfl h₁) (mem_chain_update rfl h₂) }

/-- A producer that has prepared a chain of its own changes nothing of the queue. -/
theorem Memory.prepared {chain : List T} (h : Memory next producers held queue)
    (hp : producers p = .idle) (hls : IsList next (some first) chain)
    (hlt : chain.getLast? = some last) (hnew : ∀ item ∈ chain, item ∉ held ++ queue)
    (hap : ∀ p, ∀ item ∈ chain, item ∉ (producers p).chain) :
    Memory next (Function.update producers p (.swapBack first last chain)) held queue where
  nodup := h.nodup
  held_joined := h.held_joined.imp fun a b hab => hab.update (by rw [hp]; nofun)
  held_last := h.held_last
  queue_joined := h.queue_joined.imp fun a b hab => hab.update (by rw [hp]; nofun)
  queue_last := h.queue_last
  link hp' := h.link (eq_of_update hp' nofun).2
  single hp₁ hp₂ := h.single (eq_of_update hp₁ nofun).2 (eq_of_update hp₂ nofun).2
  chain {p' first' last' chain'} hp' := by
    by_cases heq : p' = p
    · subst heq
      rw [Function.update_self] at hp'
      cases hp'
      exact ⟨hls, hlt, hnew⟩
    · rw [Function.update_of_ne heq] at hp'
      exact h.chain hp'
  apart {p₁ p₂} hne := by
    by_cases h₁ : p₁ = p
    · subst h₁
      rw [Function.update_self, Function.update_of_ne (Ne.symm hne)]
      exact hap p₂
    · rw [Function.update_of_ne h₁]
      by_cases h₂ : p₂ = p
      · subst h₂
        rw [Function.update_self]
        exact fun item hi hc => hap p₁ item hc hi
      · rw [Function.update_of_ne h₂]
        exact h.apart hne

/-- `back` is swapped: what the producer pushes is queued, and its link to it owed. -/
theorem Memory.swapped {chain : List T} (h : Memory next producers held queue)
    (hp : producers p = .swapBack first last chain)
    (hfr : queue = [] → ∀ p item, producers p ≠ .link none item) :
    Memory next (Function.update producers p (.link queue.getLast? first)) held
      (queue ++ chain) := by
  obtain ⟨hls, hlt, hnew⟩ := h.chain hp
  obtain ⟨hhl, hqu, hds⟩ := nodup_append'.1 h.nodup
  have hno : ∀ p' item, producers p' ≠ .link queue.getLast? item := by
    intro p' item hp'
    cases hget : queue.getLast? with
    | none => exact hfr (getLast?_eq_none_iff.1 hget) p' item (hget ▸ hp')
    | some old => exact (h.not_last (hget ▸ hp')).2 hget
  have hjn : ∀ a b, Joined next producers a b →
      Joined next (Function.update producers p (.link queue.getLast? first)) a b :=
    fun a b hab => hab.update (by rw [hp]; nofun)
  have hdr : queue.dropLast ⊆ (queue ++ chain).dropLast := by
    intro item hi
    rw [dropLast_append_of_ne_nil (by rintro rfl; cases hlt)]
    exact mem_append_left _ (dropLast_subset _ hi)
  exact {
    nodup := by
      rw [← append_assoc]
      exact nodup_append'.2 ⟨h.nodup, hls.nodup, fun item hi hc => hnew item hc hi⟩
    held_joined := h.held_joined.imp hjn
    held_last := h.held_last
    queue_joined := by
      refine isChain_append.2 ⟨h.queue_joined.imp hjn,
        hls.isChain.imp fun a b hab => .inl hab, fun x hx y hy => ?_⟩
      cases hls.it_eq.trans hy
      exact .inr ⟨h.queue_last x hx, p, by rw [Function.update_self, hx]⟩
    queue_last := fun item hi => by
      rw [getLast?_append, hlt] at hi
      cases hi
      exact hls.last hlt
    link := fun {p' old first'} hp' => by
      by_cases heq : p' = p
      · subst heq
        rw [Function.update_self] at hp'
        obtain ⟨hget, rfl⟩ := Producer.link.inj hp'
        refine ⟨h.queue_last old hget, mem_append_right _ ?_⟩
        rw [dropLast_append_of_ne_nil (by rintro rfl; cases hlt)]
        exact mem_append_left _ (mem_of_getLast? hget)
      · rw [Function.update_of_ne heq] at hp'
        refine ⟨(h.link hp').1, ?_⟩
        rcases mem_append.1 (h.link hp').2 with hold | hold
        · exact mem_append_left _ hold
        · exact mem_append_right _ (hdr hold)
    single := fun {p₁ p₂ old first₁ first₂} hp₁ hp₂ => by
      by_cases h₁ : p₁ = p <;> by_cases h₂ : p₂ = p
      · exact h₁.trans h₂.symm
      · subst h₁
        rw [Function.update_self] at hp₁
        rw [Function.update_of_ne h₂, ← (Producer.link.inj hp₁).1] at hp₂
        exact absurd hp₂ (hno _ _)
      · subst h₂
        rw [Function.update_self] at hp₂
        rw [Function.update_of_ne h₁, ← (Producer.link.inj hp₂).1] at hp₁
        exact absurd hp₁ (hno _ _)
      · rw [Function.update_of_ne h₁] at hp₁
        rw [Function.update_of_ne h₂] at hp₂
        exact h.single hp₁ hp₂
    chain := fun {p' first' last' chain'} hp' => by
      obtain ⟨hne, hp'⟩ := eq_of_update hp' nofun
      obtain ⟨hls', hlt', hnew'⟩ := h.chain hp'
      refine ⟨hls', hlt', fun item hi => ?_⟩
      rw [← append_assoc, mem_append, not_or]
      refine ⟨hnew' item hi, fun hc => h.apart hne (a := item) ?_ ?_⟩
      · rwa [hp']
      · rwa [hp]
    apart := fun {p₁ p₂} hne item h₁ h₂ =>
      h.apart hne (mem_chain_update rfl h₁) (mem_chain_update rfl h₂) }

omit [DecidableEq P]

theorem Memory.popped (h : Memory next producers held (first :: queue))
    (hnx : next first ≠ none ∨ queue = []) : Memory next producers held queue where
  nodup := h.nodup.sublist ((sublist_cons_self first queue).append_left held)
  held_joined := h.held_joined
  held_last := h.held_last
  queue_joined := (isChain_cons.1 h.queue_joined).2
  queue_last item hi := h.queue_last item (by
    rw [getLast?_cons, hi]
    rfl)
  link {p old first'} hp := by
    obtain ⟨hno, hold⟩ := h.link hp
    refine ⟨hno, ?_⟩
    rcases mem_append.1 hold with hold | hold
    · exact mem_append_left _ hold
    · cases queue with
      | nil => cases hold
      | cons second queue =>
        rcases mem_cons.1 hold with rfl | hold
        · rcases hnx with hnx | hnil
          · exact absurd hno hnx
          · cases hnil
        · exact mem_append_right _ hold
  single := h.single
  chain hp := by
    obtain ⟨hls, hlt, hnew⟩ := h.chain hp
    refine ⟨hls, hlt, fun item hi hmem => hnew item hi ?_⟩
    rcases mem_append.1 hmem with hmem | hmem
    · exact mem_append_left _ hmem
    · exact mem_append_right _ (mem_cons_of_mem _ hmem)
  apart := h.apart

/-- `popBatch` takes all of the queue. -/
theorem Memory.taken (h : Memory next producers [] queue) : Memory next producers queue [] where
  nodup := by simpa using h.nodup
  held_joined := h.queue_joined
  held_last := h.queue_last
  queue_joined := .nil
  queue_last := by simp
  link hp := by simpa using h.link hp
  single := h.single
  chain hp := by simpa using h.chain hp
  apart := h.apart

/-- `popBatch` has gone through all it took. -/
theorem Memory.given (h : Memory next producers held queue)
    (hnx : ∀ item ∈ held.dropLast, next item ≠ none) : Memory next producers [] queue where
  nodup := (nodup_append.1 h.nodup).2.1
  held_joined := .nil
  held_last := by simp
  queue_joined := h.queue_joined
  queue_last := h.queue_last
  link hp := by
    obtain ⟨hno, hold⟩ := h.link hp
    refine ⟨hno, ?_⟩
    rcases mem_append.1 hold with hold | hold
    · exact absurd hno (hnx _ hold)
    · exact hold
  single := h.single
  chain hp := by
    obtain ⟨hls, hlt, hnew⟩ := h.chain hp
    exact ⟨hls, hlt, fun item hi hmem => hnew item hi (mem_append_right _ hmem)⟩
  apart := h.apart

end Cruller.Threading
