import Cruller.Lib.LinkedList

/-!
# The unbounded queue

`threading/unbounded_queue.zig`: an intrusive list with many producers and one consumer. Each of
the atomic operations is one step, and the steps of the producers and of the consumer come in any
order. A producer of `pushBatch` swaps `back` and then links what it swapped out, so between the
two a list is not linked through; the consumer's `pop` and `popBatch` take `front`, and wait for a
link where they need it.

`T` are the items and `P` the producers. The record is what was pushed, in the order of the swaps,
and what the consumer's calls returned.
-/

namespace Cruller.Threading

/-- The fields of `Batch`. -/
structure Batch (T : Type*) where
  front : Option T
  last : Option T
  count : ℕ

/-- What `Batch.Iterator` goes through; its `orelse unreachable` ends it early. -/
def Batch.itemsFrom {T : Type*} (next : T → Option T) : Option T → ℕ → List T
  | _, 0 => []
  | none, _ + 1 => []
  | some front, count + 1 => front :: itemsFrom next (next front) count

/-- The items of a batch, as its iterator finds them. -/
def Batch.items {T : Type*} (next : T → Option T) (batch : Batch T) : List T :=
  itemsFrom next batch.front batch.count

/-- Where a producer is in `pushBatch`. -/
inductive Producer (T : Type*) where
  | idle
  /-- `setNext(last, null)` is done; `chain` is what is reached from `first`. -/
  | swapBack (first last : T) (chain : List T)
  /-- `back` was swapped; what it was is to be linked to `first`, or `front` stored. -/
  | link (old_back : Option T) (first : T)

/-- Where the consumer is in `pop` or `popBatch`. -/
inductive Consumer (T : Type*) where
  | idle
  /-- `pop` is to load the link of `first`. -/
  | loadNext (first : T)
  | exchangeFront (first : T) (next_ptr : Option T)
  | exchangeBack (first : T)
  | waitNext (first : T)
  | storeFront (first new_first : T)
  /-- `popBatch` has swapped `front`. -/
  | swapBack (first : T)
  | walk (first last next_item : T) (count : ℕ)
  /-- A null `back` was unwrapped, or the assertion on `back` failed. -/
  | failed

/-- What a call returned; with a batch the items it goes through. -/
inductive Returned (T : Type*) where
  | popped (item : T)
  | batch (batch : Batch T) (items : List T)
  | nothing

/-- The items that one call returns. -/
def Returned.items {T : Type*} : Returned T → List T
  | .popped item => [item]
  | .batch _ items => items
  | .nothing => []

/-- The memory of the queue, what each thread is doing, and what was pushed and returned. -/
structure UnboundedQueue (P T : Type*) where
  /-- The `next` fields of the items. -/
  next : T → Option T
  back : Option T
  front : Option T
  producers : P → Producer T
  consumer : Consumer T
  /-- The items of each producer's calls, in the order of the calls. -/
  called : P → List T
  pushed : List (P × T)
  returned : List (Returned T)

/-- One atomic operation of a thread, or the call that begins a sequence of them. -/
inductive Op (P T : Type*) where
  /-- The `next` field of an item outside the queue is written. -/
  | setNext (item : T) (ptr : Option T)
  /-- A producer calls `pushBatch(first, last)`; `chain` is what it pushes. -/
  | pushBatch (p : P) (first last : T) (chain : List T)
  /-- A producer takes its next step. -/
  | produce (p : P)
  | pop
  | popBatch
  /-- The consumer takes its next step; `cmpxchgWeak` may fail for no reason. -/
  | consume (spurious : Bool)

variable {P T : Type*} [DecidableEq P] [DecidableEq T]

namespace UnboundedQueue

/-- Nothing is queued, and no call is under way. -/
def init (next : T → Option T) : UnboundedQueue P T where
  next := next
  back := none
  front := none
  producers _ := .idle
  consumer := .idle
  called _ := []
  pushed := []
  returned := []

variable (q : UnboundedQueue P T)

/-- The items pushed, in order. -/
def items : List T :=
  q.pushed.map Prod.snd

/-- The items returned, in order. -/
def returnedItems : List T :=
  q.returned.flatMap Returned.items

/-- The consumer returns from its call. -/
def give (r : Returned T) : UnboundedQueue P T :=
  { q with consumer := .idle, returned := q.returned ++ [r] }

/-- The step of `pushBatch` a producer is at. -/
def produce (p : P) : UnboundedQueue P T :=
  match q.producers p with
  | .idle => q
  | .swapBack first last chain =>
    { q with
      back := some last
      producers := Function.update q.producers p (.link q.back first)
      pushed := q.pushed ++ chain.map (p, ·) }
  | .link (some old_back) first =>
    { q with
      next := Function.update q.next old_back (some first)
      producers := Function.update q.producers p .idle }
  | .link none first =>
    { q with front := some first, producers := Function.update q.producers p .idle }

/-- `pop`, to its first load. -/
def pop : UnboundedQueue P T :=
  match q.front with
  | none => q.give .nothing
  | some first => { q with consumer := .loadNext first }

/-- `popBatch`, to its first swap. -/
def popBatch : UnboundedQueue P T :=
  match q.front with
  | none => q.give .nothing
  | some first => { q with front := none, consumer := .swapBack first }

/-- The step of `pop` or `popBatch` the consumer is at. -/
def consume (spurious : Bool) : UnboundedQueue P T :=
  match q.consumer with
  | .idle => q
  | .loadNext first => { q with consumer := .exchangeFront first (q.next first) }
  | .exchangeFront first next_ptr =>
    if q.front = some first ∧ spurious = false then
      match next_ptr with
      | some _ => ({ q with front := next_ptr } : UnboundedQueue P T).give (.popped first)
      | none => { q with front := next_ptr, consumer := .exchangeBack first }
    else
      match q.front with
      | none => q.give .nothing
      | some maybe_first => { q with consumer := .loadNext maybe_first }
  | .exchangeBack first =>
    if q.back = some first then
      ({ q with back := none } : UnboundedQueue P T).give (.popped first)
    else if q.back = none then
      { q with consumer := .failed }
    else
      { q with consumer := .waitNext first }
  | .waitNext first =>
    match q.next first with
    | none => q
    | some new_first => { q with consumer := .storeFront first new_first }
  | .storeFront first new_first =>
    ({ q with front := some new_first } : UnboundedQueue P T).give (.popped first)
  | .swapBack first =>
    match q.back with
    | none => { q with consumer := .failed }
    | some last => { q with back := none, consumer := .walk first last first 1 }
  | .walk first last next_item count =>
    if next_item = last then
      let batch : Batch T := ⟨some first, some last, count⟩
      q.give (.batch batch (batch.items q.next))
    else
      match q.next next_item with
      | none => q
      | some next => { q with consumer := .walk first last next (count + 1) }
  | .failed => q

/-- The state after the operation. -/
def step : Op P T → UnboundedQueue P T
  | .setNext item ptr => { q with next := Function.update q.next item ptr }
  | .pushBatch p first last chain =>
    { q with
      next := Function.update q.next last none
      producers := Function.update q.producers p (.swapBack first last chain)
      called := Function.update q.called p (q.called p ++ chain) }
  | .produce p => q.produce p
  | .pop => q.pop
  | .popBatch => q.popBatch
  | .consume spurious => q.consume spurious

/-- An item was pushed and not returned, or is about to be pushed. -/
def InUse (item : T) : Prop :=
  q.returnedItems.count item < q.items.count item
    ∨ ∃ p first last chain, q.producers p = .swapBack first last chain ∧ item ∈ chain

/-- What the callers keep to: a call at a time, no item in use is written or pushed again, and
`last` is reached from `first`. -/
def Allowed : Op P T → Prop
  | .setNext item _ => ¬ q.InUse item
  | .pushBatch p first last chain =>
    q.producers p = .idle ∧ IsList (Function.update q.next last none) (some first) chain
      ∧ chain.getLast? = some last ∧ ∀ item ∈ chain, ¬ q.InUse item
  | .produce _ | .consume _ => True
  | .pop | .popBatch => q.consumer = .idle

/-- What any order of steps reaches. -/
inductive Reachable : UnboundedQueue P T → Prop
  | init (next : T → Option T) : Reachable (init next)
  | step {q : UnboundedQueue P T} {op : Op P T} : Reachable q → q.Allowed op →
      Reachable (q.step op)

end UnboundedQueue

end Cruller.Threading
