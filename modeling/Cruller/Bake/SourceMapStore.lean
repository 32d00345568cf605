import Cruller.Collections.FifoRemoval

/-!
# The source maps of the dev server

`SourceMapStore` counts the references to an entry: those that a socket or a route bundle holds,
and weak ones, which a ring of sixteen keeps for pages that have been served but not connected yet.
The counts are `u32`.
-/

namespace Cruller.Bake

/-- How a call may end the program. -/
inductive Panic where
  | overflow
  | underflow
  | outOfBounds
  | assertion
  | «unreachable»
deriving DecidableEq

def weak_ref_expiry_seconds : ℤ := 10

def weak_ref_entry_max : ℕ := 16

abbrev Key := UInt64

/-- References that a page will claim or let expire. -/
structure WeakRef where
  key_top_bits : UInt32
  count : ℕ
  expire : ℤ
deriving DecidableEq

def WeakRef.key (ref : WeakRef) : Key := ref.key_top_bits.toUInt64 <<< 32

def WeakRef.init (k : Key) (count : ℕ) (expire : ℤ) : WeakRef :=
  ⟨(k >>> 32).toUInt32, count, expire⟩

/-- The key of a route bundle's script, whose bottom bits are clear. -/
def Key.IsRoute (key : Key) : Prop := key.toNat % 2 ^ 32 = 0

instance (key : Key) : Decidable key.IsRoute := inferInstanceAs (Decidable (_ = _))

/-- How many weak references are moved at a time is of no consequence. -/
abbrev WeakRefs := LinearFifo ⟨.Static 16, 1, Nat.one_pos⟩ WeakRef

/-- The reference counts of the entries, and the ring of weak references. -/
structure SourceMapStore where
  /-- The `ref_count` of every entry. -/
  entries : Key → Option ℕ
  weak_refs : WeakRefs

def addCount (a b : ℕ) : Except Panic ℕ := if a + b < 2 ^ 32 then .ok (a + b) else .error .overflow

def subCount (a b : ℕ) : Except Panic ℕ := if b ≤ a then .ok (a - b) else .error .underflow

def orPanic {α : Type} (p : Panic) : Option α → Except Panic α
  | some a => .ok a
  | none => .error p

namespace SourceMapStore

def empty : SourceMapStore where
  entries _ := none
  weak_refs := .initStatic weak_ref_entry_max

variable (store : SourceMapStore)

/-- The count of an entry; `none` removes it. -/
def setCount (key : Key) (ref_count : Option ℕ) : SourceMapStore :=
  { store with entries := Function.update store.entries key ref_count }

/-- `ref_count` references more to an entry, which may be new. -/
def putOrIncrementRefCount (script_id : Key) (ref_count : ℕ) : Except Panic SourceMapStore :=
  match store.entries script_id with
  | none =>
    if 0 < ref_count then .ok (store.setCount script_id (some ref_count)) else .error .assertion
  | some old => do
    let new ← addCount old ref_count
    return store.setCount script_id (some new)

/-- `count` references less; at zero the entry is removed. -/
def unrefCount (key : Key) (count : ℕ) : Except Panic SourceMapStore :=
  match store.entries key with
  | none => .error .assertion
  | some old => do
    let new ← subCount old count
    return store.setCount key (if new = 0 then none else some new)

def unref (key : Key) : Except Panic SourceMapStore := store.unrefCount key 1

/-- The weak reference of a key, with its place in the ring. -/
def locateWeakRef (key : Key) : Option (ℕ × WeakRef) :=
  (List.range store.weak_refs.count).findSome? fun i =>
    (store.weak_refs.peekItem i).bind fun ref => if ref.key = key then some (i, ref) else none

/-- Where the ring is full, the oldest weak reference is given up to make room. -/
def makeRoom : Except Panic SourceMapStore :=
  if weak_ref_entry_max ≤ store.weak_refs.count then do
    let first ← orPanic .unreachable store.weak_refs.readItem.1
    { store with weak_refs := store.weak_refs.readItem.2 }.unrefCount first.key first.count
  else .ok store

/-- `now` is the second of the clock. -/
def addWeakRef (key : Key) (now : ℤ) : Except Panic SourceMapStore :=
  match store.entries key with
  | none => .error .assertion
  | some old => do
    let new ← addCount old 1
    let store := store.setCount key (some new)
    let (store, new_weak_ref_count) ←
      match store.locateWeakRef key with
      | some (i, ref) => do
        let count ← addCount 1 ref.count
        let weak_refs ← orPanic .outOfBounds (store.weak_refs.orderedRemoveItem i)
        pure ({ store with weak_refs := weak_refs }, count)
      | none => do
        let store ← store.makeRoom
        pure (store, 1)
    let expire := now + weak_ref_expiry_seconds
    let weak_refs ← orPanic .unreachable
      (store.weak_refs.writeItem (.init key new_weak_ref_count expire))
    return { store with weak_refs := weak_refs }

/-- Whether the weak reference is dropped or becomes a strong one. -/
inductive Mode where
  | remove
  | upgrade
deriving DecidableEq

def Mode.toNat : Mode → ℕ
  | remove => 0
  | upgrade => 1

/-- One weak reference less of the key, and whether there was an entry. -/
def removeOrUpgradeWeakRef (key : Key) (mode : Mode) : Except Panic (SourceMapStore × Bool) :=
  match store.entries key with
  | none => .ok (store, false)
  | some old =>
    match store.locateWeakRef key with
    | some (i, ref) => do
      let store := { store with
        weak_refs := store.weak_refs.modifyItem i fun ref => { ref with count := ref.count - 1 } }
      let store ← if mode = .remove then store.unref key else pure store
      if ref.count - 1 = 0 then
        let weak_refs ← orPanic .outOfBounds (store.weak_refs.orderedRemoveItem i)
        return ({ store with weak_refs := weak_refs }, true)
      else return (store, true)
    | none => do
      let new ← addCount old mode.toNat
      return (store.setCount key (some new), true)

/-- The loop over the weak references that have expired; `n` bounds the rounds. -/
def sweep (now : ℤ) : ℕ → SourceMapStore → Except Panic SourceMapStore
  | 0, store => .ok store
  | n + 1, store =>
    match store.weak_refs.readItem with
    | (none, _) => .ok store
    | (some item, weak_refs) =>
      if item.expire ≤ now then do
        let store ← { store with weak_refs := weak_refs }.unrefCount item.key item.count
        sweep now n store
      else do
        let weak_refs ← orPanic .unreachable (weak_refs.ungetItem item)
        return { store with weak_refs := weak_refs }

/-- The weak references that have expired are let go of. -/
def sweepWeakRefs (now : ℤ) : Except Panic SourceMapStore :=
  sweep (max now 0) (store.weak_refs.count + 1) store

end SourceMapStore

/-- The store and how many strong references to each entry there are. -/
structure Held where
  store : SourceMapStore
  strong : Key → ℕ

/-- A call of the store. -/
inductive StoreEvent where
  | putOrIncrementRefCount (script_id : Key) (ref_count : ℕ)
  | addWeakRef (key : Key) (now : ℤ)
  | removeOrUpgradeWeakRef (key : Key) (mode : SourceMapStore.Mode)
  | sweepWeakRefs (now : ℤ)
  | unref (key : Key)

namespace Held

def empty : Held := ⟨.empty, fun _ => 0⟩

/-- `n` strong references more. -/
def gain (s : Held) (key : Key) (n : ℕ) (store : SourceMapStore) : Held :=
  ⟨store, Function.update s.strong key (s.strong key + n)⟩

/-- Who puts an entry, or is told that a weak reference is his, holds it from then on. -/
def step (s : Held) : StoreEvent → Except Panic Held
  | .putOrIncrementRefCount script_id ref_count => do
    let store ← s.store.putOrIncrementRefCount script_id ref_count
    return s.gain script_id ref_count store
  | .addWeakRef key now => do
    let store ← s.store.addWeakRef key now
    return { s with store := store }
  | .removeOrUpgradeWeakRef key mode => do
    let (store, found) ← s.store.removeOrUpgradeWeakRef key mode
    return if found then s.gain key mode.toNat store else { s with store := store }
  | .sweepWeakRefs now => do
    let store ← s.store.sweepWeakRefs now
    return { s with store := store }
  | .unref key => do
    let store ← s.store.unref key
    return ⟨store, Function.update s.strong key (s.strong key - 1)⟩

/-- What the callers keep to: a new entry is put with a reference at least, a weak reference goes
to the entry of a route bundle, and only a holder gives up a reference. -/
def Allowed (s : Held) : StoreEvent → Prop
  | .putOrIncrementRefCount script_id ref_count =>
    s.store.entries script_id = none → 0 < ref_count
  | .addWeakRef key _ => key.IsRoute ∧ s.store.entries key ≠ none
  | .unref key => 0 < s.strong key
  | _ => True

end Held

end Cruller.Bake
