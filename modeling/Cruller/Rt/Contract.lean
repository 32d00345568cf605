import Mathlib.Tactic

/-!
# The host/engine contract

The fixed-layout messages of `rt/contract.zig`: a reference into the data plane, the command that
carries it, and the codes of both. Payload bytes stay in the data plane; a command only names them.
-/

namespace Cruller

/-- A part of a block of a pool, as it is sent between the sides. -/
structure BufferRef where
  poolId : UInt32 := 0
  bufferId : UInt32 := 0
  generation : UInt32 := 0
  offset : UInt32 := 0
  length : UInt32 := 0
deriving DecidableEq, Repr

def BufferRef.isEmpty (ref : BufferRef) : Bool :=
  ref.length == 0

/-- The part of memory a map hands out. -/
structure MappedBuffer where
  ptr : ℕ
  len : ℕ
deriving DecidableEq, Repr

/-- The bytes that a mapped buffer stands for. -/
def MappedBuffer.slice {α : Type*} (mem : ℕ → α) (m : MappedBuffer) : List α :=
  (List.range m.len).map fun i => mem (m.ptr + i)

theorem MappedBuffer.slice_getElem? {α : Type*} (mem : ℕ → α) (m : MappedBuffer) (i : ℕ) :
    (m.slice mem)[i]? = if i < m.len then some (mem (m.ptr + i)) else none := by
  rw [slice, List.getElem?_map]
  by_cases hi : i < m.len
  · rw [List.getElem?_range hi, if_pos hi, Option.map_some]
  · rw [List.getElem?_eq_none (by simpa using hi), if_neg hi, Option.map_none]

@[simp]
theorem MappedBuffer.slice_length {α : Type*} (mem : ℕ → α) (m : MappedBuffer) :
    (m.slice mem).length = m.len := by
  simp [slice]

/-- What a message is about; other numbers are let through. -/
inductive MessageKind where
  | submit
  | completion
  | event
  | cancel
  | shutdown
  | other (value : UInt16)
deriving DecidableEq, Repr

def MessageKind.ofInt : UInt16 → MessageKind
  | 1 => .submit
  | 2 => .completion
  | 3 => .event
  | 4 => .cancel
  | 5 => .shutdown
  | value => .other value

def MessageKind.toInt : MessageKind → UInt16
  | .submit => 1
  | .completion => 2
  | .event => 3
  | .cancel => 4
  | .shutdown => 5
  | .other value => value

/-- The operations the modelled functions tell apart; every other code is `other`. -/
inductive Operation where
  | none
  | resourceOpen
  | resourceClose
  | resourceRead
  | resourceWrite
  | httpRequestStart
  | httpRequestBody
  | httpRequestEnd
  | httpRequestReady
  | httpResponseHeaders
  | httpResponseBody
  | httpResponseEnd
  | serverRequest
  | serverResponseEnd
  | other (value : UInt16)
deriving DecidableEq, Repr

def Operation.ofInt : UInt16 → Operation
  | 0 => .none
  | 16 => .resourceOpen
  | 17 => .resourceClose
  | 18 => .resourceRead
  | 19 => .resourceWrite
  | 48 => .httpRequestStart
  | 49 => .httpRequestBody
  | 50 => .httpRequestEnd
  | 51 => .httpRequestReady
  | 52 => .httpResponseHeaders
  | 53 => .httpResponseBody
  | 54 => .httpResponseEnd
  | 65 => .serverRequest
  | 68 => .serverResponseEnd
  | value => .other value

def Operation.toInt : Operation → UInt16
  | .none => 0
  | .resourceOpen => 16
  | .resourceClose => 17
  | .resourceRead => 18
  | .resourceWrite => 19
  | .httpRequestStart => 48
  | .httpRequestBody => 49
  | .httpRequestEnd => 50
  | .httpRequestReady => 51
  | .httpResponseHeaders => 52
  | .httpResponseBody => 53
  | .httpResponseEnd => 54
  | .serverRequest => 65
  | .serverResponseEnd => 68
  | .other value => value

/-- A message of either direction. A non-empty payload transfers one owned reference when its send
succeeds; a failed send leaves it with the sender. -/
structure Command where
  kind : UInt16 := MessageKind.submit.toInt
  operation : UInt16 := Operation.none.toInt
  status : ℤ := 0
  requestId : UInt64 := 0
  resourceId : UInt64 := 0
  payload : BufferRef := {}
  arg0 : UInt64 := 0
  arg1 : UInt64 := 0
deriving DecidableEq, Repr

namespace Command

def init (kind : MessageKind) (operation : Operation) : Command where
  kind := kind.toInt
  operation := operation.toInt

def messageKind (command : Command) : MessageKind :=
  .ofInt command.kind

def operationKind (command : Command) : Operation :=
  .ofInt command.operation

end Command

end Cruller
