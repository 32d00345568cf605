import Cruller.Dotenv.Parser
import Cruller.Lib.ArrayMap

/-!
# Loading variables into the map

The values of the process environment lie outside of the allocator's memory, and those of a file
are copies of what was parsed. The allocator ends the program (`none`) when it is to free what is no
live memory of its.
-/

namespace Cruller.Dotenv

/-- A text of the process, or one of the allocator's. -/
inductive Slice where
  | process (text : List UInt8)
  | allocated (address : ℕ)
deriving DecidableEq

/-- The texts that were allocated, without those that are freed. -/
structure Heap where
  cells : List (Option (List UInt8)) := []

namespace Heap

variable (h : Heap)

/-- The text that a slice shows, while it lives. -/
def text : Slice → Option (List UInt8)
  | .process text => some text
  | .allocated address => h.cells[address]?.join

def dupe (text : List UInt8) : Slice × Heap :=
  (.allocated h.cells.length, ⟨h.cells ++ [some text]⟩)

/-- Only what was allocated may be freed. -/
def free : Slice → Option Heap
  | .process _ => none
  | .allocated address =>
    if h.cells[address]?.join = none then none else some ⟨h.cells.set address none⟩

end Heap

/-- The value of a variable. -/
structure HashTableValue where
  value : Slice
  conditional : Bool

/-- The variables, and the memory of their values. -/
structure Loader where
  map : ArrayMap (List UInt8) HashTableValue := .empty
  heap : Heap := {}

namespace Loader

variable (this : Loader)

/-- `map.get` -/
def get (key : List UInt8) : Option (List UInt8) :=
  (this.map.get? key).bind fun entry => this.heap.text entry.value

/-- The key gets a copy of the value. -/
def store (key value : List UInt8) : Loader :=
  let (slice, heap) := this.heap.dupe value
  { map := this.map.put key ⟨slice, false⟩, heap := heap }

/-- What one definition does to the map; `count` is how many entries there were before the file. -/
def define (override : Bool) (count : ℕ) (key value : List UInt8) : Option Loader :=
  match this.map.index? key with
  | none => some (this.store key value)
  | some index =>
    if index < count then
      if !override then some this else some (this.store key value)
    else do
      let entry ← this.map.get? key
      let heap ← this.heap.free entry.value
      some ({ this with heap := heap }.store key value)

end Loader

/-- `while (this.pos < this.src.len)` -/
def parseLoop (override is_process : Bool) (count : ℕ) : List UInt8 → Loader → Option Loader
  | [], map => some map
  | c :: src, map =>
    match _h : parseKey (skipWhitespaces (c :: src)) with
    | none => parseLoop override is_process count (skipLine (skipWhitespaces (c :: src))) map
    | some (key, rest) => do
      let map ← map.define override count key (parseValue is_process rest).1
      parseLoop override is_process count (parseValue is_process rest).2 map
termination_by src => src.length
decreasing_by
  · exact length_skipLine_lt (List.cons_ne_nil c src)
  · have hkey := length_parseKey_lt _h
    have hws := length_skipWhitespaces_le (c :: src)
    have hvalue := length_parseValue_le is_process rest
    dsimp only at hkey
    omega

/-- `while (it.next())`, over the keys of the entries that the file has added. -/
def expandEntries : List (List UInt8) → Loader → Option Loader
  | [], map => some map
  | key :: keys, map => do
    let entry ← map.map.get? key
    let text ← map.heap.text entry.value
    match ← expandValue map.get text with
    | none => expandEntries keys map
    | some value => do
      let heap ← map.heap.free entry.value
      expandEntries keys ({ map with heap := heap }.store key value)

/-- `Parser.parse` -/
def parse (override is_process expand : Bool) (src : List UInt8) (map : Loader) :
    Option Loader := do
  let count := map.map.count
  let map ← parseLoop override is_process count src map
  if !is_process && expand then expandEntries (map.map.keys.drop count) map else some map

namespace Loader

/-- The variable that a string of the environment sets. -/
def putProcess (this : Loader) (env : List UInt8) : Loader :=
  let key := env.takeWhile (· != 0x3D)
  let value := (env.dropWhile (· != 0x3D)).tail
  if key = [] then this else { this with map := this.map.put key ⟨.process value, false⟩ }

def loadProcess (environ : List (List UInt8)) : Loader := environ.foldl putProcess {}

/-- `loadFromString`, without override and without expansion, once for each of the texts. -/
def loadTexts (this : Loader) (texts : List (List UInt8)) : Option Loader :=
  texts.foldlM (fun map str => parse false false false str map) this

end Loader

end Cruller.Dotenv
