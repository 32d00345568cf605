import Mathlib.Tactic

/-!
# The reader of RESP values

A reader takes bytes from the front of what has arrived, and gives a value or an error;
`InvalidResponse` is the one that stands for bytes that have not arrived yet. Aggregates are read
with the reader of the level below them, so the levels left bound the nesting.

Floating-point numbers are kept abstract: `FloatText` is what is read from their text.
-/

namespace Cruller.Valkey

/-- What a reader or a client can fail with. -/
inductive RedisError where
  | AuthenticationFailed
  | ConnectionClosed
  | InvalidArgument
  | InvalidArray
  | InvalidAttribute
  | InvalidBigNumber
  | InvalidBlobError
  | InvalidBoolean
  | InvalidBulkString
  | InvalidCommand
  | InvalidDouble
  | InvalidErrorString
  | InvalidInteger
  | InvalidMap
  | InvalidNull
  | InvalidPush
  | InvalidResponse
  | InvalidResponseType
  | InvalidSet
  | InvalidSimpleString
  | InvalidVerbatimString
  | JSError
  | OutOfMemory
  | JSTerminated
  | UnsupportedProtocol
  | ConnectionTimeout
  | IdleTimeout
  | NestingDepthExceeded
deriving DecidableEq

/-- The types of a value, by the byte before it. -/
inductive RESPType where
  | SimpleString
  | Error
  | Integer
  | BulkString
  | Array
  | Null
  | Double
  | Boolean
  | BlobError
  | VerbatimString
  | Map
  | Set
  | Attribute
  | Push
  | BigNumber
deriving DecidableEq

namespace RESPType

/-- The byte that a value of the type begins with. -/
def toByte : RESPType → UInt8
  | SimpleString => '+'.toUInt8
  | Error => '-'.toUInt8
  | Integer => ':'.toUInt8
  | BulkString => '$'.toUInt8
  | Array => '*'.toUInt8
  | Null => '_'.toUInt8
  | Double => ','.toUInt8
  | Boolean => '#'.toUInt8
  | BlobError => '!'.toUInt8
  | VerbatimString => '='.toUInt8
  | Map => '%'.toUInt8
  | Set => '~'.toUInt8
  | Attribute => '|'.toUInt8
  | Push => '>'.toUInt8
  | BigNumber => '('.toUInt8

def all : List RESPType :=
  [SimpleString, Error, Integer, BulkString, Array, Null, Double, Boolean, BlobError,
    VerbatimString, Map, Set, Attribute, Push, BigNumber]

def fromByte (byte : UInt8) : Option RESPType := all.find? fun t => t.toByte == byte

@[simp]
theorem fromByte_toByte (t : RESPType) : fromByte t.toByte = some t := by cases t <;> rfl

end RESPType

/-- A value; `δ` is the type of its floating-point numbers. -/
inductive RESPValue (δ : Type) where
  | SimpleString (str : List UInt8)
  | Error (str : List UInt8)
  | Integer (int : ℤ)
  | BulkString (str : Option (List UInt8))
  | Array (items : List (RESPValue δ))
  | Null
  | Double (d : δ)
  | Boolean (b : Bool)
  | BlobError (str : List UInt8)
  | VerbatimString (format content : List UInt8)
  | Map (entries : List (RESPValue δ × RESPValue δ))
  | Set (items : List (RESPValue δ))
  | Attribute (attributes : List (RESPValue δ × RESPValue δ)) (value : RESPValue δ)
  | Push (kind : List UInt8) (data : List (RESPValue δ))
  | BigNumber (str : List UInt8)

/-- How floating-point numbers are read: the special ones, and `std.fmt.parseFloat`. -/
structure FloatText (δ : Type) where
  inf : δ
  negInf : δ
  nan : δ
  parseFloat : List UInt8 → Option δ

/-- The digits of `std.fmt.parseInt`, which may have underscores between them. -/
def parseDigits (digits : List UInt8) : Option ℕ :=
  if digits = [] ∨ digits.head? = some '_'.toUInt8 ∨ digits.getLast? = some '_'.toUInt8 then none
  else
    (digits.filter (· ≠ '_'.toUInt8)).foldlM (fun n c =>
      if '0'.toUInt8 ≤ c ∧ c ≤ '9'.toUInt8 then some (n * 10 + (c - '0'.toUInt8).toNat)
      else none) 0

/-- `std.fmt.parseInt(i64, str, 10)`. -/
def parseInt (str : List UInt8) : Option ℤ :=
  match str with
  | [] => none
  | c :: rest =>
    if c = '+'.toUInt8 then
      (parseDigits rest).bind fun n => if n < 2 ^ 63 then some (n : ℤ) else none
    else if c = '-'.toUInt8 then
      (parseDigits rest).bind fun n => if n ≤ 2 ^ 63 then some (-(n : ℤ)) else none
    else (parseDigits str).bind fun n => if n < 2 ^ 63 then some (n : ℤ) else none

/-- The state is what of the buffer lies behind `pos`. -/
abbrev ValkeyReader := StateT (List UInt8) (Except RedisError)

namespace ValkeyReader

variable {α : Type} {δ : Type}

/-- One byte. -/
def readByte : ValkeyReader UInt8 := do
  match ← get with
  | [] => throw .InvalidResponse
  | byte :: rest =>
    set rest
    return byte

/-- What lies before the first CRLF, and what lies behind it. -/
def splitCRLF : List UInt8 → Option (List UInt8 × List UInt8)
  | [] => none
  | byte :: rest =>
    if byte = '\r'.toUInt8 ∧ rest.head? = some '\n'.toUInt8 then some ([], rest.tail)
    else (splitCRLF rest).map fun r => (byte :: r.1, r.2)

/-- A line, without its end. -/
def readUntilCRLF : ValkeyReader (List UInt8) := do
  match splitCRLF (← get) with
  | some (result, rest) =>
    set rest
    return result
  | none => throw .InvalidResponse

/-- A line that is a number. -/
def readInteger : ValkeyReader ℤ := do
  let str ← readUntilCRLF
  match parseInt str with
  | some int => return int
  | none => throw .InvalidInteger

/-- The three words, or a number. -/
def parseDouble (fl : FloatText δ) (str : List UInt8) : Option δ :=
  if str = "inf".toUTF8.toList then some fl.inf
  else if str = "-inf".toUTF8.toList then some fl.negInf
  else if str = "nan".toUTF8.toList then some fl.nan
  else fl.parseFloat str

/-- A line that is a floating point number. -/
def readDouble (fl : FloatText δ) : ValkeyReader δ := do
  let str ← readUntilCRLF
  match parseDouble fl str with
  | some d => return d
  | none => throw .InvalidDouble

/-- A line that is `t` or `f`. -/
def readBoolean : ValkeyReader Bool := do
  let str ← readUntilCRLF
  if str = ['t'.toUInt8] then return true
  else if str = ['f'.toUInt8] then return false
  else throw .InvalidBoolean

/-- `len` bytes and the CRLF behind them; `short` where they have not all arrived, `bad` where
something else lies before the next CRLF. -/
def readContent (len : ℕ) (short bad : RedisError) : ValkeyReader (List UInt8) := do
  let buffer ← get
  if buffer.length < len then throw short
  set (buffer.drop len)
  let crlf ← readUntilCRLF
  if crlf ≠ [] then throw bad
  return buffer.take len

/-- A string with its length before it, or none. -/
def readBulkString : ValkeyReader (Option (List UInt8)) := do
  let len ← readInteger
  if len < 0 then return none
  return some (← readContent len.toNat .InvalidResponse .InvalidBulkString)

/-- An error with its length before it. -/
def readBlobError : ValkeyReader (List UInt8) := do
  let len ← readInteger
  if len < 0 then throw .InvalidBlobError
  readContent len.toNat .InvalidBlobError .InvalidBlobError

/-- A string with its format before it. -/
def readVerbatimString : ValkeyReader (List UInt8 × List UInt8) := do
  let len ← readInteger
  if len < 0 then throw .InvalidVerbatimString
  let content ← readContent len.toNat .InvalidVerbatimString .InvalidVerbatimString
  if content.length < 4 ∨ content[3]? ≠ some ':'.toUInt8 then throw .InvalidVerbatimString
  return (content.take 3, content.drop 4)

/-- The loop over `n` items. -/
def readMany (read : ValkeyReader α) : ℕ → ValkeyReader (List α)
  | 0 => return []
  | n + 1 => do
    let item ← read
    let items ← readMany read n
    return item :: items

section Aggregates

variable (read : ValkeyReader (RESPValue δ))

/-- A key and its value. -/
def readEntry : ValkeyReader (RESPValue δ × RESPValue δ) := do
  let key ← read
  let value ← read
  return (key, value)

/-- Values with their number before them; a negative number is none. -/
def readArray : ValkeyReader (RESPValue δ) := do
  let len ← readInteger
  if len < 0 then return .Array []
  return .Array (← readMany read len.toNat)

/-- Entries with their number before them. -/
def readMap : ValkeyReader (RESPValue δ) := do
  let len ← readInteger
  if len < 0 then throw .InvalidMap
  return .Map (← readMany (readEntry read) len.toNat)

/-- Values with their number before them. -/
def readSet : ValkeyReader (RESPValue δ) := do
  let len ← readInteger
  if len < 0 then throw .InvalidSet
  return .Set (← readMany read len.toNat)

/-- Entries, and the value they are about. -/
def readAttribute : ValkeyReader (RESPValue δ) := do
  let len ← readInteger
  if len < 0 then throw .InvalidAttribute
  let attrs ← readMany (readEntry read) len.toNat
  let value ← read
  return .Attribute attrs value

/-- A kind, and values. -/
def readPush : ValkeyReader (RESPValue δ) := do
  let len ← readInteger
  if len ≤ 0 then throw .InvalidPush
  let kind ← match ← read with
    | .SimpleString str => pure str
    | .BulkString (some str) => pure str
    | _ => throw .InvalidPush
  let data ← readMany read (len.toNat - 1)
  return .Push kind data

end Aggregates

/-- One value, whose items `read` reads; at the depth limit there is no such reader. -/
def readValueOf (fl : FloatText δ) (read : Option (ValkeyReader (RESPValue δ))) :
    ValkeyReader (RESPValue δ) := do
  let aggregate (f : ValkeyReader (RESPValue δ) → ValkeyReader (RESPValue δ)) :
      ValkeyReader (RESPValue δ) :=
    match read with
    | none => throw .NestingDepthExceeded
    | some read => f read
  match RESPType.fromByte (← readByte) with
  | none => throw .InvalidResponseType
  | some .SimpleString => return .SimpleString (← readUntilCRLF)
  | some .Error => return .Error (← readUntilCRLF)
  | some .Integer => return .Integer (← readInteger)
  | some .BulkString => return .BulkString (← readBulkString)
  | some .Array => aggregate readArray
  | some .Null =>
    let _ ← readUntilCRLF
    return .Null
  | some .Double => return .Double (← readDouble fl)
  | some .Boolean => return .Boolean (← readBoolean)
  | some .BlobError => return .BlobError (← readBlobError)
  | some .VerbatimString =>
    let (format, content) ← readVerbatimString
    return .VerbatimString format content
  | some .Map => aggregate readMap
  | some .Set => aggregate readSet
  | some .Attribute => aggregate readAttribute
  | some .Push => aggregate readPush
  | some .BigNumber => return .BigNumber (← readUntilCRLF)

def max_nesting_depth : ℕ := 128

/-- A value at depth `max_nesting_depth - left`. -/
def readValueWithDepth (fl : FloatText δ) : ℕ → ValkeyReader (RESPValue δ)
  | 0 => readValueOf fl none
  | left + 1 => readValueOf fl (some (readValueWithDepth fl left))

/-- A value, no deeper than `max_nesting_depth`. -/
def readValue (fl : FloatText δ) : ValkeyReader (RESPValue δ) :=
  readValueWithDepth fl max_nesting_depth

end ValkeyReader

end Cruller.Valkey
