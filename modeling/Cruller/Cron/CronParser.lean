import Cruller.Lib.Decimal

/-!
# Cron expressions

The parser of five-field expressions, the printer of their numeric form, and the next instant at
which one fires. A set of minutes, hours and so on is a bit set. The conversions between instants
and dates are the JavaScript engine's.
-/

namespace Cruller.Cron

open Decimal

abbrev Bytes := List UInt8

def bytesOf (text : String) : Bytes := text.toList.map fun c => UInt8.ofNat c.toNat

def toLower (c : UInt8) : UInt8 := if 65 ≤ c ∧ c ≤ 90 then c + 32 else c

def isBlank (c : UInt8) : Bool := c = 32 || c = 9

/-- What is wrong with an expression. -/
inductive Error where
  | InvalidField
  | InvalidStep
  | InvalidRange
  | InvalidNumber
  | TooManyFields
  | TooFewFields
deriving DecidableEq

/-- The minutes, hours, days, months and weekdays, as bit sets. -/
structure CronExpression where
  minutes : BitVec 64
  hours : BitVec 32
  days : BitVec 32
  months : BitVec 16
  weekdays : BitVec 8
  days_is_wildcard : Bool
  weekdays_is_wildcard : Bool
deriving DecidableEq

def all_hours : BitVec 32 := (1 <<< 24) - 1
def all_days : BitVec 32 := BitVec.allOnes 32 &&& ~~~1
def all_months : BitVec 16 := ((1 <<< 13) - 1) &&& ~~~1
def all_weekdays : BitVec 8 := (1 <<< 7) - 1

/-- `@daily` and the like. -/
def parseNickname (expr : Bytes) : Option CronExpression :=
  let eql (name : String) : Bool := expr.map toLower = bytesOf name
  if eql "@yearly" || eql "@annually" then
    some ⟨1, 1, 1 <<< 1, 1 <<< 1, all_weekdays, false, true⟩
  else if eql "@monthly" then some ⟨1, 1, 1 <<< 1, all_months, all_weekdays, false, true⟩
  else if eql "@weekly" then some ⟨1, 1, all_days, all_months, 1, true, false⟩
  else if eql "@daily" || eql "@midnight" then
    some ⟨1, 1, all_days, all_months, all_weekdays, true, true⟩
  else if eql "@hourly" then
    some ⟨1, all_hours, all_days, all_months, all_weekdays, true, true⟩
  else none

def weekday_map : List (String × ℕ) :=
  [("sun", 0), ("mon", 1), ("tue", 2), ("wed", 3), ("thu", 4), ("fri", 5), ("sat", 6),
    ("sunday", 0), ("monday", 1), ("tuesday", 2), ("wednesday", 3), ("thursday", 4),
    ("friday", 5), ("saturday", 6)]

def month_map : List (String × ℕ) :=
  [("jan", 1), ("feb", 2), ("mar", 3), ("apr", 4), ("may", 5), ("jun", 6), ("jul", 7), ("aug", 8),
    ("sep", 9), ("oct", 10), ("nov", 11), ("dec", 12), ("january", 1), ("february", 2),
    ("march", 3), ("april", 4), ("june", 6), ("july", 7), ("august", 8), ("september", 9),
    ("october", 10), ("november", 11), ("december", 12)]

def getASCIIICaseInsensitive (map : List (String × ℕ)) (input : Bytes) : Option ℕ :=
  (map.find? fun entry => bytesOf entry.1 = input.map toLower).map Prod.snd

inductive NameKind where
  | none
  | weekday
  | month
deriving DecidableEq

def NameKind.names : NameKind → List (String × ℕ)
  | .none => []
  | .weekday => weekday_map
  | .month => month_map

/-- A number or a name. -/
def parseValue (str : Bytes) (min max : ℕ) (kind : NameKind) : Option ℕ :=
  match getASCIIICaseInsensitive kind.names str with
  | some v => some v
  | none => (parseInt 8 str).filter fun val => min ≤ val ∧ val ≤ max

/-- What lies on either side of the only `-`. -/
def splitRange (base : Bytes) : Option (Bytes × Bytes) :=
  match base.splitOn 45 with
  | [lo, hi] => if lo = [] ∨ hi = [] then none else some (lo, hi)
  | _ => none

/-- The loop that sets the bits; `fuel` bounds its rounds. -/
def setBits {w : ℕ} (step range_max : ℕ) : ℕ → ℕ → BitVec w → BitVec w
  | 0, _, result => result
  | fuel + 1, i, result =>
    if i ≤ range_max then
      let result := result ||| (1#w <<< i)
      if i + step > range_max then result else setBits step range_max fuel (i + step) result
    else result

/-- A star, a value, or two with a hyphen. -/
def parseRange (base : Bytes) (stepped : Bool) (min max : ℕ) (kind : NameKind) :
    Except Error (ℕ × ℕ) :=
  if base = bytesOf "*" then .ok (min, max)
  else
    match splitRange base with
    | some range_parts =>
      match parseValue range_parts.1 min max kind, parseValue range_parts.2 min max kind with
      | some lo, some hi => if hi < lo then .error .InvalidRange else .ok (lo, hi)
      | _, _ => .error .InvalidNumber
    | none =>
      match parseValue base min max kind with
      | some lo => .ok (lo, if stepped then max else lo)
      | none => .error .InvalidNumber

/-- A step is a positive number, and 1 where none is given. -/
def parseStep : Option Bytes → Except Error ℕ
  | none => .ok 1
  | some s =>
    match parseInt 7 s with
    | some step => if step = 0 then .error .InvalidStep else .ok step
    | none => .error .InvalidStep

/-- A range with its step. -/
def parsePart {w : ℕ} (min max : ℕ) (kind : NameKind) (result : BitVec w) (part : Bytes) :
    Except Error (BitVec w) :=
  if part = [] then .error .InvalidField
  else
    match part.splitOn 47 with
    | [] => .error .InvalidField
    | base :: steps => do
      if 1 < steps.length then throw .InvalidStep
      let step ← parseStep steps.head?
      let (range_min, range_max) ← parseRange base steps.head?.isSome min max kind
      return setBits step range_max (range_max + 1) range_min result

/-- Parts with commas between them. -/
def parseField (w : ℕ) (field : Bytes) (min max : ℕ) (kind : NameKind) :
    Except Error (BitVec w) := do
  if field = [] then throw .InvalidField
  let result ← (field.splitOn 44).foldlM (parsePart min max kind) 0
  return if kind = .weekday then (result ||| (result >>> 7)) &&& 0x7F else result

/-- `bun.strings.trim` of blanks and tabs. -/
def trim (input : Bytes) : Bytes := ((input.dropWhile isBlank).reverse.dropWhile isBlank).reverse

/-- `std.mem.tokenizeAny` at blanks and tabs. -/
def tokenize (expr : Bytes) : List Bytes := (expr.splitOnP isBlank).filter (· ≠ [])

/-- Five fields, or a nickname. -/
def parse (input : Bytes) : Except Error CronExpression :=
  let expr := trim input
  if expr.head? = some 64 then
    match parseNickname expr with
    | some self => .ok self
    | none => .error .InvalidField
  else
    match tokenize expr with
    | [minute, hour, day, month, weekday] => do
      let minutes ← parseField 64 minute 0 59 .none
      let hours ← parseField 32 hour 0 23 .none
      let days ← parseField 32 day 1 31 .none
      let months ← parseField 16 month 1 12 .month
      let weekdays ← parseField 8 weekday 0 7 .weekday
      return {
        minutes := minutes, hours := hours, days := days, months := months, weekdays := weekdays
        days_is_wildcard := day = bytesOf "*", weekdays_is_wildcard := weekday = bytesOf "*" }
    | fields => .error (if 5 < fields.length then .TooManyFields else .TooFewFields)

def popCount {w : ℕ} (bits : BitVec w) : ℕ := (List.range w).countP bits.getLsbD

/-- The numbers from `min` to `max` whose bits are set. -/
def members {w : ℕ} (bits : BitVec w) (min max : ℕ) : List ℕ :=
  (List.range' min (max + 1 - min)).filter bits.getLsbD

/-- A star, or the numbers with commas between them. -/
def formatBitfield {w : ℕ} (bits : BitVec w) (min max : ℕ) : Bytes :=
  if popCount bits = max - min + 1 then bytesOf "*"
  else [44].intercalate ((members bits min max).map print)

/-- `none` where the text does not fit the buffer. -/
def formatNumeric (self : CronExpression) : Option Bytes :=
  let text := [32].intercalate
    [formatBitfield self.minutes 0 59, formatBitfield self.hours 0 23,
      formatBitfield self.days 1 31, formatBitfield self.months 1 12,
      formatBitfield self.weekdays 0 6]
  if text.length ≤ 512 then some text else none

structure GregorianDateTime where
  year : ℤ
  month : ℤ
  day : ℤ
  hour : ℤ
  minute : ℤ
  second : ℤ
  weekday : ℤ
deriving DecidableEq

/-- The conversions of the engine; an instant is a number of milliseconds, and `none` an
exception. -/
structure JSGlobalObject (Ms : Type) where
  msToGregorianDateTimeUTC : Ms → GregorianDateTime
  gregorianDateTimeToMSUTC (year month day hour minute second millisecond : ℤ) : Option Ms

/-- An exception is pending, or a cast has failed. -/
inductive Stop where
  | JSError
  | intCast
deriving DecidableEq

/-- A bit; `@intCast` panics where there is none. -/
def bitSet {w : ℕ} (set : BitVec w) (pos : ℤ) : Except Stop Bool :=
  if 0 ≤ pos ∧ pos < w then .ok (set.getLsbD pos.toNat) else .error .intCast

namespace CronExpression

variable {Ms : Type} (self : CronExpression) (globalObject : JSGlobalObject Ms)

/-- Either day field does, unless one of them is a star. -/
def dayMatch (dt : GregorianDateTime) : Except Stop Bool := do
  let day_ok ← bitSet self.days dt.day
  let weekday_ok ← bitSet self.weekdays dt.weekday
  return if !self.days_is_wildcard && !self.weekdays_is_wildcard then day_ok || weekday_ok
    else day_ok && weekday_ok

/-- Where the loop goes on from a date that does not match; `none` when it does. -/
def advance (dt : GregorianDateTime) : Except Stop (Option GregorianDateTime) := do
  if !(← bitSet self.months dt.month) then
    return some { dt with month := dt.month + 1, day := 1, hour := 0, minute := 0 }
  if !(← self.dayMatch dt) then
    return some { dt with day := dt.day + 1, hour := 0, minute := 0 }
  if !(← bitSet self.hours dt.hour) then
    return some { dt with hour := dt.hour + 1, minute := 0 }
  if !(← bitSet self.minutes dt.minute) then
    return some { dt with minute := dt.minute + 1 }
  return none

/-- The loop of `next`, of at most `fuel` rounds. -/
def nextLoop (start_year : ℤ) : ℕ → GregorianDateTime → Option (Except Stop (Option Ms))
  | 0, _ => none
  | fuel + 1, dt =>
    if dt.year - start_year ≤ 8 then
      match globalObject.gregorianDateTimeToMSUTC
        dt.year dt.month dt.day dt.hour dt.minute dt.second 0 with
      | none => some (.error .JSError)
      | some ms =>
        let dt := globalObject.msToGregorianDateTimeUTC ms
        match self.advance dt with
        | .error stop => some (.error stop)
        | .ok (some dt) => nextLoop start_year fuel dt
        | .ok none =>
          match globalObject.gregorianDateTimeToMSUTC
            dt.year dt.month dt.day dt.hour dt.minute 0 0 with
          | none => some (.error .JSError)
          | some ms => some (.ok (some ms))
    else some (.ok none)

/-- The search begins with the next minute. -/
def next (fuel : ℕ) (from_ms : Ms) : Option (Except Stop (Option Ms)) :=
  let dt := globalObject.msToGregorianDateTimeUTC from_ms
  self.nextLoop globalObject dt.year fuel { dt with minute := dt.minute + 1, second := 0 }

/-- What a call returns, after however many rounds. -/
def Returns (from_ms : Ms) (r : Except Stop (Option Ms)) : Prop :=
  ∃ fuel, self.next globalObject fuel from_ms = some r

end CronExpression

end Cruller.Cron
