import Cruller.Lib.Utf8Text

/-!
# What a string literal means

The code units of a string literal or a template of ECMAScript (in strict code), and of a string of
JSON, from the code points between the quotes; `none` where they are not the inside of a literal.
One item after another is read: `item` says what the first one stands for and how many code points
behind the first it takes.
-/

namespace Cruller

open List

/-- The literals of JavaScript that hold a text, and those of JSON. -/
inductive Literal where
  | string (quote : ℕ)
  | template
  | json
deriving DecidableEq

namespace Literal

/-- A hexadecimal digit in either case. -/
def hexDigit (c : ℕ) : Option ℕ :=
  if 0x30 ≤ c ∧ c ≤ 0x39 then some (c - 0x30)
  else if 0x41 ≤ c ∧ c ≤ 0x46 then some (c - 0x37)
  else if 0x61 ≤ c ∧ c ≤ 0x66 then some (c - 0x57)
  else none

/-- The value of hexadecimal digits. -/
def hexValue (cs : List ℕ) : Option ℕ :=
  cs.foldlM (fun v c => (hexDigit c).map (v * 16 + ·)) 0

/-- The value of `n` digits at the front. -/
def hexDigits (n : ℕ) (cs : List ℕ) : Option ℕ :=
  if (cs.take n).length = n then hexValue (cs.take n) else none

/-- What the letter behind a backslash stands for. -/
def singleEscape (e : ℕ) : ℕ :=
  if e = 0x62 then 0x08
  else if e = 0x74 then 0x09
  else if e = 0x6E then 0x0A
  else if e = 0x76 then 0x0B
  else if e = 0x66 then 0x0C
  else if e = 0x72 then 0x0D
  else e

/-- Behind `\u{`, up to the brace that closes it. -/
def bracedEscape (es : List ℕ) : Option (List UInt16 × ℕ) :=
  let digits := es.takeWhile (· ≠ 0x7D)
  if digits ≠ [] ∧ es[digits.length]? = some 0x7D then
    (hexValue digits).bind fun v =>
      if v ≤ 0x10FFFF then some (Utf16.encode v, digits.length + 3) else none
  else none

/-- What stands behind a backslash, in ECMAScript. -/
def escape : List ℕ → Option (List UInt16 × ℕ)
  | [] => none
  | e :: es =>
    if e = 0x78 then (hexDigits 2 es).map fun v => ([.ofNat v], 3)
    else if e = 0x75 then
      if es.head? = some 0x7B then bracedEscape es.tail
      else (hexDigits 4 es).map fun v => ([.ofNat v], 5)
    -- a line terminator goes on in the next line
    else if e = 0x0D then some ([], if es.head? = some 0x0A then 2 else 1)
    else if e = 0x0A ∨ e = 0x2028 ∨ e = 0x2029 then some ([], 1)
    -- a digit is no escape, but for a zero with no digit behind it
    else if e = 0x30 ∧ ¬ es.head?.any (fun d => 0x30 ≤ d ∧ d ≤ 0x39) then some ([0], 1)
    else if 0x30 ≤ e ∧ e ≤ 0x39 then none
    else some (Utf16.encode (singleEscape e), 1)

/-- An escape of JSON, and how long it is behind the backslash. -/
def jsonEscape : List ℕ → Option (List UInt16 × ℕ)
  | [] => none
  | e :: es =>
    if e = 0x75 then (hexDigits 4 es).map fun v => ([.ofNat v], 5)
    else if e = 0x22 ∨ e = 0x5C ∨ e = 0x2F ∨ e = 0x62 ∨ e = 0x66 ∨ e = 0x6E ∨ e = 0x72 ∨ e = 0x74 then
      some (Utf16.encode (singleEscape e), 1)
    else none

/-- What the first item stands for, and how many code points behind `c` belong to it. -/
def item (k : Literal) (c : ℕ) (cs : List ℕ) : Option (List UInt16 × ℕ) :=
  match k with
  | string quote =>
    if c = quote ∨ c = 0x0A ∨ c = 0x0D then none
    else if c = 0x5C then escape cs
    else some (Utf16.encode c, 0)
  | template =>
    if c = 0x60 ∨ c = 0x24 ∧ cs.head? = some 0x7B then none
    else if c = 0x5C then escape cs
    -- a carriage return, alone or before a line feed, is a line feed
    else if c = 0x0D then some ([0x0A], if cs.head? = some 0x0A then 1 else 0)
    else some (Utf16.encode c, 0)
  | json =>
    if c = 0x22 ∨ c < 0x20 then none
    else if c = 0x5C then jsonEscape cs
    else some (Utf16.encode c, 0)

/-- The code units past `skip` code points that belong to the item before. -/
def valueFrom (k : Literal) : ℕ → List ℕ → Option (List UInt16)
  | 0, [] => some []
  | _ + 1, [] => none
  | skip + 1, _ :: cs => valueFrom k skip cs
  | 0, c :: cs => (item k c cs).bind fun r => (valueFrom k r.2 cs).map (r.1 ++ ·)

/-- The text of a literal, if it is one. -/
def value (k : Literal) (cs : List ℕ) : Option (List UInt16) := valueFrom k 0 cs

/-- The code units of the bytes between the quotes. -/
def meaning (k : Literal) (bytes : List UInt8) : Option (List UInt16) :=
  ((Utf8.decoder.text none bytes).mapM id).bind (value k)

example : meaning (.string 0x22) [0x61, 0x5C, 0x78, 0x30, 0x37] = some [0x61, 7] := by decide

variable {k : Literal}

theorem valueFrom_append (xs cs : List ℕ) :
    valueFrom k xs.length (xs ++ cs) = valueFrom k 0 cs := by
  induction xs with
  | nil => rfl
  | cons x xs ih => exact ih

variable {c : ℕ} {cs : List ℕ}

theorem value_item (xs : List ℕ) {us : List UInt16}
    (h : item k c (xs ++ cs) = some (us, xs.length)) :
    value k (c :: xs ++ cs) = (value k cs).map (us ++ ·) := by
  rw [cons_append, value, valueFrom, h, Option.bind_some, valueFrom_append]
  rfl

theorem value_bad (h : item k c cs = none) : value k (c :: cs) = none := by
  rw [value, valueFrom, h]
  rfl

theorem mapM_id_map_some (cs : List ℕ) : (cs.map some).mapM id = some cs := by
  induction cs with
  | nil => rfl
  | cons c cs ih =>
    rw [map_cons, mapM_cons, ih]
    rfl

theorem meaning_encode (h : ∀ c ∈ cs, Utf8.Scalar c) :
    meaning k (cs.flatMap Utf8.encode) = value k cs := by
  rw [meaning, Utf8.text_flatMap_encode h, mapM_id_map_some]
  rfl

theorem hexDigits_two {a b v w : ℕ} (ha : hexDigit a = some v) (hb : hexDigit b = some w)
    (cs : List ℕ) : hexDigits 2 (a :: b :: cs) = some (v * 16 + w) := by
  simp [hexDigits, hexValue, ha, hb]

theorem hexDigits_four {a b d u v w x : ℕ} (ha : hexDigit a = some u) (hb : hexDigit b = some v)
    (hc : hexDigit c = some w) (hd : hexDigit d = some x) (cs : List ℕ) :
    hexDigits 4 (a :: b :: c :: d :: cs) = some (((u * 16 + v) * 16 + w) * 16 + x) := by
  simp [hexDigits, hexValue, ha, hb, hc, hd]

end Literal

end Cruller
