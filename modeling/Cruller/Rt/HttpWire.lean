import Cruller.Lib.Bytes
import Cruller.Rt.DataPool

/-!
# HTTP messages on the wire

`rt/http_wire.zig`: a prefix of fixed layout, a table of header ranges behind it, and the bytes
that the ranges of both point at. Request and response differ in their prefix and in which fields
they carry, so one encoder and one decoder serve both, over a format that says where a prefix
keeps its checks, its table and its fields.
-/

namespace Cruller

def httpMagic : UInt32 := 0x43525448

def httpVersion : UInt16 := 1

/-- Where a field lies in the message. -/
structure Range where
  offset : UInt32 := 0
  length : UInt32 := 0
deriving DecidableEq, Repr

/-- An entry of the table of headers. -/
structure HeaderRange where
  name : Range
  value : Range
deriving DecidableEq, Repr

/-- The fixed part of a request. -/
structure RequestPrefix where
  magicValue : UInt32 := httpMagic
  wireVersion : UInt16 := httpVersion
  method : UInt8 := 0
  redirect : UInt8 := 0
  flags : UInt32 := 0
  headerCount : UInt32 := 0
  url : Range := {}
  proxy : Range := {}
  hostname : Range := {}
  unixSocket : Range := {}
  headers : Range := {}
  body : Range := {}
deriving DecidableEq, Repr

/-- The fixed part of a response. -/
structure ResponsePrefix where
  magicValue : UInt32 := httpMagic
  wireVersion : UInt16 := httpVersion
  reserved : UInt16 := 0
  statusCode : UInt32 := 0
  flags : UInt32 := 0
  headerCount : UInt32 := 0
  url : Range := {}
  statusText : Range := {}
  headers : Range := {}
deriving DecidableEq, Repr

namespace Layout

def range : Layout Range :=
  (u32.prod u32).imap (fun v => ⟨v.1, v.2⟩) (fun r => (r.offset, r.length)) fun _ => rfl

def headerRange : Layout HeaderRange :=
  (range.prod range).imap (fun v => ⟨v.1, v.2⟩) (fun r => (r.name, r.value)) fun _ => rfl

/-- The fields in the order of the `extern struct`. -/
def requestPrefix : Layout RequestPrefix :=
  (u32.prod (u16.prod (u8.prod (u8.prod (u32.prod (u32.prod (range.prod (range.prod
      (range.prod (range.prod (range.prod range))))))))))).imap
    (fun (m, v, method, redirect, flags, count, url, proxy, hostname, unix, headers, body) =>
      ⟨m, v, method, redirect, flags, count, url, proxy, hostname, unix, headers, body⟩)
    (fun p => (p.magicValue, p.wireVersion, p.method, p.redirect, p.flags, p.headerCount, p.url,
      p.proxy, p.hostname, p.unixSocket, p.headers, p.body))
    fun _ => rfl

def responsePrefix : Layout ResponsePrefix :=
  (u32.prod (u16.prod (u16.prod (u32.prod (u32.prod (u32.prod (range.prod (range.prod
      range)))))))).imap
    (fun (m, v, reserved, status, flags, count, url, text, headers) =>
      ⟨m, v, reserved, status, flags, count, url, text, headers⟩)
    (fun p => (p.magicValue, p.wireVersion, p.reserved, p.statusCode, p.flags, p.headerCount,
      p.url, p.statusText, p.headers))
    fun _ => rfl

end Layout

example : Layout.headerRange.size = 16 ∧ Layout.requestPrefix.size = 64
    ∧ Layout.responsePrefix.size = 44 := by decide

structure Header where
  name : List UInt8
  value : List UInt8
deriving DecidableEq, Repr

/-- A request, before it is encoded. -/
structure Request where
  method : UInt8
  redirect : UInt8 := 0
  flags : UInt32 := 0
  url : List UInt8
  proxy : List UInt8 := []
  hostname : List UInt8 := []
  unixSocket : List UInt8 := []
  headers : List Header := []
  body : List UInt8 := []
deriving DecidableEq, Repr

/-- A response, before it is encoded. -/
structure Response where
  statusCode : UInt32
  flags : UInt32 := 0
  url : List UInt8
  statusText : List UInt8
  headers : List Header := []
deriving DecidableEq, Repr

/-- What encoding and decoding can fail with. -/
inductive WireError where
  | invalidPayload
  | unsupportedVersion
  | payloadTooLarge
  | overflow
  | outOfMemory
deriving DecidableEq, Repr

def Range.slice (bytes : List UInt8) (r : Range) : Option (List UInt8) :=
  Cruller.slice bytes r.offset.toNat r.length.toNat

/-- Where a prefix keeps what both directions share; `fields` are its ranges in the order in which
their bytes are put. -/
structure Format (P : Type) where
  layout : Layout P
  magicValue : P → UInt32
  wireVersion : P → UInt16
  headerCount : P → UInt32
  headers : P → Range
  fields : P → List Range

def Format.request : Format RequestPrefix where
  layout := .requestPrefix
  magicValue p := p.magicValue
  wireVersion p := p.wireVersion
  headerCount p := p.headerCount
  headers p := p.headers
  fields p := [p.url, p.proxy, p.hostname, p.unixSocket, p.body]

def Format.response : Format ResponsePrefix where
  layout := .responsePrefix
  magicValue p := p.magicValue
  wireVersion p := p.wireVersion
  headerCount p := p.headerCount
  headers p := p.headers
  fields p := [p.url, p.statusText]

/-- `std.math.add` on `usize`. -/
def addSize (value amount : ℕ) : Except WireError ℕ :=
  if value + amount < 2 ^ 64 then .ok (value + amount) else .error .payloadTooLarge

/-- `std.math.mul` on `usize`. -/
def mulSize (a b : ℕ) : Except WireError ℕ :=
  if a * b < 2 ^ 64 then .ok (a * b) else .error .overflow

/-- The size with the texts, or an overflow. -/
def addSlices (size : ℕ) (slices : List (List UInt8)) : Except WireError ℕ :=
  slices.foldlM (fun size item => addSize size item.length) size

/-- A text is put at the cursor. -/
def put (bytes : List UInt8) (cursor : ℕ) (value : List UInt8) :
    Option (List UInt8 × ℕ × Range) := do
  let offset ← intCastU32 cursor
  let length ← intCastU32 value.length
  let bytes ← splice bytes cursor value
  return (bytes, cursor + value.length, { offset, length })

/-- The texts, one behind the other. -/
def putAll : List UInt8 → ℕ → List (List UInt8) → Option (List UInt8 × ℕ × List Range)
  | bytes, cursor, [] => some (bytes, cursor, [])
  | bytes, cursor, value :: values => do
    let (bytes, cursor, range) ← put bytes cursor value
    let (bytes, cursor, ranges) ← putAll bytes cursor values
    return (bytes, cursor, range :: ranges)

/-- The table entry of each header goes into its place behind the prefix. -/
def putHeaders (base : ℕ) : ℕ → List UInt8 → ℕ → List Header → Option (List UInt8)
  | _, bytes, _, [] => some bytes
  | index, bytes, cursor, header :: headers => do
    let (bytes, cursor, name) ← put bytes cursor header.name
    let (bytes, cursor, value) ← put bytes cursor header.value
    let bytes ← Layout.headerRange.write bytes (base + index * Layout.headerRange.size)
      { name, value }
    putHeaders base (index + 1) bytes cursor headers

def fieldBytes (fields : List (List UInt8)) : ℕ :=
  (fields.map List.length).sum

def headerBytes (headers : List Header) : ℕ :=
  (headers.map fun h => h.name.length + h.value.length).sum

namespace Format

variable {P : Type}

/-- How long the message is when nothing overflows. -/
def encodedSize (F : Format P) (fields : List (List UInt8)) (headers : List Header) : ℕ :=
  F.layout.size + headers.length * 16 + fieldBytes fields + headerBytes headers

/-- How long the message is, as the encoder adds it up. -/
def sizeOf (F : Format P) (fields : List (List UInt8)) (headers : List Header) :
    Except WireError ℕ := do
  let table ← mulSize headers.length Layout.headerRange.size
  let size ← addSize F.layout.size table
  let size ← addSlices size fields
  headers.foldlM (fun size header => addSlices size [header.name, header.value]) size

/-- Fills an allocated buffer; `make` is the prefix from the header count, the table's range and
the ranges of the fields. -/
def fill (F : Format P) (make : UInt32 → Range → List Range → P) (fields : List (List UInt8))
    (headers : List Header) (bytes : List UInt8) : Option (List UInt8) := do
  let table := headers.length * Layout.headerRange.size
  let headerCount ← intCastU32 headers.length
  let offset ← intCastU32 F.layout.size
  let length ← intCastU32 table
  let (bytes, cursor, ranges) ← putAll bytes (F.layout.size + table) fields
  let bytes ← putHeaders F.layout.size 0 bytes cursor headers
  F.layout.write bytes 0 (make headerCount { offset, length } ranges)

/-- `alloc` is the allocator's answer, with whatever the memory holds. -/
def encode (F : Format P) (make : UInt32 → Range → List Range → P) (fields : List (List UInt8))
    (headers : List Header) (alloc : (n : ℕ) → Option (List.Vector UInt8 n)) :
    Option (Except WireError (List UInt8)) :=
  match F.sizeOf fields headers with
  | .error e => some (.error e)
  | .ok size =>
    if size > maxU32 then some (.error .payloadTooLarge)
    else match alloc size with
      | none => some (.error .outOfMemory)
      | some bytes => (F.fill make fields headers bytes.toList).map .ok

end Format

namespace Request

/-- The fields in the order in which their bytes are put. -/
def fields (request : Request) : List (List UInt8) :=
  [request.url, request.proxy, request.hostname, request.unixSocket, request.body]

def head (request : Request) (headerCount : UInt32) (headers : Range) (ranges : List Range) :
    RequestPrefix where
  method := request.method
  redirect := request.redirect
  flags := request.flags
  headerCount := headerCount
  url := ranges.getD 0 {}
  proxy := ranges.getD 1 {}
  hostname := ranges.getD 2 {}
  unixSocket := ranges.getD 3 {}
  headers := headers
  body := ranges.getD 4 {}

def encodedSize (request : Request) : ℕ :=
  Format.request.encodedSize request.fields request.headers

end Request

namespace Response

def fields (response : Response) : List (List UInt8) :=
  [response.url, response.statusText]

def head (response : Response) (headerCount : UInt32) (headers : Range) (ranges : List Range) :
    ResponsePrefix where
  statusCode := response.statusCode
  flags := response.flags
  headerCount := headerCount
  url := ranges.getD 0 {}
  statusText := ranges.getD 1 {}
  headers := headers

def encodedSize (response : Response) : ℕ :=
  Format.response.encodedSize response.fields response.headers

end Response

/-- The bytes of a request; `none` where the code panics. -/
def encodeRequest (alloc : (n : ℕ) → Option (List.Vector UInt8 n)) (request : Request) :
    Option (Except WireError (List UInt8)) :=
  Format.request.encode request.head request.fields request.headers alloc

/-- The bytes of a response; `none` where the code panics. -/
def encodeResponse (alloc : (n : ℕ) → Option (List.Vector UInt8 n)) (response : Response) :
    Option (Except WireError (List UInt8)) :=
  Format.response.encode response.head response.fields response.headers alloc

/-- A message whose prefix and ranges have been checked. -/
structure Decoded (P : Type) where
  bytes : List UInt8
  head : P

/-- `validateTable`. -/
def validTable (bytes : List UInt8) (table : Range) (count : UInt32) : Bool :=
  count.toNat * Layout.headerRange.size ≤ maxU32
    ∧ table.length.toNat = count.toNat * Layout.headerRange.size ∧ (table.slice bytes).isSome

namespace Format

variable {P : Type}

/-- An entry of the table, with its two texts. -/
def header (F : Format P) (d : Decoded P) (index : ℕ) : Option Header :=
  if index ≥ (F.headerCount d.head).toNat then none
  else do
    let entry ← Layout.headerRange.read d.bytes
      ((F.headers d.head).offset.toNat + index * Layout.headerRange.size)
    let name ← entry.name.slice d.bytes
    let value ← entry.value.slice d.bytes
    return { name, value }

/-- The checks that a message has to pass. -/
def decode (F : Format P) (bytes : List UInt8) : Except WireError (Decoded P) :=
  match F.layout.read bytes 0 with
  | none => .error .invalidPayload
  | some head =>
    if F.magicValue head ≠ httpMagic ∨ F.wireVersion head ≠ httpVersion then
      .error .unsupportedVersion
    else if ¬ validTable bytes (F.headers head) (F.headerCount head) then .error .invalidPayload
    else if ¬ (F.fields head).all (fun r => (r.slice bytes).isSome) then .error .invalidPayload
    else if ¬ (List.range (F.headerCount head).toNat).all
        (fun index => (F.header ⟨bytes, head⟩ index).isSome) then .error .invalidPayload
    else .ok ⟨bytes, head⟩

end Format

abbrev DecodedRequest := Decoded RequestPrefix

abbrev DecodedResponse := Decoded ResponsePrefix

def decodeRequest (bytes : List UInt8) : Except WireError DecodedRequest :=
  Format.request.decode bytes

def decodeResponse (bytes : List UInt8) : Except WireError DecodedResponse :=
  Format.response.decode bytes

namespace DecodedRequest

/-- The unwrap in `url` and `body` and the index in `host_http.range` trap on `none`. -/
def url (d : DecodedRequest) : Option (List UInt8) := d.head.url.slice d.bytes

def body (d : DecodedRequest) : Option (List UInt8) := d.head.body.slice d.bytes

def proxy (d : DecodedRequest) : Option (List UInt8) := d.head.proxy.slice d.bytes

def hostname (d : DecodedRequest) : Option (List UInt8) := d.head.hostname.slice d.bytes

def unixSocket (d : DecodedRequest) : Option (List UInt8) := d.head.unixSocket.slice d.bytes

def header (d : DecodedRequest) (index : ℕ) : Option Header := Format.request.header d index

end DecodedRequest

namespace DecodedResponse

def url (d : DecodedResponse) : Option (List UInt8) := d.head.url.slice d.bytes

def statusText (d : DecodedResponse) : Option (List UInt8) := d.head.statusText.slice d.bytes

def header (d : DecodedResponse) (index : ℕ) : Option Header := Format.response.header d index

end DecodedResponse

end Cruller
