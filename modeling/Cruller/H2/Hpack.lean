import Mathlib.Tactic

/-!
# Feeding a header decoder

The decoder of `http/lshpack.zig` is a state and a function that reads one field from the front of
what it is given and tells how far it went. A block is decoded by calling it on what the earlier
calls left, until nothing is left (`feed`). `decodeLoop` is that loop with a body that may stop it;
as long as it is not stopped the decoder sees what `feed` shows it (`decodeLoop_feed`).
-/

namespace Cruller.H2

/-- `HPACK.DecodeResult`: `decode` fails on an empty name and on no progress. -/
structure DecodeResult where
  name : List UInt8
  value : List UInt8
  next : ℕ
  name_ne : name ≠ []
  next_pos : 0 < next

/-- `none` is a field that cannot be decoded; the decoder's tables may have changed all the same. -/
abbrev Decoder (H : Type) := H → List UInt8 → H × Option DecodeResult

/-- A decoder that can decode nothing. -/
def noDecoder : Decoder Unit := fun _ _ => ((), none)

variable {H α ε : Type}

/-- The calls that decode a block from `skip` bytes on, and the state they leave. -/
def feedFrom (dec : Decoder H) : H → List UInt8 → ℕ → H × List (List UInt8)
  | h, [], _ => (h, [])
  | h, _ :: rest, skip + 1 => feedFrom dec h rest skip
  | h, b :: rest, 0 =>
    match dec h (b :: rest) with
    | (h, none) => (h, [b :: rest])
    | (h, some r) =>
      let (h, calls) := feedFrom dec h rest (r.next - 1)
      (h, (b :: rest) :: calls)

/-- A block is decoded to its end, whatever comes of it. -/
def feed (dec : Decoder H) (h : H) (block : List UInt8) : H × List (List UInt8) :=
  feedFrom dec h block 0

/-- One block after the other. -/
def feedAll (dec : Decoder H) (h : H) (blocks : List (List UInt8)) : H × List (List UInt8) :=
  blocks.foldl (fun (h, calls) block => ((feed dec h block).1, calls ++ (feed dec h block).2)) (h, [])

theorem feedAll_concat (dec : Decoder H) (h : H) (blocks : List (List UInt8)) (block : List UInt8) :
    feedAll dec h (blocks ++ [block]) =
      ((feed dec (feedAll dec h blocks).1 block).1,
        (feedAll dec h blocks).2 ++ (feed dec (feedAll dec h blocks).1 block).2) := by
  rw [feedAll, List.foldl_append]
  rfl

/-- The decoding loop, `offset` bytes of it being still to skip. The body may end it with an error;
a field that cannot be decoded ends it with `bad`. -/
def decodeLoop (dec : Decoder H) (bad : ε) (body : α → DecodeResult → α × Option ε) :
    H → α → List UInt8 → ℕ → H × List (List UInt8) × α × Option ε
  | h, acc, [], _ => (h, [], acc, none)
  | h, acc, _ :: rest, skip + 1 => decodeLoop dec bad body h acc rest skip
  | h, acc, b :: rest, 0 =>
    match dec h (b :: rest) with
    | (h, none) => (h, [b :: rest], acc, some bad)
    | (h, some r) =>
      match body acc r with
      | (acc, some e) => (h, [b :: rest], acc, some e)
      | (acc, none) =>
        let (h, calls, out) := decodeLoop dec bad body h acc rest (r.next - 1)
        (h, (b :: rest) :: calls, out)

theorem decodeLoop_feedFrom (dec : Decoder H) (bad : ε) (body : α → DecodeResult → α × Option ε) :
    ∀ (h : H) (acc : α) (block : List UInt8) (skip : ℕ),
      (decodeLoop dec bad body h acc block skip).2.2.2 = none →
        ((decodeLoop dec bad body h acc block skip).1,
          (decodeLoop dec bad body h acc block skip).2.1) = feedFrom dec h block skip
  | h, acc, [], skip, _ => by simp [decodeLoop, feedFrom]
  | h, acc, _ :: rest, skip + 1, hok => by
    rw [decodeLoop] at hok ⊢
    exact decodeLoop_feedFrom dec bad body h acc rest skip hok
  | h, acc, b :: rest, 0, hok => by
    rw [decodeLoop] at hok ⊢
    rw [feedFrom]
    rcases hd : dec h (b :: rest) with ⟨h', _ | r⟩
    · simp [hd] at hok
    rcases hb : body acc r with ⟨acc', _ | e⟩
    · simp only [hd, hb] at hok ⊢
      rw [← decodeLoop_feedFrom dec bad body h' acc' rest (r.next - 1) hok]
    · simp [hd, hb] at hok

theorem decodeLoop_feed (dec : Decoder H) (bad : ε) (body : α → DecodeResult → α × Option ε) (h : H)
    (acc : α) (block : List UInt8) (hok : (decodeLoop dec bad body h acc block 0).2.2.2 = none) :
    ((decodeLoop dec bad body h acc block 0).1, (decodeLoop dec bad body h acc block 0).2.1) =
      feed dec h block :=
  decodeLoop_feedFrom dec bad body h acc block 0 hok

end Cruller.H2
