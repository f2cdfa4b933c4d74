import SampledSeq.Bits
import SampledSeq.Blocks
import SampledSeq.Error
import SampledSeq.Numeral

/-!
# Codecs for blocks of differences

A codec turns one block of 32-bit differences into bytes that say themselves where they end, and
back. There are two: binary packing (`FixedWidth`) and PFor (`Patched`), which both pack frames of
values at a common width (`Frame.Packer`). The second also stores LEB128 integers (`Base128`).

| here | there |
| --- | --- |
| `Codec` | `BlockCodec`, with its `NAME`, `GRANULE`, `DETECT_FULL_RUNS` and `LEADING_PADDING` |
| `FixedWidth`, `Patched` | `BinaryPacking`, `Pfor` |
| `encodeOnto`, `encodedSize`, `decodeCounting` | `encode`, `encoded_len`, `decode` |
| `Patched.best`, `Patched.cost` | `choose_width`, `cost` |
| `Frame.straight`, `Frame.interleaved` | `BitPacker1x`, `BitPacker4x` |
-/

/-!
## Base-128 integers (LEB128)

An integer is written in groups of seven bits, lowest group first, one group a byte. Every byte but
the last has its high bit set. A word takes at most ten groups, and the tenth holds a single bit: a
longer integer is refused.
-/

namespace SampledSeq.Base128

def encode (n : Nat) : List UInt8 :=
  if h : n < 128 then [UInt8.ofNat n]
  else UInt8.ofNat (n % 128 + 128) :: encode (n / 128)
termination_by n
decreasing_by omega

def encodeOnto (out : Array UInt8) (n : Nat) : Array UInt8 :=
  if h : n < 128 then out.push (UInt8.ofNat n)
  else encodeOnto (out.push (UInt8.ofNat (n % 128 + 128))) (n / 128)
termination_by n
decreasing_by omega

/-- The number of bytes of `n`, from its bit length. -/
def encodedSize (n : Nat) : Nat := (max (Word.bitLength n) 1 + 6) / 7

/-- `value` with a group written above the `shift` bits that it holds already. Bits of the group
that do not fit the word are lost. -/
def addGroup (shift : Nat) (value : UInt64) (group : Nat) : UInt64 :=
  value ||| UInt64.ofNat group <<< UInt64.ofNat shift

/-- The groups of one integer from group `index` on, which `value` already holds the groups below
of, and the bytes behind it. -/
def decodeFrom (index : Nat) (value : UInt64) : List UInt8 → Except Error (UInt64 × List UInt8)
  | [] => corrupt .groupsTruncated
  | byte :: rest =>
    let group := byte.toNat % 128
    if index ≥ 10 ∨ (index = 9 ∧ group ≥ 2) then corrupt .groupsTooLong
    else do
      let value := addGroup (← Position.below 64 (7 * index)) value group
      if byte.toNat < 128 then
        return (value, rest)
      else
        decodeFrom (index + 1) value rest

/-- The integer at the head of `bytes`, and the bytes behind it. -/
def decode (bytes : List UInt8) : Except Error (Nat × List UInt8) :=
  (decodeFrom 0 0 bytes).map fun (value, rest) => (value.toNat, rest)

end SampledSeq.Base128

/-!
## Frames of packed 32-bit values

A `Packer` cuts a fixed number of 32-bit values down to a common width and lays their bits out in a
frame of bytes. What the codecs rely on is `Packer.Lawful`: the lengths of frames, and that values
come back that have no bits above the width. Nothing is promised for other values, nor for widths
above 32, so reading a frame checks its width once more (`Packer.read`).

There are two packers:

- `straight` frames hold 32 values one after the other, least significant bit first, in `4 * width`
  bytes;
- `interleaved` frames hold 128 values in four lanes. Lane `k` has the values `4 * j + k`, one after
  the other, in `width` words of 32 bits; the words of the four lanes take turns, so there are
  `16 * width` bytes.

Either way a lane is a numeral with 32 digits in base `2 ^ width`, and both packers are lawful
(`straight_lawful`, `interleaved_lawful`).
-/

namespace SampledSeq.Frame

/-! ### Packers -/

/-- A layout of frames of 32-bit values at any width up to 32. -/
structure Packer where
  /-- Values per frame. -/
  size : Nat
  /-- Bytes per frame of a width. -/
  bytes : Nat → Nat
  pack : Nat → List UInt32 → List UInt8
  unpack : Nat → List UInt8 → List UInt32
  /-- The least width for the values of a frame. -/
  numBits : List UInt32 → Nat

namespace Packer

/-- The values of the frame at the head of `data`, and the bytes behind it. -/
def read (p : Packer) (short : Corruption) (width : Nat) (data : List UInt8) :
    Except Error (List UInt32 × List UInt8) :=
  match Cut.exact (p.bytes width) data with
  | none => corrupt short
  | some (frame, rest) => do
    let width ← Position.below 33 width
    return (p.unpack width frame, rest)

end Packer

/-! ### Lanes -/

def columns (n : Nat) (table : List (List Nat)) : List (List Nat) :=
  (List.range n).map fun k => table.map fun row => row.getD k 0

/-- One more than the largest value of `width` bits. -/
def base (width : Nat) : Nat := 1 <<< width

/-- The number whose digits, of `width` bits each, are the lowest bits of the values. -/
def packLane (width : Nat) (values : List Nat) : Nat :=
  Numeral.ofDigits (base width) (values.map (· % base width))

/-! ### Straight frames -/

namespace Straight

def size : Nat := 32

def bytes (width : Nat) : Nat := 4 * width

def pack (width : Nat) (values : List UInt32) : List UInt8 :=
  Numeral.toBytes (bytes width) (packLane width (values.map UInt32.toNat))

def unpack (width : Nat) (frame : List UInt8) : List UInt32 :=
  (Numeral.digits (base width) size (Numeral.ofBytes frame)).map UInt32.ofNat

end Straight

/-! ### Interleaved frames -/

namespace Interleaved

def size : Nat := 128

def bytes (width : Nat) : Nat := 16 * width

def pack (width : Nat) (values : List UInt32) : List UInt8 :=
  let lanes := columns 4 (Cut.rows 4 (values.map UInt32.toNat))
  let words := lanes.map fun lane => Numeral.digits (base 32) width (packLane width lane)
  (columns width words).flatten.flatMap (Numeral.toBytes 4)

def unpack (width : Nat) (frame : List UInt8) : List UInt32 :=
  let words := columns 4 (Cut.rows 4 ((Cut.rows 4 frame).map Numeral.ofBytes))
  let lanes := words.map fun lane =>
    Numeral.digits (base width) 32 (Numeral.ofDigits (base 32) lane)
  (columns 32 lanes).flatten.map UInt32.ofNat

end Interleaved

/-! ### The two packers -/

/-- The bits of all values combined. -/
def numBits (values : List UInt32) : Nat := Word.commonWidth (values.map UInt32.toNat)

def straight : Packer :=
  { size := Straight.size, bytes := Straight.bytes, pack := Straight.pack,
    unpack := Straight.unpack, numBits }

def interleaved : Packer :=
  { size := Interleaved.size, bytes := Interleaved.bytes, pack := Interleaved.pack,
    unpack := Interleaved.unpack, numBits }

end SampledSeq.Frame

/-!
## Fixed-width blocks (binary packing)

A block of 32-bit differences is cut into frames of 128. Each frame is one width byte, followed by
the interleaved frame at that width; the width is the least one that loses nothing, so a frame of
zeros is a single byte.
-/

namespace SampledSeq.FixedWidth

def granule : Nat := Frame.interleaved.size

/-- The least width that holds every difference of a frame. -/
def frameWidth (frame : List UInt32) : Nat := Frame.interleaved.numBits frame

def encodeFrame (frame : List UInt32) : List UInt8 :=
  let width := frameWidth frame
  UInt8.ofNat width :: Frame.interleaved.pack width frame

def encode (deltas : List UInt32) : List UInt8 := (Cut.rows granule deltas).flatMap encodeFrame

def encodeFrameOnto (out : Array UInt8) (frame : List UInt32) : Array UInt8 :=
  let width := frameWidth frame
  out.push (UInt8.ofNat width) ++ Frame.interleaved.pack width frame

def encodeOnto (out : Array UInt8) (deltas : List UInt32) : Array UInt8 :=
  (Cut.rows granule deltas).foldl encodeFrameOnto out

def encodedSize (deltas : List UInt32) : Nat :=
  (Cut.rows granule deltas).foldr
    (fun frame bytes => 1 + Frame.interleaved.bytes (frameWidth frame) + bytes) 0

/-- The frame at the head of `data`, and the bytes behind it. -/
def decodeFrame : List UInt8 → Except Error (List UInt32 × List UInt8)
  | [] => corrupt .frameHeader
  | header :: data =>
    let width := header.toNat
    if width > 32 then corrupt (.frameWidth width)
    else Frame.interleaved.read .frameTruncated width data

/-- The given number of frames at the head of `data`, and the bytes behind them. -/
def decodeFrames : Nat → List UInt8 → Except Error (List UInt32 × List UInt8)
  | 0, data => .ok ([], data)
  | n + 1, data => do
    let (frame, data) ← decodeFrame data
    let (frames, data) ← decodeFrames n data
    return (frame ++ frames, data)

/-- Fill `slots` from the head of `data`, and answer the bytes behind what was read. Only whole
frames are filled; the slots behind the last whole frame keep their content. -/
def decode (data : List UInt8) (slots : List UInt32) : Except Error (List UInt32 × List UInt8) := do
  let (values, rest) ← decodeFrames (slots.length / granule) data
  return (values ++ slots.drop values.length, rest)

end SampledSeq.FixedWidth

/-!
## Patched blocks (PFor)

A block of 32-bit differences is packed at a single width. A difference with more bits is an
**exception**: its lowest bits stay in the packed frames, and its remaining high bits follow in a
list of patches. One outlier thus does not force its width on the whole block.

Stored form at width `w`: the byte `w`; the straight frames of the lowest `w` bits; the number of
exceptions; and per exception the gap to the exception before it (to the start of the block for the
first one) and its high bits. The last three are base-128 integers.

`chooseWidth` takes the width with the fewest bytes; of the width of the largest difference and the
narrower ones the first that is cheapest, with the widest one preferred on a tie.
-/

namespace SampledSeq.Patched

def granule : Nat := Frame.straight.size

/-! ### Exceptions -/

/-- The difference does not fit `width` bits. -/
def isException (width : Nat) (delta : UInt32) : Bool := Word.bitLength delta.toNat > width

/-- Gap and high bits of every exception, if the first difference has the distance `gap` from the
exception before it. -/
def exceptionsFrom (width gap : Nat) : List UInt32 → List (Nat × Nat)
  | [] => []
  | delta :: deltas =>
    if isException width delta then
      (gap, delta.toNat >>> width) :: exceptionsFrom width 1 deltas
    else exceptionsFrom width (gap + 1) deltas

def exceptions (width : Nat) (deltas : List UInt32) : List (Nat × Nat) :=
  exceptionsFrom width 0 deltas

/-! ### The choice of the width -/

def patchBytes (patches : List (Nat × Nat)) : Nat :=
  patches.foldr
    (fun (gap, high) bytes => Base128.encodedSize gap + Base128.encodedSize high + bytes) 0

/-- The number of bytes of a block at a given width. -/
def cost (width : Nat) (deltas : List UInt32) : Nat :=
  let patches := exceptions width deltas
  1 + deltas.length * width / 8 + Base128.encodedSize patches.length + patchBytes patches

/-- The width for a block and the number of bytes at that width. -/
def best (deltas : List UInt32) : Nat × Nat :=
  let widest := Word.commonWidth (deltas.map UInt32.toNat)
  (List.range widest).foldl
    (fun best width =>
      let bytes := cost width deltas
      if bytes < best.2 then (width, bytes) else best)
    (widest, cost widest deltas)

def chooseWidth (deltas : List UInt32) : Nat := (best deltas).1

def encodedSize (deltas : List UInt32) : Nat := (best deltas).2

/-! ### Encoding -/

def lowMask (width : Nat) : UInt32 :=
  if width ≥ 32 then 0xFFFFFFFF else 1 <<< UInt32.ofNat width - 1

/-- What a frame keeps of its differences: a packer is not asked to cut off anything. -/
def lows (width : Nat) (frame : List UInt32) : List UInt32 := frame.map (· &&& lowMask width)

def packFrame (width : Nat) (frame : List UInt32) : List UInt8 :=
  Frame.straight.pack width (lows width frame)

def encodeAt (width : Nat) (deltas : List UInt32) : List UInt8 :=
  let patches := exceptions width deltas
  UInt8.ofNat width :: (Cut.rows granule deltas).flatMap (packFrame width) ++
    Base128.encode patches.length ++
    patches.flatMap fun (gap, high) => Base128.encode gap ++ Base128.encode high

def encode (deltas : List UInt32) : List UInt8 := encodeAt (chooseWidth deltas) deltas

def packOnto (width : Nat) (out : Array UInt8) (frame : List UInt32) : Array UInt8 :=
  out ++ packFrame width frame

def patchOnto (out : Array UInt8) (patch : Nat × Nat) : Array UInt8 :=
  Base128.encodeOnto (Base128.encodeOnto out patch.1) patch.2

def encodeOnto (out : Array UInt8) (deltas : List UInt32) : Array UInt8 :=
  let width := chooseWidth deltas
  let patches := exceptions width deltas
  let out := (Cut.rows granule deltas).foldl (packOnto width) (out.push (UInt8.ofNat width))
  patches.foldl patchOnto (Base128.encodeOnto out patches.length)

/-! ### Decoding -/

/-- The given number of frames at the head of `data`, and the bytes behind them. -/
def decodeFrames (width : Nat) : Nat → List UInt8 → Except Error (List UInt32 × List UInt8)
  | 0, data => .ok ([], data)
  | n + 1, data => do
    let (frame, data) ← Frame.straight.read .patchedTruncated width data
    let (frames, data) ← decodeFrames width n data
    return (frame ++ frames, data)

/-- The high bits of an exception, moved above `width` bits. They have to fit behind these. -/
def raise (width high : Nat) : Except Error UInt32 := do
  if width ≥ 32 then
    corrupt .patchedValue
  if high >>> (← Position.below 64 (← Position.sub 32 width)) ≠ 0 then
    corrupt .patchedValue
  return UInt32.ofNat high <<< UInt32.ofNat (← Position.below 32 width)

/-- Add the high bits of the given number of exceptions, the one before them being at `pos`. -/
def patch (width : Nat) :
    Nat → Nat → List UInt32 → List UInt8 → Except Error (List UInt32 × List UInt8)
  | 0, _, slots, data => .ok (slots, data)
  | n + 1, pos, slots, data => do
    let (gap, data) ← Base128.decode data
    let (high, data) ← Base128.decode data
    if slots.length ≤ pos + gap then
      corrupt .patchedPosition
    let bits ← raise width high
    let slot ← Position.below slots.length (pos + gap)
    patch width n slot (slots.modify slot (· ||| bits)) data

/-- Fill `slots` from the head of `data`, and answer the bytes behind what was read. Only whole
frames are filled; the slots behind the last whole frame keep their content, up to patches. -/
def decode (data : List UInt8) (slots : List UInt32) : Except Error (List UInt32 × List UInt8) := do
  match data with
  | [] => corrupt .patchedHeader
  | header :: data =>
    let width := header.toNat
    if width > 32 then
      corrupt (.patchedWidth width)
    let (values, data) ← decodeFrames width (slots.length / granule) data
    let (count, data) ← Base128.decode data
    if slots.length < count then
      corrupt (.patchedCount count slots.length)
    patch width count 0 (values ++ slots.drop values.length) data

end SampledSeq.Patched

/-!
## Both codecs

A codec may also keep blocks of consecutive values out of the payload altogether; offset 0 of
the payload is then reserved, so that pointer 0 can stand for such a run.
-/

namespace SampledSeq

/-- How the blocks of a delta-coded sequence are stored. -/
inductive Codec where
  /-- Frames of 128 differences at their own width. -/
  | fixedWidth
  /-- One width per block, and patches for the outliers. -/
  | patched
deriving DecidableEq, Repr

namespace Codec

def name : Codec → String
  | fixedWidth => "binary-packing"
  | patched => "pfor"

def granule : Codec → Nat
  | fixedWidth => FixedWidth.granule
  | patched => Patched.granule

/-- Blocks of consecutive values are kept out of the payload. -/
def marksRuns : Codec → Bool
  | fixedWidth => false
  | patched => true

/-- Zero bytes in front of the first block of a payload. -/
def leadingPadding : Codec → Nat
  | fixedWidth => 0
  | patched => 1

def encode : Codec → List UInt32 → List UInt8
  | fixedWidth => FixedWidth.encode
  | patched => Patched.encode

def encodeOnto : Codec → Array UInt8 → List UInt32 → Array UInt8
  | fixedWidth => FixedWidth.encodeOnto
  | patched => Patched.encodeOnto

def encodedSize : Codec → List UInt32 → Nat
  | fixedWidth => FixedWidth.encodedSize
  | patched => Patched.encodedSize

/-- Fill `slots` from the head of `data`, and answer the bytes behind what was read. -/
def decode : Codec → List UInt8 → List UInt32 → Except Error (List UInt32 × List UInt8)
  | fixedWidth => FixedWidth.decode
  | patched => Patched.decode

/-- Fill `slots` from the head of `data`, and answer the number of bytes read. -/
def decodeCounting (codec : Codec) (data : List UInt8) (slots : List UInt32) :
    Except Error (List UInt32 × Nat) := do
  let (values, rest) ← codec.decode data slots
  return (values, data.length - rest.length)

end Codec

end SampledSeq
