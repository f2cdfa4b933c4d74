import SampledSeq.Bits
import SampledSeq.Blocks
import SampledSeq.Error

/-!
# The lists of a hybrid sequence

A block of a hybrid sequence is one of four lists of values, each addressed by its first bit in a
stream that says nothing about its length. Every list has two ways to its values: `access` finds one
of them, `decode` scans all. `fill` is `decode` in the slots of a buffer.

| here | there |
| --- | --- |
| `Interval`, `Bitmap`, `EliasFano` | `FullList`, `BitmapList`, `EliasFanoList` |
| `estimate`, `access`, `fill` | `estimate_size`, `access`, `decode` |
| `GapList.fold`, `GapList.unfold` | `zigzag`, `unzigzag` |
| `EliasFano.upperStop` | `high_end` |
| `BlockKind.ofTag`, `BlockKind.choose` | `from_tag`, `choose_kind` |
| the bound of a list | its universe |
-/

/-!
## Intervals

A list that holds every number below its bound needs no bits at all: the value at an index is the
index.
-/

namespace SampledSeq.Interval

/-- The value at index `i`. -/
def access (i : Nat) : UInt64 := UInt64.ofNat i

def valuesFrom (i : Nat) : Nat → List UInt64
  | 0 => []
  | count + 1 => UInt64.ofNat i :: valuesFrom (i + 1) count

/-- All `count` values. -/
def decode (count : Nat) : List UInt64 := valuesFrom 0 count

/-- Write the `count` values from `i` on, each into the slot of its index. -/
def fillFrom (i : Nat) : Nat → Fill Unit
  | 0 => return ()
  | count + 1 => do
    Fill.put i (UInt64.ofNat i)
    fillFrom (i + 1) count

/-- Decode all `count` values into the first slots. -/
def fill (count : Nat) : Fill Unit := fillFrom 0 count

end SampledSeq.Interval

/-!
## Bitmaps

A bitmap stores distinct values below a bound in ascending order: one bit per number below the
bound, which is one exactly for the values.
-/

namespace SampledSeq.Bitmap

def estimate (bound : Nat) : Nat := bound

def write (w : BitWriter) (values : List UInt64) (bound : Nat) : BitWriter :=
  (w.writeZeros bound).setAll (values.map fun value => w.len + value.toNat)

def stop (start bound : Nat) : Except Error Nat := Position.addOr .bitmapTooLong start bound

/-- The value at index `i` of the bitmap at bit `start`. -/
def access (s : BitSlice) (start bound i : Nat) : Except Error UInt64 := do
  let stop ← stop start bound
  let pos ← s.select1 start stop i
  return UInt64.ofNat (← Position.sub pos start)

/-- The first `count` values of the bitmap at bit `start`. -/
def decode (s : BitSlice) (start bound count : Nat) : Except Error (List UInt64) := do
  let stop ← stop start bound
  let found ← s.firstOnes stop start count
  if found.length < count then
    corrupt (.bitmapShort found.length count)
  found.mapM fun pos => return UInt64.ofNat (← Position.sub pos start)

/-- Decode the first `count` values of the bitmap at bit `start` into the first slots, each as it is
found. -/
def fill (s : BitSlice) (start bound count : Nat) : Fill Unit := do
  let stop ← stop start bound
  s.eachOne (fun i pos => do Fill.put i (UInt64.ofNat (← Position.sub pos start)))
    (fun found => .bitmapShort found count) stop start 0 count

end SampledSeq.Bitmap

/-!
## Gap lists

A gap list stores any list of words: the differences between neighbours modulo `2 ^ 64`, the first
one against 0, all at one width. A difference is folded to a code first, so that small steps in
either direction have small codes: steps up are the even codes, steps down the odd ones.

Stored form: the width in 7 bits, then one field per value.
-/

namespace SampledSeq.GapList

def headerBits : Nat := 7

/-- The code of a step: twice its size for a step up, one less than that for a step down. -/
def fold (step : UInt64) : UInt64 :=
  if step < 0x8000000000000000 then step <<< 1 else ~~~(step <<< 1)

/-- The step of a code. -/
def unfold (code : UInt64) : UInt64 :=
  if code &&& 1 = 0 then code >>> 1 else ~~~(code >>> 1)

/-- The codes of the steps of a list whose values follow `previous`. -/
def codesFrom (previous : UInt64) : List UInt64 → List UInt64
  | [] => []
  | value :: values => fold (value - previous) :: codesFrom value values

def codes (values : List UInt64) : List UInt64 := codesFrom 0 values

/-- The bits that `count` values take at most: every field is charged the full 64. -/
def estimate (count : Nat) : Nat := headerBits + count * 64

def write (w : BitWriter) (values : List UInt64) : BitWriter :=
  let codes := codes values
  let width := Word.commonWidth (codes.map UInt64.toNat)
  (w.writeBits (UInt64.ofNat width) headerBits).writeAll codes width

/-- The width of the list at bit `start`. -/
def width (s : BitSlice) (start : Nat) : Except Error Nat := do
  let width := (← s.getBits start headerBits).toNat
  if width > 64 then
    corrupt (.gapWidth width)
  return width

/-- The values of the `count` codes from bit `pos` on, which follow `previous`. -/
def valuesFrom (s : BitSlice) (width : Nat) :
    Nat → Nat → UInt64 → Except Error (List UInt64)
  | 0, _, _ => .ok []
  | count + 1, pos, previous => do
    let value := previous + unfold (← s.getBits pos width)
    let values ← valuesFrom s width count (← Position.checked (pos + width)) value
    return value :: values

/-- The value that is `steps` codes behind `previous`. -/
def valueAfter (s : BitSlice) (width : Nat) : Nat → Nat → UInt64 → Except Error UInt64
  | 0, _, previous => .ok previous
  | steps + 1, pos, previous => do
    let value := previous + unfold (← s.getBits pos width)
    valueAfter s width steps (← Position.checked (pos + width)) value

def access (s : BitSlice) (start i : Nat) : Except Error UInt64 := do
  let width ← width s start
  valueAfter s width (i + 1) (← Position.checked (start + headerBits)) 0

def decode (s : BitSlice) (start count : Nat) : Except Error (List UInt64) := do
  let width ← width s start
  valuesFrom s width count (← Position.checked (start + headerBits)) 0

/-- Write the values of the `count` codes from bit `pos` on, which follow `previous`, into the slots
from `i` on. -/
def fillFrom (s : BitSlice) (width : Nat) : Nat → Nat → UInt64 → Nat → Fill Unit
  | 0, _, _, _ => return ()
  | count + 1, pos, previous, i => do
    let value := previous + unfold (← s.getBits pos width)
    Fill.put i value
    fillFrom s width count (← Position.checked (pos + width)) value (i + 1)

def fill (s : BitSlice) (start count : Nat) : Fill Unit := do
  let width ← width s start
  fillFrom s width count (← Position.checked (start + headerBits)) 0 0

end SampledSeq.GapList

/-!
## Elias-Fano lists

An Elias-Fano list stores values below a bound in ascending order, repetitions allowed. Every value
is split: its lowest `lowWidth` bits are fields one after the other, and its upper part `h` is the
`i`-th one of the bits behind them, at `h + i`. So a value is found from its index without reading
those before it.

For `m` values below `u` the low width is `floor (log2 (u / m))` (`lowWidth`), and the upper bits
are `u / 2 ^ lowWidth + m + 1`. Neither is stored: both follow from `m` and `u`.
-/

namespace SampledSeq.EliasFano

/-- Bits of the low part of `count` values below `bound`. -/
def lowWidth (count bound : Nat) : Nat :=
  if count = 0 ∨ bound ≤ count then 0 else Nat.log2 (bound / count)

def estimate (count bound : Nat) : Nat :=
  let low := lowWidth count bound
  count * low + count + bound >>> low + 1

def write (w : BitWriter) (values : List UInt64) (bound : Nat) : BitWriter :=
  let count := values.length
  let low := lowWidth count bound
  let w := w.writeAll values low
  (w.writeZeros (bound >>> low + count + 1)).setAll
    (values.mapIdx fun i value => w.len + value.toNat >>> low + i)

/-- The low width as a reader computes it: a bit less than the mean gap has. -/
def readWidth (count bound : Nat) : Except Error Nat :=
  if count = 0 ∨ bound ≤ count then .ok 0 else Position.sub (Word.bitLength (bound / count)) 1

/-- The end of the upper bits that start at bit `start`. -/
def upperStop (start count bound low : Nat) : Except Error Nat := do
  let upper := bound >>> (← Position.below 64 low)
  let length ← Position.addOr .upperTooLong upper (← Position.checked (count + 1))
  Position.addOr .upperTooLong start length

/-- The value with the given low part whose upper part is recorded by the one at `offset`, being the
`i`-th of its list. Bits that do not fit a word are dropped. -/
def join (low : Nat) (lowPart : UInt64) (offset i : Nat) : Except Error UInt64 := do
  let upper ← Position.sub offset i
  return (UInt64.ofNat upper <<< UInt64.ofNat (← Position.below 64 low)) ||| lowPart

def access (s : BitSlice) (start count bound i : Nat) : Except Error UInt64 := do
  let low ← readWidth count bound
  let lowPart ← s.getBits (← Position.checked (start + i * low)) low
  let upperStart ← Position.checked (start + count * low)
  let stop ← upperStop upperStart count bound low
  let pos ← s.select1 upperStart stop i
  join low lowPart (← Position.sub pos upperStart) i

def lowParts (s : BitSlice) (start low : Nat) : Nat → Nat → Except Error (List UInt64)
  | 0, _ => .ok []
  | count + 1, i => do
    let part ← s.getBits (← Position.checked (start + i * low)) low
    let parts ← lowParts s start low count (i + 1)
    return part :: parts

/-- The values with the given low parts and the given positions of their ones, from index `i` on. -/
def joinAll (low upperStart : Nat) : Nat → List UInt64 → List Nat → Except Error (List UInt64)
  | i, part :: parts, pos :: ones => do
    let value ← join low part (← Position.sub pos upperStart) i
    let values ← joinAll low upperStart (i + 1) parts ones
    return value :: values
  | _, _, _ => .ok []

def decode (s : BitSlice) (start bound count : Nat) : Except Error (List UInt64) := do
  let low ← readWidth count bound
  let parts ← lowParts s start low count 0
  let upperStart ← Position.checked (start + count * low)
  let stop ← upperStop upperStart count bound low
  let found ← s.firstOnes stop upperStart count
  if found.length < count then
    corrupt (.upperShort found.length count)
  joinAll low upperStart 0 parts found

/-- Write the low parts of `count` values into the slots from index `i` on. -/
def fillLow (s : BitSlice) (start low : Nat) : Nat → Nat → Fill Unit
  | 0, _ => return ()
  | count + 1, i => do
    Fill.put i (← s.getBits (← Position.checked (start + i * low)) low)
    fillLow s start low count (i + 1)

/-- Decode all `count` values of the list at bit `start` into the first slots: all low parts first,
and then each upper part is joined to the low part in its slot. -/
def fill (s : BitSlice) (start bound count : Nat) : Fill Unit := do
  let low ← readWidth count bound
  fillLow s start low count 0
  let upperStart ← Position.checked (start + count * low)
  let stop ← upperStop upperStart count bound low
  s.eachOne (fun i pos =>
    Fill.change (fun part => do join low part (← Position.sub pos upperStart) i) i)
    (fun found => .upperShort found count) stop upperStart 0 count

end SampledSeq.EliasFano

/-!
## The encodings of a block

A block of a hybrid sequence is one of four lists, told apart by a tag of two bits. A list has no
header for its length: it is addressed by its first bit, the number of its values and the bound
below which they lie.

A block in ascending order is stored by the cheapest encoding that can hold it (`choose`): an
interval costs nothing, and between bitmap and Elias-Fano list the sizes decide. Interval and bitmap
need distinct values.
-/

namespace SampledSeq

/-- The encoding of a block. -/
inductive BlockKind where
  /-- A gap list of the values themselves, in any order. -/
  | raw
  | bitmap
  | eliasFano
  | full
deriving DecidableEq, Repr

namespace BlockKind

def tagBits : Nat := 2

def tag : BlockKind → Nat
  | raw => 0
  | bitmap => 1
  | eliasFano => 2
  | full => 3

def ofTag : Nat → Except Error BlockKind
  | 0 => .ok raw
  | 1 => .ok bitmap
  | 2 => .ok eliasFano
  | 3 => .ok full
  | tag => corrupt (.blockTag tag)

theorem ofTag_tag (kind : BlockKind) : ofTag kind.tag = .ok kind := by
  cases kind <;> rfl

def name : BlockKind → String
  | raw => "Raw"
  | bitmap => "Bitmap"
  | eliasFano => "EliasFano"
  | full => "Full"

/-- The bits of `count` values below `bound`; for a gap list, the bits that they take at most. -/
def estimate (kind : BlockKind) (count bound : Nat) : Nat :=
  match kind with
  | raw => GapList.estimate count
  | bitmap => Bitmap.estimate bound
  | eliasFano => EliasFano.estimate count bound
  | full => 0

def write (kind : BlockKind) (w : BitWriter) (values : List UInt64) (bound : Nat) : BitWriter :=
  match kind with
  | raw => GapList.write w values
  | bitmap => Bitmap.write w values bound
  | eliasFano => EliasFano.write w values bound
  | full => w

def access (kind : BlockKind) (s : BitSlice) (start count bound i : Nat) : Except Error UInt64 :=
  match kind with
  | raw => GapList.access s start i
  | bitmap => Bitmap.access s start bound i
  | eliasFano => EliasFano.access s start count bound i
  | full => .ok (Interval.access i)

def decode (kind : BlockKind) (s : BitSlice) (start bound count : Nat) :
    Except Error (List UInt64) :=
  match kind with
  | raw => GapList.decode s start count
  | bitmap => Bitmap.decode s start bound count
  | eliasFano => EliasFano.decode s start bound count
  | full => .ok (Interval.decode count)

def fill (kind : BlockKind) (s : BitSlice) (start bound count : Nat) : Fill Unit :=
  match kind with
  | raw => GapList.fill s start count
  | bitmap => Bitmap.fill s start bound count
  | eliasFano => EliasFano.fill s start bound count
  | full => Interval.fill count

/-- The encoding of an ascending block of `count` values below `bound`. -/
def choose (count bound : Nat) (distinct : Bool) : BlockKind :=
  if distinct && count == bound then full
  else if distinct && bitmap.estimate count bound < eliasFano.estimate count bound then bitmap
  else eliasFano

end BlockKind

end SampledSeq
