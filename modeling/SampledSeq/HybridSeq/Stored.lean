import SampledSeq.BlockList
import SampledSeq.Blocks
import SampledSeq.Sequence
import SampledSeq.Stream

/-!
# Hybrid sequences

A `HybridSeq size` holds 64-bit values in blocks of `size`. Every block has a lower boundary: 0 for
the first block, and for the others the last value of the block before. Where a block is ascending
and starts above its boundary `lo`, all its values lie in `(lo, hi]` with `hi` its last value. It is
then stored relative to `lo + 1`, below the bound `hi - lo`, by the cheapest list that can hold it.
Any other block is stored as a gap list of the values themselves.

- `table` lists for every block its pointer and its boundary, and behind them the payload length in
  bits and the last value.
- `payload` is a bit stream; a block starts at its pointer with the tag of its encoding.

| here | there |
| --- | --- |
| `HybridSeq` | `EfVector` |
| `boundary` | `top` |
| `offsets`, `fill` | `decode_block` |
| `kindOf`, `written`, `writeBlock` | `encode_block` |
| `Builder.store`, `Builder.flush` | `flush` |
| `ofList` | `new` and `try_from_iter` |
| `check` | `validate` |
-/

/-! ## Table and payload -/

namespace SampledSeq

/-- A block-sampled sequence of 64-bit values that chooses an encoding per block. -/
structure HybridSeq (size : Nat) where
  len : Nat
  table : PackedArray
  payload : Array UInt64
deriving DecidableEq, Repr

namespace HybridSeq

variable {size : Nat}

def numBlocks (s : HybridSeq size) : Nat := Blocks.count s.len size

/-- The memory that payload and block table take, in bytes. -/
def memoryBytes (s : HybridSeq size) : Nat := s.payload.size * 8 + s.table.memoryBytes

def describe (s : HybridSeq size) : String :=
  "EfVector \x7b block_size: " ++ toString size ++ ", len: " ++ toString s.len ++
    ", payload_words: " ++ toString s.payload.size ++ " \x7d"

end HybridSeq

end SampledSeq

/-!
## Access to a hybrid sequence

`get` answers a single value, `offsets` a whole block as a list, and `fill` decodes a block in
place.

A gap list holds the values themselves. The other lists hold values relative to one above the lower
boundary of the block, and their bound is the distance to the upper boundary; both boundaries come
from the block table.
-/

namespace SampledSeq.HybridSeq

variable {size : Nat}

/-- The first bit of block `id`; for the number of blocks, the payload length in bits. -/
def pointer (s : HybridSeq size) (id : Nat) : Except Error Nat := do
  return (← s.table.get (← Position.checked (2 * id))).toNat

/-- The lower boundary of block `id`. -/
def boundary (s : HybridSeq size) (id : Nat) : Except Error UInt64 := do
  s.table.get (← Position.checked (2 * id + 1))

def payloadBits (s : HybridSeq size) : Except Error Nat := s.pointer s.numBlocks

/-- The lower boundary of block `id` and its distance to the upper one. -/
def bounds (s : HybridSeq size) (id : Nat) : Except Error (UInt64 × Nat) := do
  let lo ← s.boundary id
  let hi ← s.boundary (id + 1)
  if hi < lo then
    corrupt (.invertedUniverse id)
  return (lo, ← Position.sub hi.toNat lo.toNat)

def sample (s : HybridSeq size) (id : Nat) : Except Error UInt64 := do
  Blocks.check id s.numBlocks
  s.boundary id

def bits (s : HybridSeq size) : BitSlice := ⟨s.payload⟩

def kindAt (s : HybridSeq size) (pointer : Nat) : Except Error BlockKind := do
  BlockKind.ofTag (← s.bits.getBits pointer BlockKind.tagBits).toNat

def blockKind (s : HybridSeq size) (id : Nat) : Except Error BlockKind := do
  Blocks.check id s.numBlocks
  s.kindAt (← s.pointer id)

/-- The value at `relative` above `lo + 1`. -/
def rebase (lo relative : UInt64) : Except Error UInt64 :=
  if lo.toNat + 1 + relative.toNat < UInt64.size then .ok (lo + 1 + relative)
  else corrupt .valueOverflow

def get (s : HybridSeq size) (i : Nat) : Except Error UInt64 := do
  if i < s.len then
    let id := i / size
    let count := Blocks.length s.len size id
    let pointer ← s.pointer id
    let start ← Position.checked (pointer + BlockKind.tagBits)
    let kind ← s.kindAt pointer
    if kind = .raw then
      kind.access s.bits start count 0 (i % size)
    else
      let (lo, bound) ← s.bounds id
      rebase lo (← kind.access s.bits start count bound (i % size))
  else .error (.indexOutOfRange i s.len)

/-- The offsets from the lower boundary of the values of block `id`. -/
def valueOffsets (s : HybridSeq size) (id : Nat) : Except Error (List UInt64) := do
  let count := Blocks.length s.len size id
  let pointer ← s.pointer id
  let start ← Position.checked (pointer + BlockKind.tagBits)
  let kind ← s.kindAt pointer
  if kind = .raw then
    let lo ← s.boundary id
    let values ← kind.decode s.bits start 0 count
    return values.map (· - lo)
  else
    let (lo, bound) ← s.bounds id
    let values ← kind.decode s.bits start bound count
    values.mapM fun relative => return (← rebase lo relative) - lo

/-- The offsets from the lower boundary of all slots of block `id`: those of its values, and the
last one of them repeated. -/
def offsets (s : HybridSeq size) (id : Nat) : Except Error (List UInt64) := do
  let offsets ← s.valueOffsets id
  return offsets ++ List.replicate (size - offsets.length) (offsets.getLastD 0)

/-- Write the offsets from the lower boundary of the values of block `id` into the first slots. The
list is decoded first, and then each slot is moved to the boundary. -/
def fillValues (s : HybridSeq size) (id : Nat) : Fill Unit := do
  let count := Blocks.length s.len size id
  let pointer ← s.pointer id
  let start ← Position.checked (pointer + BlockKind.tagBits)
  let kind ← s.kindAt pointer
  if kind = .raw then
    let lo ← s.boundary id
    kind.fill s.bits start 0 count
    Fill.changeAll (fun value => return value - lo) count 0
  else
    let (lo, bound) ← s.bounds id
    kind.fill s.bits start bound count
    Fill.changeAll (fun relative => return (← rebase lo relative) - lo) count 0

/-- Write the offsets from the lower boundary of all slots of block `id`. -/
def fill (s : HybridSeq size) (id : Nat) : Fill Unit := do
  let count := Blocks.length s.len size id
  s.fillValues id
  let last ← Fill.slot (← Position.sub count 1)
  Fill.putAll count (List.replicate (size - count) last)

end SampledSeq.HybridSeq

/-!
## Building a hybrid sequence

The builder takes one value at a time and keeps no more than the block at hand: the boundary of the
next block is the last value of this one.
-/

namespace SampledSeq.HybridSeq

/-! ### One block -/

/-- The distance from the boundary of a block to its last value. -/
def boundAbove (lo : UInt64) (block : List UInt64) : Nat := (block.getLastD lo - lo).toNat

/-- The values stand in ascending order, repetitions allowed. -/
def ascending (block : List UInt64) : Bool := Neighbours.all (fun value next => value ≤ next) block

def strictlyAscending (block : List UInt64) : Bool :=
  Neighbours.all (fun value next => value < next) block

/-- The encoding of a block with boundary `lo`. -/
def kindOf (lo : UInt64) (block : List UInt64) : BlockKind :=
  if !ascending block || block.headD lo ≤ lo then .raw
  else .choose block.length (boundAbove lo block) (strictlyAscending block)

/-- The values that are written for a block: its own for a gap list, else relative to `lo + 1`. -/
def written (kind : BlockKind) (lo : UInt64) (block : List UInt64) : List UInt64 :=
  match kind with
  | .raw => block
  | _ => block.map fun value => value - lo - 1

/-- Append the tag and the list of a block. -/
def writeBlock (w : BitWriter) (kind : BlockKind) (lo : UInt64) (block : List UInt64) : BitWriter :=
  kind.write (w.writeBits (UInt64.ofNat kind.tag) BlockKind.tagBits) (written kind lo block)
    (boundAbove lo block)

/-- What encoding a block reports: nothing for a gap list. -/
def blockEvents (kind : BlockKind) (lo : UInt64) (block : List UInt64) : List Event :=
  match kind with
  | .raw => []
  | _ => [.hybridBlock kind block.length (boundAbove lo block)]

/-! ### All blocks -/

structure Builder (size : Nat) where
  pending : Array UInt64 := #[]
  /-- The boundary of the block at hand. -/
  lo : UInt64 := 0
  len : Nat := 0
  writer : BitWriter := {}
  /-- Pointer and boundary of every stored block. -/
  entries : Array UInt64 := #[]
  kinds : KindCounts := {}
  events : Array Event := #[]

namespace Builder

variable {size : Nat}

def store (b : Builder size) (block : List UInt64) : Builder size :=
  let kind := kindOf b.lo block
  { b with
    lo := block.getLastD b.lo
    writer := writeBlock b.writer kind b.lo block
    entries := (b.entries.push (UInt64.ofNat b.writer.len)).push b.lo
    kinds := b.kinds.add kind
    events := b.events ++ blockEvents kind b.lo block }

def flush (b : Builder size) : Builder size := { b.store b.pending.toList with pending := #[] }

def push (b : Builder size) (value : UInt64) : Builder size :=
  let b := { b with pending := b.pending.push value, len := b.len + 1 }
  if b.pending.size == size then b.flush else b

/-- Store what is left, and close the block table. -/
def finish (b : Builder size) : Traced (HybridSeq size) :=
  let b := if b.pending.isEmpty then b else b.flush
  let table :=
    PackedArray.ofList ((b.entries.push (UInt64.ofNat b.writer.len)).push b.lo).toList
  let built := Event.hybridBuilt size b.len (Blocks.count b.len size) b.kinds b.writer.len
  ⟨.ok { len := b.len, table, payload := b.writer.words }, (b.events.push built).toList⟩

end Builder

def ofList {size : Nat} (values : List UInt64) : Traced (HybridSeq size) :=
  (values.foldl Builder.push {}).finish

end SampledSeq.HybridSeq

/-!
## The stored form of a hybrid sequence

Stored form: the number of values (8 bytes), the number of payload words (8 bytes), the payload
words, the block table. Loading checks the table against both lengths, and that every block has room
for its tag before the next one starts. The lists themselves are checked when they are read.
-/

namespace SampledSeq.HybridSeq

variable {size : Nat}

/-- Write the sequence, and answer the number of bytes. -/
def serialize (s : HybridSeq size) : Store Nat := do
  let length ← Sink.writeLength s.len
  let payloadLength ← Sink.writeLength s.payload.size
  let payload ← Sink.writeWords s.payload.toList
  let table ← s.table.serialize
  return length + payloadLength + payload + table

/-- Check the pointers of `remaining` blocks from block `id` on. -/
def checkBlocks (s : HybridSeq size) : Nat → Nat → Except Error Unit
  | 0, _ => .ok ()
  | remaining + 1, id => do
    let pointer ← s.pointer id
    let next ← s.pointer (id + 1)
    if next < pointer + BlockKind.tagBits then
      corrupt (.blockOrder id pointer)
    checkBlocks s remaining (id + 1)

def check (s : HybridSeq size) : Except Error Unit := do
  let blocks := s.numBlocks
  if s.table.len ≠ 2 * blocks + 2 then
    corrupt (.blockTable s.table.len s.len)
  let bits ← s.payloadBits
  if s.payload.size ≠ BitWriter.wordsFor bits then
    corrupt (.payloadWords s.payload.size bits (BitWriter.wordsFor bits))
  s.checkBlocks blocks 0

def load : Load (HybridSeq size) := do
  let len := (← Source.readWord).toNat
  let words := (← Source.readWord).toNat
  let payload ← Source.readWords words
  let table ← PackedArray.load
  let s : HybridSeq size := { len, table, payload }
  s.check
  return s

instance : BlockSequence (HybridSeq size) where
  blockSize := size
  len := HybridSeq.len
  get := HybridSeq.get
  sample := HybridSeq.sample
  offsets := HybridSeq.offsets
  fill := HybridSeq.fill
  memoryBytes := HybridSeq.memoryBytes
  serialize := HybridSeq.serialize
  load := HybridSeq.load
  loaded s := .hybridLoaded s.len s.payload.size

end SampledSeq.HybridSeq
