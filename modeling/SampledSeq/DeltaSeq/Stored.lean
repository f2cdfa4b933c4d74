import SampledSeq.Blocks
import SampledSeq.Codec
import SampledSeq.Sequence
import SampledSeq.Stream

/-!
# Delta-coded sequences

A `DeltaSeq codec size` holds 32-bit values in blocks of `size`. Of every block the first value, the
sample, is kept as it is; the block becomes its forward differences, and those become bytes.

- `samples` lists for every block its sample and its pointer, and behind them 0 and the payload
  length.
- `payload` holds the encoded blocks one after the other; a pointer is the offset of a block.

A short last block is filled up by repeating its last value, so a codec always sees whole frames. A
codec that marks runs keeps blocks of consecutive values out of the payload: they have pointer 0,
and padding in front of the first encoded block keeps that offset free.

The first value of a block, and any value of a run, is answered from the sample table. Everything
else decodes one block.

| here | there |
| --- | --- |
| `DeltaSeq .fixedWidth`, `DeltaSeq .patched` | `BpVector`, `PforVector`; `DeltaVector` for both |
| `runPointer`, `isRunBlock` | `FULL_BLOCK`, `is_full_block` |
| `deltasAt` | `decode_deltas` |
| `offsets`, `fill` | `decode_block` |
| `Builder.store`, `Builder.flush` | `flush` |
| `ofList` | `new` and `try_from_iter` |
| `check` | `validate` |
-/

/-! ## Samples and payload -/

namespace SampledSeq

/-- A block-sampled, delta-coded sequence of 32-bit values. -/
structure DeltaSeq (codec : Codec) (size : Nat) where
  len : Nat
  samples : PackedArray
  payload : Array UInt8
deriving DecidableEq, Repr

namespace DeltaSeq

/-- The largest value. -/
def maxValue : UInt64 := 0xFFFFFFFF

/-- The pointer of a block that is a run. -/
def runPointer : UInt64 := 0

variable {codec : Codec} {size : Nat}

def numBlocks (s : DeltaSeq codec size) : Nat := Blocks.count s.len size

/-- The memory that payload and sample table take, in bytes. -/
def memoryBytes (s : DeltaSeq codec size) : Nat := s.payload.size + s.samples.memoryBytes

def marksRun (codec : Codec) (pointer : UInt64) : Bool := codec.marksRuns && pointer == runPointer

def describe (s : DeltaSeq codec size) : String :=
  "DeltaVector \x7b codec: \"" ++ codec.name ++ "\", block_size: " ++ toString size ++
    ", len: " ++ toString s.len ++ ", payload_bytes: " ++ toString s.payload.size ++ " \x7d"

end DeltaSeq

end SampledSeq

/-!
## Access to a delta-coded sequence

`get` answers a single value, `offsets` a whole block as a list, and `fill` decodes a block in
place. A single value is the sample plus the differences behind the first one of its block; a whole
block adds up all of them. For a block that was built here the first difference is 0 and both agree.
-/

namespace SampledSeq.DeltaSeq

variable {codec : Codec} {size : Nat}

/-- The sample of block `id`, as the table has it. -/
def sampleEntry (s : DeltaSeq codec size) (id : Nat) : Except Error UInt64 := do
  s.samples.get (← Position.checked (2 * id))

def pointer (s : DeltaSeq codec size) (id : Nat) : Except Error UInt64 := do
  s.samples.get (← Position.checked (2 * id + 1))

def sample (s : DeltaSeq codec size) (id : Nat) : Except Error UInt64 := do
  Blocks.check id s.numBlocks
  s.sampleEntry id

/-- Block `id` is stored as a run. -/
def isRunBlock (s : DeltaSeq codec size) (id : Nat) : Except Error Bool := do
  Blocks.check id s.numBlocks
  if codec.marksRuns then
    return (← s.pointer id) == runPointer
  else return false

/-- The differences of the block at a pointer. -/
def deltasAt (s : DeltaSeq codec size) (pointer : UInt64) : Except Error (List UInt32) := do
  if pointer.toNat ≤ s.payload.size then
    let data := (s.payload.extract pointer.toNat s.payload.size).toList
    let (deltas, _) ← codec.decode data (List.replicate size 0)
    return deltas
  else corrupt (.pointerPastPayload pointer)

def get (s : DeltaSeq codec size) (i : Nat) : Except Error UInt64 := do
  if i < s.len then
    let offset := i % size
    let sample ← s.sampleEntry (i / size)
    if offset = 0 then
      return sample
    let pointer ← s.pointer (i / size)
    if marksRun codec pointer then
      return UInt64.ofNat (← Position.checked (sample.toNat + offset))
    let deltas ← s.deltasAt pointer
    let last ← Position.below deltas.length offset
    return (Differences.valueAt sample.toUInt32 deltas last).toUInt64
  else .error (.indexOutOfRange i s.len)

/-- The offsets from the sample of all slots of block `id`. -/
def offsets (s : DeltaSeq codec size) (id : Nat) : Except Error (List UInt64) := do
  let sample ← s.sampleEntry id
  let pointer ← s.pointer id
  if marksRun codec pointer then
    return (List.range size).map UInt64.ofNat
  let deltas ← s.deltasAt pointer
  return Differences.offsets sample.toUInt32 deltas

/-- Write the offsets from the sample of all slots of block `id`. -/
def fill (s : DeltaSeq codec size) (id : Nat) : Fill Unit := do
  let sample ← s.sampleEntry id
  let pointer ← s.pointer id
  if marksRun codec pointer then
    Fill.putAll 0 ((List.range size).map UInt64.ofNat)
  else
    let deltas ← s.deltasAt pointer
    Fill.putAll 0 (Differences.offsets sample.toUInt32 deltas)

end SampledSeq.DeltaSeq

/-!
## Building a delta-coded sequence

The builder takes one value at a time and never looks back further than the block at hand. A block
is stored as soon as it is complete; the last one is stored at the end, however short.
-/

namespace SampledSeq.DeltaSeq

structure Builder (codec : Codec) (size : Nat) where
  pending : Array UInt32 := #[]
  len : Nat := 0
  /-- Sample and pointer of every stored block. -/
  entries : Array UInt64 := #[]
  payload : Array UInt8 := #[]
  /-- The number of runs among the stored blocks. -/
  runs : Nat := 0
  events : Array Event := #[]

namespace Builder

variable {codec : Codec} {size : Nat}

/-- `block` filled up to `size` values with its last one. -/
def padded (size : Nat) (block : List UInt32) : List UInt32 :=
  block ++ List.replicate (size - block.length) (block.getLastD 0)

/-- Store a block as a run or as encoded differences. -/
def store (b : Builder codec size) (block : List UInt32) : Builder codec size :=
  let sample := (block.headD 0).toUInt64
  if block.length == size && codec.marksRuns && Differences.isRun block then
    { b with entries := (b.entries.push sample).push runPointer, runs := b.runs + 1 }
  else
    let payload :=
      if b.payload.isEmpty then Array.replicate codec.leadingPadding 0 else b.payload
    let deltas := (Differences.inPlace (padded size block).toArray).toList
    { b with
      entries := (b.entries.push sample).push (UInt64.ofNat payload.size)
      payload := codec.encodeOnto payload deltas
      events := b.events ++ Event.ofBlock codec deltas }

def flush (b : Builder codec size) : Builder codec size :=
  { b.store b.pending.toList with pending := #[] }

def push (b : Builder codec size) (value : UInt32) : Builder codec size :=
  let b := { b with pending := b.pending.push value, len := b.len + 1 }
  if b.pending.size == size then b.flush else b

/-- Store what is left, and close the sample table. -/
def finish (b : Builder codec size) : Traced (DeltaSeq codec size) :=
  let b := if b.pending.isEmpty then b else b.flush
  let samples :=
    PackedArray.ofList ((b.entries.push 0).push (UInt64.ofNat b.payload.size)).toList
  let built := Event.deltaBuilt codec size b.len (Blocks.count b.len size) b.runs b.payload.size
    samples.width
  ⟨.ok { len := b.len, samples, payload := b.payload }, (b.events.push built).toList⟩

/-- Take all values. The first one that is too large ends the building. -/
def takeAll (b : Builder codec size) : List UInt64 → Traced (DeltaSeq codec size)
  | [] => b.finish
  | value :: values =>
    if value ≤ maxValue then takeAll (b.push value.toUInt32) values
    else ⟨.error (.valueDomain b.len value maxValue), b.events.toList⟩

end Builder

def ofList {codec : Codec} {size : Nat} (values : List UInt64) : Traced (DeltaSeq codec size) :=
  Builder.takeAll {} values

end SampledSeq.DeltaSeq

/-!
## The stored form of a delta-coded sequence

Stored form: the number of values (8 bytes), the payload length (8 bytes), the payload, the sample
table. Loading checks the table against both lengths, and every sample and pointer, so that samples
and values of runs are 32-bit and every pointer lies in the payload. The encoded blocks themselves
are checked when they are decoded.
-/

namespace SampledSeq.DeltaSeq

variable {codec : Codec} {size : Nat}

/-- Write the sequence, and answer the number of bytes. -/
def serialize (s : DeltaSeq codec size) : Store Nat := do
  let length ← Sink.writeLength s.len
  let payloadLength ← Sink.writeLength s.payload.size
  let payload ← Sink.write s.payload.toList
  let table ← s.samples.serialize
  return length + payloadLength + payload + table

/-- The largest value that the table alone vouches for: the sample, or the end of a run. -/
def tableMax (codec : Codec) (size : Nat) (sample pointer : UInt64) : Nat :=
  if marksRun codec pointer then sample.toNat + (size - 1) else sample.toNat

/-- Check `remaining` blocks from block `id` on. `previous` is the last pointer that is not of a
run: pointers of encoded blocks do not run backwards and lie in the payload, behind its padding. -/
def checkBlocks (s : DeltaSeq codec size) : Nat → Nat → UInt64 → Except Error Unit
  | 0, _, _ => .ok ()
  | remaining + 1, id, previous => do
    let sample ← s.sampleEntry id
    let pointer ← s.pointer id
    if tableMax codec size sample pointer > maxValue.toNat then
      corrupt (.sampleDomain id sample)
    if marksRun codec pointer then
      checkBlocks s remaining (id + 1) previous
    else
      if pointer < previous ∨ pointer.toNat < codec.leadingPadding ∨
          s.payload.size ≤ pointer.toNat then
        corrupt (.pointerOrder id pointer)
      checkBlocks s remaining (id + 1) pointer

def check (s : DeltaSeq codec size) : Except Error Unit := do
  let blocks := s.numBlocks
  let expected ← Position.checked (2 * blocks + 2)
  if s.samples.len ≠ expected then
    corrupt (.sampleTable s.samples.len expected s.len)
  if (← s.pointer blocks).toNat ≠ s.payload.size then
    corrupt .sentinel
  s.checkBlocks blocks 0 0

def load : Load (DeltaSeq codec size) := do
  let len := (← Source.readWord).toNat
  let payloadLength := (← Source.readWord).toNat
  let payload ← Source.readPayload payloadLength
  let samples ← PackedArray.load
  let s : DeltaSeq codec size := { len, samples, payload }
  s.check
  return s

instance : BlockSequence (DeltaSeq codec size) where
  blockSize := size
  len := DeltaSeq.len
  get := DeltaSeq.get
  sample := DeltaSeq.sample
  offsets := DeltaSeq.offsets
  fill := DeltaSeq.fill
  memoryBytes := DeltaSeq.memoryBytes
  serialize := DeltaSeq.serialize
  load := DeltaSeq.load
  loaded s := .deltaLoaded codec s.len s.payload.size

end SampledSeq.DeltaSeq
