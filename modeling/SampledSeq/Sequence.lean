import SampledSeq.BlockList
import SampledSeq.Blocks
import SampledSeq.Codec
import SampledSeq.Stream

/-!
# What every container shares

Containers differ in how a block is stored. What they offer is a `BlockSequence`, and what they
report is a list of `Event`s.

| here | there |
| --- | --- |
| `BlockSequence` | `IntSequence` |
| `offsets`, `fill` | `decode_block` behind its checks, as a list and in its slots |
| `toBytes`, `ofBytes` | `to_bytes`, `from_bytes` |
| `memoryBytes` | `heap_bytes` of a copy, which has no spare room |
-/

/-!
## Events

Building and loading report what they do as a list of events. Events are part of the answer:
`Traced` pairs the result with the events before it, which stay when the result is an error.
-/

namespace SampledSeq

/-- How many blocks have each encoding. -/
structure KindCounts where
  raw : Nat := 0
  bitmap : Nat := 0
  eliasFano : Nat := 0
  full : Nat := 0
deriving DecidableEq, Repr

def KindCounts.add (counts : KindCounts) : BlockKind → KindCounts
  | .raw => { counts with raw := counts.raw + 1 }
  | .bitmap => { counts with bitmap := counts.bitmap + 1 }
  | .eliasFano => { counts with eliasFano := counts.eliasFano + 1 }
  | .full => { counts with full := counts.full + 1 }

/-- Something that building or loading reports. -/
inductive Event where
  | patchedBlock (width : Nat)
  | hybridBlock (kind : BlockKind) (count bound : Nat)
  | deltaBuilt (codec : Codec) (blockSize len blocks runs payloadBytes sampleWidth : Nat)
  | hybridBuilt (blockSize len blocks : Nat) (kinds : KindCounts) (payloadBits : Nat)
  | deltaLoaded (codec : Codec) (len payloadBytes : Nat)
  | hybridLoaded (len payloadWords : Nat)
deriving DecidableEq, Repr

inductive Level where
  | trace
  | debug
deriving DecidableEq, Repr

def Level.name : Level → String
  | trace => "TRACE"
  | debug => "DEBUG"

inductive FieldValue where
  | number (n : Nat)
  | text (s : String)
deriving DecidableEq, Repr

namespace Event

/-- Single blocks are traced; whole sequences are worth a debug message. -/
def level : Event → Level
  | patchedBlock .. | hybridBlock .. => .trace
  | deltaBuilt .. | hybridBuilt .. | deltaLoaded .. | hybridLoaded .. => .debug

def message : Event → String
  | patchedBlock .. => "pfor block width"
  | hybridBlock .. => "hybrid block"
  | deltaBuilt .. => "built delta vector"
  | hybridBuilt .. => "built hybrid vector"
  | deltaLoaded .. => "loaded delta vector"
  | hybridLoaded .. => "loaded hybrid vector"

def fields : Event → List (String × FieldValue)
  | patchedBlock width => [("width", .number width)]
  | hybridBlock kind count bound =>
    [("kind", .text kind.name), ("count", .number count), ("universe", .number bound)]
  | deltaBuilt codec blockSize len blocks runs payloadBytes sampleWidth =>
    [("codec", .text codec.name), ("block_size", .number blockSize), ("len", .number len),
      ("blocks", .number blocks), ("full_blocks", .number runs),
      ("payload_bytes", .number payloadBytes), ("sample_width", .number sampleWidth)]
  | hybridBuilt blockSize len blocks kinds payloadBits =>
    [("block_size", .number blockSize), ("len", .number len), ("blocks", .number blocks),
      ("raw", .number kinds.raw), ("bitmap", .number kinds.bitmap),
      ("elias_fano", .number kinds.eliasFano), ("full", .number kinds.full),
      ("payload_bits", .number payloadBits)]
  | deltaLoaded codec len payloadBytes =>
    [("codec", .text codec.name), ("len", .number len), ("payload_bytes", .number payloadBytes)]
  | hybridLoaded len payloadWords =>
    [("len", .number len), ("payload_words", .number payloadWords)]

/-- What encoding a block of differences reports: its width, where the codec chooses one. -/
def ofBlock (codec : Codec) (deltas : List UInt32) : List Event :=
  match codec with
  | .fixedWidth => []
  | .patched => [patchedBlock (Patched.chooseWidth deltas)]

end Event

/-- A result and the events before it. -/
structure Traced (α : Type) where
  result : Except Error α
  events : List Event

end SampledSeq

/-!
## Block-sampled sequences

A block-sampled sequence is immutable and cut into blocks of one size. It keeps a *sample* per
block, and can decode a whole block as offsets from that sample, modulo `2 ^ 64`. `BlockSequence` is
what every container offers; the operations below are built on it and are the same for all of them.
-/

namespace SampledSeq

/-- A container of 64-bit values that decodes block by block. -/
class BlockSequence (S : Type) where
  blockSize : Nat
  len : S → Nat
  get : S → Nat → Except Error UInt64
  sample : S → Nat → Except Error UInt64
  /-- The offsets from the sample of all slots of a block that exists. A short block is filled
  up. -/
  offsets : S → Nat → Except Error (List UInt64)
  /-- Write these offsets into the first slots of a buffer. -/
  fill : S → Nat → Fill Unit
  memoryBytes : S → Nat
  serialize : S → Store Nat
  load : Load S
  loaded : S → Event

namespace BlockSequence

variable {S : Type} [BlockSequence S]

def isEmpty (s : S) : Bool := len s == 0

def numBlocks (s : S) : Nat := Blocks.count (len s) (blockSize S)

/-- Decode block `id` into the first slots of a buffer, and answer the number of values in it. A
buffer that is too short, or a block that does not exist, leaves the buffer as it is; a block that
does not decode may have written some of the slots before it failed. -/
def decodeBlock (s : S) (id : Nat) (buffer : Array UInt64) : Except Error Nat × Array UInt64 :=
  if id ≥ numBlocks s then (.error (.indexOutOfRange id (numBlocks s)), buffer)
  else if buffer.size < blockSize S then
    (.error (.bufferTooSmall (blockSize S) buffer.size), buffer)
  else
    let (result, buffer) := (fill s id).run.run buffer
    (result.map fun _ => Blocks.length (len s) (blockSize S) id, buffer)

/-- The stored form of a container: what a sink without end takes. -/
def toBytes (s : S) : List UInt8 := (serialize s |>.run.run {}).2.taken.toList

/-- The container whose stored form is `bytes`. Bytes behind it are refused. -/
def ofBytes (bytes : List UInt8) : Traced S :=
  match (load (S := S)).run { rest := bytes } with
  | .error e => ⟨.error e, []⟩
  | .ok (s, source) =>
    let result :=
      if source.rest.isEmpty then .ok s else corrupt (.trailingBytes source.rest.length)
    ⟨result, [loaded s]⟩

end BlockSequence

end SampledSeq
