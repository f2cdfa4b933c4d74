import SampledSeq.Error
import SampledSeq.Sequence

/-!
# Reading in order

A cached reader keeps the block that it decoded last, and a cursor walks over a sequence with such a
reader.

| here | there |
| --- | --- |
| `CachedReader.block` | `cached_block` |
| `Cursor`, `Cursor.start` | `Iter`, `iter` |
| `Cursor.remaining` | `size_hint` |
-/

/-!
## Cached readers

A reader owns a buffer with the block that it decoded last. Reading near the last position costs one
addition; reading elsewhere decodes another block.
-/

namespace SampledSeq

/-- A reader of a sequence with the block that it decoded last. -/
structure CachedReader (S : Type) where
  seq : S
  buffer : Array UInt64
  base : UInt64 := 0
  block : Option Nat := none

namespace CachedReader

variable {S : Type} [BlockSequence S]

/-- A reader that has decoded nothing. -/
def new (seq : S) : CachedReader S :=
  { seq, buffer := Array.replicate (BlockSequence.blockSize S) 0 }

/-- Bring a block into the buffer. A block that does not decode leaves no block cached. -/
def fetch (r : CachedReader S) (id : Nat) : Except Error Unit × CachedReader S :=
  if r.block = some id then (.ok (), r)
  else match BlockSequence.sample r.seq id with
    | .error e => (.error e, { r with block := none })
    | .ok base =>
      match BlockSequence.decodeBlock r.seq id r.buffer with
      | (.error e, buffer) => (.error e, { r with buffer, base, block := none })
      | (.ok _, buffer) => (.ok (), { r with buffer, base, block := some id })

def get (r : CachedReader S) (i : Nat) : Except Error UInt64 × CachedReader S :=
  let len := BlockSequence.len r.seq
  if i < len then
    match r.fetch (i / BlockSequence.blockSize S) with
    | (.error e, r) => (.error e, r)
    | (.ok (), r) =>
      ((Position.get r.buffer (i % BlockSequence.blockSize S)).map (r.base + ·), r)
  else (.error (.indexOutOfRange i len), r)

end CachedReader

end SampledSeq

/-!
## Cursors

A cursor walks over a sequence in order and decodes each block once. A block that does not decode
gives one error, and the walk is over.
-/

namespace SampledSeq

/-- A walk over a sequence. -/
structure Cursor (S : Type) where
  reader : CachedReader S
  pos : Nat := 0

namespace Cursor

variable {S : Type} [BlockSequence S]

def start (seq : S) : Cursor S := { reader := CachedReader.new seq }

def remaining (c : Cursor S) : Nat := BlockSequence.len c.reader.seq - c.pos

def next (c : Cursor S) : Option (Except Error UInt64) × Cursor S :=
  let len := BlockSequence.len c.reader.seq
  if c.pos < len then
    match c.reader.get c.pos with
    | (.ok value, reader) => (some (.ok value), { reader, pos := c.pos + 1 })
    | (.error e, reader) => (some (.error e), { reader, pos := len })
  else (none, c)

/-- Up to `n` steps: what they gave, whether the end was seen, and the cursor behind them. -/
def take : Nat → Cursor S → List (Except Error UInt64) × Bool × Cursor S
  | 0, c => ([], false, c)
  | n + 1, c =>
    match c.next with
    | (none, c) => ([], true, c)
    | (some item, c) =>
      let (items, ended, c) := take n c
      (item :: items, ended, c)

end Cursor

end SampledSeq
