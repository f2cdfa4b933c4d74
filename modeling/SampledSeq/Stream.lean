import SampledSeq.Bits
import SampledSeq.Error
import SampledSeq.Numeral

/-!
# Streams of bytes

Containers are stored field by field on a `Sink` and loaded field by field from a `Source`. The
field that they have in common is the table of pointers and samples, a `PackedArray`.

| here | there |
| --- | --- |
| `Source`, `Sink` | a reader and a writer that is given to `load` and `serialize` |
| `Source.readWord`, `Source.readWords` | `read_u64`, `read_words` |
| `Source.readPayload` | the payload in `load`: at most so many bytes, read to the end |
| `Sink.writeWord` | `write_u64` |
| `PackedArray`, `PackedArray.ofList` | `IntVector`, `bit_compress` |
-/

/-!
## Reading bytes

A `Source` is what a reader still has to give, together with what happens behind its last byte
(`Ending`): the stream is over, or the device fails in some way. A `Load` consumes a source; its
first failure is final.

A request for `n` bytes is answered whole or not at all. A request for no bytes touches nothing, so
a container is loaded from exactly its own bytes, whatever lies behind them.

A read that is interrupted is tried again. Interruptions between the bytes of a source therefore
leave no trace, and those behind its last byte put off what happens there, any finite number of
times.
-/

namespace SampledSeq

/-- What reading behind the last byte of a source comes to. -/
inductive Ending where
  | ends
  | fails (failure : DeviceError)
  /-- The read is interrupted. -/
  | interrupted (next : Ending)
deriving DecidableEq, Repr

/-- The failure of the device, if it does not just end. -/
def Ending.failure : Ending → Option DeviceError
  | ends => none
  | fails failure => some failure
  | interrupted next => next.failure

structure Source where
  rest : List UInt8
  ending : Ending := .ends
deriving DecidableEq, Repr

/-- A computation that reads from a source and may fail. -/
abbrev Load := StateT Source (Except Error)

namespace Source

/-- The first `n` of the bytes, on a device that then ends as it is said to. A stream with fewer
bytes is over before it comes to that. -/
def failingAt (bytes : List UInt8) (n : Nat) (ending : Ending := .fails .broken) : Source :=
  { rest := bytes.take n, ending := if n ≤ bytes.length then ending else .ends }

def readBytes (n : Nat) : Load (List UInt8) := fun source =>
  match Cut.exact n source.rest with
  | some (taken, rest) => .ok (taken, { source with rest })
  | none => .error (.ofRead (source.ending.failure.getD .endOfFile))

/-- Read a number of `n` bytes, least significant first. -/
def readNumber (n : Nat) : Load Nat := do return Numeral.ofBytes (← readBytes n)

/-- Read a word: eight bytes, least significant first. -/
def readWord : Load UInt64 := do return UInt64.ofNat (← readNumber 8)

/-- Read `n` words behind the ones that have been read. Stops at the first word that is not there,
so an announced number of words costs nothing. -/
def readWordsOnto (words : Array UInt64) : Nat → Load (Array UInt64)
  | 0 => return words
  | n + 1 => do readWordsOnto (words.push (← readWord)) n

def readWords (n : Nat) : Load (Array UInt64) := readWordsOnto #[] n

/-- Read a payload of `n` bytes: all that there is, up to that many. A payload that the stream cuts
short is reported with the number of bytes that there were. -/
def readPayload (n : Nat) : Load (Array UInt8) := fun source =>
  match Cut.exact n source.rest with
  | some (taken, rest) => .ok (taken.toArray, { source with rest })
  | none =>
    match source.ending.failure with
    | some failure => .error (.ofRead failure)
    | none => corrupt (.payloadTruncated n source.rest.length)

end Source

end SampledSeq

/-!
## Writing bytes

A `Sink` has taken some bytes and has room for some more, or for any number. A write that does not
fit still fills the room before it fails. A `Store` writes to a sink; what the sink has taken
survives a failure.
-/

namespace SampledSeq

structure Sink where
  /-- The number of bytes that still fit; `none` if there is no end. -/
  room : Option Nat := none
  taken : Array UInt8 := #[]
deriving Repr

/-- A computation that writes to a sink and may fail. -/
abbrev Store := ExceptT Error (StateM Sink)

namespace Sink

/-- Write all of `bytes`, and answer their number. -/
def write (bytes : List UInt8) : Store Nat := fun sink =>
  match sink.room with
  | none => (.ok bytes.length, { sink with taken := sink.taken ++ bytes })
  | some room =>
    if bytes.length ≤ room then
      (.ok bytes.length, { room := some (room - bytes.length), taken := sink.taken ++ bytes })
    else
      (.error (.device .sinkFull), { room := some 0, taken := sink.taken ++ bytes.take room })

/-- Write a word: eight bytes, least significant first. -/
def writeWord (word : UInt64) : Store Nat := write (Numeral.toBytes 8 word.toNat)

def writeLength (n : Nat) : Store Nat := writeWord (UInt64.ofNat n)

/-- Write words one after the other, and answer the number of bytes. -/
def writeWords : List UInt64 → Store Nat
  | [] => return 0
  | word :: words => do
    let head ← writeWord word
    let tail ← writeWords words
    return head + tail

end Sink

end SampledSeq

/-!
## Packed arrays

A packed array stores every value in a field of the same width, the least one that
holds the largest value. The sample tables of all containers are packed arrays.

Stored form: the width (1 byte), the length (8 bytes), then the words of the fields (8 bytes each).
-/

namespace SampledSeq

/-- An array of integers that share one width. -/
structure PackedArray where
  words : Array UInt64 := #[]
  width : Nat := 0
  len : Nat := 0
deriving DecidableEq, Repr

namespace PackedArray

def ofList (values : List UInt64) : PackedArray :=
  let width := Word.commonWidth (values.map UInt64.toNat)
  { words := (BitWriter.writeAll {} values width).words, width, len := values.length }

def isEmpty (t : PackedArray) : Bool := t.len == 0

def memoryBytes (t : PackedArray) : Nat := t.words.size * 8

def get (t : PackedArray) (i : Nat) : Except Error UInt64 :=
  if i < t.len then do
    BitSlice.getBits ⟨t.words⟩ (← Position.checked (i * t.width)) t.width
  else .error (.indexOutOfRange i t.len)

def serialize (t : PackedArray) : Store Nat := do
  let header ← Sink.write [UInt8.ofNat t.width]
  let length ← Sink.writeLength t.len
  let body ← Sink.writeWords t.words.toList
  return header + length + body

/-- Read an array. The announced number of bits has to be a position, so that every field of an
accepted array can be addressed. -/
def load : Load PackedArray := do
  let width ← Source.readNumber 1
  if width > 64 then
    corrupt (.tableWidth width)
  let len := (← Source.readWord).toNat
  if len * width ≥ Position.limit then
    corrupt .tableLength
  let words ← Source.readWords (BitWriter.wordsFor (len * width))
  return { words, width, len }

def describe (t : PackedArray) : String :=
  "IntVector \x7b len: " ++ toString t.len ++ ", width: " ++ toString t.width ++ " \x7d"

end PackedArray

end SampledSeq
