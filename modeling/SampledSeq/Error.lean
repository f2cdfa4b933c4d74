/-!
# What can go wrong

Every failure of the library is a value of `Error`. A stream that does not hold what it claims is a
`Corruption`, with one constructor per cause; `Corruption.detail` and `Error.message` are the only
places where causes become text.

| here | there |
| --- | --- |
| `corrupt`, `Error.ofRead` | `corrupt`, `from_read` |
| `Corruption` | the texts that `corrupt` is given |
| `DeviceError` | an I/O error, of which the kind and the text count |
| `Position` | the arithmetic, the shifts and the indices that nothing guards |

Positions and lengths are 64-bit quantities, and are computed as natural numbers. Where a result
could leave the 64-bit range, it is reported as `Error.positionRange` instead of being wrapped.
Loading checks what it reads, so that later accesses can stay in the range.
-/

namespace SampledSeq

/-- Why a stored stream is inconsistent. -/
inductive Corruption where
  | endOfInput
  | bitsPastEnd (width pos bits : Nat)
  | missingOnes (start stop : Nat)
  | tableWidth (width : Nat)
  | tableLength
  | groupsTruncated
  | groupsTooLong
  | frameHeader
  | frameWidth (width : Nat)
  | frameTruncated
  | patchedHeader
  | patchedWidth (width : Nat)
  | patchedTruncated
  | patchedCount (claimed values : Nat)
  | patchedPosition
  | patchedValue
  | gapWidth (width : Nat)
  | bitmapTooLong
  | bitmapShort (found expected : Nat)
  | upperTooLong
  | upperShort (found expected : Nat)
  | blockTag (tag : Nat)
  | payloadTruncated (expected got : Nat)
  | trailingBytes (count : Nat)
  | sampleTable (entries expected elements : Nat)
  | sentinel
  | sampleDomain (block : Nat) (sample : UInt64)
  | pointerOrder (block : Nat) (pointer : UInt64)
  | pointerPastPayload (pointer : UInt64)
  | invertedUniverse (block : Nat)
  | valueOverflow
  | blockTable (entries elements : Nat)
  | payloadWords (held bits needed : Nat)
  | blockOrder (block pointer : Nat)
deriving DecidableEq, Repr

/-- What kind of failure a device reports. -/
inductive DeviceError.Kind where
  | unexpectedEof
  | writeZero
  | other
deriving DecidableEq, Repr

/-- A failure of the device behind a stream: the kind decides what the library makes of it. -/
structure DeviceError where
  kind : DeviceError.Kind
  text : String
deriving DecidableEq, Repr

namespace DeviceError

/-- A read of an exact number of bytes came to the end of the stream first. -/
def endOfFile : DeviceError := ⟨.unexpectedEof, "failed to fill whole buffer"⟩

def sinkFull : DeviceError := ⟨.writeZero, "failed to write whole buffer"⟩

def broken : DeviceError := ⟨.other, "device failure"⟩

end DeviceError

/-- Failures of building, reading and storing a sequence. -/
inductive Error where
  | indexOutOfRange (index len : Nat)
  | valueDomain (index : Nat) (value max : UInt64)
  | corruption (cause : Corruption)
  | bufferTooSmall (needed got : Nat)
  | device (failure : DeviceError)
  | positionRange
deriving DecidableEq, Repr

def Corruption.detail : Corruption → String
  | endOfInput => "unexpected end of input"
  | bitsPastEnd width pos bits =>
    s!"bit read of {width} bits at {pos} past end of {bits} bit payload"
  | missingOnes start stop => s!"fewer set bits than expected in [{start}, {stop})"
  | tableWidth width => s!"int vector width {width} exceeds 64"
  | tableLength => "int vector bit length overflows"
  | groupsTruncated => "truncated LEB128 value"
  | groupsTooLong => "LEB128 value exceeds 64 bits"
  | frameHeader => "truncated binary-packed frame header"
  | frameWidth width => s!"binary-packed frame width {width} exceeds 32"
  | frameTruncated => "truncated binary-packed frame"
  | patchedHeader => "truncated pfor block header"
  | patchedWidth width => s!"pfor width {width} exceeds 32"
  | patchedTruncated => "truncated pfor frame"
  | patchedCount claimed values => s!"pfor block claims {claimed} exceptions for {values} values"
  | patchedPosition => "pfor exception position out of block"
  | patchedValue => "pfor exception exceeds 32 bits"
  | gapWidth width => s!"gap list width {width} exceeds 64"
  | bitmapTooLong => "bitmap universe too large"
  | bitmapShort found expected => s!"bitmap block holds {found} of {expected} set bits"
  | upperTooLong => "elias-fano upper part too long"
  | upperShort found expected => s!"elias-fano block holds {found} of {expected} upper bits"
  | blockTag tag => s!"invalid block tag {tag}"
  | payloadTruncated expected got => s!"payload truncated: expected {expected} bytes, got {got}"
  | trailingBytes count => s!"{count} trailing bytes after sequence"
  | sampleTable entries expected elements =>
    s!"sample table has {entries} entries, expected {expected} for {elements} elements"
  | sentinel => "sentinel pointer does not match payload length"
  | sampleDomain block sample => s!"block {block} sample {sample} exceeds the 32-bit domain"
  | pointerOrder block pointer => s!"block {block} pointer {pointer} out of order or past payload"
  | pointerPastPayload pointer => s!"block pointer {pointer} past payload"
  | invertedUniverse block => s!"block {block} has inverted universe"
  | valueOverflow => "block value overflows u64"
  | blockTable entries elements => s!"block table has {entries} entries for {elements} elements"
  | payloadWords held bits needed =>
    s!"payload holds {held} words, recorded bit length {bits} needs {needed}"
  | blockOrder block pointer => s!"block {block} pointer {pointer} out of order"

def Error.message : Error → String
  | indexOutOfRange index len => s!"index {index} out of range for length {len}"
  | valueDomain index value max =>
    s!"value {value} at position {index} exceeds the maximum of {max}"
  | corruption cause => "stream corruption: " ++ cause.detail
  | bufferTooSmall needed got => s!"buffer too small: need {needed} slots, got {got}"
  | device failure => "io error: " ++ failure.text
  | positionRange => "position outside the 64-bit range"

/-- The answer of an operation that reports an inconsistent stream. -/
def corrupt {α : Type} (cause : Corruption) : Except Error α := .error (.corruption cause)

/-- What a failure to read is reported as: input that ends too early is an inconsistent stream, also
where the device itself says so. -/
def Error.ofRead (failure : DeviceError) : Error :=
  if failure.kind = .unexpectedEof then .corruption .endOfInput else .device failure

end SampledSeq

/-!
## Positions in a 64-bit address space

A position, a length or a table index is a natural number below `2 ^ 64`. Where a formula combines
numbers that come from a stream, its result goes through one of the functions below, which answer
`Error.positionRange` for a result that no 64-bit position can be. The amount of a shift and the
index of a slot are checked the same way, against the bits of the word and the number of slots. That
such a check does not fail is never assumed, but proved.
-/

namespace SampledSeq.Position

/-- The number of positions. -/
def limit : Nat := UInt64.size

/-- `n`, if it is a position. All parts of a sum or a product are positions if the whole is. -/
def checked (n : Nat) : Except Error Nat :=
  if n < limit then .ok n else .error .positionRange

/-- The sum of `a` and `b`, if it is a position. What it means that it is not is up to the
caller. -/
def addOr (tooLarge : Corruption) (a b : Nat) : Except Error Nat :=
  if a + b < limit then .ok (a + b) else corrupt tooLarge

/-- The distance from `b` up to `a`. -/
def sub (a b : Nat) : Except Error Nat :=
  if b ≤ a then .ok (a - b) else .error .positionRange

/-- `i`, if it is one of `bound` indices, or a shift that leaves a bit of a word of `bound` bits. -/
def below (bound i : Nat) : Except Error Nat :=
  if i < bound then .ok i else .error .positionRange

/-- The item of `xs` at position `i`. -/
def get {α : Type} (xs : Array α) (i : Nat) : Except Error α :=
  match xs[i]? with
  | some x => .ok x
  | none => .error .positionRange

theorem checked_eq_ok {n : Nat} (h : n < limit) : checked n = .ok n := by
  simp [checked, h]

theorem addOr_eq_ok {tooLarge : Corruption} {a b : Nat} (h : a + b < limit) :
    addOr tooLarge a b = .ok (a + b) := by
  simp [addOr, h]

theorem below_eq_ok {bound i : Nat} (h : i < bound) : below bound i = .ok i := by
  simp [below, h]

theorem sub_eq_ok {a b : Nat} (h : b ≤ a) : sub a b = .ok (a - b) := by
  simp [sub, h]

theorem get_eq_ok {α : Type} {xs : Array α} {i : Nat} (h : i < xs.size) : get xs i = .ok xs[i] := by
  simp [get, h]

end SampledSeq.Position
