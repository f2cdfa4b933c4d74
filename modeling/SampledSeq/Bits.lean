import SampledSeq.Blocks
import SampledSeq.Error

/-!
# Bit streams

A bit stream is a buffer of 64-bit words, written least significant bit first and read at any bit.

| here | there |
| --- | --- |
| `Word.bitLength`, `Word.lowMask` | `bits_for` and `width_of`, `low_mask` |
| `Word.select` | `select_in_word` |
| `BitSlice.firstOnes`, `BitSlice.eachOne` | the scans in `decode` of bitmaps and Elias-Fano lists |
| `BitWriter.reserve` | `reserve_bits` |
-/

/-!
## Words of 64 bits

Bit `i` of a word has the weight `2 ^ i`. What the bit streams need to know about one word is its
length in bits, its low fields and the positions of its ones. The ones are found from the lowest one
upwards, by clearing those that have been found already.
-/

namespace SampledSeq.Word

/-- The number of bits that `n` needs; none for 0. -/
def bitLength (n : Nat) : Nat := if n = 0 then 0 else Nat.log2 n + 1

/-- The least width that holds every number of a list; 0 for the empty list. -/
def commonWidth (ns : List Nat) : Nat := ns.foldl (fun width n => max width (bitLength n)) 0

/-- The word whose lowest `width` bits are ones. -/
def lowMask (width : Nat) : UInt64 := UInt64.ofNat (1 <<< width - 1)

def ones (word : UInt64) : List Nat := (List.range 64).filter fun i => word.toNat.testBit i

theorem mem_ones {word : UInt64} {i : Nat} :
    i ∈ ones word ↔ i < 64 ∧ word.toNat.testBit i = true := by
  simp [ones]

/-- The position of the lowest one of a word; 64 if there is none. -/
def lowest (word : UInt64) : Nat := ((List.range 64).find? fun i => word.toNat.testBit i).getD 64

def clearLowest (word : UInt64) : UInt64 := word &&& (word - 1)

/-- The position of the `k`-th one of a word, counted from 0. The word has more than `k` ones, so it
is not 0 when its lowest one is to be cleared. -/
def select (word : UInt64) : Nat → Except Error Nat
  | 0 => .ok (lowest word)
  | k + 1 => if word = 0 then .error .positionRange else select (clearLowest word) k

/-- The positions of the first `count` ones of a word, or of all of them if there are fewer. -/
def lowestOnes (word : UInt64) : Nat → List Nat
  | 0 => []
  | count + 1 => if word = 0 then [] else lowest word :: lowestOnes (clearLowest word) count

end SampledSeq.Word

/-!
## Reading a bit stream

A `BitSlice` reads fields at any bit of a buffer of words. A read that would leave the buffer
reports a corruption, so no word outside the buffer is ever touched, and a field of up to 64 bits is
put together from two words by shifts of less than 64 bits (`getBits_ok`).

A range of bits is searched for ones in chunks of up to 64 bits: `select1` finds a single one,
`firstOnes` lists the first few, and `eachOne` takes a step for each of them as it comes to it.
-/

namespace SampledSeq

/-- A buffer of words, addressed in bits. -/
structure BitSlice where
  words : Array UInt64
deriving Repr

namespace BitSlice

def len (s : BitSlice) : Nat := s.words.size * 64

def isEmpty (s : BitSlice) : Bool := s.words.isEmpty

/-- The field of `width` bits at bit `pos`. A field without bits is 0 wherever it lies. -/
def getBits (s : BitSlice) (pos width : Nat) : Except Error UInt64 :=
  if width = 0 then .ok 0
  else if pos + width ≤ s.len then do
    let shift := pos % 64
    let low := (← Position.get s.words (pos / 64)) >>> UInt64.ofNat (← Position.below 64 shift)
    if shift + width > 64 then
      let next ← Position.get s.words (pos / 64 + 1)
      let high := next <<< UInt64.ofNat (← Position.below 64 (64 - shift))
      return (low ||| high) &&& Word.lowMask width
    else
      return low &&& Word.lowMask width
  else corrupt (.bitsPastEnd width pos s.len)

/-- The position of the `k`-th one, counted from 0, of the bits from `pos` to `stop`. The bits from
`start` to `pos` have been searched already. -/
def selectFrom (s : BitSlice) (start stop pos k : Nat) : Except Error Nat :=
  if _h : pos < stop then do
    let word ← s.getBits pos (min (stop - pos) 64)
    if k < (Word.ones word).length then
      return pos + (← Word.select word k)
    else
      selectFrom s start stop (pos + min (stop - pos) 64) (← Position.sub k (Word.ones word).length)
  else corrupt (.missingOnes start stop)
termination_by stop - pos

/-- The position of the `k`-th one, counted from 0, of the bits from `start` to `stop`. -/
def select1 (s : BitSlice) (start stop k : Nat) : Except Error Nat :=
  s.selectFrom start stop start k

/-- The positions of the first `count` ones of the bits from `pos` to `stop`, or of all of them if
there are fewer. Nothing is read behind the chunk that holds the last of them. -/
def firstOnes (s : BitSlice) (stop pos count : Nat) : Except Error (List Nat) :=
  if _h : 0 < count ∧ pos < stop then do
    let word ← s.getBits pos (min (stop - pos) 64)
    let found := (Word.lowestOnes word count).map (pos + ·)
    let more ← firstOnes s stop (pos + min (stop - pos) 64) (count - found.length)
    pure (found ++ more)
  else .ok []
termination_by stop - pos

/-- Take a step for each of the first `count` ones of the bits from `pos` to `stop`: the number of a
one, counted from `i`, and its position. If there are fewer, the stream is inconsistent; `short`
says how, given the number of the first one that is missing. -/
def eachOne (s : BitSlice) (step : Nat → Nat → Fill Unit) (short : Nat → Corruption)
    (stop pos i count : Nat) : Fill Unit :=
  if _h : 0 < count ∧ pos < stop then do
    let word ← s.getBits pos (min (stop - pos) 64)
    let found := (Word.lowestOnes word count).map (pos + ·)
    Fill.each step i found
    eachOne s step short stop (pos + min (stop - pos) 64) (i + found.length) (count - found.length)
  else if 0 < count then
    (corrupt (short i) : Except Error Unit)
  else return ()
termination_by stop - pos

end BitSlice

end SampledSeq

/-!
## Writing a bit stream

A `BitWriter` appends fields of any width up to 64, least significant bit first, to a buffer of
words. A field may straddle a word boundary, so a field of `width` bits costs exactly `width` bits.
Bits of the last word behind the end are zero; each operation relies on that and keeps it.
-/

namespace SampledSeq

/-- A bit stream that is being written. -/
structure BitWriter where
  words : Array UInt64 := #[]
  len : Nat := 0
deriving Repr

namespace BitWriter

def isEmpty (w : BitWriter) : Bool := w.len == 0

def wordsFor (bits : Nat) : Nat := (bits + 63) / 64

/-- The words of `w`, with zero words added for `extra` more bits. -/
def reserve (w : BitWriter) (extra : Nat) : Array UInt64 :=
  w.words ++ Array.replicate (wordsFor (w.len + extra) - w.words.size) 0

/-- Append the lowest `width` bits of `value`. -/
def writeBits (w : BitWriter) (value : UInt64) (width : Nat) : BitWriter :=
  if width = 0 then w
  else
    let field := value &&& Word.lowMask width
    let slot := w.len / 64
    let shift := w.len % 64
    let words := (w.reserve width).modify slot (· ||| field <<< UInt64.ofNat shift)
    let words :=
      if shift + width > 64 then words.modify (slot + 1) (· ||| field >>> UInt64.ofNat (64 - shift))
      else words
    { words, len := w.len + width }

def writeZeros (w : BitWriter) (count : Nat) : BitWriter :=
  { words := w.reserve count, len := w.len + count }

def setBit (w : BitWriter) (pos : Nat) : BitWriter :=
  { w with words := w.words.modify (pos / 64) (· ||| (1 : UInt64) <<< UInt64.ofNat (pos % 64)) }

def writeAll (w : BitWriter) (values : List UInt64) (width : Nat) : BitWriter :=
  values.foldl (fun w value => w.writeBits value width) w

def setAll (w : BitWriter) (positions : List Nat) : BitWriter := positions.foldl setBit w

/-! ### Lengths -/

@[simp] theorem len_writeBits (w : BitWriter) (value : UInt64) (width : Nat) :
    (w.writeBits value width).len = w.len + width := by
  by_cases h : width = 0 <;> simp [writeBits, h]

@[simp] theorem len_writeZeros (w : BitWriter) (count : Nat) :
    (w.writeZeros count).len = w.len + count := rfl

@[simp] theorem len_setBit (w : BitWriter) (pos : Nat) : (w.setBit pos).len = w.len := rfl

@[simp] theorem len_writeAll (w : BitWriter) (values : List UInt64) (width : Nat) :
    (w.writeAll values width).len = w.len + values.length * width := by
  induction values generalizing w with
  | nil => simp [writeAll]
  | cons v vs ih =>
    have h := ih (w.writeBits v width)
    simp only [writeAll, List.foldl_cons, List.length_cons, len_writeBits] at h ⊢
    rw [h, Nat.add_mul]
    omega

@[simp] theorem len_setAll (w : BitWriter) (positions : List Nat) :
    (w.setAll positions).len = w.len := by
  induction positions generalizing w with
  | nil => rfl
  | cons p ps ih => simpa [setAll] using ih (w.setBit p)

/-! ### The number of words -/

/-- There are exactly as many words as the bits take. -/
def Exact (w : BitWriter) : Prop := w.words.size = wordsFor w.len

theorem exact_empty : Exact {} := rfl

theorem size_reserve {w : BitWriter} (h : w.Exact) (extra : Nat) :
    (w.reserve extra).size = wordsFor (w.len + extra) := by
  have : wordsFor w.len ≤ wordsFor (w.len + extra) := Nat.div_le_div_right (by omega)
  simp only [reserve, Array.size_append, Array.size_replicate]
  rw [h]
  omega

theorem Exact.writeBits {w : BitWriter} (h : w.Exact) (value : UInt64) (width : Nat) :
    (w.writeBits value width).Exact := by
  by_cases hw : width = 0
  · simpa [BitWriter.writeBits, hw] using h
  · have hs := size_reserve h width
    unfold Exact
    rw [len_writeBits, ← hs]
    simp only [BitWriter.writeBits, hw, if_false]
    split <;> simp

theorem Exact.writeZeros {w : BitWriter} (h : w.Exact) (count : Nat) : (w.writeZeros count).Exact :=
  size_reserve h count

theorem Exact.setBit {w : BitWriter} (h : w.Exact) (pos : Nat) : (w.setBit pos).Exact := by
  simpa [Exact, BitWriter.setBit] using h

end BitWriter

end SampledSeq
