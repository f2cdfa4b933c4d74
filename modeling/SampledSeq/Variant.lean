import SampledSeq.DeltaSeq.Stored
import SampledSeq.HybridSeq.Stored

/-!
# The variants of a sequence

Values are kept in one of three containers: a delta-coded sequence with either codec, or a hybrid
sequence. All of them are block-sampled sequences, so what holds of every container is stated once,
for a `Variant`.
-/

namespace SampledSeq

/-- A kind of container. -/
inductive Variant where
  | delta (codec : Codec)
  | hybrid
deriving DecidableEq, Repr

namespace Variant

/-- The containers of a variant with blocks of `size` values. -/
def Seq (variant : Variant) (size : Nat) : Type :=
  match variant with
  | delta codec => DeltaSeq codec size
  | hybrid => HybridSeq size

instance (variant : Variant) (size : Nat) : BlockSequence (variant.Seq size) :=
  match variant with
  | delta codec => inferInstanceAs (BlockSequence (DeltaSeq codec size))
  | hybrid => inferInstanceAs (BlockSequence (HybridSeq size))

def ofList (variant : Variant) (size : Nat) (values : List UInt64) : Traced (variant.Seq size) :=
  match variant with
  | delta codec => (DeltaSeq.ofList values : Traced (DeltaSeq codec size))
  | hybrid => (HybridSeq.ofList values : Traced (HybridSeq size))

/-- The block size is a multiple of this. -/
def granule : Variant → Nat
  | delta codec => codec.granule
  | hybrid => 1

/-- A variant takes the block sizes that are made of whole granules. -/
structure Admits (variant : Variant) (size : Nat) : Prop where
  pos : 0 < size
  lt : size < UInt64.size
  dvd : variant.granule ∣ size

end Variant

end SampledSeq
