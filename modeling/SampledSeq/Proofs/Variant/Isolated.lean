import SampledSeq.Proofs.DeltaSeq.Isolated
import SampledSeq.Proofs.HybridSeq.Isolated
import SampledSeq.Variant

/-!
# Blocks on their own

What is known of single blocks is known of every container: they depend on their own bits, and what
is reported of them is true.
-/

/-!
## Blocks are isolated

No reader of a block looks past the end of the block, at whatever bit it ends, and none looks at
what lies before it. So a change to the payload that leaves the bits of a block alone leaves its
values alone (`blocks_are_isolated`).
-/

namespace SampledSeq.Variant

open BlockSequence

variable {variant : Variant} {size : Nat}

/-- The bits that the payload takes in the stored form: bytes of a delta-coded sequence, words of a
hybrid one. -/
def payloadBits {variant : Variant} {size : Nat} (s : variant.Seq size) : Nat :=
  match variant, s with
  | delta _, s => 8 * (DeltaSeq.payload s).size
  | hybrid, s => 64 * (HybridSeq.payload s).size

/-- The payload bits of a block, from its pointer up to the next block that has any. -/
def segment {variant : Variant} {size : Nat} (s : variant.Seq size) (id : Nat) :
    Except Error (Nat × Nat) :=
  match variant, s with
  | delta _, s => DeltaSeq.segment s id
  | hybrid, s => HybridSeq.segment s id

/-- A block of a container that was built is read and decoded from the bits of its segment alone:
from any bytes that have those bits, and everything but the payload, as they were stored. -/
theorem blocks_are_isolated (hsize : variant.Admits size) {values : List UInt64}
    (hlen : values.length < 2 ^ 56) {s : variant.Seq size}
    (h : (variant.ofList size values).result = .ok s) {id : Nat} (hid : id < numBlocks s) :
    ∃ bits, segment s id = .ok bits ∧ Isolated s (payloadBits s) id bits := by
  cases variant with
  | delta codec =>
    obtain ⟨narrow, rfl, rfl⟩ := DeltaSeq.exists_built_of_ofList hsize.pos h
    rw [List.length_map] at hlen
    exact DeltaSeq.isolated_built hsize.dvd hsize.pos hsize.lt hlen hid
  | hybrid =>
    obtain rfl : HybridSeq.built values size = s :=
      Except.ok.inj ((HybridSeq.ofList_eq hsize.pos values).symm.trans h)
    exact HybridSeq.isolated_built hsize.pos hlen hid

/-- The stored form of the values 5, 3, 9 in blocks of two, with two other bits in the second
block. -/
def otherSecondBlock : List UInt8 :=
  [3, 0, 0, 0, 0, 0, 0, 0, 1, 0, 0, 0, 0, 0, 0, 0, 16, 116, 44, 0, 0, 0, 0, 0,
    5, 6, 0, 0, 0, 0, 0, 0, 0, 0, 196, 129, 19, 0, 0, 0, 0]

theorem first_block_is_isolated :
    ∃ s s' : hybrid.Seq 2, (hybrid.ofList 2 [5, 3, 9]).result = .ok s ∧
    (ofBytes (S := hybrid.Seq 2) otherSecondBlock).result = .ok s' ∧ get s' 1 = .ok 3 ∧
    get s' 2 = .ok 5 := by
  let s : HybridSeq 2 := ⟨3, ⟨#[327271424], 5, 6⟩, #[5010448]⟩
  let other : HybridSeq 2 := ⟨3, ⟨#[327271424], 5, 6⟩, #[2913296]⟩
  have hs : (HybridSeq.ofList [5, 3, 9] : Traced (HybridSeq 2)).result = .ok s := by decide +kernel
  have hother : (ofBytes (S := HybridSeq 2) otherSecondBlock).result = .ok other := by
    decide +kernel
  have hsegment : HybridSeq.segment s 0 = .ok (0, 17) := by decide +kernel
  have hbits : ∀ p < 328, Bytes.bit otherSecondBlock p = Bytes.bit (toBytes s) p ∨ p = 149 ∨
      p = 150 := by
    decide +kernel
  have hlen : otherSecondBlock.length = (toBytes s).length := by decide +kernel
  have hdiffers : Bytes.DiffersIn (Outside 64 (0, 17)) otherSecondBlock (toBytes s) := by
    refine ⟨hlen, ?_⟩
    intro p hp
    rcases Nat.lt_or_ge p 328 with hlt | hle
    · rcases hbits p hlt with hsame | rfl | rfl
      · exact hsame
      · exact absurd ⟨21, by decide, rfl, by decide⟩ hp
      · exact absurd ⟨22, by decide, rfl, by decide⟩ hp
    · have hshort : 8 * otherSecondBlock.length ≤ p := hle
      rw [Bytes.bit_of_le hshort, Bytes.bit_of_le (hlen ▸ hshort)]
  have hsize : hybrid.Admits 2 := ⟨by decide, by decide, by decide⟩
  obtain ⟨bits, hseg, hisolated⟩ :=
    blocks_are_isolated hsize (by decide : [5, 3, 9].length < 2 ^ 56) hs
      (show 0 < numBlocks (S := hybrid.Seq 2) s by decide)
  obtain rfl : (0, 17) = bits := Except.ok.inj (hsegment.symm.trans hseg)
  obtain ⟨s', hs', hsame⟩ := hisolated otherSecondBlock hdiffers
  obtain rfl : other = s' := Except.ok.inj (hother.symm.trans hs')
  refine ⟨s, other, hs, hs', (hsame.get_eq 1 rfl).trans ?_, ?_⟩
  · show HybridSeq.get s 1 = .ok 3
    decide +kernel
  · show HybridSeq.get other 2 = .ok 5
    decide +kernel

end SampledSeq.Variant

/-!
## Reports are true

Building reports single blocks as they are stored, and the whole container in the end. What is
reported of a block, and how many blocks there are of each sort, is what a reader of the container
finds. If a value is refused, nothing but the blocks that were complete before it has been reported
(`builds_are_reported`).
-/

namespace SampledSeq.Variant

open BlockSequence

variable {variant : Variant} {size : Nat}

def blockReports (variant : Variant) (values : List UInt64) (size k : Nat) : List Event :=
  match variant with
  | delta codec => DeltaSeq.blockReports codec (values.map UInt64.toUInt32) size k
  | hybrid => HybridSeq.blockReports values size k

/-- The report of the container of the given values. -/
def summary {variant : Variant} {size : Nat} (values : List UInt64) (s : variant.Seq size) :
    Event :=
  match variant, s with
  | delta codec, s => DeltaSeq.summary (values.map UInt64.toUInt32) (s : DeltaSeq codec size)
  | hybrid, s => HybridSeq.summary values (s : HybridSeq size)

/-- What is reported of the container of the given values is what is read of it. -/
def Truthful {variant : Variant} {size : Nat} (values : List UInt64) (s : variant.Seq size) :
    Prop :=
  match variant, s with
  | delta codec, s => DeltaSeq.Truthful (values.map UInt64.toUInt32) (s : DeltaSeq codec size)
  | hybrid, s => HybridSeq.Truthful values (s : HybridSeq size)

theorem level_of_mem_blockReports {values : List UInt64} {k : Nat} {event : Event}
    (h : event ∈ blockReports variant values size k) : event.level = .trace := by
  cases variant with
  | delta codec =>
    cases codec with
    | fixedWidth => cases h
    | patched =>
      obtain ⟨id, -, rfl⟩ := List.mem_map.1 h
      rfl
  | hybrid =>
    obtain ⟨id, -, rfl⟩ := List.mem_map.1 h
    rfl

theorem level_summary (values : List UInt64) (s : variant.Seq size) :
    (summary values s).level = .debug := by
  cases variant <;> rfl

/-- Building a container traces its blocks in their order and ends with a message about all of it,
and both say what is read of the container. A hybrid sequence is built of any values; if one is too
large for a delta-coded sequence, the complete blocks before it have been traced. -/
theorem builds_are_reported (hsize : variant.Admits size) (values : List UInt64) :
    (∀ k, ∀ event ∈ blockReports variant values size k, event.level = .trace) ∧
    (∀ s : variant.Seq size, (summary values s).level = .debug) ∧
    ((∃ s, variant.ofList size values =
      ⟨.ok s, blockReports variant values size (numBlocks s) ++ [summary values s]⟩ ∧
        (values.length < 2 ^ 56 → Truthful values s)) ∨
      (variant ≠ hybrid ∧ ∃ i, ∃ hi : i < values.length,
        (∀ j (hj : j < values.length), j < i → values[j] ≤ DeltaSeq.maxValue) ∧
        variant.ofList size values =
          ⟨.error (.valueDomain i values[i] DeltaSeq.maxValue),
            blockReports variant values size (i / size)⟩)) := by
  refine ⟨fun k event => level_of_mem_blockReports, level_summary values, ?_⟩
  cases variant with
  | delta codec =>
    obtain ⟨narrow, rfl⟩ | hlarge := DeltaSeq.narrow_or_large values
    · left
      refine ⟨DeltaSeq.built codec narrow size, ?_, ?_⟩
      · simp only [blockReports, summary, DeltaSeq.map_toUInt32_map]
        exact DeltaSeq.ofList_narrow_reported codec hsize.pos narrow
      · intro hlen
        rw [List.length_map] at hlen
        simp only [Truthful, DeltaSeq.map_toUInt32_map]
        exact DeltaSeq.truthful_built hsize.dvd hsize.pos hsize.lt hlen
    · exact .inr ⟨nofun, DeltaSeq.ofList_large_reported codec hsize.pos hlarge⟩
  | hybrid =>
    exact .inl ⟨HybridSeq.built values size, HybridSeq.ofList_reported hsize.pos values,
      fun hlen => HybridSeq.truthful_built hsize.pos hlen⟩

/-- Blocks of every encoding, of which a gap list is not traced. -/
def fourBlocks : List UInt64 := [1, 2, 3, 5, 7, 8, 9, 9, 10, 4, 5, 6]

/-- One block and a value that are taken, and one that is too large. -/
def tooLate : List UInt64 := 9 :: List.replicate 32 7 ++ [4294967296]

theorem two_builds_are_reported :
    (∃ s : hybrid.Seq 3, hybrid.ofList 3 fourBlocks =
      ⟨.ok s, [.hybridBlock .full 3 3, .hybridBlock .bitmap 3 5,
      .hybridBlock .eliasFano 3 2, .hybridBuilt 3 12 4 ⟨1, 1, 1, 1⟩ 38]⟩ ∧ Truthful fourBlocks s) ∧
    (delta .patched).ofList 32 tooLate =
      ⟨.error (.valueDomain 33 4294967296 DeltaSeq.maxValue), [.patchedBlock 0]⟩ := by
  constructor
  · have hsize : hybrid.Admits 3 := ⟨by decide, by decide, by decide⟩
    obtain ⟨-, -, ⟨s, hs, htrue⟩ | ⟨hne, -⟩⟩ := builds_are_reported hsize fourBlocks
    · have hbuilt : (hybrid.ofList 3 fourBlocks).result = .ok s := congrArg Traced.result hs
      obtain rfl : HybridSeq.built fourBlocks 3 = s :=
        Except.ok.inj ((HybridSeq.ofList_eq (by decide) fourBlocks).symm.trans hbuilt)
      have hevents : blockReports hybrid fourBlocks 3 4 ++
          [HybridSeq.summary fourBlocks (HybridSeq.built fourBlocks 3)] =
          [.hybridBlock .full 3 3, .hybridBlock .bitmap 3 5, .hybridBlock .eliasFano 3 2,
            .hybridBuilt 3 12 4 ⟨1, 1, 1, 1⟩ 38] := by
        decide +kernel
      exact ⟨_, hs.trans (congrArg (Traced.mk _) hevents), htrue (by decide)⟩
    · exact absurd rfl hne
  · have hsize : (delta .patched).Admits 32 := ⟨by decide, by decide, by decide⟩
    have hindex : (match ((delta .patched).ofList 32 tooLate).result with
        | .error (.valueDomain i _ _) => i
        | _ => 0) = 33 := by decide +kernel
    obtain ⟨-, -, ⟨s, hs, -⟩ | ⟨-, i, hi, -, hs⟩⟩ := builds_are_reported hsize tooLate
    · rw [hs] at hindex
      cases hindex
    · rw [hs] at hindex
      obtain rfl : i = 33 := hindex
      have hevents : blockReports (delta .patched) tooLate 32 1 = [.patchedBlock 0] := by
        decide +kernel
      exact hs.trans (congrArg (Traced.mk _) hevents)

end SampledSeq.Variant
