import Mathlib.Order.MinMax
import SampledSeq.Proofs.Blocks
import SampledSeq.Proofs.Codec.Delimited
import SampledSeq.Proofs.Codec.Patched

/-!
# How many bytes a block takes

The size of a block is said of its differences and not of its bytes, for either codec: for
fixed-width blocks it is a sum over the frames, for patched ones the least that any width can give.
-/

/-!
## Frames of a fixed-width block

The width of a frame is that of all its differences combined by "or", and so that of the largest one
(`frameWidth_eq_combined`, `bitLength_combined`). A block has no index of its frames: frame `k` is
found behind the bytes of the frames before it, so the size of a block is a sum over its frames
(`encodedSize_eq_sum`), and it comes back from exactly these bytes (`framed_blocks_come_back`).
-/

namespace SampledSeq

/-! ### Widths -/

theorem Word.bitLength_or (m n : Nat) : bitLength (m ||| n) = max (bitLength m) (bitLength n) := by
  apply Nat.le_antisymm
  · have hm := bitLength_le_iff.1 (Nat.le_max_left (bitLength m) (bitLength n))
    have hn := bitLength_le_iff.1 (Nat.le_max_right (bitLength m) (bitLength n))
    exact bitLength_le_iff.2 (Nat.or_lt_two_pow hm hn)
  · exact Nat.max_le.2 ⟨bitLength_mono Nat.left_le_or, bitLength_mono Nat.right_le_or⟩

theorem Word.bitLength_max (m n : Nat) : bitLength (max m n) = max (bitLength m) (bitLength n) :=
  Monotone.map_max fun _ _ => bitLength_mono

/-! ### Rows -/

/-- The rows of a list are its blocks, if all of them are full. -/
theorem Cut.rows_eq_map_part {α : Type} {n : Nat} (hn : 0 < n) {xs : List α} (h : n ∣ xs.length) :
    rows n xs = (List.range (xs.length / n)).map (Blocks.part xs n) := by
  obtain ⟨count, hcount⟩ := h
  rw [hcount, Nat.mul_div_cancel_left _ hn]
  -- over the number of blocks: the blocks behind the first one are those of the rest, counted from
  -- 0
  induction count generalizing xs with
  | zero =>
    obtain rfl := List.length_eq_zero_iff.1 hcount
    rw [rows, dif_pos (.inr rfl)]
    rfl
  | succ count ih =>
    have hne : ¬ (n = 0 ∨ xs = []) := by
      rintro (rfl | rfl)
      · exact absurd hn (Nat.lt_irrefl 0)
      · exact absurd hcount (Nat.mul_pos hn (Nat.succ_pos count)).ne
    have hrest : (xs.drop n).length = n * count := by
      rw [List.length_drop, hcount, Nat.mul_succ, Nat.add_sub_cancel]
    rw [rows, dif_neg hne, ih hrest, List.range_succ_eq_map, List.map_cons, List.map_map]
    congr 1
    · simp [Blocks.part]
    · refine List.map_congr_left fun k _ => ?_
      simp [Blocks.part, Nat.succ_mul, Nat.add_comm]

namespace FixedWidth

variable {deltas : List UInt32}

/-- All differences of a frame, combined by "or". -/
def combined (frame : List UInt32) : UInt32 := frame.foldr (· ||| ·) 0

def largest (frame : List UInt32) : Nat := (frame.map UInt32.toNat).foldr max 0

theorem frameWidth_eq_combined (frame : List UInt32) :
    frameWidth frame = Word.bitLength (combined frame).toNat := by
  show Word.commonWidth (frame.map UInt32.toNat) = _
  rw [Word.commonWidth_eq_foldr]
  induction frame with
  | nil => rfl
  | cons delta frame ih =>
    rw [combined, List.foldr_cons, UInt32.toNat_or, Word.bitLength_or, ← combined, ← ih]
    rfl

theorem bitLength_combined (frame : List UInt32) :
    Word.bitLength (combined frame).toNat = Word.bitLength (largest frame) := by
  induction frame with
  | nil => rfl
  | cons delta frame ih =>
    rw [combined, List.foldr_cons, UInt32.toNat_or, Word.bitLength_or, ← combined, ih,
      ← Word.bitLength_max]
    rfl

/-- A block takes a byte for every frame, and sixteen for every bit of its width. -/
theorem encodedSize_eq_sum (h : granule ∣ deltas.length) : encodedSize deltas =
    ((List.range (deltas.length / 128)).map fun k =>
      1 + 16 * Word.bitLength (largest (Blocks.part deltas 128 k))).sum := by
  have hframe :
      ∀ frame, 1 + Frame.interleaved.bytes (frameWidth frame) =
        1 + 16 * Word.bitLength (largest frame) := by
    intro frame
    rw [frameWidth_eq_combined, bitLength_combined]
    rfl
  rw [encodedSize, Cut.rows_eq_map_part (by decide) h]
  simp only [hframe, List.foldr_map, List.sum]
  rfl

/-- A block is appended to anything, in as many bytes as its frames are wide, and is read back from
these bytes in front of anything, into slots of any content. -/
theorem framed_blocks_come_back (h : Codec.fixedWidth.granule ∣ deltas.length) (out : Array UInt8) :
    ∃ bytes : List UInt8, Codec.fixedWidth.encodeOnto out deltas = out ++ bytes ∧
      bytes.length = Codec.fixedWidth.encodedSize deltas ∧
      bytes.length = ((List.range (deltas.length / 128)).map fun k =>
        1 + 16 * Word.bitLength (largest (Blocks.part deltas 128 k))).sum ∧
      ∀ (rest : List UInt8) (slots : List UInt32), slots.length = deltas.length →
        Codec.fixedWidth.decodeCounting (bytes ++ rest) slots = .ok (deltas, bytes.length) := by
  have hsize : (encode deltas).length = encodedSize deltas := length_encode deltas
  refine ⟨encode deltas, encodeOnto_eq out deltas, hsize, hsize.trans (encodedSize_eq_sum h),
    fun rest slots hslots => ?_⟩
  have hdecode : Codec.fixedWidth.decode (encode deltas ++ rest) slots = .ok (deltas, rest) :=
    decode_encode h hslots rest
  exact Codec.decodeCounting_of_decode hdecode

/-- A frame of nine bits and one without a bit. -/
def twoFrames : List UInt32 := List.replicate 127 1 ++ [300] ++ List.replicate 128 0

theorem twoFrames_come_back : ∃ bytes : List UInt8,
    Codec.fixedWidth.encodeOnto #[7, 7] twoFrames = (#[7, 7] : Array UInt8) ++ bytes ∧
      bytes.length = 146 ∧
      Codec.fixedWidth.decodeCounting (bytes ++ [128]) (List.replicate 256 5) =
        .ok (twoFrames, 146) := by
  obtain ⟨bytes, hbytes, -, hlen, hdecode⟩ :=
    framed_blocks_come_back (by decide +kernel : Codec.fixedWidth.granule ∣ twoFrames.length) #[7,
      7]
  have hsum : bytes.length = 146 := hlen.trans (by decide +kernel)
  exact ⟨bytes, hbytes, hsum, hsum ▸ hdecode [128] (List.replicate 256 5) (by decide +kernel)⟩

end FixedWidth

end SampledSeq

/-!
## The cheapest width

`layoutLength` counts the bytes of a patched block as its layout says, at any width, with the
outliers taken from the block as a whole. The encoder goes through the block once per width and adds
up gaps on the way, which comes to the same (`cost_eq`). Above the width of the largest difference
there is nothing left to patch and the frames only grow, so the widths that are tried are enough: no
width is cheaper than the one that is chosen (`chosen_width_is_cheapest`).
-/

namespace SampledSeq.Patched

variable {width : Nat} {deltas : List UInt32}

/-! ### The layout -/

/-- The differences with more than `width` bits and their places, if the block starts at `start`. -/
def outliersFrom (width start : Nat) (deltas : List UInt32) : List (UInt32 × Nat) :=
  (deltas.zipIdx start).filter fun (delta, _) => 2 ^ width ≤ delta.toNat

/-- The differences with more than `width` bits and their places. -/
def outliers (width : Nat) (deltas : List UInt32) : List (UInt32 × Nat) :=
  outliersFrom width 0 deltas

/-- The distance of every place from the one before it, and of the first one from `previous`. -/
def gapsFrom (previous : Nat) (places : List Nat) : List Nat :=
  List.zipWith (· - ·) places (previous :: places)

/-- The bytes of the layout at `width`: the width itself, the frames, the number of outliers, and
for each of them the gap in front of it and what is left of it above `width` bits. -/
def layoutLength (width : Nat) (deltas : List UInt32) : Nat :=
  1 + deltas.length / 32 * (4 * width) + (Base128.encode (outliers width deltas).length).length +
    ((gapsFrom 0 ((outliers width deltas).map Prod.snd)).map fun gap =>
      (Base128.encode gap).length).sum +
    ((outliers width deltas).map fun (delta, _) =>
      (Base128.encode (delta.toNat / 2 ^ width)).length).sum

/-! ### The encoder goes by the layout -/

theorem isException_iff {delta : UInt32} :
    isException width delta = true ↔ 2 ^ width ≤ delta.toNat := by
  rw [isException, decide_eq_true_iff, gt_iff_lt, ← Nat.not_le, Word.bitLength_le_iff, Nat.not_lt]

theorem outliersFrom_cons (start : Nat) (delta : UInt32) (deltas : List UInt32) :
    outliersFrom width start (delta :: deltas) =
      if isException width delta then (delta, start) :: outliersFrom width (start + 1) deltas
      else outliersFrom width (start + 1) deltas := by
  by_cases h : isException width delta = true
  · rw [if_pos h, outliersFrom, List.zipIdx_cons,
      List.filter_cons_of_pos (by simpa using isException_iff.1 h), outliersFrom]
  · rw [if_neg h, outliersFrom, List.zipIdx_cons,
      List.filter_cons_of_neg (by simpa using mt isException_iff.2 h), outliersFrom]

/-- The gaps of the exceptions are those between the outliers, counted from the exception at
`previous`. -/
theorem map_fst_exceptionsFrom (deltas : List UInt32) (gap previous : Nat) :
    (exceptionsFrom width gap deltas).map Prod.fst =
      gapsFrom previous ((outliersFrom width (previous + gap) deltas).map Prod.snd) := by
  induction deltas generalizing gap previous with
  | nil => rfl
  | cons delta deltas ih =>
    rw [exceptionsFrom, outliersFrom_cons]
    split
    · rw [List.map_cons, ih 1 (previous + gap), List.map_cons, gapsFrom, gapsFrom,
        List.zipWith_cons_cons, Nat.add_sub_cancel_left]
    · exact ih (gap + 1) previous

/-- The high bits of the exceptions are those of the outliers. -/
theorem map_snd_exceptionsFrom (deltas : List UInt32) (gap start : Nat) :
    (exceptionsFrom width gap deltas).map Prod.snd =
      (outliersFrom width start deltas).map fun (delta, _) => delta.toNat / 2 ^ width := by
  induction deltas generalizing gap start with
  | nil => rfl
  | cons delta deltas ih =>
    rw [exceptionsFrom, outliersFrom_cons]
    split
    · rw [List.map_cons, List.map_cons, ih 1 (start + 1), Nat.shiftRight_eq_div_pow]
    · exact ih (gap + 1) (start + 1)

theorem patchBytes_eq_sum (patches : List (Nat × Nat)) : patchBytes patches =
    ((patches.map Prod.fst).map fun gap => (Base128.encode gap).length).sum +
      ((patches.map Prod.snd).map fun high => (Base128.encode high).length).sum := by
  induction patches with
  | nil => rfl
  | cons patch patches ih =>
    rw [patchBytes, List.foldr_cons, ← patchBytes, ih]
    simp only [List.map_cons, List.sum_cons, Base128.length_encode]
    omega

/-- The bytes that the encoder counts at a width are those of the layout. -/
theorem cost_eq (width : Nat) (h : granule ∣ deltas.length) :
    cost width deltas = layoutLength width deltas := by
  obtain ⟨frames, hframes⟩ := h
  have hgaps :
      (exceptions width deltas).map Prod.fst = gapsFrom 0 ((outliers width deltas).map Prod.snd) :=
    map_fst_exceptionsFrom deltas 0 0
  have hhighs : (exceptions width deltas).map Prod.snd =
      (outliers width deltas).map fun (delta, _) => delta.toNat / 2 ^ width :=
    map_snd_exceptionsFrom deltas 0 0
  have hcount : (exceptions width deltas).length = (outliers width deltas).length := by
    simpa using congrArg List.length hhighs
  have hpacked : deltas.length * width / 8 = deltas.length / 32 * (4 * width) := by
    have hbits : 32 * frames * width = 8 * (frames * (4 * width)) := by grind
    have hsize : granule = 32 := rfl
    rw [hframes, hsize, Nat.mul_div_cancel_left _ (by decide), hbits,
      Nat.mul_div_cancel_left _ (by decide)]
  rw [cost, layoutLength, patchBytes_eq_sum, hgaps, hhighs, hcount, hpacked, Base128.length_encode,
    List.map_map]
  simp only [Function.comp_def]
  omega

/-! ### No width is cheaper -/

/-- At the width of the largest difference nothing is left to patch. -/
theorem outliers_of_widest_le (h : Word.commonWidth (deltas.map UInt32.toNat) ≤ width) :
    outliers width deltas = [] := by
  apply List.filter_eq_nil_iff.2
  rintro ⟨delta, place⟩ hmem hle
  have hdelta : delta ∈ deltas := List.fst_mem_of_mem_zipIdx hmem
  have hlt := Word.commonWidth_le_iff.1 h _ (List.mem_map_of_mem hdelta)
  exact Nat.not_le_of_lt hlt (of_decide_eq_true hle)

/-- From the width of the largest difference on, the layout only grows. -/
theorem layoutLength_widest_le (h : Word.commonWidth (deltas.map UInt32.toNat) ≤ width) :
    layoutLength (Word.commonWidth (deltas.map UInt32.toNat)) deltas ≤ layoutLength width
      deltas := by
  have hpacked := Nat.mul_le_mul_left (deltas.length / 32) (Nat.mul_le_mul_left 4 h)
  rw [layoutLength, layoutLength, outliers_of_widest_le (Nat.le_refl _), outliers_of_widest_le h]
  simp only [List.map_nil, List.sum_nil]
  omega

/-- A block takes as many bytes as the layout at the width that is chosen, one of those that are
tried, and at no width would the layout be shorter. -/
theorem chosen_width_is_cheapest (h : granule ∣ deltas.length) (out : Array UInt8) :
    (encodeOnto out deltas).size = out.size + layoutLength (chooseWidth deltas) deltas ∧
      chooseWidth deltas ≤ Word.commonWidth (deltas.map UInt32.toNat) ∧ chooseWidth deltas ≤ 32 ∧
      ∀ width, layoutLength (chooseWidth deltas) deltas ≤ layoutLength width deltas := by
  have hchosen : layoutLength (chooseWidth deltas) deltas = (best deltas).2 := by
    rw [← cost_eq _ h, chooseWidth, ← (best_spec deltas).1]
  have htried : ∀ width ≤ Word.commonWidth (deltas.map UInt32.toNat),
      layoutLength (chooseWidth deltas) deltas ≤ layoutLength width deltas := by
    intro width hwidth
    rw [hchosen, ← cost_eq width h]
    exact (best_spec deltas).2 width hwidth
  refine ⟨?_, chooseWidth_le_widest deltas, chooseWidth_le deltas, fun width => ?_⟩
  · rw [encodeOnto_eq, hchosen, ← Array.length_toList, Array.toList_appendList, List.length_append,
      length_encode h]
    rfl
  · rcases Nat.le_total width (Word.commonWidth (deltas.map UInt32.toNat)) with hle | hle
    · exact htried width hle
    · exact Nat.le_trans (htried _ (Nat.le_refl _)) (layoutLength_widest_le hle)

/-- Thirty differences of three bits between two of nine and ten. -/
def twoOutliers : List UInt32 := 300 :: List.replicate 30 5 ++ [1000]

/-- Three bits with two patches, and nothing less. -/
theorem twoOutliers_cheapest : granule ∣ twoOutliers.length ∧ chooseWidth twoOutliers = 3 ∧
    (encodeOnto #[] twoOutliers).size = 18 ∧ ∀ width, 18 ≤ layoutLength width twoOutliers := by
  have hdvd : granule ∣ twoOutliers.length := by decide
  have hwidth : chooseWidth twoOutliers = 3 := by decide +kernel
  have hlength : layoutLength 3 twoOutliers = 18 := by decide +kernel
  obtain ⟨hsize, -, -, hcheapest⟩ := chosen_width_is_cheapest hdvd #[]
  rw [hwidth, hlength] at hsize hcheapest
  exact ⟨hdvd, hwidth, hsize, hcheapest⟩

end SampledSeq.Patched
