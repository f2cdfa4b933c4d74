import SampledSeq.Proofs.DeltaSeq.RoundTrip

/-!
# The layout of a delta-coded sequence

The builder works in a single pass over the values: it overwrites the block at hand, pads its
payload when the first block is encoded, and lists pointers as it goes. What it ends in can be said
without it, block by block: `payloadOf` and `tableOf` are made of the values alone, and
`built_is_laid_out` says that they are what is built.
-/

namespace SampledSeq.DeltaSeq

variable {codec : Codec} {size : Nat} {block : List UInt32} {blocks : List (List UInt32)}
    {values : List UInt32}

/-! ## Payload and table of given values -/

/-- The block is complete and holds consecutive numbers. -/
def FullRun (size : Nat) (block : List UInt32) : Prop :=
  block.length = size ∧ ∀ j < size - 1, (block.getD (j + 1) 0).toNat = (block.getD j 0).toNat + 1

/-- The block is kept out of the payload. -/
def KeptOut (codec : Codec) (size : Nat) (block : List UInt32) : Prop :=
  codec = .patched ∧ FullRun size block

instance (codec : Codec) (size : Nat) (block : List UInt32) :
    Decidable (KeptOut codec size block) :=
  inferInstanceAs (Decidable (codec = .patched ∧ block.length = size ∧
    ∀ j < size - 1, (block.getD (j + 1) 0).toNat = (block.getD j 0).toNat + 1))

/-- The value in slot `j` of a block, of which the last value is repeated. -/
def slot (block : List UInt32) (j : Nat) : UInt32 := block.getD (min j (block.length - 1)) 0

/-- The differences between the slots of a block modulo `2 ^ 32`, with 0 for the first slot. -/
def slotDeltas (size : Nat) (block : List UInt32) : List UInt32 :=
  (List.range size).map fun j => if j = 0 then 0 else slot block j - slot block (j - 1)

/-- The blocks that are not kept out, encoded one after the other. -/
def encodings (codec : Codec) (size : Nat) (blocks : List (List UInt32)) : List UInt8 :=
  (blocks.filter fun block => ¬ KeptOut codec size block).flatMap fun block =>
    codec.encode (slotDeltas size block)

/-- The payload of the given blocks: there is padding exactly if anything is encoded. -/
def payloadOf (codec : Codec) (size : Nat) (blocks : List (List UInt32)) : List UInt8 :=
  if ∀ block ∈ blocks, KeptOut codec size block then []
  else List.replicate codec.leadingPadding 0 ++ encodings codec size blocks

def firstBlocks (values : List UInt32) (size k : Nat) : List (List UInt32) :=
  (List.range k).map (Blocks.part values size)

def allBlocks (values : List UInt32) (size : Nat) : List (List UInt32) :=
  firstBlocks values size (Blocks.count values.length size)

/-- Where the encoding of block `id` starts. -/
def offsetOf (codec : Codec) (values : List UInt32) (size id : Nat) : Nat :=
  codec.leadingPadding + (encodings codec size (firstBlocks values size id)).length

/-- The first value of a block, and 0 or the offset of its encoding. -/
def rowOf (codec : Codec) (values : List UInt32) (size id : Nat) : UInt64 × UInt64 :=
  ((values.getD (id * size) 0).toUInt64,
    if KeptOut codec size (Blocks.part values size id) then 0
    else UInt64.ofNat (offsetOf codec values size id))

def tableOf (codec : Codec) (values : List UInt32) (size : Nat) : List UInt64 :=
  ((List.range (Blocks.count values.length size)).flatMap fun id =>
      [(rowOf codec values size id).1, (rowOf codec values size id).2]) ++
    [0, UInt64.ofNat (payloadOf codec size (allBlocks values size)).length]

/-! ## One block -/

theorem marksRuns_iff : codec.marksRuns = true ↔ codec = .patched := by
  cases codec <;> simp [Codec.marksRuns]

/-- The comparison of neighbours finds the blocks that are to be kept out. -/
theorem storedAsRun_iff_keptOut :
    storedAsRun codec size block = true ↔ KeptOut codec size block := by
  rw [storedAsRun_iff, KeptOut, FullRun, marksRuns_iff, ← and_assoc, ← and_assoc,
    and_comm (a := block.length = size)]
  refine and_congr_right ?_
  rintro ⟨-, rfl⟩
  rw [Differences.isRun, Neighbours.all_iff]
  constructor
  · intro h j hj
    have hnext := h j (by omega)
    rw [beq_iff_eq] at hnext
    rw [List.getD_eq_getElem _ _ (by omega), List.getD_eq_getElem _ _ (by omega), hnext]
  · intro h j hj
    have hnext := h j (by omega)
    rw [List.getD_eq_getElem _ _ (by omega), List.getD_eq_getElem _ _ (by omega)] at hnext
    rw [beq_iff_eq, hnext]

/-- The slots of a block are its values, and then its last value again. -/
theorem getElem_padded_eq_slot (h0 : 0 < block.length) {j : Nat}
    (hj : j < (Builder.padded size block).length) :
    (Builder.padded size block)[j] = slot block j := by
  obtain hlt | hle := Nat.lt_or_ge j block.length
  · have hmin : min j (block.length - 1) = j := by omega
    rw [getElem_padded hlt, slot, hmin, List.getD_eq_getElem _ _ hlt]
  · have hmin : min j (block.length - 1) = block.length - 1 := by omega
    have hlast : (Builder.padded size block)[j] = block.getLastD 0 := by
      simp only [Builder.padded, List.getElem_append_right hle, List.getElem_replicate]
    rw [hlast, slot, hmin, Blocks.getLastD_eq_getElem h0, List.getD_eq_getElem _ _ (by omega)]

/-- What is encoded of a block are the differences between its slots. -/
theorem ofValues_padded (h0 : 0 < block.length) (hle : block.length ≤ size) :
    Differences.ofValues (Builder.padded size block) = slotDeltas size block := by
  have hlen := length_padded hle
  apply List.ext_getElem (by rw [Differences.length_ofValues, hlen, slotDeltas, List.length_map,
    List.length_range])
  intro j hj hj'
  rw [Differences.length_ofValues] at hj
  rw [Differences.getElem_ofValues hj]
  simp only [slotDeltas, List.getElem_map, List.getElem_range, getElem_padded_eq_slot h0]

/-! ## One block more -/

theorem firstBlocks_succ (values : List UInt32) (size k : Nat) :
    firstBlocks values size (k + 1) = firstBlocks values size k ++ [Blocks.part values size k] := by
  rw [firstBlocks, List.range_succ, List.map_append]
  rfl

theorem encodings_append (codec : Codec) (size : Nat) (blocks : List (List UInt32))
    (block : List UInt32) :
    encodings codec size (blocks ++ [block]) =
      encodings codec size blocks ++ if KeptOut codec size block then []
      else codec.encode (slotDeltas size block) := by
  by_cases h : KeptOut codec size block <;> simp [encodings, h]

theorem encodings_eq_nil_iff (hs : 0 < size) :
    encodings codec size blocks = [] ↔ ∀ block ∈ blocks, KeptOut codec size block := by
  have hne : ∀ block, codec.encode (slotDeltas size block) ≠ [] := fun block =>
    Codec.encode_ne_nil (by simp [slotDeltas, Nat.ne_of_gt hs])
  simp [encodings, hne]

/-- A payload is empty exactly if nothing is encoded. -/
theorem payloadOf_eq_nil_iff (hs : 0 < size) :
    payloadOf codec size blocks = [] ↔ ∀ block ∈ blocks, KeptOut codec size block := by
  unfold payloadOf
  split
  · rename_i hall
    exact iff_of_true rfl hall
  · rename_i hall
    simp [encodings_eq_nil_iff hs, hall]

theorem payloadOf_append (codec : Codec) (size : Nat) (blocks : List (List UInt32))
    (block : List UInt32) :
    payloadOf codec size (blocks ++ [block]) =
      if KeptOut codec size block then payloadOf codec size blocks
      else List.replicate codec.leadingPadding 0 ++ encodings codec size blocks ++ codec.encode
        (slotDeltas size block) := by
  have hall : (∀ b ∈ blocks ++ [block], KeptOut codec size b) ↔
      (∀ b ∈ blocks, KeptOut codec size b) ∧ KeptOut codec size block := by
    rw [List.forall_mem_append, List.forall_mem_singleton]
  rw [payloadOf, encodings_append]
  by_cases h : KeptOut codec size block
  · rw [if_pos h, if_pos h, List.append_nil]
    exact if_congr (hall.trans (and_iff_left h)) rfl rfl
  · rw [if_neg h, if_neg h, if_neg fun hboth => h (hall.1 hboth).2, List.append_assoc]

/-- What the next block is appended to is padded, whether a block was encoded before or not. -/
theorem toList_frontOf (hs : 0 < size) {payload : Array UInt8}
    (h : payload.toList = payloadOf codec size blocks) :
    (frontOf codec payload).toList = List.replicate codec.leadingPadding 0 ++ encodings codec size
      blocks := by
  unfold frontOf
  by_cases hall : ∀ block ∈ blocks, KeptOut codec size block
  · rw [payloadOf, if_pos hall] at h
    rw [if_pos (by simpa using h), (encodings_eq_nil_iff hs).2 hall, Array.toList_replicate,
      List.append_nil]
  · have hne : ¬ payload.isEmpty = true := by
      rw [Array.isEmpty_iff, ← Array.toList_eq_nil_iff, h, payloadOf_eq_nil_iff hs]
      exact hall
    rw [if_neg hne, h, payloadOf, if_neg hall]

/-- Storing a block leads from the payload of the blocks before it to the payload with it. -/
theorem payload_store (hs : 0 < size) {b : Builder codec size} (h0 : 0 < block.length)
    (hle : block.length ≤ size) (h : b.payload.toList = payloadOf codec size blocks) :
    (b.store block).payload.toList = payloadOf codec size (blocks ++ [block]) := by
  rw [payloadOf_append]
  by_cases hrun : KeptOut codec size block
  · rw [store_run (storedAsRun_iff_keptOut.2 hrun), if_pos hrun, h]
  · rw [store_encoded (mt storedAsRun_iff_keptOut.1 hrun), if_neg hrun, Array.toList_appendList,
      toList_frontOf hs h, ofValues_padded h0 hle]

/-! ## All blocks -/

theorem payload_stage (hs : 0 < size) {k : Nat} (hk : k ≤ Blocks.count values.length size) :
    (stage codec values size k).payload.toList =
      payloadOf codec size (firstBlocks values size k) := by
  induction k with
  | zero => simp [stage, firstBlocks, payloadOf]
  | succ k ih =>
    rw [firstBlocks_succ]
    exact payload_store hs (Blocks.length_part_pos hk) (Blocks.length_part_le values size k)
      (ih (Nat.le_of_lt hk))

theorem size_frontOf_stage (hs : 0 < size) {k : Nat} (hk : k ≤ Blocks.count values.length size) :
    (frontOf codec (stage codec values size k).payload).size = offsetOf codec values size k := by
  rw [← Array.length_toList, toList_frontOf hs (payload_stage hs hk), List.length_append,
    List.length_replicate, offsetOf]

theorem offsetOf_lt (hgranule : codec.granule ∣ size) (hs : 0 < size) (h64 : size < 2 ^ 64)
    (hlen : values.length < 2 ^ 56) {id : Nat} (hid : id < Blocks.count values.length size) :
    offsetOf codec values size id < UInt64.size := by
  rw [← size_frontOf_stage hs (Nat.le_of_lt hid)]
  exact size_frontOf_lt hgranule hs h64 hlen hid

theorem row_stage (hs : 0 < size) {k : Nat} (hk : k < Blocks.count values.length size) :
    (((Blocks.part values size k).headD 0).toUInt64,
      pointerOf (stage codec values size k) (Blocks.part values size k)) =
      rowOf codec values size k := by
  rw [rowOf, Blocks.headD_part 0 hk, pointerOf, size_frontOf_stage hs (Nat.le_of_lt hk)]
  simp only [storedAsRun_iff_keptOut, runPointer]

theorem entries_stage (hs : 0 < size) {k : Nat} (hk : k ≤ Blocks.count values.length size) :
    (stage codec values size k).entries.toList =
      (List.range k).flatMap fun id =>
        [(rowOf codec values size id).1, (rowOf codec values size id).2] := by
  induction k with
  | zero => rfl
  | succ k ih =>
    rw [stage, (store_frame _ _).2.2, Array.toList_push, Array.toList_push, ih (Nat.le_of_lt hk),
      List.range_succ, List.flatMap_append, List.flatMap_singleton, ← row_stage hs hk,
      List.append_assoc]
    rfl

/-! ## Built sequences -/

/-- A sequence is laid out as its values say. -/
structure LaidOut (values : List UInt32) (s : DeltaSeq codec size) : Prop where
  payload_eq : s.payload.toList = payloadOf codec size (allBlocks values size)
  table_eq : s.samples = PackedArray.ofList (tableOf codec values size)
  /-- Without payload there are only runs, or no values at all. -/
  empty_iff : s.payload.size = 0 ↔
      ∀ id < s.numBlocks, KeptOut codec size (Blocks.part values size id)

theorem laidOut_built (codec : Codec) (hs : 0 < size) (values : List UInt32) :
    LaidOut values (built codec values size) := by
  have hpayload :
      (built codec values size).payload.toList = payloadOf codec size (allBlocks values size) :=
    payload_stage hs (Nat.le_refl _)
  refine ⟨hpayload, ?_, ?_⟩
  · rw [built, Builder.close, Array.toList_push, Array.toList_push,
      entries_stage hs (Nat.le_refl _), tableOf, ← hpayload, Array.length_toList, List.append_assoc]
    rfl
  · rw [← Array.length_toList, hpayload, List.length_eq_zero_iff, payloadOf_eq_nil_iff hs,
      allBlocks, firstBlocks, numBlocks_built]
    simp

/-- What the sample table of a sequence answers. -/
structure Listed (values : List UInt32) (s : DeltaSeq codec size) : Prop where
  /-- The first value of every block. -/
  sample_eq : ∀ id < s.numBlocks, s.sample id = .ok (rowOf codec values size id).1
  /-- Whether a block is kept out. -/
  isRunBlock_eq :
      ∀ id < s.numBlocks, s.isRunBlock id =
        .ok (decide (KeptOut codec size (Blocks.part values size id)))
  /-- Where a block that is not kept out starts. -/
  pointer_eq : ∀ id < s.numBlocks, ¬ KeptOut codec size (Blocks.part values size id) →
    ∃ pointer, s.pointer id = .ok pointer ∧ pointer.toNat = offsetOf codec values size id ∧
      (codec = .patched → pointer ≠ runPointer)
  /-- 0 and the payload length behind the blocks. -/
  behind : s.sampleEntry s.numBlocks = .ok 0 ∧
      s.pointer s.numBlocks = .ok (UInt64.ofNat s.payload.size)

theorem isRunBlock_eq_marksRun {s : DeltaSeq codec size} {id : Nat} {pointer : UInt64}
    (hid : id < s.numBlocks) (h : s.pointer id = .ok pointer) :
    s.isRunBlock id = .ok (marksRun codec pointer) := by
  rw [isRunBlock, Blocks.check, if_pos hid, ok_bind, h, marksRun]
  cases codec.marksRuns <;> rfl

/-- A pointer marks a run exactly for the blocks that are kept out. -/
theorem marksRun_row (hgranule : codec.granule ∣ size) (hs : 0 < size) (h64 : size < 2 ^ 64)
    (hlen : values.length < 2 ^ 56) {id : Nat} (hid : id < Blocks.count values.length size) :
    marksRun codec (rowOf codec values size id).2 =
      decide (KeptOut codec size (Blocks.part values size id)) := by
  by_cases hkept : KeptOut codec size (Blocks.part values size id)
  · simp [rowOf, hkept, marksRun, marksRuns_iff.2 hkept.1, runPointer]
  · have hfront := marksRun_front (size_frontOf_lt hgranule hs h64 hlen hid)
    rw [size_frontOf_stage hs (Nat.le_of_lt hid)] at hfront
    simp [rowOf, hkept, hfront]

theorem listed_built (hgranule : codec.granule ∣ size) (hs : 0 < size) (h64 : size < 2 ^ 64)
    (hlen : values.length < 2 ^ 56) :
    Listed values (built codec values size) := by
  have hrow : ∀ id < (built codec values size).numBlocks,
      (built codec values size).sampleEntry id = .ok (rowOf codec values size id).1 ∧
        (built codec values size).pointer id = .ok (rowOf codec values size id).2 := by
    intro id hid
    rw [← row_stage hs hid]
    exact table_built codec hs hlen hid
  have hbehind := entries_built codec hs hlen (Nat.le_refl _)
  rw [entryOf, if_neg (Nat.lt_irrefl _)] at hbehind
  refine ⟨?_, ?_, ?_, hbehind⟩
  · intro id hid
    rw [sample_eq_entry hid, (hrow id hid).1]
  · intro id hid
    rw [isRunBlock_eq_marksRun hid (hrow id hid).2, marksRun_row hgranule hs h64 hlen hid]
  · intro id hid hkept
    refine ⟨_, (hrow id hid).2, ?_, ?_⟩
    · rw [rowOf, if_neg hkept, UInt64.toNat_ofNat_of_lt' (offsetOf_lt hgranule hs h64 hlen hid)]
    · rintro rfl hzero
      have hmarks := marksRun_row hgranule hs h64 hlen hid
      rw [hzero, decide_eq_false hkept] at hmarks
      exact absurd hmarks (by decide)

/-- Whatever 32-bit values a sequence is built of, its payload and its table are those of its
values, and the table is read as it was listed. -/
theorem built_is_laid_out (codec : Codec) (hs : 0 < size) (values : List UInt32) :
    ∃ s : DeltaSeq codec size,
      (ofList (values.map UInt32.toUInt64) : Traced (DeltaSeq codec size)).result = .ok s ∧
      s.numBlocks = Blocks.count values.length size ∧ LaidOut values s ∧
      (codec.granule ∣ size → size < 2 ^ 64 → values.length < 2 ^ 56 → Listed values s) :=
  ⟨built codec values size, ofList_narrow codec hs values, rfl, laidOut_built codec hs values,
    fun hgranule h64 hlen => listed_built hgranule hs h64 hlen⟩

/-- The numbers from 7 to 38, and two values behind them. -/
def runAndRest : List UInt32 := (List.range 32).map (fun j => UInt32.ofNat (7 + j)) ++ [90, 5]

theorem runAndRest_is_laid_out : ∃ s : DeltaSeq .patched 32,
    (ofList (runAndRest.map UInt32.toUInt64) : Traced (DeltaSeq .patched 32)).result = .ok s ∧
      s.payload.size ≠ 0 ∧ s.isRunBlock 0 = .ok true ∧ s.isRunBlock 1 = .ok false ∧
      s.sample 1 = .ok 90 ∧
      s.pointer 1 = .ok 1 := by
  obtain ⟨s, hs, hblocks, hlaid, hlisted⟩ :=
    built_is_laid_out .patched (by decide : 0 < 32) runAndRest
  have hlisted := hlisted (by decide) (by decide) (by decide)
  have h0 : 0 < s.numBlocks := by rw [hblocks]; decide
  have h1 : 1 < s.numBlocks := by rw [hblocks]; decide
  have hrun : KeptOut .patched 32 (Blocks.part runAndRest 32 0) := by decide
  have hrest : ¬ KeptOut .patched 32 (Blocks.part runAndRest 32 1) := by decide
  have hoffset : offsetOf .patched runAndRest 32 1 = 1 := by decide
  obtain ⟨pointer, hpointer, hstart, -⟩ := hlisted.pointer_eq 1 h1 hrest
  obtain rfl : pointer = 1 := UInt64.toNat_inj.1 (hstart.trans hoffset)
  refine ⟨s, hs, fun hempty => hrest (hlaid.empty_iff.1 hempty 1 h1), ?_, ?_,
    hlisted.sample_eq 1 h1, hpointer⟩
  · rw [hlisted.isRunBlock_eq 0 h0, decide_eq_true hrun]
  · rw [hlisted.isRunBlock_eq 1 h1, decide_eq_false hrest]

end SampledSeq.DeltaSeq
