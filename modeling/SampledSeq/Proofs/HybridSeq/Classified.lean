import SampledSeq.Proofs.BlockList.Gap
import SampledSeq.Proofs.HybridSeq.RoundTrip

/-!
# Which encoding a block gets, and what it costs

What the builder decides by comparing, counting and estimating can be said of the values alone, and
so can the number of bits that come of it.
-/

/-!
## Which encoding a block gets

The builder compares neighbours, counts values and estimates sizes. What comes out of it can be said
of the values alone (`classOf`): a block is an interval exactly if it holds the numbers that follow
its boundary, and a gap list exactly if it does not ascend from above its boundary. Between bitmap
and Elias-Fano list the formula for the bits decides. The boundary is the last value of the block
before, whatever encoding that one got (`blocks_are_classified`).
-/

namespace SampledSeq.HybridSeq

variable {lo : UInt64} {block : List UInt64}

/-! ### What the values say -/

/-- The block holds the numbers that follow its boundary. -/
def Consecutive (lo : UInt64) (block : List UInt64) : Prop :=
  ∀ j (h : j < block.length), block[j].toNat = lo.toNat + 1 + j

instance (lo : UInt64) (block : List UInt64) : Decidable (Consecutive lo block) :=
  inferInstanceAs (Decidable (∀ j (h : j < block.length), block[j].toNat = lo.toNat + 1 + j))

/-- The encoding of a block of `m` values from above `lo`, with `u` numbers up to the last one. -/
def classOf (lo : UInt64) (block : List UInt64) : BlockKind :=
  let m := block.length
  let u := (block.getLastD lo).toNat - lo.toNat
  let low := if m < u then Nat.log2 (u / m) else 0
  if Consecutive lo block then .full
  else if ¬ block.Pairwise (· ≤ ·) ∨ block.headD lo ≤ lo then .raw
  else if block.Pairwise (· < ·) ∧ u < m * low + m + u >>> low + 1 then .bitmap
  else .eliasFano

/-! ### What the builder compares -/

theorem neighbours_iff_pairwise {r : UInt64 → UInt64 → Prop} [DecidableRel r] [Trans r r r] :
    Neighbours.all (fun value next => decide (r value next)) block = true ↔ block.Pairwise r := by
  constructor
  · exact pairwise_of_neighbours
  · intro h
    rw [Neighbours.all_iff]
    intro i hi
    exact decide_eq_true (List.pairwise_iff_getElem.1 h i (i + 1) (by omega) hi
      (Nat.lt_succ_self i))

theorem ascending_iff : ascending block = true ↔ block.Pairwise (· ≤ ·) := neighbours_iff_pairwise

theorem strictlyAscending_iff : strictlyAscending block = true ↔ block.Pairwise (· < ·) :=
  neighbours_iff_pairwise

/-- A gap list is for the blocks that do not ascend from above their boundary. -/
theorem kindOf_eq_raw (h : ¬ block.Pairwise (· ≤ ·) ∨ block.headD lo ≤ lo) :
    kindOf lo block = .raw := by
  refine if_pos ?_
  rw [Bool.or_eq_true, Bool.not_eq_true', ← Bool.not_eq_true, ascending_iff, decide_eq_true_eq]
  exact h

/-- Among the others, the number of values and the distance to the last one decide. -/
theorem kindOf_eq_choose (hsorted : block.Pairwise (· ≤ ·)) (hhead : lo < block.headD lo) :
    kindOf lo block = .choose block.length (boundAbove lo block) (strictlyAscending block) := by
  refine if_neg ?_
  rw [Bool.or_eq_true, Bool.not_eq_true', ← Bool.not_eq_true, ascending_iff, decide_eq_true_eq,
    not_or, not_not]
  exact ⟨hsorted, UInt64.not_le.2 hhead⟩

/-! ### Intervals -/

theorem Consecutive.strict (h : Consecutive lo block) : block.Pairwise (· < ·) := by
  rw [List.pairwise_iff_getElem]
  intro i j hi hj hij
  rw [UInt64.lt_iff_toNat_lt, h i hi, h j hj]
  omega

theorem Consecutive.head (h : Consecutive lo block) (h0 : 0 < block.length) :
    lo < block.headD lo := by
  have hfirst := h 0 h0
  rw [List.headD_eq_head?_getD, List.head?_eq_getElem?, List.getElem?_eq_getElem h0,
    Option.getD_some, UInt64.lt_iff_toNat_lt]
  omega

/-- Consecutive values are as many as there are numbers up to the last one. -/
theorem Consecutive.boundAbove_eq (h : Consecutive lo block) (h0 : 0 < block.length) :
    boundAbove lo block = block.length := by
  have hsorted : block.Pairwise (· ≤ ·) := h.strict.imp UInt64.le_of_lt
  rw [(above_of_ascending hsorted (h.head h0)).toNat_bound h0, Blocks.getLastD_eq_getElem h0,
    h _ (by omega)]
  omega

/-- As many distinct values as there are numbers up to the last one are all of these numbers. -/
theorem consecutive_of_kindOf (h : kindOf lo block = .full) : Consecutive lo block := by
  have hraw : kindOf lo block ≠ .raw := by simp [h]
  obtain ⟨habove, hchoose⟩ := above_of_kindOf hraw
  have hlen : block.length = boundAbove lo block := by
    rw [h] at hchoose
    unfold BlockKind.choose at hchoose
    split at hchoose
    · rename_i hfull
      have hrun : strictlyAscending block = true ∧ block.length = boundAbove lo block := by
        simpa using hfull
      exact hrun.2
    · split at hchoose <;> cases hchoose
  have hfits := fits_written lo block
  rw [written_of_ne_raw hraw, h] at hfits
  intro j hj
  have hj64 : j < 2 ^ 64 := Nat.lt_trans (hlen ▸ hj) (boundAbove_lt lo block)
  have hvalue := congrArg UInt64.toNat (hfits j (by simpa using hj))
  have hlt := UInt64.lt_iff_toNat_lt.1 (habove.lt_mem _ (List.getElem_mem hj))
  rw [Interval.access, UInt64.toNat_ofNat_of_lt' hj64, List.getElem_map,
    toNat_relative (habove.lt_mem _ (List.getElem_mem hj))] at hvalue
  omega

theorem kindOf_eq_full_iff (h0 : 0 < block.length) :
    kindOf lo block = .full ↔ Consecutive lo block := by
  constructor
  · exact consecutive_of_kindOf
  · intro h
    have hstrict := strictlyAscending_iff.2 h.strict
    rw [kindOf_eq_choose (h.strict.imp UInt64.le_of_lt) (h.head h0), h.boundAbove_eq h0]
    simp [BlockKind.choose, hstrict]

/-! ### All encodings -/

/-- Without an interval, a bitmap has to be smaller than an Elias-Fano list. -/
theorem choose_of_ne_full {count bound : Nat} {distinct : Bool} (h0 : 0 < count)
    (h : BlockKind.choose count bound distinct ≠ .full) :
    BlockKind.choose count bound distinct =
      let low := if count < bound then Nat.log2 (bound / count) else 0
      if distinct = true ∧ bound < count * low + count + bound >>> low + 1 then .bitmap
      else .eliasFano := by
  have hlow : EliasFano.lowWidth count bound = if count < bound then Nat.log2 (bound / count)
      else 0 := by
    simp only [EliasFano.lowWidth, Nat.ne_of_gt h0, false_or, ← Nat.not_lt, ite_not]
  unfold BlockKind.choose at h ⊢
  split
  · rename_i hfull
    exact absurd (if_pos hfull) h
  · simp only [BlockKind.estimate, Bitmap.estimate, EliasFano.estimate, hlow, Bool.and_eq_true,
      decide_eq_true_eq]

theorem kindOf_eq_classOf (h0 : 0 < block.length) : kindOf lo block = classOf lo block := by
  unfold classOf
  dsimp only
  split
  · rename_i hfull
    exact (kindOf_eq_full_iff h0).2 hfull
  · rename_i hfull
    split
    · rename_i hraw
      exact kindOf_eq_raw hraw
    · rename_i hraw
      rw [not_or, not_not, UInt64.not_le] at hraw
      obtain ⟨hsorted, hhead⟩ := hraw
      have hne := mt (kindOf_eq_full_iff h0).1 hfull
      rw [kindOf_eq_choose hsorted hhead,
        (above_of_ascending hsorted hhead).toNat_bound h0] at hne ⊢
      simp only [choose_of_ne_full h0 hne, strictlyAscending_iff]

/-! ### Built sequences -/

variable {size : Nat} {values : List UInt64}

theorem blockKind_built (hs : 0 < size) (hlen : values.length < 2 ^ 56) {id : Nat}
    (hid : id < (built values size).numBlocks) :
    (built values size).blockKind id =
      .ok (kindOf (boundaryOf values size id) (Blocks.part values size id)) := by
  rw [blockKind, Blocks.check, if_pos hid, ok_bind, (table_built hs hlen (Nat.le_of_lt hid)).1,
    ok_bind, ← lo_stage hs (Nat.le_of_lt ((Blocks.lt_count_iff hs).1 hid))]
  exact kindAt_writeBlock (clean_stage values size id) (carries_built hid)

/-- Every block of a sequence gets the encoding that its values and its boundary say, and only in a
gap list are there values outside of the range that the boundaries span. -/
theorem blocks_are_classified (hs : 0 < size) (values : List UInt64)
    (hlen : values.length < 2 ^ 56) :
    ∃ s : HybridSeq size, (ofList values : Traced (HybridSeq size)).result = .ok s ∧
      s.numBlocks = Blocks.count values.length size ∧
      ∀ id < s.numBlocks, ∀ lo block, lo = boundaryOf values size id →
      block = Blocks.part values size id →
        s.blockKind id = .ok (classOf lo block) ∧
          (classOf lo block ≠ .raw → ∀ v ∈ block, lo < v ∧ v ≤ block.getLastD lo) := by
  refine ⟨built values size, ofList_eq hs values, rfl, ?_⟩
  rintro id hid lo block rfl rfl
  rw [← kindOf_eq_classOf (Blocks.length_part_pos hid)]
  refine ⟨blockKind_built hs hlen hid, ?_⟩
  intro hraw v hv
  obtain ⟨habove, -⟩ := above_of_kindOf hraw
  exact ⟨habove.lt_mem v hv, habove.mem_le v hv⟩

/-- Blocks of every encoding: an interval, a bitmap, an Elias-Fano list with a repeated value, and a
gap list of values that are not above the boundary. -/
theorem four_blocks_are_classified : ∃ s : HybridSeq 3,
    (ofList [1, 2, 3, 5, 7, 8, 9, 9, 10, 4, 5, 6] : Traced (HybridSeq 3)).result = .ok s ∧
      s.blockKind 0 = .ok .full ∧ s.blockKind 1 = .ok .bitmap ∧ s.blockKind 2 = .ok .eliasFano ∧
      s.blockKind 3 = .ok .raw := by
  obtain ⟨s, hs, hblocks, hall⟩ := blocks_are_classified (by decide : 0 < 3)
    [1, 2, 3, 5, 7, 8, 9, 9, 10, 4, 5, 6]
    (by decide : [1, 2, 3, 5, 7, 8, 9, 9, 10, 4, 5, 6].length < 2 ^ 56)
  have hkind := fun id hid => (hall id (hblocks ▸ hid) _ _ rfl rfl).1
  exact ⟨s, hs, hkind 0 (by decide), hkind 1 (by decide), hkind 2 (by decide), hkind 3 (by decide)⟩

end SampledSeq.HybridSeq

/-!
## How many bits a hybrid sequence takes

What the builder compares are estimates, what it writes are fields, zeros and single bits. Both come
to the same number for every block that is not a gap list, and a gap list takes its header and one
field a value (`len_writeBlock`). So the size of a block can be said of its values (`listBits`), a
pointer is the sum of the sizes of the blocks before it (`len_stage`), and nothing but these blocks
is in the payload (`sizes_add_up`).
-/

namespace SampledSeq

/-! ### Lists -/

/-- An ascending list takes no bits, or the fewest that an Elias-Fano list and, of distinct values,
a bitmap can do with. -/
theorem BlockKind.len_write_choose (w : BitWriter) (values : List UInt64) (bound : Nat)
    (distinct : Bool) :
    ((choose values.length bound distinct).write w values bound).len = w.len +
      if choose values.length bound distinct = full then 0
      else if distinct then min (EliasFano.estimate values.length bound) bound
      else EliasFano.estimate values.length bound := by
  unfold choose
  split
  · rfl
  · split
    · rename_i hcheap
      rw [Bool.and_eq_true, decide_eq_true_eq] at hcheap
      obtain ⟨rfl, hlt⟩ := hcheap
      have hmin : min (EliasFano.estimate values.length bound) bound = bound :=
        Nat.min_eq_right (Nat.le_of_lt hlt)
      rw [if_neg (by decide), if_pos rfl, hmin]
      exact Bitmap.len_write w values bound
    · rename_i hcheap
      rw [Bool.and_eq_true, decide_eq_true_eq, not_and, Nat.not_lt] at hcheap
      rw [if_neg (by decide)]
      have hlen :
          (EliasFano.write w values bound).len = w.len + EliasFano.estimate values.length bound :=
        EliasFano.len_write w values bound
      split
      · rename_i hdistinct
        have hmin :
            min (EliasFano.estimate values.length bound) bound =
              EliasFano.estimate values.length bound :=
          Nat.min_eq_left (hcheap hdistinct)
        rw [hmin]
        exact hlen
      · exact hlen

namespace HybridSeq

/-! ### Blocks -/

variable {lo : UInt64} {block : List UInt64}

/-- The bits of the list of a block: `m` values, with `u` numbers from above the boundary up to the
last one. -/
def listBits (kind : BlockKind) (lo : UInt64) (block : List UInt64) : Nat :=
  let m := block.length
  let u := (block.getLastD lo).toNat - lo.toNat
  match kind with
  | .raw => 7 + m * GapList.stepWidth block
  | .full => 0
  | .bitmap | .eliasFano =>
    if block.Pairwise (· < ·) then min (EliasFano.estimate m u) u else EliasFano.estimate m u

theorem len_writeBlock (w : BitWriter) (lo : UInt64) (h0 : 0 < block.length) :
    (writeBlock w (kindOf lo block) lo block).len =
      w.len + (2 + listBits (classOf lo block) lo block) := by
  rw [← kindOf_eq_classOf h0, writeBlock]
  by_cases hraw : kindOf lo block = .raw
  · rw [hraw]
    have hlen :=
      GapList.len_write (w.writeBits (UInt64.ofNat BlockKind.raw.tag) BlockKind.tagBits) block
    rw [BitWriter.len_writeBits, GapList.codeWidth_eq_stepWidth] at hlen
    exact hlen.trans (by rw [listBits, BlockKind.tagBits, GapList.headerBits]; omega)
  · obtain ⟨habove, hchoose⟩ := above_of_kindOf hraw
    have hlen :=
      BlockKind.len_write_choose (w.writeBits (UInt64.ofNat (kindOf lo block).tag)
        BlockKind.tagBits)
      (written (kindOf lo block) lo block) (boundAbove lo block) (strictlyAscending block)
    rw [length_written, BitWriter.len_writeBits, ← hchoose, habove.toNat_bound h0] at hlen
    rw [habove.toNat_bound h0, hlen, BlockKind.tagBits, Nat.add_assoc]
    simp only [strictlyAscending_iff]
    cases hkind : kindOf lo block with
    | raw => exact absurd hkind hraw
    | full => rfl
    | bitmap => rfl
    | eliasFano => rfl

/-! ### Sequences -/

variable {size : Nat} {values : List UInt64}

/-- The bits of block `id`: those of its tag and those of its list. -/
def blockBits (values : List UInt64) (size id : Nat) : Nat :=
  let lo := boundaryOf values size id
  let block := Blocks.part values size id
  2 + listBits (classOf lo block) lo block

def bitsBefore (values : List UInt64) (size id : Nat) : Nat :=
  ((List.range id).map (blockBits values size)).sum

theorem bitsBefore_succ (values : List UInt64) (size id : Nat) :
    bitsBefore values size (id + 1) = bitsBefore values size id + blockBits values size id := by
  simp [bitsBefore, List.range_succ]

/-- What has been written after some blocks are these blocks. -/
theorem len_stage {k : Nat} (hk : k ≤ Blocks.count values.length size) :
    (stage values size k).writer.len = bitsBefore values size k := by
  induction k with
  | zero => rfl
  | succ k ih =>
    have hs := Blocks.size_pos_of_lt hk
    have hlo : (stage values size k).lo = boundaryOf values size k :=
      lo_stage hs (Nat.le_of_lt ((Blocks.lt_count_iff hs).1 hk))
    rw [bitsBefore_succ, ← ih (Nat.le_of_succ_le hk), stage, Builder.store]
    simp only [len_writeBlock _ _ (Blocks.length_part_pos hk), hlo, blockBits]

theorem pointer_built (hs : 0 < size) (hlen : values.length < 2 ^ 56) {k : Nat}
    (hk : k ≤ Blocks.count values.length size) :
    (built values size).pointer k = .ok (bitsBefore values size k) := by
  rw [(table_built hs hlen hk).1, len_stage hk]

/-- The payload of a sequence are its blocks, one after the other, each with its tag and the
smallest list that can hold its values; behind them there are zeros up to the end of the last
word. -/
theorem sizes_add_up (hs : 0 < size) (values : List UInt64) (hlen : values.length < 2 ^ 56) :
    ∃ s : HybridSeq size, (ofList values : Traced (HybridSeq size)).result = .ok s ∧
      s.numBlocks = Blocks.count values.length size ∧
      (∀ id < s.numBlocks, s.pointer id = .ok (bitsBefore values size id) ∧
        s.blockKind id = .ok (classOf (boundaryOf values size id) (Blocks.part values size id))) ∧
      s.payloadBits = .ok (bitsBefore values size s.numBlocks) ∧
      s.payload.size = (bitsBefore values size s.numBlocks + 63) / 64 ∧
      ∀ p, bitsBefore values size s.numBlocks ≤ p → s.bits.bit p = false := by
  have hall := len_stage (Nat.le_refl (Blocks.count values.length size))
  have hclean := clean_stage values size (Blocks.count values.length size)
  refine ⟨built values size, ofList_eq hs values, rfl, ?_,
    pointer_built hs hlen (Nat.le_refl _), ?_, ?_⟩
  · intro id hid
    refine ⟨pointer_built hs hlen (Nat.le_of_lt hid), ?_⟩
    rw [blockKind_built hs hlen hid, kindOf_eq_classOf (Blocks.length_part_pos hid)]
  · rw [numBlocks_built, ← hall]
    exact hclean.exact
  · intro p hp
    rw [numBlocks_built, ← hall] at hp
    exact hclean.bit_eq_false p hp

/-- The blocks of an interval, a bitmap, an Elias-Fano list and a gap list take 2, 7, 8 and 21
bits. -/
theorem four_sizes_add_up : ∃ s : HybridSeq 3,
    (ofList [1, 2, 3, 5, 7, 8, 9, 9, 10, 4, 5, 6] : Traced (HybridSeq 3)).result = .ok s ∧
      s.pointer 1 = .ok 2 ∧ s.pointer 2 = .ok 9 ∧ s.pointer 3 = .ok 17 ∧ s.payloadBits = .ok 38 ∧
      s.payload.size = 1 ∧ s.bits.bit 38 = false := by
  have hsum : bitsBefore [1, 2, 3, 5, 7, 8, 9, 9, 10, 4, 5, 6] 3 4 = 38 := by decide
  obtain ⟨s, hs, hblocks, hpointers, hbits, hwords, hzeros⟩ := sizes_add_up (by decide : 0 < 3)
    [1, 2, 3, 5, 7, 8, 9, 9, 10, 4, 5, 6]
    (by decide : [1, 2, 3, 5, 7, 8, 9, 9, 10, 4, 5, 6].length < 2 ^ 56)
  have hfour : s.numBlocks = 4 := hblocks
  rw [hfour] at hpointers
  rw [hfour, hsum] at hbits hwords hzeros
  have hpointer := fun id hid => (hpointers id hid).1
  exact ⟨s, hs, hpointer 1 (by decide), hpointer 2 (by decide), hpointer 3 (by decide),
    hbits, hwords,
    hzeros 38 (Nat.le_refl _)⟩

end HybridSeq

end SampledSeq
