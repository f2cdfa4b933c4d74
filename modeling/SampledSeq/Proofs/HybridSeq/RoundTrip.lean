import SampledSeq.HybridSeq.Stored
import SampledSeq.Proofs.HybridSeq.Stored

/-!
# Hybrid sequences come back

Every block of a sequence that was built is found where its stage wrote it, between the boundaries
that the stages before and behind it left in the block table. A search finds the value that was
given (`get_built`), and so does a scan; and the stored form is accepted again.
-/

/-!
## One block

What a block chooses can hold it: a gap list takes any values, and every other list is chosen only
for values that ascend from above the boundary (`Above`), where the distances from the boundary lie
below the bound that the block table gives back. So the values of a block are found where it was
written: `found_written`.
-/

namespace SampledSeq.HybridSeq

variable {lo : UInt64} {block : List UInt64}

/-! ### Ascending blocks -/

/-- The block ascends from above its boundary. -/
structure Above (lo : UInt64) (block : List UInt64) : Prop where
  sorted : block.Pairwise (· ≤ ·)
  lt_mem : ∀ v ∈ block, lo < v
  mem_le : ∀ v ∈ block, v ≤ block.getLastD lo

theorem pairwise_of_neighbours {r : UInt64 → UInt64 → Prop} [DecidableRel r] [Trans r r r]
    (h : Neighbours.all (fun value next => decide (r value next)) block = true) :
    block.Pairwise r := by
  rw [← List.isChain_iff_pairwise, List.isChain_iff_getElem]
  exact fun i hi => of_decide_eq_true (Neighbours.all_iff.1 h i hi)

theorem sorted_of_ascending (h : ascending block = true) : block.Pairwise (· ≤ ·) :=
  pairwise_of_neighbours h

theorem sorted_of_strictlyAscending (h : strictlyAscending block = true) : block.Pairwise (· < ·) :=
  pairwise_of_neighbours h

theorem above_of_ascending (hsorted : block.Pairwise (· ≤ ·)) (hhead : lo < block.headD lo) :
    Above lo block where
  sorted := hsorted
  lt_mem v hv := by
    cases block with
    | nil => simp at hv
    | cons first rest =>
      rcases List.mem_cons.1 hv with rfl | hv
      · exact hhead
      · exact UInt64.lt_of_lt_of_le hhead ((List.pairwise_cons.1 hsorted).1 v hv)
  mem_le v hv := by
    obtain ⟨i, hi, rfl⟩ := List.mem_iff_getElem.1 hv
    rw [Blocks.getLastD_eq_getElem (by omega)]
    by_cases hlast : i = block.length - 1
    · subst hlast
      exact UInt64.le_refl _
    · exact List.pairwise_iff_getElem.1 hsorted i _ hi (by omega) (by omega)

/-- Only an ascending block above its boundary is stored relative to it. -/
theorem above_of_kindOf (h : kindOf lo block ≠ .raw) :
    Above lo block ∧
    kindOf lo block = .choose block.length (boundAbove lo block) (strictlyAscending block) := by
  unfold kindOf at h ⊢
  split at h
  · exact absurd rfl h
  · rename_i hasc
    rw [if_neg hasc]
    simp only [Bool.or_eq_true, Bool.not_eq_true', decide_eq_true_eq, not_or, UInt64.not_le,
      Bool.not_eq_false] at hasc
    exact ⟨above_of_ascending (sorted_of_ascending hasc.1) hasc.2, rfl⟩

/-! ### Values relative to the boundary -/

theorem toNat_relative {v : UInt64} (h : lo < v) : (v - lo - 1).toNat = v.toNat - lo.toNat - 1 := by
  have hlt := UInt64.lt_iff_toNat_lt.1 h
  have hsub : (v - lo).toNat = v.toNat - lo.toNat := UInt64.toNat_sub_of_le _ _ (UInt64.le_of_lt h)
  have hone : (1 : UInt64) ≤ v - lo :=
    UInt64.le_iff_toNat_le.2 (by rw [hsub]; exact Nat.le_sub_of_add_le' hlt)
  rw [UInt64.toNat_sub_of_le _ _ hone, hsub]
  rfl

theorem rebase_relative {v : UInt64} (h : lo < v) : rebase lo (v - lo - 1) = .ok v := by
  have hlt := UInt64.lt_iff_toNat_lt.1 h
  rw [rebase, if_pos]
  · congr 1
    rw [UInt64.add_assoc, UInt64.add_comm 1, UInt64.sub_add_cancel, offset_of_value]
  · rw [toNat_relative h]
    have := v.toNat_lt
    simp only [UInt64.size]
    omega

theorem Above.toNat_bound (h : Above lo block) (h0 : 0 < block.length) :
    boundAbove lo block = (block.getLastD lo).toNat - lo.toNat := by
  have hlast : block.getLastD lo ∈ block := by
    rw [Blocks.getLastD_eq_getElem h0]
    exact List.getElem_mem _
  exact UInt64.toNat_sub_of_le _ _ (UInt64.le_of_lt (h.lt_mem _ hlast))

theorem Above.relative_lt (h : Above lo block) {v : UInt64} (hv : v ∈ block) :
    (v - lo - 1).toNat < boundAbove lo block := by
  have hlt := UInt64.lt_iff_toNat_lt.1 (h.lt_mem v hv)
  have hle := UInt64.le_iff_toNat_le.1 (h.mem_le v hv)
  rw [toNat_relative (h.lt_mem v hv), h.toNat_bound (List.length_pos_of_mem hv)]
  omega

theorem Above.relative_mono (h : Above lo block) {v v' : UInt64} (hv : v ∈ block)
    (hv' : v' ∈ block) :
    (v ≤ v' → v - lo - 1 ≤ v' - lo - 1) ∧ (v < v' → v - lo - 1 < v' - lo - 1) := by
  have hlt := UInt64.lt_iff_toNat_lt.1 (h.lt_mem v hv)
  rw [UInt64.le_iff_toNat_le, UInt64.le_iff_toNat_le, UInt64.lt_iff_toNat_lt,
    UInt64.lt_iff_toNat_lt, toNat_relative (h.lt_mem v hv), toNat_relative (h.lt_mem v' hv')]
  omega

/-! ### What is written -/

theorem written_of_ne_raw {kind : BlockKind} (h : kind ≠ .raw) :
    written kind lo block = block.map fun value => value - lo - 1 := by
  cases kind <;> first | rfl | exact absurd rfl h

theorem length_written (kind : BlockKind) (lo : UInt64) (block : List UInt64) :
    (written kind lo block).length = block.length := by
  cases kind <;> simp [written]

/-- The encoding of a block can hold what is written for it. -/
theorem fits_written (lo : UInt64) (block : List UInt64) :
    (kindOf lo block).Fits (written (kindOf lo block) lo block) (boundAbove lo block) := by
  by_cases hraw : kindOf lo block = .raw
  · rw [hraw]
    trivial
  · obtain ⟨habove, hkind⟩ := above_of_kindOf hraw
    have hlen : (block.map fun value => value - lo - 1).length = block.length := List.length_map _
    rw [written_of_ne_raw hraw, hkind, ← hlen]
    refine BlockKind.fits_choose ?_ ?_ ?_
    · simpa using fun v hv => habove.relative_lt hv
    · exact List.pairwise_map.2 (habove.sorted.imp_of_mem fun hv hv' hle =>
        (habove.relative_mono hv hv').1 hle)
    · intro hstrict
      exact List.pairwise_map.2
        ((sorted_of_strictlyAscending hstrict).imp_of_mem fun hv hv' hlt =>
          (habove.relative_mono hv hv').2 hlt)

theorem boundAbove_lt (lo : UInt64) (block : List UInt64) : boundAbove lo block < 2 ^ 64 :=
  UInt64.toNat_lt _

/-- A block takes at most 75 bits a value. -/
theorem len_writeBlock_le (w : BitWriter) (lo : UInt64) (h0 : 0 < block.length) :
    (writeBlock w (kindOf lo block) lo block).len ≤ w.len + 75 * block.length := by
  have hlen := (kindOf lo block).len_write_le
    (w.writeBits (UInt64.ofNat (kindOf lo block).tag) BlockKind.tagBits)
    (written (kindOf lo block) lo block)
    (boundAbove lo block)
  rw [length_written, BitWriter.len_writeBits, BlockKind.tagBits] at hlen
  have hest :
      (kindOf lo block).estimate block.length (boundAbove lo block) ≤ 7 + 66 * block.length := by
    by_cases hraw : kindOf lo block = .raw
    · rw [hraw, BlockKind.estimate, GapList.estimate, GapList.headerBits]
      omega
    · have hchoose :=
        BlockKind.estimate_choose_le h0 (boundAbove_lt lo block) (strictlyAscending block)
      rw [(above_of_kindOf hraw).2]
      omega
  rw [writeBlock, BlockKind.tagBits]
  omega

theorem writeBlock_spec {w : BitWriter} (hc : w.Clean) (lo : UInt64) (block : List UInt64) :
    (writeBlock w (kindOf lo block) lo block).Clean ∧
    (writeBlock w (kindOf lo block) lo block).Extends w := by
  have htag : BlockKind.tagBits ≤ 64 := by decide
  obtain ⟨hclean, hext⟩ :=
    BlockKind.write_spec (hc.writeBits (UInt64.ofNat (kindOf lo block).tag) htag)
      (boundAbove_lt lo block) (fits_written lo block)
  exact ⟨hclean, hext.trans (BitWriter.extends_writeBits hc _ htag)⟩

/-! ### What is found -/

section
variable {size id : Nat} {s : HybridSeq size} {w : BitWriter}

/-- The two entries around an ascending block give its bound back. -/
theorem Above.bounds_eq (h : Above lo block) (h0 : 0 < block.length) (hlo : s.boundary id = .ok lo)
    (hhi : s.boundary (id + 1) = .ok (block.getLastD lo)) :
    s.bounds id = .ok (lo, boundAbove lo block) := by
  have hlast : lo < block.getLastD lo := by
    rw [Blocks.getLastD_eq_getElem h0]
    exact h.lt_mem _ (List.getElem_mem _)
  have hle : lo ≤ block.getLastD lo := UInt64.le_of_lt hlast
  rw [bounds, hlo, ok_bind, hhi, ok_bind, if_neg (UInt64.not_lt.2 hle),
    Position.sub_eq_ok (UInt64.le_iff_toNat_le.1 hle), ok_bind, boundAbove,
    UInt64.toNat_sub_of_le _ _ hle, pure_eq_ok]

theorem kindAt_writeBlock (hc : w.Clean)
    (hs : s.bits.Carries (writeBlock w (kindOf lo block) lo block)) :
    s.kindAt w.len = .ok (kindOf lo block) := by
  have htag : BlockKind.tagBits ≤ 64 := by decide
  have hext := (BlockKind.write_spec (hc.writeBits (UInt64.ofNat (kindOf lo block).tag) htag)
    (boundAbove_lt lo block) (fits_written lo block)).2
  have hback : (UInt64.ofNat (kindOf lo block).tag &&& Word.lowMask BlockKind.tagBits).toNat =
      (kindOf lo block).tag := by
    cases kindOf lo block <;> rfl
  rw [kindAt, BitWriter.getBits_writeBits hc htag (hs.of_extends hext), ok_bind, hback,
    BlockKind.ofTag_tag]

theorem found_written (hc : w.Clean)
    (hlimit : (writeBlock w (kindOf lo block) lo block).len < Position.limit)
    (hs : s.bits.Carries (writeBlock w (kindOf lo block) lo block))
    (hcount : Blocks.length s.len size id = block.length) (hpointer : s.pointer id = .ok w.len)
    (hlo : s.boundary id = .ok lo) (hhi : s.boundary (id + 1) = .ok (block.getLastD lo)) {j : Nat}
    (hj : j < block.length) :
    s.valueIn id j = .ok block[j] := by
  have htag : BlockKind.tagBits ≤ 64 := by decide
  have hclean := hc.writeBits (UInt64.ofNat (kindOf lo block).tag) htag
  have hle :=
    (BlockKind.write_spec hclean (boundAbove_lt lo block) (fits_written lo block)).2.len_le
  rw [BitWriter.len_writeBits] at hle
  have haccess :=
    BlockKind.access_write hclean (boundAbove_lt lo block) (fits_written lo block) hlimit hs j
      (by rwa [length_written])
  simp only [BitWriter.len_writeBits, length_written] at haccess
  -- the search goes the way of the writer: pointer, tag, then the list behind the tag
  simp only [valueIn, hpointer, ok_bind, Position.checked_eq_ok (Nat.lt_of_le_of_lt hle hlimit),
    kindAt_writeBlock hc hs, hcount]
  by_cases hraw : kindOf lo block = .raw
  · simp only [hraw, written] at haccess
    rw [if_pos hraw, hraw]
    exact haccess
  · have habove := (above_of_kindOf hraw).1
    rw [if_neg hraw, habove.bounds_eq (Nat.zero_lt_of_lt hj) hlo hhi, ok_bind, haccess, ok_bind]
    simp only [written_of_ne_raw hraw, List.getElem_map]
    exact rebase_relative (habove.lt_mem _ (List.getElem_mem _))

end

end SampledSeq.HybridSeq

/-!
## Building block by block

The builder takes values one at a time, but all that counts is the blocks that it has stored:
`stage` stores block after block, and `ofList_traced` says that the builder ends in the stage of the
last block. What a stage has written is still there in every later one (`stage_extends`).
-/

namespace SampledSeq.HybridSeq

variable {size : Nat} {values : List UInt64}

/-- The builder that has stored the first `k` blocks, and nothing else. -/
def stage (values : List UInt64) (size : Nat) : Nat → Builder size
  | 0 => {}
  | k + 1 => (stage values size k).store (Blocks.part values size k)

/-- The builder that has stored `k` blocks and taken the values `pending` of the next one. -/
def stageWith (values : List UInt64) (size k : Nat) (pending : List UInt64) : Builder size :=
  { stage values size k with pending := pending.toArray, len := k * size + pending.length }

theorem stageWith_zero : stageWith values size 0 [] = {} := by
  simp [stageWith, stage]

theorem stageWith_push (k : Nat) (pending : List UInt64) (value : UInt64) :
    (stageWith values size k pending).push value =
      if pending.length + 1 = size then (stageWith values size k (pending ++ [value])).flush
      else stageWith values size k (pending ++ [value]) := by
  simp [Builder.push, stageWith, Nat.add_assoc]

/-- Storing what is pending of a block leads to its stage. -/
theorem stageWith_flush (k : Nat) :
    (stageWith values size k (Blocks.part values size k)).flush =
      { stage values size (k + 1) with
        len := k * size + (Blocks.part values size k).length, pending := #[] } := rfl

theorem stageWith_close {k : Nat} (h : (Blocks.part values size k).length = size) :
    (stageWith values size k (Blocks.part values size k)).flush =
      stageWith values size (k + 1) [] := by
  rw [stageWith_flush, h, ← Nat.succ_mul]
  rfl

def Builder.close (b : Builder size) (len : Nat) : HybridSeq size where
  len := len
  table := PackedArray.ofList ((b.entries.push (UInt64.ofNat b.writer.len)).push b.lo).toList
  payload := b.writer.words

/-- What a builder of `len` values reports in the end. -/
def Builder.summary (b : Builder size) (len : Nat) : Event :=
  .hybridBuilt size len (Blocks.count len size) b.kinds b.writer.len

theorem ofList_traced (hs : 0 < size) (values : List UInt64) :
    let last := stage values size (Blocks.count values.length size)
    (ofList values : Traced (HybridSeq size)) =
      ⟨.ok (last.close values.length), (last.events.push (last.summary values.length)).toList⟩ := by
  have hzero : stageWith values size 0 [] = {} := stageWith_zero
  have hfold : values.foldl Builder.push {} =
      stageWith values size (values.length / size)
      (Blocks.part values size (values.length / size)) :=
    hzero ▸ Blocks.foldl_eq hs stageWith_push fun _ => stageWith_close
  have hrest : (Blocks.part values size (values.length / size)).length = _ := Blocks.length_rest hs
  have hdiv := Nat.div_add_mod' values.length size
  dsimp only
  rw [ofList, hfold, Builder.summary, Blocks.count_eq hs, Builder.finish]
  by_cases h0 : values.length % size = 0
  · have hnil : Blocks.part values size (values.length / size) = [] :=
      List.length_eq_zero_iff.1 (hrest.trans h0)
    have hlen : values.length / size * size = values.length := by omega
    simp [h0, hnil, stageWith, Builder.close, hlen, Blocks.count_eq hs]
  · have hne : ¬ (stageWith values size (values.length / size)
        (Blocks.part values size (values.length / size))).pending.isEmpty = true := by
      simpa [stageWith, ← List.length_eq_zero_iff, hrest] using h0
    simp only [if_neg hne, if_neg h0, stageWith_flush, hrest, hdiv, Blocks.count_eq hs]
    rfl

theorem ofList_eq (hs : 0 < size) (values : List UInt64) :
    (ofList values : Traced (HybridSeq size)).result =
    .ok ((stage values size (Blocks.count values.length size)).close values.length) :=
  congrArg Traced.result (ofList_traced hs values)

/-! ### What the stages have stored -/

/-- The boundary of block `id`: 0 for the first block, and for the others the last value of the
block before. -/
def boundaryOf (values : List UInt64) (size id : Nat) : UInt64 :=
  if id = 0 then 0 else values.getD (id * size - 1) 0

theorem lo_stage (hs : 0 < size) {k : Nat} (hk : k * size ≤ values.length) :
    (stage values size k).lo = boundaryOf values size k := by
  cases k with
  | zero => rfl
  | succ k =>
    rw [Nat.succ_mul] at hk
    have hlen : (Blocks.part values size k).length = size := by
      rw [Blocks.length_part, Blocks.length]
      omega
    have hlast : k * size + (size - 1) = (k + 1) * size - 1 := by
      rw [Nat.succ_mul]
      omega
    have hlt : (k + 1) * size - 1 < values.length := by
      rw [Nat.succ_mul]
      omega
    rw [stage, boundaryOf, if_neg (Nat.succ_ne_zero k), Builder.store,
      Blocks.getLastD_eq_getElem (by omega), Blocks.getElem_part, List.getD_eq_getElem?_getD,
      List.getElem?_eq_getElem hlt]
    simp only [hlen, hlast, Option.getD_some]

theorem clean_stage (values : List UInt64) (size : Nat) : ∀ k, (stage values size k).writer.Clean
  | 0 => BitWriter.clean_empty
  | k + 1 => (writeBlock_spec (clean_stage values size k) _ _).1

/-- A later stage still has everything that was written. -/
theorem stage_extends {k n : Nat} (h : k ≤ n) :
    (stage values size n).writer.Extends (stage values size k).writer := by
  induction n, h using Nat.le_induction with
  | base => exact .refl _
  | succ n _ ih => exact (writeBlock_spec (clean_stage values size n) _ _).2.trans ih

/-- Seventy-five bits a value are enough. -/
theorem len_stage_le {k : Nat} (hk : k ≤ Blocks.count values.length size) :
    (stage values size k).writer.len ≤ 75 * (values.take (k * size)).length := by
  induction k with
  | zero => exact Nat.zero_le _
  | succ k ih =>
    have hpos := Blocks.length_part_pos hk
    have hblock := len_writeBlock_le (stage values size k).writer (stage values size k).lo hpos
    have hlen := ih (Nat.le_of_succ_le hk)
    rw [Blocks.length_part, Blocks.length] at hblock
    rw [List.length_take] at hlen ⊢
    rw [stage, Builder.store, Nat.succ_mul k size]
    dsimp only
    omega

theorem lists_stage (values : List UInt64) (size : Nat) :
    ∀ k, PackedArray.Lists (stage values size k).entries
    (fun i => (UInt64.ofNat (stage values size i).writer.len, (stage values size i).lo)) k
  | 0 => PackedArray.lists_empty _
  | k + 1 => (lists_stage values size k).push rfl

end SampledSeq.HybridSeq

/-! ## Values of a built sequence -/

namespace SampledSeq.HybridSeq

variable {size : Nat} {values : List UInt64}

def built (values : List UInt64) (size : Nat) : HybridSeq size :=
  (stage values size (Blocks.count values.length size)).close values.length

theorem numBlocks_built (values : List UInt64) (size : Nat) :
    (built values size).numBlocks = Blocks.count values.length size := rfl

/-! ### The block table -/

theorem len_stage_lt (hlen : values.length < 2 ^ 56) {k : Nat}
    (hk : k ≤ Blocks.count values.length size) :
    (stage values size k).writer.len < Position.limit := by
  have hle := len_stage_le hk
  rw [List.length_take] at hle
  simp only [Position.limit, UInt64.size]
  omega

theorem table_built (hs : 0 < size) (hlen : values.length < 2 ^ 56) {k : Nat}
    (hk : k ≤ Blocks.count values.length size) :
    (built values size).pointer k = .ok (stage values size k).writer.len ∧
      (built values size).boundary k = .ok (stage values size k).lo := by
  have hcount : Blocks.count values.length size ≤ values.length := Blocks.count_le hs
  have hlists : PackedArray.Lists _ _ (Blocks.count values.length size + 1) :=
    (lists_stage values size (Blocks.count values.length size)).push rfl
  obtain ⟨hpointer, hlo⟩ := hlists.get_ofList (by simp only [Position.limit, UInt64.size]; omega)
    (Nat.lt_succ_of_le hk)
  have hposition : 2 * k + 1 < Position.limit := by
    simp only [Position.limit, UInt64.size]
    omega
  constructor
  · rw [pointer, Position.checked_eq_ok (Nat.lt_of_succ_lt hposition), ok_bind, built,
      Builder.close, hpointer, ok_bind, pure_eq_ok,
      UInt64.toNat_ofNat_of_lt' (len_stage_lt hlen hk)]
  · rw [boundary, Position.checked_eq_ok hposition, ok_bind, built, Builder.close, hlo]

/-! ### Values and blocks -/

theorem carries_built {k : Nat} (hk : k ≤ Blocks.count values.length size) :
    (built values size).bits.Carries (stage values size k).writer :=
  (BitWriter.carries_words (clean_stage values size _).exact).of_extends (stage_extends hk)

theorem valueIn_built (hs : 0 < size) (hlen : values.length < 2 ^ 56) {k : Nat}
    (hk : k < Blocks.count values.length size) {j : Nat}
    (hj : j < (Blocks.part values size k).length) :
    (built values size).valueIn k j = .ok (Blocks.part values size k)[j] := by
  obtain ⟨hpointer, hlo⟩ := table_built hs hlen (Nat.le_of_lt hk)
  exact found_written (clean_stage values size k) (len_stage_lt hlen hk) (carries_built hk)
    Blocks.length_part.symm hpointer hlo
    (table_built hs hlen hk).2 hj

theorem get_built (hs : 0 < size) (hlen : values.length < 2 ^ 56) (i : Nat)
    (hi : i < values.length) :
    (built values size).get i = .ok values[i] := by
  have hj : i % size < (Blocks.part values size (i / size)).length :=
    Blocks.mod_lt_length_part hs hi
  rw [get_eq_valueIn hi, valueIn_built hs hlen (Blocks.div_lt_count hs hi) hj]
  simp only [Blocks.getElem_part hj, Nat.div_add_mod']

theorem boundary_built (hs : 0 < size) (hlen : values.length < 2 ^ 56) {id : Nat}
    (hid : id < Blocks.count values.length size) :
    (built values size).boundary id = .ok (boundaryOf values size id) := by
  rw [(table_built hs hlen (Nat.le_of_lt hid)).2,
    lo_stage hs (Nat.le_of_lt ((Blocks.lt_count_iff hs).1 hid))]

theorem valueOffsets_built (hs : 0 < size) (hlen : values.length < 2 ^ 56) {id : Nat}
    (hid : id < Blocks.count values.length size) : (built values size).valueOffsets id =
      .ok ((Blocks.part values size id).map (· - boundaryOf values size id)) :=
  valueOffsets_of_found (boundary_built hs hlen hid) (Blocks.length_part_pos hid) Blocks.length_part
    fun _ hj => valueIn_built hs hlen hid hj

theorem decoded_built (hs : 0 < size) (hlen : values.length < 2 ^ 56) {id : Nat}
    (hid : id < Blocks.count values.length size) {buffer : Array UInt64} (hb : size ≤ buffer.size) :
    BlockSequence.Decoded values size id (boundaryOf values size id)
      (BlockSequence.decodeBlock (built values size) id buffer) := by
  apply BlockSequence.decoded_of_offsets (s := built values size) hid hb rfl rfl
  exact bind_eq_ok.2 ⟨_, valueOffsets_built hs hlen hid, rfl⟩

/-- Whatever values a hybrid sequence is built of, in any order, they come back: each at its index,
and each block as the offsets of its values from its boundary. -/
theorem any_values_come_back (hs : 0 < size) (values : List UInt64)
    (hlen : values.length < 2 ^ 56) :
    ∃ s : HybridSeq size, (ofList values : Traced (HybridSeq size)).result = .ok s ∧
      s.len = values.length ∧
      (∀ i (hi : i < values.length), s.get i = .ok values[i]) ∧
      (s.sample 0 = if values = [] then .error (.indexOutOfRange 0 0) else .ok 0) ∧
      (∀ id, 0 < id → id < s.numBlocks →
        ∃ h : id * size - 1 < values.length, s.sample id = .ok values[id * size - 1]) ∧
      ∀ id < s.numBlocks, ∀ buffer : Array UInt64, size ≤ buffer.size →
        ∃ lo, s.sample id = .ok lo ∧
        BlockSequence.Decoded values size id lo (BlockSequence.decodeBlock s id buffer) := by
  have hsample : ∀ id < (built values size).numBlocks,
      (built values size).sample id = .ok (boundaryOf values size id) := fun id hid => by
    rw [sample_eq_boundary hid, boundary_built hs hlen hid]
  refine ⟨built values size, ofList_eq hs values, rfl, get_built hs hlen, ?_, ?_,
    fun id hid buffer hb => ⟨_, hsample id hid, decoded_built hs hlen hid hb⟩⟩
  · by_cases hnil : values = []
    · subst hnil
      have hcount : Blocks.count 0 size = 0 := Nat.le_zero.1 (Blocks.count_le hs)
      simp [sample, Blocks.check, numBlocks_built, hcount]
    · have hlt : 0 * size < values.length := by
        rw [Nat.zero_mul]
        exact List.length_pos_iff.2 hnil
      have hpos : 0 < (built values size).numBlocks := (Blocks.lt_count_iff hs).2 hlt
      rw [if_neg hnil, hsample 0 hpos]
      rfl
  · intro id h0 hid
    have hlt : id * size < values.length := (Blocks.lt_count_iff hs).1 hid
    refine ⟨by omega, (hsample id hid).trans ?_⟩
    rw [boundaryOf, if_neg (Nat.ne_of_gt h0), List.getD_eq_getElem?_getD,
      List.getElem?_eq_getElem (by omega), Option.getD_some]

theorem three_values_come_back :
    ∃ s : HybridSeq 2, (ofList [5, 3, 9] : Traced (HybridSeq 2)).result = .ok s ∧
    s.get 1 = .ok 3 ∧ s.sample 1 = .ok 3 ∧ (BlockSequence.decodeBlock s 1 #[0, 0]).1 = .ok 1 := by
  obtain ⟨s, hs, hlen, hget, -, hsample, hdecode⟩ :=
    any_values_come_back (by decide : 0 < 2) [5, 3, 9] (by decide : [5, 3, 9].length < 2 ^ 56)
  have hblocks : 1 < s.numBlocks := by
    rw [numBlocks, hlen]
    decide
  obtain ⟨_, hsample⟩ := hsample 1 (by decide) hblocks
  obtain ⟨lo, -, hdecoded⟩ := hdecode 1 hblocks #[0, 0] (by decide)
  exact ⟨s, hs, hget 1 (by decide), hsample, hdecoded.count_eq⟩

/-- A sequence of no values has no first block, and so no boundary of it. -/
theorem nothing_has_no_sample : ¬ ∀ values : List UInt64, values.length < 2 ^ 56 →
    ∃ s : HybridSeq 2, (ofList values : Traced (HybridSeq 2)).result = .ok s ∧
    s.sample 0 = .ok 0 := by
  intro h
  obtain ⟨s, hs, hsample⟩ := h [] (by decide)
  obtain rfl : built [] 2 = s := Except.ok.inj ((ofList_eq (by decide) []).symm.trans hs)
  exact absurd hsample (by decide)

end SampledSeq.HybridSeq

/-!
## What was built is accepted

The check of the block table asks for a tag's room between the pointers of neighbouring blocks. A
sequence that was built has it, since every block starts with its tag (`tag_le_stage`).
-/

namespace SampledSeq.HybridSeq

variable {size : Nat} {values : List UInt64}

/-- A block starts with its tag. -/
theorem tag_le_stage (values : List UInt64) (size k : Nat) :
    (stage values size k).writer.len + BlockKind.tagBits ≤
      (stage values size (k + 1)).writer.len := by
  have hclean := (clean_stage values size k).writeBits
    (UInt64.ofNat (kindOf (stage values size k).lo (Blocks.part values size k)).tag)
    (by decide : BlockKind.tagBits ≤ 64)
  have hlist :=
    (BlockKind.write_spec hclean
      (boundAbove_lt (stage values size k).lo (Blocks.part values size k))
    (fits_written (stage values size k).lo (Blocks.part values size k))).2.len_le
  rwa [BitWriter.len_writeBits] at hlist

theorem accepted_built (hs : 0 < size) (hlen : values.length < 2 ^ 56) :
    (built values size).Accepted := by
  have hcount : Blocks.count values.length size ≤ values.length := Blocks.count_le hs
  have hbits := len_stage_lt hlen (Nat.le_refl (Blocks.count values.length size))
  have hentries := (lists_stage values size (Blocks.count values.length size)).size_eq
  have hexact : (built values size).payload.size = BitWriter.wordsFor _ :=
    (clean_stage values size _).exact
  have hlength : (built values size).table.len = 2 * (built values size).numBlocks + 2 := by
    simp only [built, Builder.close, PackedArray.ofList, Array.length_toList, Array.size_push,
      hentries, numBlocks]
  refine ⟨Nat.lt_trans hlen (by decide), ?_, PackedArray.sound_ofList ?_,
    checked_iff.2 ⟨hlength, ?_⟩⟩
  · rw [hexact, BitWriter.wordsFor]
    simp only [Position.limit] at hbits
    omega
  · simp only [Array.length_toList, Array.size_push, hentries, Position.limit, UInt64.size]
    omega
  · refine ⟨_, (table_built hs hlen (Nat.le_refl _)).1, hexact, ?_⟩
    intro k hk
    exact ⟨_, _, (table_built hs hlen (Nat.le_of_lt hk)).1, (table_built hs hlen hk).1,
      tag_le_stage values size k⟩

/-- Any values are built into a sequence, and into only one. -/
theorem built_of_ofList (hs : 0 < size) {s : HybridSeq size}
    (h : (ofList values : Traced (HybridSeq size)).result = .ok s) : built values size = s :=
  Except.ok.inj ((ofList_eq hs values).symm.trans h)

end SampledSeq.HybridSeq
