import SampledSeq.Proofs.DeltaSeq.Stored
import SampledSeq.Proofs.PackedArray

/-!
# Building a delta-coded sequence block by block

As long as no value is too large, all that counts is the blocks that the builder has stored: `stage`
stores block after block, and the builder ends in the stage of the last one (`finish_foldl_push`). A
block leaves its first value and a pointer in the table. Unless it is a run, its differences stand
at that pointer in the payload of every later stage (`stage_prefix`).
-/

namespace SampledSeq.DeltaSeq

variable {codec : Codec} {size : Nat}

/-! ## Storing one block -/

def storedAsRun (codec : Codec) (size : Nat) (block : List UInt32) : Bool :=
  block.length == size && codec.marksRuns && Differences.isRun block

/-- The payload that the next encoded block is appended to. -/
def frontOf (codec : Codec) (payload : Array UInt8) : Array UInt8 :=
  if payload.isEmpty then Array.replicate codec.leadingPadding 0 else payload

/-- The pointer that storing a block leaves in the table. -/
def pointerOf (b : Builder codec size) (block : List UInt32) : UInt64 :=
  if storedAsRun codec size block then runPointer else UInt64.ofNat (frontOf codec b.payload).size

theorem store_run {b : Builder codec size} {block : List UInt32}
    (h : storedAsRun codec size block = true) :
    b.store block =
      { b with
        entries := (b.entries.push (block.headD 0).toUInt64).push runPointer
        runs := b.runs + 1 } := if_pos h

theorem store_encoded {b : Builder codec size} {block : List UInt32}
    (h : ¬ storedAsRun codec size block = true) :
    b.store block =
      { b with
        entries :=
          (b.entries.push (block.headD 0).toUInt64).push
            (UInt64.ofNat (frontOf codec b.payload).size)
        payload :=
          frontOf codec b.payload ++ codec.encode (Differences.ofValues (Builder.padded size block))
        events :=
          b.events ++ Event.ofBlock codec (Differences.ofValues (Builder.padded size block)) } := by
  rw [← Codec.encodeOnto_eq, ← Differences.toList_inPlace (Builder.padded size block).toArray]
  exact if_neg h

theorem store_frame (b : Builder codec size) (block : List UInt32) :
    (b.store block).pending = b.pending ∧ (b.store block).len = b.len ∧
      (b.store block).entries = (b.entries.push (block.headD 0).toUInt64).push
        (pointerOf b block) := by
  by_cases h : storedAsRun codec size block = true
  · rw [store_run h, pointerOf, if_pos h]
    exact ⟨rfl, rfl, rfl⟩
  · rw [store_encoded h, pointerOf, if_neg h]
    exact ⟨rfl, rfl, rfl⟩

theorem prefix_frontOf (codec : Codec) (payload : Array UInt8) :
    payload.toList <+: (frontOf codec payload).toList := by
  unfold frontOf
  split
  · rename_i hempty
    rw [Array.isEmpty_iff.1 hempty]
    exact List.nil_prefix
  · exact List.prefix_rfl

theorem prefix_store (b : Builder codec size) (block : List UInt32) :
    b.payload.toList <+: (b.store block).payload.toList := by
  by_cases h : storedAsRun codec size block = true
  · have hpayload : b.payload = (b.store block).payload := by rw [store_run h]
    exact ⟨[], by rw [List.append_nil, ← hpayload]⟩
  · rw [store_encoded h]
    exact (prefix_frontOf codec b.payload).trans (by simp)

/-! ## Blocks that are filled up -/

theorem length_padded {block : List UInt32} (h : block.length ≤ size) :
    (Builder.padded size block).length = size := by
  rw [Builder.padded, List.length_append, List.length_replicate]
  omega

theorem headD_padded {block : List UInt32} (h : 0 < block.length) :
    (Builder.padded size block).headD 0 = block.headD 0 := by
  cases block with
  | nil => simp at h
  | cons value rest => rfl

/-- An encoded block takes at most thirty-five bytes a slot. -/
theorem length_encode_padded_le (hgranule : codec.granule ∣ size) (hs : 0 < size)
    (h64 : size < 2 ^ 64) {block : List UInt32} (h : block.length ≤ size) :
    (codec.encode (Differences.ofValues (Builder.padded size block))).length ≤ 35 * size := by
  have hlen : (Differences.ofValues (Builder.padded size block)).length = size := by
    rw [Differences.length_ofValues, length_padded h]
  have hle : (codec.encode (Differences.ofValues (Builder.padded size block))).length ≤ _ :=
    Codec.length_encode_le (by rwa [hlen]) (by rwa [hlen])
  rw [hlen] at hle
  omega

/-! ## Stages -/

/-- The builder that has stored the first `k` blocks, and nothing else. -/
def stage (codec : Codec) (values : List UInt32) (size : Nat) : Nat → Builder codec size
  | 0 => {}
  | k + 1 => (stage codec values size k).store (Blocks.part values size k)

/-- The builder that has stored `k` blocks and taken the values `pending` of the next one. -/
def stageWith (codec : Codec) (values : List UInt32) (size k : Nat) (pending : List UInt32) :
    Builder codec size :=
  { stage codec values size k with pending := pending.toArray, len := k * size + pending.length }

variable {values : List UInt32}

theorem stageWith_zero : stageWith codec values size 0 [] = {} := by
  simp [stageWith, stage]

theorem stageWith_push (k : Nat) (pending : List UInt32) (value : UInt32) :
    (stageWith codec values size k pending).push value =
      if pending.length + 1 = size then (stageWith codec values size k (pending ++ [value])).flush
      else stageWith codec values size k (pending ++ [value]) := by
  simp [Builder.push, stageWith, Nat.add_assoc]

/-- Storing what is pending of a block leads to its stage. -/
theorem stageWith_flush (k : Nat) :
    (stageWith codec values size k (Blocks.part values size k)).flush =
      { stage codec values size (k + 1) with
        len := k * size + (Blocks.part values size k).length, pending := #[] } := by
  rw [Builder.flush, stage]
  by_cases h : storedAsRun codec size (Blocks.part values size k) = true
  · simp only [stageWith, store_run h]
  · simp only [stageWith, store_encoded h]

theorem stageWith_close {k : Nat} (h : (Blocks.part values size k).length = size) :
    (stageWith codec values size k (Blocks.part values size k)).flush =
      stageWith codec values size (k + 1) [] := by
  rw [stageWith_flush, h, ← Nat.succ_mul]
  rfl

def Builder.close (b : Builder codec size) (len : Nat) : DeltaSeq codec size where
  len := len
  samples := PackedArray.ofList ((b.entries.push 0).push (UInt64.ofNat b.payload.size)).toList
  payload := b.payload

/-- What a builder of `len` values reports in the end. -/
def Builder.summary (b : Builder codec size) (len : Nat) : Event :=
  .deltaBuilt codec size len (Blocks.count len size) b.runs b.payload.size
    (b.close len).samples.width

/-- The builder ends in the stage of the last block. -/
theorem finish_foldl_push (hs : 0 < size) (values : List UInt32) :
    let last := stage codec values size (Blocks.count values.length size)
    (values.foldl Builder.push {} : Builder codec size).finish =
      ⟨.ok (last.close values.length), (last.events.push (last.summary values.length)).toList⟩ := by
  have hzero : stageWith codec values size 0 [] = {} := stageWith_zero
  have hfold : values.foldl Builder.push {} =
      stageWith codec values size (values.length / size)
      (Blocks.part values size (values.length / size)) :=
    hzero ▸ Blocks.foldl_eq hs stageWith_push fun _ => stageWith_close
  have hrest : (Blocks.part values size (values.length / size)).length = _ := Blocks.length_rest hs
  have hdiv := Nat.div_add_mod' values.length size
  dsimp only
  rw [hfold, Builder.summary, Blocks.count_eq hs, Builder.finish]
  by_cases h0 : values.length % size = 0
  · have hnil : Blocks.part values size (values.length / size) = [] :=
      List.length_eq_zero_iff.1 (hrest.trans h0)
    have hlen : values.length / size * size = values.length := by omega
    simp [h0, hnil, stageWith, Builder.close, hlen, Blocks.count_eq hs]
  · have hne : ¬ (stageWith codec values size (values.length / size)
        (Blocks.part values size (values.length / size))).pending.isEmpty = true := by
      simpa [stageWith, ← List.length_eq_zero_iff, hrest] using h0
    simp only [if_neg hne, if_neg h0, stageWith_flush, hrest, hdiv, Blocks.count_eq hs]
    rfl

/-! ## Values that are too large -/

theorem len_push (b : Builder codec size) (value : UInt32) : (b.push value).len = b.len + 1 := by
  rw [Builder.push]
  dsimp only
  split
  · exact (store_frame _ _).2.1
  · rfl

theorem takeAll_of_le {values : List UInt64} (h : ∀ value ∈ values, value ≤ maxValue)
    (b : Builder codec size) :
    b.takeAll values = ((values.map UInt64.toUInt32).foldl Builder.push b).finish := by
  induction values generalizing b with
  | nil => rfl
  | cons value values ih =>
    rw [Builder.takeAll, if_pos (h value List.mem_cons_self), ih fun v hv =>
      h v (List.mem_cons_of_mem _ hv)]
    rfl

/-- The first value that does not fit is reported with its index, and those before it have been
taken. -/
theorem takeAll_of_lt {values : List UInt64} (b : Builder codec size) {i : Nat}
    (hi : i < values.length) (hlt : maxValue < values[i])
    (hle : ∀ j (hj : j < values.length), j < i → values[j] ≤ maxValue) :
    b.takeAll values = ⟨.error (.valueDomain (b.len + i) values[i] maxValue),
      (((values.take i).map UInt64.toUInt32).foldl Builder.push b).events.toList⟩ := by
  induction values generalizing b i with
  | nil => simp at hi
  | cons value values ih =>
    cases i with
    | zero =>
      have hlarge : ¬ value ≤ maxValue := UInt64.not_le.2 hlt
      rw [Builder.takeAll, if_neg hlarge]
      rfl
    | succ i =>
      have hsmall : value ≤ maxValue := hle 0 (Nat.zero_lt_succ _) (Nat.succ_pos i)
      have hnext := ih (b.push value.toUInt32) (by simpa using hi) hlt fun j hj hlt =>
        hle (j + 1) (Nat.succ_lt_succ hj) (Nat.succ_lt_succ hlt)
      rw [len_push, Nat.add_assoc, Nat.add_comm 1] at hnext
      rw [Builder.takeAll, if_pos hsmall, hnext]
      rfl

/-- Among values that do not all fit there is a first one that does not. -/
theorem exists_first_large : ∀ {values : List UInt64}, (∃ value ∈ values, maxValue < value) →
    ∃ i, ∃ hi : i < values.length, maxValue < values[i] ∧ ∀ j (hj : j < values.length), j < i →
    values[j] ≤ maxValue
  | [], h => by simp at h
  | value :: values, h => by
    by_cases hlarge : maxValue < value
    · exact ⟨0, Nat.zero_lt_succ _, hlarge, fun j _ hj => absurd hj (Nat.not_lt_zero j)⟩
    · obtain ⟨large, hmem, hlt⟩ := h
      have hrest : large ∈ values :=
        (List.mem_cons.1 hmem).resolve_left fun heq => hlarge (heq ▸ hlt)
      obtain ⟨i, hi, hvalue, hbefore⟩ := exists_first_large ⟨large, hrest, hlt⟩
      refine ⟨i + 1, Nat.succ_lt_succ hi, hvalue, ?_⟩
      intro j hj hlt
      cases j with
      | zero => exact UInt64.not_lt.1 hlarge
      | succ j => exact hbefore j (Nat.lt_of_succ_lt_succ hj) (Nat.lt_of_succ_lt_succ hlt)

/-! ## What the stages have stored -/

/-- A later stage still has everything that was encoded. -/
theorem stage_prefix {k n : Nat} (h : k ≤ n) :
    (stage codec values size k).payload.toList <+: (stage codec values size n).payload.toList := by
  induction n, h using Nat.le_induction with
  | base => exact List.prefix_rfl
  | succ n _ ih => exact ih.trans (prefix_store _ _)

theorem lists_stage (codec : Codec) (values : List UInt32) (size : Nat) : ∀ k,
    PackedArray.Lists (stage codec values size k).entries
      (fun i => (((Blocks.part values size i).headD 0).toUInt64,
        pointerOf (stage codec values size i) (Blocks.part values size i))) k
  | 0 => PackedArray.lists_empty _
  | k + 1 => by
    rw [stage, (store_frame _ _).2.2]
    exact (lists_stage codec values size k).push rfl

theorem size_frontOf_le (codec : Codec) (payload : Array UInt8) :
    (frontOf codec payload).size ≤ 1 + payload.size := by
  unfold frontOf
  split
  · cases codec <;> simp [Codec.leadingPadding]
  · omega

/-- Thirty-six bytes a slot are enough. -/
theorem size_stage_le (hgranule : codec.granule ∣ size) (hs : 0 < size) (h64 : size < 2 ^ 64)
    (values : List UInt32) (k : Nat) :
    (stage codec values size k).payload.size ≤ 36 * (k * size) := by
  induction k with
  | zero => exact Nat.zero_le _
  | succ k ih =>
    rw [stage, Nat.succ_mul k size]
    by_cases h : storedAsRun codec size (Blocks.part values size k) = true
    · rw [store_run h]
      dsimp only
      omega
    · have hle := Blocks.length_part_le values size k
      have hblock := length_encode_padded_le hgranule hs h64 hle
      have hfront := size_frontOf_le codec (stage codec values size k).payload
      rw [store_encoded h]
      rw [← Array.length_toList, Array.toList_appendList, List.length_append, Array.length_toList]
      omega

end SampledSeq.DeltaSeq
