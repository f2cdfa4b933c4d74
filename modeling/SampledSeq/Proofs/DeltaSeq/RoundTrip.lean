import SampledSeq.Proofs.DeltaSeq.Build
import SampledSeq.Proofs.DeltaSeq.Stored

/-!
# Delta-coded sequences come back

A run is answered from the table. The differences of any other block stand where its pointer says,
in front of whatever was encoded later, and the codec knows where they end. Either way every value
is found at its index, and the offsets of a block lead back to its values; the slots behind a short
block repeat its last offset. The stored form of a sequence that was built is accepted again.
-/

namespace SampledSeq.DeltaSeq

variable {codec : Codec} {size : Nat} {values : List UInt32}

def built (codec : Codec) (values : List UInt32) (size : Nat) : DeltaSeq codec size :=
  (stage codec values size (Blocks.count values.length size)).close values.length

theorem numBlocks_built (codec : Codec) (values : List UInt32) (size : Nat) :
    (built codec values size).numBlocks = Blocks.count values.length size := rfl

/-! ## The sample table -/

/-- What the sample table lists: first value and pointer of every block, and behind them 0 and the
payload length. -/
def entryOf (codec : Codec) (values : List UInt32) (size k : Nat) : UInt64 × UInt64 :=
  if k < Blocks.count values.length size then
    (((Blocks.part values size k).headD 0).toUInt64,
      pointerOf (stage codec values size k) (Blocks.part values size k))
  else (0, UInt64.ofNat (built codec values size).payload.size)

theorem entries_built (codec : Codec) (hs : 0 < size) (hlen : values.length < 2 ^ 56) {k : Nat}
    (hk : k ≤ Blocks.count values.length size) :
    (built codec values size).sampleEntry k = .ok (entryOf codec values size k).1 ∧
      (built codec values size).pointer k = .ok (entryOf codec values size k).2 := by
  have hcount : Blocks.count values.length size ≤ values.length := Blocks.count_le hs
  have hlists :
      PackedArray.Lists _ (entryOf codec values size) (Blocks.count values.length size + 1) :=
    ((lists_stage codec values size (Blocks.count values.length size)).congr fun i hi =>
      (if_pos hi).symm).push
      (if_neg (Nat.lt_irrefl _))
  obtain ⟨hsample, hpointer⟩ :=
    hlists.get_ofList (by simp only [Position.limit, UInt64.size]; omega)
      (Nat.lt_succ_of_le hk)
  have hposition : 2 * k + 1 < Position.limit := by
    simp only [Position.limit, UInt64.size]
    omega
  constructor
  · rw [sampleEntry, Position.checked_eq_ok (Nat.lt_of_succ_lt hposition), ok_bind, ← hsample]
    rfl
  · rw [DeltaSeq.pointer, Position.checked_eq_ok hposition, ok_bind, ← hpointer]
    rfl

theorem table_built (codec : Codec) (hs : 0 < size) (hlen : values.length < 2 ^ 56) {k : Nat}
    (hk : k < Blocks.count values.length size) :
    (built codec values size).sampleEntry k = .ok ((Blocks.part values size k).headD 0).toUInt64 ∧
      (built codec values size).pointer k =
        .ok (pointerOf (stage codec values size k) (Blocks.part values size k)) := by
  have hentries := entries_built codec hs hlen (Nat.le_of_lt hk)
  rwa [entryOf, if_pos hk] at hentries

theorem sentinel_built (codec : Codec) (hs : 0 < size) (hlen : values.length < 2 ^ 56) :
    (built codec values size).pointer (built codec values size).numBlocks =
      .ok (UInt64.ofNat (built codec values size).payload.size) := by
  have hentries := entries_built codec hs hlen (Nat.le_refl _)
  rw [entryOf, if_neg (Nat.lt_irrefl _)] at hentries
  exact hentries.2

/-! ## Encoded blocks -/

theorem size_frontOf_lt (hgranule : codec.granule ∣ size) (hs : 0 < size) (h64 : size < 2 ^ 64)
    (hlen : values.length < 2 ^ 56) {k : Nat} (hk : k < Blocks.count values.length size) :
    (frontOf codec (stage codec values size k).payload).size < UInt64.size := by
  have hfront := size_frontOf_le codec (stage codec values size k).payload
  have hstage := size_stage_le hgranule hs h64 values k
  have hlt := (Blocks.lt_count_iff hs).1 hk
  simp only [UInt64.size]
  omega

/-- The pointer of an encoded block is not taken for that of a run. -/
theorem marksRun_front {payload : Array UInt8} (h : (frontOf codec payload).size < UInt64.size) :
    ¬ marksRun codec (UInt64.ofNat (frontOf codec payload).size) = true := by
  cases codec with
  | fixedWidth => simp [marksRun, Codec.marksRuns]
  | patched =>
    have hpos : 0 < (frontOf .patched payload).size := by
      unfold frontOf
      split
      · simp [Codec.leadingPadding]
      · rename_i hne
        exact Array.size_pos_iff.2 fun h => hne (by simp [h])
    intro hrun
    have hzero := congrArg UInt64.toNat (beq_iff_eq.1 (Bool.and_eq_true _ _ ▸ hrun).2)
    rw [UInt64.toNat_ofNat_of_lt' h] at hzero
    exact absurd hzero (Nat.ne_of_gt hpos)

/-- Differences are read where they were encoded, whatever lies before and behind them. -/
theorem deltasAt_of_payload {s : DeltaSeq codec size} {pointer : UInt64} {front rest : List UInt8}
    {deltas : List UInt32} (hpayload : s.payload.toList = front ++ (codec.encode deltas ++ rest))
    (hpointer : pointer.toNat = front.length) (hgranule : codec.granule ∣ size)
    (h64 : size < 2 ^ 64) (hlen : deltas.length = size) :
    s.deltasAt pointer = .ok deltas := by
  have hsize := congrArg List.length hpayload
  simp only [List.length_append, Array.length_toList] at hsize
  have hdata :
      (s.payload.extract pointer.toNat s.payload.size).toList = codec.encode deltas ++ rest := by
    rw [Array.toList_extract, hpayload, List.extract_eq_take_drop, List.drop_left' hpointer.symm]
    exact List.take_of_length_le (by rw [List.length_append]; omega)
  rw [deltasAt, if_pos (by omega)]
  simp only [hdata]
  rw [Codec.decode_encode (by rwa [hlen]) (by rwa [hlen]) (by rw [List.length_replicate, hlen])]
  rfl

/-- An encoded block stands behind everything that was encoded before it. -/
theorem payload_built {k : Nat} (hk : k < Blocks.count values.length size)
    (hrun : ¬ storedAsRun codec size (Blocks.part values size k) = true) :
    ∃ rest, (built codec values size).payload.toList =
      (frontOf codec (stage codec values size k).payload).toList ++
      (codec.encode (Differences.ofValues (Builder.padded size (Blocks.part values size k))) ++
        rest) := by
  obtain ⟨rest, hrest⟩ :
      (stage codec values size (k + 1)).payload.toList <+:
        (built codec values size).payload.toList :=
    stage_prefix hk
  rw [stage, store_encoded hrun, Array.toList_appendList, List.append_assoc] at hrest
  exact ⟨rest, hrest.symm⟩

theorem length_deltas (values : List UInt32) (size k : Nat) :
    (Differences.ofValues (Builder.padded size (Blocks.part values size k))).length = size := by
  rw [Differences.length_ofValues, length_padded (Blocks.length_part_le _ _ _)]

theorem deltasAt_built (hgranule : codec.granule ∣ size) (hs : 0 < size) (h64 : size < 2 ^ 64)
    (hlen : values.length < 2 ^ 56) {k : Nat} (hk : k < Blocks.count values.length size)
    (hrun : ¬ storedAsRun codec size (Blocks.part values size k) = true) :
    (built codec values size).deltasAt
      (UInt64.ofNat (frontOf codec (stage codec values size k).payload).size) =
      .ok (Differences.ofValues (Builder.padded size (Blocks.part values size k))) := by
  have hfront := size_frontOf_lt hgranule hs h64 hlen hk
  obtain ⟨rest, hpayload⟩ := payload_built hk hrun
  refine deltasAt_of_payload hpayload ?_ hgranule h64 (length_deltas values size k)
  rw [UInt64.toNat_ofNat_of_lt' hfront, Array.length_toList]

/-! ## Values and blocks -/

theorem storedAsRun_iff {block : List UInt32} : storedAsRun codec size block = true ↔
    block.length = size ∧ codec.marksRuns = true ∧ Differences.isRun block = true := by
  simp [storedAsRun, and_assoc]

theorem getElem_padded {block : List UInt32} {j : Nat} (hj : j < block.length)
    (hj' : j < (Builder.padded size block).length) : (Builder.padded size block)[j] = block[j] :=
  List.getElem_append_left hj

theorem run_end_le {block : List UInt32} (h : Differences.isRun block = true)
    (h0 : 0 < block.length) :
    (block.headD 0).toUInt64.toNat + (block.length - 1) ≤ maxValue.toNat := by
  have hlast := Differences.toNat_getElem_of_isRun h (block.length - 1) (by omega)
  have hlt := block[block.length - 1].toNat_lt
  have hmax : maxValue.toNat = 2 ^ 32 - 1 := rfl
  rw [UInt32.toNat_toUInt64]
  omega

theorem toNat_le_maxValue (value : UInt32) : value.toUInt64.toNat ≤ maxValue.toNat := by
  have hlt := value.toNat_lt
  have hmax : maxValue.toNat = 2 ^ 32 - 1 := rfl
  rw [UInt32.toNat_toUInt64]
  omega

theorem get_block (hgranule : codec.granule ∣ size) (hs : 0 < size) (h64 : size < 2 ^ 64)
    (hlen : values.length < 2 ^ 56) {k : Nat} (hk : k < Blocks.count values.length size) {j : Nat}
    (hj : j < (Blocks.part values size k).length) :
    (built codec values size).get (k * size + j) = .ok (Blocks.part values size k)[j].toUInt64 := by
  obtain ⟨hsample, hpointer⟩ := table_built codec hs hlen hk
  have hcount : j < Blocks.length (built codec values size).len size k := by
    rwa [Blocks.length_part] at hj
  rw [pointerOf] at hpointer
  by_cases hrun : storedAsRun codec size (Blocks.part values size k) = true
  · obtain ⟨hfull, hmarks, hisRun⟩ := storedAsRun_iff.1 hrun
    rw [if_pos hrun] at hpointer
    have hmax := run_end_le hisRun (Nat.zero_lt_of_lt hj)
    rw [hfull] at hmax
    rw [get_run hcount hsample hpointer hmax (by simp [marksRun, hmarks]),
      Differences.getElem_of_isRun hisRun j hj]
  · rw [if_neg hrun] at hpointer
    have hfront := size_frontOf_lt hgranule hs h64 hlen hk
    have hhead : (Builder.padded size (Blocks.part values size k)).headD 0 = _ :=
      headD_padded (Nat.zero_lt_of_lt hj)
    have hlt : j < (Builder.padded size (Blocks.part values size k)).length := by
      rw [Builder.padded, List.length_append]
      omega
    rw [get_encoded hcount hsample hpointer (toNat_le_maxValue _) (marksRun_front hfront)
      (deltasAt_built hgranule hs h64 hlen hk hrun), UInt32.toUInt32_toUInt64,
      ← hhead, Differences.valueAt_ofValues _ j hlt, getElem_padded hj]

theorem getLastD_map {block : List UInt32} (f : UInt32 → UInt64) (h : 0 < block.length) :
    (block.map f).getLastD 0 = f (block.getLastD 0) := by
  rw [Blocks.getLastD_eq_getElem h, Blocks.getLastD_eq_getElem (by rwa [List.length_map])]
  simp only [List.getElem_map, List.length_map]

/-- A block is decoded to the offsets of its values, filled up with the last of them. -/
theorem offsets_block (hgranule : codec.granule ∣ size) (hs : 0 < size) (h64 : size < 2 ^ 64)
    (hlen : values.length < 2 ^ 56) {k : Nat} (hk : k < Blocks.count values.length size)
    {offs : List UInt64}
    (hoffs : offs = (Blocks.part values size k).map fun value =>
      value.toUInt64 - ((Blocks.part values size k).headD 0).toUInt64) :
    (built codec values size).offsets k =
      .ok (offs ++ List.replicate (size - offs.length) (offs.getLastD 0)) := by
  obtain ⟨hsample, hpointer⟩ := table_built codec hs hlen hk
  have h0 := Blocks.length_part_pos hk
  rw [pointerOf] at hpointer
  rw [DeltaSeq.offsets, hsample, ok_bind, hpointer, ok_bind]
  by_cases hrun : storedAsRun codec size (Blocks.part values size k) = true
  · obtain ⟨hfull, hmarks, hisRun⟩ := storedAsRun_iff.1 hrun
    have hcount := Differences.offsets_run hisRun
    rw [hfull] at hcount
    rw [if_pos hrun, if_pos (by simp [marksRun, hmarks]), hcount, hoffs, List.length_map, hfull,
      Nat.sub_self, List.replicate_zero, List.append_nil, pure_eq_ok]
  · have hfront := size_frontOf_lt hgranule hs h64 hlen hk
    have hhead : (Builder.padded size (Blocks.part values size k)).headD 0 = _ := headD_padded h0
    rw [if_neg hrun, if_neg (marksRun_front hfront), deltasAt_built hgranule hs h64 hlen hk hrun,
      ok_bind, UInt32.toUInt32_toUInt64, ← hhead, Differences.offsets_ofValues, hhead, hoffs,
      Builder.padded, List.map_append, List.map_replicate, List.length_map, getLastD_map _ h0,
      pure_eq_ok]

/-! ## 64-bit values -/

theorem exists_narrow {values : List UInt64} (h : ∀ value ∈ values, value ≤ maxValue) :
    ∃ narrow : List UInt32, values = narrow.map UInt32.toUInt64 := by
  refine ⟨values.map UInt64.toUInt32, ?_⟩
  rw [List.map_map]
  conv => lhs; rw [← List.map_id values]
  exact List.map_congr_left fun value hvalue =>
    (toUInt64_toUInt32 (UInt64.le_iff_toNat_le.1 (h value hvalue))).symm

theorem narrow_or_large (values : List UInt64) :
    (∃ narrow : List UInt32, values = narrow.map UInt32.toUInt64) ∨
    ∃ value ∈ values, maxValue < value := by
  by_cases hlarge : ∃ value ∈ values, maxValue < value
  · exact .inr hlarge
  · exact .inl (exists_narrow fun value hvalue => UInt64.not_lt.1 fun hlt =>
      hlarge ⟨value, hvalue, hlt⟩)

theorem map_toUInt32_map (narrow : List UInt32) :
    (narrow.map UInt32.toUInt64).map UInt64.toUInt32 = narrow := by
  simp only [List.map_map, Function.comp_def, UInt32.toUInt32_toUInt64, List.map_id']

theorem ofList_traced (codec : Codec) (hs : 0 < size) (narrow : List UInt32) :
    let last := stage codec narrow size (Blocks.count narrow.length size)
    (ofList (narrow.map UInt32.toUInt64) : Traced (DeltaSeq codec size)) =
      ⟨.ok (built codec narrow size), (last.events.push (last.summary narrow.length)).toList⟩ := by
  have hle : ∀ value ∈ narrow.map UInt32.toUInt64, value ≤ maxValue := fun value hvalue => by
    obtain ⟨value, -, rfl⟩ := List.mem_map.1 hvalue
    exact UInt64.le_iff_toNat_le.2 (toNat_le_maxValue value)
  rw [ofList, takeAll_of_le hle, map_toUInt32_map]
  exact finish_foldl_push hs narrow

theorem ofList_narrow (codec : Codec) (hs : 0 < size) (narrow : List UInt32) :
    (ofList (narrow.map UInt32.toUInt64) : Traced (DeltaSeq codec size)).result =
      .ok (built codec narrow size) :=
  congrArg Traced.result (ofList_traced codec hs narrow)

/-- Of values that do not all fit, the first one that does not is reported. -/
theorem ofList_large (codec : Codec) (size : Nat) {values : List UInt64}
    (h : ∃ value ∈ values, maxValue < value) :
    ∃ i, ∃ hi : i < values.length, maxValue < values[i] ∧
      (∀ j (hj : j < values.length), j < i → values[j] ≤ maxValue) ∧
      (ofList values : Traced (DeltaSeq codec size)).result =
        .error (.valueDomain i values[i] maxValue) := by
  obtain ⟨i, hi, hlarge, hbefore⟩ := exists_first_large h
  have herror := congrArg Traced.result (takeAll_of_lt ({} : Builder codec size) hi hlarge hbefore)
  rw [Nat.zero_add] at herror
  exact ⟨i, hi, hlarge, hbefore, herror⟩

/-- Values that fit are built into a sequence that gives them back. -/
theorem built_comes_back (hgranule : codec.granule ∣ size) (hs : 0 < size) (h64 : size < 2 ^ 64)
    (hlen : values.length < 2 ^ 56) :
    (∀ i (hi : i < values.length), (built codec values size).get i = .ok values[i].toUInt64) ∧
      ∀ id < (built codec values size).numBlocks, ∃ h : id * size < values.length,
        (built codec values size).sample id = .ok values[id * size].toUInt64 ∧
        ∀ buffer : Array UInt64, size ≤ buffer.size →
          BlockSequence.Decoded (values.map UInt32.toUInt64) size id values[id * size].toUInt64
            (BlockSequence.decodeBlock (built codec values size) id buffer) := by
  constructor
  · intro i hi
    have hj : i % size < (Blocks.part values size (i / size)).length :=
      Blocks.mod_lt_length_part hs hi
    have hget := get_block hgranule hs h64 hlen (Blocks.div_lt_count hs hi) hj
    simpa only [Blocks.getElem_part hj, Nat.div_add_mod'] using hget
  · intro id hid
    have hlt : id * size < values.length := (Blocks.lt_count_iff hs).1 hid
    have hhead : (Blocks.part values size id).headD 0 = values[id * size] := by
      rw [Blocks.headD_part 0 hid, List.getD_eq_getElem _ _ hlt]
    refine ⟨hlt, ?_, ?_⟩
    · rw [sample_eq_entry hid, (table_built codec hs hlen hid).1, hhead]
    · intro buffer hb
      have hoffs : ((Blocks.part values size id).map fun value =>
          value.toUInt64 - ((Blocks.part values size id).headD 0).toUInt64) =
          (Blocks.part (values.map UInt32.toUInt64) size id).map
            (· - values[id * size].toUInt64) := by
        rw [hhead, Blocks.part_map, List.map_map]
        rfl
      exact BlockSequence.decoded_of_offsets (s := built codec values size) hid hb
        (List.length_map _).symm hoffs
        (offsets_block hgranule hs h64 hlen hid rfl)

/-- A delta-coded sequence can be built exactly of values that fit, and they come back: each at its
index, and each block as the offsets of its values from the first one. Of other values, the first
one that does not fit is reported. -/
theorem narrow_values_come_back (hgranule : codec.granule ∣ size) (hs : 0 < size)
    (h64 : size < 2 ^ 64) (values : List UInt64) (hlen : values.length < 2 ^ 56) :
    ((∃ s, (ofList values : Traced (DeltaSeq codec size)).result = .ok s) ↔
      ∀ value ∈ values, value ≤ maxValue) ∧
      ((∃ value ∈ values, maxValue < value) → ∃ i, ∃ hi : i < values.length, maxValue < values[i] ∧
        (∀ j (hj : j < values.length), j < i → values[j] ≤ maxValue) ∧
        (ofList values : Traced (DeltaSeq codec size)).result =
          .error (.valueDomain i values[i] maxValue)) ∧
      ∀ s, (ofList values : Traced (DeltaSeq codec size)).result = .ok s →
        s.len = values.length ∧ (∀ i (hi : i < values.length), s.get i = .ok values[i]) ∧
        ∀ id < s.numBlocks, ∃ h : id * size < values.length, s.sample id = .ok values[id * size] ∧
          ∀ buffer : Array UInt64, size ≤ buffer.size →
            BlockSequence.Decoded values size id values[id * size]
            (BlockSequence.decodeBlock s id buffer) := by
  have hfits : ∀ s, (ofList values : Traced (DeltaSeq codec size)).result = .ok s →
      ∃ narrow : List UInt32, values = narrow.map UInt32.toUInt64 := fun s hresult => by
    apply exists_narrow
    intro value hvalue
    by_contra hlarge
    obtain ⟨i, hi, -, -, herror⟩ := ofList_large codec size ⟨value, hvalue, UInt64.not_le.1 hlarge⟩
    cases hresult.symm.trans herror
  refine ⟨⟨?_, ?_⟩, ofList_large codec size, ?_⟩
  · rintro ⟨s, hresult⟩ value hvalue
    obtain ⟨narrow, rfl⟩ := hfits s hresult
    obtain ⟨value, -, rfl⟩ := List.mem_map.1 hvalue
    exact UInt64.le_iff_toNat_le.2 (toNat_le_maxValue value)
  · intro h
    obtain ⟨narrow, rfl⟩ := exists_narrow h
    exact ⟨_, ofList_narrow codec hs narrow⟩
  · intro s hresult
    obtain ⟨narrow, rfl⟩ := hfits s hresult
    obtain rfl : built codec narrow size = s :=
      Except.ok.inj ((ofList_narrow codec hs narrow).symm.trans hresult)
    rw [List.length_map] at hlen
    obtain ⟨hget, hblock⟩ := built_comes_back hgranule hs h64 hlen
    simp only [List.getElem_map, List.length_map]
    exact ⟨rfl, hget, hblock⟩

theorem three_narrow_values_come_back : ∃ s : DeltaSeq .patched 32,
    (ofList [5, 3, 9] : Traced (DeltaSeq .patched 32)).result = .ok s ∧ s.get 1 = .ok 3 ∧
      s.sample 0 = .ok 5 ∧
      (BlockSequence.decodeBlock s 0 (Array.replicate 32 0)).1 = .ok 3 := by
  have hgranule : Codec.patched.granule ∣ 32 := by decide
  have hfits : ∀ value ∈ ([5, 3, 9] : List UInt64), value ≤ maxValue := by
    simp [maxValue]
  obtain ⟨hbuilds, -, hback⟩ :=
    narrow_values_come_back hgranule (by decide) (by decide) [5, 3, 9]
      (by decide : [5, 3, 9].length < 2 ^ 56)
  obtain ⟨s, hs⟩ := hbuilds.2 hfits
  obtain ⟨hlen, hget, hblock⟩ := hback s hs
  obtain ⟨_, hsample, hdecoded⟩ := hblock 0 (by rw [numBlocks, hlen]; decide)
  exact ⟨s, hs, hget 1 (by decide), hsample, (hdecoded _ (by simp)).count_eq⟩

end SampledSeq.DeltaSeq

/-!
## What was built is accepted

The check of the sample table walks over the blocks with the last pointer that it has seen. For a
sequence that was built the pointer of an encoded block is where the payload ended before it,
padding included (`frontOf`), and that never moves back from stage to stage: so the check finds
every pointer in order (`checkBlocks_of_front`).
-/

namespace SampledSeq.DeltaSeq

variable {codec : Codec} {size : Nat} {values : List UInt32}

/-! ### Pointers in order -/

/-- Pointers that follow a front which does not move back pass the check. -/
theorem checkBlocks_of_front {s : DeltaSeq codec size} (front : Nat → Nat)
    (hfront : ∀ k, front k ≤ front (k + 1))
    {remaining id : Nat} {previous : UInt64} (hprevious : previous.toNat ≤ front id)
    (h : ∀ k, id ≤ k → k < id + remaining → ∃ sample pointer, s.sampleEntry k = .ok sample ∧
      s.pointer k = .ok pointer ∧
      tableMax codec size sample pointer ≤ maxValue.toNat ∧ (¬ marksRun codec pointer = true →
        pointer.toNat = front k ∧ codec.leadingPadding ≤ front k ∧ front k < s.payload.size)) :
    s.checkBlocks remaining id previous = .ok () := by
  -- the last pointer that was seen stays at the front of the block at hand or before it, over runs
  -- too
  induction remaining generalizing id previous with
  | zero => rfl
  | succ remaining ih =>
    obtain ⟨sample, pointer, hsample, hpointer, hmax, hencoded⟩ := h id (Nat.le_refl _) (by omega)
    have hrest : ∀ previous : UInt64, previous.toNat ≤ front id →
        s.checkBlocks remaining (id + 1) previous = .ok () :=
      fun previous hprevious => ih (Nat.le_trans hprevious (hfront id)) fun k hle hlt =>
        h k (by omega) (by omega)
    rw [checkBlocks, hsample, ok_bind, hpointer, ok_bind]
    refine check_eq_ok.2 ⟨Nat.not_lt_of_le hmax, ?_⟩
    by_cases hrun : marksRun codec pointer = true
    · rw [if_pos hrun]
      exact hrest previous hprevious
    · obtain ⟨hpointer, hpadding, hlt⟩ := hencoded hrun
      rw [if_neg hrun]
      refine check_eq_ok.2 ⟨?_, hrest pointer (Nat.le_of_eq hpointer)⟩
      rw [UInt64.lt_iff_toNat_lt, hpointer]
      omega

/-! ### The front of the payload -/

theorem size_le_size_frontOf (codec : Codec) (payload : Array UInt8) :
    payload.size ≤ (frontOf codec payload).size := by
  simpa using (prefix_frontOf codec payload).length_le

theorem leadingPadding_le (codec : Codec) (payload : Array UInt8) :
    codec.leadingPadding ≤ (frontOf codec payload).size := by
  unfold frontOf
  split
  · simp
  · rename_i hne
    have hpos : 0 < payload.size := Array.size_pos_iff.2 fun h => hne (by simp [h])
    cases codec <;> simp only [Codec.leadingPadding] <;> omega

theorem size_store_encoded {b : Builder codec size} {block : List UInt32}
    (h : ¬ storedAsRun codec size block = true) :
    (b.store block).payload.size = (frontOf codec b.payload).size +
      (codec.encode (Differences.ofValues (Builder.padded size block))).length := by
  rw [store_encoded h, ← Array.length_toList, Array.toList_appendList, List.length_append,
    Array.length_toList]

theorem front_le_store (b : Builder codec size) (block : List UInt32) :
    (frontOf codec b.payload).size ≤ (frontOf codec (b.store block).payload).size := by
  by_cases h : storedAsRun codec size block = true
  · rw [store_run h]
  · have hsize := size_store_encoded (b := b) h
    have hle := size_le_size_frontOf codec (b.store block).payload
    omega

theorem front_lt_store (hs : 0 < size) (b : Builder codec size) {block : List UInt32}
    (hle : block.length ≤ size) (h : ¬ storedAsRun codec size block = true) :
    (frontOf codec b.payload).size < (b.store block).payload.size := by
  have hlen := (Differences.length_ofValues (Builder.padded size block)).trans (length_padded hle)
  have hne : Differences.ofValues (Builder.padded size block) ≠ [] :=
    List.length_pos_iff.1 (by omega)
  have hpos : 0 < (codec.encode (Differences.ofValues (Builder.padded size block))).length :=
    List.length_pos_iff.2 (Codec.encode_ne_nil hne)
  rw [size_store_encoded h]
  omega

theorem size_stage_mono {k n : Nat} (h : k ≤ n) :
    (stage codec values size k).payload.size ≤ (stage codec values size n).payload.size := by
  have hstart :
      (stage codec values size k).payload.toList <+: (stage codec values size n).payload.toList :=
    stage_prefix h
  simpa using hstart.length_le

/-! ### Lengths -/

/-- Filling up the last block takes next to nothing, whatever the block size. -/
theorem length_encode_filled_le (hgranule : codec.granule ∣ size) (h64 : size < 2 ^ 64)
    {block : List UInt32} (h0 : 0 < block.length) (hle : block.length ≤ size) :
    (codec.encode (Differences.ofValues (Builder.padded size block))).length ≤
      size / 128 + 20 * block.length + 512 := by
  have hlen := (Differences.length_ofValues (Builder.padded size block)).trans (length_padded hle)
  have hzeros : ∀ delta ∈ (Differences.ofValues (Builder.padded size block)).drop block.length,
      delta = 0 := by
    rw [Builder.padded, Differences.ofValues_append_replicate h0,
      List.drop_left' (Differences.length_ofValues block)]
    exact fun delta hdelta => List.eq_of_mem_replicate hdelta
  rw [← hlen] at hgranule h64
  refine Nat.le_trans (Codec.length_encode_le_of_zeros hgranule h64 hzeros) ?_
  rw [hlen]

theorem size_payload_lt (hgranule : codec.granule ∣ size) (hs : 0 < size) (h64 : size < 2 ^ 64)
    (hlen : values.length < 2 ^ 56) : (built codec values size).payload.size < UInt64.size := by
  show (stage codec values size (Blocks.count values.length size)).payload.size < UInt64.size
  cases hcount : Blocks.count values.length size with
  | zero => exact Nat.zero_lt_succ _
  | succ k =>
    have hk : k < Blocks.count values.length size := by omega
    have hlt := (Blocks.lt_count_iff hs).1 hk
    have hstage := size_stage_le hgranule hs h64 values k
    have hfront := size_frontOf_le codec (stage codec values size k).payload
    have hblock := Blocks.length_part_le values size k
    have hpos := Blocks.length_part_pos hk
    have hrest : (Blocks.part values size k).length ≤ values.length := by
      rw [Blocks.length_part]
      exact Nat.le_trans (Nat.min_le_left _ _) (Nat.sub_le _ _)
    rw [stage]
    by_cases h : storedAsRun codec size (Blocks.part values size k) = true
    · rw [store_run h]
      simp only [UInt64.size]
      omega
    · have hencode := length_encode_filled_le hgranule h64 hpos hblock
      rw [size_store_encoded h]
      simp only [UInt64.size]
      omega

/-! ### The check -/

theorem block_checked (hgranule : codec.granule ∣ size) (hs : 0 < size) (h64 : size < 2 ^ 64)
    (hlen : values.length < 2 ^ 56) {k : Nat} (hk : k < Blocks.count values.length size) :
    ∃ sample pointer, (built codec values size).sampleEntry k = .ok sample ∧
      (built codec values size).pointer k = .ok pointer ∧
      tableMax codec size sample pointer ≤ maxValue.toNat ∧
      (¬ marksRun codec pointer = true →
        pointer.toNat = (frontOf codec (stage codec values size k).payload).size ∧
        codec.leadingPadding ≤ (frontOf codec (stage codec values size k).payload).size ∧
        (frontOf codec (stage codec values size k).payload).size <
          (built codec values size).payload.size) := by
  obtain ⟨hsample, hpointer⟩ := table_built codec hs hlen hk
  have hle := Blocks.length_part_le values size k
  have hpos := Blocks.length_part_pos hk
  refine ⟨_, _, hsample, hpointer, ?_⟩
  rw [pointerOf, tableMax]
  by_cases hrun : storedAsRun codec size (Blocks.part values size k) = true
  · obtain ⟨hfull, hmarks, hisRun⟩ := storedAsRun_iff.1 hrun
    have hmarked : marksRun codec runPointer = true := by simp [marksRun, hmarks]
    have hend := run_end_le hisRun hpos
    rw [hfull] at hend
    rw [if_pos hrun, if_pos hmarked]
    exact ⟨hend, fun h => absurd hmarked h⟩
  · have hlt := size_frontOf_lt hgranule hs h64 hlen hk
    have hstored := front_lt_store hs (stage codec values size k) hle hrun
    have hpayload :
        (stage codec values size (k + 1)).payload.size ≤ (built codec values size).payload.size :=
      size_stage_mono hk
    rw [if_neg hrun, if_neg (marksRun_front hlt), UInt64.toNat_ofNat_of_lt' hlt]
    exact ⟨toNat_le_maxValue _, fun _ =>
      ⟨rfl, leadingPadding_le _ _, Nat.lt_of_lt_of_le hstored hpayload⟩⟩

theorem accepted_built (hgranule : codec.granule ∣ size) (hs : 0 < size) (h64 : size < 2 ^ 64)
    (hlen : values.length < 2 ^ 56) : (built codec values size).Accepted := by
  have hcount : Blocks.count values.length size ≤ values.length := Blocks.count_le hs
  have hpayload := size_payload_lt hgranule hs h64 hlen
  have hentries := (lists_stage codec values size (Blocks.count values.length size)).size_eq
  have hlength :
      (built codec values size).samples.len = 2 * (built codec values size).numBlocks + 2 := by
    simp only [built, Builder.close, PackedArray.ofList, Array.length_toList, Array.size_push,
      hentries, numBlocks]
  refine ⟨Nat.lt_trans hlen (by decide), hpayload, PackedArray.sound_ofList ?_, ?_⟩
  · simp only [Array.length_toList, Array.size_push, hentries, Position.limit, UInt64.size]
    omega
  · have hposition : 2 * (built codec values size).numBlocks + 2 < Position.limit := by
      simp only [numBlocks_built, Position.limit, UInt64.size]
      omega
    rw [check, Position.checked_eq_ok hposition, ok_bind]
    refine check_eq_ok.2 ⟨not_not.2 hlength, ?_⟩
    rw [sentinel_built codec hs hlen, ok_bind, UInt64.toNat_ofNat_of_lt' hpayload]
    refine check_eq_ok.2 ⟨not_not.2 rfl, ?_⟩
    refine checkBlocks_of_front (fun k => (frontOf codec (stage codec values size k).payload).size)
      (fun k => front_le_store _ _) (Nat.zero_le _) fun k _ hk =>
        block_checked hgranule hs h64 hlen ?_
    rwa [Nat.zero_add] at hk

/-- Only values that fit are built into a sequence. -/
theorem exists_built_of_ofList (hs : 0 < size) {values : List UInt64} {s : DeltaSeq codec size}
    (h : (ofList values : Traced (DeltaSeq codec size)).result = .ok s) :
    ∃ narrow : List UInt32, values = narrow.map UInt32.toUInt64 ∧ built codec narrow size = s := by
  obtain ⟨narrow, rfl⟩ | hlarge := narrow_or_large values
  · exact ⟨narrow, rfl, Except.ok.inj ((ofList_narrow codec hs narrow).symm.trans h)⟩
  · obtain ⟨i, hi, -, -, herror⟩ := ofList_large codec size hlarge
    cases herror.symm.trans h

end SampledSeq.DeltaSeq
