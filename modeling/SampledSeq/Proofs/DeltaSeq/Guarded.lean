import SampledSeq.Proofs.Codec.Delimited
import SampledSeq.Proofs.DeltaSeq.Stored

/-!
# Delta-coded sequences from arbitrary bytes

The payload of a sequence that was loaded may hold anything. The sample table does not: the check
leaves it with a sample and a pointer for every block, whose values are 32-bit and whose data starts
inside the payload (`Entry`). That is all that an access relies on.
-/

namespace SampledSeq.DeltaSeq

variable {codec : Codec} {size : Nat} {s : DeltaSeq codec size}

/-! ## Loading -/

theorem size_ge (hgranule : codec.granule ∣ size) (hs : 0 < size) : 32 ≤ size := by
  have hle := Nat.le_of_dvd hs hgranule
  cases codec with
  | fixedWidth => exact Nat.le_trans (by decide) hle
  | patched => exact hle

/-- Blocks are so large that the sample table can be addressed, however many values the stream
announces. -/
theorem table_lt (hgranule : codec.granule ∣ size) (hs : 0 < size) (hlen : s.len < UInt64.size) :
    2 * s.numBlocks + 2 < Position.limit := by
  have hdiv := Nat.div_le_div_left (size_ge hgranule hs) (by decide : 0 < 32) (a := s.len)
  rw [numBlocks, Position.limit, Blocks.count_eq hs]
  simp only [UInt64.size] at hlen ⊢
  split <;> omega

theorem entry_ok (hsound : s.samples.Sound) (hlen : s.samples.len = 2 * s.numBlocks + 2) {id : Nat}
    (hid : id ≤ s.numBlocks) :
    (∃ sample, s.sampleEntry id = .ok sample) ∧ ∃ pointer, s.pointer id = .ok pointer := by
  have hlt := hsound.len_lt
  obtain ⟨sample, hsample⟩ := hsound.get_ok (by omega : 2 * id < s.samples.len)
  obtain ⟨pointer, hpointer⟩ := hsound.get_ok (by omega : 2 * id + 1 < s.samples.len)
  constructor
  · exact ⟨sample, by rw [sampleEntry, Position.checked_eq_ok (by omega), ok_bind, hsample]⟩
  · exact ⟨pointer, by rw [DeltaSeq.pointer, Position.checked_eq_ok (by omega), ok_bind, hpointer]⟩

theorem guarded_checkBlocks (hsound : s.samples.Sound) (hlen : s.samples.len = 2 * s.numBlocks + 2)
    {remaining id : Nat} (hid : id + remaining ≤ s.numBlocks) (previous : UInt64) :
    Guarded (fun _ => True) (s.checkBlocks remaining id previous) := by
  induction remaining generalizing id previous with
  | zero => exact .ok trivial
  | succ remaining ih =>
    obtain ⟨⟨sample, hsample⟩, pointer, hpointer⟩ :=
      entry_ok hsound hlen (by omega : id ≤ s.numBlocks)
    have hrest := fun previous => ih (by omega : id + 1 + remaining ≤ s.numBlocks) previous
    rw [checkBlocks, hsample, ok_bind, hpointer, ok_bind]
    refine .check fun _ => ?_
    split
    · exact hrest previous
    · exact .check fun _ => hrest pointer

theorem guarded_check (hsound : s.samples.Sound) (htable : 2 * s.numBlocks + 2 < Position.limit) :
    Guarded (fun _ => True) s.check := by
  rw [check, Position.checked_eq_ok htable, ok_bind]
  refine .check fun hlen => ?_
  have hlen := not_not.1 hlen
  obtain ⟨-, sentinel, hsentinel⟩ := entry_ok hsound hlen (Nat.le_refl _)
  rw [hsentinel, ok_bind]
  exact .check fun _ => guarded_checkBlocks hsound hlen (by omega) 0

theorem guarded_load (hgranule : codec.granule ∣ size) (hs : 0 < size) :
    Load.Guarded (fun _ => True) (load : Load (DeltaSeq codec size)) := by
  refine Source.guarded_readWord.bind fun len _ => Source.guarded_readWord.bind fun length _ => ?_
  refine (Source.guarded_readPayload _).bind fun payload _ =>
    PackedArray.guarded_load.bind fun samples hsound => ?_
  have hcheck :=
    guarded_check (s := ⟨len.toNat, samples, payload⟩) hsound (table_lt hgranule hs len.toNat_lt)
  exact (Load.Guarded.lift hcheck).bind fun _ _ => .pure trivial

/-! ## One block -/

variable {id : Nat} {sample pointer : UInt64}

/-- The differences of a block are as many as it has slots, if there are any. -/
theorem guarded_deltasAt (s : DeltaSeq codec size) (pointer : UInt64) :
    Guarded (fun deltas => deltas.length = size) (s.deltasAt pointer) := by
  unfold deltasAt
  split
  · refine (Codec.guarded_decode codec _ _).bind ?_
    rintro ⟨deltas, rest⟩ ⟨hlen, -⟩
    exact .ok (hlen.trans List.length_replicate)
  · exact .corrupt _

/-- The offsets of a block lead from its sample to 32-bit values, if there are any. -/
theorem Entry.guarded_offsets (h : s.Entry id sample pointer) :
    Guarded (fun offs => ∀ j, ∀ hj : j < offs.length, sample + offs[j] ≤ maxValue)
      (s.offsets id) := by
  have hsample := h.sample_le
  have hmax : maxValue.toNat = 2 ^ 32 - 1 := rfl
  rw [offsets, h.sample_eq, ok_bind, h.pointer_eq, ok_bind]
  split
  · rename_i hrun
    have hend := h.run_le hrun
    refine .ok fun j hj => UInt64.le_iff_toNat_le.2 ?_
    rw [List.length_map, List.length_range] at hj
    rw [List.getElem_map, List.getElem_range, UInt64.toNat_add,
      UInt64.toNat_ofNat_of_lt' (by simp only [UInt64.size]; omega)]
    omega
  · refine (guarded_deltasAt s pointer).bind fun deltas _ => .ok fun j hj =>
      UInt64.le_iff_toNat_le.2 ?_
    rw [Differences.getElem_offsets, toUInt64_toUInt32 hsample, UInt64.add_comm,
      UInt64.sub_add_cancel, UInt32.toNat_toUInt64]
    have hlt := (Differences.valueAt sample.toUInt32 deltas j + deltas.headD 0).toNat_lt
    omega

/-- Decoding a block that exists into a buffer that is long enough fills the slots with such
offsets. -/
theorem Entry.guarded_decodeBlock (h : s.Entry id sample pointer) (hid : id < s.numBlocks)
    {buffer : Array UInt64} (hb : size ≤ buffer.size) :
    Guarded (fun count => count = min size (s.len - id * size) ∧
      ∀ j < size, ∃ offset, (BlockSequence.decodeBlock s id buffer).2[j]? = some offset ∧
      sample + offset ≤ maxValue)
      (BlockSequence.decodeBlock s id buffer).1 := by
  refine (BlockSequence.guarded_decodeBlock hid hb h.guarded_offsets).mono ?_
  rintro count ⟨hcount, offs, hoffs, hvalues, hout⟩
  have hlen := length_offsets hoffs
  refine ⟨hcount, fun j hj => ⟨offs[j], ?_, hvalues j (by omega)⟩⟩
  rw [hout, BlockSequence.getElem?_overlay (by omega)]

/-! ## All accesses -/

/-- Two values, 5 and one in a block whose width byte is 33. -/
def wrongWidthBytes : List UInt8 :=
  [2, 0, 0, 0, 0, 0, 0, 0, 2, 0, 0, 0, 0, 0, 0, 0, 0, 33, 3, 4, 0, 0, 0, 0, 0, 0, 0, 13, 4, 0, 0,
    0, 0, 0, 0]

end SampledSeq.DeltaSeq
