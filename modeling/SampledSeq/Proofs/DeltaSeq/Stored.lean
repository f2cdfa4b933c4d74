import SampledSeq.DeltaSeq.Stored
import SampledSeq.Proofs.Blocks
import SampledSeq.Proofs.Codec.Delimited
import SampledSeq.Proofs.PackedArray
import SampledSeq.Proofs.Sequence

/-!
# The stored form of a delta-coded sequence

Loading accepts exactly the stored forms of the sequences that pass the check and whose lengths fit
their fields (`load_eq_ok`). The check is about the sample table alone (`entries_of_check`), and all
that an access adds to it is decoding a block.
-/

namespace SampledSeq.DeltaSeq

variable {codec : Codec} {size : Nat} {s : DeltaSeq codec size}

def stored (s : DeltaSeq codec size) : List UInt8 :=
  Source.wordBytes (UInt64.ofNat s.len) ++ (Source.wordBytes (UInt64.ofNat s.payload.size) ++
    (s.payload.toList ++ s.samples.stored))

theorem length_stored (s : DeltaSeq codec size) :
    s.stored.length = 25 + s.payload.size + s.samples.words.size * 8 := by
  simp only [stored, List.length_append, PackedArray.length_stored, Source.wordBytes,
    Numeral.length_toBytes, Array.length_toList]
  omega

/-- What loading vouches for: both lengths fit their fields, and the table passes the check. -/
structure Accepted (s : DeltaSeq codec size) : Prop where
  len_lt : s.len < UInt64.size
  payload_lt : s.payload.size < UInt64.size
  sound : s.samples.Sound
  checked : s.check = .ok ()

theorem writes_serialize (s : DeltaSeq codec size) :
    Store.Writes s.serialize s.stored s.stored.length := by
  have htable := (PackedArray.writes_serialize s.samples).bind
    (f := fun table => pure (8 + 8 + s.payload.toList.length + table)) (.pure _)
  have hlen : s.stored.length = 8 + 8 + s.payload.toList.length + s.samples.stored.length := by
    simp only [stored, List.length_append, Source.wordBytes, Numeral.length_toBytes]
    omega
  rw [List.append_nil] at htable
  rw [hlen]
  exact (Store.writes_writeWord _).bind
    ((Store.writes_writeWord _).bind ((Store.writes_write _).bind htable))

theorem toBytes_eq_stored (s : DeltaSeq codec size) : BlockSequence.toBytes s = s.stored :=
  BlockSequence.toBytes_eq (writes_serialize s)

theorem exact_load : Load.Exact (load : Load (DeltaSeq codec size)) :=
  Source.exact_readWord.bind fun _ => Source.exact_readWord.bind fun _ =>
    (Source.exact_readPayload _).bind fun _ =>
    PackedArray.exact_load.bind fun _ => (Load.Exact.lift _).bind fun _ => .pure _

theorem load_eq_ok {source source' : Source} : load.run source = .ok (s, source') ↔
    s.Accepted ∧ source = ⟨s.stored ++ source'.rest, source'.ending⟩ := by
  simp only [load, Load.bind_eq_ok, Load.lift_eq_ok, Load.pure_eq_ok, Source.readWord_eq_ok,
    Source.readPayload_eq_ok, PackedArray.load_eq_ok]
  constructor
  · rintro ⟨len, _, rfl, length, _, rfl, payload, _, ⟨hsize, rfl⟩, samples, _, ⟨hsound, rfl⟩, _, _,
      ⟨hcheck, rfl⟩, rfl, rfl⟩
    refine ⟨⟨len.toNat_lt, ?_, hsound, hcheck⟩, ?_⟩
    · rw [hsize]
      exact length.toNat_lt
    · simp only [stored, hsize, UInt64.ofNat_toNat, List.append_assoc]
  · rintro ⟨h, rfl⟩
    have hlen : (UInt64.ofNat s.len).toNat = s.len := UInt64.toNat_ofNat_of_lt' h.len_lt
    have hpayload : (UInt64.ofNat s.payload.size).toNat = s.payload.size :=
      UInt64.toNat_ofNat_of_lt' h.payload_lt
    refine ⟨UInt64.ofNat s.len, _, ?_, UInt64.ofNat s.payload.size, _, rfl, s.payload, _,
      ⟨hpayload.symm, rfl⟩,
      s.samples, source', ⟨h.sound, rfl⟩, (), _, ⟨?_, rfl⟩, ?_, rfl⟩
    · simp only [stored, List.append_assoc]
    · rw [hlen]
      exact h.checked
    · rw [hlen]

/-- Loading the stored form of a sequence is checking the sequence. -/
theorem run_load (hlen : s.len < UInt64.size) (hpayload : s.payload.size < UInt64.size)
    (hsound : s.samples.Sound) :
    load.run { rest := s.stored } = s.check.map fun _ => (s, { rest := [] }) := by
  have hread :=
    PackedArray.run_behind_payload hlen hpayload (fun _ =>
      Source.readPayload_eq_ok.2 ⟨rfl, rfl⟩) hsound
    fun len payload samples => do
      let s : DeltaSeq codec size := { len, samples, payload }
      s.check
      return s
  exact hread.trans (Load.run_check s.check s _)

instance : BlockSequence.Canonical (DeltaSeq codec size) :=
  BlockSequence.canonical_of_stored writes_serialize exact_load fun h => (load_eq_ok.1 h).2

theorem Accepted.reads (h : s.Accepted) : Load.Reads load (BlockSequence.toBytes s) s := by
  have hload : load.run ⟨s.stored ++ [], .ends⟩ = .ok (s, ⟨[], .ends⟩) := load_eq_ok.2 ⟨h, rfl⟩
  exact BlockSequence.reads_of_load hload

/-! ## What the check says -/

/-- Sample and pointer of block `id` as the check leaves them: the values that they alone stand for
are 32-bit, and the data of an encoded block starts inside the payload, behind its padding. -/
structure Entry (s : DeltaSeq codec size) (id : Nat) (sample pointer : UInt64) : Prop where
  sample_eq : s.sampleEntry id = .ok sample
  pointer_eq : s.pointer id = .ok pointer
  sample_le : sample.toNat ≤ maxValue.toNat
  run_le : marksRun codec pointer = true → sample.toNat + (size - 1) ≤ maxValue.toNat
  padding_le : ¬ marksRun codec pointer = true → codec.leadingPadding ≤ pointer.toNat
  pointer_lt : ¬ marksRun codec pointer = true → pointer.toNat < s.payload.size

theorem Entry.tableMax_le {id : Nat} {sample pointer : UInt64} (h : s.Entry id sample pointer) :
    tableMax codec size sample pointer ≤ maxValue.toNat := by
  unfold tableMax
  split
  · exact h.run_le ‹_›
  · exact h.sample_le

theorem entry_of_checkBlocks {remaining id : Nat} {previous : UInt64}
    (h : s.checkBlocks remaining id previous = .ok ()) :
    ∀ k, id ≤ k → k < id + remaining → ∃ sample pointer, s.Entry k sample pointer := by
  induction remaining generalizing id previous with
  | zero => exact fun k hle hlt => absurd hlt (by omega)
  | succ remaining ih =>
    obtain ⟨sample, hsample, h⟩ := bind_eq_ok.1 h
    obtain ⟨pointer, hpointer, h⟩ := bind_eq_ok.1 h
    obtain ⟨hmax, h⟩ := check_eq_ok.1 h
    rw [tableMax] at hmax
    intro k hle hlt
    -- a run has no pointer to check, but its last value; an encoded block the other way round
    by_cases hrun : marksRun codec pointer = true
    · rw [if_pos hrun] at h hmax
      rcases Nat.eq_or_lt_of_le hle with rfl | hle
      · exact ⟨sample, pointer, hsample, hpointer, by omega, fun _ => by omega,
          fun h => absurd hrun h, fun h => absurd hrun h⟩
      · exact ih h k hle (by omega)
    · rw [if_neg hrun] at h hmax
      obtain ⟨horder, h⟩ := check_eq_ok.1 h
      rcases Nat.eq_or_lt_of_le hle with rfl | hle
      · exact ⟨sample, pointer, hsample, hpointer, by omega, fun h => absurd h hrun,
          fun _ => by omega, fun _ => by omega⟩
      · exact ih h k hle (by omega)

theorem entries_of_check (h : s.check = .ok ()) : s.samples.len = 2 * s.numBlocks + 2 ∧
    ∀ id < s.numBlocks, ∃ sample pointer, s.Entry id sample pointer := by
  obtain ⟨expected, hexpected, h⟩ := bind_eq_ok.1 h
  obtain ⟨hlen, h⟩ := check_eq_ok.1 h
  obtain ⟨sentinel, -, h⟩ := bind_eq_ok.1 h
  obtain ⟨-, h⟩ := check_eq_ok.1 h
  refine ⟨?_, fun id hid => entry_of_checkBlocks h id (Nat.zero_le id) (by omega)⟩
  unfold Position.checked at hexpected
  split at hexpected
  · rw [Except.ok.inj hexpected]
    exact not_not.1 hlen
  · cases hexpected

theorem sentinel_of_check (h : s.check = .ok ()) :
    ∃ sentinel, s.pointer s.numBlocks = .ok sentinel ∧ sentinel.toNat = s.payload.size := by
  obtain ⟨expected, -, h⟩ := bind_eq_ok.1 h
  obtain ⟨-, h⟩ := check_eq_ok.1 h
  obtain ⟨sentinel, hsentinel, h⟩ := bind_eq_ok.1 h
  obtain ⟨hsize, -⟩ := check_eq_ok.1 h
  exact ⟨sentinel, hsentinel, not_not.1 hsize⟩

end SampledSeq.DeltaSeq

/-!
## Two ways to a value of a delta-coded sequence

A single value adds up the differences behind the first one of its block, a whole block adds up all
of them. The two therefore differ by the first difference, which is the first offset of the block:
they agree exactly on the blocks that start with offset 0 (`get_eq_iff`). A whole block is written
to a buffer only when it is decoded (`turns_fill`). The check of the sample table vouches for
nothing more than samples and pointers (`Vouched`).
-/

namespace SampledSeq.DeltaSeq

variable {codec : Codec} {size : Nat} {s : DeltaSeq codec size}

/-! ### What the check vouches for -/

/-- Samples and pointers are there, and the values that they alone stand for are 32-bit. -/
def Vouched (s : DeltaSeq codec size) : Prop :=
  ∀ id < s.numBlocks, ∃ sample pointer, s.sampleEntry id = .ok sample ∧ s.pointer id = .ok pointer ∧
    tableMax codec size sample pointer ≤ maxValue.toNat

theorem vouched_of_load {source source' : Source} (h : load.run source = .ok (s, source')) :
    s.Vouched := by
  intro id hid
  obtain ⟨sample, pointer, hentry⟩ := (entries_of_check (load_eq_ok.1 h).1.checked).2 id hid
  exact ⟨sample, pointer, hentry.sample_eq, hentry.pointer_eq, hentry.tableMax_le⟩

/-! ### One block -/

theorem sample_eq_entry {id : Nat} (hid : id < s.numBlocks) : s.sample id = s.sampleEntry id := by
  rw [sample, Blocks.check, if_pos hid, ok_bind]

theorem toUInt64_toUInt32 {sample : UInt64} (h : sample.toNat ≤ maxValue.toNat) :
    sample.toUInt32.toUInt64 = sample := by
  have hlt : sample.toNat < 2 ^ 32 := Nat.lt_of_le_of_lt h (by decide)
  apply UInt64.toNat_inj.1
  rw [UInt32.toNat_toUInt64, UInt64.toNat_toUInt32, Nat.mod_eq_of_lt hlt]

theorem length_deltasAt {pointer : UInt64} {deltas : List UInt32}
    (h : s.deltasAt pointer = .ok deltas) :
    deltas.length = size := by
  unfold deltasAt at h
  split at h
  · obtain ⟨⟨deltas', rest⟩, hdecode, h⟩ := bind_eq_ok.1 h
    obtain rfl := Except.ok.inj h
    exact (Codec.length_decode hdecode).trans List.length_replicate
  · cases h

theorem length_offsets {id : Nat} {offs : List UInt64} (h : s.offsets id = .ok offs) :
    offs.length = size := by
  obtain ⟨sample, -, h⟩ := bind_eq_ok.1 h
  obtain ⟨pointer, -, h⟩ := bind_eq_ok.1 h
  split at h
  · obtain rfl := Except.ok.inj h
    simp
  · obtain ⟨deltas, hdeltas, h⟩ := bind_eq_ok.1 h
    obtain rfl := Except.ok.inj h
    rw [Differences.length_offsets, length_deltasAt hdeltas]

/-- The slots of a block are written when all its differences are decoded, and then all of them. -/
theorem turns_fill (id : Nat) {before : List UInt64} (hlen : before.length = size) :
    Fill.Turns (s.fill id) before (s.offsets id) := by
  have hall : ∀ values : List UInt64, values.length = size →
      Fill.Turns (Fill.putAll 0 values) before (.ok values) := by
    intro values hvalues
    simpa using Fill.turns_putAll [] [] (hlen.trans hvalues.symm)
  refine .lift_bind fun sample _ => .lift_bind fun pointer _ => ?_
  by_cases hrun : marksRun codec pointer = true
  · simp only [if_pos hrun]
    exact hall _ (by simp)
  · simp only [if_neg hrun]
    refine .lift_bind fun deltas hdeltas => hall _ ?_
    rw [Differences.length_offsets, length_deltasAt hdeltas]

instance : BlockSequence.Lawful (DeltaSeq codec size) where
  turns_fill {_ id} _ _ hlen := turns_fill id hlen

theorem get_encoded {id j : Nat} (hj : j < Blocks.length s.len size id) {sample pointer : UInt64}
    {deltas : List UInt32} (hsample : s.sampleEntry id = .ok sample)
    (hpointer : s.pointer id = .ok pointer) (hmax : sample.toNat ≤ maxValue.toNat)
    (hrun : ¬ marksRun codec pointer = true) (hdeltas : s.deltasAt pointer = .ok deltas) :
    s.get (id * size + j) = .ok (Differences.valueAt sample.toUInt32 deltas j).toUInt64 := by
  obtain ⟨hlt, hdiv, hmod⟩ := Blocks.index_spec hj
  rw [get, if_pos hlt, hdiv, hmod, hsample]
  simp only [ok_bind]
  by_cases h0 : j = 0
  · subst h0
    rw [if_pos rfl, pure_eq_ok, Differences.valueAt, List.take_zero, List.foldl_nil,
      toUInt64_toUInt32 hmax]
  · have hslot : j < deltas.length := by
      rw [length_deltasAt hdeltas]
      exact Nat.lt_of_lt_of_le hj (Blocks.length_le _ _ _)
    rw [if_neg h0, hpointer]
    simp only [ok_bind, if_neg hrun, hdeltas, Position.below_eq_ok hslot, pure_eq_ok]

theorem get_run {id j : Nat} (hj : j < Blocks.length s.len size id) {sample pointer : UInt64}
    (hsample : s.sampleEntry id = .ok sample) (hpointer : s.pointer id = .ok pointer)
    (hmax : sample.toNat + (size - 1) ≤ maxValue.toNat) (hrun : marksRun codec pointer = true) :
    s.get (id * size + j) = .ok (sample + UInt64.ofNat j) := by
  obtain ⟨hlt, hdiv, hmod⟩ := Blocks.index_spec hj
  have hsize := Blocks.length_le s.len size id
  rw [get, if_pos hlt, hdiv, hmod, hsample]
  simp only [ok_bind]
  by_cases h0 : j = 0
  · subst h0
    rw [if_pos rfl, pure_eq_ok]
    exact congrArg Except.ok (UInt64.add_zero sample).symm
  · have hposition : sample.toNat + j < Position.limit := by
      have hlimit : maxValue.toNat < Position.limit := by decide
      omega
    rw [if_neg h0, hpointer]
    simp only [ok_bind, if_pos hrun, Position.checked_eq_ok hposition, pure_eq_ok, UInt64.ofNat_add,
      UInt64.ofNat_toNat]

/-- A value and the offset of its place agree exactly if the block starts with offset 0. -/
theorem get_eq_iff (hs : s.Vouched) {id : Nat} (hid : id < s.numBlocks) {offs : List UInt64}
    (h : s.offsets id = .ok offs) : ∃ sample, s.sampleEntry id = .ok sample ∧
      ∀ j, j < Blocks.length s.len size id → ∀ h : j < offs.length,
        s.get (id * size + j) = .ok (sample + offs[j]) ↔ offs[0] = 0 := by
  obtain ⟨sample, pointer, hsample, hpointer, hmax⟩ := hs id hid
  refine ⟨sample, hsample, ?_⟩
  intro j hj hj'
  rw [offsets, hsample, ok_bind, hpointer, ok_bind] at h
  split at h
  · rename_i hrun
    obtain rfl := Except.ok.inj h
    rw [tableMax, if_pos hrun] at hmax
    simp [get_run hj hsample hpointer hmax hrun]
  · rename_i hrun
    obtain ⟨deltas, hdeltas, h⟩ := bind_eq_ok.1 h
    obtain rfl := Except.ok.inj h
    rw [tableMax, if_neg hrun] at hmax
    -- both sides of the equivalence say that the first difference is 0
    have hfirst : Differences.valueAt sample.toUInt32 deltas 0 = sample.toUInt32 := rfl
    have hzero : (sample.toUInt32 + deltas.headD 0).toUInt64 = sample ↔ deltas.headD 0 = 0 := by
      nth_rewrite 2 [← toUInt64_toUInt32 hmax]
      rw [UInt32.toUInt64_inj, UInt32.add_eq_left]
    rw [get_encoded hj hsample hpointer hmax hrun hdeltas, Differences.getElem_offsets,
      Differences.getElem_offsets, toUInt64_toUInt32 hmax, UInt64.add_comm, UInt64.sub_add_cancel,
      UInt64.sub_eq_iff_eq_add, UInt64.zero_add, Except.ok.injEq, UInt32.toUInt64_inj,
      UInt32.left_eq_add, hfirst, hzero]

end SampledSeq.DeltaSeq
