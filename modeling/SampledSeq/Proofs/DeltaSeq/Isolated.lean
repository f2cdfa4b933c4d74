import SampledSeq.Proofs.DeltaSeq.Layout
import SampledSeq.Proofs.DeltaSeq.RoundTrip
import SampledSeq.Proofs.Sequence

/-!
# What single blocks depend on and report

A block reads its own bytes and no others, and what is reported of it while it is built is what is
read.
-/

/-!
## Blocks of a delta-coded sequence are isolated

A run is answered from the table and reads no payload. Every other block reads the bytes of its own
encoding and no more, since the codec knows where they end: so what lies before its pointer, and
from the next pointer on, may be anything (`deltasAt_isolated`).
-/

namespace SampledSeq.DeltaSeq

open BlockSequence

variable {codec : Codec} {size : Nat} {values : List UInt32}

/-! ### Segments -/

/-- The first pointer of `remaining` blocks from block `id` on that is not of a run; the payload
length if there is none. -/
def nextPointer (s : DeltaSeq codec size) : Nat → Nat → Except Error Nat
  | 0, _ => .ok s.payload.size
  | remaining + 1, id => do
    let pointer ← s.pointer id
    if marksRun codec pointer then nextPointer s remaining (id + 1) else return pointer.toNat

/-- The payload bits of block `id`; there are none for a run. -/
def segment (s : DeltaSeq codec size) (id : Nat) : Except Error (Nat × Nat) := do
  let pointer ← s.pointer id
  if marksRun codec pointer then return (0, 0)
  let next ← s.nextPointer (s.numBlocks - (id + 1)) (id + 1)
  return (8 * pointer.toNat, 8 * next)

theorem payload_stage_run {k : Nat}
    (h : storedAsRun codec size (Blocks.part values size k) = true) :
    (stage codec values size (k + 1)).payload = (stage codec values size k).payload := by
  rw [stage, store_run h]

theorem marksRun_runPointer {block : List UInt32} (h : storedAsRun codec size block = true) :
    marksRun codec runPointer = true := by
  simp [marksRun, (storedAsRun_iff.1 h).2.1]

/-- Once anything is encoded, the next encoded block starts where the payload ended, however many
runs lie between. -/
theorem nextPointer_built (hgranule : codec.granule ∣ size) (hs : 0 < size) (h64 : size < 2 ^ 64)
    (hlen : values.length < 2 ^ 56) {remaining id : Nat}
    (hid : id + remaining = Blocks.count values.length size)
    (hpayload : 0 < (stage codec values size id).payload.size) :
    (built codec values size).nextPointer remaining id =
      .ok (stage codec values size id).payload.size := by
  induction remaining generalizing id with
  | zero =>
    obtain rfl : id = Blocks.count values.length size := hid
    rfl
  | succ remaining ih =>
    have hk : id < Blocks.count values.length size := by omega
    rw [nextPointer, (table_built codec hs hlen hk).2, ok_bind, pointerOf]
    by_cases hrun : storedAsRun codec size (Blocks.part values size id) = true
    · have hsame : (stage codec values size (id + 1)).payload = _ := payload_stage_run hrun
      rw [if_pos hrun, if_pos (marksRun_runPointer hrun), ih (by omega) (by rwa [hsame]), hsame]
    · have hfront :
          frontOf codec (stage codec values size id).payload =
            (stage codec values size id).payload :=
        if_neg (by simpa using Nat.ne_of_gt hpayload)
      have hlt := size_frontOf_lt hgranule hs h64 hlen hk
      rw [if_neg hrun, if_neg (marksRun_front hlt), pure_eq_ok,
        UInt64.toNat_ofNat_of_lt' hlt, hfront]

/-- Where the builder has put the encoding of block `id`. -/
def segmentOf (codec : Codec) (values : List UInt32) (size id : Nat) : Nat × Nat :=
  if storedAsRun codec size (Blocks.part values size id) then (0, 0)
  else (8 * (frontOf codec (stage codec values size id).payload).size,
    8 * (stage codec values size (id + 1)).payload.size)

/-- The segment of an encoded block holds its encoding, and nothing else. -/
theorem segment_built (hgranule : codec.granule ∣ size) (hs : 0 < size) (h64 : size < 2 ^ 64)
    (hlen : values.length < 2 ^ 56) {id : Nat} (hid : id < Blocks.count values.length size) :
    (built codec values size).segment id = .ok (segmentOf codec values size id) := by
  rw [segment, (table_built codec hs hlen hid).2, ok_bind, pointerOf, segmentOf]
  by_cases hrun : storedAsRun codec size (Blocks.part values size id) = true
  · rw [if_pos hrun, if_pos (marksRun_runPointer hrun), if_pos hrun, pure_eq_ok]
  · have hlt := size_frontOf_lt hgranule hs h64 hlen hid
    have hstored :=
      front_lt_store hs (stage codec values size id) (Blocks.length_part_le values size id) hrun
    have hnext := nextPointer_built hgranule hs h64 hlen
      (show id + 1 + (Blocks.count values.length size - (id + 1)) = _ by omega)
      (Nat.zero_lt_of_lt hstored)
    rw [if_neg hrun, if_neg (marksRun_front hlt), if_neg hrun, numBlocks_built, hnext, ok_bind,
      pure_eq_ok, UInt64.toNat_ofNat_of_lt' hlt]

/-! ### Another payload -/

section
variable {s : DeltaSeq codec size} {payload : Array UInt8}

/-- Readers that answer a run alike need only agree on pointers of encoded blocks. -/
theorem bind_pointer_congr {β : Type} {id : Nat} {run : Except Error β}
    {f g : UInt64 → Except Error β}
    (h : ∀ pointer, s.pointer id = .ok pointer → ¬ marksRun codec pointer = true →
      f pointer = g pointer) :
    (s.pointer id >>= fun pointer => if marksRun codec pointer then run else f pointer) =
      s.pointer id >>= fun pointer => if marksRun codec pointer then run else g pointer := by
  cases hpointer : s.pointer id with
  | error e => rfl
  | ok pointer =>
    rw [ok_bind, ok_bind]
    exact ite_congr rfl (fun _ => rfl) fun hrun => h pointer hpointer hrun

/-- The block of an index reads no more of the payload than its differences. -/
theorem get_of_deltasAt {i : Nat} (h : ∀ pointer, s.pointer (i / size) = .ok pointer →
    ¬ marksRun codec pointer = true →
    ({ s with payload } : DeltaSeq codec size).deltasAt pointer = s.deltasAt pointer) :
    ({ s with payload } : DeltaSeq codec size).get i = s.get i := by
  unfold get
  refine ite_congr rfl (fun _ => ?_) fun _ => rfl
  refine bind_congr fun sample => ?_
  refine ite_congr rfl (fun _ => rfl) fun _ => ?_
  exact bind_pointer_congr fun pointer hpointer hrun => by rw [h pointer hpointer hrun]

theorem offsets_of_deltasAt {id : Nat} (h : ∀ pointer, s.pointer id = .ok pointer →
    ¬ marksRun codec pointer = true →
    ({ s with payload } : DeltaSeq codec size).deltasAt pointer = s.deltasAt pointer) :
    ({ s with payload } : DeltaSeq codec size).offsets id = s.offsets id := by
  unfold offsets
  refine bind_congr fun sample => ?_
  exact bind_pointer_congr fun pointer hpointer hrun => by rw [h pointer hpointer hrun]

/-- The check looks at no more of the payload than its length. -/
theorem checkBlocks_of_payload (hsize : payload.size = s.payload.size) (remaining id : Nat)
    (previous : UInt64) :
    ({ s with payload } : DeltaSeq codec size).checkBlocks remaining id previous =
      s.checkBlocks remaining id previous := by
  induction remaining generalizing id previous with
  | zero => rfl
  | succ remaining ih =>
    simp only [checkBlocks, ih, hsize]
    rfl

theorem Accepted.of_payload (h : s.Accepted) (hsize : payload.size = s.payload.size) :
    ({ s with payload } : DeltaSeq codec size).Accepted := by
  have hcheck : ({ s with payload } : DeltaSeq codec size).check = s.check := by
    simp only [check, checkBlocks_of_payload hsize, hsize]
    rfl
  exact ⟨h.len_lt, hsize ▸ h.payload_lt, h.sound, hcheck.trans h.checked⟩

end

/-! ### Built sequences with another payload -/

/-- The differences of an encoded block are read from every payload that has its encoding. -/
theorem deltasAt_front (hgranule : codec.granule ∣ size) (hs : 0 < size) (h64 : size < 2 ^ 64)
    (hlen : values.length < 2 ^ 56) {id : Nat} (hid : id < Blocks.count values.length size)
    (hrun : ¬ storedAsRun codec size (Blocks.part values size id) = true) {payload : List UInt8}
    (h : Bytes.DiffersIn (fun q =>
      ¬ (8 * (frontOf codec (stage codec values size id).payload).size ≤ q ∧
      q < 8 * (stage codec values size (id + 1)).payload.size)) payload
        (built codec values size).payload.toList) :
    ({ built codec values size with payload := payload.toArray } : DeltaSeq codec size).deltasAt
        (UInt64.ofNat (frontOf codec (stage codec values size id).payload).size) =
      .ok (Differences.ofValues (Builder.padded size (Blocks.part values size id))) := by
  have hlt := size_frontOf_lt hgranule hs h64 hlen hid
  have hstop := size_store_encoded (b := stage codec values size id) hrun
  obtain ⟨rest, hpayload⟩ := payload_built hid hrun
  -- three parts: what was encoded before the block, its encoding, and what was encoded behind it
  rw [hpayload] at h
  obtain ⟨front, behind, rfl, hfront, hbehind⟩ := h.append
  obtain ⟨encoding, rest', rfl, hencoding, -⟩ := hbehind.append
  obtain rfl := hencoding.eq fun p hp => by
    rw [stage, hstop, Array.length_toList]
    omega
  refine deltasAt_of_payload rfl ?_ hgranule h64 (length_deltas values size id)
  rw [UInt64.toNat_ofNat_of_lt' hlt, hfront.length_eq, Array.length_toList]

/-- A payload that has the bytes of a block's segment has the differences of the block, if it needs
any. -/
theorem deltasAt_isolated (hgranule : codec.granule ∣ size) (hs : 0 < size) (h64 : size < 2 ^ 64)
    (hlen : values.length < 2 ^ 56) {id : Nat} (hid : id < Blocks.count values.length size)
    {payload : List UInt8}
    (h : Bytes.DiffersIn (fun q => ¬ ((segmentOf codec values size id).1 ≤ q ∧
      q < (segmentOf codec values size id).2))
      payload (built codec values size).payload.toList) :
    ∀ pointer, (built codec values size).pointer id = .ok pointer →
    ¬ marksRun codec pointer = true →
      ({ built codec values size with payload := payload.toArray } : DeltaSeq codec size).deltasAt
        pointer =
        (built codec values size).deltasAt pointer := by
  intro pointer hpointer hmarks
  obtain rfl := Except.ok.inj ((table_built codec hs hlen hid).2.symm.trans hpointer)
  by_cases hrun : storedAsRun codec size (Blocks.part values size id) = true
  · rw [pointerOf, if_pos hrun] at hmarks
    exact absurd (marksRun_runPointer hrun) hmarks
  · rw [segmentOf, if_neg hrun] at h
    rw [pointerOf, if_neg hrun, deltasAt_front hgranule hs h64 hlen hid hrun h,
      deltasAt_built hgranule hs h64 hlen hid hrun]

theorem isolated_built (hgranule : codec.granule ∣ size) (hs : 0 < size) (h64 : size < 2 ^ 64)
    (hlen : values.length < 2 ^ 56) {id : Nat} (hid : id < Blocks.count values.length size) :
    ∃ segment, (built codec values size).segment id = .ok segment ∧
      Isolated (built codec values size) (8 * (built codec values size).payload.size) id
        segment := by
  have hstored : toBytes (built codec values size) = _ := toBytes_eq_stored _
  rw [stored, ← List.append_assoc] at hstored
  refine ⟨_, segment_built hgranule hs h64 hlen hid, isolated_of_payload hstored ?_ ?_ ?_⟩
  · simp [Source.wordBytes, payloadStart]
  · rw [Array.length_toList]
  · intro other hother
    have hsize : other.toArray.size = (built codec values size).payload.size := hother.length_eq
    have hreads := ((accepted_built hgranule hs h64 hlen).of_payload hsize).reads
    rw [toBytes_eq_stored, stored, hsize, ← List.append_assoc] at hreads
    have hdeltas := deltasAt_isolated hgranule hs h64 hlen hid hother
    have hoffs := offsets_block hgranule hs h64 hlen hid rfl
    refine ⟨_, hreads, rfl, ?_,
      decodeBlock_congr rfl ((offsets_of_deltasAt hdeltas).trans hoffs) hoffs⟩
    rintro i rfl
    exact get_of_deltasAt hdeltas

end SampledSeq.DeltaSeq

/-!
## What building a delta-coded sequence reports

A patched block is reported with its width when it is encoded, and runs are counted as they are kept
out. After `k` blocks the builder has reported those among them that were encoded (`events_stage`),
and nothing else, so that is also what is known of values that cannot all be taken
(`ofList_large_reported`). The width that was reported is the byte that is read at the pointer of
the block (`truthful_built`).
-/

namespace SampledSeq.DeltaSeq

variable {codec : Codec} {size : Nat} {values : List UInt32}

/-! ### What the values say -/

def headerOf (codec : Codec) (values : List UInt32) (size id : Nat) : UInt8 :=
  (codec.encode (slotDeltas size (Blocks.part values size id))).headD 0

/-- The reports of those of the first `k` blocks that are not kept out, if the codec has a width for
each. -/
def blockReports (codec : Codec) (values : List UInt32) (size k : Nat) : List Event :=
  match codec with
  | .fixedWidth => []
  | .patched =>
    ((List.range k).filter fun id =>
      ¬ KeptOut .patched size (Blocks.part values size id)).map fun id =>
        .patchedBlock (headerOf .patched values size id).toNat

def runCount (codec : Codec) (values : List UInt32) (size k : Nat) : Nat :=
  (List.range k).countP fun id => KeptOut codec size (Blocks.part values size id)

/-! ### What a stage has reported -/

/-- The width that is reported for a block is its first byte. -/
theorem ofBlock_patched (deltas : List UInt32) :
    Event.ofBlock .patched deltas =
      [.patchedBlock ((Codec.patched.encode deltas).headD 0).toNat] := by
  have hwidth : (UInt8.ofNat (Patched.chooseWidth deltas)).toNat = Patched.chooseWidth deltas :=
    UInt8.toNat_ofNat_of_lt' (Nat.lt_of_le_of_lt (Patched.chooseWidth_le deltas) (by decide))
  show [Event.patchedBlock _] =
      [Event.patchedBlock (UInt8.ofNat (Patched.chooseWidth deltas)).toNat]
  rw [hwidth]

theorem stage_succ_reported {k : Nat} (hk : k < Blocks.count values.length size) :
    let block := Blocks.part values size k
    (stage codec values size (k + 1)).events.toList = (stage codec values size k).events.toList ++
        (if KeptOut codec size block then [] else Event.ofBlock codec (slotDeltas size block)) ∧
      (stage codec values size (k + 1)).runs =
        (stage codec values size k).runs + if KeptOut codec size block then 1 else 0 := by
  dsimp only
  rw [stage]
  by_cases h : KeptOut codec size (Blocks.part values size k)
  · rw [store_run (storedAsRun_iff_keptOut.2 h), if_pos h, if_pos h, List.append_nil]
    exact ⟨rfl, rfl⟩
  · rw [store_encoded (mt storedAsRun_iff_keptOut.1 h), if_neg h, if_neg h,
      ofValues_padded (Blocks.length_part_pos hk) (Blocks.length_part_le values size k)]
    exact ⟨Array.toList_appendList, rfl⟩

theorem events_stage {k : Nat} (hk : k ≤ Blocks.count values.length size) :
    (stage codec values size k).events.toList = blockReports codec values size k := by
  induction k with
  | zero => cases codec <;> rfl
  | succ k ih =>
    rw [(stage_succ_reported hk).1, ih (Nat.le_of_lt hk)]
    cases codec with
    | fixedWidth => simp [blockReports, Event.ofBlock]
    | patched =>
      simp only [blockReports, List.range_succ, List.filter_append, List.map_append,
        ofBlock_patched]
      by_cases hkept : KeptOut .patched size (Blocks.part values size k) <;> simp [hkept, headerOf]

theorem runs_stage {k : Nat} (hk : k ≤ Blocks.count values.length size) :
    (stage codec values size k).runs = runCount codec values size k := by
  induction k with
  | zero => rfl
  | succ k ih =>
    rw [(stage_succ_reported hk).2, ih (Nat.le_of_lt hk), runCount, runCount, List.range_succ,
      List.countP_append]
    simp

/-! ### Built sequences -/

/-- What building a sequence reports in the end. -/
def summary (values : List UInt32) (s : DeltaSeq codec size) : Event :=
  .deltaBuilt codec size s.len s.numBlocks (runCount codec values size s.numBlocks) s.payload.size
    s.samples.width

/-- What is reported is what is read. -/
structure Truthful (values : List UInt32) (s : DeltaSeq codec size) : Prop where
  isRunBlock_eq :
      ∀ id < s.numBlocks, s.isRunBlock id =
        .ok (decide (KeptOut codec size (Blocks.part values size id)))
  runs_eq : runCount codec values size s.numBlocks =
    (List.range s.numBlocks).countP fun id => s.isRunBlock id = .ok true
  /-- The encoding of a block starts at its pointer. -/
  header_eq : ∀ id < s.numBlocks, s.isRunBlock id = .ok false →
    ∃ pointer, s.pointer id = .ok pointer ∧
    s.payload[pointer.toNat]? = some (headerOf codec values size id)

theorem header_built (hgranule : codec.granule ∣ size) (hs : 0 < size) (h64 : size < 2 ^ 64)
    (hlen : values.length < 2 ^ 56) {id : Nat} (hid : id < Blocks.count values.length size)
    (hkept : ¬ KeptOut codec size (Blocks.part values size id)) :
    ∃ pointer, (built codec values size).pointer id = .ok pointer ∧
      (built codec values size).payload[pointer.toNat]? = some (headerOf codec values size id) := by
  have hrun := mt storedAsRun_iff_keptOut.1 hkept
  have hpointer := (table_built codec hs hlen hid).2
  rw [pointerOf, if_neg hrun] at hpointer
  obtain ⟨rest, hpayload⟩ := payload_built hid hrun
  rw [ofValues_padded (Blocks.length_part_pos hid)
    (Blocks.length_part_le values size id)] at hpayload
  have hslots : slotDeltas size (Blocks.part values size id) ≠ [] := by
    rw [slotDeltas, Ne, List.map_eq_nil_iff, List.range_eq_nil]
    exact Nat.ne_of_gt hs
  have hne : codec.encode (slotDeltas size (Blocks.part values size id)) ≠ [] :=
    Codec.encode_ne_nil hslots
  obtain ⟨header, bytes, hencode⟩ := List.exists_cons_of_ne_nil hne
  refine ⟨_, hpointer, ?_⟩
  rw [UInt64.toNat_ofNat_of_lt' (size_frontOf_lt hgranule hs h64 hlen hid), headerOf,
    ← Array.getElem?_toList, hpayload, ← Array.length_toList,
    List.getElem?_append_right (Nat.le_refl _), Nat.sub_self, hencode]
  rfl

theorem truthful_built (hgranule : codec.granule ∣ size) (hs : 0 < size) (h64 : size < 2 ^ 64)
    (hlen : values.length < 2 ^ 56) : Truthful values (built codec values size) := by
  have hlisted : Listed values (built codec values size) := listed_built hgranule hs h64 hlen
  have hrun := hlisted.isRunBlock_eq
  refine ⟨hrun, ?_, ?_⟩
  · apply List.countP_congr
    intro id hid
    simp [hrun id (List.mem_range.1 hid)]
  · intro id hid hencoded
    rw [hrun id hid] at hencoded
    exact header_built hgranule hs h64 hlen hid (of_decide_eq_false (Except.ok.inj hencoded))

/-- Of values that fit, the blocks that are not kept out are reported in their order, and then the
whole sequence. -/
theorem ofList_narrow_reported (codec : Codec) (hs : 0 < size) (values : List UInt32) :
    let s := built codec values size
    (ofList (values.map UInt32.toUInt64) : Traced (DeltaSeq codec size)) =
      ⟨.ok s, blockReports codec values size s.numBlocks ++ [summary values s]⟩ := by
  have hlast := Nat.le_refl (Blocks.count values.length size)
  rw [ofList_traced codec hs]
  simp only [Array.toList_push, events_stage hlast, Builder.summary, runs_stage hlast]
  rfl

/-- Of values that do not all fit, the blocks before that of the first one that does not are
reported, and no sequence. -/
theorem ofList_large_reported (codec : Codec) (hs : 0 < size) {values : List UInt64}
    (h : ∃ value ∈ values, maxValue < value) :
    ∃ i, ∃ hi : i < values.length, (∀ j (hj : j < values.length), j < i → values[j] ≤ maxValue) ∧
      (ofList values : Traced (DeltaSeq codec size)) = ⟨.error (.valueDomain i values[i] maxValue),
        blockReports codec (values.map UInt64.toUInt32) size (i / size)⟩ := by
  obtain ⟨i, hi, hlarge, hbefore⟩ := exists_first_large h
  have hi' : i < (values.map UInt64.toUInt32).length := by rwa [List.length_map]
  have hzero : stageWith codec (values.map UInt64.toUInt32) size 0 [] = {} := stageWith_zero
  -- the builder has stored the blocks before the one with index `i`, and holds what it has taken of
  -- that one
  have htaken :=
    hzero ▸ Blocks.foldl_take_eq hs stageWith_push (fun _ => stageWith_close) i (Nat.le_of_lt hi')
  refine ⟨i, hi, hbefore, ?_⟩
  rw [ofList, takeAll_of_lt _ hi hlarge hbefore, List.map_take, htaken,
    ← events_stage (Nat.le_of_lt (Blocks.div_lt_count hs hi'))]
  simp only [stageWith, Nat.zero_add]

end SampledSeq.DeltaSeq
