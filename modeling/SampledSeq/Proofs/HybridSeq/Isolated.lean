import SampledSeq.Proofs.BlockList.Kind
import SampledSeq.Proofs.HybridSeq.Classified
import SampledSeq.Proofs.HybridSeq.RoundTrip
import SampledSeq.Proofs.Sequence

/-!
# What single blocks depend on and report

A block reads its own bits and no others, and what is reported of it while it is built is what is
read.
-/

/-!
## Blocks of a hybrid sequence are isolated

A buffer that has the bits of a block, and anything else in front of them, carries a writer that
wrote the block behind just these other bits (`exists_carries`). So a block is found by the same
lemmas as in the sequence that was built, whatever the payload holds before and behind it
(`Keeps.valueIn_eq`).
-/

namespace SampledSeq.HybridSeq

open BlockSequence

variable {size : Nat} {values : List UInt64}

/-- The payload bits of block `id`. -/
def segment (s : HybridSeq size) (id : Nat) : Except Error (Nat × Nat) := do
  return (← s.pointer id, ← s.pointer (id + 1))

/-! ### One block -/

section
variable {lo : UInt64} {block : List UInt64} {w w' : BitWriter} {n : Nat}

/-- Whatever was written before a block, its bits are the same. -/
theorem sameFrom_writeBlock (h : w'.SameFrom n w) (lo : UInt64) (block : List UInt64) :
    (writeBlock w' (kindOf lo block) lo block).SameFrom n
      (writeBlock w (kindOf lo block) lo block) :=
  BlockKind.sameFrom_write (h.writeBits _ (by decide)) (boundAbove_lt lo block)
  (fits_written lo block)

/-- The bits of a block are a block, whatever else a buffer holds. -/
theorem exists_carries {s : BitSlice} (hc : w.Clean)
    (hfits : (writeBlock w (kindOf lo block) lo block).len ≤ s.len)
    (hbits : ∀ p, w.len ≤ p → p < (writeBlock w (kindOf lo block) lo block).len →
      s.bit p = (writeBlock w (kindOf lo block) lo block).bit p) :
    ∃ w' : BitWriter, w'.Clean ∧ w'.len = w.len ∧
      (writeBlock w' (kindOf lo block) lo block).len =
        (writeBlock w (kindOf lo block) lo block).len ∧
      s.Carries (writeBlock w' (kindOf lo block) lo block) := by
  obtain ⟨w', hc', hlen, hbefore⟩ := BitWriter.exists_clean s.bit w.len
  have hsame := sameFrom_writeBlock (BitWriter.sameFrom_len hc' hc hlen) lo block
  refine ⟨w', hc', hlen, hsame.len_eq, hsame.len_eq ▸ hfits, ?_⟩
  intro p hp
  rw [hsame.len_eq] at hp
  rcases Nat.lt_or_ge p w.len with hlt | hle
  · rw [(writeBlock_spec hc' lo block).2.bit_eq p (hlen ▸ hlt), hbefore p hlt]
  · rw [hsame.bit_eq p hle, hbits p hle hp]

end

/-! ### Built sequences with another payload -/

/-- The sequence of the values, with a payload of which only the bits of block `id` are known. -/
structure Keeps (values : List UInt64) (id : Nat) (s : HybridSeq size) : Prop where
  len_eq : s.len = values.length
  table_eq : s.table = (built values size).table
  size_eq : s.payload.size = (built values size).payload.size
  bit_eq : ∀ p, (stage values size id).writer.len ≤ p →
      p < (stage values size (id + 1)).writer.len →
    s.bits.bit p = (built values size).bits.bit p

section
variable {s : HybridSeq size} {id : Nat}

theorem Keeps.pointer_eq (h : s.Keeps values id) (k : Nat) :
    s.pointer k = (built values size).pointer k := by
  rw [pointer, pointer, h.table_eq]

theorem Keeps.boundary_eq (h : s.Keeps values id) (k : Nat) :
    s.boundary k = (built values size).boundary k := by
  rw [boundary, boundary, h.table_eq]

theorem Keeps.valueIn_eq (h : s.Keeps values id) (hs : 0 < size) (hlen : values.length < 2 ^ 56)
    (hid : id < Blocks.count values.length size) {j : Nat}
    (hj : j < (Blocks.part values size id).length) :
    s.valueIn id j = .ok (Blocks.part values size id)[j] := by
  have hcarries : (built values size).bits.Carries (stage values size (id + 1)).writer :=
    carries_built hid
  have hfits : (stage values size (id + 1)).writer.len ≤ s.bits.len := by
    have hle := hcarries.len_le
    rw [BitSlice.len, bits] at hle ⊢
    rwa [h.size_eq]
  obtain ⟨w', hclean, hstart, hstop, hbehind⟩ :=
    exists_carries (clean_stage values size id) hfits fun p hle hlt =>
      (h.bit_eq p hle hlt).trans (hcarries.bit_eq p hlt)
  have hlimit : (stage values size (id + 1)).writer.len < Position.limit := len_stage_lt hlen hid
  obtain ⟨hpointer, hlo⟩ := table_built hs hlen (Nat.le_of_lt hid)
  have hhi := (table_built hs hlen hid).2
  rw [← h.boundary_eq] at hlo hhi
  rw [← h.pointer_eq, ← hstart] at hpointer
  exact found_written hclean (hstop ▸ hlimit) hbehind (h.len_eq ▸ Blocks.length_part.symm) hpointer
    hlo hhi hj

theorem Keeps.valueOffsets_eq (h : s.Keeps values id) (hs : 0 < size)
    (hlen : values.length < 2 ^ 56) (hid : id < Blocks.count values.length size) :
    s.valueOffsets id = .ok ((Blocks.part values size id).map (· - boundaryOf values size id)) := by
  refine valueOffsets_of_found ((h.boundary_eq id).trans (boundary_built hs hlen hid))
    (Blocks.length_part_pos hid)
    (h.len_eq ▸ Blocks.length_part) ?_
  intro j hj
  exact h.valueIn_eq hs hlen hid hj

theorem Keeps.sameBlock (h : s.Keeps values id) (hs : 0 < size) (hlen : values.length < 2 ^ 56)
    (hid : id < Blocks.count values.length size) : SameBlock (built values size) s id := by
  have hoffs : s.offsets id = _ := bind_eq_ok.2 ⟨_, h.valueOffsets_eq hs hlen hid, rfl⟩
  refine ⟨h.len_eq, ?_,
    decodeBlock_congr h.len_eq hoffs (bind_eq_ok.2 ⟨_, valueOffsets_built hs hlen hid, rfl⟩)⟩
  intro i hi
  change i / size = id at hi
  change s.get i = (built values size).get i
  subst hi
  rcases Nat.lt_or_ge i values.length with hlt | hle
  · have hj : i % size < (Blocks.part values size (i / size)).length :=
      Blocks.mod_lt_length_part hs hlt
    rw [get_eq_valueIn (h.len_eq ▸ hlt), h.valueIn_eq hs hlen hid hj, get_eq_valueIn hlt,
      valueIn_built hs hlen hid hj]
  · have hrange : ¬ i < (built values size).len := Nat.not_lt_of_le hle
    have hrange' : ¬ i < s.len := h.len_eq ▸ hrange
    rw [get, if_neg hrange', get, if_neg hrange, h.len_eq]
    rfl

end

/-! ### Stored forms with another payload -/

/-- The check does not look into the payload. -/
theorem Accepted.of_payload {s : HybridSeq size} (h : s.Accepted) {payload : Array UInt64}
    (hsize : payload.size = s.payload.size) : ({ s with payload } : HybridSeq size).Accepted := by
  have hchecked := checked_iff.1 h.checked
  have hlt := h.payload_lt
  rw [← hsize] at hchecked hlt
  exact ⟨h.len_lt, hlt, h.sound, checked_iff.2 hchecked⟩

theorem isolated_built (hs : 0 < size) (hlen : values.length < 2 ^ 56) {id : Nat}
    (hid : id < Blocks.count values.length size) :
    ∃ segment, (built values size).segment id = .ok segment ∧
      Isolated (built values size) (64 * (built values size).payload.size) id segment := by
  have hpointer := (table_built hs hlen (Nat.le_of_lt hid)).1
  have hnext := (table_built hs hlen hid).1
  have hstored : toBytes (built values size) = _ := toBytes_eq_stored _
  rw [stored, ← List.append_assoc] at hstored
  refine ⟨_, bind_eq_ok.2 ⟨_, hpointer, bind_eq_ok.2 ⟨_, hnext, rfl⟩⟩,
    isolated_of_payload hstored ?_ ?_ ?_⟩
  · simp [Source.wordBytes, payloadStart]
  · rw [Store.length_wordBytes, Array.length_toList]
    omega
  · intro other hother
    have hlength := hother.length_eq
    rw [Store.length_wordBytes, Array.length_toList, Nat.mul_comm] at hlength
    obtain ⟨words, hwords, rfl⟩ := Bytes.exists_words hlength
    have hsize : words.toArray.size = (built values size).payload.size := hwords
    have hreads := ((accepted_built hs hlen).of_payload hsize).reads
    rw [toBytes_eq_stored, stored, hsize, ← List.append_assoc] at hreads
    refine ⟨_, hreads, Keeps.sameBlock ⟨rfl, rfl, hsize, ?_⟩ hs hlen hid⟩
    intro p hle hlt
    have hbit := hother.bit_eq p (not_not.2 ⟨hle, hlt⟩)
    rwa [Bytes.bit_wordBytes, Bytes.bit_wordBytes] at hbit

end SampledSeq.HybridSeq

/-!
## What building a hybrid sequence reports

The builder reports a block when it stores it, and counts encodings as it goes; a reader finds both
out of the payload. They agree: after `k` blocks the builder has reported those among them that are
not gap lists (`events_stage`) and counted all of them (`kinds_stage`), each with the encoding that
its values say, and that is the encoding that is read (`truthful_built`).
-/

namespace SampledSeq

/-! ### Counters -/

namespace KindCounts

def of (counts : KindCounts) : BlockKind → Nat
  | .raw => counts.raw
  | .bitmap => counts.bitmap
  | .eliasFano => counts.eliasFano
  | .full => counts.full

def total (counts : KindCounts) : Nat := counts.raw + counts.bitmap + counts.eliasFano + counts.full

theorem ext_of {counts counts' : KindCounts} (h : ∀ kind, counts.of kind = counts'.of kind) :
    counts = counts' := by
  cases counts
  cases counts'
  exact congr (congr (congr (congrArg mk (h .raw)) (h .bitmap)) (h .eliasFano)) (h .full)

theorem of_add (counts : KindCounts) (kind other : BlockKind) :
    (counts.add kind).of other = counts.of other + if kind = other then 1 else 0 := by
  cases kind <;> cases other <;> rfl

theorem total_add (counts : KindCounts) (kind : BlockKind) :
    (counts.add kind).total = counts.total + 1 := by
  cases kind <;> simp only [add, total] <;> omega

end KindCounts

namespace HybridSeq

variable {size : Nat} {values : List UInt64}

/-! ### What the values say -/

def kindIn (values : List UInt64) (size id : Nat) : BlockKind :=
  classOf (boundaryOf values size id) (Blocks.part values size id)

/-- The report of block `id`: its encoding, the number of its values, and the distance from its
boundary to the last one. -/
def blockReport (values : List UInt64) (size id : Nat) : Event :=
  let lo := boundaryOf values size id
  let block := Blocks.part values size id
  .hybridBlock (kindIn values size id) block.length ((block.getLastD lo).toNat - lo.toNat)

/-- The reports of those of the first `k` blocks that are not gap lists. -/
def blockReports (values : List UInt64) (size k : Nat) : List Event :=
  ((List.range k).filter fun id => kindIn values size id ≠ .raw).map (blockReport values size)

/-- How many of the first `k` blocks have each encoding. -/
def kindCounts (values : List UInt64) (size k : Nat) : KindCounts :=
  let number kind := (List.range k).countP fun id => kindIn values size id = kind
  ⟨number .raw, number .bitmap, number .eliasFano, number .full⟩

theorem of_kindCounts (values : List UInt64) (size k : Nat) (kind : BlockKind) :
    (kindCounts values size k).of kind = (List.range k).countP fun id => kindIn values size id =
      kind := by
  cases kind <;> rfl

theorem kindCounts_succ (values : List UInt64) (size k : Nat) :
    kindCounts values size (k + 1) = (kindCounts values size k).add (kindIn values size k) := by
  apply KindCounts.ext_of
  intro kind
  rw [KindCounts.of_add, of_kindCounts, of_kindCounts, List.range_succ, List.countP_append]
  simp

/-- Every block is counted once. -/
theorem total_kindCounts (values : List UInt64) (size k : Nat) :
    (kindCounts values size k).total = k := by
  induction k with
  | zero => rfl
  | succ k ih => rw [kindCounts_succ, KindCounts.total_add, ih]

/-! ### What a stage has reported -/

/-- The builder finds the encoding that the values say. -/
theorem kindOf_stage {k : Nat} (hk : k < Blocks.count values.length size) :
    kindOf (stage values size k).lo (Blocks.part values size k) = kindIn values size k := by
  have hle := Nat.le_of_lt ((Blocks.lt_count_iff (Blocks.size_pos_of_lt hk)).1 hk)
  rw [kindOf_eq_classOf (Blocks.length_part_pos hk), lo_stage (Blocks.size_pos_of_lt hk) hle,
    kindIn]

/-- Storing a block reports it, unless it is a gap list. -/
theorem blockEvents_stage {k : Nat} (hk : k < Blocks.count values.length size) :
    blockEvents (kindIn values size k) (stage values size k).lo (Blocks.part values size k) =
      if kindIn values size k = .raw then [] else [blockReport values size k] := by
  have hs := Blocks.size_pos_of_lt hk
  have hkind := kindOf_stage hk
  split
  · rename_i hraw
    rw [hraw]
    rfl
  · rename_i hraw
    obtain ⟨habove, -⟩ := above_of_kindOf (hkind ▸ hraw)
    have hbound := habove.toNat_bound (Blocks.length_part_pos hk)
    rw [lo_stage hs (Nat.le_of_lt ((Blocks.lt_count_iff hs).1 hk))] at hbound ⊢
    unfold blockEvents
    split
    · exact absurd ‹_› hraw
    · rw [hbound, blockReport]

theorem events_stage {k : Nat} (hk : k ≤ Blocks.count values.length size) :
    (stage values size k).events.toList = blockReports values size k := by
  induction k with
  | zero => rfl
  | succ k ih =>
    rw [stage, Builder.store]
    simp only [kindOf_stage hk, blockEvents_stage hk, Array.toList_appendList, ih (Nat.le_of_lt hk),
      blockReports, List.range_succ, List.filter_append, List.map_append]
    by_cases hraw : kindIn values size k = .raw <;> simp [hraw]

theorem kinds_stage {k : Nat} (hk : k ≤ Blocks.count values.length size) :
    (stage values size k).kinds = kindCounts values size k := by
  induction k with
  | zero => rfl
  | succ k ih =>
    rw [stage, Builder.store, kindCounts_succ]
    simp only [kindOf_stage hk, ih (Nat.le_of_lt hk)]

/-! ### Built sequences -/

/-- What building a sequence reports in the end. -/
def summary (values : List UInt64) (s : HybridSeq size) : Event :=
  .hybridBuilt size s.len s.numBlocks (kindCounts values size s.numBlocks)
    (bitsBefore values size s.numBlocks)

/-- What is reported is what is read. -/
structure Truthful (values : List UInt64) (s : HybridSeq size) : Prop where
  blockKind_eq : ∀ id < s.numBlocks, s.blockKind id = .ok (kindIn values size id)
  /-- The boundary, from which the distance to the last value is reported. -/
  sample_eq : ∀ id < s.numBlocks, s.sample id = .ok (boundaryOf values size id)
  kinds_eq : ∀ kind, (kindCounts values size s.numBlocks).of kind =
    (List.range s.numBlocks).countP fun id => s.blockKind id = .ok kind
  total_eq : (kindCounts values size s.numBlocks).total = s.numBlocks
  payloadBits_eq : s.payloadBits = .ok (bitsBefore values size s.numBlocks)

theorem truthful_built (hs : 0 < size) (hlen : values.length < 2 ^ 56) :
    Truthful values (built values size) := by
  have hkind : ∀ id < (built values size).numBlocks,
      (built values size).blockKind id = .ok (kindIn values size id) := by
    intro id hid
    rw [blockKind_built hs hlen hid, kindOf_eq_classOf (Blocks.length_part_pos hid), kindIn]
  refine ⟨hkind, ?_, ?_, total_kindCounts values size _, pointer_built hs hlen (Nat.le_refl _)⟩
  · intro id hid
    rw [sample_eq_boundary hid, boundary_built hs hlen hid]
  · intro kind
    rw [of_kindCounts]
    apply List.countP_congr
    intro id hid
    simp [hkind id (List.mem_range.1 hid)]

/-- The blocks that are not gap lists are reported in their order, and then the whole sequence. -/
theorem ofList_reported (hs : 0 < size) (values : List UInt64) :
    let s := built values size
    (ofList values : Traced (HybridSeq size)) =
      ⟨.ok s, blockReports values size s.numBlocks ++ [summary values s]⟩ := by
  have hlast := Nat.le_refl (Blocks.count values.length size)
  rw [ofList_traced hs]
  simp only [Array.toList_push, events_stage hlast, Builder.summary, kinds_stage hlast,
    len_stage hlast]
  rfl

end HybridSeq

end SampledSeq
