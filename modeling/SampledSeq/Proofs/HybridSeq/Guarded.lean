import SampledSeq.Proofs.BlockList.Guarded
import SampledSeq.Proofs.HybridSeq.Stored

/-!
# Hybrid sequences from arbitrary bytes

Of a sequence that was loaded only the pointers have been checked: each block has room for its tag
in front of the next one, and the last one ends with the payload. So every block starts inside the
payload (`Entry`), and its tag can be read. Boundaries and lists may hold anything, and an access
answers something or reports the stream.
-/

namespace SampledSeq.HybridSeq

variable {size : Nat} {s : HybridSeq size}

/-! ## The block table -/

/-- Pointer and boundaries of block `id`: the block has room for its tag in front of the next one,
and that lies in the payload. -/
structure Entry (s : HybridSeq size) (id pointer next : Nat) (lo hi : UInt64) : Prop where
  pointer_eq : s.pointer id = .ok pointer
  next_eq : s.pointer (id + 1) = .ok next
  tag_le : pointer + BlockKind.tagBits ≤ next
  next_le : next ≤ s.bits.len
  lo_eq : s.boundary id = .ok lo
  hi_eq : s.boundary (id + 1) = .ok hi

theorem Tabled.pointer_ok (h : s.Tabled) {id : Nat} (hid : id ≤ s.numBlocks) :
    ∃ pointer, s.pointer id = .ok pointer := by
  have hlen := h.sound.len_lt
  have hlt : 2 * id < s.table.len := by
    rw [h.len_eq]
    omega
  obtain ⟨pointer, hpointer⟩ := h.sound.get_ok hlt
  refine ⟨pointer.toNat, ?_⟩
  rw [HybridSeq.pointer, Position.checked_eq_ok (by omega), ok_bind, hpointer]
  rfl

theorem Tabled.guarded_checkBlocks (h : s.Tabled) {remaining id : Nat}
    (hid : id + remaining ≤ s.numBlocks) :
    Guarded (fun _ => True) (s.checkBlocks remaining id) := by
  induction remaining generalizing id with
  | zero => exact .ok trivial
  | succ remaining ih =>
    obtain ⟨pointer, hpointer⟩ := h.pointer_ok (by omega : id ≤ s.numBlocks)
    obtain ⟨next, hnext⟩ := h.pointer_ok (by omega : id + 1 ≤ s.numBlocks)
    rw [checkBlocks, hpointer, ok_bind, hnext, ok_bind]
    exact .check fun _ => ih (by omega)

theorem guarded_check (hsound : s.table.Sound) : Guarded (fun _ => True) s.check := by
  refine .check fun hlen => ?_
  have htabled : s.Tabled := ⟨hsound, not_not.1 hlen⟩
  obtain ⟨bits, hbits⟩ := htabled.pointer_ok (Nat.le_refl _)
  rw [payloadBits, hbits, ok_bind]
  exact .check fun _ => htabled.guarded_checkBlocks (by omega)

theorem guarded_load : Load.Guarded (fun _ => True) (load : Load (HybridSeq size)) := by
  refine Source.guarded_readWord.bind fun len _ => Source.guarded_readWord.bind fun words _ => ?_
  refine (Source.guarded_readWords _).bind fun payload _ =>
    PackedArray.guarded_load.bind fun table hsound => ?_
  have hcheck := guarded_check (s := (⟨len.toNat, table, payload⟩ : HybridSeq size)) hsound
  exact (Load.Guarded.lift hcheck).bind fun _ _ => .pure trivial

/-! ## One block -/

variable {id pointer next : Nat} {lo hi : UInt64}

theorem kindAt_ok (h : pointer + BlockKind.tagBits ≤ s.bits.len) :
    ∃ kind, s.kindAt pointer = .ok kind := by
  obtain ⟨word, hword, -⟩ := s.bits.getBits_ok (by decide : BlockKind.tagBits ≤ 64) h
  have hlt := ((s.bits.guarded_getBits (by decide)).of_ok hword).1
  have htag : ∀ tag < 4, ∃ kind, BlockKind.ofTag tag = .ok kind
    | 0, _ => ⟨.raw, rfl⟩
    | 1, _ => ⟨.bitmap, rfl⟩
    | 2, _ => ⟨.eliasFano, rfl⟩
    | 3, _ => ⟨.full, rfl⟩
  obtain ⟨kind, hkind⟩ := htag word.toNat hlt
  exact ⟨kind, by rw [kindAt, hword, ok_bind, hkind]⟩

theorem Entry.start_le (h : s.Entry id pointer next lo hi) :
    pointer + BlockKind.tagBits ≤ s.bits.len :=
  Nat.le_trans h.tag_le h.next_le

/-- The lower boundary is that of the block, and the distance to the upper one fits a word. -/
theorem Entry.guarded_bounds (h : s.Entry id pointer next lo hi) :
    Guarded (fun (lo', bound) => lo' = lo ∧ bound < 2 ^ 64) (s.bounds id) := by
  rw [bounds, h.lo_eq, ok_bind, h.hi_eq, ok_bind]
  refine .check fun hle => ?_
  rw [Position.sub_eq_ok (UInt64.le_iff_toNat_le.1 (UInt64.not_lt.1 hle)), ok_bind]
  exact .ok ⟨rfl, Nat.lt_of_le_of_lt (Nat.sub_le _ _) hi.toNat_lt⟩

theorem guarded_rebase (lo relative : UInt64) :
    Guarded (fun value => lo < value) (rebase lo relative) := by
  unfold rebase
  split
  · rename_i hlt
    refine .ok (UInt64.lt_iff_toNat_lt.2 ?_)
    rw [UInt64.toNat_add, UInt64.toNat_add]
    simp only [UInt64.size] at hlt
    simp only [UInt64.reduceToNat]
    omega
  · exact .corrupt _

theorem Entry.guarded_valueOffsets (h : s.Entry id pointer next lo hi) (hbits : s.bits.len < 2 ^ 63)
    (hsize : size + 1 < UInt64.size) : Guarded (fun _ => True) (s.valueOffsets id) := by
  have hcount := Blocks.length_le s.len size id
  have hstart := h.start_le
  obtain ⟨kind, hkind⟩ := kindAt_ok hstart
  have hdecode : ∀ bound < 2 ^ 64, Guarded (fun _ => True)
      (kind.decode s.bits (pointer + BlockKind.tagBits) bound (Blocks.length s.len size id)) :=
    fun bound hbound =>
      kind.guarded_decode (Nat.lt_trans hbits (by decide))
        (EliasFano.low_end_lt hbits hstart hbound) hbound
        (Nat.lt_of_le_of_lt (Nat.succ_le_succ hcount) hsize)
  rw [valueOffsets, h.pointer_eq, ok_bind]
  simp only [Position.checked_of_le (Nat.lt_trans hbits (by decide)) hstart, ok_bind, hkind]
  split
  · rw [h.lo_eq, ok_bind]
    exact (hdecode 0 (by decide)).bind fun values _ => .ok trivial
  · refine h.guarded_bounds.bind ?_
    rintro ⟨lo', bound⟩ ⟨-, hbound⟩
    refine (hdecode bound hbound).bind fun values _ => ?_
    refine (Guarded.mapM (q := fun _ => True) fun relative _ => ?_).mono fun _ _ => trivial
    exact (guarded_rebase lo' relative).bind fun value _ => .ok trivial

theorem Entry.guarded_decodeBlock (h : s.Entry id pointer next lo hi) (hbits : s.bits.len < 2 ^ 63)
    (hsize : size + 1 < UInt64.size) (hid : id < s.numBlocks) {buffer : Array UInt64}
    (hb : size ≤ buffer.size) :
    Guarded (· = min size (s.len - id * size)) (BlockSequence.decodeBlock s id buffer).1 := by
  have hoffsets : Guarded (fun _ => True) (s.offsets id) :=
    (h.guarded_valueOffsets hbits hsize).bind fun offs _ => .ok trivial
  exact (BlockSequence.guarded_decodeBlock hid hb hoffsets).mono fun count hcount => hcount.1

/-! ## All accesses -/

end SampledSeq.HybridSeq
