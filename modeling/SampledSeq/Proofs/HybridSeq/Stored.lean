import SampledSeq.HybridSeq.Stored
import SampledSeq.Proofs.BlockList.Guarded
import SampledSeq.Proofs.BlockList.Kind
import SampledSeq.Proofs.PackedArray
import SampledSeq.Proofs.Sequence

/-!
# The stored form of a hybrid sequence

Loading accepts exactly the stored forms of the sequences that pass the check and whose lengths fit
their fields (`load_eq_ok`). The check is about the block table alone (`checked_iff`), and what a
search finds in a block a scan finds as well.
-/

namespace SampledSeq.HybridSeq

variable {size : Nat} {s : HybridSeq size}

def stored (s : HybridSeq size) : List UInt8 :=
  Source.wordBytes (UInt64.ofNat s.len) ++ (Source.wordBytes (UInt64.ofNat s.payload.size) ++
    (s.payload.toList.flatMap Source.wordBytes ++ s.table.stored))

theorem length_stored (s : HybridSeq size) :
    s.stored.length = 25 + s.payload.size * 8 + s.table.words.size * 8 := by
  simp only [stored, List.length_append, PackedArray.length_stored, Store.length_wordBytes,
    Source.wordBytes, Numeral.length_toBytes, Array.length_toList]
  omega

/-- What loading vouches for: both lengths fit their fields, and the block table passes the
check. -/
structure Accepted (s : HybridSeq size) : Prop where
  len_lt : s.len < UInt64.size
  payload_lt : s.payload.size < UInt64.size
  sound : s.table.Sound
  checked : s.check = .ok ()

theorem writes_serialize (s : HybridSeq size) :
    Store.Writes s.serialize s.stored s.stored.length := by
  have htable := (PackedArray.writes_serialize s.table).bind
    (f := fun table => pure (8 + 8 + s.payload.toList.length * 8 + table)) (.pure _)
  have hlen : s.stored.length = 8 + 8 + s.payload.toList.length * 8 + s.table.stored.length := by
    simp only [stored, List.length_append, Store.length_wordBytes, Source.wordBytes,
      Numeral.length_toBytes]
    omega
  rw [List.append_nil] at htable
  rw [hlen]
  exact (Store.writes_writeWord _).bind
    ((Store.writes_writeWord _).bind ((Store.writes_writeWords _).bind htable))

theorem toBytes_eq_stored (s : HybridSeq size) : BlockSequence.toBytes s = s.stored :=
  BlockSequence.toBytes_eq (writes_serialize s)

theorem exact_load : Load.Exact (load : Load (HybridSeq size)) :=
  Source.exact_readWord.bind fun _ => Source.exact_readWord.bind fun _ =>
    (Source.exact_readWords _).bind fun _ =>
    PackedArray.exact_load.bind fun _ => (Load.Exact.lift _).bind fun _ => .pure _

theorem load_eq_ok {source source' : Source} : load.run source = .ok (s, source') ↔
    s.Accepted ∧ source = ⟨s.stored ++ source'.rest, source'.ending⟩ := by
  simp only [load, Load.bind_eq_ok, Load.lift_eq_ok, Load.pure_eq_ok, Source.readWord_eq_ok,
    Source.readWords_eq_ok, PackedArray.load_eq_ok]
  constructor
  · rintro ⟨len, _, rfl, words, _, rfl, payload, _, ⟨hsize, rfl⟩, table, _, ⟨hsound, rfl⟩, _, _,
      ⟨hcheck, rfl⟩, rfl, rfl⟩
    refine ⟨⟨len.toNat_lt, ?_, hsound, hcheck⟩, ?_⟩
    · rw [hsize]
      exact words.toNat_lt
    · simp only [stored, hsize, UInt64.ofNat_toNat, List.append_assoc]
  · rintro ⟨h, rfl⟩
    have hlen : (UInt64.ofNat s.len).toNat = s.len := UInt64.toNat_ofNat_of_lt' h.len_lt
    have hpayload : (UInt64.ofNat s.payload.size).toNat = s.payload.size :=
      UInt64.toNat_ofNat_of_lt' h.payload_lt
    refine ⟨UInt64.ofNat s.len, _, ?_, UInt64.ofNat s.payload.size, _, rfl, s.payload, _,
      ⟨hpayload.symm, rfl⟩,
      s.table, source', ⟨h.sound, rfl⟩, (), _, ⟨?_, rfl⟩, ?_, rfl⟩
    · simp only [stored, List.append_assoc]
    · rw [hlen]
      exact h.checked
    · rw [hlen]

/-- Loading the stored form of a sequence is checking the sequence. -/
theorem run_load (hlen : s.len < UInt64.size) (hpayload : s.payload.size < UInt64.size)
    (hsound : s.table.Sound) :
    load.run { rest := s.stored } = s.check.map fun _ => (s, { rest := [] }) := by
  have hread :=
    PackedArray.run_behind_payload hlen hpayload (fun _ =>
      Source.readWords_eq_ok.2 ⟨rfl, rfl⟩) hsound
    fun len payload table => do
      let s : HybridSeq size := { len, table, payload }
      s.check
      return s
  exact hread.trans (Load.run_check s.check s _)

instance : BlockSequence.Canonical (HybridSeq size) :=
  BlockSequence.canonical_of_stored writes_serialize exact_load fun h => (load_eq_ok.1 h).2

theorem Accepted.reads (h : s.Accepted) : Load.Reads load (BlockSequence.toBytes s) s := by
  have hload : load.run ⟨s.stored ++ [], .ends⟩ = .ok (s, ⟨[], .ends⟩) := load_eq_ok.2 ⟨h, rfl⟩
  exact BlockSequence.reads_of_load hload

/-! ## What the check says -/

/-- The pointers of the blocks pass the check exactly if every block has room for its tag. -/
theorem checkBlocks_eq_ok {remaining id : Nat} : s.checkBlocks remaining id = .ok () ↔
    ∀ k, id ≤ k → k < id + remaining → ∃ pointer next, s.pointer k = .ok pointer ∧
      s.pointer (k + 1) = .ok next ∧
      pointer + BlockKind.tagBits ≤ next := by
  induction remaining generalizing id with
  | zero => exact iff_of_true rfl fun k hle hlt => absurd hlt (by omega)
  | succ remaining ih =>
    rw [checkBlocks, bind_eq_ok]
    simp only [bind_eq_ok, check_eq_ok, ih]
    constructor
    · rintro ⟨pointer, hpointer, next, hnext, hroom, hrest⟩ k hle hlt
      rcases Nat.eq_or_lt_of_le hle with rfl | hle
      · exact ⟨pointer, next, hpointer, hnext, Nat.le_of_not_lt hroom⟩
      · exact hrest k hle (by omega)
    · intro h
      obtain ⟨pointer, next, hpointer, hnext, hroom⟩ := h id (Nat.le_refl _) (by omega)
      exact ⟨pointer, hpointer, next, hnext, Nat.not_lt_of_le hroom, fun k hle hlt =>
        h k (by omega) (by omega)⟩

/-- The block table passes the check exactly if it has an entry for every block, the payload ends
with the last block, and every block has room for its tag. -/
theorem checked_iff : s.check = .ok () ↔ s.table.len = 2 * s.numBlocks + 2 ∧
    ∃ bits, s.payloadBits = .ok bits ∧ s.payload.size = BitWriter.wordsFor bits ∧
      ∀ k < s.numBlocks, ∃ pointer next, s.pointer k = .ok pointer ∧ s.pointer (k + 1) = .ok next ∧
        pointer + BlockKind.tagBits ≤ next := by
  rw [check]
  simp only [check_eq_ok, bind_eq_ok, checkBlocks_eq_ok, not_not, Nat.zero_le, Nat.zero_add,
    true_implies]

end SampledSeq.HybridSeq

/-!
## Two ways to a value of a hybrid sequence

A single value is searched for in its block, a whole block is scanned. Whatever the payload holds,
the scan succeeds exactly if every search does, and the offsets that it gives are those of the
values found (`scans_valueOffsets`), also when it is done in the slots of a buffer (`turns_fill`).
All that loading has to vouch for is that the block has a boundary at all (`Tabled.boundary_ok`).
-/

namespace SampledSeq.HybridSeq

variable {size : Nat} {s : HybridSeq size}

def valueIn (s : HybridSeq size) (id j : Nat) : Except Error UInt64 := do
  let count := Blocks.length s.len size id
  let pointer ← s.pointer id
  let start ← Position.checked (pointer + BlockKind.tagBits)
  let kind ← s.kindAt pointer
  if kind = .raw then
    kind.access s.bits start count 0 j
  else
    let (lo, bound) ← s.bounds id
    rebase lo (← kind.access s.bits start count bound j)

theorem get_eq_valueIn {i : Nat} (hi : i < s.len) : s.get i = s.valueIn (i / size) (i % size) := by
  rw [get, if_pos hi]
  rfl

theorem get_index {id j : Nat} (hj : j < Blocks.length s.len size id) :
    s.get (id * size + j) = s.valueIn id j := by
  obtain ⟨hlt, hdiv, hmod⟩ := Blocks.index_spec hj
  rw [get_eq_valueIn hlt, hdiv, hmod]

theorem boundary_of_bounds {id bound : Nat} {lo : UInt64} (h : s.bounds id = .ok (lo, bound)) :
    s.boundary id = .ok lo := by
  obtain ⟨lo', hlo, h⟩ := bind_eq_ok.1 h
  obtain ⟨hi, -, h⟩ := bind_eq_ok.1 h
  obtain ⟨-, h⟩ := check_eq_ok.1 h
  obtain ⟨distance, -, h⟩ := bind_eq_ok.1 h
  obtain rfl : lo' = lo := congrArg Prod.fst (Except.ok.inj h)
  exact hlo

theorem offset_of_value (lo value : UInt64) : lo + (value - lo) = value := by
  rw [UInt64.add_comm, UInt64.sub_add_cancel]

theorem value_of_offset (lo offset : UInt64) : lo + offset - lo = offset := by
  rw [UInt64.add_comm, UInt64.add_sub_cancel]

/-! ### Scans and searches -/

/-- A scan of `count` values succeeds exactly if the search for each of them does, and it gives
their offsets from `lo`. -/
def Scans (count : Nat) (lo : UInt64) (scan : Except Error (List UInt64))
    (search : Nat → Except Error UInt64) : Prop :=
  ∀ offs : List UInt64, scan = .ok offs ↔
    offs.length = count ∧ ∀ j (h : j < offs.length), search j = .ok (lo + offs[j])

/-- A step that scan and searches have in common. -/
theorem Scans.bind {α : Type} {count : Nat} {lo : UInt64} {x : Except Error α}
    {f : α → Except Error (List UInt64)} {g : α → Nat → Except Error UInt64} (h0 : 0 < count)
    (h : ∀ a, x = .ok a → Scans count lo (f a) (g a)) :
    Scans count lo (x >>= f) fun j => x >>= fun a => g a j := by
  intro offs
  cases x with
  | error e =>
    refine ⟨nofun, ?_⟩
    rintro ⟨hlen, hall⟩
    cases hall 0 (by omega)
  | ok a => exact h a rfl offs

variable {count start bound : Nat} {lo : UInt64} {bits : BitSlice}

/-- A gap list is scanned for the values themselves. -/
theorem scans_raw (h0 : 0 < count) :
    Scans count lo (do return (← BlockKind.decode .raw bits start 0 count).map (· - lo))
      (BlockKind.access .raw bits start count 0) := by
  intro offs
  rw [bind_eq_ok]
  constructor
  · rintro ⟨values, hvalues, h⟩
    obtain rfl := Except.ok.inj h
    obtain ⟨hlen, hall⟩ := (BlockKind.decode_eq_ok h0).1 hvalues
    refine ⟨by simpa using hlen, ?_⟩
    intro j hj
    rw [hall j (by simpa using hj), List.getElem_map, offset_of_value]
  · rintro ⟨hlen, hall⟩
    refine ⟨offs.map (lo + ·), (BlockKind.decode_eq_ok h0).2 ⟨by simpa using hlen, ?_⟩, ?_⟩
    · intro j hj
      rw [hall j (by simpa using hj), List.getElem_map]
    · have hback : (offs.map (lo + ·)).map (· - lo) = offs := by
        simp only [List.map_map, Function.comp_def, value_of_offset, List.map_id']
      rw [hback, pure_eq_ok]

/-- The other lists are scanned for values relative to the boundary, each of which is moved up. -/
theorem scans_rebased {kind : BlockKind} (h0 : 0 < count) :
    Scans count lo
      (do (← kind.decode bits start bound count).mapM fun relative => return (← rebase lo
        relative) - lo)
      (fun j => do rebase lo (← kind.access bits start count bound j)) := by
  intro offs
  rw [bind_eq_ok]
  constructor
  · rintro ⟨relatives, hrelatives, h⟩
    obtain ⟨hlen, hall⟩ := (BlockKind.decode_eq_ok h0).1 hrelatives
    obtain ⟨hlen', hmoved⟩ := mapM_eq_ok.1 h
    refine ⟨by omega, ?_⟩
    intro j hj
    obtain ⟨value, hvalue, h⟩ := bind_eq_ok.1 (hmoved j (by omega) hj)
    have hoff : value - lo = offs[j] := Except.ok.inj h
    show kind.access bits start count bound j >>= rebase lo = _
    rw [hall j (by omega), ok_bind, hvalue, ← hoff, offset_of_value]
  · rintro ⟨rfl, hall⟩
    have hfind : ∀ j : Fin offs.length, ∃ relative,
        kind.access bits start offs.length bound j = .ok relative ∧
        rebase lo relative = .ok (lo + offs[j]) :=
      fun j => bind_eq_ok.1 (hall j j.isLt)
    choose relative hrelative hmoved using hfind
    have hlen : (List.ofFn relative).length = offs.length := List.length_ofFn
    refine ⟨List.ofFn relative, (BlockKind.decode_eq_ok h0).2 ⟨hlen, ?_⟩,
      mapM_eq_ok.2 ⟨hlen.symm, ?_⟩⟩
    · intro j hj
      simpa using hrelative ⟨j, by omega⟩
    · intro j hj hj'
      have hback := hmoved ⟨j, hj'⟩
      simp only [List.getElem_ofFn, hback, ok_bind, Fin.getElem_fin, value_of_offset, pure_eq_ok]

/-! ### One block -/

/-- A block is scanned exactly if each of its values is found, and then to the offsets of those
values. -/
theorem scans_valueOffsets {id : Nat} (hlo : s.boundary id = .ok lo)
    (h0 : 0 < Blocks.length s.len size id) :
    Scans (Blocks.length s.len size id) lo (s.valueOffsets id) (s.valueIn id) := by
  refine .bind h0 fun pointer _ => .bind h0 fun start _ => .bind h0 ?_
  intro kind _
  by_cases hraw : kind = .raw
  · subst hraw
    simp only [if_true, hlo, ok_bind]
    exact scans_raw h0
  · simp only [if_neg hraw]
    refine .bind h0 ?_
    rintro ⟨lo', bound⟩ hbounds
    obtain rfl : lo = lo' := Except.ok.inj (hlo.symm.trans (boundary_of_bounds hbounds))
    exact scans_rebased h0

/-- A block whose values are all found is scanned to their offsets. -/
theorem valueOffsets_of_found {id : Nat} {block : List UInt64} (hlo : s.boundary id = .ok lo)
    (h0 : 0 < block.length) (hcount : block.length = Blocks.length s.len size id)
    (h : ∀ j (hj : j < block.length), s.valueIn id j = .ok block[j]) :
    s.valueOffsets id = .ok (block.map (· - lo)) := by
  refine (scans_valueOffsets hlo (hcount ▸ h0) _).2 ⟨(List.length_map _).trans hcount, ?_⟩
  intro j hj
  rw [h j (by simpa using hj), List.getElem_map, offset_of_value]

theorem boundary_of_valueOffsets {id : Nat} {offs : List UInt64}
    (h : s.valueOffsets id = .ok offs) :
    ∃ lo, s.boundary id = .ok lo := by
  obtain ⟨pointer, -, h⟩ := bind_eq_ok.1 h
  obtain ⟨start, -, h⟩ := bind_eq_ok.1 h
  obtain ⟨kind, -, h⟩ := bind_eq_ok.1 h
  split at h
  · obtain ⟨lo, hlo, -⟩ := bind_eq_ok.1 h
    exact ⟨lo, hlo⟩
  · obtain ⟨⟨lo, bound⟩, hbounds, -⟩ := bind_eq_ok.1 h
    exact ⟨lo, boundary_of_bounds hbounds⟩

/-- The slots of the values of a block hold its list before they hold the offsets. -/
theorem turns_fillValues (id : Nat) {before : List UInt64}
    (hlen : before.length = Blocks.length s.len size id) :
    Fill.Turns (s.fillValues id) before (s.valueOffsets id) := by
  unfold fillValues valueOffsets
  rw [← hlen]
  refine .lift_bind fun pointer _ => .lift_bind fun start _ => .lift_bind fun kind _ => ?_
  by_cases hraw : kind = .raw
  · simp only [if_pos hraw]
    refine .lift_bind fun lo _ => ?_
    have hmoved :=
      (kind.turns_fill (s := s.bits) start 0 before).changeAll fun value => .ok (value - lo)
    simpa only [← pure_eq_ok, List.mapM_pure] using hmoved
  · simp only [if_neg hraw]
    refine .lift_bind fun ⟨lo, bound⟩ _ => ?_
    exact (kind.turns_fill start bound before).changeAll _

/-- The last slot that is written is repeated in all slots behind it. -/
theorem turns_repeatLast {offs : List UInt64} (h : 0 < offs.length) (later : List UInt64) :
    Fill.Turns
      (do Fill.putAll offs.length (List.replicate later.length
        (← Fill.slot (← Position.sub offs.length 1))))
      (offs ++ later)
      (.ok (offs ++ List.replicate later.length (offs.getLastD 0))) := by
  rw [Position.sub_eq_ok h]
  obtain rfl | ⟨front, last, rfl⟩ := List.eq_nil_or_concat' offs
  · exact absurd h (Nat.lt_irrefl 0)
  · have hput :=
      Fill.turns_putAll (front ++ [last]) []
        (List.length_replicate (a := last) (n := later.length)).symm
    simp only [List.length_append, List.length_singleton, Nat.add_sub_cancel, List.getLastD_concat,
      List.append_nil, List.append_assoc, List.singleton_append] at hput ⊢
    exact .slot_bind hput

/-- All slots of a block are written, whatever they held. -/
theorem turns_fill {id : Nat} (hid : id < s.numBlocks) {before : List UInt64}
    (hlen : before.length = size) :
    Fill.Turns (s.fill id) before (s.offsets id) := by
  have hcount : Blocks.length s.len size id ≤ size := Blocks.length_le _ _ _
  have hpos : 0 < Blocks.length s.len size id := Blocks.length_pos hid
  obtain ⟨now, later, rfl, hnow⟩ : ∃ now later, before = now ++ later ∧
    now.length = Blocks.length s.len size id :=
    ⟨before.take (Blocks.length s.len size id), before.drop (Blocks.length s.len size id),
      (List.take_append_drop _ _).symm, by rw [List.length_take, hlen, Nat.min_eq_left hcount]⟩
  have hvalues := turns_fillValues (s := s) id hnow
  unfold fill offsets
  cases hoffs : s.valueOffsets id with
  | error e =>
    rw [hoffs] at hvalues
    exact (hvalues.frame later).stop
  | ok offs =>
    rw [hoffs] at hvalues
    have hoffslen : offs.length = Blocks.length s.len size id := hvalues.length_eq.trans hnow
    have hlater : later.length = size - offs.length := by
      rw [List.length_append] at hlen
      omega
    have hlast := turns_repeatLast (hoffslen ▸ hpos) later
    rw [hlater, hoffslen] at hlast
    rw [ok_bind, hoffslen]
    exact (hvalues.frame later).seq hlast

instance : BlockSequence.Lawful (HybridSeq size) where
  turns_fill hid _ hlen := turns_fill hid hlen

/-! ### Loaded sequences -/

/-- The block table answers, and has an entry for every block. -/
structure Tabled (s : HybridSeq size) : Prop where
  sound : s.table.Sound
  len_eq : s.table.len = 2 * s.numBlocks + 2

theorem tabled_of_load {source source' : Source} (h : load.run source = .ok (s, source')) :
    s.Tabled := by
  obtain ⟨haccepted, -⟩ := load_eq_ok.1 h
  exact ⟨haccepted.sound, (checked_iff.1 haccepted.checked).1⟩

theorem Tabled.boundary_ok (h : s.Tabled) {id : Nat} (hid : id ≤ s.numBlocks) :
    ∃ lo, s.boundary id = .ok lo := by
  have hlen := h.sound.len_lt
  have hlt : 2 * id + 1 < s.table.len := by
    rw [h.len_eq]
    omega
  obtain ⟨lo, hlo⟩ := h.sound.get_ok hlt
  exact ⟨lo, by rw [boundary, Position.checked_eq_ok (by omega), ok_bind, hlo]⟩

theorem sample_eq_boundary {id : Nat} (hid : id < s.numBlocks) : s.sample id = s.boundary id := by
  rw [sample, Blocks.check, if_pos hid, ok_bind]

theorem decodeBlock_ok_iff {id : Nat} {lo : UInt64} {buffer : Array UInt64} (hid : id < s.numBlocks)
    (hb : size ≤ buffer.size) (hlo : s.boundary id = .ok lo) {count : Nat} {out : Array UInt64} :
    BlockSequence.decodeBlock s id buffer = (.ok count, out) ↔
      ∃ offs : List UInt64, (offs.length = Blocks.length s.len size id ∧
          ∀ j (h : j < offs.length), s.get (id * size + j) = .ok (lo + offs[j])) ∧
        count = Blocks.length s.len size id ∧
        out = BlockSequence.overlay (offs ++ List.replicate (size - offs.length) (offs.getLastD 0))
          buffer := by
  have hscans := scans_valueOffsets hlo (Blocks.length_pos hid)
  rw [BlockSequence.decodeBlock_eq_ok hid hb]
  constructor
  · rintro ⟨slots, hslots, hcount, hout⟩
    obtain ⟨offs, hoffs, h⟩ := bind_eq_ok.1 hslots
    obtain rfl := Except.ok.inj h
    obtain ⟨hlen, hall⟩ := (hscans offs).1 hoffs
    exact ⟨offs, ⟨hlen, fun j hj => (get_index (hlen ▸ hj)).trans (hall j hj)⟩, hcount, hout⟩
  · rintro ⟨offs, ⟨hlen, hall⟩, hcount, hout⟩
    have hoffs := (hscans offs).2 ⟨hlen, fun j hj => (get_index (hlen ▸ hj)).symm.trans (hall j hj)⟩
    exact ⟨_, bind_eq_ok.2 ⟨offs, hoffs, rfl⟩, hcount, hout⟩

/-- In a sequence that was loaded, a block decodes exactly if each of its values is found, and what
it decodes to are the offsets of these values from the sample. -/
theorem decodeBlock_agrees_with_get {bytes : List UInt8}
    (hs : (BlockSequence.ofBytes (S := HybridSeq size) bytes).result = .ok s) {id : Nat}
    (hid : id < s.numBlocks)
    {buffer : Array UInt64} (hb : size ≤ buffer.size) :
    ((∃ count, (BlockSequence.decodeBlock s id buffer).1 = .ok count) ↔
        ∀ i < s.len, i / size = id → ∃ value, s.get i = .ok value) ∧
      ∀ count out, BlockSequence.decodeBlock s id buffer = (.ok count, out) →
        ∃ lo, s.sample id = .ok lo ∧ count = Blocks.length s.len size id ∧
          ∀ j < count, ∃ offset, out[j]? = some offset ∧
          s.get (id * size + j) = .ok (lo + offset) := by
  obtain ⟨source, hload⟩ := BlockSequence.load_of_ofBytes hs
  obtain ⟨lo, hlo⟩ := (tabled_of_load hload).boundary_ok (Nat.le_of_lt hid)
  have hdecode : ∀ count out, BlockSequence.decodeBlock s id buffer = (.ok count, out) ↔ _ :=
    fun _ _ => decodeBlock_ok_iff hid hb hlo
  refine ⟨⟨?_, ?_⟩, ?_⟩
  · rintro ⟨count, h⟩ i hi rfl
    obtain ⟨offs, ⟨hlen, hall⟩, -⟩ := (hdecode count _).1 (Prod.ext h rfl)
    have hj := Blocks.mod_lt_length (Blocks.size_pos_of_lt hid) hi
    have hget := hall (i % size) (hlen ▸ hj)
    rw [Nat.div_add_mod'] at hget
    exact ⟨_, hget⟩
  · intro hfound
    have hfind : ∀ j : Fin (Blocks.length s.len size id), ∃ value, s.get (id * size + j) =
        .ok value := by
      intro j
      obtain ⟨hlt, hdiv, -⟩ := Blocks.index_spec j.isLt
      exact hfound _ hlt hdiv
    choose value hvalue using hfind
    have hlen : (List.ofFn fun j => value j - lo).length = Blocks.length s.len size id :=
      List.length_ofFn
    have hok := (hdecode _ _).2 ⟨List.ofFn fun j => value j - lo, ⟨hlen, fun j hj => ?_⟩, rfl, rfl⟩
    · exact ⟨_, congrArg Prod.fst hok⟩
    · rw [List.getElem_ofFn, offset_of_value]
      exact hvalue ⟨j, hlen ▸ hj⟩
  · intro count out h
    obtain ⟨offs, ⟨hlen, hall⟩, rfl, rfl⟩ := (hdecode count out).1 h
    refine ⟨lo, (sample_eq_boundary hid).trans hlo, rfl, ?_⟩
    intro j hj
    rw [← hlen] at hj
    refine ⟨offs[j], ?_, hall j hj⟩
    rw [BlockSequence.getElem?_overlay (by rw [List.length_append]; omega),
      List.getElem_append_left hj]

/-- The stored form of the values 5, 3, 9 in blocks of two. -/
def threeValueBytes : List UInt8 :=
  [3, 0, 0, 0, 0, 0, 0, 0, 1, 0, 0, 0, 0, 0, 0, 0, 16, 116, 76, 0, 0, 0, 0, 0,
    5, 6, 0, 0, 0, 0, 0, 0, 0, 0, 196, 129, 19, 0, 0, 0, 0]

theorem threeValues_found_as_decoded : ∃ s : HybridSeq 2,
    (BlockSequence.ofBytes (S := HybridSeq 2) threeValueBytes).result = .ok s ∧
      (BlockSequence.decodeBlock s 0 #[0, 0]).1 = .ok 2 ∧ ∀ i < s.len, i / 2 = 0 →
      ∃ value, s.get i = .ok value := by
  let s : HybridSeq 2 := ⟨3, ⟨#[327271424], 5, 6⟩, #[5010448]⟩
  have hs : (BlockSequence.ofBytes (S := HybridSeq 2) threeValueBytes).result = .ok s := by
    decide +kernel
  have hcount : (BlockSequence.decodeBlock s 0 #[0, 0]).1 = .ok 2 := by decide +kernel
  exact ⟨s, hs, hcount, (decodeBlock_agrees_with_get hs (by decide) (by decide)).1.1 ⟨2, hcount⟩⟩

end SampledSeq.HybridSeq
