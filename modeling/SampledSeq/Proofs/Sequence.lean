import SampledSeq.Proofs.Bits.Edits
import SampledSeq.Proofs.Blocks
import SampledSeq.Proofs.Outcome
import SampledSeq.Proofs.Stream
import SampledSeq.Sequence

/-!
# What every container shares

A container is `Lawful` if it fills the slots of a block with its offsets, and `Canonical` if what
is written is what is accepted. From these two follows what can be said of decoding, storing and
loading without knowing how blocks are stored.
-/

/-!
## Decoding blocks

Every container writes the offsets of a block into its slots (`Lawful`), and `decodeBlock` adds to
that only the checks of its arguments: for a block that exists and a buffer that is long enough it
answers exactly if the offsets do (`decodeBlock_eq_ok`), and the buffer then starts with them
(`getElem?_overlay`). A block that does not decode leaves something else in its slots, and nothing
behind them (`decodeBlock_of_error`).
-/

namespace SampledSeq

/-! ### Decoding into a buffer -/

namespace BlockSequence

variable {S : Type} [BlockSequence S] {s : S} {id : Nat} {buffer : Array UInt64}

/-- `buffer` with its first slots replaced by `values`. -/
def overlay (values : List UInt64) (buffer : Array UInt64) : Array UInt64 :=
  (values ++ buffer.toList.drop values.length).toArray

theorem getElem?_overlay {values : List UInt64} {j : Nat} (hj : j < values.length) :
    (overlay values buffer)[j]? = some values[j] := by
  simp [overlay, List.getElem?_append, hj]

theorem getElem?_overlay_of_le {values : List UInt64} {j : Nat} (hj : values.length ≤ j) :
    (overlay values buffer)[j]? = buffer[j]? := by
  rw [overlay, List.getElem?_toArray, List.getElem?_append_right hj, List.getElem?_drop,
    Nat.add_sub_cancel' hj, Array.getElem?_toList]

theorem size_overlay {values : List UInt64} (h : values.length ≤ buffer.size) :
    (overlay values buffer).size = buffer.size := by
  simp only [overlay, List.size_toArray, List.length_append, List.length_drop, Array.length_toList]
  omega

/-- Decoding in place writes the offsets of a block into its slots, whatever they held. -/
class Lawful (S : Type) [BlockSequence S] : Prop where
  turns_fill : ∀ {s : S} {id : Nat}, id < numBlocks s →
      ∀ before : List UInt64, before.length = blockSize S →
    Fill.Turns (fill s id) before (offsets s id)

/-- The offsets of a block fill as many slots as a block has. -/
theorem Lawful.length_offsets [Lawful S] {values : List UInt64} (hid : id < numBlocks s)
    (h : offsets s id = .ok values) : values.length = blockSize S := by
  have hlen : (List.replicate (blockSize S) (0 : UInt64)).length = blockSize S :=
    List.length_replicate
  have hfill := Lawful.turns_fill hid _ hlen
  rw [h] at hfill
  exact hfill.length_eq.trans hlen

/-- Only a block that exists decodes, and only into a buffer that is long enough. -/
theorem lt_of_decodeBlock_ok {count : Nat} {out : Array UInt64}
    (h : decodeBlock s id buffer = (.ok count, out)) :
    id < numBlocks s ∧ blockSize S ≤ buffer.size := by
  unfold decodeBlock at h
  split at h
  · simp at h
  · split at h
    · simp at h
    · omega

theorem decodeBlock_past_end (s : S) (buffer : Array UInt64) (hid : numBlocks s ≤ id) :
    decodeBlock s id buffer = (.error (.indexOutOfRange id (numBlocks s)), buffer) :=
  if_pos hid

theorem decodeBlock_too_short (hid : id < numBlocks s) (hb : buffer.size < blockSize S) :
    decodeBlock s id buffer = (.error (.bufferTooSmall (blockSize S) buffer.size), buffer) :=
  (if_neg (Nat.not_le_of_lt hid)).trans (if_pos hb)

/-- Where decoding is refused, nothing is written. -/
theorem exists_decodeBlock_of_refused (h : numBlocks s ≤ id ∨ buffer.size < blockSize S) :
    ∃ e, decodeBlock s id buffer = (.error e, buffer) := by
  rcases Nat.lt_or_ge id (numBlocks s) with hid | hid
  · exact ⟨_, decodeBlock_too_short hid (h.resolve_left (Nat.not_le_of_lt hid))⟩
  · exact ⟨_, decodeBlock_past_end s buffer hid⟩

section

variable [Lawful S]

/-- A block that exists answers as its offsets do, and something is laid over the buffer: the
offsets, if there are any. -/
theorem exists_decodeBlock_eq (hid : id < numBlocks s) (hb : blockSize S ≤ buffer.size) :
    ∃ written : List UInt64, written.length = blockSize S ∧
      (∀ values, offsets s id = .ok values → written = values) ∧
      decodeBlock s id buffer =
        ((offsets s id).map fun _ => Blocks.length (len s) (blockSize S) id,
          overlay written buffer) := by
  have hroom : (buffer.toList.take (blockSize S)).length = blockSize S := by
    rw [List.length_take, Array.length_toList, Nat.min_eq_left hb]
  obtain ⟨written, hlen, hwritten, hrun⟩ := Lawful.turns_fill hid _ hroom
  have hrun := hrun (buffer.toList.drop (blockSize S))
  rw [List.take_append_drop, Array.toArray_toList] at hrun
  rw [hroom] at hlen
  refine ⟨written, hlen, hwritten, ?_⟩
  rw [decodeBlock, if_neg (Nat.not_le_of_lt hid), if_neg (Nat.not_lt_of_le hb), hrun, overlay, hlen]
  cases offsets s id <;> rfl

theorem decodeBlock_of_ok {values : List UInt64} (hid : id < numBlocks s)
    (hb : blockSize S ≤ buffer.size) (h : offsets s id = .ok values) :
    decodeBlock s id buffer = (.ok (Blocks.length (len s) (blockSize S) id),
      overlay values buffer) := by
  obtain ⟨written, -, hwritten, hdecode⟩ := exists_decodeBlock_eq hid hb
  rw [hdecode, h, hwritten values h]
  rfl

theorem decodeBlock_fst (hid : id < numBlocks s) (hb : blockSize S ≤ buffer.size) :
    (decodeBlock s id buffer).1 = (offsets s id).map fun _ =>
      Blocks.length (len s) (blockSize S) id := by
  obtain ⟨written, -, -, hdecode⟩ := exists_decodeBlock_eq hid hb
  rw [hdecode]

/-- A block that exists decodes exactly if its offsets do, and they are laid over the buffer. -/
theorem decodeBlock_eq_ok (hid : id < numBlocks s) (hb : blockSize S ≤ buffer.size) {count : Nat}
    {out : Array UInt64} :
    decodeBlock s id buffer = (.ok count, out) ↔
      ∃ values, offsets s id = .ok values ∧ count = Blocks.length (len s) (blockSize S) id ∧
      out = overlay values buffer := by
  cases hoffs : offsets s id with
  | error e =>
    have hfst := decodeBlock_fst hid hb
    rw [hoffs] at hfst
    simp [Prod.ext_iff, hfst, Except.map]
  | ok values => simp [decodeBlock_of_ok hid hb hoffs, eq_comm]

/-- What decoding leaves behind: the buffer as it was, or with something laid over the slots of a
block. -/
theorem exists_decodeBlock (s : S) (id : Nat) (buffer : Array UInt64) :
    (decodeBlock s id buffer).2 = buffer ∨ blockSize S ≤ buffer.size ∧
      ∃ written : List UInt64, written.length = blockSize S ∧
      (decodeBlock s id buffer).2 = overlay written buffer := by
  by_cases h : numBlocks s ≤ id ∨ buffer.size < blockSize S
  · obtain ⟨e, hdecode⟩ := exists_decodeBlock_of_refused h
    exact .inl (congrArg Prod.snd hdecode)
  · obtain ⟨hid, hb⟩ : id < numBlocks s ∧ blockSize S ≤ buffer.size := by omega
    obtain ⟨written, hlen, -, hdecode⟩ := exists_decodeBlock_eq hid hb
    exact .inr ⟨hb, written, hlen, congrArg Prod.snd hdecode⟩

theorem size_decodeBlock (s : S) (id : Nat) (buffer : Array UInt64) :
    (decodeBlock s id buffer).2.size = buffer.size := by
  obtain h | ⟨hb, written, hlen, h⟩ := exists_decodeBlock s id buffer
  · rw [h]
  · rw [h, size_overlay (hlen ▸ hb)]

end

/-- What decoding block `id` of a container of `values` has to leave behind: the number of values in
the block, in the first slots their offsets from `lo`, and in every slot that is left over the last
of them once more. -/
structure Decoded (values : List UInt64) (size id : Nat) (lo : UInt64)
    (r : Except Error Nat × Array UInt64) : Prop where
  count_eq : r.1 = .ok (min size (values.length - id * size))
  offset : ∀ j (h : id * size + j < values.length), j < size →
      r.2[j]? = some (values[id * size + j] - lo)
  filled : ∀ j, min size (values.length - id * size) ≤ j → j < size →
    r.2[j]? = r.2[min size (values.length - id * size) - 1]?

/-- The offsets of the values of a block, filled up with the last of them, decode as they have
to. -/
theorem decoded_of_offsets [Lawful S] {values offs : List UInt64} {lo : UInt64}
    (hid : id < numBlocks s)
    (hb : blockSize S ≤ buffer.size) (hlen : len s = values.length)
    (hoffs : offs = (Blocks.part values (blockSize S) id).map (· - lo))
    (h : offsets s id =
      .ok (offs ++ List.replicate (blockSize S - offs.length) (offs.getLastD 0))) :
    Decoded values (blockSize S) id lo (decodeBlock s id buffer) := by
  have hcount : offs.length = min (blockSize S) (values.length - id * blockSize S) := by
    rw [hoffs, List.length_map, Blocks.length_part, Blocks.length, Nat.min_comm]
  have hpos : 0 < offs.length := by
    rw [hoffs, List.length_map, Blocks.length_part, ← hlen]
    exact Blocks.length_pos hid
  rw [decodeBlock_of_ok hid hb h]
  refine ⟨?_, ?_, ?_⟩
  · rw [hlen, Blocks.length, Nat.min_comm]
  · intro j hj hsize
    have hj' : j < offs.length := by omega
    rw [getElem?_overlay (by rw [List.length_append]; omega), List.getElem_append_left hj']
    simp only [hoffs, List.getElem_map, Blocks.getElem_part]
  · intro j hle hsize
    rw [← hcount] at hle ⊢
    rw [getElem?_overlay (by rw [List.length_append, List.length_replicate]; omega),
      getElem?_overlay (by rw [List.length_append]; omega), List.getElem_append_right hle,
        List.getElem_replicate,
      List.getElem_append_left (by omega), Blocks.getLastD_eq_getElem hpos]

/-! ### Loading -/

theorem load_of_ofBytes {bytes : List UInt8} (h : (ofBytes (S := S) bytes).result = .ok s) :
    ∃ source, (load (S := S)).run { rest := bytes } = .ok (s, source) := by
  unfold ofBytes at h
  cases hload : (load (S := S)).run { rest := bytes } with
  | error e => simp [hload] at h
  | ok r =>
    simp only [hload] at h
    split at h
    · exact ⟨r.2, congrArg Except.ok (Prod.ext (Except.ok.inj h) rfl)⟩
    · cases h

end BlockSequence

end SampledSeq

/-!
## Stored containers

A kind of container is `Canonical` if what is written is what is accepted: every container adds its
stored form to the sink, and whatever loading accepts is the stored form of what it answers. It
follows that no stored form is the beginning of another one (`ofBytes_part`), that nothing may stand
behind one (`ofBytes_append`), and that stored forms can follow each other in a stream
(`run_loadMany`).
-/

namespace SampledSeq.BlockSequence

variable {S : Type} [BlockSequence S] {s : S} {bytes : List UInt8}

/-- Containers have one stored form each, and nothing else is accepted. -/
class Canonical (S : Type) [BlockSequence S] : Prop where
  writes_serialize : ∀ s : S, Store.Writes (serialize s) (toBytes s) (toBytes s).length
  exact_load : Load.Exact (load (S := S))
  eq_of_load : ∀ {s : S} {source source' : Source}, (load (S := S)).run source = .ok (s, source') →
    source = ⟨toBytes s ++ source'.rest, source'.ending⟩

/-- Loading `count` containers, one after the other. -/
def loadMany : Nat → Load (List S)
  | 0 => return []
  | count + 1 => do
    let s ← load
    let others ← loadMany count
    return s :: others

theorem toBytes_eq {n : Nat} (h : Store.Writes (serialize s) bytes n) : toBytes s = bytes := by
  rw [toBytes, h {}, Store.run_write_none]
  simp

/-! ### Loading -/

theorem ofBytes_of_ok {source : Source}
    (h : (load (S := S)).run { rest := bytes } = .ok (s, source)) :
    (ofBytes (S := S) bytes).result = if source.rest.isEmpty then .ok s
    else corrupt (.trailingBytes source.rest.length) := by
  simp only [ofBytes, h]

theorem ofBytes_of_error {e : Error} (h : (load (S := S)).run { rest := bytes } = .error e) :
    (ofBytes (S := S) bytes).result = .error e := by
  simp only [ofBytes, h]

theorem ofBytes_of_reads (h : Load.Reads load bytes s) :
    (ofBytes (S := S) bytes).result = .ok s := by
  have hload := h.read [] .ends
  rw [List.append_nil] at hload
  rw [ofBytes_of_ok hload]
  rfl

/-- The beginning of a stored form is refused. -/
theorem ofBytes_part (h : Load.Reads load bytes s) {part : List UInt8} (hpart : part <+: bytes)
    (hne : part ≠ bytes) :
    ∃ cause, (ofBytes (S := S) part).result = corrupt cause := by
  obtain ⟨cause, hcause⟩ := h.cut part .ends hpart hne rfl
  exact ⟨cause, ofBytes_of_error hcause⟩

/-- A stored form with more bytes behind it is refused. -/
theorem ofBytes_append (h : Load.Reads load bytes s) {rest : List UInt8} (hne : rest ≠ []) :
    (ofBytes (S := S) (bytes ++ rest)).result = corrupt (.trailingBytes rest.length) := by
  rw [ofBytes_of_ok (h.read rest .ends), if_neg (by simpa using hne)]

/-- Stored forms that follow each other are loaded one by one, and what lies behind the last one is
left alone. -/
theorem run_loadMany {containers : List S} (h : ∀ s ∈ containers, Load.Reads load (toBytes s) s)
    (rest : List UInt8) (ending : Ending) :
    (loadMany containers.length).run ⟨containers.flatMap toBytes ++ rest, ending⟩ =
      .ok (containers, ⟨rest, ending⟩) := by
  induction containers with
  | nil => rfl
  | cons s containers ih =>
    have hothers := ih fun s hs => h s (List.mem_cons_of_mem _ hs)
    rw [List.length_cons, loadMany, List.flatMap_cons, List.append_assoc,
      Load.run_bind_of_ok ((h s List.mem_cons_self).read _ _), Load.run_bind_of_ok hothers]
    rfl

/-- A kind of container is canonical if every container writes some bytes, and is loaded from
nothing else. -/
theorem canonical_of_stored {stored : S → List UInt8}
    (hserialize : ∀ s : S, Store.Writes (serialize s) (stored s) (stored s).length)
    (hexact : Load.Exact (load (S := S)))
    (hload : ∀ {s : S} {source source' : Source}, (load (S := S)).run source = .ok (s, source') →
      source = ⟨stored s ++ source'.rest, source'.ending⟩) : Canonical S where
  writes_serialize s := by
    rw [toBytes_eq (hserialize s)]
    exact hserialize s
  exact_load := hexact
  eq_of_load {s source source'} h := by
    rw [toBytes_eq (hserialize s)]
    exact hload h

section
variable [Canonical S]

/-- A container that was loaded is loaded from its stored form. -/
theorem reads_of_load {source source' : Source}
    (h : (load (S := S)).run source = .ok (s, source')) :
    Load.Reads load (toBytes s) s := by
  obtain ⟨used, hused, hreads⟩ := Canonical.exact_load h
  have hsame := hused.symm.trans (Canonical.eq_of_load h)
  obtain rfl : used = toBytes s := List.append_cancel_right (congrArg Source.rest hsame)
  exact hreads

/-- Only the stored form of a container gives that container. -/
theorem toBytes_of_ofBytes (h : (ofBytes (S := S) bytes).result = .ok s) :
    toBytes s = bytes ∧ Load.Reads load bytes s := by
  cases hload : (load (S := S)).run { rest := bytes } with
  | error e => simp [ofBytes_of_error hload] at h
  | ok r =>
    obtain ⟨s', source⟩ := r
    rw [ofBytes_of_ok hload] at h
    split at h
    · rename_i hempty
      obtain rfl : s' = s := Except.ok.inj h
      have hbytes : bytes = toBytes s' ++ source.rest :=
        congrArg Source.rest (Canonical.eq_of_load hload)
      rw [List.isEmpty_iff.1 hempty, List.append_nil] at hbytes
      subst hbytes
      exact ⟨rfl, reads_of_load hload⟩
    · cases h

end

/-! ### Arbitrary bytes -/

/-- A block that exists decodes as its offsets do, and they are laid over the buffer. -/
theorem guarded_decodeBlock [Lawful S] {p : List UInt64 → Prop} {id : Nat} {buffer : Array UInt64}
    (hid : id < numBlocks s) (hb : blockSize S ≤ buffer.size) (h : Guarded p (offsets s id)) :
    Guarded (fun count => count = min (blockSize S) (len s - id * blockSize S) ∧
      ∃ offs, offsets s id = .ok offs ∧ p offs ∧ (decodeBlock s id buffer).2 = overlay offs buffer)
      (decodeBlock s id buffer).1 := by
  rcases h with ⟨offs, hoffs, hp⟩ | ⟨cause, hcause⟩
  · rw [decodeBlock_of_ok hid hb hoffs]
    exact .ok ⟨Nat.min_comm _ _, offs, hoffs, hp, rfl⟩
  · rw [decodeBlock_fst hid hb, hcause]
    exact .corrupt cause

end SampledSeq.BlockSequence

/-!
## Blocks that depend on their own bits only

A stored form starts with two lengths, and then comes the payload. A block is `Isolated` if every
bit of the payload outside of its own segment may be changed: the bytes are still accepted, and the
block reads and decodes as before.
-/

namespace SampledSeq.BlockSequence

variable {S : Type} [BlockSequence S] {s s' : S} {id : Nat}

/-- The bits of the two lengths in front of a payload. -/
def payloadStart : Nat := 128

/-- The bit at `p` is a payload bit outside of the segment. -/
def Outside (payloadBits : Nat) (segment : Nat × Nat) (p : Nat) : Prop :=
  ∃ q < payloadBits, p = payloadStart + q ∧ ¬ (segment.1 ≤ q ∧ q < segment.2)

/-- The values of a block are read and decoded as those of the same block of `s`. -/
structure SameBlock (s s' : S) (id : Nat) : Prop where
  len_eq : len s' = len s
  get_eq : ∀ i, i / blockSize S = id → get s' i = get s i
  decodeBlock_eq : ∀ buffer, decodeBlock s' id buffer = decodeBlock s id buffer

/-- Whatever the payload holds outside of the segment, the block is the same. -/
def Isolated (s : S) (payloadBits id : Nat) (segment : Nat × Nat) : Prop :=
  ∀ bytes, Bytes.DiffersIn (Outside payloadBits segment) bytes (toBytes s) →
    ∃ s' : S, (ofBytes (S := S) bytes).result = .ok s' ∧ SameBlock s s' id

theorem decodeBlock_congr [Lawful S] (hlen : len s' = len s) {values : List UInt64}
    (hoffs' : offsets s' id = .ok values) (hoffs : offsets s id = .ok values)
    (buffer : Array UInt64) : decodeBlock s' id buffer = decodeBlock s id buffer := by
  have hblocks : numBlocks s' = numBlocks s := by rw [numBlocks, numBlocks, hlen]
  rcases Nat.lt_or_ge id (numBlocks s) with hid | hid
  · have hid' : id < numBlocks s' := hblocks ▸ hid
    rcases Nat.lt_or_ge buffer.size (blockSize S) with hb | hb
    · rw [decodeBlock_too_short hid' hb, decodeBlock_too_short hid hb]
    · rw [decodeBlock_of_ok hid' hb hoffs', decodeBlock_of_ok hid hb hoffs, hlen]
  · rw [decodeBlock_past_end s' buffer (hblocks ▸ hid), decodeBlock_past_end s buffer hid, hblocks]

/-- A block is isolated if it is found in every payload that has the bits of its segment, between
the same lengths and the same table. -/
theorem isolated_of_payload {lengths payload table : List UInt8} {payloadBits : Nat}
    {segment : Nat × Nat}
    (hstored : toBytes s = lengths ++ (payload ++ table))
    (hstart : 8 * lengths.length = payloadStart)
    (hbits : 8 * payload.length = payloadBits)
    (h : ∀ other, Bytes.DiffersIn (fun q => ¬ (segment.1 ≤ q ∧ q < segment.2)) other payload →
      ∃ s' : S, Load.Reads load (lengths ++ (other ++ table)) s' ∧ SameBlock s s' id) :
    Isolated s payloadBits id segment := by
  intro bytes hbytes
  rw [hstored] at hbytes
  have hinside : ∀ p, Outside payloadBits segment p →
      8 * lengths.length ≤ p ∧ p < 8 * lengths.length + 8 * payload.length := by
    rintro p ⟨q, hq, rfl, -⟩
    omega
  obtain ⟨other, rfl, hother⟩ := hbytes.middle hinside
  have hsegment : Bytes.DiffersIn (fun q => ¬ (segment.1 ≤ q ∧ q < segment.2)) other payload := by
    refine ⟨hother.length_eq, ?_⟩
    intro q hq
    apply hother.bit_eq q
    rintro ⟨q', -, hq', hout⟩
    obtain rfl : q = q' := by omega
    exact hq hout
  obtain ⟨s', hreads, hsame⟩ := h other hsegment
  exact ⟨s', ofBytes_of_reads hreads, hsame⟩

end SampledSeq.BlockSequence
