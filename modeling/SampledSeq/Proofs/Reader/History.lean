import SampledSeq.Proofs.DeltaSeq.Stored
import SampledSeq.Proofs.HybridSeq.Stored
import SampledSeq.Proofs.Sequence
import SampledSeq.Reader.Cursor
import SampledSeq.Variant

/-!
# Reads do not depend on earlier reads

However a reader or a cursor has been used, its next step gives what any other one gives at that
position (`reads_ignore_history`).
-/

/-!
## What a cached reader holds

However a reader has been used, its buffer has room for a block, and if a block is cached it was
decoded into that buffer (`Coherent`). So a read gives what the sample and the offsets of its block
say, whatever was read before (`get_of_offsets`).
-/

namespace SampledSeq.CachedReader

open BlockSequence

variable {S : Type} [BlockSequence S] {s : S} {r : CachedReader S}

/-- A reader of `s` as some reads have left it. -/
inductive Reachable (s : S) : CachedReader S → Prop
  | new : Reachable s (CachedReader.new s)
  | get {r : CachedReader S} (i : Nat) : Reachable s r → Reachable s (r.get i).2

/-- The buffer has room for a block, and holds the cached one. -/
structure Coherent (s : S) (r : CachedReader S) : Prop where
  seq_eq : r.seq = s
  room : blockSize S ≤ r.buffer.size
  cached : ∀ id, r.block = some id →
    sample s id = .ok r.base ∧ ∃ count before, decodeBlock s id before = (.ok count, r.buffer)

theorem coherent_new (s : S) : Coherent s (CachedReader.new s) where
  seq_eq := rfl
  room := by simp [CachedReader.new]
  cached := nofun

/-! ### One step -/

theorem Coherent.fetch [Lawful S] (h : Coherent s r) (id : Nat) : Coherent s (r.fetch id).2 := by
  obtain ⟨rfl, hroom, hcached⟩ := h
  have hsize := size_decodeBlock r.seq id r.buffer
  unfold CachedReader.fetch
  -- only the last case caches a block, and there it has just been decoded
  split
  · exact ⟨rfl, hroom, hcached⟩
  · split
    · exact ⟨rfl, hroom, nofun⟩
    · rename_i base hbase
      split
      · rename_i e buffer hdecode
        rw [hdecode] at hsize
        exact ⟨rfl, hsize ▸ hroom, nofun⟩
      · rename_i count buffer hdecode
        rw [hdecode] at hsize
        refine ⟨rfl, hsize ▸ hroom, ?_⟩
        intro id' hid'
        obtain rfl := Option.some.inj hid'
        exact ⟨hbase, count, r.buffer, hdecode⟩

theorem Coherent.fetch_ok [Lawful S] (h : Coherent s r) {id : Nat} {lo : UInt64}
    {offs : List UInt64} (hid : id < numBlocks s) (hlo : sample s id = .ok lo)
    (hoffs : offsets s id = .ok offs) :
    (r.fetch id).1 = .ok () ∧ (r.fetch id).2.block = some id := by
  obtain ⟨rfl, hroom, -⟩ := h
  unfold CachedReader.fetch
  split
  · rename_i hblock
    exact ⟨rfl, hblock⟩
  · simp only [hlo, decodeBlock_of_ok hid hroom hoffs, and_self]

theorem Coherent.get [Lawful S] (h : Coherent s r) (i : Nat) : Coherent s (r.get i).2 := by
  have hfetch := h.fetch (i / blockSize S)
  unfold CachedReader.get
  dsimp only
  split
  · split
    · rename_i hresult
      rwa [hresult] at hfetch
    · rename_i hresult
      rwa [hresult] at hfetch
  · exact h

/-! ### Any number of steps -/

theorem Reachable.coherent [Lawful S] (h : Reachable s r) : Coherent s r := by
  induction h with
  | new => exact coherent_new s
  | get i _ ih => exact ih.get i

/-- A read in a block that decodes gives the sample of the block and the offset of the place. -/
theorem Coherent.get_of_offsets [Lawful S] (h : Coherent s r) {id j : Nat} {lo : UInt64}
    {offs : List UInt64} (hj : j < Blocks.length (len s) (blockSize S) id)
    (hlo : sample s id = .ok lo) (hoffs : offsets s id = .ok offs) (hlt : j < offs.length) :
    (r.get (id * blockSize S + j)).1 = .ok (lo + offs[j]) := by
  obtain ⟨hindex, hdiv, hmod⟩ := Blocks.index_spec hj
  have hpos : 0 < blockSize S := Nat.zero_lt_of_lt (Nat.lt_of_lt_of_le hj (Blocks.length_le _ _ _))
  have hid : id < numBlocks s := hdiv ▸ Blocks.div_lt_count hpos hindex
  obtain ⟨hok, hblock⟩ := h.fetch_ok hid hlo hoffs
  obtain ⟨-, -, hcached⟩ := h.fetch id
  obtain ⟨hbase, count, before, hdecode⟩ := hcached id hblock
  obtain ⟨values, hvalues, -, hbuffer⟩ :=
    (decodeBlock_eq_ok hid (lt_of_decodeBlock_ok hdecode).2).1 hdecode
  obtain rfl : offs = values := Except.ok.inj (hoffs.symm.trans hvalues)
  obtain rfl : lo = _ := Except.ok.inj (hlo.symm.trans hbase)
  have hslot : Position.get (r.fetch id).2.buffer j = .ok offs[j] := by
    rw [Position.get, hbuffer, getElem?_overlay hlt]
  unfold CachedReader.get
  rw [h.seq_eq, hdiv, hmod, if_pos hindex]
  generalize r.fetch id = result at hok hslot
  obtain ⟨outcome, r'⟩ := result
  obtain rfl := hok
  simp only [hslot]
  rfl

end SampledSeq.CachedReader

/-!
## What a cursor gives

A cursor reads through a cached reader, so wherever a walk has got to, its next step gives what any
other reader gives at that position.
-/

namespace SampledSeq.Cursor

open BlockSequence

variable {S : Type} [BlockSequence S] {s : S} {c : Cursor S}

/-- A walk over `s` after some steps. -/
inductive Reachable (s : S) : Cursor S → Prop
  | start : Reachable s (Cursor.start s)
  | next {c : Cursor S} : Reachable s c → Reachable s c.next.2

theorem reader_next (hc : c.pos < len c.reader.seq) :
    c.next.1 = some (c.reader.get c.pos).1 ∧ c.next.2.reader = (c.reader.get c.pos).2 := by
  rw [next, if_pos hc]
  split <;> simp_all

/-- The reader of a walk has only been read with. -/
theorem Reachable.reader (h : Reachable s c) : CachedReader.Reachable s c.reader := by
  induction h with
  | start => exact .new
  | @next c _ ih =>
    by_cases hc : c.pos < len c.reader.seq
    · rw [(reader_next hc).2]
      exact ih.get c.pos
    · rw [Cursor.next, if_neg hc]
      exact ih

theorem Reachable.next_eq [Lawful S] (h : Reachable s c) (hc : c.pos < len s) :
    c.next.1 = some (c.reader.get c.pos).1 := by
  rw [← h.reader.coherent.seq_eq] at hc
  exact (reader_next hc).1

end SampledSeq.Cursor

/-!
## Readers of any history

A block that fails to decode may already have overwritten a part of the buffer of its reader.
Nothing is cached then, so the buffer may hold anything (`Used`), and still every read gives what
the sample and the offsets of its block say (`Coherent.get_eq`). So a reader that was used in any
way answers like one that was not, and what it has cached afterwards depends on this one call only
(`reads_ignore_history`).
-/

namespace SampledSeq.CachedReader

open BlockSequence

variable {S : Type} [BlockSequence S] {s : S} {r : CachedReader S}

/-- A reader of `s` after any calls. While nothing is cached, a block that was decoded in part may
have left anything in the slots of the buffer. -/
inductive Used (s : S) : CachedReader S → Prop
  | new : Used s (CachedReader.new s)
  | get {r : CachedReader S} (i : Nat) : Used s r → Used s (r.get i).2
  | overwritten {r : CachedReader S} (buffer : Array UInt64) :
      Used s r → r.block = none → buffer.size = r.buffer.size → Used s { r with buffer }

theorem Coherent.overwrite (h : Coherent s r) {buffer : Array UInt64} (hblock : r.block = none)
    (hsize : buffer.size = r.buffer.size) : Coherent s { r with buffer } where
  seq_eq := h.seq_eq
  room := hsize ▸ h.room
  cached _ hid := nomatch hblock.symm.trans hid

theorem Used.coherent [Lawful S] (h : Used s r) : Coherent s r := by
  induction h with
  | new => exact coherent_new s
  | get i _ ih => exact ih.get i
  | overwritten buffer _ hblock hsize ih => exact ih.overwrite hblock hsize

/-! ### What one read answers -/

def content (s : S) (id : Nat) : Except Error (UInt64 × List UInt64) := do
  let lo ← sample s id
  let offs ← offsets s id
  return (lo, offs)

/-- What the block of index `i` says about it. -/
def answer (s : S) (i : Nat) : Except Error UInt64 :=
  (content s (i / blockSize S)).map fun (lo, offs) => lo + offs.getD (i % blockSize S) 0

theorem content_eq_ok {id : Nat} {lo : UInt64} {offs : List UInt64} :
    content s id = .ok (lo, offs) ↔ sample s id = .ok lo ∧ offsets s id = .ok offs := by
  simp [content, bind_eq_ok, and_comm]

theorem get_past_end {i : Nat} (hi : len r.seq ≤ i) :
    r.get i = (.error (.indexOutOfRange i (len r.seq)), r) :=
  if_neg (Nat.not_lt_of_le hi)

/-- What is cached after a read is what fetching its block left. -/
theorem get_reader {i : Nat} (hi : i < len r.seq) :
    (r.get i).2 = (r.fetch (i / blockSize S)).2 := by
  unfold CachedReader.get
  dsimp only
  rw [if_pos hi]
  split <;> (rename_i hfetch; rw [hfetch])

theorem get_error_of_fetch {i : Nat} {e : Error} (hi : i < len r.seq)
    (h : (r.fetch (i / blockSize S)).1 = .error e) : (r.get i).1 = .error e := by
  unfold CachedReader.get
  dsimp only
  rw [if_pos hi]
  generalize r.fetch (i / blockSize S) = result at h
  obtain ⟨outcome, r'⟩ := result
  obtain rfl := h
  rfl

/-- A block without sample or offsets cannot be the cached one, and is not afterwards. -/
theorem Coherent.fetch_error [Lawful S] (h : Coherent s r) {id : Nat} {e : Error}
    (hid : id < numBlocks s) (herr : content s id = .error e) :
    (r.fetch id).1 = .error e ∧ (r.fetch id).2.block = none := by
  obtain ⟨rfl, hroom, hcached⟩ := h
  unfold CachedReader.fetch
  split
  · rename_i hblock
    obtain ⟨hbase, count, before, hdecode⟩ := hcached id hblock
    obtain ⟨values, hvalues, -⟩ :=
      (decodeBlock_eq_ok hid (lt_of_decodeBlock_ok hdecode).2).1 hdecode
    cases herr.symm.trans (content_eq_ok.2 ⟨hbase, hvalues⟩)
  · unfold content at herr
    cases hlo : sample r.seq id with
    | error e' =>
      rw [hlo, error_bind] at herr
      exact ⟨congrArg Except.error (Except.error.inj herr), rfl⟩
    | ok lo =>
      cases hoffs : offsets r.seq id with
      | error e' =>
        rw [hlo, ok_bind, hoffs, error_bind] at herr
        obtain ⟨written, -, -, hdecode⟩ := exists_decodeBlock_eq hid hroom
        rw [hoffs, Except.map] at hdecode
        simp only [hdecode, Except.error.inj herr, and_self]
      | ok offs => simp [hlo, hoffs] at herr

/-- A read below the end gives what its block says, and caches the block exactly if it says
anything. -/
theorem Coherent.get_eq [Lawful S] (h : Coherent s r) (hs : 0 < blockSize S) {i : Nat}
    (hi : i < len s) :
    (r.get i).1 = answer s i ∧
      (r.get i).2.block = match answer s i with
        | .ok _ => some (i / blockSize S)
        | .error _ => none := by
  have hid : i / blockSize S < numBlocks s := Blocks.div_lt_count hs hi
  have hi' : i < len r.seq := h.seq_eq ▸ hi
  rw [get_reader hi']
  cases hcontent : content s (i / blockSize S) with
  | error e =>
    have hanswer : answer s i = .error e := by
      rw [answer, hcontent]
      rfl
    obtain ⟨herr, hblock⟩ := h.fetch_error hid hcontent
    rw [hanswer]
    exact ⟨get_error_of_fetch hi' herr, hblock⟩
  | ok found =>
    obtain ⟨lo, offs⟩ := found
    obtain ⟨hlo, hoffs⟩ := content_eq_ok.1 hcontent
    have hlt : i % blockSize S < offs.length := by
      rw [Lawful.length_offsets hid hoffs]
      exact Nat.mod_lt i hs
    have hanswer : answer s i = .ok (lo + offs[i % blockSize S]) := by
      simp [answer, hcontent, Except.map, List.getElem?_eq_getElem hlt]
    have hvalue := h.get_of_offsets (Blocks.mod_lt_length hs hi) hlo hoffs hlt
    rw [Nat.div_add_mod'] at hvalue
    rw [hanswer]
    exact ⟨hvalue, (h.fetch_ok hid hlo hoffs).2⟩

/-! ### Any number of reads -/

/-- A block that decodes has a sample. -/
class Sampled (S : Type) [BlockSequence S] : Prop where
  sample_ok : ∀ {s : S} {id : Nat} {values : List UInt64}, id < numBlocks s →
      offsets s id = .ok values →
    ∃ lo, sample s id = .ok lo

/-- A block says something about its indices exactly if it decodes. -/
theorem answer_ok_iff [Lawful S] [Sampled S] (hs : 0 < blockSize S) {i : Nat} (hi : i < len s)
    {buffer : Array UInt64} (hb : blockSize S ≤ buffer.size) :
    (∃ value, answer s i = .ok value) ↔
    ∃ count, (decodeBlock s (i / blockSize S) buffer).1 = .ok count := by
  have hid : i / blockSize S < numBlocks s := Blocks.div_lt_count hs hi
  rw [decodeBlock_fst hid hb, answer]
  cases hcontent : content s (i / blockSize S) with
  | error e =>
    cases hoffs : offsets s (i / blockSize S) with
    | error e' => simp [Except.map]
    | ok offs =>
      obtain ⟨lo, hlo⟩ := Sampled.sample_ok hid hoffs
      cases hcontent.symm.trans (content_eq_ok.2 ⟨hlo, hoffs⟩)
  | ok found =>
    obtain ⟨-, hoffs⟩ := content_eq_ok.1 hcontent
    simp [Except.map, hoffs]

/-- What a call for index `i` answers and leaves behind, whatever the reader was used for. -/
structure Fresh (s : S) (r : CachedReader S) (i : Nat) : Prop where
  /-- The answer is that of a reader that was never used. -/
  same : (r.get i).1 = ((CachedReader.new s).get i).1
  /-- A read beyond the end is refused, and what was cached stays cached. -/
  past_end : len s ≤ i → (r.get i).1 = .error (.indexOutOfRange i (len s)) ∧
      (r.get i).2.block = r.block
  /-- A read succeeds exactly if its block decodes. -/
  decoded : i < len s → ∀ buffer : Array UInt64, blockSize S ≤ buffer.size →
    ((∃ value, (r.get i).1 = .ok value) ↔
      ∃ count, (decodeBlock s (i / blockSize S) buffer).1 = .ok count)
  /-- A read that succeeds leaves its block cached. -/
  cached : ∀ value, (r.get i).1 = .ok value → (r.get i).2.block = some (i / blockSize S)
  /-- A read that fails below the end leaves nothing cached. -/
  dropped : i < len s → ∀ e, (r.get i).1 = .error e → (r.get i).2.block = none

theorem Coherent.fresh [Lawful S] [Sampled S] (h : Coherent s r) (hs : 0 < blockSize S) (i : Nat) :
    Fresh s r i where
  same := by
    rcases Nat.lt_or_ge i (len s) with hi | hi
    · rw [(h.get_eq hs hi).1, ((coherent_new s).get_eq hs hi).1]
    · obtain rfl := h.seq_eq
      have hnew : (CachedReader.new r.seq).get i = _ := get_past_end hi
      rw [get_past_end hi, hnew]
      rfl
  past_end hi := by
    obtain rfl := h.seq_eq
    rw [get_past_end hi]
    exact ⟨rfl, rfl⟩
  decoded hi buffer hb := by
    rw [(h.get_eq hs hi).1, answer_ok_iff hs hi hb]
  cached value hvalue := by
    rcases Nat.lt_or_ge i (len s) with hi | hi
    · obtain ⟨hanswer, hblock⟩ := h.get_eq hs hi
      rw [hblock, ← hanswer, hvalue]
    · obtain rfl := h.seq_eq
      rw [get_past_end hi] at hvalue
      cases hvalue
  dropped hi e he := by
    obtain ⟨hanswer, hblock⟩ := h.get_eq hs hi
    rw [hblock, ← hanswer, he]

end SampledSeq.CachedReader

namespace SampledSeq

instance {codec : Codec} {size : Nat} : CachedReader.Sampled (DeltaSeq codec size) where
  sample_ok hid h := by
    obtain ⟨lo, hlo, -⟩ := bind_eq_ok.1 h
    exact ⟨lo, (DeltaSeq.sample_eq_entry hid).trans hlo⟩

instance {size : Nat} : CachedReader.Sampled (HybridSeq size) where
  sample_ok hid h := by
    obtain ⟨offs, hoffs, -⟩ := bind_eq_ok.1 h
    obtain ⟨lo, hlo⟩ := HybridSeq.boundary_of_valueOffsets hoffs
    exact ⟨lo, (HybridSeq.sample_eq_boundary hid).trans hlo⟩

namespace Variant

open BlockSequence

variable {variant : Variant} {size : Nat}

instance (variant : Variant) (size : Nat) : Lawful (variant.Seq size) :=
  match variant with
  | delta codec => inferInstanceAs (Lawful (DeltaSeq codec size))
  | hybrid => inferInstanceAs (Lawful (HybridSeq size))

instance (variant : Variant) (size : Nat) : CachedReader.Sampled (variant.Seq size) :=
  match variant with
  | delta codec => inferInstanceAs (CachedReader.Sampled (DeltaSeq codec size))
  | hybrid => inferInstanceAs (CachedReader.Sampled (HybridSeq size))

theorem blockSize_seq (variant : Variant) (size : Nat) : blockSize (variant.Seq size) = size := by
  cases variant <;> rfl

/-- A reader of any container, intact or not, answers every call as if it were its first one. -/
theorem reads_ignore_history (hs : 0 < size) {s : variant.Seq size}
    {r : CachedReader (variant.Seq size)} (h : CachedReader.Used s r) (i : Nat) :
    CachedReader.Fresh s r i :=
  h.coherent.fresh (by rwa [blockSize_seq]) i

/-- The values 5 and 3 in a gap list, and a value in an Elias-Fano list without a one. -/
def damagedBytes : List UInt8 :=
  [3, 0, 0, 0, 0, 0, 0, 0, 1, 0, 0, 0, 0, 0, 0, 0, 16, 116, 4, 0, 0, 0, 0, 0,
    5, 6, 0, 0, 0, 0, 0, 0, 0, 0, 196, 129, 19, 0, 0, 0, 0]

theorem damaged_reads_ignore_history : ∃ s : hybrid.Seq 2,
    (ofBytes (S := hybrid.Seq 2) damagedBytes).result = .ok s ∧
    ∀ buffer : Array UInt64, buffer.size = 2 →
      let failed := ((CachedReader.new s).get 2).2
      failed.block = none ∧ (CachedReader.get { failed with buffer } 1).1 = .ok 3 := by
  let s : HybridSeq 2 := ⟨3, ⟨#[327271424], 5, 6⟩, #[291856]⟩
  have hresult : (ofBytes (S := HybridSeq 2) damagedBytes).result = .ok s := by decide +kernel
  have hfailed : ((CachedReader.new s).get 2).2.block = none := by decide +kernel
  have hroom : ((CachedReader.new s).get 2).2.buffer.size = 2 := by decide +kernel
  have hfirst : ((CachedReader.new s).get 1).1 = .ok 3 := by decide +kernel
  refine ⟨s, hresult, fun buffer hsize => ⟨hfailed, ?_⟩⟩
  have hused :
      CachedReader.Used (S := hybrid.Seq 2) s { ((CachedReader.new s).get 2).2 with buffer } :=
    .overwritten buffer (.get 2 .new) hfailed (hsize.trans hroom.symm)
  exact (reads_ignore_history (by decide) hused 1).same.trans hfirst

end Variant

end SampledSeq
