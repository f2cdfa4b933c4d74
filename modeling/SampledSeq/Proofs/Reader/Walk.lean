import SampledSeq.Proofs.DeltaSeq.Guarded
import SampledSeq.Proofs.Reader.History
import SampledSeq.Proofs.Variant

/-!
# What a walk gives, and what it announces

A walk gives the values up to the first block that does not decode. What it announces at any point
goes by its position alone, and is right exactly where no such block lies ahead.
-/

/-!
## What a walk gives

A walk reads index after index, until an index fails that it has come to or none is left. So all
that it ever gives are the answers up to the first one that is an error (`next_after`), and from
then on nothing, however often it is asked.

Within a block either every index answers or none does. The first index that fails is therefore the
first one of the first block that does not decode (`stopsAt_firstFailure`), and what a walk gives
can be said block by block (`items_eq_take`).
-/

namespace SampledSeq

/-- The blocks of a list, one after the other, are its beginning. -/
theorem Blocks.flatMap_part {α : Type} (values : List α) (size k : Nat) :
    (List.range k).flatMap (part values size) = values.take (k * size) := by
  induction k with
  | zero => simp
  | succ k ih =>
    rw [List.range_succ, List.flatMap_append, ih, List.flatMap_singleton, Nat.succ_mul,
      List.take_add, part]

namespace Cursor

open BlockSequence CachedReader

variable {S : Type} [BlockSequence S] {s : S}

/-! ### Step by step -/

def after : Nat → Cursor S → Cursor S
  | 0, c => c
  | n + 1, c => (after n c).next.2

theorem reachable_after (s : S) (n : Nat) : Reachable s ((start s).after n) := by
  induction n with
  | zero => exact .start
  | succ n ih => exact ih.next

theorem next_of_end {c : Cursor S} (h : len c.reader.seq ≤ c.pos) : c.next = (none, c) :=
  if_neg (Nat.not_lt_of_le h)

/-- A step gives the answer of the index at hand, and goes on to the next index exactly if that is a
value. -/
theorem Reachable.step [Lawful S] {c : Cursor S} (h : Reachable s c) (hs : 0 < blockSize S)
    (hc : c.pos < len s) :
    c.next.1 = some (answer s c.pos) ∧
      c.next.2.pos = if (answer s c.pos).isOk then c.pos + 1 else len s := by
  have hread : (c.reader.get c.pos).1 = answer s c.pos := (h.reader.coherent.get_eq hs hc).1
  rw [← hread, ← h.reader.coherent.seq_eq]
  rw [← h.reader.coherent.seq_eq] at hc
  rw [Cursor.next, if_pos hc]
  generalize c.reader.get c.pos = result
  obtain ⟨outcome, reader⟩ := result
  cases outcome with
  | ok value => exact ⟨rfl, rfl⟩
  | error e => exact ⟨rfl, rfl⟩

/-! ### Any number of steps -/

/-- Index `stop` is the first one without a value; there is none if it does not lie below the
end. -/
structure StopsAt (s : S) (stop : Nat) : Prop where
  isOk_before : ∀ i < stop, i < len s → (answer s i).isOk = true
  isOk_at : stop < len s → (answer s stop).isOk = false

/-- A walk stands at the index that it has counted up to, and once it has seen an error behind all
of them. -/
theorem pos_after [Lawful S] (hs : 0 < blockSize S) {stop : Nat} (h : StopsAt s stop) (n : Nat) :
    ((start s).after n).pos = if n ≤ stop then min n (len s) else len s := by
  induction n with
  | zero => simp [after, start]
  | succ n ih =>
    have hreach := reachable_after s n
    have hseq := hreach.reader.coherent.seq_eq
    rw [after]
    rcases Nat.lt_or_ge stop n with hseen | hle
    · rw [if_neg (Nat.not_le_of_lt hseen)] at ih
      rw [next_of_end (by rw [hseq, ih]), ih, if_neg (by omega)]
    · rw [if_pos hle] at ih
      rcases Nat.lt_or_ge n (len s) with hlt | hge
      · rw [Nat.min_eq_left (Nat.le_of_lt hlt)] at ih
        rw [(hreach.step hs (by rwa [ih])).2, ih]
        rcases Nat.lt_or_eq_of_le hle with hbefore | rfl
        · rw [if_pos (h.isOk_before n hbefore hlt), if_pos (show n + 1 ≤ stop from hbefore),
            Nat.min_eq_left hlt]
        · rw [h.isOk_at hlt, if_neg (by decide), if_neg (Nat.not_succ_le_self n)]
      · rw [Nat.min_eq_right hge] at ih
        rw [next_of_end (by rw [hseq, ih]), ih]
        split <;> omega

def answers (s : S) : List (Except Error UInt64) := (List.range (len s)).map (answer s)

/-- What a walk gives are the answers up to the first error. -/
theorem next_after [Lawful S] (hs : 0 < blockSize S) {stop : Nat} (h : StopsAt s stop) (n : Nat) :
    ((start s).after n).next.1 = ((answers s).take (stop + 1))[n]? := by
  have hreach := reachable_after s n
  have hseq := hreach.reader.coherent.seq_eq
  have hpos := pos_after hs h n
  rcases Nat.lt_or_ge ((start s).after n).pos (len s) with hlt | hge
  · have hn : ((start s).after n).pos = n ∧ n < stop + 1 := by
      split at hpos <;> omega
    rw [(hreach.step hs hlt).1, List.getElem?_take_of_lt hn.2]
    rw [hn.1] at hlt ⊢
    simp [answers, hlt]
  · rw [next_of_end (by rwa [hseq])]
    symm
    rw [List.getElem?_eq_none_iff, List.length_take, answers, List.length_map, List.length_range]
    split at hpos <;> omega

/-! ### Block by block -/

variable {buffer : Array UInt64}

/-- The first block that does not decode, and the number of blocks if all of them do. -/
def firstFailure (s : S) (buffer : Array UInt64) : Nat :=
  (List.range (numBlocks s)).findIdx fun id => !(decodeBlock s id buffer).1.isOk

/-- The values of a block: its sample plus every offset that it decodes to. -/
def valuesOf (s : S) (buffer : Array UInt64) (id : Nat) : List UInt64 :=
  match sample s id, decodeBlock s id buffer with
  | .ok lo, (.ok count, out) => (out.toList.take count).map (lo + ·)
  | _, _ => []

def failureOf (s : S) (buffer : Array UInt64) (id : Nat) : List (Except Error UInt64) :=
  match (decodeBlock s id buffer).1 with
  | .ok _ => []
  | .error e => [.error e]

/-- The values of all blocks in front of the first one that does not decode, and the error of that
one. -/
def items (s : S) (buffer : Array UInt64) : List (Except Error UInt64) :=
  let stop := firstFailure s buffer
  ((List.range stop).flatMap (valuesOf s buffer)).map .ok ++
    if stop < numBlocks s then failureOf s buffer stop else []

theorem firstFailure_le (s : S) (buffer : Array UInt64) : firstFailure s buffer ≤ numBlocks s := by
  have hle : firstFailure s buffer ≤ (List.range (numBlocks s)).length := List.findIdx_le_length
  rwa [List.length_range] at hle

theorem isOk_of_lt_firstFailure {id : Nat} (h : id < firstFailure s buffer) :
    (decodeBlock s id buffer).1.isOk = true := by
  have hbefore := List.not_of_lt_findIdx h
  simpa using hbefore

theorem isOk_firstFailure (h : firstFailure s buffer < numBlocks s) :
    (decodeBlock s (firstFailure s buffer) buffer).1.isOk = false := by
  rw [firstFailure] at h ⊢
  have hfails := List.findIdx_getElem (w := h.trans_eq List.length_range.symm)
  simpa only [List.getElem_range, Bool.not_eq_true'] using hfails

/-! ### What the blocks say -/

theorem exists_error_of_isOk {α : Type} {x : Except Error α} (h : x.isOk = false) :
    ∃ e, x = .error e := by
  cases x with
  | ok a => cases h
  | error e => exact ⟨e, rfl⟩

theorem isOk_iff {α : Type} {x : Except Error α} : x.isOk = true ↔ ∃ a, x = .ok a := by
  cases x with
  | ok a => exact iff_of_true rfl ⟨a, rfl⟩
  | error e => exact iff_of_false nofun nofun

theorem isOk_answer [Lawful S] [Sampled S] (hs : 0 < blockSize S) {i : Nat} (hi : i < len s)
    (hb : blockSize S ≤ buffer.size) :
    (answer s i).isOk = (decodeBlock s (i / blockSize S) buffer).1.isOk := by
  rw [Bool.eq_iff_iff, isOk_iff, isOk_iff]
  exact answer_ok_iff hs hi hb

/-- The first index without a value is the first one of the first block that does not decode. -/
theorem stopsAt_firstFailure [Lawful S] [Sampled S] (hs : 0 < blockSize S)
    (hb : blockSize S ≤ buffer.size) :
    StopsAt s (firstFailure s buffer * blockSize S) where
  isOk_before i hstop hi := by
    rw [isOk_answer hs hi hb]
    exact isOk_of_lt_firstFailure ((Nat.div_lt_iff_lt_mul hs).2 hstop)
  isOk_at hi := by
    rw [isOk_answer hs hi hb, Nat.mul_div_cancel _ hs]
    exact isOk_firstFailure ((Blocks.lt_count_iff hs).2 hi)

/-- A block that decodes to offsets from a sample answers with the values that these make up. -/
theorem answer_of_content {id j : Nat} {lo : UInt64} {offs : List UInt64}
    (h : content s id = .ok (lo, offs)) (hj : j < Blocks.length (len s) (blockSize S) id) :
    answer s (id * blockSize S + j) = .ok (lo + offs.getD j 0) := by
  obtain ⟨-, hdiv, hmod⟩ := Blocks.index_spec hj
  rw [answer, hdiv, hmod, h]
  rfl

/-- The values of a block that decodes are the answers of its indices. -/
theorem map_valuesOf [Lawful S] [Sampled S] {id : Nat} (hid : id < numBlocks s)
    (hb : blockSize S ≤ buffer.size) (h : (decodeBlock s id buffer).1.isOk = true) :
    (valuesOf s buffer id).map .ok = Blocks.part (answers s) (blockSize S) id := by
  obtain ⟨count, hcount⟩ := isOk_iff.1 h
  obtain ⟨offs, hoffs, rfl, hout⟩ := (decodeBlock_eq_ok hid hb).1 (Prod.ext hcount rfl)
  obtain ⟨lo, hlo⟩ := Sampled.sample_ok hid hoffs
  have hle : Blocks.length (len s) (blockSize S) id ≤ offs.length := by
    rw [Lawful.length_offsets hid hoffs]
    exact Blocks.length_le _ _ _
  have hvalues :
      valuesOf s buffer id = (offs.take (Blocks.length (len s) (blockSize S) id)).map (lo + ·) := by
    rw [valuesOf, hlo, (decodeBlock_eq_ok hid hb).2 ⟨offs, hoffs, rfl, rfl⟩]
    simp only [overlay, List.take_append_of_le_length hle]
  have hlen : (answers s).length = len s := by simp [answers]
  rw [hvalues]
  apply List.ext_getElem
  · rw [List.length_map, List.length_map, List.length_take_of_le hle, Blocks.length_part, hlen]
  · intro j hj hj'
    have hplace : j < Blocks.length (len s) (blockSize S) id := by
      rwa [Blocks.length_part, hlen] at hj'
    have hanswer := answer_of_content (content_eq_ok.2 ⟨hlo, hoffs⟩) hplace
    rw [Blocks.getElem_part]
    simp only [answers, List.getElem_map, List.getElem_range, hanswer, List.getElem_take,
      List.getD_eq_getElem _ _ (Nat.lt_of_lt_of_le hplace hle)]

/-- The error of a block that does not decode is what its first index answers, if the block has a
sample. -/
theorem failureOf_eq [Lawful S] {id : Nat} (hs : 0 < blockSize S) (hid : id < numBlocks s)
    (hb : blockSize S ≤ buffer.size) (hsample : ∃ lo, sample s id = .ok lo)
    (h : (decodeBlock s id buffer).1.isOk = false) :
    failureOf s buffer id = [answer s (id * blockSize S)] := by
  obtain ⟨lo, hlo⟩ := hsample
  obtain ⟨e, he⟩ := exists_error_of_isOk h
  have hoffs : offsets s id = .error e := by
    rw [decodeBlock_fst hid hb] at he
    cases hoffs : offsets s id with
    | ok offs => simp [hoffs, Except.map] at he
    | error e' => simpa [hoffs, Except.map] using he
  rw [failureOf, he, answer, Nat.mul_div_cancel _ hs, content, hlo, ok_bind, hoffs]
  rfl

/-- Block by block, these are the answers up to the first error. -/
theorem items_eq_take [Lawful S] [Sampled S] (hs : 0 < blockSize S) (hb : blockSize S ≤ buffer.size)
    (hsample : ∀ id < numBlocks s, ∃ lo, sample s id = .ok lo) :
    items s buffer = (answers s).take (firstFailure s buffer * blockSize S + 1) := by
  have hstop := firstFailure_le s buffer
  have hvalues : ((List.range (firstFailure s buffer)).flatMap (valuesOf s buffer)).map .ok =
      (answers s).take (firstFailure s buffer * blockSize S) := by
    rw [List.map_flatMap, ← Blocks.flatMap_part]
    refine List.flatMap_congr fun id hid => ?_
    have hlt := List.mem_range.1 hid
    exact map_valuesOf (Nat.lt_of_lt_of_le hlt hstop) hb (isOk_of_lt_firstFailure hlt)
  have hlen : (answers s).length = len s := by simp [answers]
  rw [items, hvalues]
  split
  · rename_i hlt
    have hfirst : firstFailure s buffer * blockSize S < len s := (Blocks.lt_count_iff hs).1 hlt
    rw [failureOf_eq hs hlt hb (hsample _ hlt) (isOk_firstFailure hlt),
      List.take_succ_eq_append_getElem (by rwa [hlen])]
    simp [answers]
  · rename_i hge
    have hend : len s ≤ firstFailure s buffer * blockSize S :=
      Nat.le_of_not_lt fun hlt => hge ((Blocks.lt_count_iff hs).2 hlt)
    rw [List.append_nil, List.take_of_length_le (by rwa [hlen]),
      List.take_of_length_le (by rw [hlen]; omega)]

/-! ### Containers of given values -/

/-- A block that decodes to the offsets of given values answers with these values. -/
theorem answer_of_decoded [Lawful S] {values : List UInt64} {i : Nat} {lo : UInt64}
    (hs : 0 < blockSize S)
    (hlen : len s = values.length) (hi : i < values.length) (hb : blockSize S ≤ buffer.size)
    (hlo : sample s (i / blockSize S) = .ok lo)
    (h : Decoded values (blockSize S) (i / blockSize S) lo
      (decodeBlock s (i / blockSize S) buffer)) :
    answer s i = .ok values[i] := by
  have hid : i / blockSize S < numBlocks s := Blocks.div_lt_count hs (hlen ▸ hi)
  have hdecode :
      decodeBlock s (i / blockSize S) buffer = (_, (decodeBlock s (i / blockSize S) buffer).2) :=
    Prod.ext h.count_eq rfl
  obtain ⟨offs, hoffs, -, hout⟩ := (decodeBlock_eq_ok hid hb).1 hdecode
  have hplace : i / blockSize S * blockSize S + i % blockSize S = i :=
    Nat.div_add_mod' i (blockSize S)
  have hslot := h.offset (i % blockSize S) (by rwa [hplace]) (Nat.mod_lt i hs)
  simp only [hplace] at hslot
  have hlt : i % blockSize S < offs.length := by
    rw [Lawful.length_offsets hid hoffs]
    exact Nat.mod_lt i hs
  have hoff : offs[i % blockSize S] = values[i] - lo := by
    rw [hout, getElem?_overlay hlt] at hslot
    exact Option.some.inj hslot
  have hvalue : lo + (values[i] - lo) = values[i] := by rw [UInt64.add_comm, UInt64.sub_add_cancel]
  rw [answer, content_eq_ok.2 ⟨hlo, hoffs⟩, ← hvalue, ← hoff, ← List.getD_eq_getElem _ 0 hlt]
  rfl

/-- If every index answers with the value that was given, a walk gives these values, and counts down
what is left. -/
theorem next_of_values [Lawful S] {values : List UInt64} (hs : 0 < blockSize S)
    (hlen : len s = values.length) (h : ∀ i (hi : i < values.length), answer s i = .ok values[i])
    (n : Nat) :
    ((start s).after n).next.1 = (values.map Except.ok)[n]? ∧
    ((start s).after n).remaining = values.length - n := by
  have hstops : StopsAt s (len s) :=
    ⟨fun i _ hi => by rw [h i (hlen ▸ hi)]; rfl, fun hlt => absurd hlt (Nat.lt_irrefl _)⟩
  have hanswers : answers s = values.map .ok := by
    apply List.ext_getElem
    · simp [answers, hlen]
    · intro i hi hi'
      simp [answers, h i (by simpa using hi')]
  have hpos := pos_after hs hstops n
  have hall : (answers s).length ≤ len s + 1 := by simp [answers]
  constructor
  · rw [next_after hs hstops n, List.take_of_length_le hall, hanswers]
  · rw [remaining, (reachable_after s n).reader.coherent.seq_eq, hpos, hlen]
    split <;> omega

end Cursor

namespace Variant

open BlockSequence

variable {variant : Variant} {size : Nat} {s : variant.Seq size}

/-- In a container that was accepted, every block has a sample, whether it decodes or not. -/
theorem sample_of_accepted {bytes : List UInt8}
    (h : (ofBytes (S := variant.Seq size) bytes).result = .ok s) {id : Nat}
    (hid : id < numBlocks s) : ∃ lo, sample s id = .ok lo := by
  obtain ⟨source, hload⟩ := load_of_ofBytes h
  cases variant with
  | delta codec =>
    obtain ⟨lo, -, hlo, -⟩ := DeltaSeq.vouched_of_load hload id hid
    exact ⟨lo, (DeltaSeq.sample_eq_entry hid).trans hlo⟩
  | hybrid =>
    obtain ⟨lo, hlo⟩ := (HybridSeq.tabled_of_load hload).boundary_ok (Nat.le_of_lt hid)
    exact ⟨lo, (HybridSeq.sample_eq_boundary hid).trans hlo⟩

/-- The values that a container was built of are those that its blocks decode to. -/
theorem decoded_of_ofList (hsize : variant.Admits size) {values : List UInt64}
    (hlen : values.length < 2 ^ 56) (h : (variant.ofList size values).result = .ok s) :
    len s = values.length ∧
      ∀ id < numBlocks s, ∃ lo, sample s id = .ok lo ∧ ∀ buffer : Array UInt64, size ≤ buffer.size →
        Decoded values size id lo (decodeBlock s id buffer) := by
  cases variant with
  | delta codec =>
    obtain ⟨narrow, rfl, rfl⟩ := DeltaSeq.exists_built_of_ofList hsize.pos h
    rw [List.length_map] at hlen ⊢
    refine ⟨rfl, fun id hid => ?_⟩
    obtain ⟨_, hsample, hdecoded⟩ :=
      (DeltaSeq.built_comes_back hsize.dvd hsize.pos hsize.lt hlen).2 id hid
    exact ⟨_, hsample, hdecoded⟩
  | hybrid =>
    obtain rfl := HybridSeq.built_of_ofList hsize.pos h
    exact ⟨rfl, fun id hid =>
      ⟨_, (HybridSeq.sample_eq_boundary hid).trans (HybridSeq.boundary_built hsize.pos hlen hid),
      fun buffer hb => HybridSeq.decoded_built hsize.pos hlen hid hb⟩⟩

/-- A walk over any container, built or accepted, gives the values of its blocks up to the first one
that does not decode, then the error of that block, and from then on nothing; every block has a
sample, so that no value is left out. Over a container that was built it gives the values that it
was built of. -/
theorem walks_give_blocks (hsize : variant.Admits size)
    (h : (∃ bytes, (ofBytes (S := variant.Seq size) bytes).result = .ok s) ∨
      ∃ values : List UInt64, values.length < 2 ^ 56 ∧
      (variant.ofList size values).result = .ok s) :
    (∀ id < numBlocks s, ∃ lo, sample s id = .ok lo) ∧
    (∀ buffer : Array UInt64, size ≤ buffer.size →
      ∀ n, ((Cursor.start s).after n).next.1 = (Cursor.items s buffer)[n]?) ∧
    ∀ values : List UInt64, values.length < 2 ^ 56 → (variant.ofList size values).result = .ok s →
      ∀ n, ((Cursor.start s).after n).next.1 = (values.map Except.ok)[n]? ∧
        ((Cursor.start s).after n).remaining = values.length - n := by
  have hs : 0 < blockSize (variant.Seq size) := by
    rw [blockSize_seq]
    exact hsize.pos
  have hsample : ∀ id < numBlocks s, ∃ lo, sample s id = .ok lo := by
    intro id hid
    obtain ⟨bytes, h⟩ | ⟨values, hlen, h⟩ := h
    · exact sample_of_accepted h hid
    · exact sample_of_accepted (ofBytes_of_reads (reads_of_ofList hsize hlen h)) hid
  refine ⟨hsample, ?_, ?_⟩
  · intro buffer hb n
    rw [← blockSize_seq variant size] at hb
    rw [Cursor.next_after hs (Cursor.stopsAt_firstFailure hs hb),
      Cursor.items_eq_take hs hb hsample]
  · intro values hlen h n
    obtain ⟨hcount, hblocks⟩ := decoded_of_ofList hsize hlen h
    refine Cursor.next_of_values hs hcount (fun i hi => ?_) n
    obtain ⟨lo, hlo, hdecoded⟩ :=
      hblocks (i / blockSize (variant.Seq size)) (Blocks.div_lt_count hs (hcount ▸ hi))
    have hb : blockSize (variant.Seq size) ≤ (Array.replicate size (0 : UInt64)).size := by
      rw [blockSize_seq, Array.size_replicate]
    have hdecode := hdecoded (Array.replicate size 0) (Nat.le_of_eq Array.size_replicate.symm)
    nth_rewrite 1 [← blockSize_seq variant size] at hdecode
    exact Cursor.answer_of_decoded hs hcount hi hb hlo hdecode

/-- The second block of the damaged container ends the walk with its error; over an intact one the
walk goes on. -/
theorem damaged_walk_stops : (∃ s : hybrid.Seq 2, (ofBytes (S :=
  hybrid.Seq 2) damagedBytes).result = .ok s ∧
      ∀ n, ((Cursor.start s).after n).next.1 =
        [.ok 5, .ok 3, .error (.corruption (.upperShort 0 1))][n]?) ∧
    ∃ s : hybrid.Seq 2, (hybrid.ofList 2 [5, 3, 9]).result = .ok s ∧
      ((Cursor.start s).after 2).next.1 = some (.ok 9) ∧
      ((Cursor.start s).after 2).remaining = 1 := by
  have hsize : hybrid.Admits 2 := ⟨by decide, by decide, by decide⟩
  let damaged : HybridSeq 2 := ⟨3, ⟨#[327271424], 5, 6⟩, #[291856]⟩
  have hdamaged : (ofBytes (S := HybridSeq 2) damagedBytes).result = .ok damaged := by
    decide +kernel
  have hitems :
      Cursor.items damaged #[0, 0] = [.ok 5, .ok 3, .error (.corruption (.upperShort 0 1))] := by
    decide +kernel
  obtain ⟨intact, hintact⟩ : ∃ s, (hybrid.ofList 2 [5, 3, 9]).result = .ok s :=
    ⟨_, HybridSeq.ofList_eq (by decide) [5, 3, 9]⟩
  have hlen : [5, 3, 9].length < 2 ^ 56 := by decide
  refine ⟨⟨damaged, hdamaged, fun n => ?_⟩, intact, hintact, ?_⟩
  · exact ((walks_give_blocks hsize (.inl ⟨_, hdamaged⟩)).2.1 #[0, 0] (by decide) n).trans
      (congrArg (·[n]?) hitems)
  · exact (walks_give_blocks hsize (.inr ⟨_, hlen, hintact⟩)).2.2 _ hlen hintact 2

end Variant

end SampledSeq

/-!
## What is left of a walk

A walk says at every point how many items are left, and goes by its position alone. It never says
too few. It says too many as long as an error lies ahead with further indices behind it: these are
counted, but the walk ends with the error (`Cursor.le_remaining`, `Cursor.remaining_eq_iff`).

So the count is right from the start on exactly if every block decodes, or if the only one that does
not is a last block of one value (`Cursor.len_le_firstFailure_iff`). Behind the error it is right
again.
-/

namespace SampledSeq

namespace Cursor

open BlockSequence CachedReader

variable {S : Type} [BlockSequence S] {s : S}

/-! ### The items that are still to come -/

/-- What a walk gives from here on, up to the first step that gives nothing. -/
inductive Yields : Cursor S → List (Except Error UInt64) → Prop
  | nothing {c : Cursor S} : c.next.1 = none → Yields c []
  | item {c : Cursor S} {item : Except Error UInt64} {rest : List (Except Error UInt64)} :
    c.next.1 = some item → Yields c.next.2 rest → Yields c (item :: rest)

theorem Yields.unique {c : Cursor S} {rest rest' : List (Except Error UInt64)} (h : c.Yields rest)
    (h' : c.Yields rest') :
    rest = rest' := by
  induction h generalizing rest' with
  | nothing hnone =>
    cases h' with
    | nothing => rfl
    | item hsome => cases hnone.symm.trans hsome
  | item hsome _ ih =>
    cases h' with
    | nothing hnone => cases hnone.symm.trans hsome
    | item hsome' htail =>
      cases Option.some.inj (hsome.symm.trans hsome')
      rw [ih htail]

/-- If the steps of a walk give a list, entry by entry, then after `n` of them the rest of the list
is still to come. -/
theorem yields_after {items : List (Except Error UInt64)}
    (h : ∀ n, ((start s).after n).next.1 = items[n]?) (n : Nat) :
    ((start s).after n).Yields (items.drop n) := by
  -- towards the end of the list, where nothing comes any more
  induction hleft : items.length - n generalizing n with
  | zero =>
    have hend : items.length ≤ n := Nat.le_of_sub_eq_zero hleft
    rw [List.drop_eq_nil_of_le hend]
    exact .nothing ((h n).trans (List.getElem?_eq_none hend))
  | succ left ih =>
    have hlt : n < items.length := by omega
    rw [List.drop_eq_getElem_cons hlt]
    exact .item ((h n).trans (List.getElem?_eq_getElem hlt)) (ih (n + 1) (by omega))

/-! ### The count -/

theorem remaining_after [Lawful S] (hs : 0 < blockSize S) {stop : Nat} (h : StopsAt s stop)
    (n : Nat) :
    ((start s).after n).remaining = if n ≤ stop then len s - n else 0 := by
  rw [remaining, (reachable_after s n).reader.coherent.seq_eq, pos_after hs h]
  split <;> omega

/-- A walk ends behind its first error, or behind the last index. What it has left until then is
never more than its count says. -/
theorem le_remaining [Lawful S] (hs : 0 < blockSize S) {stop : Nat} (h : StopsAt s stop) (n : Nat) :
    min (stop + 1) (len s) - n ≤ ((start s).after n).remaining := by
  rw [remaining_after hs h]
  split <;> omega

/-- The count is right exactly where nothing is left, or if no index lies behind the first error. -/
theorem remaining_eq_iff [Lawful S] (hs : 0 < blockSize S) {stop : Nat} (h : StopsAt s stop)
    (n : Nat) :
    ((start s).after n).remaining = min (stop + 1) (len s) - n ↔ min (stop + 1) (len s) ≤ n ∨
    len s ≤ stop + 1 := by
  rw [remaining_after hs h]
  split <;> omega

variable {buffer : Array UInt64}

theorem length_items [Lawful S] [Sampled S] (hs : 0 < blockSize S) (hb : blockSize S ≤ buffer.size)
    (hsample : ∀ id < numBlocks s, ∃ lo, sample s id = .ok lo) :
    (items s buffer).length = min (firstFailure s buffer * blockSize S + 1) (len s) := by
  simp [items_eq_take hs hb hsample, answers]

/-- Nothing lies behind the first error exactly if a block that does not decode is a last one of one
value. -/
theorem len_le_firstFailure_iff (hs : 0 < blockSize S) :
    len s ≤ firstFailure s buffer * blockSize S + 1 ↔
      ∀ id < numBlocks s, (decodeBlock s id buffer).1.isOk = true ∨
      id * blockSize S + 1 = len s := by
  constructor
  · intro hle id hid
    rcases Nat.lt_or_ge id (firstFailure s buffer) with hlt | hge
    · exact .inl (isOk_of_lt_firstFailure hlt)
    · have hfirst := (Blocks.lt_count_iff hs).1 hid
      have hmul := Nat.mul_le_mul_right (blockSize S) hge
      exact .inr (by omega)
  · intro hblocks
    rcases Nat.lt_or_ge (firstFailure s buffer) (numBlocks s) with hlt | hge
    · rcases hblocks _ hlt with hok | hlast
      · rw [isOk_firstFailure hlt] at hok
        cases hok
      · exact Nat.le_of_eq hlast.symm
    · have hend : len s ≤ firstFailure s buffer * blockSize S :=
        Nat.le_of_not_lt fun hlt => Nat.not_lt_of_le hge ((Blocks.lt_count_iff hs).2 hlt)
      exact Nat.le_succ_of_le hend

end Cursor

namespace Variant

open BlockSequence

variable {variant : Variant} {size : Nat} {s : variant.Seq size}

/-- A container that was built is one that is accepted, from the bytes that it is stored in. -/
theorem accepted_of_made (hsize : variant.Admits size)
    (h : (∃ bytes, (ofBytes (S := variant.Seq size) bytes).result = .ok s) ∨
      ∃ values : List UInt64, values.length < 2 ^ 56 ∧
      (variant.ofList size values).result = .ok s) :
    ∃ bytes, (ofBytes (S := variant.Seq size) bytes).result = .ok s := by
  rcases h with haccepted | ⟨values, hlen, hbuilt⟩
  · exact haccepted
  · exact ⟨_, ofBytes_of_reads (reads_of_ofList hsize hlen hbuilt)⟩

/-- Every block of a container that was built decodes. -/
theorem isOk_of_ofList (hsize : variant.Admits size) {values : List UInt64}
    (hlen : values.length < 2 ^ 56) (h : (variant.ofList size values).result = .ok s)
    {buffer : Array UInt64} (hb : size ≤ buffer.size) {id : Nat} (hid : id < numBlocks s) :
    (decodeBlock s id buffer).1.isOk = true := by
  obtain ⟨lo, -, hdecoded⟩ := (decoded_of_ofList hsize hlen h).2 id hid
  rw [(hdecoded buffer hb).count_eq]
  rfl

/-- After any number of steps over any container, built or accepted, the items that the walk still
gives are those that its blocks have left. Their count is never too small, and it is right exactly
if none is left, or if every block decodes but for a last one of one value. Over a container that
was built it is always right. -/
theorem remaining_is_exact_iff (hsize : variant.Admits size)
    (h : (∃ bytes, (ofBytes (S := variant.Seq size) bytes).result = .ok s) ∨
      ∃ values : List UInt64, values.length < 2 ^ 56 ∧ (variant.ofList size values).result = .ok s)
    {buffer : Array UInt64} (hb : size ≤ buffer.size) (n : Nat) :
    (∀ rest, ((Cursor.start s).after n).Yields rest ↔ rest = (Cursor.items s buffer).drop n) ∧
    ((Cursor.items s buffer).drop n).length ≤ ((Cursor.start s).after n).remaining ∧
    (((Cursor.start s).after n).remaining = ((Cursor.items s buffer).drop n).length ↔
      (Cursor.items s buffer).drop n = [] ∨
      ∀ id < numBlocks s, (decodeBlock s id buffer).1.isOk = true ∨ id * size + 1 = len s) ∧
    ((∃ values : List UInt64, values.length < 2 ^ 56 ∧
      (variant.ofList size values).result = .ok s) →
      ((Cursor.start s).after n).remaining = ((Cursor.items s buffer).drop n).length) := by
  have hs : 0 < blockSize (variant.Seq size) := by
    rw [blockSize_seq]
    exact hsize.pos
  have hbuffer : blockSize (variant.Seq size) ≤ buffer.size := by rwa [blockSize_seq]
  obtain ⟨bytes, haccepted⟩ := accepted_of_made hsize h
  have hsample : ∀ id < numBlocks s, ∃ lo, sample s id = .ok lo :=
    fun id hid => sample_of_accepted haccepted hid
  have hstop := Cursor.stopsAt_firstFailure (s := s) hs hbuffer
  have hyields : ((Cursor.start s).after n).Yields ((Cursor.items s buffer).drop n) := by
    refine Cursor.yields_after (fun k => ?_) n
    rw [Cursor.next_after hs hstop, Cursor.items_eq_take hs hbuffer hsample]
  have hle := Cursor.le_remaining hs hstop n
  have hexact := Cursor.remaining_eq_iff hs hstop n
  have hlength : ((Cursor.items s buffer).drop n).length =
      min (Cursor.firstFailure s buffer * blockSize (variant.Seq size) + 1) (len s) - n := by
    rw [List.length_drop, Cursor.length_items hs hbuffer hsample]
  have hnil : (Cursor.items s buffer).drop n = [] ↔
      min (Cursor.firstFailure s buffer * blockSize (variant.Seq size) + 1) (len s) ≤ n := by
    rw [List.drop_eq_nil_iff, Cursor.length_items hs hbuffer hsample]
  rw [← hlength] at hle
  rw [Cursor.len_le_firstFailure_iff hs, ← hnil, ← hlength, blockSize_seq] at hexact
  refine ⟨fun rest => ⟨fun hrest => hrest.unique hyields, fun hrest => hrest ▸ hyields⟩, hle,
    hexact, ?_⟩
  rintro ⟨values, hlen, hbuilt⟩
  exact hexact.2 (.inr fun id hid => .inl (isOk_of_ofList hsize hlen hbuilt hb hid))

/-- Two indices are counted at the start of a walk that only gives one error, and after that none.
Over three values whose blocks are intact the count is right, here after one step. -/
theorem wrongWidth_walk_ends_early :
    (∃ s : (delta .patched).Seq 32,
      (ofBytes (S := (delta .patched).Seq 32) DeltaSeq.wrongWidthBytes).result = .ok s ∧
      (∀ rest, (Cursor.start s).Yields rest ↔ rest = [.error (.corruption (.patchedWidth 33))]) ∧
      (Cursor.start s).remaining = 2 ∧ ((Cursor.start s).after 1).remaining = 0) ∧
    ∃ s : hybrid.Seq 2, (hybrid.ofList 2 [5, 3, 9]).result = .ok s ∧
      ((Cursor.start s).after 1).remaining = ((Cursor.items s #[0, 0]).drop 1).length := by
  have hpatched : (delta .patched).Admits 32 := ⟨by decide, by decide, by decide⟩
  have hhybrid : hybrid.Admits 2 := ⟨by decide, by decide, by decide⟩
  let damaged : DeltaSeq .patched 32 := ⟨2, ⟨#[1037], 3, 4⟩, #[0, 33]⟩
  have hdamaged : (ofBytes (S := DeltaSeq .patched 32) DeltaSeq.wrongWidthBytes).result =
      .ok damaged := by
    decide +kernel
  have hb : 32 ≤ (Array.replicate 32 (0 : UInt64)).size := by decide
  have hitems :
      (Cursor.items (S := (delta .patched).Seq 32) damaged (Array.replicate 32 0)).drop 0 =
      [.error (.corruption (.patchedWidth 33))] := by decide +kernel
  have hrest := (remaining_is_exact_iff hpatched (.inl ⟨_, hdamaged⟩) hb 0).1
  rw [hitems] at hrest
  obtain ⟨intact, hintact⟩ : ∃ s, (hybrid.ofList 2 [5, 3, 9]).result = .ok s :=
    ⟨_, HybridSeq.ofList_eq (by decide) [5, 3, 9]⟩
  have hbuilt : ∃ values : List UInt64, values.length < 2 ^ 56 ∧
      (hybrid.ofList 2 values).result = .ok intact :=
    ⟨_, by decide, hintact⟩
  refine ⟨⟨damaged, hdamaged, hrest, by decide +kernel, by decide +kernel⟩, intact, hintact, ?_⟩
  exact (remaining_is_exact_iff hhybrid (.inr hbuilt) (by decide) 1).2.2.2 hbuilt

end Variant

end SampledSeq
