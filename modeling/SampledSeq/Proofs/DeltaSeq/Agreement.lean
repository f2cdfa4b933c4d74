import SampledSeq.Proofs.DeltaSeq.Stored
import SampledSeq.Proofs.Reader.History

/-!
# Blocks that were not built

What a builder puts into a block is not checked when a sequence is loaded. Two habits of built
blocks can therefore be missing from loaded ones: differences that start with 0, and differences
that are 0 behind a short block. Either way the condition under which accesses still agree with each
other is exact.
-/

/-!
## Where the ways to a value agree

The differences of a block that was loaded are not checked, and the first of them need not be 0.
Readers and cursors add it to every value of the block, a single access leaves it out. So all of
them agree exactly on the blocks that decode to offset 0 at the front, as every block does that was
built.
-/

namespace SampledSeq.DeltaSeq

open BlockSequence

variable {codec : Codec} {size : Nat} {s : DeltaSeq codec size}

/-- In a sequence that was loaded, every reader and every cursor gives the values of a block as it
decodes. A single access gives the same value exactly if the block starts with offset 0. -/
theorem paths_agree_iff {bytes : List UInt8}
    (hs : (ofBytes (S := DeltaSeq codec size) bytes).result = .ok s) {id : Nat}
    {buffer out : Array UInt64} {count : Nat} (h : decodeBlock s id buffer = (.ok count, out)) :
    ∃ lo, s.sample id = .ok lo ∧ count = Blocks.length s.len size id ∧
      ∀ j < count, ∃ offset, out[j]? = some offset ∧
        (∀ r, CachedReader.Reachable s r → (r.get (id * size + j)).1 = .ok (lo + offset)) ∧
        (∀ c, Cursor.Reachable s c → c.pos = id * size + j → c.next.1 = some (.ok (lo + offset))) ∧
        (s.get (id * size + j) = .ok (lo + offset) ↔ out[0]? = some 0) := by
  obtain ⟨source, hload⟩ := load_of_ofBytes hs
  obtain ⟨hid, hb⟩ := lt_of_decodeBlock_ok h
  obtain ⟨offs, hoffs, rfl, rfl⟩ := (decodeBlock_eq_ok hid hb).1 h
  obtain ⟨lo, hlo, hiff⟩ := get_eq_iff (vouched_of_load hload) hid hoffs
  have hsample : s.sample id = .ok lo := (sample_eq_entry hid).trans hlo
  refine ⟨lo, hsample, rfl, ?_⟩
  intro j hj
  have hlt : j < offs.length := by
    rw [length_offsets hoffs]
    exact Nat.lt_of_lt_of_le hj (Blocks.length_le _ _ _)
  have hread : ∀ r, CachedReader.Reachable s r → (r.get (id * size + j)).1 = .ok (lo + offs[j]) :=
    fun r hr => hr.coherent.get_of_offsets hj hsample hoffs hlt
  refine ⟨offs[j], getElem?_overlay hlt, hread, fun c hc hpos => ?_, ?_⟩
  · have hindex : c.pos < s.len := hpos ▸ (Blocks.index_spec hj).1
    rw [hc.next_eq hindex, hpos, hread _ hc.reader]
  · rw [hiff j hj hlt, getElem?_overlay (Nat.zero_lt_of_lt hlt), Option.some.injEq]

/-- Two values in one patched block with sample 5 whose first difference is 1. -/
def shiftedBytes : List UInt8 :=
  [2, 0, 0, 0, 0, 0, 0, 0, 7, 0, 0, 0, 0, 0, 0, 0, 0, 1, 1, 0, 0, 0, 0,
    3, 4, 0, 0, 0, 0, 0, 0, 0, 13, 14, 0, 0, 0, 0, 0, 0]

theorem shifted_values_read_apart : ∃ s : DeltaSeq .patched 32,
    (ofBytes (S := DeltaSeq .patched 32) shiftedBytes).result = .ok s ∧
      (∀ r, CachedReader.Reachable s r → (r.get 1).1 = .ok 6) ∧ s.get 1 ≠ .ok 6 := by
  let s : DeltaSeq .patched 32 := ⟨2, ⟨#[3597], 3, 4⟩, #[0, 1, 1, 0, 0, 0, 0]⟩
  have hs : (ofBytes (S := DeltaSeq .patched 32) shiftedBytes).result = .ok s := by decide +kernel
  have hdecode : decodeBlock s 0 (Array.replicate 32 0) = (.ok 2, Array.replicate 32 1) := by
    decide +kernel
  have hsample : s.sample 0 = .ok 5 := by decide +kernel
  obtain ⟨lo, hlo, -, hall⟩ := paths_agree_iff hs hdecode
  obtain rfl : 5 = lo := Except.ok.inj (hsample.symm.trans hlo)
  obtain ⟨offset, hoffset, hread, -, hiff⟩ := hall 1 (by decide)
  obtain rfl : 1 = offset := Option.some.inj hoffset
  refine ⟨s, hs, hread, ?_⟩
  intro hget
  exact absurd (hiff.1 hget) (by decide)

end SampledSeq.DeltaSeq

/-!
## Slots behind a short block

A block that was built is filled up with its last value before it is stored, so its differences end
in zeros and it decodes to its last offset over and over. Nothing checks this when a sequence is
loaded, and decoding writes whatever is stored: the differences go on behind the last value, and a
run goes on counting up. So the slots behind a short block repeat its last offset exactly if the
block is stored with differences that are 0 there (`filled_iff`).
-/

namespace SampledSeq.DeltaSeq

open BlockSequence

variable {codec : Codec} {size : Nat} {s : DeltaSeq codec size}

/-! ### Slots that repeat the one before -/

/-- From slot `n` on all is as in the slot before it exactly if every slot is as its predecessor. -/
theorem constant_from_iff {α : Type} {f : Nat → α} {n stop : Nat} (hn : 0 < n) :
    (∀ j, n ≤ j → j < stop → f j = f (n - 1)) ↔ ∀ j, n ≤ j → j < stop → f j = f (j - 1) := by
  constructor
  · intro h j hj hlt
    by_cases hfirst : j = n
    · rw [hfirst]
      exact h n (Nat.le_refl n) (hfirst ▸ hlt)
    · rw [h j hj hlt, h (j - 1) (by omega) (by omega)]
  · intro h j hj
    induction j, hj using Nat.le_induction with
    | base => exact h n (Nat.le_refl n)
    | succ j hj ih => exact fun hlt => (h (j + 1) (by omega) hlt).trans (ih (by omega))

/-- A run counts up, also behind its last value. -/
theorem run_constant_iff {count : Nat} (hpos : 0 < count) (hle : count ≤ size) :
    (∀ j, count ≤ j → j < size →
      ((List.range size).map UInt64.ofNat)[j]? = ((List.range size).map UInt64.ofNat)[count - 1]?) ↔
        count = size := by
  constructor
  · intro hall
    by_contra hne
    have hlt : count < size := by omega
    have hnext := hall count (Nat.le_refl count) hlt
    have hsucc : UInt64.ofNat count = UInt64.ofNat (count - 1) + 1 := by
      rw [← UInt64.ofNat_one, ← UInt64.ofNat_add, Nat.sub_add_cancel hpos]
    rw [List.getElem?_map, List.getElem?_map, List.getElem?_range hlt,
      List.getElem?_range (by omega), Option.map_some, Option.map_some, Option.some.injEq, hsucc,
      UInt64.add_eq_left] at hnext
    exact absurd hnext (by decide)
  · exact fun hcount j hj hlt => absurd hlt (by omega)

/-- Sums go on with the last one exactly if nothing is added any more. -/
theorem sums_constant_iff (sample : UInt32) (deltas : List UInt32) {count : Nat}
    (hpos : 0 < count) :
    (∀ j, count ≤ j → j < deltas.length →
      (Differences.offsets sample deltas)[j]? = (Differences.offsets sample deltas)[count - 1]?) ↔
        ∀ j (h : j < deltas.length), count ≤ j → deltas[j] = 0 := by
  have hstep : ∀ j, 0 < j → ∀ h : j < deltas.length,
      (Differences.offsets sample deltas)[j]? = (Differences.offsets sample deltas)[j - 1]? ↔
      deltas[j] = 0 := by
    intro j hj h
    obtain ⟨j, rfl⟩ := Nat.exists_eq_add_one.2 hj
    exact Differences.offsets_succ_eq_iff sample deltas h
  rw [constant_from_iff hpos]
  constructor
  · exact fun hall j h hj => (hstep j (by omega) h).1 (hall j hj h)
  · exact fun hzeros j hj h => (hstep j (by omega) h).2 (hzeros j h hj)

/-! ### Blocks of a sequence -/

/-- The block is stored with differences, and those behind its first `count` values are 0. -/
def EndsInZeros (s : DeltaSeq codec size) (id count : Nat) : Prop :=
  ∃ pointer deltas, s.pointer id = .ok pointer ∧ marksRun codec pointer = false ∧
    s.deltasAt pointer = .ok deltas ∧
    ∀ j (h : j < deltas.length), count ≤ j → deltas[j] = 0

theorem endsInZeros_iff {id count : Nat} {pointer : UInt64} {deltas : List UInt32}
    (hpointer : s.pointer id = .ok pointer) (hrun : marksRun codec pointer = false)
    (hdeltas : s.deltasAt pointer = .ok deltas) :
    s.EndsInZeros id count ↔ ∀ j (h : j < deltas.length), count ≤ j → deltas[j] = 0 := by
  constructor
  · rintro ⟨pointer', deltas', hpointer', -, hdeltas', hzeros⟩
    obtain rfl := Except.ok.inj (hpointer.symm.trans hpointer')
    obtain rfl := Except.ok.inj (hdeltas.symm.trans hdeltas')
    exact hzeros
  · exact fun hzeros => ⟨pointer, deltas, hpointer, hrun, hdeltas, hzeros⟩

theorem not_endsInZeros {id count : Nat} {pointer : UInt64} (hpointer : s.pointer id = .ok pointer)
    (hrun : marksRun codec pointer = true) : ¬ s.EndsInZeros id count := by
  rintro ⟨pointer', -, hpointer', hrun', -⟩
  obtain rfl := Except.ok.inj (hpointer.symm.trans hpointer')
  exact absurd (hrun.symm.trans hrun') (by decide)

/-- The offsets of a block go on with the one before slot `count` exactly if there is no slot left,
or the block ends in zeros. -/
theorem offsets_constant_iff {id count : Nat} {offs : List UInt64} (h : s.offsets id = .ok offs)
    (hpos : 0 < count) (hle : count ≤ size) :
    (∀ j, count ≤ j → j < size → offs[j]? = offs[count - 1]?) ↔
      count = size ∨ s.EndsInZeros id count := by
  obtain ⟨sample, -, h⟩ := bind_eq_ok.1 h
  obtain ⟨pointer, hpointer, h⟩ := bind_eq_ok.1 h
  split at h
  case isTrue hrun =>
    obtain rfl := Except.ok.inj h
    rw [run_constant_iff hpos hle, or_iff_left (not_endsInZeros hpointer hrun)]
  case isFalse hrun =>
    obtain ⟨deltas, hdeltas, h⟩ := bind_eq_ok.1 h
    obtain rfl := Except.ok.inj h
    have hlen : deltas.length = size := length_deltasAt hdeltas
    have hzeros : count = size → s.EndsInZeros id count := fun hcount =>
      (endsInZeros_iff hpointer (Bool.eq_false_iff.2 hrun) hdeltas).2 fun j h hj =>
        absurd h (by omega)
    rw [or_iff_right_of_imp hzeros, endsInZeros_iff hpointer (Bool.eq_false_iff.2 hrun) hdeltas,
      ← sums_constant_iff sample.toUInt32 deltas hpos, hlen]

/-- The slots behind a block that decodes hold its last offset exactly if the block is complete, or
is stored with differences that end in zeros. A short block that is marked as a run does not. -/
theorem filled_iff {id count : Nat} {buffer out : Array UInt64}
    (h : decodeBlock s id buffer = (.ok count, out)) :
    count = Blocks.length s.len size id ∧
      ((∀ j, count ≤ j → j < size → out[j]? = out[count - 1]?) ↔
        count = size ∨ s.EndsInZeros id count) := by
  obtain ⟨hid, hb⟩ := lt_of_decodeBlock_ok h
  obtain ⟨offs, hoffs, hcount, rfl⟩ := (decodeBlock_eq_ok hid hb).1 h
  have hpos : 0 < count := hcount ▸ Blocks.length_pos hid
  have hle : count ≤ size := hcount ▸ Blocks.length_le _ _ _
  have hslot : ∀ j < size, (overlay offs buffer)[j]? = offs[j]? := by
    intro j hj
    have hlt : j < offs.length := by rwa [length_offsets hoffs]
    rw [getElem?_overlay hlt, List.getElem?_eq_getElem hlt]
  refine ⟨hcount, ?_⟩
  rw [← offsets_constant_iff hoffs hpos hle, hslot (count - 1) (by omega)]
  exact forall₃_congr fun j _ hj => by rw [hslot j hj]

/-- Two values from 5 on in one block of 32 that is marked as a run. -/
def shortRunBytes : List UInt8 :=
  [2, 0, 0, 0, 0, 0, 0, 0, 0, 0, 0, 0, 0, 0, 0, 0, 3, 4, 0, 0, 0, 0, 0, 0, 0, 5, 0, 0, 0,
    0, 0, 0, 0]

theorem shortRun_is_not_filled : ∃ s : DeltaSeq .patched 32,
    (ofBytes (S := DeltaSeq .patched 32) shortRunBytes).result = .ok s ∧ ∃ out,
      decodeBlock s 0 (Array.replicate 32 0) = (.ok 2, out) ∧ ¬ ∀ j, 2 ≤ j → j < 32 →
      out[j]? = out[1]? := by
  let s : DeltaSeq .patched 32 := ⟨2, ⟨#[5], 3, 4⟩, #[]⟩
  have hs : (ofBytes (S := DeltaSeq .patched 32) shortRunBytes).result = .ok s := by decide +kernel
  have hpointer : s.pointer 0 = .ok 0 := by decide +kernel
  have hdecode :
      decodeBlock s 0 (Array.replicate 32 0) =
        (.ok 2, ((List.range 32).map UInt64.ofNat).toArray) := by
    decide +kernel
  refine ⟨s, hs, _, hdecode, fun hfilled => ?_⟩
  obtain hcount | hzeros := (filled_iff hdecode).2.1 hfilled
  · exact absurd hcount (by decide)
  · exact not_endsInZeros hpointer (by decide) hzeros

end SampledSeq.DeltaSeq
