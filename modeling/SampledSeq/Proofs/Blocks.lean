import Mathlib.Algebra.Group.Int.Defs
import Mathlib.Data.Nat.Basic
import SampledSeq.Blocks
import SampledSeq.Proofs.Outcome

/-!
# Blocks and differences

An index names a block and a place in it. A builder that takes one value at a time sees the values
of block after block: `foldl_eq` says what it has at hand in the end, for any builder that closes a
block exactly when it is complete. A block of 32-bit values is its first value with its differences.
-/

namespace SampledSeq.Blocks

/-! ## Indices -/

variable {len size id : Nat}

theorem size_pos_of_lt (h : id < count len size) : 0 < size := by
  apply Nat.pos_of_ne_zero
  intro h0
  subst h0
  simp [count] at h

theorem length_pos (h : id < count len size) : 0 < length len size id := by
  have hs := size_pos_of_lt h
  have hid := (lt_count_iff hs).1 h
  simp only [length]
  omega

theorem length_le (len size id : Nat) : length len size id ≤ size := Nat.min_le_right _ _

/-- A place in a block is an index, and the index names the block and the place. -/
theorem index_spec {j : Nat} (hj : j < length len size id) :
    id * size + j < len ∧ (id * size + j) / size = id ∧ (id * size + j) % size = j := by
  have hj' := Nat.lt_min.1 hj
  have hs : 0 < size := by omega
  refine ⟨by omega, ?_, ?_⟩
  · rw [Nat.add_comm, Nat.add_mul_div_right _ _ hs, Nat.div_eq_of_lt hj'.2, Nat.zero_add]
  · rw [Nat.add_comm, Nat.add_mul_mod_self_right, Nat.mod_eq_of_lt hj'.2]

theorem mod_lt_length {i : Nat} (hs : 0 < size) (hi : i < len) :
    i % size < length len size (i / size) := by
  have := Nat.div_add_mod' i size
  exact Nat.lt_min.2 ⟨by omega, Nat.mod_lt i hs⟩

theorem div_lt_count {i : Nat} (hs : 0 < size) (hi : i < len) : i / size < count len size := by
  have := Nat.div_mul_le_self i size
  exact (lt_count_iff hs).2 (by omega)

theorem le_count_mul (hs : 0 < size) : len ≤ count len size * size :=
  Nat.le_of_not_lt fun hlt => Nat.lt_irrefl _ ((lt_count_iff hs).2 hlt)

theorem count_le (hs : 0 < size) : count len size ≤ len := by
  by_contra h
  have hlt := (lt_count_iff hs).1 (Nat.lt_of_not_le h)
  have hle := Nat.le_mul_of_pos_right len hs
  omega

/-- The blocks are the complete ones, and one more if anything is left. -/
theorem count_eq (hs : 0 < size) :
    count len size = len / size + if len % size = 0 then 0 else 1 := by
  have hmod := Nat.mod_lt len hs
  have hdiv := Nat.div_add_mod' len size
  refine Nat.div_eq_of_lt_le ?_ ?_ <;> split <;> simp only [Nat.add_mul, Nat.add_zero, Nat.one_mul]
    <;> omega

/-! ## The values of a block -/

section
variable {α : Type} {values : List α}

def part (values : List α) (size id : Nat) : List α := (values.drop (id * size)).take size

@[simp] theorem length_part : (part values size id).length = length values.length size id := by
  rw [part, List.length_take, List.length_drop, length, Nat.min_comm]

theorem length_part_le (values : List α) (size id : Nat) : (part values size id).length ≤ size := by
  rw [length_part]
  exact length_le _ _ _

theorem length_part_pos (h : id < count values.length size) : 0 < (part values size id).length := by
  rw [length_part]
  exact length_pos h

theorem getElem_part {j : Nat} (hj : j < (part values size id).length) :
    (part values size id)[j] =
      getElem values (id * size + j) (index_spec (by simpa using hj)).1 := by
  simp [part]

theorem headD_part (d : α) (h : id < count values.length size) :
    (part values size id).headD d = values.getD (id * size) d := by
  have hlt := (lt_count_iff (size_pos_of_lt h)).1 h
  have hpos : 0 < (part values size id).length := length_part_pos h
  rw [List.headD_eq_head?_getD, List.head?_eq_getElem?, List.getElem?_eq_getElem hpos,
    Option.getD_some, getElem_part, List.getD_eq_getElem?_getD, List.getElem?_eq_getElem hlt,
    Option.getD_some]
  simp only [Nat.add_zero]

/-- Every index is a place among the values of the block that it names. -/
theorem mod_lt_length_part {i : Nat} (hs : 0 < size) (hi : i < values.length) :
    i % size < (part values size (i / size)).length := by
  rw [length_part]
  exact mod_lt_length hs hi

theorem part_map {β : Type} (f : α → β) (values : List α) (size id : Nat) :
    part (values.map f) size id = (part values size id).map f := by
  rw [part, part, List.map_take, List.map_drop]

theorem getLastD_eq_getElem {xs : List α} {d : α} (h : 0 < xs.length) :
    xs.getLastD d = xs[xs.length - 1] := by
  rw [List.getLastD_eq_getLast?, List.getLast?_eq_getElem?, List.getElem?_eq_getElem (by omega),
    Option.getD_some]

/-! ## Taking one value at a time -/

variable {β : Type} {push : β → α → β} {close : β → β} {state : Nat → List α → β}

/-- Taking the next value of a block leads to one more value of it, or to the next block. -/
theorem push_part (hpush : ∀ k pending value, push (state k pending) value =
      if pending.length + 1 = size then close (state k (pending ++ [value]))
      else state k (pending ++ [value]))
    (hclose : ∀ k, (part values size k).length = size →
      close (state k (part values size k)) = state (k + 1) [])
    {k j : Nat} (h : j < (part values size k).length) :
    push (state k ((part values size k).take j)) (part values size k)[j] =
      if j + 1 = size then state (k + 1) [] else state k ((part values size k).take (j + 1)) := by
  have hle := length_part_le values size k
  rw [hpush, List.length_take_of_le (Nat.le_of_lt h), ← List.take_succ_eq_append_getElem h]
  by_cases hlast : j + 1 = size
  · rw [if_pos hlast, if_pos hlast, List.take_of_length_le (by omega), hclose k (by omega)]
  · rw [if_neg hlast, if_neg hlast]

/-- A builder with a state for every beginning of every block, that closes a block exactly when it
is complete, holds after `n` values the beginning of the block that index `n` names. -/
theorem foldl_take_eq (hs : 0 < size) (hpush : ∀ k pending value, push (state k pending) value =
      if pending.length + 1 = size then close (state k (pending ++ [value]))
      else state k (pending ++ [value]))
    (hclose : ∀ k, (part values size k).length = size →
      close (state k (part values size k)) = state (k + 1) []) :
    ∀ n ≤ values.length, (values.take n).foldl push (state 0 []) =
      state (n / size) ((part values size (n / size)).take (n % size))
  | 0, _ => by simp
  | n + 1, hn => by
    -- value `n` is the next one of the block that the builder has at hand
    have ih := foldl_take_eq hs hpush hclose n (by omega)
    have hmod := Nat.mod_lt n hs
    have hj : n % size < (part values size (n / size)).length := mod_lt_length_part hs hn
    have hvalue : (part values size (n / size))[n % size] = values[n] := by
      simp only [getElem_part hj, Nat.div_add_mod']
    rw [List.take_succ_eq_append_getElem hn, List.foldl_append, ih, List.foldl_cons, List.foldl_nil,
      ← hvalue, push_part hpush hclose hj]
    split
    · rename_i hlast
      have hn' : n + 1 = (n / size + 1) * size := by
        have := Nat.div_add_mod' n size
        rw [Nat.succ_mul]
        omega
      rw [hn', Nat.mul_div_cancel _ hs, Nat.mul_mod_left, List.take_zero]
    · rename_i hmore
      have hn' : n + 1 = (n % size + 1) + n / size * size := by
        have := Nat.div_add_mod' n size
        omega
      have hlt : n % size + 1 < size := by omega
      rw [hn', Nat.add_mul_div_right _ _ hs, Nat.add_mul_mod_self_right, Nat.div_eq_of_lt hlt,
        Nat.mod_eq_of_lt hlt, Nat.zero_add]

theorem length_rest (hs : 0 < size) :
    (part values size (values.length / size)).length = values.length % size := by
  have hmod := Nat.mod_lt values.length hs
  have hdiv := Nat.div_add_mod' values.length size
  rw [length_part, length]
  omega

/-- After all values, the builder holds what the complete blocks have left over. -/
theorem foldl_eq (hs : 0 < size) (hpush : ∀ k pending value, push (state k pending) value =
      if pending.length + 1 = size then close (state k (pending ++ [value]))
      else state k (pending ++ [value]))
    (hclose : ∀ k, (part values size k).length = size →
      close (state k (part values size k)) = state (k + 1) []) :
    values.foldl push (state 0 []) =
      state (values.length / size) (part values size (values.length / size)) := by
  have h := foldl_take_eq hs hpush hclose values.length (Nat.le_refl _)
  rwa [List.take_length, List.take_of_length_le (Nat.le_of_eq (length_rest hs))] at h

end

end SampledSeq.Blocks

/-!
## Sums of differences

The offsets of a block are running sums of its differences (`getElem_offsets`); for the differences
of a list of values they are the distances of these values from the first one (`offsets_ofValues`),
and for a run they count up (`offsets_run`).
-/

namespace SampledSeq.Differences

theorem foldl_add_comm (start delta : UInt32) (deltas : List UInt32) :
    deltas.foldl (· + ·) (start + delta) = deltas.foldl (· + ·) start + delta := by
  induction deltas generalizing start with
  | nil => rfl
  | cons first rest ih =>
    rw [List.foldl_cons, List.foldl_cons, UInt32.add_assoc, UInt32.add_comm delta,
      ← UInt32.add_assoc, ih]

theorem getElem_offsetsFrom (sample sum : UInt32) (deltas : List UInt32) {j : Nat}
    (hj : j < (offsetsFrom sample sum deltas).length) :
    (offsetsFrom sample sum deltas)[j] = ((deltas.take (j + 1)).foldl (· + ·) sum).toUInt64
      - sample.toUInt64 := by
  induction deltas generalizing sum j with
  | nil => simp [offsetsFrom] at hj
  | cons delta deltas ih =>
    cases j with
    | zero => simp [offsetsFrom]
    | succ j => simpa [offsetsFrom] using ih (sum + delta) (by simpa [offsetsFrom] using hj)

/-- An offset is the distance to the value of its place, moved by the first difference. -/
theorem getElem_offsets (sample : UInt32) (deltas : List UInt32) {j : Nat}
    (hj : j < (offsets sample deltas).length) :
    (offsets sample deltas)[j] = (valueAt sample deltas j + deltas.headD 0).toUInt64
      - sample.toUInt64 := by
  refine (getElem_offsetsFrom sample sample deltas hj).trans ?_
  cases deltas with
  | nil => simp at hj
  | cons delta deltas =>
    rw [List.take_succ_cons, List.foldl_cons, foldl_add_comm]
    rfl

/-- Two neighbouring offsets are the same exactly if the difference between them is 0. -/
theorem offsets_succ_eq_iff (sample : UInt32) (deltas : List UInt32) {j : Nat}
    (h : j + 1 < deltas.length) :
    (offsets sample deltas)[j + 1]? = (offsets sample deltas)[j]? ↔ deltas[j + 1] = 0 := by
  have hlen : (offsetsFrom sample sample deltas).length = deltas.length :=
    length_offsets sample deltas
  have hsum : (deltas.take (j + 1 + 1)).foldl (· + ·) sample =
      (deltas.take (j + 1)).foldl (· + ·) sample + deltas[j + 1] := by
    rw [List.take_succ_eq_append_getElem h, List.foldl_append, List.foldl_cons, List.foldl_nil]
  rw [offsets, List.getElem?_eq_getElem (by omega), List.getElem?_eq_getElem (by omega),
    Option.some.injEq, getElem_offsetsFrom, getElem_offsetsFrom, hsum, UInt64.sub_left_inj,
    UInt32.toUInt64_inj, UInt32.add_eq_left]

/-- The offsets of a block lead back to its values. -/
theorem offsets_ofValues (block : List UInt32) :
    offsets (block.headD 0) (ofValues block) = block.map fun value =>
      value.toUInt64 - (block.headD 0).toUInt64 := by
  apply List.ext_getElem (by simp)
  intro j hj hj'
  have hlt : j < block.length := by simpa using hj'
  have hfirst : (ofValues block).headD 0 = 0 := by cases block <;> rfl
  rw [getElem_offsets, hfirst, UInt32.add_zero, valueAt_ofValues block j hlt, List.getElem_map]

/-! ### Differences by their places -/

theorem getElem_after (previous : UInt32) {values : List UInt32} {j : Nat} (hj : j < values.length)
    (hj' : j < (after previous values).length) :
    (after previous values)[j] = values[j] - getElem (previous :: values) j
      (Nat.lt_succ_of_lt hj) := by
  induction values generalizing previous j with
  | nil => simp at hj
  | cons value rest ih =>
    cases j with
    | zero => rfl
    | succ j => exact ih value (by simpa using hj) (by simpa using hj)

theorem getElem_ofValues {block : List UInt32} {j : Nat} (hj : j < block.length)
    (hj' : j < (ofValues block).length) :
    (ofValues block)[j] = if j = 0 then 0 else block[j] - block[j - 1] := by
  cases block with
  | nil => simp at hj
  | cons value rest =>
    cases j with
    | zero => rfl
    | succ j => exact getElem_after value (by simpa using hj) (by simpa using hj)

/-- Slots 1 to `k` become differences, and the others stay. Each of them is read before it changes,
since the steps go on with lower slots only. -/
theorem getElem?_subtractDown (k : Nat) (block : Array UInt32) (j : Nat) :
    (subtractDown k block)[j]? =
      if 0 < j ∧ j ≤ k then block[j]?.map (· - block[j - 1]?.getD 0) else block[j]? := by
  induction k generalizing block with
  | zero =>
    rw [if_neg (by omega)]
    rfl
  | succ k ih =>
    have hmodify : ∀ i, (block.modify (k + 1) (· - block[k]?.getD 0))[i]? =
        if k + 1 = i then block[i]?.map (· - block[k]?.getD 0) else block[i]? :=
      fun i => Array.getElem?_modify
    rw [subtractDown, ih, hmodify, hmodify]
    rcases Nat.lt_trichotomy j (k + 1) with hlt | rfl | hgt
    · rw [if_neg (by omega : k + 1 ≠ j), if_neg (by omega : k + 1 ≠ j - 1)]
      simp only [Nat.le_of_lt_succ hlt, Nat.le_of_lt hlt, and_true]
    · rw [if_neg (by omega), if_pos rfl, if_pos ⟨Nat.succ_pos k, Nat.le_refl _⟩, Nat.add_sub_cancel]
    · rw [if_neg (by omega), if_neg (by omega : k + 1 ≠ j), if_neg (by omega)]

/-- Subtracting in place gives the differences of the values that were there. -/
theorem toList_inPlace (block : Array UInt32) : (inPlace block).toList = ofValues block.toList := by
  apply List.ext_getElem?
  intro j
  have hinPlace : (inPlace block)[j]? =
      if 0 = j then (subtractDown (block.size - 1) block)[j]?.map fun _ => 0
      else (subtractDown (block.size - 1) block)[j]? := Array.getElem?_modify
  rw [Array.getElem?_toList, hinPlace, getElem?_subtractDown]
  rcases Nat.lt_or_ge j block.size with hlt | hge
  · have hlist : j < block.toList.length := by rwa [Array.length_toList]
    have hdelta := getElem_ofValues hlist (by rwa [length_ofValues])
    rw [List.getElem?_eq_getElem (by rwa [length_ofValues]), hdelta]
    cases j with
    | zero => simp [hlt]
    | succ j =>
      have hbefore : block[j]? = some block[j] := Array.getElem?_eq_getElem (by omega)
      rw [if_neg (by omega), if_pos (by omega), if_neg (Nat.succ_ne_zero j),
        Array.getElem?_eq_getElem hlt]
      simp [hbefore]
  · rw [List.getElem?_eq_none (by rwa [length_ofValues, Array.length_toList]),
      Array.getElem?_eq_none hge]
    split <;> split <;> rfl

/-! ### Runs -/

theorem toNat_getElem_of_isRun {block : List UInt32} (h : isRun block = true) (j : Nat)
    (hj : j < block.length) :
    block[j].toNat = (block.headD 0).toNat + j := by
  induction j with
  | zero => cases block <;> simp at hj ⊢
  | succ j ih =>
    have hnext := Neighbours.all_iff.1 h j hj
    have hprev := ih (by omega)
    simp only [beq_iff_eq] at hnext
    omega

theorem getElem_of_isRun {block : List UInt32} (h : isRun block = true) (j : Nat)
    (hj : j < block.length) :
    block[j].toUInt64 = (block.headD 0).toUInt64 + UInt64.ofNat j := by
  have hvalue := toNat_getElem_of_isRun h j hj
  have hlt := block[j].toNat_lt
  apply UInt64.toNat_inj.1
  rw [UInt64.toNat_add, UInt32.toNat_toUInt64, UInt32.toNat_toUInt64, UInt64.toNat_ofNat_of_lt' (by
    simp only [UInt64.size]
    omega)]
  omega

theorem offsets_run {block : List UInt32} (h : isRun block = true) :
    (List.range block.length).map UInt64.ofNat =
      block.map fun value => value.toUInt64 - (block.headD 0).toUInt64 := by
  apply List.ext_getElem (by simp)
  intro j hj hj'
  rw [List.getElem_map, List.getElem_map, List.getElem_range,
    getElem_of_isRun h j (by simpa using hj'), UInt64.add_comm, UInt64.add_sub_cancel]

/-! ### Repeated values -/

theorem after_append (previous : UInt32) (values rest : List UInt32) :
    after previous (values ++ rest) = after previous values ++ after (values.getLastD previous)
      rest := by
  induction values generalizing previous with
  | nil => rfl
  | cons value values ih =>
    rw [List.cons_append, after, after, ih, List.cons_append, List.getLastD_cons]

theorem after_replicate (value : UInt32) (n : Nat) :
    after value (List.replicate n value) = List.replicate n 0 := by
  induction n with
  | zero => rfl
  | succ n ih => rw [List.replicate_succ, after, ih, UInt32.sub_self, List.replicate_succ]

/-- Where a block repeats its last value, the differences are 0. -/
theorem ofValues_append_replicate {block : List UInt32} (h : 0 < block.length) (n : Nat) :
    ofValues (block ++ List.replicate n (block.getLastD 0)) =
      ofValues block ++ List.replicate n 0 := by
  cases block with
  | nil => simp at h
  | cons value values =>
    rw [List.cons_append, ofValues, ofValues, after_append, List.getLastD_cons, after_replicate]
    rfl

end SampledSeq.Differences

/-!
## Blocks and differences are the same thing

A block whose first value is known and a list of differences that starts with 0 determine each
other, whatever the values are: subtracting in place undoes adding up (`ofValues_valueAt`), and
adding up undoes subtracting, both value by value and as offsets that are written into a buffer
(`storedAs_ofValues`). The differences and their sums wrap at 32 bits, while the offsets, which may
fall below the first value, wrap at 64.
-/

namespace SampledSeq

/-- Values that fit a buffer are written into its first slots. -/
theorem Fill.run_putAll {values : List UInt64} {buffer : Array UInt64}
    (h : values.length ≤ buffer.size) :
    (putAll 0 values).run.run buffer =
      (.ok (), (values ++ buffer.toList.drop values.length).toArray) := by
  have hroom : (buffer.toList.take values.length).length = values.length :=
    List.length_take_of_le (by rwa [Array.length_toList])
  have hturns := turns_putAll [] [] hroom
  simp only [List.nil_append, List.append_nil, List.length_nil] at hturns
  obtain ⟨written, -, hwritten, hrun⟩ := hturns
  obtain rfl := hwritten values rfl
  have hbuffer := hrun (buffer.toList.drop written.length)
  rwa [List.take_append_drop, Array.toArray_toList] at hbuffer

namespace Differences

/-! ### Differences and distances as numbers -/

theorem toNat_sub_mod (a b : UInt32) : ((a - b).toNat : Int) = (a.toNat - b.toNat) % 2 ^ 32 := by
  have hb := b.toNat_lt
  rw [UInt32.toNat_sub]
  omega

theorem toNat_distance_mod (a b : UInt32) :
    ((a.toUInt64 - b.toUInt64).toNat : Int) = (a.toNat - b.toNat) % 2 ^ 64 := by
  have hb := b.toNat_lt
  rw [UInt64.toNat_sub, UInt32.toNat_toUInt64, UInt32.toNat_toUInt64]
  omega

/-! ### From a block to its differences -/

/-- The differences of a block: what they are, and how its values are found again. `first` is the
first value. -/
structure StoredAs (block : List UInt32) (first : UInt32) (deltas : List UInt32) : Prop where
  length_eq : deltas.length = block.length
  head_eq : deltas.head? = some 0
  /-- A difference is taken modulo `2 ^ 32`. -/
  delta_eq : ∀ j (h : j + 1 < block.length) (h' : j + 1 < deltas.length),
    (deltas[j + 1].toNat : Int) = (block[j + 1].toNat - block[j].toNat) % 2 ^ 32
  /-- Adding up the differences behind the first one gives a single value. -/
  value_eq : ∀ j (h : j < block.length), valueAt first deltas j = block[j]
  /-- Writing all offsets leaves in every slot the distance from the first value, modulo
  `2 ^ 64`. -/
  offset_eq : ∀ (buffer : Array UInt64), block.length ≤ buffer.size → ∃ out : Array UInt64,
    (Fill.putAll 0 (offsets first deltas)).run.run buffer = (.ok (), out) ∧
      ∀ j (h : j < block.length), ∃ offset, out[j]? = some offset ∧
        (offset.toNat : Int) = (block[j].toNat - first.toNat) % 2 ^ 64

theorem storedAs_ofValues (first : UInt32) (rest : List UInt32) :
    StoredAs (first :: rest) first (ofValues (first :: rest)) where
  length_eq := length_ofValues _
  head_eq := rfl
  delta_eq j h h' := by
    rw [getElem_ofValues h, if_neg (Nat.succ_ne_zero j)]
    exact toNat_sub_mod _ _
  value_eq j h := valueAt_ofValues (first :: rest) j h
  offset_eq buffer hroom := by
    have hoffsets : offsets first (ofValues (first :: rest)) = _ := offsets_ofValues (first :: rest)
    rw [hoffsets, List.headD_cons]
    refine ⟨_, Fill.run_putAll (by rwa [List.length_map]), fun j hj => ?_⟩
    refine ⟨(first :: rest)[j].toUInt64 - first.toUInt64, ?_, toNat_distance_mod _ _⟩
    rw [List.getElem?_toArray, List.getElem?_append_left (by rwa [List.length_map]),
      List.getElem?_map, List.getElem?_eq_getElem hj]
    rfl

/-! ### From differences to a block -/

variable {sample : UInt32} {deltas : List UInt32}

theorem valueAt_succ {j : Nat} (h : j + 1 < deltas.length) :
    valueAt sample deltas (j + 1) = valueAt sample deltas j + deltas[j + 1] := by
  have hdrop : j < (deltas.drop 1).length := by
    rw [List.length_drop]
    omega
  rw [valueAt, List.take_succ_eq_append_getElem hdrop, List.foldl_append, List.foldl_cons,
    List.foldl_nil, valueAt, List.getElem_drop]
  simp only [Nat.add_comm]

/-- The values that differences lead to have these differences. -/
theorem ofValues_valueAt (hhead : deltas.head? = some 0) :
    ofValues ((List.range deltas.length).map (valueAt sample deltas)) = deltas := by
  apply List.ext_getElem (by simp)
  intro j hj hj'
  rw [getElem_ofValues (by simpa using hj')]
  cases j with
  | zero => simpa [List.head?_eq_getElem?, eq_comm, hj'] using hhead
  | succ j =>
    simp only [List.getElem_map, List.getElem_range, Nat.add_sub_cancel, valueAt_succ hj',
      if_neg (Nat.succ_ne_zero j)]
    rw [UInt32.add_comm, UInt32.add_sub_cancel]

/-- Sample and offset give the value of a place as a number of 64 bits. -/
theorem sample_add_offsets (hhead : deltas.head? = some 0) :
    (offsets sample deltas).map (sample.toUInt64 + ·) =
      ((List.range deltas.length).map (valueAt sample deltas)).map UInt32.toUInt64 := by
  apply List.ext_getElem (by simp)
  intro j hj hj'
  have hfirst : deltas.headD 0 = 0 := by simp [List.headD_eq_head?_getD, hhead]
  rw [List.getElem_map, getElem_offsets, hfirst, UInt32.add_zero, UInt64.add_comm,
    UInt64.sub_add_cancel]
  simp only [List.getElem_map, List.getElem_range]

/-! ### Both ways -/

/-- Subtracting in place turns a block into its differences, from which every value and every offset
is found again; and any sample with any differences behind a first 0 leads to values of which
subtracting in place makes these differences. -/
theorem blocks_match_differences :
    (∀ (first : UInt32) (rest : List UInt32),
      StoredAs (first :: rest) first (inPlace (first :: rest).toArray).toList) ∧
    ∀ (sample : UInt32) (rest : List UInt32),
      let block := (List.range (0 :: rest).length).map (valueAt sample (0 :: rest))
      block.head? = some sample ∧ (inPlace block.toArray).toList = 0 :: rest ∧
        (offsets sample (0 :: rest)).map (sample.toUInt64 + ·) = block.map UInt32.toUInt64 := by
  constructor
  · intro first rest
    rw [toList_inPlace]
    exact storedAs_ofValues first rest
  · intro sample rest
    refine ⟨by simp [valueAt, List.range_succ_eq_map], ?_, sample_add_offsets rfl⟩
    rw [toList_inPlace]
    exact ofValues_valueAt rfl

/-- A block that falls and rises. -/
example :
    (inPlace #[7, 3, 4294967295, 0, 12]).toList = [0, 4294967292, 4294967292, 1, 12] := by decide

end Differences

end SampledSeq
