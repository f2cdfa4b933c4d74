import SampledSeq.Error

/-!
# Blocks of values

A sequence is cut into blocks. What a block looks like is decided by comparing neighbours, and
32-bit blocks are stored as differences. A decoded block is written into the slots of a buffer.

| here | there |
| --- | --- |
| `Blocks.count`, `Blocks.length`, `Blocks.check` | `num_blocks`, `block_len`, `check_block` |
| `Differences.inPlace`, `Differences.offsets` | `delta_encode`, `prefix_sum` |
| `Differences.valueAt` | the sum in `get` |
| `Differences.isRun` | `is_full_run` |
| `Fill` | the slots `out` of `decode` and `decode_block` |
-/

/-!
## Cutting a sequence into blocks

A sequence of `len` values has blocks of `size` values; only the last block may be shorter.
-/

namespace SampledSeq.Blocks

def count (len size : Nat) : Nat := (len + (size - 1)) / size

def length (len size id : Nat) : Nat := min (len - id * size) size

/-- `id` names one of `blocks` blocks. -/
def check (id blocks : Nat) : Except Error Unit :=
  if id < blocks then .ok () else .error (.indexOutOfRange id blocks)

/-- `id` names a block exactly if its first value exists. -/
theorem lt_count_iff {len size id : Nat} (hs : 0 < size) :
    id < count len size ↔ id * size < len := by
  rw [count, ← Nat.succ_le_iff, Nat.le_div_iff_mul_le hs, Nat.succ_mul]
  omega

end SampledSeq.Blocks

/-!
## Relations between neighbours

A block is ascending, strictly ascending or a run if each of its values stands in the right relation
to the next one. `Neighbours.all` decides that for any relation, and `all_iff` reads it by index.
-/

namespace SampledSeq.Neighbours

/-- Each item of the list is related to the next one. -/
def all {α : Type} (related : α → α → Bool) : List α → Bool
  | x :: y :: rest => related x y && all related (y :: rest)
  | _ => true

theorem all_iff {α : Type} {related : α → α → Bool} {xs : List α} :
    all related xs = true ↔
      ∀ i (h : i + 1 < xs.length), related xs[i] xs[i + 1] = true := by
  fun_induction all related xs with
  | case1 x y rest ih =>
    rw [Bool.and_eq_true, ih]
    constructor
    · rintro ⟨hxy, hrest⟩ (_ | i) h
      · exact hxy
      · exact hrest i (by simpa using h)
    · intro h
      exact ⟨h 0 (by simp), fun i hi => h (i + 1) (by simpa using hi)⟩
  | case2 xs hne =>
    simp only [true_iff]
    intro i h
    match xs, hne, h with
    | x :: y :: rest, hne, _ => exact absurd rfl (hne x y rest)

end SampledSeq.Neighbours

/-!
## Forward differences

A block of 32-bit values is stored as the differences between neighbours, the first of them being 0.
Differences and sums are taken modulo `2 ^ 32`, so blocks that are not monotone come back exactly.
Offsets from the first value are 64-bit, modulo `2 ^ 64`. `ofValues` lists the differences of a
block, and `inPlace` is how a block that is being stored turns into them.
-/

namespace SampledSeq.Differences

/-- The differences of a list whose values follow `previous`. -/
def after (previous : UInt32) : List UInt32 → List UInt32
  | [] => []
  | value :: values => (value - previous) :: after value values

/-- The differences of a block; the first is 0. -/
def ofValues : List UInt32 → List UInt32
  | [] => []
  | value :: values => 0 :: after value values

/-- Subtract from every slot of a block, from slot `j` down to slot 1, the slot in front of it. The
last slot comes first: a slot that has become a difference is of no use to the one behind it. -/
def subtractDown : Nat → Array UInt32 → Array UInt32
  | 0, block => block
  | j + 1, block =>
    let before := block[j]?.getD 0
    subtractDown j (block.modify (j + 1) (· - before))

/-- Replace the values of a block by their differences, in their own slots. -/
def inPlace (block : Array UInt32) : Array UInt32 :=
  (subtractDown (block.size - 1) block).modify 0 fun _ => 0

/-- The offsets from `sample` of the running sums that start at `sum`. -/
def offsetsFrom (sample sum : UInt32) : List UInt32 → List UInt64
  | [] => []
  | delta :: deltas =>
    ((sum + delta).toUInt64 - sample.toUInt64) :: offsetsFrom sample (sum + delta) deltas

/-- The offsets from `sample` of the values that the differences lead to. -/
def offsets (sample : UInt32) (deltas : List UInt32) : List UInt64 :=
  offsetsFrom sample sample deltas

/-- The value at offset `i` of a block that starts with `sample`: the sum of the differences behind
the first one. -/
def valueAt (sample : UInt32) (deltas : List UInt32) (i : Nat) : UInt32 :=
  ((deltas.drop 1).take i).foldl (· + ·) sample

/-- Each value is one more than the value before it, without a step over the largest value. -/
def isRun (values : List UInt32) : Bool :=
  Neighbours.all (fun value next => value.toNat + 1 == next.toNat) values

@[simp] theorem length_after (previous : UInt32) (values : List UInt32) :
    (after previous values).length = values.length := by
  induction values generalizing previous with
  | nil => rfl
  | cons v vs ih => simp [after, ih]

@[simp] theorem length_ofValues (values : List UInt32) :
    (ofValues values).length = values.length := by
  cases values <;> simp [ofValues]

@[simp] theorem length_offsets (sample : UInt32) (deltas : List UInt32) :
    (offsets sample deltas).length = deltas.length := by
  suffices h : ∀ sum, (offsetsFrom sample sum deltas).length = deltas.length from h sample
  induction deltas with
  | nil => simp [offsetsFrom]
  | cons d ds ih => simp [offsetsFrom, ih]

/-! ### From differences back to values -/

/-- The sums of the differences are the values again. -/
theorem foldl_take_after (previous : UInt32) (values : List UInt32) (i : Nat)
    (h : i < values.length) :
    ((after previous values).take (i + 1)).foldl (· + ·) previous = values[i] := by
  induction values generalizing previous i with
  | nil => simp at h
  | cons v vs ih =>
    have hback : previous + (v - previous) = v := by
      rw [UInt32.add_comm, UInt32.sub_add_cancel]
    cases i with
    | zero => simp [after, hback]
    | succ i =>
      have := ih v i (by simpa using h)
      simpa [after, hback] using this

/-- The value at every offset of a block comes back from its differences. -/
theorem valueAt_ofValues (block : List UInt32) (i : Nat) (h : i < block.length) :
    valueAt (block.headD 0) (ofValues block) i = block[i] := by
  cases block with
  | nil => simp at h
  | cons v vs =>
    cases i with
    | zero => simp [valueAt]
    | succ i => exact foldl_take_after v vs i (by simpa using h)

end SampledSeq.Differences

/-!
## Filling a buffer in place

A block is decoded into a buffer that the caller owns. A `Fill` writes slots of that buffer one by
one, may read them again, and may fail. What it has written stays written when it fails.
-/

namespace SampledSeq

/-- A computation that writes slots of a buffer and may fail. -/
abbrev Fill := ExceptT Error (StateM (Array UInt64))

namespace Fill

def slot (i : Nat) : Fill UInt64 := fun buffer => (Position.get buffer i, buffer)

def put (i : Nat) (value : UInt64) : Fill Unit := fun buffer =>
  if h : i < buffer.size then (.ok (), buffer.set i value) else (.error .positionRange, buffer)

def change (f : UInt64 → Except Error UInt64) (i : Nat) : Fill Unit := do
  put i (← f (← slot i))

def putAll : Nat → List UInt64 → Fill Unit
  | _, [] => return ()
  | i, value :: values => do
    put i value
    putAll (i + 1) values

/-- Replace what `count` slots hold, from slot `i` on. -/
def changeAll (f : UInt64 → Except Error UInt64) : Nat → Nat → Fill Unit
  | 0, _ => return ()
  | count + 1, i => do
    change f i
    changeAll f count (i + 1)

/-- Do a step for each of the `items`, the first of them with number `i`. -/
def each {α : Type} (step : Nat → α → Fill Unit) : Nat → List α → Fill Unit
  | _, [] => return ()
  | i, item :: items => do
    step i item
    each step (i + 1) items

end Fill

end SampledSeq
