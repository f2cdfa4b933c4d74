/-!
# Numerals and pieces of lists

What a stream holds is read in pieces of known length, and each piece is a number in some base.
-/

/-!
## Numerals in a fixed base

Words, bytes and packed frames are the same thing read in different bases: a list of digits, least
significant first. `ofDigits` gives the number, `digits` the numeral of a given length, and no digit
is lost between the two (`digits_ofDigits`).
-/

namespace SampledSeq.Numeral

/-- The number that a list of digits, least significant first, denotes in base `b`. -/
def ofDigits (b : Nat) : List Nat → Nat
  | [] => 0
  | d :: ds => d + b * ofDigits b ds

/-- The last `k` digits of `n` in base `b`, least significant first. -/
def digits (b : Nat) : Nat → Nat → List Nat
  | 0, _ => []
  | k + 1, n => n % b :: digits b k (n / b)

@[simp] theorem length_digits (b k n : Nat) : (digits b k n).length = k := by
  induction k generalizing n with
  | zero => rfl
  | succ k ih => simp [digits, ih]

theorem digits_lt {b : Nat} (hb : 0 < b) (k n : Nat) : ∀ d ∈ digits b k n, d < b := by
  induction k generalizing n with
  | zero => simp [digits]
  | succ k ih =>
    intro d hd
    rcases List.mem_cons.1 hd with rfl | hd
    · exact Nat.mod_lt _ hb
    · exact ih _ d hd

/-- Writing the number of a numeral gives its digits back. -/
theorem digits_ofDigits {b : Nat} {ds : List Nat} (h : ∀ d ∈ ds, d < b) :
    digits b ds.length (ofDigits b ds) = ds := by
  induction ds with
  | nil => rfl
  | cons d ds ih =>
    have hd : d < b := h d (by simp)
    simp only [List.length_cons, digits, ofDigits, Nat.add_mul_mod_self_left, Nat.mod_eq_of_lt hd]
    rw [Nat.add_mul_div_left _ _ (by omega), Nat.div_eq_of_lt hd, Nat.zero_add,
      ih fun x hx => h x (by simp [hx])]

/-! ### Bytes -/

/-- The last `k` bytes of `n`, least significant first. -/
def toBytes (k n : Nat) : List UInt8 := (digits 256 k n).map UInt8.ofNat

/-- The number that a list of bytes, least significant first, denotes. -/
def ofBytes (bytes : List UInt8) : Nat := ofDigits 256 (bytes.map UInt8.toNat)

@[simp] theorem length_toBytes (k n : Nat) : (toBytes k n).length = k := by simp [toBytes]

theorem toNat_lt_of_mem (bytes : List UInt8) : ∀ d ∈ bytes.map UInt8.toNat, d < 256 := by
  intro d hd
  obtain ⟨x, -, rfl⟩ := List.mem_map.1 hd
  exact x.toNat_lt

theorem toBytes_ofBytes (bytes : List UInt8) : toBytes bytes.length (ofBytes bytes) = bytes := by
  have h := digits_ofDigits (toNat_lt_of_mem bytes)
  rw [List.length_map] at h
  rw [toBytes, ofBytes, h, List.map_map]
  conv => rhs; rw [← List.map_id bytes]
  exact List.map_congr_left fun x _ => UInt8.ofNat_toNat

end SampledSeq.Numeral

/-!
## Cutting lists

Streams and blocks are lists that are read in pieces: a field of known length from the head, or rows
of equal length all the way. `exact` answers nothing if the list is too short (`exact_eq_none_iff`),
so a truncated field is never mistaken for a short one.
-/

namespace SampledSeq.Cut

/-! ### One piece -/

/-- The first `n` items of a list and the others, if there are that many. -/
def exact {α : Type} : Nat → List α → Option (List α × List α)
  | 0, xs => some ([], xs)
  | _ + 1, [] => none
  | n + 1, x :: xs => (exact n xs).map fun (taken, rest) => (x :: taken, rest)

theorem exact_append {α : Type} (xs ys : List α) :
    exact xs.length (xs ++ ys) = some (xs, ys) := by
  induction xs with
  | nil => rfl
  | cons x xs ih => simp [exact, ih]

theorem eq_append_of_exact {α : Type} {n : Nat} {xs taken rest : List α}
    (h : exact n xs = some (taken, rest)) : xs = taken ++ rest ∧ taken.length = n := by
  induction n generalizing xs taken rest with
  | zero => simp_all [exact]
  | succ n ih =>
    cases xs with
    | nil => simp [exact] at h
    | cons x xs =>
      simp only [exact, Option.map_eq_some_iff] at h
      obtain ⟨⟨t, r⟩, ht, he⟩ := h
      simp only [Prod.mk.injEq] at he
      obtain ⟨rfl, rfl⟩ := he
      obtain ⟨rfl, rfl⟩ := ih ht
      exact ⟨rfl, rfl⟩

/-- A list splits exactly if it is long enough. -/
theorem exact_eq_none_iff {α : Type} {n : Nat} {xs : List α} :
    exact n xs = none ↔ xs.length < n := by
  induction n generalizing xs with
  | zero => simp [exact]
  | succ n ih => cases xs <;> simp [exact, ih]

/-- Fewer items than a list begins with are not all of these. -/
theorem take_part {α : Type} {front : List α} {n : Nat} (h : n < front.length) (rest : List α) :
    (front ++ rest).take n <+: front ∧ (front ++ rest).take n ≠ front := by
  rw [List.take_append_of_le_length (Nat.le_of_lt h)]
  refine ⟨List.take_prefix n front, fun hsame => ?_⟩
  have hlen := congrArg List.length hsame
  rw [List.length_take] at hlen
  omega

/-! ### Appending -/

/-- What is appended piece by piece is all pieces one after the other. -/
theorem foldl_append {α β : Type} {step : Array β → α → Array β} {piece : α → List β}
    (h : ∀ out x, step out x = out ++ piece x) (xs : List α) (out : Array β) :
    xs.foldl step out = out ++ xs.flatMap piece := by
  apply Array.toList_inj.1
  induction xs generalizing out with
  | nil => simp
  | cons x xs ih => simp [h, ih]

/-! ### Rows -/

/-- A list in rows of `n` items; the last row may be shorter. -/
def rows {α : Type} (n : Nat) (xs : List α) : List (List α) :=
  if _h : n = 0 ∨ xs = [] then [] else xs.take n :: rows n (xs.drop n)
termination_by xs.length
decreasing_by
  have : xs.length ≠ 0 := fun h0 => _h (Or.inr (List.length_eq_zero_iff.1 h0))
  simp only [List.length_drop]
  omega

/-- The rows put together again are the list. -/
theorem flatten_rows {α : Type} {n : Nat} (hn : 0 < n) (xs : List α) :
    (rows n xs).flatten = xs := by
  fun_induction rows n xs with
  | case1 xs h => rcases h with h | h <;> simp_all
  | case2 xs h ih => rw [List.flatten_cons, ih, List.take_append_drop]

/-- All rows are full if their length divides the length of the list. -/
theorem length_of_mem_rows {α : Type} {n : Nat} {xs : List α} (h : n ∣ xs.length) :
    ∀ row ∈ rows n xs, row.length = n := by
  fun_induction rows n xs with
  | case1 => simp
  | case2 xs hne ih =>
    have hpos : xs.length ≠ 0 := fun h0 => hne (Or.inr (List.length_eq_zero_iff.1 h0))
    have hle : n ≤ xs.length := Nat.le_of_dvd (by omega) h
    intro row hrow
    rcases List.mem_cons.1 hrow with rfl | hrow
    · simp [hle]
    · exact ih (by rw [List.length_drop]; exact Nat.dvd_sub h (Nat.dvd_refl n)) row hrow

theorem length_rows {α : Type} {n : Nat} (hn : 0 < n) {xs : List α} (h : n ∣ xs.length) :
    (rows n xs).length = xs.length / n := by
  have hlen := congrArg List.length (flatten_rows hn xs)
  rw [List.length_flatten, List.map_congr_left (length_of_mem_rows h)] at hlen
  simp only [List.map_const', List.sum_replicate_nat] at hlen
  rw [← hlen, Nat.mul_div_cancel _ hn]

/-- Full rows are found again in the list that they make up. -/
theorem rows_flatten {α : Type} {n : Nat} (hn : 0 < n) {table : List (List α)}
    (h : ∀ row ∈ table, row.length = n) : rows n table.flatten = table := by
  induction table with
  | nil => rw [rows]; simp
  | cons row table ih =>
    have hrow : row.length = n := h row (by simp)
    have hne : ¬ (n = 0 ∨ row ++ table.flatten = []) := by
      rintro (h0 | h0)
      · omega
      · simp only [List.append_eq_nil_iff] at h0
        rw [h0.1] at hrow
        simp at hrow
        omega
    rw [List.flatten_cons, rows, dif_neg hne, List.take_left' hrow, List.drop_left' hrow,
      ih fun r hr => h r (by simp [hr])]

end SampledSeq.Cut
