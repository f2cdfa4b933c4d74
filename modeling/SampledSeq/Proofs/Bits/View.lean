import Mathlib.Data.Nat.Bitwise
import SampledSeq.Bits
import SampledSeq.Numeral
import SampledSeq.Proofs.Outcome

/-!
# Words and streams as bits

What a stream holds is a bit for every position. Here every operation on numerals, on words and on
streams of words is read as an operation on bits.
-/

/-!
## How large a numeral can be

A numeral of `k` digits in base `b` denotes a number below `b ^ k` (`ofDigits_lt`), and every number
is kept modulo `b ^ k` by its last `k` digits (`ofDigits_digits`). The same holds for bytes, which
are digits in base 256, and for bits (`ofDigits_testBit`).
-/

namespace SampledSeq.Numeral

/-- A numeral with `k` digits below the base denotes a number below `b ^ k`. -/
theorem ofDigits_lt {b : Nat} {ds : List Nat} (h : ∀ d ∈ ds, d < b) :
    ofDigits b ds < b ^ ds.length := by
  induction ds with
  | nil => simp [ofDigits]
  | cons d ds ih =>
    have hd : d < b := h d (by simp)
    have ht := ih fun x hx => h x (by simp [hx])
    have : b * (ofDigits b ds + 1) ≤ b * b ^ ds.length := Nat.mul_le_mul_left b ht
    simp only [ofDigits, List.length_cons, Nat.pow_succ]
    rw [Nat.mul_comm (b ^ ds.length) b]
    rw [Nat.mul_add] at this
    omega

/-- Reading `k` digits of a number keeps it modulo `b ^ k`. -/
theorem ofDigits_digits (b k n : Nat) : ofDigits b (digits b k n) = n % b ^ k := by
  induction k generalizing n with
  | zero => simp [digits, ofDigits, Nat.mod_one]
  | succ k ih =>
    rw [digits, ofDigits, ih, Nat.pow_succ, Nat.mul_comm (b ^ k) b, Nat.mod_mul]

theorem getElem_digits (b k n : Nat) {i : Nat} (h : i < (digits b k n).length) :
    (digits b k n)[i] = n / b ^ i % b := by
  induction k generalizing n i with
  | zero => simp at h
  | succ k ih =>
    cases i with
    | zero => simp [digits]
    | succ i =>
      have hi : i < (digits b k (n / b)).length := by simpa using h
      simp only [digits, List.getElem_cons_succ, ih (n / b) hi, Nat.div_div_eq_div_mul,
        Nat.pow_succ, Nat.mul_comm]

/-- The lowest bits of a number are its digits in base 2. -/
theorem ofDigits_testBit (k n : Nat) :
    ofDigits 2 ((List.range k).map fun i => (n.testBit i).toNat) = n % 2 ^ k := by
  have hdigits : ((List.range k).map fun i => (n.testBit i).toNat) = digits 2 k n := by
    refine List.ext_getElem (by simp) fun i hi hi' => ?_
    rw [List.getElem_map, List.getElem_range, getElem_digits, Nat.toNat_testBit]
  rw [hdigits, ofDigits_digits]

/-! ### Bytes -/

theorem ofBytes_lt (bytes : List UInt8) : ofBytes bytes < 256 ^ bytes.length := by
  simpa [ofBytes] using ofDigits_lt (toNat_lt_of_mem bytes)

theorem ofBytes_toBytes (k n : Nat) : ofBytes (toBytes k n) = n % 256 ^ k := by
  have h : (digits 256 k n).map (UInt8.toNat ∘ UInt8.ofNat) = digits 256 k n := by
    conv => rhs; rw [← List.map_id (digits 256 k n)]
    refine List.map_congr_left fun d hd => ?_
    have := digits_lt (by decide) k n d hd
    simp [UInt8.toNat_ofNat', Nat.mod_eq_of_lt this]
  rw [toBytes, ofBytes, List.map_map, h, ofDigits_digits]

end SampledSeq.Numeral

/-!
## The bit length

The bit length of `n` is the least width whose power of two is above `n`: that is
`bitLength_le_iff`, from which everything else follows. The common width of a list is the least one
that is enough for all its members (`commonWidth_le_iff`).
-/

namespace SampledSeq.Word

@[simp] theorem bitLength_zero : bitLength 0 = 0 := rfl

/-- `n` has at most `width` bits exactly if it is below `2 ^ width`. -/
theorem bitLength_le_iff {n width : Nat} : bitLength n ≤ width ↔ n < 2 ^ width := by
  by_cases h : n = 0
  · subst h
    exact iff_of_true (Nat.zero_le _) (Nat.two_pow_pos width)
  · simp only [bitLength, h, if_false]
    rw [← Nat.log2_lt h]
    omega

theorem lt_two_pow_bitLength (n : Nat) : n < 2 ^ bitLength n :=
  bitLength_le_iff.1 (Nat.le_refl _)

theorem bitLength_mono {m n : Nat} (h : m ≤ n) : bitLength m ≤ bitLength n :=
  bitLength_le_iff.2 (Nat.lt_of_le_of_lt h (lt_two_pow_bitLength n))

/-- Dropping the lowest `k` bits of a longer number shortens it by `k`. -/
theorem bitLength_div_two_pow {n k : Nat} (h : 2 ^ k ≤ n) :
    bitLength n = bitLength (n / 2 ^ k) + k := by
  have shift : ∀ width, n < 2 ^ (width + k) ↔ n / 2 ^ k < 2 ^ width := fun width => by
    rw [Nat.div_lt_iff_lt_mul (Nat.two_pow_pos k), Nat.pow_add]
  have hlong : k ≤ bitLength n := Nat.le_of_lt (Nat.lt_of_not_le fun hle =>
    Nat.not_lt_of_le h (bitLength_le_iff.1 hle))
  apply Nat.le_antisymm
  · exact bitLength_le_iff.2 ((shift _).2 (lt_two_pow_bitLength _))
  · have : bitLength (n / 2 ^ k) ≤ bitLength n - k := by
      rw [bitLength_le_iff, ← shift, Nat.sub_add_cancel hlong]
      exact lt_two_pow_bitLength n
    omega

/-! ### The common width -/

/-- A width is enough exactly if every number is below its power of two. -/
theorem commonWidth_le_iff {ns : List Nat} {width : Nat} :
    commonWidth ns ≤ width ↔ ∀ n ∈ ns, n < 2 ^ width := by
  suffices h : ∀ start, ns.foldl (fun w n => max w (bitLength n)) start ≤ width ↔
      start ≤ width ∧ ∀ n ∈ ns, n < 2 ^ width by
    simpa [commonWidth] using h 0
  induction ns with
  | nil => simp
  | cons n ns ih =>
    intro start
    rw [List.foldl_cons, ih, Nat.max_le, bitLength_le_iff]
    simp [and_assoc]

theorem commonWidth_eq_foldr (ns : List Nat) : commonWidth ns = (ns.map bitLength).foldr max 0 := by
  have hfoldr : ∀ width, (ns.map bitLength).foldr max 0 ≤ width ↔ ∀ n ∈ ns, n < 2 ^ width := by
    intro width
    induction ns with
    | nil => simp
    | cons n ns ih =>
      rw [List.map_cons, List.foldr_cons, Nat.max_le, bitLength_le_iff, ih, List.forall_mem_cons]
  apply Nat.le_antisymm
  · exact commonWidth_le_iff.2 ((hfoldr _).1 (Nat.le_refl _))
  · exact (hfoldr _).2 (commonWidth_le_iff.1 (Nat.le_refl _))

end SampledSeq.Word

/-!
## Taking ones off a word

A word and its predecessor differ in the lowest one and in the zeros below it, so what they have in
common is the word without that one (`testBit_and_pred`). Clearing the lowest one thus takes the
first entry off the list of all ones (`ones_clearLowest`). By this step, the ones that are taken off
from below are the first of that list (`lowestOnes_eq_take`), and the one that is lowest when `k` of
them have been cleared is its `k`-th entry (`select_eq_ok`).
-/

namespace SampledSeq.Word

/-- A number and its predecessor have all ones of the number in common but the lowest. -/
theorem testBit_and_pred {n t : Nat} (hone : n.testBit t = true)
    (hlow : ∀ j < t, n.testBit j = false) (i : Nat) :
    (n &&& (n - 1)).testBit i = (n.testBit i && decide (i ≠ t)) := by
  have hmod : n % 2 ^ (t + 1) = 2 ^ t := by
    apply Nat.eq_of_testBit_eq
    intro j
    rw [Nat.testBit_mod_two_pow, Nat.testBit_two_pow]
    rcases Nat.lt_trichotomy j t with hj | rfl | hj
    · simp [hlow j hj, Nat.ne_of_gt hj]
    · simp [hone]
    · simp [show ¬ j < t + 1 by omega, Nat.ne_of_lt hj]
  have hsplit : n = 2 ^ (t + 1) * (n / 2 ^ (t + 1)) + 2 ^ t := by
    conv => lhs; rw [← Nat.div_add_mod n (2 ^ (t + 1)), hmod]
  generalize n / 2 ^ (t + 1) = q at hsplit
  have hpos : 0 < 2 ^ t := Nat.two_pow_pos t
  have hlt : 2 ^ t < 2 ^ (t + 1) := Nat.pow_lt_pow_right (by decide) (Nat.lt_succ_self t)
  have hpred : n - 1 = 2 ^ (t + 1) * q + (2 ^ t - 1) := by omega
  rw [Nat.testBit_and, hpred, hsplit, Nat.testBit_two_pow_mul_add _ hlt,
    Nat.testBit_two_pow_mul_add _ (by omega)]
  by_cases hi : i < t + 1
  · -- up to the lowest one, the number has that one alone and the predecessor has all the others
    simp only [hi, if_true, Nat.testBit_two_pow, Nat.testBit_two_pow_sub_one]
    by_cases h : i = t
    · simp [h]
    · simp [Ne.symm h]
  · simp [hi, show i ≠ t by omega]

theorem pairwise_ones (word : UInt64) : (ones word).Pairwise (· < ·) :=
  List.pairwise_lt_range.filter _

theorem ones_eq_nil_iff {word : UInt64} : ones word = [] ↔ word = 0 := by
  constructor
  · intro h
    apply UInt64.toNat_inj.1
    apply Nat.eq_of_testBit_eq
    intro i
    rw [UInt64.toNat_zero, Nat.zero_testBit]
    by_cases hi : i < 64
    · exact Bool.eq_false_iff.2 fun hbit => List.not_mem_nil (h ▸ mem_ones.2 ⟨hi, hbit⟩)
    · exact Nat.testBit_lt_two_pow
        (Nat.lt_of_lt_of_le word.toNat_lt (Nat.pow_le_pow_right (by decide) (Nat.le_of_not_lt hi)))
  · rintro rfl
    rfl

theorem ones_clearLowest (word : UInt64) : ones (clearLowest word) = (ones word).tail := by
  cases hones : ones word with
  | nil =>
    obtain rfl := ones_eq_nil_iff.1 hones
    rfl
  | cons t rest =>
    have hsorted := pairwise_ones word
    rw [hones, List.pairwise_cons] at hsorted
    obtain ⟨ht, hone⟩ := mem_ones.1 (hones ▸ List.mem_cons_self : t ∈ ones word)
    have hlow : ∀ j < t, word.toNat.testBit j = false :=
      fun j hj => Bool.eq_false_iff.2 fun hbit => by
      have hmem : j ∈ t :: rest := hones ▸ mem_ones.2 ⟨Nat.lt_trans hj ht, hbit⟩
      rcases List.mem_cons.1 hmem with rfl | hrest
      · exact Nat.lt_irrefl _ hj
      · exact Nat.lt_asymm hj (hsorted.1 j hrest)
    have hpos : (1 : UInt64) ≤ word :=
      UInt64.le_iff_toNat_le.2 (Nat.pos_of_ne_zero fun h0 => by simp [h0] at hone)
    have hbits :
        ∀ i, (clearLowest word).toNat.testBit i = (word.toNat.testBit i && decide (i ≠ t)) :=
      fun i => by
      rw [clearLowest, UInt64.toNat_and, UInt64.toNat_sub_of_le _ _ hpos, UInt64.toNat_one,
        testBit_and_pred hone hlow]
    have hfilter : ones (clearLowest word) = (ones word).filter fun i => decide (i ≠ t) := by
      rw [ones, ones, List.filter_filter]
      exact List.filter_congr fun i _ => by rw [hbits, Bool.and_comm]
    rw [hfilter, hones, List.filter_cons_of_neg (by simp), List.tail_cons, List.filter_eq_self]
    exact fun i hi => decide_eq_true (Nat.ne_of_gt (hsorted.1 i hi))

/-- The ones of a word are the lowest one, and those that are left when it is cleared. -/
theorem ones_eq_cons {word : UInt64} (h : word ≠ 0) :
    ones word = lowest word :: ones (clearLowest word) := by
  rw [ones_clearLowest]
  cases hones : ones word with
  | nil => exact absurd (ones_eq_nil_iff.1 hones) h
  | cons t rest =>
    have hhead : (List.range 64).find? (fun i => word.toNat.testBit i) = some t := by
      rw [← List.head?_filter, ← ones, hones, List.head?_cons]
    rw [lowest, hhead, Option.getD_some, List.tail_cons]

theorem lowestOnes_eq_take (word : UInt64) (count : Nat) :
    lowestOnes word count = (ones word).take count := by
  induction count generalizing word with
  | zero => rfl
  | succ count ih =>
    by_cases h : word = 0
    · rw [lowestOnes, if_pos h, ones_eq_nil_iff.2 h, List.take_nil]
    · rw [lowestOnes, if_neg h, ih, ones_eq_cons h, List.take_succ_cons]

/-- The one that is lowest after `k` others have been cleared is the `k`-th one. -/
theorem select_eq_ok {word : UInt64} {k : Nat} (h : k < (ones word).length) :
    select word k = .ok (ones word)[k] := by
  have hne : ∀ {word : UInt64}, 0 < (ones word).length → word ≠ 0 := fun hlen h0 =>
    List.ne_nil_of_length_pos hlen (ones_eq_nil_iff.2 h0)
  induction k generalizing word with
  | zero => simp only [select, ones_eq_cons (hne h), List.getElem_cons_zero]
  | succ k ih =>
    have hword : word ≠ 0 := hne (Nat.lt_of_le_of_lt (Nat.zero_le _) h)
    simp only [ones_eq_cons hword, List.length_cons, Nat.add_lt_add_iff_right] at h
    simp only [select, if_neg hword, ih h, ones_eq_cons hword, List.getElem_cons_succ]

end SampledSeq.Word

/-!
## Bit streams as bits

What a stream holds is a bit for every position. Here every operation on words is read as an
operation on bits:

- `getBits_ok`: a field that lies inside the buffer is read, and its bits are the bits of the
  buffer;
- `bit_writeBits`, `bit_writeZeros`, `bit_setBit`: writing leaves the bits before it alone, adds
  what it says, and leaves zeros behind the end.
-/

namespace SampledSeq

/-! ### Words -/

namespace Word

theorem testBit_eq_false (word : UInt64) {i : Nat} (h : 64 ≤ i) : word.toNat.testBit i = false :=
  Nat.testBit_lt_two_pow (Nat.lt_of_lt_of_le word.toNat_lt (Nat.pow_le_pow_right (by decide) h))

theorem testBit_lowMask (width i : Nat) :
    (lowMask width).toNat.testBit i = (decide (i < width) && decide (i < 64)) := by
  rw [lowMask, Nat.one_shiftLeft, UInt64.toNat_ofNat', Nat.testBit_mod_two_pow,
    Nat.testBit_two_pow_sub_one, Bool.and_comm]

theorem testBit_and_lowMask (word : UInt64) (width i : Nat) :
    (word &&& lowMask width).toNat.testBit i = (decide (i < width) && word.toNat.testBit i) := by
  rw [UInt64.toNat_and, Nat.testBit_and, testBit_lowMask]
  by_cases h : i < 64
  · simp [h, Bool.and_comm]
  · simp [testBit_eq_false word (by omega : 64 ≤ i)]

theorem testBit_shiftRight (word : UInt64) {shift : Nat} (h : shift < 64) (i : Nat) :
    (word >>> UInt64.ofNat shift).toNat.testBit i = word.toNat.testBit (shift + i) := by
  rw [UInt64.toNat_shiftRight, UInt64.toNat_ofNat', Nat.mod_eq_of_lt (by omega : shift < 2 ^ 64),
    Nat.mod_eq_of_lt h, Nat.testBit_shiftRight]

theorem testBit_shiftLeft (word : UInt64) {shift : Nat} (h : shift < 64) (i : Nat) :
    (word <<< UInt64.ofNat shift).toNat.testBit i =
      (decide (i < 64) && (decide (shift ≤ i) && word.toNat.testBit (i - shift))) := by
  rw [UInt64.toNat_shiftLeft, UInt64.toNat_ofNat', Nat.mod_eq_of_lt (by omega : shift < 2 ^ 64),
    Nat.mod_eq_of_lt h, Nat.testBit_mod_two_pow, Nat.testBit_shiftLeft]

end Word

/-! ### Reading -/

namespace BitSlice

/-- The bit at position `p`; zero behind the buffer. -/
def bit (s : BitSlice) (p : Nat) : Bool := (s.words.getD (p / 64) 0).toNat.testBit (p % 64)

theorem bit_eq_getElem (s : BitSlice) {p : Nat} (h : p / 64 < s.words.size) :
    s.bit p = s.words[p / 64].toNat.testBit (p % 64) := by
  simp [bit, h]

theorem testBit_getElem (s : BitSlice) {i j : Nat} (hi : i < s.words.size) (hj : j < 64) :
    s.words[i].toNat.testBit j = s.bit (64 * i + j) := by
  have hq : (64 * i + j) / 64 = i := by omega
  have hr : (64 * i + j) % 64 = j := by omega
  rw [bit_eq_getElem s (by omega), hr]
  simp only [hq]

/-- A field inside the buffer is read, and its bits are those of the buffer. -/
theorem getBits_ok (s : BitSlice) {pos width : Nat} (hw : width ≤ 64) (h : pos + width ≤ s.len) :
    ∃ v, s.getBits pos width = .ok v ∧
      ∀ i, v.toNat.testBit i = (decide (i < width) && s.bit (pos + i)) := by
  by_cases h0 : width = 0
  · exact ⟨0, by simp [getBits, h0], by simp [h0]⟩
  have hpos : 64 * (pos / 64) + pos % 64 = pos := Nat.div_add_mod pos 64
  have hlen : pos + width ≤ s.words.size * 64 := h
  have hslot : pos / 64 < s.words.size := by omega
  rw [getBits, if_neg h0, if_pos h]
  simp only [Position.get_eq_ok hslot, Position.below_eq_ok (Nat.mod_lt pos (by decide : 64 > 0)),
    ok_bind]
  split
  · -- the field goes on in the next word; its shift is not 64, since then a single word would be
    -- enough
    have hslot' : pos / 64 + 1 < s.words.size := by omega
    simp only [Position.get_eq_ok hslot', Position.below_eq_ok (by omega : 64 - pos % 64 < 64),
      ok_bind]
    refine ⟨_, rfl, fun i => ?_⟩
    rw [Word.testBit_and_lowMask, UInt64.toNat_or, Nat.testBit_or,
      Word.testBit_shiftRight _ (by omega), Word.testBit_shiftLeft _ (by omega)]
    by_cases hi : i < width
    · simp only [hi, decide_true, Bool.true_and]
      by_cases hc : pos % 64 + i < 64
      · rw [s.testBit_getElem hslot hc, show 64 * (pos / 64) + (pos % 64 + i) = pos + i by omega]
        simp [show ¬ 64 - pos % 64 ≤ i by omega]
      · rw [Word.testBit_eq_false _ (by omega), s.testBit_getElem hslot' (by omega),
          show 64 * (pos / 64 + 1) + (i - (64 - pos % 64)) = pos + i by omega]
        simp [show i < 64 by omega, show 64 - pos % 64 ≤ i by omega]
    · simp [hi]
  · refine ⟨_, rfl, fun i => ?_⟩
    rw [Word.testBit_and_lowMask, Word.testBit_shiftRight _ (by omega)]
    by_cases hi : i < width
    · rw [s.testBit_getElem hslot (by omega), show 64 * (pos / 64) + (pos % 64 + i) =
        pos + i by omega]
    · simp [hi]

/-- A field that has bits and does not lie inside the buffer is reported. -/
theorem getBits_error (s : BitSlice) {pos width : Nat} (h0 : width ≠ 0) (h : s.len < pos + width) :
    s.getBits pos width = corrupt (.bitsPastEnd width pos s.len) := by
  rw [getBits, if_neg h0, if_neg (Nat.not_le_of_lt h)]

end BitSlice

/-! ### Writing -/

namespace BitWriter

def bit (w : BitWriter) (p : Nat) : Bool := BitSlice.bit ⟨w.words⟩ p

/-- There are as many words as the bits take, and the bits behind the end are zero. -/
structure Clean (w : BitWriter) : Prop where
  exact : w.Exact
  bit_eq_false : ∀ p, w.len ≤ p → w.bit p = false

theorem clean_empty : Clean {} := ⟨exact_empty, fun p _ => by simp [bit, BitSlice.bit]⟩

theorem bit_reserve (w : BitWriter) (extra p : Nat) :
    BitSlice.bit ⟨w.reserve extra⟩ p = w.bit p := by
  simp only [bit, BitSlice.bit, reserve]
  by_cases h : p / 64 < w.words.size
  · simp [Array.getElem?_append, h]
  · by_cases h' : p / 64 - w.words.size < wordsFor (w.len + extra) - w.words.size
    · simp [Array.getElem?_append, h, h']
    · simp [Array.getElem?_append, h, h']

/-- Combining one word of a buffer with another by "or" does the same to its bits. -/
theorem bit_modify_or (words : Array UInt64) {slot : Nat} (h : slot < words.size) (word : UInt64)
    (p : Nat) :
    BitSlice.bit ⟨words.modify slot (· ||| word)⟩ p =
      (BitSlice.bit ⟨words⟩ p || (decide (p / 64 = slot) && word.toNat.testBit (p % 64))) := by
  simp only [BitSlice.bit, Array.getD_eq_getD_getElem?, Array.getElem?_modify]
  by_cases hs : p / 64 = slot
  · subst hs
    simp [h, UInt64.toNat_or, Nat.testBit_or]
  · simp [hs, Ne.symm hs]

theorem bit_writeBits {w : BitWriter} (hc : w.Clean) (value : UInt64) {width : Nat}
    (hw : width ≤ 64) (p : Nat) :
    (w.writeBits value width).bit p =
      if p < w.len then w.bit p
      else decide (p < w.len + width) && value.toNat.testBit (p - w.len) := by
  by_cases h0 : width = 0
  · subst h0
    by_cases hp : p < w.len
    · simp [writeBits, hp]
    · simp [writeBits, hp, hc.bit_eq_false p (by omega)]
  · have hsize := size_reserve hc.exact width
    have hslot : w.len / 64 < (w.reserve width).size := by
      rw [hsize, wordsFor]
      omega
    have hfield : ∀ i, (value &&& Word.lowMask width).toNat.testBit i =
        (decide (i < width) && value.toNat.testBit i) := Word.testBit_and_lowMask value width
    have hold : ∀ p, w.len ≤ p → w.bit p = false := hc.bit_eq_false
    unfold bit at hold ⊢
    simp only [writeBits, h0, if_false]
    by_cases hs : w.len % 64 + width > 64
    · have hslot' : w.len / 64 + 1 < (w.reserve width).size := by
        rw [hsize, wordsFor]
        omega
      rw [if_pos hs, bit_modify_or _ (by simpa using hslot'), bit_modify_or _ hslot, bit_reserve,
        bit, Word.testBit_shiftLeft _ (by omega), Word.testBit_shiftRight _ (by omega),
        hfield, hfield]
      by_cases hp : p < w.len
      · have hne : ¬ p / 64 = w.len / 64 + 1 := by omega
        by_cases hq : p / 64 = w.len / 64
        · simp [hp, hne, show ¬ w.len % 64 ≤ p % 64 by omega]
        · simp [hp, hne, hq]
      · rw [if_neg hp, hold p (by omega), Bool.false_or]
        by_cases hq : p / 64 = w.len / 64
        · have hi : p % 64 - w.len % 64 = p - w.len := by omega
          simp [hq, hi, show p % 64 < 64 by omega, show w.len % 64 ≤ p % 64 by omega,
            show p - w.len < width ↔ p < w.len + width by omega]
        · by_cases hq' : p / 64 = w.len / 64 + 1
          · have hi : 64 - w.len % 64 + p % 64 = p - w.len := by omega
            simp [hq', hi, show p - w.len < width ↔ p < w.len + width by omega]
          · have : ¬ p < w.len + width := by omega
            simp [hq, hq', this]
    · rw [if_neg hs, bit_modify_or _ hslot, bit_reserve, bit, Word.testBit_shiftLeft _ (by omega),
        hfield]
      by_cases hp : p < w.len
      · by_cases hq : p / 64 = w.len / 64
        · simp [hp, show ¬ w.len % 64 ≤ p % 64 by omega]
        · simp [hp, hq]
      · rw [if_neg hp, hold p (by omega), Bool.false_or]
        by_cases hq : p / 64 = w.len / 64
        · have hi : p % 64 - w.len % 64 = p - w.len := by omega
          simp [hq, hi, show p % 64 < 64 by omega, show w.len % 64 ≤ p % 64 by omega,
            show p - w.len < width ↔ p < w.len + width by omega]
        · have : ¬ p < w.len + width := by omega
          simp [hq, this]

theorem Clean.writeBits {w : BitWriter} (hc : w.Clean) (value : UInt64) {width : Nat}
    (hw : width ≤ 64) : (w.writeBits value width).Clean where
  exact := hc.exact.writeBits value width
  bit_eq_false p hp := by
    rw [len_writeBits] at hp
    rw [bit_writeBits hc value hw, if_neg (by omega)]
    simp [show ¬ p < w.len + width by omega]

theorem bit_writeZeros (w : BitWriter) (count p : Nat) : (w.writeZeros count).bit p = w.bit p :=
  bit_reserve w count p

theorem Clean.writeZeros {w : BitWriter} (hc : w.Clean) (count : Nat) :
    (w.writeZeros count).Clean where
  exact := hc.exact.writeZeros count
  bit_eq_false p hp := by
    rw [len_writeZeros] at hp
    rw [bit_writeZeros]
    exact hc.bit_eq_false p (by omega)

/-- A bit that has been written becomes a one; nothing else changes. -/
theorem bit_setBit {w : BitWriter} (hc : w.Clean) {pos : Nat} (hpos : pos < w.len) (p : Nat) :
    (w.setBit pos).bit p = (w.bit p || decide (p = pos)) := by
  have hslot : pos / 64 < w.words.size := by
    rw [hc.exact, wordsFor]
    omega
  unfold bit setBit
  rw [bit_modify_or _ hslot, Word.testBit_shiftLeft _ (by omega)]
  have hone : ∀ i, (1 : UInt64).toNat.testBit i = decide (i = 0) := by
    intro i
    rw [show (1 : UInt64).toNat = 2 ^ 0 from rfl, Nat.testBit_two_pow]
    simp [eq_comm]
  rw [hone]
  congr 1
  by_cases hq : p / 64 = pos / 64
  · by_cases he : p = pos
    · subst he
      simp [show p % 64 < 64 by omega]
    · by_cases hle : pos % 64 ≤ p % 64
      · simp [he, show p % 64 - pos % 64 ≠ 0 by omega]
      · simp [he, hle]
  · simp [hq, show p ≠ pos by rintro rfl; exact hq rfl]

theorem Clean.setBit {w : BitWriter} (hc : w.Clean) {pos : Nat} (hpos : pos < w.len) :
    (w.setBit pos).Clean where
  exact := hc.exact.setBit pos
  bit_eq_false p hp := by
    rw [len_setBit] at hp
    rw [bit_setBit hc hpos, hc.bit_eq_false p hp]
    simp [show p ≠ pos by omega]

end BitWriter

end SampledSeq
