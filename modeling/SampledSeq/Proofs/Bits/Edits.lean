import Mathlib.Data.List.Sort
import SampledSeq.Error
import SampledSeq.Proofs.Bits.Ones
import SampledSeq.Proofs.Bits.View
import SampledSeq.Proofs.Stream

/-!
# What was written is read

A stream grows from the empty one by fields, zeros and single ones. What it holds at any time is a
list of bits, and reading sees these bits, also in the words of a later stream, and in stored form.
-/

/-!
## Reading what was written

A buffer carries a writer if it holds every bit that the writer wrote, whatever was appended later.
Every operation of a writer only extends it, so a buffer that carries the last writer carries all
those before: `Carries.of_extends` is how a list is found again behind all that was written after
it.
-/

namespace SampledSeq

/-- The buffer holds every bit of the writer, at its place. -/
structure BitSlice.Carries (s : BitSlice) (w : BitWriter) : Prop where
  len_le : w.len ≤ s.len
  bit_eq : ∀ p, p < w.len → s.bit p = w.bit p

/-- `w'` has written at least what `w` has. -/
structure BitWriter.Extends (w' w : BitWriter) : Prop where
  len_le : w.len ≤ w'.len
  bit_eq : ∀ p, p < w.len → w'.bit p = w.bit p

section
variable {w w' w'' : BitWriter}

theorem BitWriter.Extends.refl (w : BitWriter) : w.Extends w := ⟨Nat.le_refl _, fun _ _ => rfl⟩

theorem BitWriter.Extends.trans (h : w''.Extends w') (h' : w'.Extends w) : w''.Extends w where
  len_le := Nat.le_trans h'.len_le h.len_le
  bit_eq p hp := (h.bit_eq p (Nat.lt_of_lt_of_le hp h'.len_le)).trans (h'.bit_eq p hp)

theorem BitSlice.Carries.of_extends {s : BitSlice} (h : s.Carries w') (h' : w'.Extends w) :
    s.Carries w where
  len_le := Nat.le_trans h'.len_le h.len_le
  bit_eq p hp := (h.bit_eq p (Nat.lt_of_lt_of_le hp h'.len_le)).trans (h'.bit_eq p hp)

theorem BitWriter.carries_words (h : w.Exact) : BitSlice.Carries ⟨w.words⟩ w where
  len_le := by
    have : w.words.size = (w.len + 63) / 64 := h
    simp only [BitSlice.len, this]
    omega
  bit_eq _ _ := rfl

end

namespace BitWriter

variable {w : BitWriter}

/-! ### Fields -/

theorem extends_writeBits (hc : w.Clean) (value : UInt64) {width : Nat} (hw : width ≤ 64) :
    (w.writeBits value width).Extends w where
  len_le := by simp
  bit_eq p hp := by rw [bit_writeBits hc value hw, if_pos hp]

/-- All values have been appended, and nothing else has changed. -/
theorem writeAll_spec {width : Nat} (hw : width ≤ 64) :
    ∀ (values : List UInt64) {w : BitWriter}, w.Clean →
      (w.writeAll values width).Clean ∧ (w.writeAll values width).Extends w
  | [], w, hc => ⟨hc, Extends.refl w⟩
  | v :: vs, w, hc => by
    obtain ⟨hclean, hext⟩ := writeAll_spec hw vs (hc.writeBits v hw)
    exact ⟨hclean, hext.trans (extends_writeBits hc v hw)⟩

theorem getBits_writeBits (hc : w.Clean) {value : UInt64} {width : Nat} (hw : width ≤ 64)
    {s : BitSlice} (hs : s.Carries (w.writeBits value width)) :
    s.getBits w.len width = .ok (value &&& Word.lowMask width) := by
  have hlen := hs.len_le
  rw [len_writeBits] at hlen
  obtain ⟨v, hv, hbits⟩ := s.getBits_ok hw hlen
  rw [hv]
  congr 1
  apply UInt64.toNat_inj.1
  apply Nat.eq_of_testBit_eq
  intro i
  rw [hbits, Word.testBit_and_lowMask]
  by_cases hi : i < width
  · rw [hs.bit_eq _ (by simpa using hi), bit_writeBits hc value hw, if_neg (by omega),
      Nat.add_sub_cancel_left]
    simp [hi]
  · simp [hi]

theorem getBits_writeAll {width : Nat} (hw : width ≤ 64) {s : BitSlice} :
    ∀ {values : List UInt64} {w : BitWriter}, w.Clean → s.Carries (w.writeAll values width) →
      ∀ i (h : i < values.length), s.getBits (w.len + i * width) width =
        .ok (values[i] &&& Word.lowMask width)
  | [], _, _, _, i, h => by simp at h
  | v :: vs, w, hc, hs, 0, _ => by
    have hext := (writeAll_spec hw vs (hc.writeBits v hw)).2
    rw [Nat.zero_mul, Nat.add_zero]
    exact getBits_writeBits hc hw (hs.of_extends hext)
  | v :: vs, w, hc, hs, i + 1, h => by
    have ih := getBits_writeAll hw (hc.writeBits v hw) hs i (by simpa using h)
    rw [len_writeBits] at ih
    rw [Nat.succ_mul, show w.len + (i * width + width) = w.len + width + i * width by omega]
    exact ih

end BitWriter

theorem Word.and_lowMask_eq_self {value : UInt64} {width : Nat} (h : value.toNat < 2 ^ width) :
    value &&& Word.lowMask width = value := by
  apply UInt64.toNat_inj.1
  apply Nat.eq_of_testBit_eq
  intro i
  rw [Word.testBit_and_lowMask]
  by_cases hi : i < width
  · simp [hi]
  · simp [hi,
      Nat.testBit_lt_two_pow
      (Nat.lt_of_lt_of_le h (Nat.pow_le_pow_right (by decide) (Nat.le_of_not_lt hi)))]

namespace BitWriter

variable {w : BitWriter}

/-! ### Marks -/

theorem setAll_spec :
    ∀ (positions : List Nat) {w : BitWriter}, w.Clean → (∀ p ∈ positions, p < w.len) →
    (w.setAll positions).Clean ∧
    ∀ p, (w.setAll positions).bit p = (w.bit p || decide (p ∈ positions))
  | [], w, hc, _ => ⟨hc, fun p => by simp [setAll]⟩
  | q :: qs, w, hc, hlt => by
    have hq : q < w.len := hlt q (by simp)
    obtain ⟨hclean, hbit⟩ :=
      setAll_spec qs (hc.setBit hq) fun p hp => by simpa using hlt p (by simp [hp])
    refine ⟨hclean, fun p => (hbit p).trans ?_⟩
    rw [bit_setBit hc hq]
    simp only [List.mem_cons, Bool.decide_or, Bool.or_assoc]

/-- The given positions behind the end have been marked in a row of zeros. -/
def mark (w : BitWriter) (count : Nat) (positions : List Nat) : BitWriter :=
  (w.writeZeros count).setAll positions

theorem mark_spec (hc : w.Clean) {count : Nat} {positions : List Nat}
    (hp : ∀ p ∈ positions, w.len ≤ p ∧ p < w.len + count) :
    (w.mark count positions).Clean ∧ (w.mark count positions).Extends w := by
  obtain ⟨hclean, hbit⟩ := setAll_spec positions (hc.writeZeros count) fun p h => (hp p h).2
  refine ⟨hclean, ⟨by simp [mark], ?_⟩⟩
  intro p h
  have hnot : p ∉ positions := fun hmem => by
    have := (hp p hmem).1
    omega
  rw [mark, hbit, bit_writeZeros]
  simp [hnot]

/-- The marks are the ones of their row. -/
theorem onesIn_mark (hc : w.Clean) {count : Nat} {positions : List Nat}
    (hp : ∀ p ∈ positions, w.len ≤ p ∧ p < w.len + count) (hsorted : positions.Pairwise (· < ·))
    {s : BitSlice} (hs : s.Carries (w.mark count positions)) :
    s.onesIn w.len (w.len + count) = positions := by
  have hbit := (setAll_spec positions (hc.writeZeros count) fun p h => (hp p h).2).2
  apply List.Pairwise.eq_of_mem_iff (s.pairwise_onesIn _ _) hsorted
  intro p
  rw [BitSlice.mem_onesIn]
  constructor
  · rintro ⟨⟨hle, hlt⟩, hone⟩
    rw [hs.bit_eq p (by simpa [mark] using hlt), mark, hbit, bit_writeZeros,
      hc.bit_eq_false p hle] at hone
    simpa using hone
  · intro hmem
    obtain ⟨hle, hlt⟩ := hp p hmem
    refine ⟨⟨hle, hlt⟩, ?_⟩
    rw [hs.bit_eq p (by simpa [mark] using hlt), mark, hbit]
    simp [hmem]

end BitWriter

end SampledSeq

/-!
## What becomes of a stream

A writer grows by fields, by zeros, and by ones in place of zeros that it has written itself
(`GrowsInto`). Every writer that there is has grown out of the empty one, so it has no ones behind
its end (`GrowsInto.clean`). Growing leaves alone what was there before (`GrowsInto.extends`); hence
the words of a writer hold what was written at any time on the way to it (`GrowsInto.carries`).
-/

namespace SampledSeq.BitWriter

variable {w w' : BitWriter}

/-- `w'` is what `w` may become when it is written to: fields and zeros are appended, and bits
behind the end of `w` are turned into ones. -/
inductive GrowsInto (w : BitWriter) : BitWriter → Prop where
  | refl : GrowsInto w w
  | writeBits {w' : BitWriter} (h : GrowsInto w w') (value : UInt64) {width : Nat}
    (hwidth : width ≤ 64) :
    GrowsInto w (w'.writeBits value width)
  | writeZeros {w' : BitWriter} (h : GrowsInto w w') (count : Nat) :
    GrowsInto w (w'.writeZeros count)
  | setBit {w' : BitWriter} (h : GrowsInto w w') {pos : Nat} (hle : w.len ≤ pos)
    (hlt : pos < w'.len) :
    GrowsInto w (w'.setBit pos)

/-- No step leaves ones behind the end. -/
theorem GrowsInto.clean (h : w.GrowsInto w') (hc : w.Clean) : w'.Clean := by
  induction h with
  | refl => exact hc
  | writeBits _ value hwidth ih => exact ih.writeBits value hwidth
  | writeZeros _ count ih => exact ih.writeZeros count
  | setBit _ _ hlt ih => exact ih.setBit hlt

theorem GrowsInto.extends (h : w.GrowsInto w') (hc : w.Clean) : w'.Extends w := by
  induction h with
  | refl => exact .refl w
  | writeBits h value hwidth ih => exact (extends_writeBits (h.clean hc) value hwidth).trans ih
  | @writeZeros w' h count ih =>
    exact .trans ⟨by simp, fun p _ => bit_writeZeros w' count p⟩ ih
  | @setBit w' h pos hle hlt ih =>
    refine ⟨ih.len_le, fun p hp => ?_⟩
    rw [bit_setBit (h.clean hc) hlt, ih.bit_eq p hp, decide_eq_false (by omega), Bool.or_false]

/-- The words in the end hold every stage on the way. -/
theorem GrowsInto.carries (h : w.GrowsInto w') (hc : w.Clean) : BitSlice.Carries ⟨w'.words⟩ w :=
  (carries_words (h.clean hc).exact).of_extends (h.extends hc)

/-- If the stream can be addressed in the end, it could be on the way. -/
theorem GrowsInto.len_lt_limit (h : w.GrowsInto w') (hc : w.Clean) (hlimit : w'.len < 2 ^ 63) :
    w.len < Position.limit :=
  Nat.lt_of_le_of_lt (h.extends hc).len_le (Nat.lt_trans hlimit (by decide))

end SampledSeq.BitWriter

/-!
## A bit stream is a list of bits

Whatever is written, and in whatever order, the words of a stream spell one list of bits: the lowest
bits of every field, the zeros of every row, and a one wherever a bit was turned into a one later
(`Edit.describe`). What a single edit does to the words is what it does to the bits (`Holds.apply`),
because behind the end of a stream that `Holds` its bits there are only zeros; so the same is true
of any number of edits (`Holds.run`). Reading gives the number that the bits of a field denote, over
the words of a writer and over any others (`readsAs_bit`).
-/

namespace SampledSeq

namespace BitWriter

/-! ### Edits -/

/-- One step of writing a stream. -/
inductive Edit where
  | field (value : UInt64) (width : Nat)
  | zeros (count : Nat)
  | one (pos : Nat)
deriving DecidableEq, Repr

namespace Edit

def apply (w : BitWriter) : Edit → BitWriter
  | field value width => w.writeBits value width
  | zeros count => w.writeZeros count
  | one pos => w.setBit pos

/-- What an edit makes of a list of bits; the bits of a field come least significant first. A field
has at most 64 bits, and only a bit that is there can be turned into a one. -/
def describe (bits : List Bool) : Edit → Option (List Bool)
  | field value width =>
    if width ≤ 64 then some (bits ++ (List.range width).map value.toNat.testBit) else none
  | zeros count => some (bits ++ List.replicate count false)
  | one pos => if pos < bits.length then some (bits.set pos true) else none

end Edit

/-- The words hold a list of bits: they have room for it and no more, and behind it there are
zeros. -/
structure Holds (w : BitWriter) (bits : List Bool) : Prop where
  exact : w.Exact
  len_eq : w.len = bits.length
  bit_eq : ∀ p, w.bit p = bits.getD p false

variable {w : BitWriter} {bits bits' : List Bool}

theorem holds_empty : Holds {} [] where
  exact := exact_empty
  len_eq := rfl
  bit_eq p := clean_empty.bit_eq_false p (Nat.zero_le p)

theorem Holds.clean (h : w.Holds bits) : w.Clean where
  exact := h.exact
  bit_eq_false p hp := by
    rw [h.bit_eq, List.getD_eq_default _ _ (h.len_eq ▸ hp)]

/-- An edit does to the words what it does to the bits. -/
theorem Holds.apply (h : w.Holds bits) {edit : Edit} (hbits : edit.describe bits = some bits') :
    (edit.apply w).Holds bits' := by
  cases edit with
  | field value width =>
    obtain ⟨hwidth, hbits⟩ := Option.ite_none_right_eq_some.1 hbits
    obtain rfl := Option.some.inj hbits
    refine ⟨h.exact.writeBits value width, by simp [Edit.apply, h.len_eq], fun p => ?_⟩
    rw [Edit.apply, bit_writeBits h.clean value hwidth, h.bit_eq, h.len_eq]
    by_cases hp : p < bits.length
    · rw [if_pos hp, List.getD_append _ _ _ _ hp]
    · rw [if_neg hp, List.getD_append_right _ _ _ _ (Nat.le_of_not_lt hp)]
      have hfield : p < bits.length + width ↔ p - bits.length < width := by omega
      by_cases hlt : p - bits.length < width
      · simp [hfield, hlt]
      · simp [hfield, hlt]
  | zeros count =>
    obtain rfl := Option.some.inj hbits
    refine ⟨h.exact.writeZeros count, by simp [Edit.apply, h.len_eq], fun p => ?_⟩
    rw [Edit.apply, bit_writeZeros, h.bit_eq]
    by_cases hp : p < bits.length
    · rw [List.getD_append _ _ _ _ hp]
    · have hle : bits.length ≤ p := Nat.le_of_not_lt hp
      rw [List.getD_append_right _ _ _ _ hle, List.getD_eq_default _ _ hle,
        List.getD_eq_getElem?_getD, List.getElem?_getD_replicate_default_eq]
  | one pos =>
    obtain ⟨hpos, hbits⟩ := Option.ite_none_right_eq_some.1 hbits
    obtain rfl := Option.some.inj hbits
    refine ⟨h.exact.setBit pos, by simp [Edit.apply, h.len_eq], fun p => ?_⟩
    rw [Edit.apply, bit_setBit h.clean (h.len_eq ▸ hpos), h.bit_eq]
    by_cases hp : p = pos
    · subst hp
      simp [hpos]
    · simp [hp, List.getElem?_set_ne (Ne.symm hp)]

/-- Edits one after the other do to the words what they do to the bits. -/
theorem Holds.run {edits : List Edit} (h : w.Holds bits)
    (hbits : edits.foldlM Edit.describe bits = some bits') :
    (edits.foldl Edit.apply w).Holds bits' := by
  induction edits generalizing w bits with
  | nil =>
    obtain rfl := Option.some.inj hbits
    exact h
  | cons edit edits ih =>
    obtain ⟨next, hnext, hrest⟩ := Option.bind_eq_some_iff.1 hbits
    exact ih (h.apply hnext) hrest

end BitWriter

/-! ### Reading -/

namespace BitSlice

/-- The number that the `width` bits from `pos` on denote, least significant bit first. -/
def numberAt (bit : Nat → Bool) (pos width : Nat) : Nat :=
  Numeral.ofDigits 2 ((List.range width).map fun i => (bit (pos + i)).toNat)

/-- Every field is read as the number that the given bits denote there, if the words have those bits
or if there are none to be read. Every other field is reported. -/
def ReadsAs (s : BitSlice) (bit : Nat → Bool) : Prop :=
  ∀ pos width, width ≤ 64 →
    (width = 0 ∨ pos + width ≤ 64 * s.words.size →
      ∃ word, s.getBits pos width = .ok word ∧ word.toNat = numberAt bit pos width) ∧
    (¬ (width = 0 ∨ pos + width ≤ 64 * s.words.size) →
      s.getBits pos width = corrupt (.bitsPastEnd width pos s.len))

theorem readsAs_bit (s : BitSlice) : s.ReadsAs s.bit := by
  intro pos width hwidth
  refine ⟨fun hfits => ?_, fun hpast => ?_⟩
  · have hread : ∃ word, s.getBits pos width = .ok word := by
      rcases hfits with rfl | hfits
      · exact ⟨0, if_pos rfl⟩
      · obtain ⟨word, hword, -⟩ := s.getBits_ok hwidth (show pos + width ≤ s.len by rw [len]; omega)
        exact ⟨word, hword⟩
    obtain ⟨word, hword⟩ := hread
    have hlt : word.toNat < 2 ^ width := ((s.guarded_getBits hwidth).of_ok hword).1
    have hbits : (List.range width).map (fun i => (s.bit (pos + i)).toNat) =
        (List.range width).map fun i => (word.toNat.testBit i).toNat :=
      List.map_congr_left fun i hi => by
        rw [testBit_getBits hwidth hword, decide_eq_true (List.mem_range.1 hi), Bool.true_and]
    exact ⟨word, hword, by rw [numberAt, hbits, Numeral.ofDigits_testBit, Nat.mod_eq_of_lt hlt]⟩
  · rw [not_or] at hpast
    exact s.getBits_error hpast.1 (by rw [len]; omega)

end BitSlice

namespace BitWriter

/-- After any edits the words spell the bits that these describe: they are as many words as the bits
take, and have zeros behind them. What is read from these words is read from the bits, and any other
words are read as the bits that they have. -/
theorem edits_spell_bits {edits : List Edit} {bits : List Bool}
    (h : edits.foldlM Edit.describe [] = some bits) :
    let w := edits.foldl Edit.apply {}
    w.len = bits.length ∧ w.words.size = (bits.length + 63) / 64 ∧
      (∀ p, BitSlice.bit ⟨w.words⟩ p = bits.getD p false) ∧
      BitSlice.ReadsAs ⟨w.words⟩ (fun p => bits.getD p false) ∧
      ∀ s : BitSlice, s.ReadsAs s.bit := by
  intro w
  have hw : w.Holds bits := holds_empty.run h
  have hbit : BitSlice.bit ⟨w.words⟩ = fun p => bits.getD p false := funext hw.bit_eq
  refine ⟨hw.len_eq, ?_, hw.bit_eq, ?_, BitSlice.readsAs_bit⟩
  · rw [← hw.len_eq]
    exact hw.exact
  · rw [← hbit]
    exact BitSlice.readsAs_bit _

/-- A field of three bits behind 62 zeros ends in the second word; bit 1 is turned into a one behind
it. -/
def straddling : List Edit := [.zeros 62, .field 5 3, .one 1]

theorem straddling_spells_bits :
    (straddling.foldl Edit.apply {}).words.size = 2 ∧
      BitSlice.getBits ⟨(straddling.foldl Edit.apply {}).words⟩ 62 3 = .ok 5 ∧
      ∃ cause, BitSlice.getBits ⟨(straddling.foldl Edit.apply {}).words⟩ 127 2 = corrupt cause := by
  have hbits : straddling.foldlM Edit.describe [] =
      some ((List.replicate 62 false ++ [true, false, true]).set 1 true) := by decide
  obtain ⟨-, hsize, -, hread, -⟩ := edits_spell_bits hbits
  change (straddling.foldl Edit.apply {}).words.size = 2 at hsize
  obtain ⟨word, hword, hnumber⟩ := (hread 62 3 (by decide)).1 (.inr (by rw [hsize]; decide))
  obtain rfl : word = 5 := UInt64.toNat_inj.1 (hnumber.trans (by decide))
  exact ⟨hsize, hword, _, (hread 127 2 (by decide)).2 (by rw [hsize]; decide)⟩

end BitWriter

end SampledSeq

/-!
## Stored forms as bits

A byte string is a row of bits, and so is a buffer of words: stored word by word it has the same
bits (`bit_wordBytes`). Two strings that differ in certain bits only are equal part by part wherever
none of these bits is (`DiffersIn.append`, `DiffersIn.eq`).
-/

namespace SampledSeq

namespace Bytes

/-- The bit at position `p`, least significant bit of a byte first; zero behind the string. -/
def bit (bytes : List UInt8) (p : Nat) : Bool := (bytes.getD (p / 8) 0).toNat.testBit (p % 8)

variable {bytes bytes' first second : List UInt8}

theorem bit_of_le {p : Nat} (h : 8 * bytes.length ≤ p) : bit bytes p = false := by
  have hle : bytes.length ≤ p / 8 := by omega
  simp [bit, List.getElem?_eq_none hle]

theorem bit_append_left {p : Nat} (h : p < 8 * first.length) :
    bit (first ++ second) p = bit first p := by
  have hlt : p / 8 < first.length := by omega
  simp [bit, List.getElem?_append_left hlt]

theorem bit_append_right (first second : List UInt8) (p : Nat) :
    bit (first ++ second) (8 * first.length + p) = bit second p := by
  have hdiv : (8 * first.length + p) / 8 = first.length + p / 8 := by omega
  have hmod : (8 * first.length + p) % 8 = p % 8 := by omega
  simp [bit, hdiv, hmod, List.getElem?_append_right]

theorem eq_of_bit_eq (hlen : bytes'.length = bytes.length)
    (h : ∀ p < 8 * bytes.length, bit bytes' p = bit bytes p) :
    bytes' = bytes := by
  apply List.ext_getElem hlen
  intro i hi' hi
  apply UInt8.toNat_inj.1
  apply Nat.eq_of_testBit_eq
  intro j
  by_cases hj : j < 8
  · have hdiv : (8 * i + j) / 8 = i := by omega
    have hmod : (8 * i + j) % 8 = j := by omega
    simpa [bit, hdiv, hmod, hi, hi'] using h (8 * i + j) (by omega)
  · have hsmall : ∀ byte : UInt8, byte.toNat.testBit j = false := fun byte =>
      Nat.testBit_lt_two_pow
        (Nat.lt_of_lt_of_le byte.toNat_lt (Nat.pow_le_pow_right (by decide) (by omega)))
    rw [hsmall, hsmall]

/-! ### Strings that differ -/

/-- `bytes'` is as long as `bytes`, and at most the bits in `free` differ. -/
structure DiffersIn (free : Nat → Prop) (bytes' bytes : List UInt8) : Prop where
  length_eq : bytes'.length = bytes.length
  bit_eq : ∀ p, ¬ free p → bit bytes' p = bit bytes p

variable {free : Nat → Prop}

theorem DiffersIn.eq (h : DiffersIn free bytes' bytes) (hfree : ∀ p < 8 * bytes.length, ¬ free p) :
    bytes' = bytes :=
  eq_of_bit_eq h.length_eq fun p hp => h.bit_eq p (hfree p hp)

/-- What differs from two parts is two parts that differ from them. -/
theorem DiffersIn.append (h : DiffersIn free bytes' (first ++ second)) :
    ∃ first' second', bytes' = first' ++ second' ∧ DiffersIn free first' first ∧
      DiffersIn (fun p => free (8 * first.length + p)) second' second := by
  have hlen := h.length_eq
  rw [List.length_append] at hlen
  obtain ⟨first', second', rfl, hfirst⟩ : ∃ first' second', bytes' = first' ++ second' ∧
    first'.length = first.length :=
    ⟨_, _, (List.take_append_drop first.length bytes').symm, List.length_take_of_le (by omega)⟩
  rw [List.length_append] at hlen
  refine ⟨first', second', rfl, ⟨hfirst, ?_⟩, ⟨by omega, ?_⟩⟩
  · intro p hp
    by_cases hlt : p < 8 * first.length
    · have hleft : bit (first ++ second) p = bit first p := bit_append_left hlt
      rw [← hleft, ← h.bit_eq p hp, bit_append_left (by rwa [hfirst])]
    · rw [bit_of_le (by omega), bit_of_le (by omega)]
  · intro p hp
    rw [← bit_append_right first second, ← h.bit_eq _ hp, ← hfirst, bit_append_right]

/-- Where only bits of the middle part differ, the other parts are the same. -/
theorem DiffersIn.middle {third : List UInt8}
    (h : DiffersIn free bytes' (first ++ (second ++ third)))
    (hfree : ∀ p, free p → 8 * first.length ≤ p ∧ p < 8 * first.length + 8 * second.length) :
    ∃ second', bytes' = first ++ (second' ++ third) ∧
    DiffersIn (fun p => free (8 * first.length + p)) second' second := by
  obtain ⟨first', rest', rfl, hfirst, hrest⟩ := h.append
  obtain ⟨second', third', rfl, hsecond, hthird⟩ := hrest.append
  obtain rfl := hfirst.eq fun p hp hp' => by
    have := hfree p hp'
    omega
  obtain rfl := hthird.eq fun p _ hp' => by
    have := hfree _ hp'
    omega
  exact ⟨second', rfl, hsecond⟩

/-! ### Words -/

theorem bit_toBytes {k n p : Nat} (h : p < 8 * k) : bit (Numeral.toBytes k n) p = n.testBit p := by
  have hlt : p / 8 < k := by omega
  have hpow : 256 ^ (p / 8) = 2 ^ (8 * (p / 8)) := by rw [Nat.pow_mul]
  have hbyte : (Numeral.toBytes k n).getD (p / 8) 0 = UInt8.ofNat (n / 256 ^ (p / 8) % 256) := by
    rw [List.getD_eq_getElem _ _ (by simpa using hlt)]
    simp only [Numeral.toBytes, List.getElem_map, Numeral.getElem_digits]
  rw [bit, hbyte, UInt8.toNat_ofNat', Nat.mod_mod, hpow, show 256 = 2 ^ 8 from rfl,
    Nat.testBit_mod_two_pow, Nat.testBit_div_two_pow, decide_eq_true (Nat.mod_lt p (by decide)),
    Bool.true_and]
  congr 1
  omega

/-- Words have the bits of the bytes that store them. -/
theorem bit_wordBytes (words : List UInt64) (p : Nat) :
    bit (words.flatMap Source.wordBytes) p = BitSlice.bit ⟨words.toArray⟩ p := by
  induction words generalizing p with
  | nil => simp [bit, BitSlice.bit]
  | cons word words ih =>
    have hlen : (Source.wordBytes word).length = 8 := Numeral.length_toBytes 8 _
    rw [List.flatMap_cons]
    obtain hlt | hle := Nat.lt_or_ge p 64
    · have hdiv : p / 64 = 0 := Nat.div_eq_of_lt hlt
      rw [bit_append_left (by omega), Source.wordBytes, bit_toBytes (by omega)]
      simp [BitSlice.bit, hdiv, Nat.mod_eq_of_lt hlt]
    · obtain ⟨q, rfl⟩ : ∃ q, p = 8 * (Source.wordBytes word).length + q := ⟨p - 64, by omega⟩
      have hdiv : (8 * (Source.wordBytes word).length + q) / 64 = q / 64 + 1 := by omega
      have hmod : (8 * (Source.wordBytes word).length + q) % 64 = q % 64 := by omega
      rw [bit_append_right, ih]
      simp [BitSlice.bit, hdiv, hmod]

theorem exists_words {k : Nat} (h : bytes.length = 8 * k) :
    ∃ words : List UInt64, words.length = k ∧ bytes = words.flatMap Source.wordBytes := by
  induction k generalizing bytes with
  | zero => exact ⟨[], rfl, List.length_eq_zero_iff.1 h⟩
  | succ k ih =>
    have hdrop : (bytes.drop 8).length = 8 * k := by
      rw [List.length_drop]
      omega
    obtain ⟨words, hlen, hwords⟩ := ih hdrop
    have hfirst : (bytes.take 8).length = 8 := List.length_take_of_le (by omega)
    have hlt := Numeral.ofBytes_lt (bytes.take 8)
    have hback := Numeral.toBytes_ofBytes (bytes.take 8)
    rw [hfirst] at hlt hback
    refine ⟨UInt64.ofNat (Numeral.ofBytes (bytes.take 8)) :: words, by rw [List.length_cons,
      hlen], ?_⟩
    rw [List.flatMap_cons, ← hwords, Source.wordBytes, UInt64.toNat_ofNat_of_lt' hlt, hback,
      List.take_append_drop]

end Bytes

end SampledSeq
