import Mathlib.Order.Bounds.Defs
import SampledSeq.BlockList
import SampledSeq.Proofs.Bits.Edits
import SampledSeq.Proofs.Bits.View

/-!
# Gap lists come back

A step and its code determine each other (`unfold_fold`), so the values are the running sums of the
steps again: `access_write`. On any stream, decoding a list is accessing all its values:
`decode_eq_ok`. The fields of a list have the least width that has room for its signed steps:
`leastWidth_codeWidth`.
-/

namespace SampledSeq.GapList

/-! ## Steps and codes -/

theorem toNat_double (x : UInt64) : (x <<< 1).toNat = 2 * x.toNat % 2 ^ 64 := by
  rw [UInt64.toNat_shiftLeft, Nat.shiftLeft_eq]
  simp [Nat.mul_comm]

theorem toNat_half (x : UInt64) : (x >>> 1).toNat = x.toNat / 2 := by
  rw [UInt64.toNat_shiftRight, Nat.shiftRight_eq_div_pow]
  simp

theorem toNat_fold (step : UInt64) :
    (fold step).toNat = if step.toNat < 2 ^ 63 then 2 * step.toNat
    else 2 * (2 ^ 64 - step.toNat) - 1 := by
  have hlt := step.toNat_lt
  have hbound : step < 0x8000000000000000 ↔ step.toNat < 2 ^ 63 := UInt64.lt_iff_toNat_lt
  by_cases h : step.toNat < 2 ^ 63
  · rw [fold, if_pos (hbound.2 h), if_pos h, toNat_double]
    omega
  · rw [fold, if_neg (mt hbound.1 h), if_neg h, UInt64.toNat_not, toNat_double, UInt64.size]
    omega

theorem toNat_unfold (code : UInt64) :
    (unfold code).toNat = if code.toNat % 2 = 0 then code.toNat / 2
    else 2 ^ 64 - 1 - code.toNat / 2 := by
  have hparity : code &&& 1 = 0 ↔ code.toNat % 2 = 0 := by
    rw [← UInt64.toNat_inj, UInt64.toNat_and]
    simp [Nat.and_one_is_mod]
  by_cases h : code.toNat % 2 = 0
  · rw [unfold, if_pos (hparity.2 h), if_pos h, toNat_half]
  · rw [unfold, if_neg (mt hparity.1 h), if_neg h, UInt64.toNat_not, toNat_half]
    rfl

/-- No step is lost in its code. -/
theorem unfold_fold (step : UInt64) : unfold (fold step) = step := by
  have hlt := step.toNat_lt
  apply UInt64.toNat_inj.1
  rw [toNat_unfold, toNat_fold]
  split <;> split <;> omega

@[simp] theorem length_codesFrom (previous : UInt64) (values : List UInt64) :
    (codesFrom previous values).length = values.length := by
  induction values generalizing previous with
  | nil => rfl
  | cons v vs ih => simp [codesFrom, ih]

@[simp] theorem length_codes (values : List UInt64) : (codes values).length = values.length :=
  length_codesFrom 0 values

def codeWidth (values : List UInt64) : Nat := Word.commonWidth ((codes values).map UInt64.toNat)

theorem codeWidth_le (values : List UInt64) : codeWidth values ≤ 64 := by
  apply Word.commonWidth_le_iff.2
  intro n hn
  obtain ⟨code, -, rfl⟩ := List.mem_map.1 hn
  exact code.toNat_lt

theorem code_lt {values : List UInt64} {code : UInt64} (h : code ∈ codes values) :
    code.toNat < 2 ^ codeWidth values :=
  Word.commonWidth_le_iff.1 (Nat.le_refl _) _ (List.mem_map_of_mem h)

/-! ## Access and decoding -/

variable {s : BitSlice}

/-- The values of a list are the values after each number of steps. -/
theorem valuesFrom_eq_ok {width count pos : Nat} {previous : UInt64} {vs : List UInt64} :
    valuesFrom s width count pos previous = .ok vs ↔
      vs.length = count ∧
      ∀ i (h : i < vs.length), valueAfter s width (i + 1) pos previous = .ok vs[i] := by
  induction count generalizing pos previous vs with
  | zero => cases vs <;> simp [valuesFrom]
  | succ count ih =>
    simp only [valuesFrom, valueAfter, bind_eq_ok]
    constructor
    · rintro ⟨code, hcode, next, hnext, values, hvalues, h⟩
      obtain rfl : (previous + unfold code) :: values = vs := Except.ok.inj h
      obtain ⟨hlen, hall⟩ := ih.1 hvalues
      refine ⟨by simp [hlen], fun i hi => ⟨code, hcode, next, hnext, ?_⟩⟩
      cases i with
      | zero => rfl
      | succ i => exact hall i (by simpa using hi)
    · rintro ⟨hlen, hall⟩
      cases vs with
      | nil => simp at hlen
      | cons v vs =>
        obtain ⟨code, hcode, next, hnext, hv⟩ := hall 0 (by simp)
        obtain rfl : previous + unfold code = v := Except.ok.inj hv
        refine ⟨code, hcode, next, hnext, vs, ih.2 ⟨by simpa using hlen, ?_⟩, rfl⟩
        intro i hi
        -- every later value is reached over the same first step
        obtain ⟨code', hcode', next', hnext', hv'⟩ := hall (i + 1) (by simpa using hi)
        obtain rfl : code = code' := Except.ok.inj (hcode.symm.trans hcode')
        obtain rfl : next = next' := Except.ok.inj (hnext.symm.trans hnext')
        exact hv'

/-- A list decodes exactly if all its values are found, and then to those values. -/
theorem decode_eq_ok {start count : Nat} {vs : List UInt64} (h0 : 0 < count) :
    decode s start count = .ok vs ↔
    vs.length = count ∧ ∀ i (h : i < vs.length), access s start i = .ok vs[i] := by
  simp only [decode, access, bind_eq_ok, valuesFrom_eq_ok]
  constructor
  · rintro ⟨width, hwidth, pos, hpos, hlen, hall⟩
    exact ⟨hlen, fun i hi => ⟨width, hwidth, pos, hpos, hall i hi⟩⟩
  · rintro ⟨hlen, hall⟩
    obtain ⟨width, hwidth, pos, hpos, -⟩ := hall 0 (by omega)
    refine ⟨width, hwidth, pos, hpos, hlen, ?_⟩
    intro i hi
    obtain ⟨width', hwidth', pos', hpos', hv⟩ := hall i hi
    obtain rfl : width = width' := Except.ok.inj (hwidth.symm.trans hwidth')
    obtain rfl : pos = pos' := Except.ok.inj (hpos.symm.trans hpos')
    exact hv

/-! ## Writing -/

variable {w : BitWriter} {values : List UInt64}

theorem write_eq (w : BitWriter) (values : List UInt64) :
    write w values =
      (w.writeBits (UInt64.ofNat (codeWidth values)) headerBits).writeAll (codes values)
      (codeWidth values) := rfl

theorem len_write (w : BitWriter) (values : List UInt64) :
    (write w values).len = w.len + headerBits + values.length * codeWidth values := by
  simp [write_eq]

theorem bits_le_estimate (values : List UInt64) :
    headerBits + values.length * codeWidth values ≤ estimate values.length :=
  Nat.add_le_add_left (Nat.mul_le_mul_left values.length (codeWidth_le values)) headerBits

theorem write_spec (hc : w.Clean) (values : List UInt64) :
    (write w values).Clean ∧ (write w values).Extends w := by
  have hheader : headerBits ≤ 64 := by decide
  obtain ⟨hclean, hext⟩ :=
    BitWriter.writeAll_spec (codeWidth_le values) (codes values)
      (hc.writeBits (UInt64.ofNat (codeWidth values)) hheader)
  exact ⟨hclean, hext.trans (BitWriter.extends_writeBits hc _ hheader)⟩

/-- Where the codes of a list are read, its values come back. -/
theorem valueAfter_codesFrom {width : Nat} (values : List UInt64) (previous : UInt64) (pos : Nat)
    (hlimit : pos + values.length * width < Position.limit)
    (hread : ∀ i (h : i < (codesFrom previous values).length),
      s.getBits (pos + i * width) width = .ok (codesFrom previous values)[i])
    (i : Nat) (h : i < values.length) :
    valueAfter s width (i + 1) pos previous = .ok values[i] := by
  induction values generalizing previous pos i with
  | nil => simp at h
  | cons v vs ih =>
    rw [List.length_cons, Nat.succ_mul] at hlimit
    have hfirst := hread 0 (by simp [codesFrom])
    rw [Nat.zero_mul, Nat.add_zero] at hfirst
    have hback : previous + unfold (fold (v - previous)) = v := by
      rw [unfold_fold, UInt64.add_comm, UInt64.sub_add_cancel]
    rw [valueAfter, hfirst, ok_bind]
    simp only [codesFrom, List.getElem_cons_zero, hback]
    rw [Position.checked_eq_ok (by omega), ok_bind]
    cases i with
    | zero => rfl
    | succ i =>
      refine ih v (pos + width) (by omega) ?_ i (by simpa using h)
      intro j hj
      have := hread (j + 1) (by simpa [codesFrom] using hj)
      rwa [Nat.succ_mul, show pos + (j * width + width) = pos + width + j * width by omega] at this

theorem width_write (hc : w.Clean) (hs : s.Carries (write w values)) :
    width s w.len = .ok (codeWidth values) := by
  have hheader : headerBits ≤ 64 := by decide
  have hle := codeWidth_le values
  have hwidth : (UInt64.ofNat (codeWidth values)).toNat = codeWidth values := by
    rw [UInt64.toNat_ofNat', Nat.mod_eq_of_lt (by omega)]
  have hfits : (UInt64.ofNat (codeWidth values)).toNat < 2 ^ headerBits := by
    rw [hwidth]
    exact Nat.lt_of_le_of_lt hle (by decide)
  have hcode := BitWriter.getBits_writeBits hc hheader
    (hs.of_extends
      (BitWriter.writeAll_spec hle (codes values)
        (hc.writeBits (UInt64.ofNat (codeWidth values)) hheader)).2)
  rw [Word.and_lowMask_eq_self hfits] at hcode
  rw [width, hcode, ok_bind, hwidth]
  simp [Nat.not_lt_of_le hle]

theorem getBits_write (hc : w.Clean) (hs : s.Carries (write w values)) (i : Nat)
    (h : i < (codes values).length) :
    s.getBits (w.len + headerBits + i * codeWidth values) (codeWidth values) =
      .ok (codes values)[i] := by
  have hclean := hc.writeBits (UInt64.ofNat (codeWidth values)) (by decide : headerBits ≤ 64)
  have hfield := BitWriter.getBits_writeAll (codeWidth_le values) hclean hs i h
  rw [BitWriter.len_writeBits] at hfield
  exact hfield.trans (congrArg _ (Word.and_lowMask_eq_self (code_lt (List.getElem_mem h))))

theorem access_write (hc : w.Clean) (hlimit : (write w values).len < Position.limit)
    (hs : s.Carries (write w values)) (i : Nat) (h : i < values.length) :
    access s w.len i = .ok values[i] := by
  rw [len_write] at hlimit
  rw [access, width_write hc hs, ok_bind, Position.checked_eq_ok (by omega), ok_bind]
  exact valueAfter_codesFrom values 0 _ hlimit (getBits_write hc hs) i h

/-- A list is decoded where it was written, also one without values. -/
theorem decode_write (hc : w.Clean) (hlimit : (write w values).len < Position.limit)
    (hs : s.Carries (write w values)) : decode s w.len values.length = .ok values := by
  rw [len_write] at hlimit
  rw [decode, width_write hc hs, ok_bind, Position.checked_eq_ok (by omega), ok_bind,
    valuesFrom_eq_ok]
  exact ⟨rfl, valueAfter_codesFrom values 0 _ hlimit (getBits_write hc hs)⟩

end SampledSeq.GapList

/-!
## How wide the fields of a gap list are

All codes of a list have the width of the longest one (`codeWidth_eq_stepWidth`). Steps up have the
even codes and steps down the odd ones, so a width of at least one bit has room for a code exactly
if it has room for the step itself, as a signed number (`stepCode_lt_iff`). The width of a list can
thus be said without its codes: it is the least one for its signed steps (`leastWidth_codeWidth`).
-/

namespace SampledSeq.GapList

/-! ### Codes of steps -/

/-- The code of the step from one value to the next, modulo `2 ^ 64`: twice the size of a step up,
and one less than that for a step down. -/
def stepCode (previous value : UInt64) : Nat :=
  let step := (value - previous).toNat
  if step < 2 ^ 63 then 2 * step else 2 * (2 ^ 64 - step) - 1

/-- The largest bit length of the codes of the steps, the first of which starts from 0. -/
def stepWidth (values : List UInt64) : Nat :=
  ((List.zipWith stepCode (0 :: values) values).map Word.bitLength).foldr max 0

theorem map_codesFrom (previous : UInt64) (values : List UInt64) :
    (codesFrom previous values).map UInt64.toNat =
      List.zipWith stepCode (previous :: values) values := by
  induction values generalizing previous with
  | nil => rfl
  | cons value values ih =>
    rw [codesFrom, List.map_cons, List.zipWith_cons_cons, ih, toNat_fold]
    rfl

theorem codeWidth_eq_stepWidth (values : List UInt64) : codeWidth values = stepWidth values := by
  rw [codeWidth, codes, map_codesFrom, Word.commonWidth_eq_foldr, stepWidth]

/-! ### Signed steps -/

/-- The step from one value to the next, modulo `2 ^ 64`, as a signed number. -/
def signedStep (previous value : UInt64) : Int := (value - previous).toInt64.toInt

/-- The signed steps of a list, the first of which starts from 0. -/
def signedSteps (values : List UInt64) : List Int := List.zipWith signedStep (0 :: values) values

/-- A width has room for a code exactly if it has room for the signed step. -/
theorem stepCode_lt_iff {previous value : UInt64} {width : Nat} (h : 1 ≤ width) :
    stepCode previous value < 2 ^ width ↔
      -2 ^ (width - 1) ≤ signedStep previous value ∧
      signedStep previous value < 2 ^ (width - 1) := by
  obtain ⟨half, rfl⟩ := Nat.exists_eq_add_of_le' h
  have hlt := (value - previous).toNat_lt
  have hstep : signedStep previous value =
      if 2 * (value - previous).toNat < 2 ^ 64 then ((value - previous).toNat : Int)
      else (value - previous).toNat - (2 ^ 64 : Nat) := BitVec.toInt_eq_toNat_cond _
  have hpow : ((2 ^ half : Nat) : Int) = 2 ^ half := by norm_cast
  -- the code asks for the sign as the signed number does, so two of the four cases are the same
  -- question twice
  rw [Nat.add_sub_cancel, Nat.pow_succ, hstep, stepCode, ← hpow]
  split <;> split <;> omega

theorem stepCode_eq_zero_iff {previous value : UInt64} :
    stepCode previous value = 0 ↔ value = previous := by
  have hlt := (value - previous).toNat_lt
  have hzero : (value - previous).toNat = 0 ↔ value = previous := by
    rw [← UInt64.toNat_zero, UInt64.toNat_inj, UInt64.sub_eq_iff_eq_add, UInt64.zero_add]
  rw [← hzero, stepCode]
  split <;> omega

/-- Only a list that repeats the value before it has no step. -/
theorem forall_stepCode_eq_zero {previous : UInt64} {values : List UInt64} :
    (∀ code ∈ List.zipWith stepCode (previous :: values) values, code = 0) ↔
    ∀ value ∈ values, value = previous := by
  induction values generalizing previous with
  | nil => simp
  | cons value values ih =>
    -- behind a first value without a step, the rest is compared with that value, which is the
    -- previous one
    rw [List.zipWith_cons_cons, List.forall_mem_cons, List.forall_mem_cons, ih,
      stepCode_eq_zero_iff]
    exact and_congr_right fun h => by rw [h]

theorem codeWidth_le_iff {values : List UInt64} {width : Nat} :
    codeWidth values ≤ width ↔
    ∀ code ∈ List.zipWith stepCode (0 :: values) values, code < 2 ^ width := by
  rw [codeWidth, codes, Word.commonWidth_le_iff, map_codesFrom]

theorem codeWidth_le_iff_signed {values : List UInt64} {width : Nat} (h : 1 ≤ width) :
    codeWidth values ≤ width ↔
    ∀ step ∈ signedSteps values, -2 ^ (width - 1) ≤ step ∧ step < 2 ^ (width - 1) := by
  rw [codeWidth_le_iff, signedSteps, ← List.map_uncurry_zip_eq_zipWith,
    ← List.map_uncurry_zip_eq_zipWith, List.forall_mem_map, List.forall_mem_map]
  exact forall₂_congr fun _ _ => stepCode_lt_iff h

/-- The width for a list, said of its values: none for zeros alone, and otherwise the least one, of
at least one bit, that has room for all signed steps. -/
def LeastWidth (values : List UInt64) (width : Nat) : Prop :=
  ((∀ value ∈ values, value = 0) → width = 0) ∧ ((∃ value ∈ values, value ≠ 0) →
    IsLeast {width | 1 ≤ width ∧
      ∀ step ∈ signedSteps values, -2 ^ (width - 1) ≤ step ∧ step < 2 ^ (width - 1)} width)

/-- The width of the fields is the one that the values say. -/
theorem leastWidth_codeWidth (values : List UInt64) : LeastWidth values (codeWidth values) := by
  have hzero : codeWidth values = 0 ↔ ∀ value ∈ values, value = 0 := by
    rw [← Nat.le_zero, codeWidth_le_iff, ← forall_stepCode_eq_zero]
    simp
  refine ⟨hzero.2, fun ⟨value, hvalue, hne⟩ => ?_⟩
  have hpos : 1 ≤ codeWidth values := Nat.pos_of_ne_zero fun h => hne (hzero.1 h value hvalue)
  exact ⟨⟨hpos, (codeWidth_le_iff_signed hpos).1 (Nat.le_refl _)⟩, fun width hwidth =>
    (codeWidth_le_iff_signed hwidth.1).2 hwidth.2⟩

end SampledSeq.GapList
