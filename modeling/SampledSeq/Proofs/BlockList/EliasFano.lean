import Mathlib.Data.List.OfFn
import SampledSeq.BlockList
import SampledSeq.Proofs.Bits.Edits

/-!
# Bitmaps and Elias-Fano lists come back

Both lists are searched and scanned for ones. Written lists hold the ones they should, so every
value is found again, and on any stream decoding a list is accessing all its values.
-/

/-!
## Bitmaps come back

The ones of a bitmap are its values, in their order (`onesIn_write`), and so they are found again:
`access_write`, `decode_write`. On any stream, decoding a bitmap is accessing all its values:
`decode_eq_ok`. Of a bitmap that the buffer holds, whatever its bits are, the first ones are
decoded, if there are enough: `decode_eq`.
-/

namespace SampledSeq.Bitmap

variable {s : BitSlice}

/-- A bitmap decodes exactly if all its values are found, and then to those values. -/
theorem decode_eq_ok {start bound count : Nat} {vs : List UInt64} (h0 : 0 < count) :
    decode s start bound count = .ok vs ↔
      vs.length = count ∧ ∀ i (h : i < vs.length), access s start bound i = .ok vs[i] := by
  simp only [decode, access, bind_eq_ok, check_eq_ok, mapM_eq_ok, pure_eq_ok, Except.ok.injEq]
  constructor
  · rintro ⟨stop, hstop, found, hfound, hcount, hlen, hall⟩
    have hle := BitSlice.length_firstOnes_le hfound
    have hfull : found.length = count := by omega
    refine ⟨by omega, fun i hi => ⟨stop, hstop, found[i], ?_, hall i (by omega) hi⟩⟩
    exact (BitSlice.firstOnes_eq_ok_iff hfull).1 hfound i (by omega)
  · rintro ⟨rfl, hall⟩
    obtain ⟨stop, hstop, -⟩ := hall 0 h0
    have hfind : ∀ i : Fin vs.length, ∃ pos, s.select1 start stop i = .ok pos ∧
        ∃ offset, Position.sub pos start = .ok offset ∧ UInt64.ofNat offset = vs[i] := by
      intro i
      obtain ⟨stop', hstop', hrest⟩ := hall i i.isLt
      obtain rfl : stop = stop' := Except.ok.inj (hstop.symm.trans hstop')
      exact hrest
    choose pos hpos hoffset using hfind
    have hlen : (List.ofFn pos).length = vs.length := List.length_ofFn
    refine ⟨stop, hstop, List.ofFn pos, ?_, by omega, hlen.symm, ?_⟩
    · exact (BitSlice.firstOnes_eq_ok_iff hlen).2 fun k hk => by simpa using hpos ⟨k, by omega⟩
    · intro i hi hi'
      simpa using hoffset ⟨i, hi'⟩

/-- The values that the given ones of a bitmap at bit `start` stand for. -/
theorem mapM_sub {start : Nat} {found : List Nat} (hle : ∀ p ∈ found, start ≤ p) :
    (found.mapM fun pos => return UInt64.ofNat (← Position.sub pos start) :
      Except Error (List UInt64)) =
      .ok (found.map fun p => UInt64.ofNat (p - start)) := by
  refine mapM_eq_ok.2 ⟨List.length_map _, fun i hi hi' => ?_⟩
  rw [Position.sub_eq_ok (hle _ (List.getElem_mem hi)), ok_bind, List.getElem_map, pure_eq_ok]

/-- No offset of a one is lost in a word, so the offsets ascend as the ones do, and lie below the
bound. -/
theorem offsets_spec {start bound : Nat} (h64 : bound < 2 ^ 64) {found : List Nat}
    (hsorted : found.Pairwise (· < ·)) (hrange : ∀ p ∈ found, start ≤ p ∧ p < start + bound) :
    let values := found.map fun p => UInt64.ofNat (p - start)
    values.map UInt64.toNat = found.map (· - start) ∧ values.Pairwise (· < ·) ∧
    ∀ value ∈ values, value.toNat < bound := by
  have hoffset : ∀ p ∈ found, (UInt64.ofNat (p - start)).toNat = p - start := fun p hp => by
    have hlt := (hrange p hp).2
    exact Nat.mod_eq_of_lt (show p - start < 2 ^ 64 by omega)
  refine ⟨?_, List.pairwise_map.2 (hsorted.imp_of_mem fun {p q} hp hq hlt => ?_),
    List.forall_mem_map.2 fun p hp => ?_⟩
  · rw [List.map_map]
    exact List.map_congr_left hoffset
  · have hle := (hrange p hp).1
    rw [UInt64.lt_iff_toNat_lt, hoffset p hp, hoffset q hq]
    omega
  · have hrange := hrange p hp
    rw [hoffset p hp]
    omega

/-- Inside the buffer, the values are the offsets of the first ones. -/
theorem decode_eq {start bound : Nat} (hlimit : start + bound < Position.limit)
    (hs : start + bound ≤ s.len) (count : Nat) :
    decode s start bound count =
      if count ≤ (s.onesIn start (start + bound)).length then
        .ok (((s.onesIn start (start + bound)).take count).map fun p => UInt64.ofNat (p - start))
      else corrupt (.bitmapShort (s.onesIn start (start + bound)).length count) := by
  have hle : ∀ p ∈ (s.onesIn start (start + bound)).take count, start ≤ p := fun p hp =>
    (BitSlice.mem_onesIn.1 (List.mem_of_mem_take hp)).1.1
  rw [decode, stop, Position.addOr_eq_ok hlimit, ok_bind, BitSlice.firstOnes_eq hs, ok_bind,
    mapM_sub hle, List.length_take]
  by_cases hcount : count ≤ (s.onesIn start (start + bound)).length
  · rw [if_pos hcount, if_neg (by omega)]
  · rw [if_neg hcount, if_pos (by omega), Nat.min_eq_right (by omega)]
    rfl

/-! ### Writing -/

variable {w : BitWriter} {values : List UInt64} {bound : Nat}

theorem write_eq (w : BitWriter) (values : List UInt64) (bound : Nat) :
    write w values bound = w.mark bound (values.map fun value => w.len + value.toNat) := rfl

theorem len_write (w : BitWriter) (values : List UInt64) (bound : Nat) :
    (write w values bound).len = w.len + bound := by
  simp [write]

theorem mark_range (w : BitWriter) (hbound : ∀ v ∈ values, v.toNat < bound) :
    ∀ p ∈ values.map fun value => w.len + value.toNat, w.len ≤ p ∧ p < w.len + bound := by
  intro p hp
  obtain ⟨v, hv, rfl⟩ := List.mem_map.1 hp
  have := hbound v hv
  omega

theorem write_spec (hc : w.Clean) (hbound : ∀ v ∈ values, v.toNat < bound) :
    (write w values bound).Clean ∧ (write w values bound).Extends w :=
  BitWriter.mark_spec hc (mark_range w hbound)

theorem onesIn_write (hc : w.Clean) (hbound : ∀ v ∈ values, v.toNat < bound)
    (hsorted : values.Pairwise (· < ·)) (hs : s.Carries (write w values bound)) :
    s.onesIn w.len (w.len + bound) = values.map fun value => w.len + value.toNat := by
  have hmarks : (values.map fun value => w.len + value.toNat).Pairwise (· < ·) :=
    List.pairwise_map.2 (hsorted.imp fun hlt =>
      Nat.add_lt_add_left (UInt64.lt_iff_toNat_lt.1 hlt) _)
  exact BitWriter.onesIn_mark hc (mark_range w hbound) hmarks hs

theorem access_write (hc : w.Clean) (hbound : ∀ v ∈ values, v.toNat < bound)
    (hsorted : values.Pairwise (· < ·)) (hlimit : (write w values bound).len < Position.limit)
    (hs : s.Carries (write w values bound)) (i : Nat) (h : i < values.length) :
    access s w.len bound i = .ok values[i] := by
  have hfits := hs.len_le
  rw [len_write] at hlimit hfits
  rw [access, stop, Position.addOr_eq_ok hlimit, ok_bind, BitSlice.select1_eq hfits,
    onesIn_write hc hbound hsorted hs]
  simp [h, Position.sub_eq_ok]

/-- A bitmap is decoded where it was written, also one without values. -/
theorem decode_write (hc : w.Clean) (hbound : ∀ v ∈ values, v.toNat < bound)
    (hsorted : values.Pairwise (· < ·)) (hlimit : (write w values bound).len < Position.limit)
    (hs : s.Carries (write w values bound)) :
    decode s w.len bound values.length = .ok values := by
  have hfits := hs.len_le
  rw [len_write] at hlimit hfits
  have hones := onesIn_write hc hbound hsorted hs
  have hlen : (s.onesIn w.len (w.len + bound)).length = values.length := by
    rw [hones, List.length_map]
  rw [decode_eq hlimit hfits, if_pos (Nat.le_of_eq hlen.symm),
    List.take_of_length_le (Nat.le_of_eq hlen), hones]
  simp [Function.comp_def]

end SampledSeq.Bitmap

/-!
## Elias-Fano lists come back

The low width is the logarithm of the mean gap (`lowWidth_spec`), so the upper bits cost at most
three bits a value (`estimate_le`). The ones of the upper bits are the upper parts of the values in
their order, each moved up by its index; with the low parts they give the values again:
`access_write`. On any stream, decoding a list is accessing all its values: `decode_eq_ok`.
-/

namespace SampledSeq.EliasFano

variable {count bound : Nat}

/-! ### Sizes -/

/-- The bound lies below twice, and if it exceeds the count not below, the count at the low
width. -/
theorem lowWidth_spec (h0 : 0 < count) :
    bound < count * 2 ^ (lowWidth count bound + 1) ∧
    (count < bound → count * 2 ^ lowWidth count bound ≤ bound) := by
  by_cases h : count = 0 ∨ bound ≤ count
  · rw [lowWidth, if_pos h]
    omega
  · have hpos : bound / count ≠ 0 := by
      have := Nat.div_pos (show count ≤ bound by omega) h0
      omega
    rw [lowWidth, if_neg h]
    constructor
    · have hlt := Nat.lt_log2_self (n := bound / count)
      rw [Nat.div_lt_iff_lt_mul h0, Nat.mul_comm] at hlt
      exact hlt
    · intro _
      have hle := Nat.log2_self_le hpos
      rw [Nat.le_div_iff_mul_le h0, Nat.mul_comm] at hle
      exact hle

theorem lowWidth_le (hbound : bound < 2 ^ 64) : lowWidth count bound ≤ 63 := by
  by_cases h : count = 0 ∨ bound ≤ count
  · simp [lowWidth, h]
  · have hpos : bound / count ≠ 0 := by
      have := Nat.div_pos (show count ≤ bound by omega) (by omega)
      omega
    have hlt : bound / count < 2 ^ 64 := Nat.lt_of_le_of_lt (Nat.div_le_self _ _) hbound
    have := (Nat.log2_lt hpos).2 hlt
    rw [lowWidth, if_neg h]
    omega

/-- The upper parts of the numbers up to the bound are fewer than two a value. -/
theorem upper_lt (h0 : 0 < count) : bound >>> lowWidth count bound < 2 * count := by
  have h : bound < count * 2 ^ (lowWidth count bound + 1) := (lowWidth_spec h0).1
  rw [Nat.shiftRight_eq_div_pow, Nat.div_lt_iff_lt_mul (Nat.two_pow_pos _)]
  rw [Nat.pow_succ] at h
  calc bound < count * (2 ^ lowWidth count bound * 2) := h
    _ = 2 * count * 2 ^ lowWidth count bound := by ac_rfl

/-- A list costs at most three bits a value above its low parts. -/
theorem estimate_le (h0 : 0 < count) :
    estimate count bound ≤ count * (lowWidth count bound + 3) := by
  have h : bound >>> lowWidth count bound < 2 * count := upper_lt h0
  simp only [estimate, Nat.mul_add]
  omega

/-! ### Access and decoding -/

variable {s : BitSlice}

/-- A gap that has to be split is at least 1, so its length has a bit to take off. -/
theorem readWidth_eq (count bound : Nat) : readWidth count bound = .ok (lowWidth count bound) := by
  rw [readWidth, lowWidth]
  split
  · rfl
  · have hpos : bound / count ≠ 0 := (Nat.div_pos (by omega) (by omega)).ne'
    rw [Word.bitLength, if_neg hpos, Position.sub_eq_ok (Nat.le_add_left 1 _), Nat.add_sub_cancel]

/-- The upper bits end at a position: they start below their end, and the shift of the bound leaves
some of a word. -/
theorem upperStop_eq_ok {start low : Nat} (hlow : low < 64)
    (h : start + (bound >>> low + (count + 1)) < Position.limit) :
    upperStop start count bound low = .ok (start + (bound >>> low + (count + 1))) := by
  rw [upperStop, Position.below_eq_ok hlow, ok_bind]
  generalize bound >>> low = upper at h ⊢
  rw [Position.checked_eq_ok (by omega), ok_bind, Position.addOr_eq_ok (by omega), ok_bind,
    Position.addOr_eq_ok h]

theorem lowParts_eq_ok {start low i : Nat} {parts : List UInt64} :
    lowParts s start low count i = .ok parts ↔
      parts.length = count ∧ ∀ k (h : k < parts.length),
        (Position.checked (start + (i + k) * low) >>= fun pos => s.getBits pos low) =
          .ok parts[k] := by
  induction count generalizing i parts with
  | zero => cases parts <;> simp [lowParts]
  | succ count ih =>
    have hshift : ∀ k, i + 1 + k = i + (k + 1) := fun k => by omega
    simp only [lowParts, bind_eq_ok, ih, hshift]
    constructor
    · rintro ⟨pos, hpos, part, hpart, parts', ⟨hlen, hall⟩, h⟩
      obtain rfl : part :: parts' = parts := Except.ok.inj h
      refine ⟨by simp [hlen], ?_⟩
      intro k hk
      cases k with
      | zero => exact ⟨pos, hpos, hpart⟩
      | succ k => exact hall k (by simpa using hk)
    · rintro ⟨hlen, hall⟩
      cases parts with
      | nil => simp at hlen
      | cons part parts =>
        obtain ⟨pos, hpos, hpart⟩ := hall 0 (by simp)
        exact ⟨pos, hpos, part, hpart, parts,
          ⟨by simpa using hlen, fun k hk => hall (k + 1) (by simpa using hk)⟩, rfl⟩

theorem joinAll_eq_ok {low upperStart i : Nat} {parts : List UInt64} {ones : List Nat}
    {vs : List UInt64} (hlen : parts.length = ones.length) :
    joinAll low upperStart i parts ones = .ok vs ↔
      vs.length = ones.length ∧ ∀ k (h : k < vs.length) (h' : k < ones.length),
        (Position.sub ones[k] upperStart >>= fun offset => join low parts[k] offset (i + k)) =
          .ok vs[k] := by
  induction parts generalizing i ones vs with
  | nil =>
    obtain rfl : ones = [] := List.length_eq_zero_iff.1 hlen.symm
    cases vs <;> simp [joinAll]
  | cons part parts ih =>
    cases ones with
    | nil => simp at hlen
    | cons pos ones =>
      have hlen' : parts.length = ones.length := by simpa using hlen
      have hshift : ∀ k, i + 1 + k = i + (k + 1) := fun k => by omega
      simp only [joinAll, bind_eq_ok, ih hlen', hshift]
      constructor
      · rintro ⟨offset, hoffset, value, hvalue, values, ⟨hlenv, hall⟩, h⟩
        obtain rfl : value :: values = vs := Except.ok.inj h
        refine ⟨by simp [hlenv], ?_⟩
        intro k hk hk'
        cases k with
        | zero => exact ⟨offset, hoffset, hvalue⟩
        | succ k => exact hall k (by simpa using hk) (by simpa using hk')
      · rintro ⟨hlenv, hall⟩
        cases vs with
        | nil => simp at hlenv
        | cons value values =>
          obtain ⟨offset, hoffset, hvalue⟩ := hall 0 (by simp) (by simp)
          refine ⟨offset, hoffset, value, hvalue, values, ⟨by simpa using hlenv, ?_⟩, rfl⟩
          intro k hk hk'
          exact hall (k + 1) (by simpa using hk) (by simpa using hk')

/-- A list decodes exactly if all its values are found, and then to those values. -/
theorem decode_eq_ok {start : Nat} {vs : List UInt64} (h0 : 0 < count) :
    decode s start bound count = .ok vs ↔
      vs.length = count ∧ ∀ i (h : i < vs.length), access s start count bound i = .ok vs[i] := by
  simp only [decode, access, readWidth_eq, ok_bind, bind_eq_ok, check_eq_ok]
  constructor
  · rintro ⟨parts, hparts, upperStart, hupper, stop, hstop, found, hfound, hcount, hjoin⟩
    obtain ⟨hlenp, hallp⟩ := lowParts_eq_ok.1 hparts
    have hfull : found.length = count := by
      have := BitSlice.length_firstOnes_le hfound
      omega
    obtain ⟨hlenv, hallv⟩ := (joinAll_eq_ok (by omega)).1 hjoin
    refine ⟨by omega, ?_⟩
    intro i hi
    obtain ⟨pos, hpos, hpart⟩ := bind_eq_ok.1 (hallp i (by omega))
    obtain ⟨offset, hoffset, hvalue⟩ := bind_eq_ok.1 (hallv i hi (by omega))
    rw [Nat.zero_add] at hpos hvalue
    exact ⟨pos, hpos, parts[i], hpart, upperStart, hupper, stop, hstop, found[i],
      (BitSlice.firstOnes_eq_ok_iff hfull).1 hfound i (by omega), offset, hoffset, hvalue⟩
  · rintro ⟨rfl, hall⟩
    obtain ⟨-, -, -, -, upperStart, hupper, stop, hstop, -⟩ := hall 0 h0
    -- the end of the low parts and of the upper bits are the same for every value
    have hfind : ∀ i : Fin vs.length, ∃ part one,
        (∃ pos, Position.checked (start + i * lowWidth vs.length bound) = .ok pos ∧
          s.getBits pos (lowWidth vs.length bound) = .ok part) ∧
        s.select1 upperStart stop i = .ok one ∧
        ∃ offset, Position.sub one upperStart = .ok offset ∧
        join (lowWidth vs.length bound) part offset i = .ok vs[i] := by
      intro i
      obtain ⟨pos, hpos, part, hpart, upperStart', hupper', stop', hstop', one, hone, hrest⟩ :=
        hall i i.isLt
      obtain rfl : upperStart = upperStart' := Except.ok.inj (hupper.symm.trans hupper')
      obtain rfl : stop = stop' := Except.ok.inj (hstop.symm.trans hstop')
      exact ⟨part, one, ⟨pos, hpos, hpart⟩, hone, hrest⟩
    choose part one hpart hone hjoin using hfind
    have hlenp : (List.ofFn part).length = vs.length := List.length_ofFn
    have hleno : (List.ofFn one).length = vs.length := List.length_ofFn
    refine ⟨List.ofFn part, lowParts_eq_ok.2 ⟨hlenp, fun k hk => ?_⟩, upperStart, hupper, stop,
      hstop, List.ofFn one, ?_,
      by omega, (joinAll_eq_ok (by omega)).2 ⟨by omega, fun k hk hk' => ?_⟩⟩
    · rw [Nat.zero_add]
      simpa [bind_eq_ok] using hpart ⟨k, by omega⟩
    · exact (BitSlice.firstOnes_eq_ok_iff hleno).2 fun k hk => by simpa using hone ⟨k, by omega⟩
    · rw [Nat.zero_add]
      simpa [bind_eq_ok] using hjoin ⟨k, hk⟩

/-! ### Writing -/

variable {w : BitWriter} {values : List UInt64}

/-- The places of the ones of the upper bits that start at bit `upperStart`. -/
def marks (upperStart low : Nat) (values : List UInt64) : List Nat :=
  values.mapIdx fun i value => upperStart + value.toNat >>> low + i

theorem write_eq (w : BitWriter) (values : List UInt64) (bound : Nat) :
    write w values bound =
      (w.writeAll values (lowWidth values.length bound)).mark
        (bound >>> lowWidth values.length bound + values.length + 1)
        (marks (w.len + values.length * lowWidth values.length bound) (lowWidth values.length bound)
          values) := by
  simp only [write, BitWriter.mark, marks, BitWriter.len_writeAll]

theorem len_write (w : BitWriter) (values : List UInt64) (bound : Nat) :
    (write w values bound).len = w.len + estimate values.length bound := by
  rw [write_eq, BitWriter.mark, BitWriter.len_setAll, BitWriter.len_writeZeros,
    BitWriter.len_writeAll, estimate]
  omega

theorem marks_range (upperStart low : Nat) (hbound : ∀ v ∈ values, v.toNat < bound) :
    ∀ p ∈ marks upperStart low values,
      upperStart ≤ p ∧ p < upperStart + (bound >>> low + values.length + 1) := by
  intro p hp
  obtain ⟨i, hi, rfl⟩ := List.mem_mapIdx.1 hp
  have hle : values[i].toNat >>> low ≤ bound >>> low := by
    rw [Nat.shiftRight_eq_div_pow, Nat.shiftRight_eq_div_pow]
    exact Nat.div_le_div_right (Nat.le_of_lt (hbound _ (List.getElem_mem hi)))
  exact ⟨Nat.le_trans (Nat.le_add_right _ _) (Nat.le_add_right _ _), by omega⟩

theorem pairwise_marks (upperStart low : Nat) (hsorted : values.Pairwise (· ≤ ·)) :
    (marks upperStart low values).Pairwise (· < ·) := by
  rw [List.pairwise_iff_getElem] at hsorted ⊢
  intro i j hi hj hij
  simp only [marks, List.length_mapIdx] at hi hj
  have hle : values[i].toNat >>> low ≤ values[j].toNat >>> low := by
    rw [Nat.shiftRight_eq_div_pow, Nat.shiftRight_eq_div_pow]
    exact Nat.div_le_div_right (UInt64.le_iff_toNat_le.1 (hsorted i j hi hj hij))
  simp only [marks, List.getElem_mapIdx]
  omega

theorem write_spec (hc : w.Clean) (h64 : bound < 2 ^ 64) (hbound : ∀ v ∈ values, v.toNat < bound) :
    (write w values bound).Clean ∧ (write w values bound).Extends w := by
  have hlow : lowWidth values.length bound ≤ 63 := lowWidth_le h64
  obtain ⟨hclean, hext⟩ :=
    BitWriter.writeAll_spec (show lowWidth values.length bound ≤ 64 by omega) values hc
  have hmarks :=
    marks_range (w.len + values.length * lowWidth values.length bound)
      (lowWidth values.length bound) hbound
  rw [← BitWriter.len_writeAll w values] at hmarks
  obtain ⟨hclean', hext'⟩ := BitWriter.mark_spec hclean hmarks
  rw [write_eq, ← BitWriter.len_writeAll w values]
  exact ⟨hclean', hext'.trans hext⟩

/-- A value is its upper part above its low part. -/
theorem shiftLeft_or_low (value : UInt64) {low : Nat} (h : low < 64) :
    UInt64.ofNat (value.toNat >>> low) <<< UInt64.ofNat low ||| (value &&& Word.lowMask low) =
      value := by
  have hupper : (UInt64.ofNat (value.toNat >>> low)).toNat = value.toNat >>> low := by
    rw [UInt64.toNat_ofNat', Nat.shiftRight_eq_div_pow]
    exact Nat.mod_eq_of_lt (Nat.lt_of_le_of_lt (Nat.div_le_self _ _) value.toNat_lt)
  apply UInt64.toNat_inj.1
  apply Nat.eq_of_testBit_eq
  intro i
  rw [UInt64.toNat_or, Nat.testBit_or, Word.testBit_shiftLeft _ h, Word.testBit_and_lowMask, hupper,
    Nat.testBit_shiftRight]
  by_cases hi : i < low
  · simp [hi, show ¬ low ≤ i by omega]
  · by_cases h64 : i < 64
    · simp [hi, h64, show low ≤ i by omega, show low + (i - low) = i by omega]
    · simp [hi, h64, Word.testBit_eq_false value (show 64 ≤ i by omega)]

theorem access_write (hc : w.Clean) (h64 : bound < 2 ^ 64) (hbound : ∀ v ∈ values, v.toNat < bound)
    (hsorted : values.Pairwise (· ≤ ·)) (hlimit : (write w values bound).len < Position.limit)
    (hs : s.Carries (write w values bound)) (i : Nat) (h : i < values.length) :
    access s w.len values.length bound i = .ok values[i] := by
  have hlow : lowWidth values.length bound ≤ 63 := lowWidth_le h64
  have hfits := hs.len_le
  rw [len_write, estimate] at hlimit hfits
  rw [write_eq] at hs
  rw [access, readWidth_eq, ok_bind]
  generalize lowWidth values.length bound = low at *
  obtain ⟨hclean, -⟩ := BitWriter.writeAll_spec (show low ≤ 64 by omega) values hc
  have hlen := BitWriter.len_writeAll w values low
  have hmarks := marks_range (w.writeAll values low).len low hbound
  rw [← hlen] at hs
  -- the low part
  have hoffset : i * low ≤ values.length * low := Nat.mul_le_mul_right low (Nat.le_of_lt h)
  have hpart := BitWriter.getBits_writeAll (show low ≤ 64 by omega) hc
    (hs.of_extends (BitWriter.mark_spec hclean hmarks).2) i h
  -- the upper part
  have hones := BitWriter.onesIn_mark hclean hmarks (pairwise_marks _ low hsorted) hs
  have hone : (marks (w.writeAll values low).len low values)[i]? =
      some ((w.writeAll values low).len + values[i].toNat >>> low + i) := by
    simp [marks, h]
  have hstop := @upperStop_eq_ok values.length bound (w.writeAll values low).len low (by omega)
  generalize bound >>> low = upper at hlimit hfits hs hmarks hones hstop
  rw [Position.checked_eq_ok (by omega), ok_bind, hpart, ok_bind, Position.checked_eq_ok (by omega),
    ok_bind, ← hlen, hstop (by omega), ok_bind, ← Nat.add_assoc upper,
    BitSlice.select1_eq (by omega), hones, hone]
  simp only [ok_bind]
  rw [Nat.add_assoc, Position.sub_eq_ok (Nat.le_add_right _ _), ok_bind, Nat.add_sub_cancel_left,
    join, Position.sub_eq_ok (Nat.le_add_left _ _), ok_bind, Nat.add_sub_cancel,
    Position.below_eq_ok (by omega), ok_bind, shiftLeft_or_low _ (by omega), pure_eq_ok]

end SampledSeq.EliasFano
