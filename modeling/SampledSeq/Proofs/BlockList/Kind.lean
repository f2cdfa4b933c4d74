import SampledSeq.BlockList
import SampledSeq.Proofs.Bits.Edits
import SampledSeq.Proofs.BlockList.EliasFano
import SampledSeq.Proofs.BlockList.Gap

/-!
# Lists inside a stream

What holds of each of the four lists holds of the encoding that a block chooses: written values are
found where they were written (`access_write`), and decoding is accessing everything
(`decode_eq_ok`). A list is found again wherever it stands in a stream and whatever follows it, and
is written in the same way everywhere.
-/

/-! ## The encodings of a block -/

namespace SampledSeq

/-! ### Intervals -/

theorem Interval.length_valuesFrom (i count : Nat) : (valuesFrom i count).length = count := by
  induction count generalizing i with
  | zero => rfl
  | succ count ih => rw [valuesFrom, List.length_cons, ih]

theorem Interval.getElem_valuesFrom (i count k : Nat) (h : k < (valuesFrom i count).length) :
    (valuesFrom i count)[k] = UInt64.ofNat (i + k) := by
  induction count generalizing i k with
  | zero => exact absurd h (Nat.not_lt_zero k)
  | succ count ih =>
    cases k with
    | zero => rfl
    | succ k =>
      have hrest := ih (i + 1) k (Nat.lt_of_succ_lt_succ h)
      rwa [Nat.add_assoc, Nat.add_comm 1] at hrest

theorem Interval.decode_eq_iff {count : Nat} {vs : List UInt64} :
    decode count = vs ↔ vs.length = count ∧ ∀ i (h : i < vs.length), access i = vs[i] := by
  have hvalue : ∀ i (h : i < (decode count).length), (decode count)[i] = access i := by
    intro i h
    have hget := getElem_valuesFrom 0 count i h
    rwa [Nat.zero_add] at hget
  constructor
  · rintro rfl
    exact ⟨length_valuesFrom 0 count, fun i hi => (hvalue i hi).symm⟩
  · rintro ⟨rfl, hall⟩
    exact List.ext_getElem (length_valuesFrom 0 _) fun i hi hi' => (hvalue i hi).trans (hall i hi')

namespace BlockKind

/-! ### Access and decoding -/

variable {s : BitSlice} {bound : Nat} {kind : BlockKind}

/-- A block decodes exactly if all its values are found, and then to those values. -/
theorem decode_eq_ok {start count : Nat} {vs : List UInt64} (h0 : 0 < count) :
    kind.decode s start bound count = .ok vs ↔
      vs.length = count ∧
      ∀ i (h : i < vs.length), kind.access s start count bound i = .ok vs[i] := by
  cases kind with
  | raw => exact GapList.decode_eq_ok h0
  | bitmap => exact Bitmap.decode_eq_ok h0
  | eliasFano => exact EliasFano.decode_eq_ok h0
  | full => simpa only [decode, access, Except.ok.injEq] using Interval.decode_eq_iff

/-! ### Writing -/

variable {w : BitWriter} {values : List UInt64}

/-- What an encoding needs of the values that it is to hold. -/
def Fits (kind : BlockKind) (values : List UInt64) (bound : Nat) : Prop :=
  match kind with
  | raw => True
  | bitmap => (∀ v ∈ values, v.toNat < bound) ∧ values.Pairwise (· < ·)
  | eliasFano => (∀ v ∈ values, v.toNat < bound) ∧ values.Pairwise (· ≤ ·)
  | full => ∀ i (h : i < values.length), Interval.access i = values[i]

/-- As many distinct values below a bound as there are: all of them. -/
theorem values_eq_range (hbound : ∀ v ∈ values, v.toNat < values.length)
    (hlt : values.Pairwise (· < ·)) :
    values.map UInt64.toNat = List.range values.length := by
  have hsorted : (values.map UInt64.toNat).Pairwise (· < ·) :=
    hlt.map _ fun _ _ h => UInt64.lt_iff_toNat_lt.1 h
  have hsub : values.map UInt64.toNat ⊆ List.range values.length := fun n hn => by
    obtain ⟨v, hv, rfl⟩ := List.mem_map.1 hn
    exact List.mem_range.2 (hbound v hv)
  have hperm := (List.subperm_of_subset hsorted.nodup hsub).perm_of_length_le (by simp)
  exact hperm.eq_of_pairwise' hsorted List.pairwise_lt_range

theorem fits_choose {distinct : Bool} (hbound : ∀ v ∈ values, v.toNat < bound)
    (hle : values.Pairwise (· ≤ ·)) (hlt : distinct = true → values.Pairwise (· < ·)) :
    (choose values.length bound distinct).Fits values bound := by
  unfold choose
  split
  · rename_i hfull
    obtain ⟨hdistinct, rfl⟩ : distinct = true ∧ values.length = bound := by simpa using hfull
    intro i hi
    have hrange : values[i].toNat = i := by
      have h := congrArg (·[i]?) (values_eq_range hbound (hlt hdistinct))
      simpa [List.getElem?_eq_getElem hi, List.getElem?_range hi] using h
    exact (congrArg UInt64.ofNat hrange).symm.trans UInt64.ofNat_toNat
  · split
    · rename_i hcheap
      exact ⟨hbound, hlt (Bool.and_eq_true _ _ ▸ hcheap).1⟩
    · exact ⟨hbound, hle⟩

theorem write_spec (hc : w.Clean) (h64 : bound < 2 ^ 64) (hfits : kind.Fits values bound) :
    (kind.write w values bound).Clean ∧ (kind.write w values bound).Extends w := by
  cases kind with
  | raw => exact GapList.write_spec hc values
  | bitmap => exact Bitmap.write_spec hc hfits.1
  | eliasFano => exact EliasFano.write_spec hc h64 hfits.1
  | full => exact ⟨hc, BitWriter.Extends.refl w⟩

theorem access_write (hc : w.Clean) (h64 : bound < 2 ^ 64) (hfits : kind.Fits values bound)
    (hlimit : (kind.write w values bound).len < Position.limit)
    (hs : s.Carries (kind.write w values bound)) (i : Nat) (h : i < values.length) :
    kind.access s w.len values.length bound i = .ok values[i] := by
  cases kind with
  | raw => exact GapList.access_write hc hlimit hs i h
  | bitmap => exact Bitmap.access_write hc hfits.1 hfits.2 hlimit hs i h
  | eliasFano => exact EliasFano.access_write hc h64 hfits.1 hfits.2 hlimit hs i h
  | full => exact congrArg Except.ok (hfits i h)

theorem len_write_le (kind : BlockKind) (w : BitWriter) (values : List UInt64) (bound : Nat) :
    (kind.write w values bound).len ≤ w.len + kind.estimate values.length bound := by
  cases kind with
  | raw =>
    rw [write, GapList.len_write, Nat.add_assoc, estimate]
    exact Nat.add_le_add_left (GapList.bits_le_estimate values) w.len
  | bitmap => exact Nat.le_of_eq (Bitmap.len_write w values bound)
  | eliasFano => exact Nat.le_of_eq (EliasFano.len_write w values bound)
  | full => exact Nat.le_refl _

/-- The encoding that an ascending block chooses takes at most three bits a value above the low
parts that an Elias-Fano list of it has. -/
theorem estimate_choose_le_low {count : Nat} (h0 : 0 < count) (distinct : Bool) :
    (choose count bound distinct).estimate count bound ≤
      count * (EliasFano.lowWidth count bound + 3) := by
  have hef : EliasFano.estimate count bound ≤ count * (EliasFano.lowWidth count bound + 3) :=
    EliasFano.estimate_le h0
  unfold choose
  split
  · exact Nat.zero_le _
  · split
    · rename_i hcheap
      rw [Bool.and_eq_true, decide_eq_true_eq] at hcheap
      exact Nat.le_trans (Nat.le_of_lt hcheap.2) hef
    · exact hef

/-- The encoding that an ascending block chooses takes at most 66 bits a value. -/
theorem estimate_choose_le {count : Nat} (h0 : 0 < count) (h64 : bound < 2 ^ 64) (distinct : Bool) :
    (choose count bound distinct).estimate count bound ≤ count * 66 :=
  calc (choose count bound distinct).estimate count bound ≤
    count * (EliasFano.lowWidth count bound + 3) :=
        estimate_choose_le_low h0 distinct
    _ ≤ count * 66 := Nat.mul_le_mul_left count (Nat.add_le_add_right (EliasFano.lowWidth_le h64) 3)

end BlockKind

end SampledSeq

/-!
## Lists are written the same everywhere

What a list writes follows from its values and its bound, and not from what was written before it.
Two writers that have got equally far write the same bits from there on (`SameFrom`), whichever list
it is (`BlockKind.sameFrom_write`). And anything may have been written before (`exists_clean`).
-/

namespace SampledSeq

namespace BitWriter

variable {n : Nat} {w w' : BitWriter}

/-- Both writers have got equally far, and have the same bits from bit `n` on. -/
structure SameFrom (n : Nat) (w' w : BitWriter) : Prop where
  clean' : w'.Clean
  clean : w.Clean
  len_eq : w'.len = w.len
  bit_eq : ∀ p, n ≤ p → w'.bit p = w.bit p

/-- Writers that have got equally far have nothing behind their ends. -/
theorem sameFrom_len (hc' : w'.Clean) (hc : w.Clean) (hlen : w'.len = w.len) :
    SameFrom w.len w' w where
  clean' := hc'
  clean := hc
  len_eq := hlen
  bit_eq p hp := by rw [hc'.bit_eq_false p (hlen ▸ hp), hc.bit_eq_false p hp]

theorem SameFrom.writeBits (h : SameFrom n w' w) (value : UInt64) {width : Nat} (hw : width ≤ 64) :
    SameFrom n (w'.writeBits value width) (w.writeBits value width) where
  clean' := h.clean'.writeBits value hw
  clean := h.clean.writeBits value hw
  len_eq := by rw [len_writeBits, len_writeBits, h.len_eq]
  bit_eq p hp := by
    rw [bit_writeBits h.clean' value hw, bit_writeBits h.clean value hw, h.len_eq, h.bit_eq p hp]

theorem SameFrom.writeAll {width : Nat} (hw : width ≤ 64) :
    ∀ (values : List UInt64) {w' w : BitWriter}, SameFrom n w' w →
      SameFrom n (w'.writeAll values width) (w.writeAll values width)
  | [], _, _, h => h
  | value :: values, _, _, h => SameFrom.writeAll hw values (h.writeBits value hw)

theorem SameFrom.mark (h : SameFrom n w' w) {count : Nat} {positions : List Nat}
    (hp : ∀ p ∈ positions, w.len ≤ p ∧ p < w.len + count) :
    SameFrom n (w'.mark count positions) (w.mark count positions) := by
  have hp' : ∀ p ∈ positions, w'.len ≤ p ∧ p < w'.len + count := by rwa [h.len_eq]
  refine ⟨(mark_spec h.clean' hp').1, (mark_spec h.clean hp).1, by simp [BitWriter.mark,
    h.len_eq], ?_⟩
  intro p hle
  have hbit' := (setAll_spec positions (h.clean'.writeZeros count) fun p hmem => (hp' p hmem).2).2 p
  have hbit := (setAll_spec positions (h.clean.writeZeros count) fun p hmem => (hp p hmem).2).2 p
  rw [BitWriter.mark, BitWriter.mark, hbit', hbit, bit_writeZeros, bit_writeZeros, h.bit_eq p hle]

theorem exists_clean (bits : Nat → Bool) (n : Nat) :
    ∃ w : BitWriter, w.Clean ∧ w.len = n ∧ ∀ p < n, w.bit p = bits p := by
  induction n with
  | zero => exact ⟨{}, clean_empty, rfl, nofun⟩
  | succ n ih =>
    obtain ⟨w, hc, rfl, hbits⟩ := ih
    have hone : (1 : Nat) ≤ 64 := by decide
    refine ⟨w.writeBits (bits w.len).toUInt64 1, hc.writeBits _ hone, len_writeBits _ _ _, ?_⟩
    intro p hp
    rw [bit_writeBits hc _ hone]
    split
    · rename_i hlt
      exact hbits p hlt
    · obtain rfl : p = w.len := by omega
      rw [decide_eq_true hp, Nat.sub_self]
      cases bits w.len <;> rfl

end BitWriter

open BitWriter

variable {n : Nat} {w w' : BitWriter} {values : List UInt64} {bound : Nat}

theorem GapList.sameFrom_write (h : SameFrom n w' w) (values : List UInt64) :
    SameFrom n (GapList.write w' values) (GapList.write w values) := by
  rw [GapList.write_eq, GapList.write_eq]
  exact (h.writeBits _ (by decide)).writeAll (GapList.codeWidth_le values) _

theorem Bitmap.sameFrom_write (h : SameFrom n w' w) (hbound : ∀ v ∈ values, v.toNat < bound) :
    SameFrom n (Bitmap.write w' values bound) (Bitmap.write w values bound) := by
  rw [Bitmap.write_eq, Bitmap.write_eq, h.len_eq]
  exact h.mark (Bitmap.mark_range w hbound)

theorem EliasFano.sameFrom_write (h : SameFrom n w' w) (h64 : bound < 2 ^ 64)
    (hbound : ∀ v ∈ values, v.toNat < bound) :
    SameFrom n (EliasFano.write w' values bound) (EliasFano.write w values bound) := by
  have hlow : EliasFano.lowWidth values.length bound ≤ 63 := EliasFano.lowWidth_le h64
  rw [EliasFano.write_eq, EliasFano.write_eq, h.len_eq, ← BitWriter.len_writeAll w values]
  exact (h.writeAll (by omega) values).mark (EliasFano.marks_range _ _ hbound)

theorem BlockKind.sameFrom_write {kind : BlockKind} (h : SameFrom n w' w) (h64 : bound < 2 ^ 64)
    (hfits : kind.Fits values bound) :
    SameFrom n (kind.write w' values bound) (kind.write w values bound) := by
  cases kind with
  | raw => exact GapList.sameFrom_write h values
  | bitmap => exact Bitmap.sameFrom_write h hfits.1
  | eliasFano => exact EliasFano.sameFrom_write h h64 hfits.1
  | full => exact h

end SampledSeq

/-!
## What an ascending block costs

The low width of an Elias-Fano list is the one exponent whose power of two, taken once for every
value, reaches up to the bound while the next one exceeds it (`lowWidth_eq_iff`). So the upper parts
stay below twice the count, however far the bound is away, and the whole list has at most three bits
a value above its low parts. The encoding that a block chooses is never more expensive.
-/

namespace SampledSeq

namespace EliasFano

variable {count bound : Nat}

theorem lowWidth_of_le (h : bound ≤ count) : lowWidth count bound = 0 := if_pos (.inr h)

/-- Only one exponent has a power of two between these two. -/
theorem exponent_le {l k : Nat} (h0 : 0 < count) (hl : count * 2 ^ l ≤ bound)
    (hk : bound < count * 2 ^ (k + 1)) :
    l ≤ k := by
  have hpow : 2 ^ l < 2 ^ (k + 1) := (Nat.mul_lt_mul_left h0).1 (Nat.lt_of_le_of_lt hl hk)
  have hlt : l < k + 1 := (Nat.pow_lt_pow_iff_right (by decide)).1 hpow
  omega

theorem lowWidth_eq_iff (h0 : 0 < count) (h : count < bound) {l : Nat} :
    lowWidth count bound = l ↔ count * 2 ^ l ≤ bound ∧ bound < count * 2 ^ (l + 1) := by
  obtain ⟨hupper, hlower⟩ := lowWidth_spec h0
  constructor
  · rintro rfl
    exact ⟨hlower h, hupper⟩
  · rintro ⟨hle, hlt⟩
    exact Nat.le_antisymm (exponent_le h0 (hlower h) hlt) (exponent_le h0 hle hupper)

/-- The size of a list is a word as long as the count leaves some room. -/
theorem estimate_lt (h0 : 0 < count) (hcount : count < 2 ^ 56) (hbound : bound < 2 ^ 64) :
    estimate count bound < 2 ^ 64 :=
  calc estimate count bound ≤ count * (lowWidth count bound + 3) := estimate_le h0
    _ ≤ count * 66 := Nat.mul_le_mul_left count (Nat.add_le_add_right (lowWidth_le hbound) 3)
    _ < 2 ^ 64 := by omega

end EliasFano

namespace BlockKind

open EliasFano

/-- For `count` values below `bound`, the low width is the logarithm of the mean gap; the size of an
Elias-Fano list is made of the low parts and of one bit for each value and each upper part that is
possible. It fits a word and is at most three bits a value above the low parts, and so is the size
of the encoding that an ascending block chooses, and with it the number of bits that writing the
block appends. -/
theorem ascending_blocks_are_bounded {count bound : Nat} (h0 : 1 ≤ count) (hcount : count < 2 ^ 56)
    (hbound : bound < 2 ^ 64) :
    (bound ≤ count → lowWidth count bound = 0) ∧
    (count < bound → ∀ l, lowWidth count bound = l ↔
      count * 2 ^ l ≤ bound ∧ bound < count * 2 ^ (l + 1)) ∧
    EliasFano.estimate count bound =
      count * lowWidth count bound + count + bound / 2 ^ lowWidth count bound + 1 ∧
    EliasFano.estimate count bound < 2 ^ 64 ∧
    EliasFano.estimate count bound ≤ count * (lowWidth count bound + 3) ∧
    ∀ distinct, (choose count bound distinct).estimate count bound ≤
      count * (lowWidth count bound + 3) ∧
      ∀ (w : BitWriter) (values : List UInt64), values.length = count →
        ((choose count bound distinct).write w values bound).len ≤
          w.len + count * (lowWidth count bound + 3) := by
  refine ⟨lowWidth_of_le, fun h l => lowWidth_eq_iff h0 h, ?_, estimate_lt h0 hcount hbound,
    estimate_le h0, ?_⟩
  · rw [EliasFano.estimate, Nat.shiftRight_eq_div_pow]
  · intro distinct
    have hchosen :
        (choose count bound distinct).estimate count bound ≤ count * (lowWidth count bound + 3) :=
      estimate_choose_le_low h0 distinct
    refine ⟨hchosen, ?_⟩
    rintro w values rfl
    exact Nat.le_trans (len_write_le _ w values bound) (Nat.add_le_add_left hchosen w.len)

/-- Three values below the largest word: their mean gap has 63 bits. -/
theorem three_distant_values_are_bounded :
    lowWidth 3 (2 ^ 64 - 1) = 62 ∧
    (choose 3 (2 ^ 64 - 1) true).estimate 3 (2 ^ 64 - 1) ≤ 3 * 65 := by
  obtain ⟨-, hwidth, -, -, -, hchosen⟩ :=
    @ascending_blocks_are_bounded 3 (2 ^ 64 - 1) (by decide) (by decide) (by decide)
  have hlow : lowWidth 3 (2 ^ 64 - 1) = 62 := (hwidth (by decide) 62).2 (by decide)
  have hcost := (hchosen true).1
  rw [hlow] at hcost
  exact ⟨hlow, hcost⟩

end BlockKind

end SampledSeq

/-!
## Lists between other bits

A list stands at any bit of a stream: something was written before it, and something else behind it.
Writing it adds the bits that its values say and touches no others, and from the words in the end
every value is found on its own, and all of them together. The only things to know of the writer are
that it has grown out of the empty one, and that what follows the list did not change it
(`BitWriter.GrowsInto`).

A bitmap says by its bits alone what its values are, so of any words at all it is known what is
decoded from them (`Bitmap.bitmaps_hold_their_ones`).
-/

namespace SampledSeq

variable {w final : BitWriter} {values : List UInt64}

/-! ### Elias-Fano lists -/

namespace EliasFano

/-- Ascending values are found again wherever they were written. The list takes the bits that were
estimated, and all of its ones lie in the row of zeros behind its low parts. -/
theorem ascending_values_come_back {bound : UInt64} (hw : BitWriter.GrowsInto {} w)
    (hne : values ≠ []) (hsorted : values.Pairwise (· ≤ ·))
    (hbound : ∀ value ∈ values, value < bound)
    (hfinal : (write w values bound.toNat).GrowsInto final) (hlimit : final.len < 2 ^ 63) :
    (write w values bound.toNat).Extends w ∧
      (write w values bound.toNat).len = w.len + estimate values.length bound.toNat ∧
      (let low := lowWidth values.length bound.toNat
       let upper := w.writeAll values low
       let ones := values.mapIdx fun i value => upper.len + value.toNat >>> low + i
       write w values bound.toNat =
         (upper.writeZeros (bound.toNat >>> low + values.length + 1)).setAll ones ∧
        ∀ p ∈ ones, upper.len ≤ p ∧ p < (write w values bound.toNat).len) ∧
      (∀ i (h : i < values.length), access ⟨final.words⟩ w.len values.length bound.toNat i =
        .ok values[i]) ∧
      decode ⟨final.words⟩ w.len bound.toNat values.length = .ok values := by
  have hc : w.Clean := hw.clean BitWriter.clean_empty
  have h64 : bound.toNat < 2 ^ 64 := bound.toNat_lt
  have hbelow : ∀ value ∈ values, value.toNat < bound.toNat := fun value hvalue =>
    UInt64.lt_iff_toNat_lt.1 (hbound value hvalue)
  obtain ⟨hclean, hext⟩ := write_spec hc h64 hbelow
  have haccess :=
    access_write hc h64 hbelow hsorted (hfinal.len_lt_limit hclean hlimit) (hfinal.carries hclean)
  refine ⟨hext, len_write w values bound.toNat, ⟨rfl, fun p hp => ?_⟩, haccess, ?_⟩
  · have hrange := marks_range (w.writeAll values (lowWidth values.length bound.toNat)).len
      (lowWidth values.length bound.toNat) hbelow p hp
    rw [write, BitWriter.len_setAll, BitWriter.len_writeZeros]
    exact hrange
  · exact (decode_eq_ok (List.length_pos_iff.2 hne)).2 ⟨rfl, haccess⟩

/-- A stream of two ones, a list with two equal values and one just below the largest bound, and a
field of three bits. -/
def amongOthers : BitWriter :=
  (write (({} : BitWriter).writeBits 3 2) [7, 7, 18446744073709551614]
    18446744073709551615).writeBits 5 3

theorem three_ascending_come_back :
    access ⟨amongOthers.words⟩ 2 3 18446744073709551615 2 = .ok 18446744073709551614 ∧
      decode ⟨amongOthers.words⟩ 2 18446744073709551615 3 = .ok [7, 7, 18446744073709551614] := by
  have hlimit : amongOthers.len < 2 ^ 63 := by
    rw [amongOthers, BitWriter.len_writeBits, len_write]
    decide
  have hbelow :
      ∀ value ∈ [7, 7, 18446744073709551614], value < (18446744073709551615 : UInt64) := by
    simp
  obtain ⟨-, -, -, haccess, hdecode⟩ :=
    ascending_values_come_back (.writeBits .refl 3 (by decide)) (by decide)
      (by decide) hbelow (.writeBits .refl 5 (by decide)) hlimit
  exact ⟨haccess 2 (by decide), hdecode⟩

end EliasFano

/-! ### Gap lists -/

namespace GapList

/-- Any values are found again wherever they were written, also if there are none. The list takes
its header and one field a value, of the least width that has room for all steps. -/
theorem any_steps_come_back (hw : BitWriter.GrowsInto {} w)
    (hfinal : (write w values).GrowsInto final) (hlimit : final.len < 2 ^ 63) :
    ∃ width, LeastWidth values width ∧ (write w values).Extends w ∧
      (write w values).len = w.len + (7 + values.length * width) ∧
      7 + values.length * width ≤ estimate values.length ∧
      (∀ i (h : i < values.length), access ⟨final.words⟩ w.len i = .ok values[i]) ∧
      decode ⟨final.words⟩ w.len values.length = .ok values := by
  have hc : w.Clean := hw.clean BitWriter.clean_empty
  obtain ⟨hclean, hext⟩ := write_spec hc values
  have hcarries := hfinal.carries hclean
  have haddress := hfinal.len_lt_limit hclean hlimit
  refine ⟨codeWidth values, leastWidth_codeWidth values, hext, ?_, bits_le_estimate values,
    access_write hc haddress hcarries, decode_write hc haddress hcarries⟩
  rw [len_write, headerBits, Nat.add_assoc]

/-- A stream of two ones, a list with a step up and two steps down, the second of them below 0, and
three zeros. -/
def amongOthers : BitWriter :=
  (write (({} : BitWriter).writeBits 3 2) [5, 3, 18446744073709551615]).writeZeros 3

theorem three_steps_come_back : LeastWidth [5, 3, 18446744073709551615] 4 ∧
    access ⟨amongOthers.words⟩ 2 2 = .ok 18446744073709551615 ∧
      decode ⟨amongOthers.words⟩ 2 3 = .ok [5, 3, 18446744073709551615] := by
  have hlimit : amongOthers.len < 2 ^ 63 := by decide
  obtain ⟨width, hwidth, -, hlen, -, haccess, hdecode⟩ :=
    any_steps_come_back (.writeBits .refl 3 (by decide)) (.writeZeros .refl 3) hlimit
  have hbits : (write (({} : BitWriter).writeBits 3 2) [5, 3, 18446744073709551615]).len =
      2 + (7 + 3 * 4) := by
    decide
  obtain rfl : width = 4 := by
    rw [hbits] at hlen
    change 2 + (7 + 3 * 4) = 2 + (7 + 3 * width) at hlen
    omega
  exact ⟨hwidth, haccess 2 (by decide), hdecode⟩

end GapList

/-! ### Bitmaps -/

namespace Bitmap

/-- Distinct ascending values are found again wherever they were written, and the bitmap takes one
bit for each number below the bound. Whatever the words are, a bitmap inside them is decoded exactly
if it has enough ones, and then to the offsets of the first ones, which ascend and lie below the
bound. -/
theorem bitmaps_hold_their_ones :
    (∀ {w final : BitWriter} {values : List UInt64} {bound : UInt64}, BitWriter.GrowsInto {} w →
      values.Pairwise (· < ·) → (∀ value ∈ values, value < bound) →
      (write w values bound.toNat).GrowsInto final → final.len < 2 ^ 63 →
      (write w values bound.toNat).Extends w ∧
        (write w values bound.toNat).len = w.len + bound.toNat ∧
        (∀ i (h : i < values.length), access ⟨final.words⟩ w.len bound.toNat i = .ok values[i]) ∧
        decode ⟨final.words⟩ w.len bound.toNat values.length = .ok values) ∧
    (∀ {s : BitSlice} {start count : Nat} {bound : UInt64}, s.words.size < 2 ^ 57 →
      start + bound.toNat ≤ s.len →
      let ones := s.onesIn start (start + bound.toNat)
      (count ≤ ones.length → ∃ values, decode s start bound.toNat count = .ok values ∧
        values.map UInt64.toNat = (ones.take count).map (· - start) ∧
        values.Pairwise (· < ·) ∧ ∀ value ∈ values, value < bound) ∧
      (ones.length < count →
        decode s start bound.toNat count = corrupt (.bitmapShort ones.length count))) := by
  constructor
  · intro w final values bound hw hsorted hbound hfinal hlimit
    have hc : w.Clean := hw.clean BitWriter.clean_empty
    have hbelow : ∀ value ∈ values, value.toNat < bound.toNat := fun value hvalue =>
      UInt64.lt_iff_toNat_lt.1 (hbound value hvalue)
    obtain ⟨hclean, hext⟩ := write_spec hc hbelow
    have haddress := hfinal.len_lt_limit hclean hlimit
    have hcarries := hfinal.carries hclean
    exact ⟨hext, len_write w values bound.toNat, access_write hc hbelow hsorted haddress hcarries,
      decode_write hc hbelow hsorted haddress hcarries⟩
  · intro s start count bound hwords hs ones
    have hlimit : start + bound.toNat < Position.limit := by
      simp only [BitSlice.len] at hs
      simp only [Position.limit, UInt64.size]
      omega
    have hdecode := decode_eq hlimit hs count
    constructor
    · intro hcount
      rw [if_pos hcount] at hdecode
      have hrange : ∀ p ∈ ones.take count, start ≤ p ∧ p < start + bound.toNat := fun p hp =>
        (BitSlice.mem_onesIn.1 (List.mem_of_mem_take hp)).1
      obtain ⟨hoffsets, hsorted, hbelow⟩ :=
        offsets_spec bound.toNat_lt (s.pairwise_onesIn _ _).take hrange
      exact ⟨_, hdecode, hoffsets, hsorted, fun value hvalue =>
        UInt64.lt_iff_toNat_lt.2 (hbelow value hvalue)⟩
    · intro hcount
      rw [hdecode, if_neg (Nat.not_le_of_lt hcount)]

/-- A stream of two ones, a bitmap of three values the last of which is in the second word, and a
field of three bits. -/
def amongOthers : BitWriter := (write (({} : BitWriter).writeBits 3 2) [0, 3, 69] 70).writeBits 5 3

/-- The other words have ones at 0, 3, 64 and 66, two of which are in the bitmap. -/
theorem three_distinct_come_back :
    access ⟨amongOthers.words⟩ 2 70 2 = .ok 69 ∧
      decode ⟨amongOthers.words⟩ 2 70 3 = .ok [0, 3, 69] ∧
      (∃ values, decode ⟨#[9, 5]⟩ 1 65 2 = .ok values ∧ values.map UInt64.toNat = [2, 63]) ∧
      decode ⟨#[9, 5]⟩ 1 65 3 = corrupt (.bitmapShort 2 3) := by
  have hfinal : (write (({} : BitWriter).writeBits 3 2) [0, 3, 69] 70).GrowsInto amongOthers :=
    .writeBits .refl 5 (by decide)
  have hbelow : ∀ value ∈ [0, 3, 69], value < (70 : UInt64) := by simp
  obtain ⟨hstream, hwords⟩ := bitmaps_hold_their_ones
  obtain ⟨-, -, haccess, hdecode⟩ :=
    hstream (.writeBits .refl 3 (by decide)) (by decide) hbelow hfinal (by decide)
  obtain ⟨-, hshort⟩ := @hwords ⟨#[9, 5]⟩ 1 3 65 (by decide) (by decide)
  obtain ⟨values, hvalues, hoffsets, -⟩ :=
    (@hwords ⟨#[9, 5]⟩ 1 2 65 (by decide) (by decide)).1 (by decide)
  exact ⟨haccess 2 (by decide), hdecode, ⟨values, hvalues, hoffsets.trans (by decide)⟩,
    hshort (by decide)⟩

end Bitmap

end SampledSeq
