import SampledSeq.Proofs.Bits.View
import SampledSeq.Proofs.Outcome
import SampledSeq.Proofs.Stream

/-!
# The ones of a range of bits

`onesIn` lists the positions of all ones of a range. Both searches read that list: `select1` one
entry of it (`select1_eq`), `firstOnes` its first entries (`firstOnes_eq`). For a range that the
buffer does not hold, the two still agree chunk by chunk (`selectFrom_of_firstOnes_ok`,
`selectFrom_of_firstOnes_error`).
-/

namespace SampledSeq.BitSlice

/-- The positions of the ones from `start` on and below `stop`, ascending. -/
def onesIn (s : BitSlice) (start stop : Nat) : List Nat :=
  (List.range' start (stop - start)).filter s.bit

theorem mem_onesIn {s : BitSlice} {start stop p : Nat} :
    p ∈ s.onesIn start stop ↔ (start ≤ p ∧ p < stop) ∧ s.bit p = true := by
  simp only [onesIn, List.mem_filter, List.mem_range'_1, and_congr_left_iff]
  omega

theorem pairwise_onesIn (s : BitSlice) (start stop : Nat) :
    (s.onesIn start stop).Pairwise (· < ·) :=
  List.Pairwise.filter _ List.pairwise_lt_range'

theorem onesIn_of_le (s : BitSlice) {start stop : Nat} (h : stop ≤ start) :
    s.onesIn start stop = [] := by
  simp [onesIn, Nat.sub_eq_zero_of_le h]

theorem onesIn_append (s : BitSlice) {start middle stop : Nat} (h : start ≤ middle)
    (h' : middle ≤ stop) :
    s.onesIn start middle ++ s.onesIn middle stop = s.onesIn start stop := by
  have hsplit : List.range' start (middle - start) ++ List.range' middle (stop - middle) =
      List.range' start (stop - start) := by
    have := @List.range'_append start (middle - start) (stop - middle) 1
    rwa [Nat.one_mul, Nat.add_sub_cancel' h, show middle - start + (stop - middle) =
      stop - start by omega] at this
  rw [onesIn, onesIn, ← List.filter_append, hsplit, onesIn]

theorem length_onesIn_le (s : BitSlice) (start stop : Nat) :
    (s.onesIn start stop).length ≤ stop - start := by
  simpa [onesIn] using List.length_filter_le s.bit (List.range' start (stop - start))

/-- The index of a one is the number of ones before it. -/
theorem getElem?_onesIn {s : BitSlice} {start stop k p : Nat} :
    (s.onesIn start stop)[k]? = some p ↔
      (start ≤ p ∧ p < stop) ∧ s.bit p = true ∧ (s.onesIn start p).length = k := by
  have hindex : (start ≤ p ∧ p < stop) → s.bit p = true →
      (s.onesIn start stop)[(s.onesIn start p).length]? = some p := by
    rintro ⟨hle, hlt⟩ hone
    have hrest : stop - p = stop - (p + 1) + 1 := by omega
    rw [← onesIn_append s hle (Nat.le_of_lt hlt), List.getElem?_append_right (Nat.le_refl _),
      Nat.sub_self, onesIn, hrest, List.range'_succ, List.filter_cons_of_pos hone,
      List.getElem?_cons_zero]
  constructor
  · intro h
    obtain ⟨hrange, hone⟩ := mem_onesIn.1 (List.mem_of_getElem? h)
    have hnodup : (s.onesIn start stop).Nodup := (s.pairwise_onesIn start stop).imp Nat.ne_of_lt
    have hrank := hindex hrange hone
    exact ⟨hrange, hone, (List.getElem?_inj (List.getElem?_eq_some_iff.1 hrank).1 hnodup).1
      (hrank.trans h.symm)⟩
  · rintro ⟨hrange, hone, rfl⟩
    exact hindex hrange hone

/-! ## One chunk -/

/-- A field that has been read lies inside the buffer, and its bits are those of the buffer. -/
theorem testBit_getBits {s : BitSlice} {pos width : Nat} {word : UInt64} (hw : width ≤ 64)
    (h : s.getBits pos width = .ok word) (i : Nat) :
    word.toNat.testBit i = (decide (i < width) && s.bit (pos + i)) := by
  by_cases h0 : width = 0
  · subst h0
    obtain rfl : 0 = word := by simpa [getBits] using h
    simp
  · by_cases hlen : pos + width ≤ s.len
    · obtain ⟨v, hv, hbits⟩ := s.getBits_ok hw hlen
      obtain rfl : v = word := Except.ok.inj (hv.symm.trans h)
      exact hbits i
    · rw [s.getBits_error h0 (by omega)] at h
      cases h

/-- The ones of a chunk are the ones of the buffer there. -/
theorem map_ones_getBits {s : BitSlice} {pos width : Nat} {word : UInt64} (hw : width ≤ 64)
    (h : s.getBits pos width = .ok word) :
    (Word.ones word).map (pos + ·) = s.onesIn pos (pos + width) := by
  have hbits := testBit_getBits hw h
  have hrange : List.range 64 = List.range width ++ (List.range (64 - width)).map (width + ·) := by
    rw [← List.range_add, Nat.add_sub_cancel' hw]
  have hzero :
      ((List.range (64 - width)).map (width + ·)).filter (fun i => word.toNat.testBit i) = [] := by
    simp [hbits]
  have hlow : (List.range width).filter (fun i => word.toNat.testBit i) =
      (List.range width).filter (fun i => s.bit (pos + i)) :=
    List.filter_congr fun i hi => by rw [hbits, decide_eq_true (List.mem_range.1 hi), Bool.true_and]
  rw [Word.ones, hrange, List.filter_append, hzero, List.append_nil, hlow, onesIn,
    Nat.add_sub_cancel_left, List.range'_eq_map_range, List.filter_map]
  rfl

/-! ## Searches -/

/-- A search for a single one finds it in the list of all ones, unless it comes to bits that the
buffer does not hold. -/
theorem selectFrom_cases (s : BitSlice) (start stop pos k : Nat) :
    (s.selectFrom start stop pos k =
      match (s.onesIn pos stop)[k]? with
      | some p => .ok p
      | none => corrupt (.missingOnes start stop)) ∨
    s.len < stop ∧ ∃ cause, s.selectFrom start stop pos k = corrupt cause := by
  fun_induction selectFrom s start stop pos k with
  | case1 pos k h ih =>
    have hw : min (stop - pos) 64 ≤ 64 := Nat.min_le_right _ _
    by_cases hlen : pos + min (stop - pos) 64 ≤ s.len
    · obtain ⟨word, hword, -⟩ := s.getBits_ok hw hlen
      rw [hword, ok_bind, ← onesIn_append s (Nat.le_add_right pos (min (stop - pos) 64)) (by omega),
        ← map_ones_getBits hw hword]
      by_cases hk : k < (Word.ones word).length
      · rw [if_pos hk, Word.select_eq_ok hk, List.getElem?_append_left (by simpa using hk),
          List.getElem?_map, List.getElem?_eq_getElem hk]
        exact .inl rfl
      · rw [if_neg hk, Position.sub_eq_ok (Nat.le_of_not_lt hk), ok_bind,
          List.getElem?_append_right (by simpa using hk), List.length_map]
        exact ih word _
    · rw [s.getBits_error (by omega) (Nat.lt_of_not_le hlen)]
      exact .inr ⟨by omega, _, rfl⟩
  | case2 pos k h =>
    rw [onesIn_of_le s (Nat.le_of_not_lt h)]
    exact .inl rfl

theorem firstOnes_eq {s : BitSlice} {stop : Nat} (hs : stop ≤ s.len) (pos count : Nat) :
    s.firstOnes stop pos count = .ok ((s.onesIn pos stop).take count) := by
  fun_induction firstOnes s stop pos count with
  | case1 pos count h ih =>
    have hw : min (stop - pos) 64 ≤ 64 := Nat.min_le_right _ _
    obtain ⟨word, hword, -⟩ := s.getBits_ok hw (show pos + min (stop - pos) 64 ≤ s.len by omega)
    simp only [Word.lowestOnes_eq_take] at ih ⊢
    rw [hword, ok_bind, ih word, ok_bind,
      ← onesIn_append s (Nat.le_add_right pos (min (stop - pos) 64)) (by omega),
      ← map_ones_getBits hw hword, List.take_append, ← List.map_take]
    simp only [pure_eq_ok, List.length_map, List.length_take]
    rw [show count - min count (Word.ones word).length = count - (Word.ones word).length by omega]
  | case2 pos count h =>
    by_cases h0 : count = 0
    · simp [h0]
    · simp [onesIn_of_le s (show stop ≤ pos by omega)]

theorem select1_eq {s : BitSlice} {start stop : Nat} (hs : stop ≤ s.len) (k : Nat) :
    s.select1 start stop k =
      match (s.onesIn start stop)[k]? with
      | some p => .ok p
      | none => corrupt (.missingOnes start stop) :=
  (s.selectFrom_cases start stop start k).resolve_right fun h => Nat.not_lt_of_le hs h.1

/-! ## Two searches on any buffer -/

/-- What the first ones are, single searches find. -/
theorem selectFrom_of_firstOnes_ok {s : BitSlice} {stop pos count : Nat} {found : List Nat}
    (h : s.firstOnes stop pos count = .ok found) (start : Nat) {k : Nat} (hk : k < count) :
    s.selectFrom start stop pos k =
      match found[k]? with
      | some p => .ok p
      | none => corrupt (.missingOnes start stop) := by
  fun_induction firstOnes s stop pos count generalizing found k with
  | case1 pos count hc ih =>
    simp only [Word.lowestOnes_eq_take] at h ih
    obtain ⟨word, hword, h⟩ := bind_eq_ok.1 h
    obtain ⟨more, hmore, h⟩ := bind_eq_ok.1 h
    obtain rfl := Except.ok.inj h
    rw [selectFrom, dif_pos hc.2, hword, ok_bind]
    by_cases hone : k < (Word.ones word).length
    · rw [if_pos hone, Word.select_eq_ok hone, List.getElem?_append_left (by simp; omega),
        List.getElem?_map, List.getElem?_take_of_lt hk, List.getElem?_eq_getElem hone]
      rfl
    · have hlen : ((Word.ones word).take count).length = (Word.ones word).length := by
        rw [List.length_take]
        omega
      have hk' :
          k - (Word.ones word).length <
            count - (((Word.ones word).take count).map (pos + ·)).length := by
        rw [List.length_map, hlen]
        omega
      rw [if_neg hone, Position.sub_eq_ok (Nat.le_of_not_lt hone), ok_bind, ih word hmore hk',
        List.getElem?_append_right (by rw [List.length_map, hlen]; exact Nat.le_of_not_lt hone),
          List.length_map, hlen]
  | case2 pos count hc =>
    obtain rfl := Except.ok.inj h
    rw [selectFrom, dif_neg fun hlt => hc ⟨by omega, hlt⟩, List.getElem?_nil]

/-- Where the first ones cannot be read, the last of them cannot be found, for the same reason. -/
theorem selectFrom_of_firstOnes_error {s : BitSlice} {stop pos k : Nat} {e : Error}
    (h : s.firstOnes stop pos (k + 1) = .error e) (start : Nat) :
    s.selectFrom start stop pos k = .error e := by
  fun_induction selectFrom s start stop pos k with
  | case1 pos k hc ih =>
    rw [firstOnes, dif_pos ⟨by omega, hc⟩] at h
    cases hword : s.getBits pos (min (stop - pos) 64) with
    | error e' =>
      rw [hword, error_bind] at h
      cases h
      rfl
    | ok word =>
      rw [hword] at h
      simp only [ok_bind, Word.lowestOnes_eq_take] at h ⊢
      by_cases hone : k < (Word.ones word).length
      · -- the chunk already holds every one that is asked for, so nothing behind it is read
        have hlen : (((Word.ones word).take (k + 1)).map (pos + ·)).length = k + 1 := by simp; omega
        rw [hlen, Nat.sub_self, firstOnes, dif_neg (by omega)] at h
        cases h
      · have hlen : k + 1 - (((Word.ones word).take (k + 1)).map (pos + ·)).length =
            k - (Word.ones word).length + 1 := by simp; omega
        rw [hlen] at h
        rw [if_neg hone, Position.sub_eq_ok (Nat.le_of_not_lt hone), ok_bind]
        apply ih word
        cases hmore :
          s.firstOnes stop (pos + min (stop - pos) 64) (k - (Word.ones word).length + 1) with
        | error e' =>
          rw [hmore] at h
          exact h
        | ok more =>
          rw [hmore] at h
          cases h
  | case2 pos k hc =>
    rw [firstOnes, dif_neg fun hpos => hc hpos.2] at h
    cases h

theorem length_firstOnes_le {s : BitSlice} {stop pos count : Nat} {found : List Nat}
    (h : s.firstOnes stop pos count = .ok found) : found.length ≤ count := by
  fun_induction firstOnes s stop pos count generalizing found with
  | case1 pos count hc ih =>
    simp only [Word.lowestOnes_eq_take] at h ih
    obtain ⟨word, -, h⟩ := bind_eq_ok.1 h
    obtain ⟨more, hmore, h⟩ := bind_eq_ok.1 h
    obtain rfl := Except.ok.inj h
    have hle := ih word hmore
    simp only [List.length_append, List.length_map, List.length_take] at hle ⊢
    omega
  | case2 pos count hc =>
    obtain rfl := Except.ok.inj h
    exact Nat.zero_le _

/-- As many first ones as asked for are read exactly if every one of them is found on its own. -/
theorem firstOnes_eq_ok_iff {s : BitSlice} {start stop count : Nat} {found : List Nat}
    (hcount : found.length = count) :
    s.firstOnes stop start count = .ok found ↔
      ∀ k (h : k < found.length), s.select1 start stop k = .ok found[k] := by
  subst hcount
  constructor
  · intro h k hk
    rw [select1, selectFrom_of_firstOnes_ok h start hk, List.getElem?_eq_getElem hk]
  · intro h
    cases hread : s.firstOnes stop start found.length with
    | error e =>
      cases hlen : found.length with
      | zero =>
        rw [hlen, firstOnes, dif_neg (by omega)] at hread
        cases hread
      | succ k =>
        have hlast := h k (by omega)
        rw [hlen] at hread
        rw [select1, selectFrom_of_firstOnes_error hread start] at hlast
        cases hlast
    | ok found' =>
      have hget : ∀ k (hk : k < found.length), found'[k]? = some found[k] := by
        intro k hk
        have hone := h k hk
        rw [select1, selectFrom_of_firstOnes_ok hread start hk] at hone
        cases hf : found'[k]? with
        | none =>
          rw [hf] at hone
          cases hone
        | some p =>
          rw [hf] at hone
          exact congrArg some (Except.ok.inj hone)
      congr 1
      apply List.ext_getElem?
      intro k
      by_cases hk : k < found.length
      · rw [hget k hk, List.getElem?_eq_getElem hk]
      · have hle := length_firstOnes_le hread
        rw [List.getElem?_eq_none (by omega), List.getElem?_eq_none (by omega)]

end SampledSeq.BitSlice

/-!
## Searching arbitrary bits

Fields and ranges that do not lie inside the buffer are reported, wherever they start. A one that is
found has as many ones before it in the range as its index says (`guarded_select1`), so it stands
that many bits behind the start at least (`le_of_getElem?_onesIn`). Inside the buffer no one of the
range is missed (`ones_are_found_by_rank`).
-/

namespace SampledSeq.BitSlice

variable {s : BitSlice}

/-- A field that is read lies inside the buffer, and has no bits above its width. -/
theorem guarded_getBits (s : BitSlice) {pos width : Nat} (hw : width ≤ 64) :
    Guarded (fun word => word.toNat < 2 ^ width ∧
      (width = 0 ∨ pos + width ≤ s.len)) (s.getBits pos width) := by
  by_cases h0 : width = 0
  · subst h0
    exact .inl ⟨0, by rw [getBits, if_pos rfl], by decide, .inl rfl⟩
  · by_cases hlen : pos + width ≤ s.len
    · obtain ⟨word, hword, hbits⟩ := s.getBits_ok hw hlen
      refine .inl ⟨word, hword, Nat.lt_pow_two_of_testBit _ fun i hi => ?_, .inr hlen⟩
      rw [hbits, decide_eq_false (Nat.not_lt_of_le hi), Bool.false_and]
    · rw [s.getBits_error h0 (by omega)]
      exact .corrupt _

/-- A one that is found is the one of its index in the range. -/
theorem guarded_select1 (s : BitSlice) (start stop k : Nat) :
    Guarded (fun p => (s.onesIn start stop)[k]? = some p) (s.select1 start stop k) := by
  rcases s.selectFrom_cases start stop start k with h | ⟨-, cause, hcause⟩
  · rw [select1, h]
    cases hone : (s.onesIn start stop)[k]? with
    | some p => exact .ok rfl
    | none => exact .corrupt _
  · rw [select1, hcause]
    exact .corrupt cause

/-- The `k`-th one of a range leaves room for those before it. -/
theorem le_of_getElem?_onesIn {start stop k p : Nat} (h : (s.onesIn start stop)[k]? = some p) :
    start + k ≤ p := by
  obtain ⟨⟨hle, -⟩, -, rfl⟩ := getElem?_onesIn.1 h
  have hcount := s.length_onesIn_le start p
  omega

/-- What is found is a one of the range with exactly `k` ones before it, whatever part of the range
the buffer holds. If it holds all of it, nothing is found exactly if the range has at most `k` ones;
and there is nothing in an empty range. -/
theorem ones_are_found_by_rank (s : BitSlice) (start stop k : Nat) :
    Guarded (fun p => (start ≤ p ∧ p < stop) ∧ s.bit p = true ∧
      (s.onesIn start p).length = k) (s.select1 start stop k) ∧
      (stop ≤ s.len → ((∃ cause, s.select1 start stop k = corrupt cause) ↔
        (s.onesIn start stop).length ≤ k)) ∧
      (stop ≤ start → s.select1 start stop k = corrupt (.missingOnes start stop)) := by
  refine ⟨(s.guarded_select1 start stop k).mono fun p hp => getElem?_onesIn.1 hp, fun hs => ?_,
    fun hempty => ?_⟩
  · rw [select1_eq hs, ← List.getElem?_eq_none_iff]
    cases (s.onesIn start stop)[k]? with
    | some p => exact iff_of_false (fun ⟨cause, h⟩ => corrupt_ne_ok cause p h.symm) nofun
    | none => exact iff_of_true ⟨_, rfl⟩ rfl
  · rw [select1, selectFrom, dif_neg (Nat.not_lt_of_le hempty)]

/-- Two words with ones at 0, 3, 64 and 66: the second one behind bit 0 is at 64, before 66 there is
no third, and there is none from 66 back to 1. -/
theorem second_of_two_ones_is_found :
    (⟨#[9, 5]⟩ : BitSlice).select1 1 66 1 = .ok 64 ∧
      (∃ cause, (⟨#[9, 5]⟩ : BitSlice).select1 1 66 2 = corrupt cause) ∧
      (⟨#[9, 5]⟩ : BitSlice).select1 66 1 0 = corrupt (.missingOnes 66 1) := by
  have hones : (⟨#[9, 5]⟩ : BitSlice).onesIn 1 66 = [3, 64] := by decide
  have hlen : 66 ≤ (⟨#[9, 5]⟩ : BitSlice).len := by decide
  refine ⟨?_, ((ones_are_found_by_rank ⟨#[9, 5]⟩ 1 66 2).2.1 hlen).2 (by simp [hones]),
    (ones_are_found_by_rank ⟨#[9, 5]⟩ 66 1 0).2.2 (by decide)⟩
  obtain ⟨⟨p, hp, hrange, hone, hrank⟩ | hcorrupt, hiff, -⟩ :=
    ones_are_found_by_rank ⟨#[9, 5]⟩ 1 66 1
  · have hmem : p ∈ [3, 64] := hones ▸ mem_onesIn.2 ⟨hrange, hone⟩
    rcases List.mem_pair.1 hmem with rfl | rfl
    · exact absurd hrank (by decide)
    · exact hp
  · have hcount := (hiff hlen).1 hcorrupt
    simp [hones] at hcount

theorem guarded_firstOnes (s : BitSlice) (stop start count : Nat) :
    Guarded (fun found => found.length ≤ count ∧ ∀ k (hk : k < found.length), start + k ≤ found[k])
      (s.firstOnes stop start count) := by
  have hread : Guarded (fun _ => True) (s.firstOnes stop start count) := by
    fun_induction firstOnes s stop start count with
    | case1 pos count h ih =>
      refine (s.guarded_getBits (Nat.min_le_right _ _)).bind fun word _ => ?_
      exact (ih word).bind fun more _ => .ok trivial
    | case2 => exact .ok trivial
  rcases hread with ⟨found, hfound, -⟩ | ⟨cause, hcause⟩
  · have hlen := length_firstOnes_le hfound
    refine .inl ⟨found, hfound, hlen, fun k hk => ?_⟩
    have hone := selectFrom_of_firstOnes_ok hfound start (Nat.lt_of_lt_of_le hk hlen)
    rw [List.getElem?_eq_getElem hk] at hone
    exact le_of_getElem?_onesIn ((s.guarded_select1 start stop k).of_ok hone)
  · exact .inr ⟨cause, hcause⟩

end SampledSeq.BitSlice
