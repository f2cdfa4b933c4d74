import SampledSeq.BlockList
import SampledSeq.Proofs.Bits.Ones
import SampledSeq.Proofs.BlockList.EliasFano
import SampledSeq.Proofs.BlockList.Kind
import SampledSeq.Proofs.Outcome

/-!
# Lists in buffers, and on arbitrary bits

Decoding in place leaves in the slots what decoding as a list answers, whatever they held before. On
arbitrary bits all positions that the readers compute stay in range, and the two ways to the values
of a list agree.
-/

/-!
## Lists decoded in place

Every list is decoded into slots, one by one, and what it leaves there is the list that `decode`
answers, whatever the slots held; a list that does not decode fails for the same reason, with some
of the slots written (`BlockKind.turns_fill`). A bitmap writes every value where it finds it. An
Elias-Fano list writes all low parts before it looks for the first one of the upper bits, so the
ones find a low part in their slot, and nothing older.
-/

namespace SampledSeq

open Fill

variable {s : BitSlice}

/-! ### Ones that are visited in turn -/

/-- The first ones of a chunk: there is room in it for those before each of them. -/
theorem BitSlice.le_of_lowestOnes {pos width : Nat} {word : UInt64} (hw : width ≤ 64)
    (h : s.getBits pos width = .ok word) (count : Nat) {found : List Nat}
    (hfound : found = (Word.lowestOnes word count).map (pos + ·)) :
    found.length ≤ count ∧ found.length ≤ width ∧
    ∀ k (h : k < found.length), pos + k ≤ found[k] := by
  have hlen := s.length_onesIn_le pos (pos + width)
  rw [Word.lowestOnes_eq_take, List.map_take, map_ones_getBits hw h] at hfound
  subst hfound
  have htake : ((s.onesIn pos (pos + width)).take count).length = _ := List.length_take
  refine ⟨by omega, by omega, fun k hk => ?_⟩
  have hone :
      (s.onesIn pos (pos + width))[k]? = some ((s.onesIn pos (pos + width)).take count)[k] := by
    rw [List.getElem_take, List.getElem?_eq_getElem]
  exact le_of_getElem?_onesIn hone

/-- If a step turns the slot of its number, visiting the ones turns all slots, each by the one of
its place. -/
theorem BitSlice.turns_eachOne {base : Nat} (stop : Nat) {step : Nat → Nat → Fill Unit}
    {f : Nat → Nat → UInt64 → UInt64}
    (hstep : ∀ (done todo : List UInt64) old p, base + done.length ≤ p →
      Turns (step done.length p) (done ++ old :: todo) (.ok (done ++ f done.length p old :: todo)))
    (short : Nat → Corruption) {pos i count : Nat} (done now : List UInt64)
    (hdone : done.length = i)
    (hnow : now.length = count) (hpos : base + i ≤ pos) :
    Turns (s.eachOne step short stop pos i count) (done ++ now)
      (s.firstOnes stop pos count >>= fun found =>
        if found.length < count then corrupt (short (i + found.length))
        else .ok (done ++ turned f i now found)) := by
  fun_induction s.eachOne step short stop pos i count generalizing done now with
  | case1 pos i count h ih =>
    subst hdone
    rw [firstOnes, dif_pos h, bind_assoc]
    refine .lift_bind fun word hword => ?_
    have hnext := fun found => ih word (done ++ found)
    generalize hfound : (Word.lowestOnes word count).map (pos + ·) = found at hnext ⊢
    -- the chunk has the ones of the first slots, and what is behind it those of the others
    obtain ⟨hcount, hwidth, hroom⟩ :=
      le_of_lowestOnes (Nat.min_le_right _ _) hword count hfound.symm
    obtain ⟨first, later, rfl, hfirst⟩ : ∃ first later, now = first ++ later ∧
      first.length = found.length :=
      ⟨now.take found.length, now.drop found.length,
        (List.take_append_drop _ _).symm, by rw [List.length_take]; omega⟩
    have hhere :=
      turns_each (p := fun i pos => base + i ≤ pos) hstep done later hfirst fun k hk => by
      have hp := hroom k hk
      omega
    have hrest :=
      hnext (turned f done.length first found) later
        (by rw [List.length_append, length_turned hfirst])
      (by rw [List.length_append] at hnow; omega) (by omega)
    have hsame : ∀ more : List Nat, (if (found ++ more).length < count then
        corrupt (short (done.length + (found ++ more).length))
        else .ok (done ++ turned f done.length (first ++ later) (found ++ more))) =
        if more.length < count - found.length then
          corrupt (short (done.length + found.length + more.length))
        else .ok (done ++ turned f done.length first found ++ turned f (done.length + found.length)
          later more) := by
      intro more
      rw [turned_append hfirst, List.length_append, List.append_assoc, Nat.add_assoc]
      exact if_congr (by omega) rfl rfl
    rw [← List.append_assoc, bind_assoc]
    simp only [pure_bind, hsame]
    exact hhere.seq hrest
  | case2 pos i count h hcount =>
    rw [firstOnes, dif_neg h, ok_bind, List.length_nil, if_pos hcount]
    exact .fail _ _
  | case3 pos i count h hcount =>
    obtain rfl := List.length_eq_zero_iff.1 (hnow.trans (Nat.eq_zero_of_not_pos hcount))
    rw [firstOnes, dif_neg h, ok_bind, List.length_nil, if_neg hcount]
    exact .pure _

/-- If the ones of a list, all of them found, stand for what their slots are turned into, visiting
the ones decodes the list. -/
theorem BitSlice.turns_ones {start stop : Nat} {step : Nat → Nat → Fill Unit}
    {f : Nat → Nat → UInt64 → UInt64}
    {short : Nat → Corruption} {values : List Nat → Except Error (List UInt64)}
    {before : List UInt64}
    (hstep : ∀ (done todo : List UInt64) old p, start + done.length ≤ p →
      Turns (step done.length p) (done ++ old :: todo) (.ok (done ++ f done.length p old :: todo)))
    (hvalues : ∀ found : List Nat, before.length = found.length →
      (∀ k (h : k < found.length), start + k ≤ found[k]) →
      values found = .ok (turned f 0 before found)) :
    Turns (s.eachOne step short stop start 0 before.length) before (do
      let found ← s.firstOnes stop start before.length
      if found.length < before.length then
        corrupt (short found.length)
      values found) := by
  have hall := turns_eachOne (s := s) stop hstep short [] before rfl rfl (Nat.le_refl start)
  cases hfound : s.firstOnes stop start before.length with
  | error e => rwa [hfound] at hall
  | ok found =>
    obtain ⟨hle, hroom⟩ := (s.guarded_firstOnes stop start before.length).of_ok hfound
    rw [hfound, ok_bind] at hall
    by_cases hshort : found.length < before.length
    · simpa [hshort] using hall
    · rw [if_neg hshort, List.nil_append, List.nil_append] at hall
      simpa [hshort, hvalues found (by omega) hroom] using hall

/-! ### Lists -/

theorem Interval.turns_fillFrom (done now : List UInt64) :
    Turns (fillFrom done.length now.length) (done ++ now)
    (.ok (done ++ valuesFrom done.length now.length)) := by
  induction now generalizing done with
  | nil => exact .pure _
  | cons old now ih =>
    have hnext := ih (done ++ [UInt64.ofNat done.length])
    simp only [List.length_append, List.length_cons, List.length_nil, List.append_assoc,
      List.cons_append, List.nil_append] at hnext ⊢
    exact (turns_put done now old _).seq hnext

theorem Interval.turns_fill (before : List UInt64) :
    Turns (fill before.length) before (.ok (decode before.length)) := turns_fillFrom [] before

theorem GapList.turns_fillFrom (width pos : Nat) (previous : UInt64) (done now : List UInt64) :
    Turns (fillFrom s width now.length pos previous done.length) (done ++ now)
      (do return done ++ (← valuesFrom s width now.length pos previous)) := by
  induction now generalizing pos previous done with
  | nil => exact .pure _
  | cons old now ih =>
    have hnext := fun pos value => ih pos value (done ++ [value])
    simp only [List.length_append, List.length_cons, List.length_nil, List.append_assoc,
      List.cons_append, List.nil_append] at hnext ⊢
    rw [fillFrom, valuesFrom, bind_assoc]
    refine .lift_bind fun code _ => (turns_put done now old _).seq ?_
    rw [bind_assoc]
    refine .lift_bind fun pos' _ => ?_
    rw [bind_assoc]
    exact hnext pos' _

theorem GapList.turns_fill (start : Nat) (before : List UInt64) :
    Turns (fill s start before.length) before (decode s start before.length) := by
  refine .lift_bind fun width _ => .lift_bind fun pos _ => ?_
  have hvalues := turns_fillFrom (s := s) width pos 0 [] before
  rwa [return_nil_append] at hvalues

theorem Bitmap.turned_eq_map {start : Nat} {now : List UInt64} {found : List Nat}
    (h : now.length = found.length) (i : Nat) :
    turned (fun _ p _ => UInt64.ofNat (p - start)) i now found =
      found.map fun p => UInt64.ofNat (p - start) := by
  induction found generalizing i now with
  | nil => cases now <;> rfl
  | cons p found ih =>
    obtain ⟨old, now, rfl⟩ := List.exists_cons_of_length_eq_add_one h
    rw [turned, List.map_cons, ih (Nat.succ.inj h)]

theorem Bitmap.turns_fill (start bound : Nat) (before : List UInt64) :
    Turns (fill s start bound before.length) before (decode s start bound before.length) := by
  refine .lift_bind fun stop _ =>
    BitSlice.turns_ones (f := fun _ p _ => UInt64.ofNat (p - start)) ?_ ?_
  · intro done todo old p hp
    rw [Position.sub_eq_ok (by omega)]
    exact turns_put done todo old _
  · intro found hlen hroom
    have hle : ∀ p ∈ found, start ≤ p := fun p hp => by
      obtain ⟨k, hk, rfl⟩ := List.getElem_of_mem hp
      exact Nat.le_trans (Nat.le_add_right _ _) (hroom k hk)
    rw [mapM_sub hle, turned_eq_map hlen]

namespace EliasFano

/-- The value of a one and the low part in its slot. -/
def joined (low upperStart i p : Nat) (lowPart : UInt64) : UInt64 :=
  UInt64.ofNat (p - upperStart - i) <<< UInt64.ofNat low ||| lowPart

theorem join_eq {low upperStart i p : Nat} (hlow : low < 64) (h : upperStart + i ≤ p)
    (lowPart : UInt64) :
    (do join low lowPart (← Position.sub p upperStart) i) =
      .ok (joined low upperStart i p lowPart) := by
  rw [Position.sub_eq_ok (by omega), ok_bind, join, Position.sub_eq_ok (by omega), ok_bind,
    Position.below_eq_ok hlow]
  rfl

/-- Behind the end of the upper bits, the low width is known to be a shift. -/
theorem low_lt_of_upperStop {start count bound low stop : Nat}
    (h : upperStop start count bound low = .ok stop) :
    low < 64 := by
  obtain ⟨low', hbelow, -⟩ := bind_eq_ok.1 h
  unfold Position.below at hbelow
  split at hbelow
  · assumption
  · cases hbelow

theorem joinAll_eq {low upperStart i : Nat} {parts : List UInt64} {found : List Nat}
    (hlow : low < 64) (hlen : parts.length = found.length)
    (h : ∀ k (h : k < found.length), upperStart + (i + k) ≤ found[k]) :
    joinAll low upperStart i parts found = .ok (turned (joined low upperStart) i parts found) := by
  induction found generalizing i parts with
  | nil => cases parts <;> rfl
  | cons p found ih =>
    obtain ⟨part, parts, rfl⟩ := List.exists_cons_of_length_eq_add_one hlen
    have hrest := @ih (i + 1) parts (Nat.succ.inj hlen) fun k hk => by
      have hle := h (k + 1) (Nat.succ_lt_succ hk)
      rw [List.getElem_cons_succ] at hle
      omega
    have hfirst : upperStart + i ≤ p := h 0 (Nat.zero_lt_succ _)
    rw [joinAll, ← bind_assoc, join_eq hlow hfirst, ok_bind, hrest]
    rfl

theorem turns_fillLow (start low : Nat) (done now : List UInt64) :
    Turns (fillLow s start low now.length done.length) (done ++ now)
      (do return done ++ (← lowParts s start low now.length done.length)) := by
  induction now generalizing done with
  | nil => exact .pure _
  | cons old now ih =>
    have hnext := fun part => ih (done ++ [part])
    simp only [List.length_append, List.length_cons, List.length_nil, List.append_assoc,
      List.cons_append, List.nil_append] at hnext ⊢
    rw [fillLow, lowParts, bind_assoc]
    refine .lift_bind fun pos _ => ?_
    rw [bind_assoc]
    refine .lift_bind fun part _ => (turns_put done now old part).seq ?_
    rw [bind_assoc]
    exact hnext part

theorem turns_fill (start bound : Nat) (before : List UInt64) :
    Turns (fill s start bound before.length) before (decode s start bound before.length) := by
  refine .lift_bind fun low _ => ?_
  have hlow := turns_fillLow (s := s) start low [] before
  rw [return_nil_append] at hlow
  refine hlow.bind fun parts hparts => ?_
  rw [hparts] at hlow
  have hlen : before.length = parts.length := hlow.length_eq.symm
  refine .lift_bind fun upperStart _ => .lift_bind fun stop hstop => ?_
  have hshift := low_lt_of_upperStop hstop
  rw [hlen]
  refine BitSlice.turns_ones (f := joined low upperStart) ?_ ?_
  · intro done todo part p hp
    have hchange := turns_change (fun part => Position.sub p upperStart >>= fun offset =>
      join low part offset done.length) done todo part
    rwa [join_eq hshift hp] at hchange
  · intro found hlen' hroom
    exact joinAll_eq hshift hlen' fun k hk => by simpa using hroom k hk

end EliasFano

theorem BlockKind.turns_fill (kind : BlockKind) (start bound : Nat) (before : List UInt64) :
    Turns (kind.fill s start bound before.length) before
      (kind.decode s start bound before.length) := by
  cases kind with
  | raw => exact GapList.turns_fill start before
  | bitmap => exact Bitmap.turns_fill start bound before
  | eliasFano => exact EliasFano.turns_fill start bound before
  | full => exact Interval.turns_fill before

end SampledSeq

/-!
## Block lists on arbitrary bits

A list is read from a start inside the buffer, and from a count and a bound that need not fit what
is stored there. All positions that the four readers compute stay in range all the same: a gap list
moves on only behind a field that was read, the ones of a bitmap or of an Elias-Fano list stand
behind their places, and low parts of the width that follows from count and bound take no more bits
than half the bound (`EliasFano.count_mul_lowWidth_le`).
-/

namespace SampledSeq

variable {s : BitSlice} {start : Nat}

theorem Position.checked_of_le (hs : s.len < Position.limit) {n : Nat} (h : n ≤ s.len) :
    Position.checked n = .ok n :=
  Position.checked_eq_ok (Nat.lt_of_le_of_lt h hs)

theorem Position.guarded_addOr (tooLarge : Corruption) (a b : Nat) :
    Guarded (fun _ => True) (addOr tooLarge a b) := by
  unfold addOr
  split
  · exact .ok trivial
  · exact .corrupt _

/-! ### Gap lists -/

namespace GapList

theorem guarded_width (s : BitSlice) (start : Nat) :
    Guarded (fun width => width ≤ 64 ∧ start + headerBits ≤ s.len) (width s start) := by
  refine (s.guarded_getBits (by decide : headerBits ≤ 64)).bind fun word hword => ?_
  refine .check fun hwidth => .ok ⟨Nat.le_of_not_lt hwidth, ?_⟩
  exact hword.2.resolve_left (by decide)

/-- A field that was read ends inside the buffer. -/
theorem guarded_step {width pos : Nat} (hs : s.len < Position.limit) (hw : width ≤ 64)
    (hpos : pos ≤ s.len) :
    Guarded (fun _ => Position.checked (pos + width) = .ok (pos + width) ∧
      pos + width ≤ s.len) (s.getBits pos width) := by
  refine (s.guarded_getBits hw).mono ?_
  rintro word ⟨-, hend⟩
  have hle : pos + width ≤ s.len := by
    rcases hend with rfl | hend
    · exact hpos
    · exact hend
  exact ⟨Position.checked_of_le hs hle, hle⟩

theorem guarded_valuesFrom {width count pos : Nat} (hs : s.len < Position.limit) (hw : width ≤ 64)
    (hpos : pos ≤ s.len) (previous : UInt64) :
    Guarded (fun _ => True) (valuesFrom s width count pos previous) := by
  induction count generalizing pos previous with
  | zero => exact .ok trivial
  | succ count ih =>
    refine (guarded_step hs hw hpos).bind ?_
    rintro code ⟨hnext, hle⟩
    rw [hnext, ok_bind]
    exact (ih hle _).bind fun values _ => .ok trivial

theorem guarded_valueAfter {width steps pos : Nat} (hs : s.len < Position.limit) (hw : width ≤ 64)
    (hpos : pos ≤ s.len) (previous : UInt64) :
    Guarded (fun _ => True) (valueAfter s width steps pos previous) := by
  induction steps generalizing pos previous with
  | zero => exact .ok trivial
  | succ steps ih =>
    refine (guarded_step hs hw hpos).bind ?_
    rintro code ⟨hnext, hle⟩
    rw [hnext, ok_bind]
    exact ih hle _

theorem guarded_access (hs : s.len < Position.limit) (start i : Nat) :
    Guarded (fun _ => True) (access s start i) := by
  refine (guarded_width s start).bind ?_
  rintro width ⟨hw, hheader⟩
  rw [Position.checked_of_le hs hheader, ok_bind]
  exact guarded_valueAfter hs hw hheader 0

theorem guarded_decode (hs : s.len < Position.limit) (start count : Nat) :
    Guarded (fun _ => True) (decode s start count) := by
  refine (guarded_width s start).bind ?_
  rintro width ⟨hw, hheader⟩
  rw [Position.checked_of_le hs hheader, ok_bind]
  exact guarded_valuesFrom hs hw hheader 0

end GapList

/-! ### Bitmaps -/

namespace Bitmap

theorem guarded_stop (start bound : Nat) : Guarded (fun _ => True) (stop start bound) :=
  Position.guarded_addOr _ start bound

theorem guarded_access (s : BitSlice) (start bound i : Nat) :
    Guarded (fun _ => True) (access s start bound i) := by
  refine (guarded_stop start bound).bind fun stop _ => ?_
  refine (s.guarded_select1 start stop i).bind fun pos hpos => ?_
  have hle := BitSlice.le_of_getElem?_onesIn hpos
  rw [Position.sub_eq_ok (by omega), ok_bind]
  exact .ok trivial

theorem guarded_decode (s : BitSlice) (start bound count : Nat) :
    Guarded (fun _ => True) (decode s start bound count) := by
  refine (guarded_stop start bound).bind fun stop _ => ?_
  refine (s.guarded_firstOnes stop start count).bind fun found hfound => .check fun _ => ?_
  have hle : ∀ pos ∈ found, start ≤ pos := fun pos hpos => by
    obtain ⟨k, hk, rfl⟩ := List.mem_iff_getElem.1 hpos
    exact Nat.le_trans (Nat.le_add_right start k) (hfound.2 k hk)
  rw [mapM_sub hle]
  exact .ok trivial

end Bitmap

/-! ### Elias-Fano lists -/

namespace EliasFano

variable {count bound : Nat}

/-- The low parts take at most half as many bits as the bound says. -/
theorem count_mul_lowWidth_le (count bound : Nat) : 2 * (count * lowWidth count bound) ≤ bound := by
  by_cases h : count = 0 ∨ bound ≤ count
  · rw [lowWidth, if_pos h]
    exact Nat.zero_le _
  · have h0 : 0 < count := by omega
    have hspec : count * 2 ^ lowWidth count bound ≤ bound := (lowWidth_spec h0).2 (by omega)
    have hpow : ∀ n : Nat, 2 * n ≤ 2 ^ n := by
      intro n
      cases n with
      | zero => decide
      | succ n =>
        have hlt := Nat.lt_two_pow_self (n := n)
        rw [Nat.pow_succ]
        omega
    calc 2 * (count * lowWidth count bound) = count * (2 * lowWidth count bound) := by ac_rfl
      _ ≤ count * 2 ^ lowWidth count bound := Nat.mul_le_mul_left count (hpow _)
      _ ≤ bound := hspec

/-- The low parts of a list that starts inside the buffer end at a position, whatever its count and
its bound are. -/
theorem low_end_lt (hs : s.len < 2 ^ 63) (hstart : start ≤ s.len) (hbound : bound < 2 ^ 64) :
    start + count * lowWidth count bound < Position.limit := by
  have hlow := count_mul_lowWidth_le count bound
  simp only [Position.limit, UInt64.size]
  omega

/-- Every low part starts at a position, and so do the upper bits behind them. -/
theorem checked_low (hend : start + count * lowWidth count bound < Position.limit) {i : Nat}
    (hi : i ≤ count) :
    Position.checked (start + i * lowWidth count bound) =
      .ok (start + i * lowWidth count bound) := by
  have hle := Nat.mul_le_mul_right (lowWidth count bound) hi
  exact Position.checked_eq_ok (by omega)

theorem guarded_upperStop {low : Nat} (hlow : low < 64) (hcount : count + 1 < Position.limit)
    (start bound : Nat) :
    Guarded (fun _ => True) (upperStop start count bound low) := by
  rw [upperStop, Position.below_eq_ok hlow, ok_bind, Position.checked_eq_ok hcount, ok_bind]
  exact (Position.guarded_addOr _ _ _).bind fun length _ => Position.guarded_addOr _ start length

/-- The one of the `i`-th value leaves a distance for the upper part. -/
theorem guarded_join {upperStart pos i low : Nat} (hlow : low < 64) (hpos : upperStart + i ≤ pos)
    (lowPart : UInt64) :
    Guarded (fun _ => True) (do join low lowPart (← Position.sub pos upperStart) i) := by
  rw [join_eq hlow hpos]
  exact .ok trivial

theorem guarded_access (hend : start + count * lowWidth count bound < Position.limit)
    (hbound : bound < 2 ^ 64) (hcount : count + 1 < Position.limit) {i : Nat} (hi : i ≤ count) :
    Guarded (fun _ => True) (access s start count bound i) := by
  have hw : lowWidth count bound ≤ 63 := lowWidth_le hbound
  rw [access, readWidth_eq, ok_bind, checked_low hend hi, ok_bind]
  refine (s.guarded_getBits (by omega)).bind fun lowPart _ => ?_
  rw [checked_low hend (Nat.le_refl count), ok_bind]
  refine (guarded_upperStop (Nat.lt_succ_of_le hw) hcount _ bound).bind fun stop _ => ?_
  refine (s.guarded_select1 _ stop i).bind fun pos hpos => ?_
  exact guarded_join (Nat.lt_succ_of_le hw) (BitSlice.le_of_getElem?_onesIn hpos) lowPart

theorem guarded_lowParts (hend : start + count * lowWidth count bound < Position.limit)
    (hbound : bound < 2 ^ 64) {n i : Nat} (hi : i + n ≤ count) :
    Guarded (fun parts => parts.length = n) (lowParts s start (lowWidth count bound) n i) := by
  have hw : lowWidth count bound ≤ 63 := lowWidth_le hbound
  induction n generalizing i with
  | zero => exact .ok rfl
  | succ n ih =>
    rw [lowParts, checked_low hend (by omega : i ≤ count), ok_bind]
    refine (s.guarded_getBits (by omega)).bind fun part _ => ?_
    exact (ih (by omega : i + 1 + n ≤ count)).bind fun parts hparts => .ok (congrArg (· + 1) hparts)

theorem guarded_joinAll {low : Nat} (hlow : low < 64) (upperStart : Nat) (parts : List UInt64)
    {i : Nat} {found : List Nat}
    (hfound : ∀ k (hk : k < found.length), upperStart + (i + k) ≤ found[k]) :
    Guarded (fun _ => True) (joinAll low upperStart i parts found) := by
  induction parts generalizing i found with
  | nil => exact .ok trivial
  | cons part parts ih =>
    cases found with
    | nil => exact .ok trivial
    | cons pos found =>
      have hpos := hfound 0 (Nat.zero_lt_succ _)
      have hrest : ∀ k (hk : k < found.length), upperStart + (i + 1 + k) ≤ found[k] := by
        intro k hk
        have hle := hfound (k + 1) (Nat.succ_lt_succ hk)
        rw [List.getElem_cons_succ] at hle
        omega
      have hvalue := guarded_join hlow hpos part
      rw [joinAll, ← bind_assoc]
      exact hvalue.bind fun value _ => (ih hrest).bind fun values _ => .ok trivial

theorem guarded_decode (hend : start + count * lowWidth count bound < Position.limit)
    (hbound : bound < 2 ^ 64) (hcount : count + 1 < Position.limit) :
    Guarded (fun _ => True) (decode s start bound count) := by
  have hw : lowWidth count bound ≤ 63 := lowWidth_le hbound
  rw [decode, readWidth_eq, ok_bind]
  refine (guarded_lowParts hend hbound (by omega : 0 + count ≤ count)).bind fun parts _ => ?_
  rw [checked_low hend (Nat.le_refl count), ok_bind]
  refine (guarded_upperStop (Nat.lt_succ_of_le hw) hcount _ bound).bind fun stop _ => ?_
  refine (s.guarded_firstOnes stop _ count).bind fun found hfound => .check fun _ => ?_
  exact guarded_joinAll (Nat.lt_succ_of_le hw) _ parts fun k hk => by simpa using hfound.2 k hk

end EliasFano

/-! ### All encodings -/

namespace BlockKind

variable {count bound : Nat}

theorem guarded_access (kind : BlockKind) (hs : s.len < Position.limit)
    (hend : start + count * EliasFano.lowWidth count bound < Position.limit)
    (hbound : bound < 2 ^ 64) (hcount : count + 1 < Position.limit) {i : Nat} (hi : i ≤ count) :
    Guarded (fun _ => True) (kind.access s start count bound i) := by
  cases kind with
  | raw => exact GapList.guarded_access hs start i
  | bitmap => exact Bitmap.guarded_access s start bound i
  | eliasFano => exact EliasFano.guarded_access hend hbound hcount hi
  | full => exact .ok trivial

theorem guarded_decode (kind : BlockKind) (hs : s.len < Position.limit)
    (hend : start + count * EliasFano.lowWidth count bound < Position.limit)
    (hbound : bound < 2 ^ 64) (hcount : count + 1 < Position.limit) :
    Guarded (fun _ => True) (kind.decode s start bound count) := by
  cases kind with
  | raw => exact GapList.guarded_decode hs start count
  | bitmap => exact Bitmap.guarded_decode s start bound count
  | eliasFano => exact EliasFano.guarded_decode hend hbound hcount
  | full => exact .ok trivial

/-- On any words, whatever they hold, decoding and access either answer or report an inconsistent
stream. Decoding answers exactly if every single value is found, and then with the values that are
found. -/
theorem decode_agrees_with_access (kind : BlockKind) (hwords : s.words.size < 2 ^ 57)
    (bound : UInt64) (h0 : 1 ≤ count) (hend : start + 64 * count + 7 < 2 ^ 64) :
    Guarded (fun vs => vs.length = count ∧
        ∀ i (h : i < vs.length), kind.access s start count bound.toNat i = .ok vs[i])
      (kind.decode s start bound.toNat count) ∧
      (∀ i < count, Guarded (fun _ => True) (kind.access s start count bound.toNat i)) ∧
      ((∃ vs, kind.decode s start bound.toNat count = .ok vs) ↔
        ∀ i < count, ∃ v, kind.access s start count bound.toNat i = .ok v) := by
  have h64 : bound.toNat < 2 ^ 64 := bound.toNat_lt
  have hs : s.len < Position.limit := by
    simp only [BitSlice.len, Position.limit, UInt64.size]
    omega
  have hlow : start + count * EliasFano.lowWidth count bound.toNat < Position.limit := by
    have hwidth : EliasFano.lowWidth count bound.toNat ≤ 63 := EliasFano.lowWidth_le h64
    have hle := Nat.mul_le_mul_left count hwidth
    simp only [Position.limit, UInt64.size]
    omega
  have hcount : count + 1 < Position.limit := by
    simp only [Position.limit, UInt64.size]
    omega
  have hdecode : ∀ {vs}, kind.decode s start bound.toNat count = .ok vs ↔ vs.length = count ∧
      ∀ i (h : i < vs.length), kind.access s start count bound.toNat i = .ok vs[i] :=
    decode_eq_ok h0
  refine ⟨?_, fun i hi => kind.guarded_access hs hlow h64 hcount (Nat.le_of_lt hi), ?_,
    fun hfound => ?_⟩
  · rcases kind.guarded_decode hs hlow h64 hcount with ⟨vs, hvs, -⟩ | hcorrupt
    · exact .inl ⟨vs, hvs, hdecode.1 hvs⟩
    · exact .inr hcorrupt
  · rintro ⟨vs, hvs⟩ i hi
    obtain ⟨hlen, hall⟩ := hdecode.1 hvs
    exact ⟨vs[i], hall i (hlen ▸ hi)⟩
  · choose value hvalue using fun i : Fin count => hfound i i.isLt
    have hlen : (List.ofFn value).length = count := List.length_ofFn
    exact ⟨List.ofFn value, hdecode.2 ⟨hlen, fun i hi => by simpa using hvalue ⟨i, hlen ▸ hi⟩⟩⟩

/-- A gap list with fields of 40 bits in a single word: the first field is a step of 2, and there is
no room for a second one. -/
theorem second_step_is_missing :
    BlockKind.raw.access ⟨#[552]⟩ 0 2 0 0 = .ok 2 ∧
    ¬ ∃ vs, BlockKind.raw.decode ⟨#[552]⟩ 0 0 2 = .ok vs := by
  have hmissing : BlockKind.raw.access ⟨#[552]⟩ 0 2 0 1 = corrupt (.bitsPastEnd 40 47 64) := by
    decide
  refine ⟨by decide, fun hdecoded => ?_⟩
  obtain ⟨value, hvalue⟩ :=
    (decode_agrees_with_access .raw (s := ⟨#[552]⟩) (by decide) 0 (by decide) (by decide)).2.2.1
      hdecoded 1 (by decide)
  cases hmissing.symm.trans hvalue

end BlockKind

end SampledSeq
