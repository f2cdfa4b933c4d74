import SampledSeq.Codec
import SampledSeq.Proofs.Base128
import SampledSeq.Proofs.Codec.Frames
import SampledSeq.Proofs.Outcome

/-!
# Patched blocks come back

The packed frames keep the lowest bits of every difference. The patches then walk over the block
from exception to exception and give each of them its high bits back: behind the exception that was
patched last, the block still has to be patched, and in front of it nothing is missing
(`patch_exceptions`).
-/

namespace SampledSeq.Patched

/-! ## The width of a block -/

theorem widest_le (deltas : List UInt32) : Word.commonWidth (deltas.map UInt32.toNat) ≤ 32 := by
  apply Word.commonWidth_le_iff.2
  intro n hn
  obtain ⟨delta, -, rfl⟩ := List.mem_map.1 hn
  exact delta.toNat_lt

theorem chooseWidth_le_widest (deltas : List UInt32) :
    chooseWidth deltas ≤ Word.commonWidth (deltas.map UInt32.toNat) := by
  apply List.foldlRecOn (motive := fun best : Nat × Nat =>
    best.1 ≤ Word.commonWidth (deltas.map UInt32.toNat)) _ _
    (Nat.le_refl _)
  intro best hbest width hwidth
  have hlt := List.mem_range.1 hwidth
  dsimp only
  split
  · exact Nat.le_of_lt hlt
  · exact hbest

theorem chooseWidth_le (deltas : List UInt32) : chooseWidth deltas ≤ 32 :=
  Nat.le_trans (chooseWidth_le_widest deltas) (widest_le deltas)

/-! ## Exceptions -/

variable {width : Nat}

theorem lt_of_not_exception {delta : UInt32} (h : isException width delta = false) :
    delta.toNat < 2 ^ width := by
  simpa [isException, Word.bitLength_le_iff] using h

theorem width_lt_of_exception {delta : UInt32} (h : isException width delta = true) :
    width < 32 := by
  have hlen : Word.bitLength delta.toNat ≤ 32 := Word.bitLength_le_iff.2 delta.toNat_lt
  exact Nat.lt_of_lt_of_le (by simpa [isException] using h) hlen

theorem toNat_lowMask {width : Nat} (h : width ≤ 32) : (lowMask width).toNat = 2 ^ width - 1 := by
  rw [lowMask]
  split
  · obtain rfl : width = 32 := by omega
    rfl
  · have hpow : 2 ^ width < 2 ^ 32 := Nat.pow_lt_pow_right (by decide) (by omega)
    have hone : (1 : UInt32).toNat <<< (width % 32) = 2 ^ width := by
      rw [Nat.mod_eq_of_lt (by omega : width < 32)]
      exact Nat.one_shiftLeft width
    have hshift : ((1 : UInt32) <<< UInt32.ofNat width).toNat = 2 ^ width := by
      rw [UInt32.toNat_shiftLeft, UInt32.toNat_ofNat_of_lt' (by rw [UInt32.size]; omega), hone,
        Nat.mod_eq_of_lt hpow]
    have hle : (1 : UInt32) ≤ 1 <<< UInt32.ofNat width := by
      rw [UInt32.le_iff_toNat_le, hshift]
      exact Nat.two_pow_pos width
    rw [UInt32.toNat_sub_of_le _ _ hle, hshift]
    rfl

/-- What a frame keeps are the lowest bits of its differences. -/
theorem lows_eq {width : Nat} (h : width ≤ 32) (frame : List UInt32) :
    lows width frame = frame.map (Frame.low width) := by
  refine List.map_congr_left fun delta _ => UInt32.toNat_inj.1 ?_
  have hle := Nat.mod_le delta.toNat (2 ^ width)
  have hlt : delta.toNat < UInt32.size := delta.toNat_lt
  rw [UInt32.toNat_and, toNat_lowMask h, Nat.and_two_pow_sub_one_eq_mod, Frame.low, Frame.base_eq,
    UInt32.toNat_ofNat_of_lt' (by omega)]

theorem lows_lt {width : Nat} (h : width ≤ 32) (frame : List UInt32) :
    ∀ v ∈ lows width frame, v.toNat < 2 ^ width := by
  intro v hv
  obtain ⟨delta, -, rfl⟩ := List.mem_map.1 hv
  rw [UInt32.toNat_and, toNat_lowMask h, Nat.and_two_pow_sub_one_eq_mod]
  exact Nat.mod_lt _ (Nat.two_pow_pos width)

/-- The low and the high bits of a difference make it up. -/
theorem low_or_high (width : Nat) (delta : UInt32) :
    Frame.low width delta ||| UInt32.ofNat ((delta.toNat >>> width) <<< width) = delta := by
  have hsplit : (delta.toNat >>> width) <<< width + delta.toNat % 2 ^ width = delta.toNat := by
    rw [Nat.shiftRight_eq_div_pow, Nat.shiftLeft_eq, Nat.div_add_mod']
  have hor := Nat.shiftLeft_add_eq_or_of_lt (Nat.mod_lt delta.toNat (Nat.two_pow_pos width))
    (delta.toNat >>> width)
  have hlt : delta.toNat < UInt32.size := delta.toNat_lt
  have hlow := Nat.mod_le delta.toNat (2 ^ width)
  apply UInt32.toNat_inj.1
  rw [UInt32.toNat_or, Frame.low, Frame.base_eq, UInt32.toNat_ofNat_of_lt' (by omega),
    UInt32.toNat_ofNat_of_lt' (by omega), Nat.or_comm, ← hor, hsplit]

/-- High bits that fit are moved into their place, by less than the 32 bits of a value. -/
theorem raise_eq_ok {width high : Nat} (hwidth : width < 32) (hfit : high >>> (32 - width) = 0) :
    raise width high = .ok (UInt32.ofNat (high <<< width)) := by
  have hlt : high < 2 ^ (32 - width) := by
    rw [Nat.shiftRight_eq_div_pow, Nat.div_eq_zero_iff] at hfit
    exact hfit.resolve_left (Nat.two_pow_pos _).ne'
  have hword : high < UInt32.size :=
    Nat.lt_of_lt_of_le hlt (Nat.pow_le_pow_right (by decide) (Nat.sub_le 32 width))
  have hshift : UInt32.ofNat high <<< UInt32.ofNat width = UInt32.ofNat (high <<< width) := by
    apply UInt32.toNat_inj.1
    rw [UInt32.toNat_shiftLeft, UInt32.toNat_ofNat_of_lt' hword,
      UInt32.toNat_ofNat_of_lt' (by rw [UInt32.size]; omega), Nat.mod_eq_of_lt hwidth,
      UInt32.toNat_ofNat']
  simp only [raise, if_neg (Nat.not_le_of_lt hwidth), Position.sub_eq_ok (Nat.le_of_lt hwidth),
    Position.below_eq_ok (by omega : 32 - width < 64), Position.below_eq_ok hwidth, ok_bind, hfit,
    hshift, ne_eq, not_true, if_false, pure_eq_ok]

def patchList (patches : List (Nat × Nat)) : List UInt8 :=
  patches.flatMap fun (gap, high) => Base128.encode gap ++ Base128.encode high

/-- The first patch gives the exception at its place the high bits back. -/
theorem patch_cons {n pos gap : Nat} {done deltas : List UInt32} {delta : UInt32}
    (hpos : pos + gap = done.length) (hlen : done.length < 2 ^ 64)
    (hexc : isException width delta = true) (data : List UInt8) :
    patch width (n + 1) pos (done ++ (delta :: deltas).map (Frame.low width))
        (Base128.encode gap ++ (Base128.encode (delta.toNat >>> width) ++ data)) =
      patch width n done.length (done ++ delta :: deltas.map (Frame.low width)) data := by
  have hwidth := width_lt_of_exception hexc
  have hlt := delta.toNat_lt
  have hhigh : delta.toNat >>> width < 2 ^ 64 :=
    Nat.lt_of_le_of_lt (Nat.shiftRight_le _ _) (Nat.lt_trans hlt (by decide))
  have hfit : (delta.toNat >>> width) >>> (32 - width) = 0 := by
    rw [← Nat.shiftRight_add, Nat.shiftRight_eq_div_pow, Nat.div_eq_of_lt]
    rwa [show width + (32 - width) = 32 by omega]
  have hslot : done.length < (done ++ (delta :: deltas).map (Frame.low width)).length := by
    simp only [List.length_append, List.length_map, List.length_cons]
    omega
  rw [patch, Base128.decode_encode (by omega)]
  simp only [ok_bind, Base128.decode_encode hhigh, hpos, if_neg (Nat.not_le_of_lt hslot),
    raise_eq_ok hwidth hfit, Position.below_eq_ok hslot]
  congr 1
  rw [List.modify_eq_take_drop, List.take_left, List.drop_left, List.map_cons, List.modifyHead_cons,
    low_or_high]

/-- Behind a front that has been patched, the patches of the other differences restore them. -/
theorem patch_exceptions (width : Nat) (deltas done : List UInt32) (pos gap : Nat)
    (hpos : pos + gap = done.length) (hlen : done.length + deltas.length < 2 ^ 64)
    (rest : List UInt8) :
    patch width (exceptionsFrom width gap deltas).length pos (done ++ deltas.map (Frame.low width))
      (patchList (exceptionsFrom width gap deltas) ++ rest) = .ok (done ++ deltas, rest) := by
  induction deltas generalizing done pos gap with
  | nil => simp [exceptionsFrom, patch, patchList]
  | cons delta deltas ih =>
    have hdone : (done ++ [delta]).length = done.length + 1 := List.length_append
    rw [List.length_cons] at hlen
    have hnext : ∀ pos gap : Nat, pos + gap = done.length + 1 → _ := fun pos gap h =>
      ih (done ++ [delta]) pos gap (by rw [hdone, h]) (by rw [hdone]; omega)
    simp only [List.append_assoc, List.singleton_append] at hnext
    -- either way `delta` joins the front that needs no more patches; only an exception moves `pos`
    -- up to it
    by_cases hexc : isException width delta = true
    · rw [exceptionsFrom, if_pos hexc, List.length_cons, patchList, List.flatMap_cons]
      simp only [List.append_assoc]
      rw [patch_cons hpos (by omega) hexc]
      exact hnext _ _ rfl
    · have hlow : Frame.low width delta = delta := Frame.low_eq_self (by
        rw [Frame.base_eq]
        exact lt_of_not_exception (Bool.not_eq_true _ ▸ hexc))
      rw [exceptionsFrom, if_neg hexc, List.map_cons, hlow]
      exact hnext _ _ (by omega)

theorem length_exceptionsFrom_le (width gap : Nat) (deltas : List UInt32) :
    (exceptionsFrom width gap deltas).length ≤ deltas.length := by
  induction deltas generalizing gap with
  | nil => exact Nat.le_refl _
  | cons delta deltas ih =>
    rw [exceptionsFrom]
    split
    · exact Nat.succ_le_succ (ih 1)
    · exact Nat.le_succ_of_le (ih (gap + 1))

/-! ## Blocks -/

theorem patchOnto_eq (out : Array UInt8) (patch : Nat × Nat) :
    patchOnto out patch = out ++ (Base128.encode patch.1 ++ Base128.encode patch.2) := by
  apply Array.toList_inj.1
  simp [patchOnto, Base128.encodeOnto_eq]

theorem encodeOnto_eq (out : Array UInt8) (deltas : List UInt32) :
    encodeOnto out deltas = out ++ encode deltas := by
  have hpack : ∀ out frame,
      packOnto (chooseWidth deltas) out frame = out ++ packFrame (chooseWidth deltas) frame :=
    fun _ _ => rfl
  apply Array.toList_inj.1
  rw [encodeOnto, Cut.foldl_append patchOnto_eq, Base128.encodeOnto_eq, Cut.foldl_append hpack,
    encode, encodeAt]
  simp

theorem decodeFrames_flatMap (hwidth : width ≤ 32) {frames : List (List UInt32)}
    (h : ∀ frame ∈ frames, frame.length = granule) (rest : List UInt8) :
    decodeFrames width frames.length (frames.flatMap (packFrame width) ++ rest) =
      .ok (frames.flatten.map (Frame.low width), rest) := by
  induction frames with
  | nil => rfl
  | cons frame frames ih =>
    have hframe : (lows width frame).length = granule :=
      (List.length_map _).trans (h frame List.mem_cons_self)
    rw [List.length_cons, List.flatMap_cons, List.append_assoc, decodeFrames, packFrame,
      Frame.straight_lawful.read_pack hwidth hframe (lows_lt hwidth frame), ok_bind]
    simp only [ih fun frame' hmem => h frame' (List.mem_cons_of_mem _ hmem), ok_bind,
      List.flatten_cons, List.map_append, lows_eq hwidth, pure_eq_ok]

theorem decode_encodeAt (hwidth : width ≤ 32) {deltas slots : List UInt32}
    (h : granule ∣ deltas.length) (hlen : deltas.length < 2 ^ 64)
    (hs : slots.length = deltas.length) (rest : List UInt8) :
    decode (encodeAt width deltas ++ rest) slots = .ok (deltas, rest) := by
  have hpos : 0 < granule := by decide
  have hheader : (UInt8.ofNat width).toNat = width :=
    UInt8.toNat_ofNat_of_lt' (Nat.lt_of_le_of_lt hwidth (by decide))
  have hcount := length_exceptionsFrom_le width 0 deltas
  have hframes := fun rest => decodeFrames_flatMap hwidth (Cut.length_of_mem_rows h) rest
  rw [Cut.length_rows hpos h, Cut.flatten_rows hpos] at hframes
  have hpatch := patch_exceptions width deltas [] 0 0 rfl (by simpa using hlen) rest
  simp only [encodeAt, exceptions, List.cons_append, List.append_assoc, decode, hheader,
    if_neg (Nat.not_lt_of_le hwidth), hs, hframes, ok_bind,
    Base128.decode_encode (Nat.lt_of_le_of_lt hcount hlen), if_neg (Nat.not_lt_of_le hcount)]
  rw [List.drop_of_length_le (by rw [List.length_map, hs]), List.append_nil]
  exact hpatch

theorem decode_encode {deltas slots : List UInt32} (h : granule ∣ deltas.length)
    (hlen : deltas.length < 2 ^ 64) (hs : slots.length = deltas.length) (rest : List UInt8) :
    decode (encode deltas ++ rest) slots = .ok (deltas, rest) :=
  decode_encodeAt (chooseWidth_le deltas) h hlen hs rest

/-! ## Lengths -/

theorem length_decodeFrames {n : Nat} {data rest : List UInt8} {values : List UInt32}
    (h : decodeFrames width n data = .ok (values, rest)) : values.length = n * granule := by
  induction n generalizing data values rest with
  | zero =>
    obtain ⟨rfl, -⟩ := Prod.ext_iff.1 (Except.ok.inj h)
    simp
  | succ n ih =>
    obtain ⟨⟨frame, data'⟩, hframe, h⟩ := bind_eq_ok.1 h
    obtain ⟨⟨frames, data''⟩, hframes, h⟩ := bind_eq_ok.1 h
    obtain ⟨rfl, -⟩ := Prod.ext_iff.1 (Except.ok.inj h)
    have hlen : frame.length = granule := Frame.straight_lawful.length_read hframe
    rw [List.length_append, hlen, ih hframes, Nat.succ_mul, Nat.add_comm]

theorem length_patch {n pos : Nat} {slots values : List UInt32} {data rest : List UInt8}
    (h : patch width n pos slots data = .ok (values, rest)) : values.length = slots.length := by
  induction n generalizing pos slots data with
  | zero =>
    obtain ⟨rfl, -⟩ := Prod.ext_iff.1 (Except.ok.inj h)
    rfl
  | succ n ih =>
    obtain ⟨⟨gap, data'⟩, -, h⟩ := bind_eq_ok.1 h
    obtain ⟨⟨high, data''⟩, -, h⟩ := bind_eq_ok.1 h
    obtain ⟨-, h⟩ := check_eq_ok.1 h
    obtain ⟨bits, -, h⟩ := bind_eq_ok.1 h
    obtain ⟨slot, -, h⟩ := bind_eq_ok.1 h
    rw [ih h, List.length_modify]

theorem length_decode {data rest : List UInt8} {slots values : List UInt32}
    (h : decode data slots = .ok (values, rest)) : values.length = slots.length := by
  cases data with
  | nil => cases h
  | cons header data =>
    obtain ⟨-, h⟩ := check_eq_ok.1 h
    obtain ⟨⟨frames, data'⟩, hframes, h⟩ := bind_eq_ok.1 h
    obtain ⟨⟨count, data''⟩, -, h⟩ := bind_eq_ok.1 h
    obtain ⟨-, h⟩ := check_eq_ok.1 h
    have hle := Nat.div_mul_le_self slots.length granule
    rw [length_patch h, List.length_append, List.length_drop, length_decodeFrames hframes]
    omega

theorem length_patchList_le (width : Nat) (deltas : List UInt32) {gap : Nat}
    (h : gap + deltas.length < 2 ^ 64) :
    (patchList (exceptionsFrom width gap deltas)).length ≤ 20 * deltas.length := by
  induction deltas generalizing gap with
  | nil => exact Nat.le_refl _
  | cons delta deltas ih =>
    rw [List.length_cons] at h ⊢
    rw [exceptionsFrom]
    split
    · have hhigh : delta.toNat >>> width < 2 ^ 64 :=
        Nat.lt_of_le_of_lt (Nat.shiftRight_le _ _) (Nat.lt_trans delta.toNat_lt (by decide))
      have hfirst := Base128.length_encode_le_ten (n := gap) (by omega)
      have hsecond := Base128.length_encode_le_ten hhigh
      have hrest : (patchList (exceptionsFrom width 1 deltas)).length ≤ _ := ih (by omega)
      rw [patchList, List.flatMap_cons, List.length_append, List.length_append, ← patchList]
      omega
    · exact Nat.le_trans (ih (by omega)) (by omega)

theorem length_flatMap_pack (width : Nat) {frames : List (List UInt32)}
    (h : ∀ frame ∈ frames, frame.length = granule) :
    8 * (frames.flatMap (packFrame width)).length = width * frames.flatten.length := by
  induction frames with
  | nil => rfl
  | cons frame frames ih =>
    have hframe := h frame List.mem_cons_self
    have hframes := ih fun frame' hmem => h frame' (List.mem_cons_of_mem _ hmem)
    rw [List.flatMap_cons, List.flatten_cons, List.length_append, List.length_append, Nat.mul_add,
      Nat.mul_add, hframes, packFrame, Frame.straight_lawful.length_pack,
      Frame.straight_lawful.bytes_eq, hframe, granule, Nat.mul_comm _ width]

/-- A block takes at most twenty-four bytes a difference, and eleven more. -/
theorem length_encode_le {deltas : List UInt32} (h : granule ∣ deltas.length)
    (hlen : deltas.length < 2 ^ 64) :
    (encode deltas).length ≤ 11 + 24 * deltas.length := by
  have hframes := length_flatMap_pack (chooseWidth deltas) (Cut.length_of_mem_rows h)
  rw [Cut.flatten_rows (by decide)] at hframes
  have hwidth := Nat.mul_le_mul_right deltas.length (chooseWidth_le deltas)
  have hcount := length_exceptionsFrom_le (chooseWidth deltas) 0 deltas
  have hheader := Base128.length_encode_le_ten (Nat.lt_of_le_of_lt hcount hlen)
  have hpatches : (patchList (exceptions (chooseWidth deltas) deltas)).length ≤ _ :=
    length_patchList_le (chooseWidth deltas) deltas (by omega)
  rw [encode, encodeAt, List.length_append, List.length_append, List.length_cons, ← patchList]
  rw [← exceptions] at hheader
  omega

/-! ## The cheapest width -/

theorem patchBytes_eq (patches : List (Nat × Nat)) :
    patchBytes patches = (patchList patches).length := by
  induction patches with
  | nil => rfl
  | cons patch patches ih =>
    rw [patchList, List.flatMap_cons, List.length_append, List.length_append, Base128.length_encode,
      Base128.length_encode, ← patchList, ← ih]
    rfl

/-- The cost of a width is the number of bytes at that width. -/
theorem length_encodeAt (width : Nat) {deltas : List UInt32} (h : granule ∣ deltas.length) :
    (encodeAt width deltas).length = cost width deltas := by
  have hframes := length_flatMap_pack width (Cut.length_of_mem_rows h)
  rw [Cut.flatten_rows (by decide)] at hframes
  rw [encodeAt, cost, List.length_append, List.length_append, List.length_cons, ← patchList,
    ← patchBytes_eq, Base128.length_encode, Nat.mul_comm deltas.length, ← hframes,
    Nat.mul_div_cancel_left _ (by decide)]
  omega

/-- The width that is chosen is the cheapest of the width of the largest difference and the narrower
ones. -/
theorem best_spec (deltas : List UInt32) : (best deltas).2 = cost (best deltas).1 deltas ∧
    ∀ width ≤ Word.commonWidth (deltas.map UInt32.toNat), (best deltas).2 ≤ cost width deltas := by
  suffices h : ∀ (widths : List Nat) (first : Nat × Nat), first.2 = cost first.1 deltas →
      let last := widths.foldl (fun best width =>
        let bytes := cost width deltas
        if bytes < best.2 then (width, bytes) else best) first
      last.2 = cost last.1 deltas ∧ last.2 ≤ first.2 ∧
      ∀ width ∈ widths, last.2 ≤ cost width deltas by
    obtain ⟨hcost, hwidest, hrange⟩ := h (List.range (Word.commonWidth (deltas.map UInt32.toNat)))
      (Word.commonWidth (deltas.map UInt32.toNat),
        cost (Word.commonWidth (deltas.map UInt32.toNat)) deltas) rfl
    refine ⟨hcost, fun width hwidth => ?_⟩
    rcases Nat.eq_or_lt_of_le hwidth with rfl | hlt
    · exact hwidest
    · exact hrange width (List.mem_range.2 hlt)
  intro widths
  induction widths with
  | nil => exact fun first hfirst => ⟨hfirst, Nat.le_refl _, nofun⟩
  | cons width widths ih =>
    intro first hfirst
    rw [List.foldl_cons]
    dsimp only
    split
    · rename_i hlt
      obtain ⟨hcost, hle, hrange⟩ := ih (width, cost width deltas) rfl
      refine ⟨hcost, Nat.le_trans hle (Nat.le_of_lt hlt), ?_⟩
      rintro width' (_ | ⟨_, hmem⟩)
      · exact hle
      · exact hrange width' hmem
    · rename_i hge
      obtain ⟨hcost, hle, hrange⟩ := ih first hfirst
      refine ⟨hcost, hle, ?_⟩
      rintro width' (_ | ⟨_, hmem⟩)
      · exact Nat.le_trans hle (Nat.le_of_not_lt hge)
      · exact hrange width' hmem

theorem length_encode {deltas : List UInt32} (h : granule ∣ deltas.length) :
    (encode deltas).length = encodedSize deltas := by
  rw [encode, length_encodeAt _ h, chooseWidth, ← (best_spec deltas).1, encodedSize]

/-- At width 0 every difference that is not 0 has a patch, of at most twenty bytes. -/
theorem length_patchList_le_of_zeros (deltas : List UInt32) {gap n : Nat}
    (h : gap + deltas.length < 2 ^ 64) (hzeros : ∀ delta ∈ deltas.drop n, delta = 0) :
    (patchList (exceptionsFrom 0 gap deltas)).length ≤ 20 * n := by
  induction deltas generalizing gap n with
  | nil => exact Nat.zero_le _
  | cons delta deltas ih =>
    rw [List.length_cons] at h
    cases n with
    | zero =>
      obtain rfl : delta = 0 := hzeros delta List.mem_cons_self
      have hzero : isException 0 0 = false := by decide
      rw [exceptionsFrom, hzero]
      exact ih (by omega) fun delta hdelta => hzeros delta (List.mem_cons_of_mem _ hdelta)
    | succ n =>
      rw [exceptionsFrom]
      split
      · have hhigh : delta.toNat >>> 0 < 2 ^ 64 := Nat.lt_trans delta.toNat_lt (by decide)
        have hfirst := Base128.length_encode_le_ten (n := gap) (by omega)
        have hsecond := Base128.length_encode_le_ten hhigh
        have hrest : (patchList (exceptionsFrom 0 1 deltas)).length ≤ 20 * n := ih (by omega) hzeros
        rw [patchList, List.flatMap_cons, List.length_append, List.length_append, ← patchList]
        omega
      · exact Nat.le_trans (ih (by omega) hzeros) (by omega)

/-- A block with differences only among its first `n` takes at most twenty bytes for each of these,
and eleven more. -/
theorem length_encode_le_of_zeros {deltas : List UInt32} (h : granule ∣ deltas.length)
    (hlen : deltas.length < 2 ^ 64) {n : Nat} (hzeros : ∀ delta ∈ deltas.drop n, delta = 0) :
    (encode deltas).length ≤ 11 + 20 * n := by
  have hle := (best_spec deltas).2 0 (Nat.zero_le _)
  have hcount := length_exceptionsFrom_le 0 0 deltas
  have hheader := Base128.length_encode_le_ten (Nat.lt_of_le_of_lt hcount hlen)
  have hpatches :=
    length_patchList_le_of_zeros deltas (by omega : 0 + deltas.length < 2 ^ 64) hzeros
  rw [Base128.length_encode] at hheader
  rw [cost, Nat.mul_zero, Nat.zero_div, patchBytes_eq, exceptions] at hle
  rw [length_encode h, encodedSize]
  omega

end SampledSeq.Patched
