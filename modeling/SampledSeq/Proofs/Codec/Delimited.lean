import SampledSeq.Codec
import SampledSeq.Proofs.Base128
import SampledSeq.Proofs.Codec.Frames
import SampledSeq.Proofs.Codec.Patched
import SampledSeq.Proofs.Stream

/-!
# A block ends where its own bytes say

What is known of each of the two codecs is known of `Codec`: blocks come back from wherever they
stand (`decodeCounting_encode`), and whatever bytes a codec is given, it takes a block from the head
of them or reports an inconsistent stream (`decoded_bytes_are_delimited`).
-/

/-! ## Both codecs -/

namespace SampledSeq.Codec

variable {codec : Codec} {deltas slots : List UInt32}

theorem encodeOnto_eq (out : Array UInt8) (deltas : List UInt32) :
    codec.encodeOnto out deltas = out ++ codec.encode deltas := by
  cases codec with
  | fixedWidth => exact FixedWidth.encodeOnto_eq out deltas
  | patched => exact Patched.encodeOnto_eq out deltas

theorem decode_encode (h : codec.granule ∣ deltas.length) (hlen : deltas.length < 2 ^ 64)
    (hs : slots.length = deltas.length) (rest : List UInt8) :
    codec.decode (codec.encode deltas ++ rest) slots = .ok (deltas, rest) := by
  cases codec with
  | fixedWidth => exact FixedWidth.decode_encode h hs rest
  | patched => exact Patched.decode_encode h hlen hs rest

theorem length_decode {data rest : List UInt8} {values : List UInt32}
    (h : codec.decode data slots = .ok (values, rest)) : values.length = slots.length := by
  cases codec with
  | fixedWidth => exact FixedWidth.length_decode h
  | patched => exact Patched.length_decode h

theorem length_encode_le (h : codec.granule ∣ deltas.length) (hlen : deltas.length < 2 ^ 64) :
    (codec.encode deltas).length ≤ 11 + 24 * deltas.length := by
  cases codec with
  | fixedWidth =>
    have hle := FixedWidth.length_encode_le h
    rw [encode]
    omega
  | patched => exact Patched.length_encode_le h hlen

/-- Zeros behind the first `n` differences take next to nothing. -/
theorem length_encode_le_of_zeros (h : codec.granule ∣ deltas.length)
    (hlen : deltas.length < 2 ^ 64) {n : Nat} (hzeros : ∀ delta ∈ deltas.drop n, delta = 0) :
    (codec.encode deltas).length ≤ deltas.length / 128 + 20 * n + 512 := by
  cases codec with
  | fixedWidth =>
    have hle : (encode .fixedWidth deltas).length ≤ _ :=
      FixedWidth.length_encode_le_of_zeros h hzeros
    have hsize : FixedWidth.granule = 128 := rfl
    rw [hsize] at hle
    omega
  | patched =>
    have hle : (encode .patched deltas).length ≤ _ :=
      Patched.length_encode_le_of_zeros h hlen hzeros
    omega

theorem encode_ne_nil (h : deltas ≠ []) : codec.encode deltas ≠ [] := by
  cases codec with
  | fixedWidth =>
    have hne : ¬ (FixedWidth.granule = 0 ∨ deltas = []) := by
      rintro (h0 | h0)
      · exact absurd h0 (by decide)
      · exact h h0
    rw [encode, FixedWidth.encode, Cut.rows, dif_neg hne]
    exact List.cons_ne_nil _ _
  | patched => exact List.cons_ne_nil _ _

end SampledSeq.Codec

/-!
## Blocks come back from wherever they stand

An encoder only ever appends: whatever was written before stays (`encodeOnto_eq`), and the size that
is computed for the block is what is added (`length_encode`). A decoder finds the end of the block
by itself, whatever stands behind it, and counts the bytes up to there (`decodeCounting_encode`).
What the slots held before is gone.
-/

namespace SampledSeq.Codec

variable {codec : Codec} {deltas slots : List UInt32}

theorem length_encode (h : codec.granule ∣ deltas.length) :
    (codec.encode deltas).length = codec.encodedSize deltas := by
  cases codec with
  | fixedWidth => exact FixedWidth.length_encode deltas
  | patched => exact Patched.length_encode h

theorem decodeCounting_of_decode {used rest : List UInt8} {values : List UInt32}
    (h : codec.decode (used ++ rest) slots = .ok (values, rest)) :
    codec.decodeCounting (used ++ rest) slots = .ok (values, used.length) := by
  rw [decodeCounting, h, ok_bind]
  simp only [List.length_append, Nat.add_sub_cancel, pure_eq_ok]

theorem decodeCounting_encode (h : codec.granule ∣ deltas.length) (hlen : deltas.length < 2 ^ 64)
    (hs : slots.length = deltas.length) (rest : List UInt8) :
    codec.decodeCounting (codec.encode deltas ++ rest) slots =
      .ok (deltas, (codec.encode deltas).length) :=
  decodeCounting_of_decode (decode_encode h hlen hs rest)

/-- A patched block is appended to anything, in as many bytes as its size says, and is read back
from these bytes in front of anything, into slots of any content. -/
theorem patched_blocks_come_back (h : patched.granule ∣ deltas.length)
    (hlen : deltas.length < 2 ^ 64) (out : Array UInt8) :
    ∃ bytes : List UInt8, patched.encodeOnto out deltas = out ++ bytes ∧
      bytes.length = patched.encodedSize deltas ∧
      ∀ (rest : List UInt8) (slots : List UInt32), slots.length = deltas.length →
        patched.decodeCounting (bytes ++ rest) slots = .ok (deltas, bytes.length) :=
  ⟨patched.encode deltas, encodeOnto_eq out deltas, length_encode h,
    fun rest _ hslots => decodeCounting_encode h hlen hslots rest⟩

/-- Thirty-one differences of one bit, and one of nine bits at the end. -/
def lastOutlier : List UInt32 := List.replicate 31 1 ++ [300]

theorem lastOutlier_comes_back : ∃ bytes : List UInt8,
    patched.encodeOnto #[7, 7] lastOutlier = (#[7, 7] : Array UInt8) ++ bytes ∧ bytes.length = 9 ∧
      patched.decodeCounting (bytes ++ [128]) (List.replicate 32 5) = .ok (lastOutlier, 9) := by
  have hsize : patched.encodedSize lastOutlier = 9 := by decide +kernel
  obtain ⟨bytes, hbytes, hlen, hdecode⟩ :=
    patched_blocks_come_back (by decide : patched.granule ∣ lastOutlier.length) (by decide) #[7, 7]
  rw [hsize] at hlen
  exact ⟨bytes, hbytes, hlen, hlen ▸ hdecode [128] (List.replicate 32 5) (by decide)⟩

end SampledSeq.Codec

/-!
## Codecs on arbitrary bytes

Whatever bytes a codec is given, it fills the slots from the head of them or reports an inconsistent
stream: what it leaves is a suffix of what it was given, so no read lies behind the data
(`Codec.guarded_decode`). No shift of a patch leaves its word on the way, no patch lies behind the
slots, and no packer is given a width above 32 (`Patched.guarded_raise`, `Patched.guarded_patch`,
`Frame.Packer.guarded_read`): a guard in front of each of these refuses the block first.
-/

namespace SampledSeq

theorem Cut.suffix_of_exact {α : Type} {n : Nat} {xs taken rest : List α}
    (h : Cut.exact n xs = some (taken, rest)) :
    rest <:+ xs :=
  ⟨taken, (Cut.eq_append_of_exact h).1.symm⟩

/-! ### Frames -/

/-- A packer is only given widths that it has frames for. -/
theorem Frame.Packer.guarded_read (p : Packer) (short : Corruption) {width : Nat}
    (hwidth : width ≤ 32) (data : List UInt8) :
    Guarded (fun (_, rest) => rest <:+ data) (p.read short width data) := by
  unfold read
  split
  · exact .corrupt _
  · rename_i hcut
    rw [Position.below_eq_ok (Nat.lt_succ_of_le hwidth), ok_bind]
    exact .ok (Cut.suffix_of_exact hcut)

/-! ### Fixed-width blocks -/

namespace FixedWidth

theorem guarded_decodeFrame (data : List UInt8) :
    Guarded (fun (_, rest) => rest <:+ data) (decodeFrame data) := by
  cases data with
  | nil => exact .corrupt _
  | cons header data =>
    rw [decodeFrame]
    split
    · exact .corrupt _
    · rename_i hwidth
      refine (Frame.interleaved.guarded_read _ (Nat.le_of_not_lt hwidth) data).mono ?_
      rintro ⟨frame, rest⟩ hrest
      exact hrest.trans (List.suffix_cons header data)

theorem guarded_decodeFrames (n : Nat) (data : List UInt8) :
    Guarded (fun (_, rest) => rest <:+ data) (decodeFrames n data) := by
  induction n generalizing data with
  | zero => exact .ok List.suffix_rfl
  | succ n ih =>
    refine (guarded_decodeFrame data).bind ?_
    rintro ⟨frame, data'⟩ hdata'
    refine (ih data').bind ?_
    rintro ⟨frames, rest⟩ hrest
    exact .ok (hrest.trans hdata')

theorem guarded_decode (data : List UInt8) (slots : List UInt32) :
    Guarded (fun (_, rest) => rest <:+ data) (decode data slots) := by
  refine (guarded_decodeFrames _ data).bind ?_
  rintro ⟨frames, rest⟩ hrest
  exact .ok hrest

end FixedWidth

/-! ### Patched blocks -/

namespace Patched

theorem guarded_decodeFrames {width : Nat} (hwidth : width ≤ 32) (n : Nat) (data : List UInt8) :
    Guarded (fun (_, rest) => rest <:+ data) (decodeFrames width n data) := by
  induction n generalizing data with
  | zero => exact .ok List.suffix_rfl
  | succ n ih =>
    refine (Frame.straight.guarded_read _ hwidth data).bind ?_
    rintro ⟨frame, data'⟩ hdata'
    refine (ih data').bind ?_
    rintro ⟨frames, rest⟩ hrest
    exact .ok (hrest.trans hdata')

/-- High bits that do not fit are refused before they are moved: below a width of 32, no shift takes
all bits. -/
theorem guarded_raise (width high : Nat) : Guarded (fun _ => True) (raise width high) := by
  refine .check fun hwidth => ?_
  have hlt : width < 32 := Nat.lt_of_not_le hwidth
  rw [Position.sub_eq_ok (Nat.le_of_lt hlt), ok_bind,
    Position.below_eq_ok (by omega : 32 - width < 64), ok_bind]
  refine .check fun _ => ?_
  rw [Position.below_eq_ok hlt, ok_bind]
  exact .ok trivial

theorem guarded_patch (width n pos : Nat) (slots : List UInt32) (data : List UInt8) :
    Guarded (fun (_, rest) => rest <:+ data) (patch width n pos slots data) := by
  induction n generalizing pos slots data with
  | zero => exact .ok List.suffix_rfl
  | succ n ih =>
    refine (Base128.guarded_decode data).bind ?_
    rintro ⟨gap, afterGap⟩ ⟨-, hgap⟩
    refine (Base128.guarded_decode afterGap).bind ?_
    rintro ⟨high, afterHigh⟩ ⟨-, hhigh⟩
    refine .check fun hslot => (guarded_raise width high).bind fun bits _ => ?_
    rw [Position.below_eq_ok (Nat.lt_of_not_le hslot), ok_bind]
    refine (ih _ _ afterHigh).mono ?_
    rintro ⟨values, rest⟩ hrest
    exact hrest.trans (hhigh.trans hgap)

theorem guarded_decode (data : List UInt8) (slots : List UInt32) :
    Guarded (fun (_, rest) => rest <:+ data) (decode data slots) := by
  cases data with
  | nil => exact .corrupt _
  | cons header data =>
    refine .check fun hwidth => (guarded_decodeFrames (Nat.le_of_not_lt hwidth) _ data).bind ?_
    rintro ⟨frames, afterFrames⟩ hframes
    refine (Base128.guarded_decode afterFrames).bind ?_
    rintro ⟨count, afterCount⟩ ⟨-, hcount⟩
    refine .check fun _ => (guarded_patch _ _ _ _ afterCount).mono ?_
    rintro ⟨values, rest⟩ hrest
    exact (hrest.trans (hcount.trans hframes)).trans (List.suffix_cons header data)

end Patched

/-! ### Both codecs -/

namespace Codec

/-- A codec fills the slots from the head of the data, or reports that the data is not a block. -/
theorem guarded_decode (codec : Codec) (data : List UInt8) (slots : List UInt32) :
    Guarded (fun (values, rest) => values.length = slots.length ∧
      rest <:+ data) (codec.decode data slots) := by
  have hrest : Guarded (fun (_, rest) => rest <:+ data) (codec.decode data slots) := by
    cases codec with
    | fixedWidth => exact FixedWidth.guarded_decode data slots
    | patched => exact Patched.guarded_decode data slots
  rcases hrest with ⟨⟨values, rest⟩, hdecode, hrest⟩ | ⟨cause, hcause⟩
  · exact .inl ⟨_, hdecode, length_decode hdecode, hrest⟩
  · exact .inr ⟨cause, hcause⟩

end Codec

end SampledSeq

/-!
## Delimited decoders

Widths, counts and groups decide while they are read how far a decoder goes. It still sees its bytes
one by one from the head, so its answer depends on the bytes it takes and on nothing behind them: it
is `Delimited`, and so is everything that is put together from delimited steps. Then no part of
these bytes is a block of its own, since on all of them the decoder would stop at the end of that
part as well (`Delimited.part_eq_used`); and what is not a block is reported as an inconsistent
stream (`Codec.guarded_decode`).
-/

namespace SampledSeq

/-- The answer depends on the bytes that are taken, and on nothing behind them. -/
def Delimited {α : Type} (x : List UInt8 → Except Error (α × List UInt8)) : Prop := ∀ ⦃data a rest⦄,
  x data = .ok (a, rest) → ∃ used, data = used ++ rest ∧ ∀ rest', x (used ++ rest') = .ok (a, rest')

namespace Delimited

variable {α β : Type} {x : List UInt8 → Except Error (α × List UInt8)}

theorem ok (a : α) : Delimited fun data => .ok (a, data) := by
  intro data b rest h
  obtain ⟨rfl, rfl⟩ := Prod.mk.inj (Except.ok.inj h)
  exact ⟨[], rfl, fun _ => rfl⟩

/-- Two steps one after the other take the bytes of the first, then those of the second. -/
theorem bind {f : α × List UInt8 → Except Error (β × List UInt8)} (hx : Delimited x)
    (hf : ∀ a, Delimited fun rest => f (a, rest)) : Delimited fun data => x data >>= f := by
  intro data b rest h
  obtain ⟨⟨a, middle⟩, ha, hb⟩ := bind_eq_ok.1 h
  obtain ⟨first, rfl, hfirst⟩ := hx ha
  obtain ⟨second, rfl, hsecond⟩ := hf a hb
  refine ⟨first ++ second, by rw [List.append_assoc], fun rest' => ?_⟩
  dsimp only
  rw [List.append_assoc, hfirst, ok_bind]
  exact hsecond rest'

/-- A decoder may refuse what has been taken so far. -/
theorem check {refused : Prop} [Decidable refused] {cause : Corruption} (hx : Delimited x) :
    Delimited fun data => if refused then SampledSeq.corrupt cause else x data := by
  by_cases h : refused
  · intro data a rest hok
    simp [h] at hok
  · simpa only [if_neg h] using hx

/-- What takes no bytes may decide how to go on. -/
theorem lift {y : Except Error β} {f : β → List UInt8 → Except Error (α × List UInt8)}
    (hf : ∀ b, Delimited (f b)) :
    Delimited fun data => y >>= fun b => f b data := by
  cases y with
  | error e => exact nofun
  | ok b => exact hf b

theorem cons {cause : Corruption} {f : UInt8 → List UInt8 → Except Error (α × List UInt8)}
    (hf : ∀ byte, Delimited (f byte)) : Delimited fun
      | [] => SampledSeq.corrupt cause
      | byte :: data => f byte data := by
  intro data a rest h
  cases data with
  | nil => cases h
  | cons byte data =>
    obtain ⟨used, rfl, hused⟩ := hf byte h
    exact ⟨byte :: used, rfl, hused⟩

theorem exact {n : Nat} {cause : Corruption}
    {f : List UInt8 → List UInt8 → Except Error (α × List UInt8)}
    (hf : ∀ taken, Delimited (f taken)) :
    Delimited fun data => match Cut.exact n data with
      | none => SampledSeq.corrupt cause
      | some (taken, data) => f taken data := by
  intro data a rest h
  dsimp only at h
  split at h
  · cases h
  · rename_i taken data' hcut
    obtain ⟨rfl, rfl⟩ := Cut.eq_append_of_exact hcut
    obtain ⟨used, rfl, hused⟩ := hf taken h
    refine ⟨taken ++ used, by rw [List.append_assoc], fun rest' => ?_⟩
    dsimp only
    rw [List.append_assoc, Cut.exact_append]
    exact hused rest'

/-- No part of the bytes that are taken is enough. -/
theorem part_eq_used (hx : Delimited x) {used part left : List UInt8} {a b : α}
    (hused : ∀ rest, x (used ++ rest) = .ok (a, rest)) (hpart : part <+: used)
    (h : x part = .ok (b, left)) :
    part = used := by
  obtain ⟨more, rfl⟩ := hpart
  -- the bytes taken from the part are taken from the whole as well, where nothing is left
  obtain ⟨taken, rfl, htaken⟩ := hx h
  have hwhole := hused []
  rw [List.append_nil, List.append_assoc, htaken] at hwhole
  obtain ⟨-, hnothing⟩ := List.append_eq_nil_iff.1 (Prod.mk.inj (Except.ok.inj hwhole)).2
  rw [hnothing, List.append_nil]

end Delimited

/-! ### The decoders -/

/-- The bytes of an integer are told apart from what follows by themselves. -/
theorem Base128.delimited_decode : Delimited decode := by
  intro data n rest h
  obtain ⟨used, rfl, hused⟩ := decode_eq_ok_iff.1 h
  exact ⟨used, rfl, fun rest' => decode_eq_ok_iff.2 ⟨used, rfl, hused⟩⟩

theorem Frame.Packer.delimited_read (p : Packer) (short : Corruption) (width : Nat) :
    Delimited (p.read short width) :=
  .exact fun frame => .lift fun width => .ok (p.unpack width frame)

/-! ### Fixed-width blocks -/

namespace FixedWidth

theorem delimited_decodeFrame : Delimited decodeFrame :=
  .cons fun header => .check (Frame.interleaved.delimited_read _ header.toNat)

theorem delimited_decodeFrames (n : Nat) : Delimited (decodeFrames n) := by
  induction n with
  | zero => exact .ok []
  | succ n ih =>
    exact delimited_decodeFrame.bind fun frame => ih.bind fun frames => .ok (frame ++ frames)

theorem delimited_decode (slots : List UInt32) : Delimited (decode · slots) :=
  (delimited_decodeFrames (slots.length / granule)).bind fun values =>
    .ok (values ++ slots.drop values.length)

end FixedWidth

/-! ### Patched blocks -/

namespace Patched

theorem delimited_decodeFrames (width n : Nat) : Delimited (decodeFrames width n) := by
  induction n with
  | zero => exact .ok []
  | succ n ih =>
    exact (Frame.straight.delimited_read _ width).bind fun frame => ih.bind fun frames =>
      .ok (frame ++ frames)

theorem delimited_patch (width n pos : Nat) (slots : List UInt32) :
    Delimited (patch width n pos slots) := by
  induction n generalizing pos slots with
  | zero => exact .ok slots
  | succ n ih =>
    refine Base128.delimited_decode.bind fun gap => Base128.delimited_decode.bind fun high => ?_
    simp only [corrupt_bind]
    exact .check (.lift fun bits => .lift fun slot => ih slot _)

theorem delimited_decode (slots : List UInt32) : Delimited (decode · slots) := by
  refine .cons fun header => .check ?_
  refine (delimited_decodeFrames header.toNat (slots.length / granule)).bind fun values => ?_
  refine Base128.delimited_decode.bind fun count => ?_
  exact .check (delimited_patch _ _ _ _)

end Patched

/-! ### Both codecs -/

namespace Codec

theorem delimited_decode (codec : Codec) (slots : List UInt32) :
    Delimited (codec.decode · slots) := by
  cases codec with
  | fixedWidth => exact FixedWidth.delimited_decode slots
  | patched => exact Patched.delimited_decode slots

theorem decode_part {codec : Codec} {slots values : List UInt32} {used part : List UInt8}
    (hused : ∀ rest, codec.decode (used ++ rest) slots = .ok (values, rest)) (hpart : part <+: used)
    (hne : part ≠ used) :
    ∃ cause, codec.decode part slots = corrupt cause := by
  rcases codec.guarded_decode part slots with ⟨⟨values', left⟩, hdecode, -⟩ | hcause
  · exact absurd ((delimited_decode codec slots).part_eq_used hused hpart hdecode) hne
  · exact hcause

/-- What a codec counts are the bytes of a block, whatever bytes it was given: they are there, they
are read to the same values in front of anything, and none of them can be missing. -/
theorem decoded_bytes_are_delimited (codec : Codec) {data : List UInt8} {slots values : List UInt32}
    {n : Nat} (h : codec.decodeCounting data slots = .ok (values, n)) :
    n ≤ data.length ∧ (∀ rest, codec.decodeCounting (data.take n ++ rest) slots = .ok (values, n)) ∧
      ∀ k < n, ∃ cause, codec.decodeCounting (data.take k) slots = corrupt cause := by
  obtain ⟨⟨values', rest⟩, hdecode, -⟩ := bind_eq_ok.1 h
  obtain ⟨used, rfl, hused⟩ := delimited_decode codec slots hdecode
  have hcount := fun rest => decodeCounting_of_decode (hused rest)
  obtain ⟨rfl, rfl⟩ := Prod.mk.inj (Except.ok.inj ((hcount rest).symm.trans h))
  refine ⟨by simp, fun rest' => ?_, fun k hk => ?_⟩
  · rw [List.take_left]
    exact hcount rest'
  · obtain ⟨hpart, hne⟩ := Cut.take_part hk rest
    obtain ⟨cause, hcause⟩ := decode_part hused hpart hne
    exact ⟨cause, by rw [decodeCounting, hcause, corrupt_bind]⟩

/-- A patch of a block without a whole frame: the exception count takes two groups, the second of
which is empty. -/
theorem longCount_is_delimited :
    patched.decodeCounting [2, 129, 0, 2, 3, 9, 9] [5, 5, 5] = .ok ([5, 5, 13], 5) ∧
    patched.decodeCounting [2, 129, 0, 2, 3, 255] [5, 5, 5] = .ok ([5, 5, 13], 5) ∧
    ∃ cause, patched.decodeCounting [2, 129, 0, 2] [5, 5, 5] = corrupt cause := by
  have hcounted :
      patched.decodeCounting [2, 129, 0, 2, 3, 9, 9] [5, 5, 5] = .ok ([5, 5, 13], 5) := by
    decide
  obtain ⟨-, hread, hcut⟩ := decoded_bytes_are_delimited patched hcounted
  exact ⟨hcounted, hread [255], hcut 4 (by decide)⟩

end Codec

end SampledSeq
