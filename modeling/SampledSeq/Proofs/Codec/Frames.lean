import SampledSeq.Codec
import SampledSeq.Proofs.Bits.View
import SampledSeq.Proofs.Outcome

/-!
# Frames come back

Both packers are lawful, and the laws are all that the codecs use of them. For fixed-width blocks
they are nearly everything: a block is its frames, each with its width in front.
-/

/-!
## Packers

Unpacking a frame of either layout gives the lowest `width` bits of every value
(`Straight.unpack_pack`, `Interleaved.unpack_pack`). So a frame whose values fit its width comes
back as it was, which is what `straight_lawful` and `interleaved_lawful` promise to the codecs.
-/

namespace SampledSeq.Frame

/-- What the codecs rely on: the lengths of frames, and that values come back that have no bits
above the width. -/
structure Packer.Lawful (p : Packer) : Prop where
  size_pos : 0 < p.size
  bytes_eq : ∀ width, 8 * p.bytes width = p.size * width
  length_pack : ∀ width values, (p.pack width values).length = p.bytes width
  length_unpack : ∀ width frame, (p.unpack width frame).length = p.size
  unpack_pack : ∀ {width values}, values.length = p.size → (∀ v ∈ values, v.toNat < 2 ^ width) →
    p.unpack width (p.pack width values) = values
  numBits_le_iff : ∀ {values width}, p.numBits values ≤ width ↔ ∀ v ∈ values, v.toNat < 2 ^ width

theorem base_eq (width : Nat) : base width = 2 ^ width := Nat.one_shiftLeft width

theorem base_pos (width : Nat) : 0 < base width := by
  rw [base_eq]
  exact Nat.two_pow_pos width

/-! ### Columns -/

@[simp] theorem length_columns (n : Nat) (table : List (List Nat)) :
    (columns n table).length = n := by
  simp [columns]

theorem length_of_mem_columns {n : Nat} {table : List (List Nat)} :
    ∀ column ∈ columns n table, column.length = table.length := by
  intro column h
  obtain ⟨k, -, rfl⟩ := List.mem_map.1 h
  simp

/-- An entry of a column is an entry of a row, or the zero behind a row that is too short. -/
theorem mem_flatten_columns {n x : Nat} {table : List (List Nat)}
    (h : x ∈ (columns n table).flatten) :
    x = 0 ∨ ∃ row ∈ table, x ∈ row := by
  obtain ⟨column, hcolumn, hx⟩ := List.mem_flatten.1 h
  obtain ⟨k, -, rfl⟩ := List.mem_map.1 hcolumn
  obtain ⟨row, hrow, rfl⟩ := List.mem_map.1 hx
  by_cases hk : k < row.length
  · exact Or.inr ⟨row, hrow, by simp [hk]⟩
  · exact Or.inl (by simp [hk])

/-- The columns of the columns of a rectangle are its rows. -/
theorem columns_columns {n : Nat} {table : List (List Nat)} (h : ∀ row ∈ table, row.length = n) :
    columns table.length (columns n table) = table := by
  apply List.ext_getElem (by simp)
  intro i hi hi'
  have hrow := h table[i] (List.getElem_mem hi')
  apply List.ext_getElem (by simp [columns, hrow])
  intro k hk hk'
  simp [columns, hi', hk']

/-- A function that keeps zero can be applied before or after taking columns. -/
theorem columns_map {f : Nat → Nat} (h0 : f 0 = 0) (n : Nat) (table : List (List Nat)) :
    columns n (table.map (List.map f)) = (columns n table).map (List.map f) := by
  have hentry : ∀ (row : List Nat) (k : Nat), (row.map f).getD k 0 = f (row.getD k 0) := by
    intro row k
    by_cases hk : k < row.length <;> simp [hk, h0]
  simp only [columns, List.map_map]
  refine List.map_congr_left fun k _ => ?_
  simp only [Function.comp_apply, List.map_map]
  exact List.map_congr_left fun row _ => hentry row k

/-! ### Lanes -/

theorem mod_lt_of_mem (width : Nat) (values : List Nat) :
    ∀ d ∈ values.map (· % base width), d < base width := by
  intro d hd
  obtain ⟨x, -, rfl⟩ := List.mem_map.1 hd
  exact Nat.mod_lt _ (base_pos width)

theorem packLane_lt (width : Nat) (values : List Nat) :
    packLane width values < (base width) ^ values.length := by
  simpa [packLane] using Numeral.ofDigits_lt (mod_lt_of_mem width values)

theorem digits_packLane (width : Nat) (values : List Nat) :
    Numeral.digits (base width) values.length (packLane width values) =
      values.map (· % base width) := by
  simpa [packLane] using Numeral.digits_ofDigits (mod_lt_of_mem width values)

def low (width : Nat) (value : UInt32) : UInt32 := UInt32.ofNat (value.toNat % base width)

theorem low_eq_self {width : Nat} {value : UInt32} (h : value.toNat < base width) :
    low width value = value := by
  rw [low, Nat.mod_eq_of_lt h, UInt32.ofNat_toNat]

/-! ### Straight frames -/

@[simp] theorem Straight.length_pack (width : Nat) (values : List UInt32) :
    (Straight.pack width values).length = Straight.bytes width := by
  simp [Straight.pack]

theorem Straight.unpack_pack (width : Nat) {values : List UInt32}
    (h : values.length = Straight.size) :
    Straight.unpack width (Straight.pack width values) = values.map (low width) := by
  have hlt : packLane width (values.map UInt32.toNat) < 256 ^ Straight.bytes width := by
    have := packLane_lt width (values.map UInt32.toNat)
    rw [List.length_map, h, base_eq, ← Nat.pow_mul] at this
    rw [show (256 : Nat) = 2 ^ 8 from rfl, ← Nat.pow_mul]
    have hbits : 8 * Straight.bytes width = width * Straight.size := by
      simp only [Straight.bytes, Straight.size]
      omega
    rwa [hbits]
  have hdigits := digits_packLane width (values.map UInt32.toNat)
  rw [List.length_map, h] at hdigits
  rw [Straight.unpack, Straight.pack, Numeral.ofBytes_toBytes, Nat.mod_eq_of_lt hlt, hdigits]
  simp [low, Function.comp_def]

/-! ### Interleaved frames -/

theorem ofBytes_rows_toBytes {words : List Nat} (h : ∀ n ∈ words, n < base 32) :
    (Cut.rows 4 (words.flatMap (Numeral.toBytes 4))).map Numeral.ofBytes = words := by
  rw [List.flatMap_def, Cut.rows_flatten (by decide) (by simp), List.map_map]
  conv => rhs; rw [← List.map_id words]
  refine List.map_congr_left fun n hn => ?_
  rw [Function.comp_apply, Numeral.ofBytes_toBytes, id]
  exact Nat.mod_eq_of_lt (h n hn)

/-- A lane of 32 values comes back from its words. -/
theorem digits_ofDigits_lane {width : Nat} {lane : List Nat} (h : lane.length = 32) :
    Numeral.digits (base width) 32
        (Numeral.ofDigits (base 32) (Numeral.digits (base 32) width (packLane width lane))) =
      lane.map (· % base width) := by
  have hlt := packLane_lt width lane
  rw [h, base_eq, ← Nat.pow_mul, Nat.mul_comm, Nat.pow_mul, ← base_eq] at hlt
  rw [Numeral.ofDigits_digits, Nat.mod_eq_of_lt hlt, ← h, digits_packLane]

@[simp] theorem Interleaved.length_pack (width : Nat) (values : List UInt32) :
    (Interleaved.pack width values).length = Interleaved.bytes width := by
  have hfour : ∀ words : List Nat,
      (words.flatMap (Numeral.toBytes 4)).length = words.length * 4 := by
    intro words
    induction words with
    | nil => rfl
    | cons n words ih =>
      rw [List.flatMap_cons, List.length_append, ih, Numeral.length_toBytes, List.length_cons]
      omega
  rw [Interleaved.pack, hfour, List.length_flatten, List.map_congr_left length_of_mem_columns]
  simp only [List.map_const', List.sum_replicate_nat, List.length_map, length_columns]
  rw [Interleaved.bytes]
  omega

theorem Interleaved.unpack_pack (width : Nat) {values : List UInt32}
    (h : values.length = Interleaved.size) :
    Interleaved.unpack width (Interleaved.pack width values) = values.map (low width) := by
  have hdvd : 4 ∣ (values.map UInt32.toNat).length := by
    rw [List.length_map, h]
    decide
  have hrows := Cut.length_of_mem_rows hdvd
  have hcount : (Cut.rows 4 (values.map UInt32.toNat)).length = 32 := by
    rw [Cut.length_rows (by decide) hdvd, List.length_map, h]
    rfl
  have hback := columns_columns hrows
  have hlanes := @length_of_mem_columns 4 (Cut.rows 4 (values.map UInt32.toNat))
  have hlen := length_columns 4 (Cut.rows 4 (values.map UInt32.toNat))
  simp only [Interleaved.unpack, Interleaved.pack]
  generalize columns 4 (Cut.rows 4 (values.map UInt32.toNat)) = lanes at hback hlanes hlen
  rw [hcount] at hback hlanes
  have hwidth : ∀ row ∈ lanes.map fun lane => Numeral.digits (base 32) width (packLane width lane),
      row.length = width := by
    intro row hrow
    obtain ⟨lane, -, rfl⟩ := List.mem_map.1 hrow
    simp
  have hword : ∀ n ∈ (columns width
      (lanes.map fun lane => Numeral.digits (base 32) width (packLane width lane))).flatten,
      n < base 32 := by
    intro n hn
    rcases mem_flatten_columns hn with rfl | ⟨row, hrow, hmem⟩
    · decide
    · obtain ⟨lane, -, rfl⟩ := List.mem_map.1 hrow
      exact Numeral.digits_lt (by decide) _ _ n hmem
  have hwords := columns_columns hwidth
  rw [List.length_map, hlen] at hwords
  rw [ofBytes_rows_toBytes hword, Cut.rows_flatten (by decide) (by
    intro row hrow
    rw [length_of_mem_columns row hrow, List.length_map, hlen]), hwords, List.map_map]
  have hlow :
      lanes.map ((fun lane => Numeral.digits (base width) 32 (Numeral.ofDigits (base 32) lane)) ∘
        fun lane => Numeral.digits (base 32) width (packLane width lane)) =
      lanes.map (List.map (· % base width)) :=
    List.map_congr_left fun lane hlane => digits_ofDigits_lane (hlanes lane hlane)
  rw [hlow, columns_map (f := fun x => x % base width) (Nat.zero_mod _), hback, ← List.map_flatten,
    Cut.flatten_rows (by decide)]
  simp [low, Function.comp_def]

theorem Interleaved.length_unpack (width : Nat) (frame : List UInt8) :
    (Interleaved.unpack width frame).length = Interleaved.size := by
  rw [Interleaved.unpack, List.length_map, List.length_flatten,
    List.map_congr_left length_of_mem_columns]
  simp only [List.length_map, length_columns, List.map_const', List.sum_replicate_nat,
    Interleaved.size]

/-! ### The laws -/

/-- Nothing is cut off from values that fit. -/
theorem map_low_eq_self {width : Nat} {values : List UInt32}
    (h : ∀ v ∈ values, v.toNat < 2 ^ width) :
    values.map (low width) = values := by
  conv => rhs; rw [← List.map_id values]
  refine List.map_congr_left fun v hv => low_eq_self ?_
  rw [base_eq]
  exact h v hv

theorem numBits_le_iff {values : List UInt32} {width : Nat} :
    numBits values ≤ width ↔ ∀ v ∈ values, v.toNat < 2 ^ width := by
  rw [numBits, Word.commonWidth_le_iff]
  simp

theorem straight_lawful : straight.Lawful where
  size_pos := by decide
  bytes_eq width := by
    show 8 * (4 * width) = 32 * width
    omega
  length_pack := Straight.length_pack
  length_unpack width frame := by
    show (Straight.unpack width frame).length = 32
    simp [Straight.unpack, Straight.size]
  unpack_pack hlen hfit := (Straight.unpack_pack _ hlen).trans (map_low_eq_self hfit)
  numBits_le_iff := numBits_le_iff

theorem interleaved_lawful : interleaved.Lawful where
  size_pos := by decide
  bytes_eq width := by
    show 8 * (16 * width) = 128 * width
    omega
  length_pack := Interleaved.length_pack
  length_unpack := Interleaved.length_unpack
  unpack_pack hlen hfit := (Interleaved.unpack_pack _ hlen).trans (map_low_eq_self hfit)
  numBits_le_iff := numBits_le_iff

namespace Packer

variable {p : Packer} {width : Nat} {values : List UInt32}

/-- A frame is read back from the head of what it was written in front of. -/
theorem Lawful.read_pack (h : p.Lawful) (hwidth : width ≤ 32) (hlen : values.length = p.size)
    (hfit : ∀ v ∈ values, v.toNat < 2 ^ width) (short : Corruption) (rest : List UInt8) :
    p.read short width (p.pack width values ++ rest) = .ok (values, rest) := by
  have hcut := Cut.exact_append (p.pack width values) rest
  rw [h.length_pack] at hcut
  simp only [read, hcut, Position.below_eq_ok (Nat.lt_succ_of_le hwidth), ok_bind,
    h.unpack_pack hlen hfit, pure_eq_ok]

theorem Lawful.length_read (h : p.Lawful) {short : Corruption} {data rest : List UInt8}
    (hread : p.read short width data = .ok (values, rest)) : values.length = p.size := by
  unfold read at hread
  split at hread
  · cases hread
  · obtain ⟨width', -, hread⟩ := bind_eq_ok.1 hread
    obtain ⟨rfl, -⟩ := Prod.mk.inj (Except.ok.inj hread)
    exact h.length_unpack _ _

end Packer

end SampledSeq.Frame

/-!
## Fixed-width blocks

A frame at its own width loses nothing, so a block of whole frames is decoded to its differences and
to whatever stands behind it (`decode_encode`). Whatever is decoded fills all slots
(`length_decode`).
-/

namespace SampledSeq.FixedWidth

/-! ### Frames -/

theorem frameWidth_le (frame : List UInt32) : frameWidth frame ≤ 32 :=
  Frame.interleaved_lawful.numBits_le_iff.2 fun delta _ => delta.toNat_lt

theorem encodeFrameOnto_eq (out : Array UInt8) (frame : List UInt32) :
    encodeFrameOnto out frame = out ++ encodeFrame frame := by
  simp [encodeFrameOnto, encodeFrame]

theorem decodeFrame_encodeFrame {frame : List UInt32} (h : frame.length = granule)
    (rest : List UInt8) :
    decodeFrame (encodeFrame frame ++ rest) = .ok (frame, rest) := by
  have hwidth := frameWidth_le frame
  have hheader : (UInt8.ofNat (frameWidth frame)).toNat = frameWidth frame :=
    UInt8.toNat_ofNat_of_lt' (Nat.lt_of_le_of_lt hwidth (by decide))
  simp only [encodeFrame, List.cons_append, decodeFrame, hheader, if_neg (Nat.not_lt_of_le hwidth)]
  exact Frame.interleaved_lawful.read_pack hwidth h
    (Frame.interleaved_lawful.numBits_le_iff.1 (Nat.le_refl _)) _ rest

theorem decodeFrames_flatMap {frames : List (List UInt32)}
    (h : ∀ frame ∈ frames, frame.length = granule) (rest : List UInt8) :
    decodeFrames frames.length (frames.flatMap encodeFrame ++ rest) =
      .ok (frames.flatten, rest) := by
  induction frames with
  | nil => rfl
  | cons frame frames ih =>
    rw [List.length_cons, List.flatMap_cons, List.append_assoc, decodeFrames,
      decodeFrame_encodeFrame (h frame List.mem_cons_self), ok_bind]
    simp only [ih fun frame' hframe => h frame' (List.mem_cons_of_mem _ hframe), ok_bind,
      List.flatten_cons, pure_eq_ok]

/-! ### Blocks -/

theorem encodeOnto_eq (out : Array UInt8) (deltas : List UInt32) :
    encodeOnto out deltas = out ++ encode deltas :=
  Cut.foldl_append encodeFrameOnto_eq _ _

theorem decode_encode {deltas slots : List UInt32} (h : granule ∣ deltas.length)
    (hs : slots.length = deltas.length) (rest : List UInt8) :
    decode (encode deltas ++ rest) slots = .ok (deltas, rest) := by
  have hpos : 0 < granule := by decide
  have hframes := decodeFrames_flatMap (Cut.length_of_mem_rows h) rest
  rw [Cut.length_rows hpos h, Cut.flatten_rows hpos] at hframes
  rw [decode, hs, encode, hframes, ok_bind]
  simp only [List.drop_of_length_le (Nat.le_of_eq hs), List.append_nil, pure_eq_ok]

/-! ### Lengths -/

theorem length_decodeFrame {data rest : List UInt8} {frame : List UInt32}
    (h : decodeFrame data = .ok (frame, rest)) :
    frame.length = granule := by
  cases data with
  | nil => cases h
  | cons header data =>
    rw [decodeFrame] at h
    split at h
    · cases h
    · exact Frame.interleaved_lawful.length_read h

theorem length_decodeFrames {n : Nat} {data rest : List UInt8} {values : List UInt32}
    (h : decodeFrames n data = .ok (values, rest)) : values.length = n * granule := by
  induction n generalizing data values rest with
  | zero =>
    obtain ⟨rfl, -⟩ := Prod.ext_iff.1 (Except.ok.inj h)
    simp
  | succ n ih =>
    obtain ⟨⟨frame, data'⟩, hframe, h⟩ := bind_eq_ok.1 h
    obtain ⟨⟨frames, data''⟩, hframes, h⟩ := bind_eq_ok.1 h
    obtain ⟨rfl, -⟩ := Prod.ext_iff.1 (Except.ok.inj h)
    rw [List.length_append, length_decodeFrame hframe, ih hframes, Nat.succ_mul, Nat.add_comm]

theorem length_decode {data rest : List UInt8} {slots values : List UInt32}
    (h : decode data slots = .ok (values, rest)) : values.length = slots.length := by
  obtain ⟨⟨frames, rest'⟩, hframes, h⟩ := bind_eq_ok.1 h
  obtain ⟨rfl, -⟩ := Prod.ext_iff.1 (Except.ok.inj h)
  have hle := Nat.div_mul_le_self slots.length granule
  rw [List.length_append, List.length_drop, length_decodeFrames hframes]
  omega

theorem length_encodeFrame (frame : List UInt32) :
    (encodeFrame frame).length = 1 + 16 * frameWidth frame := by
  rw [encodeFrame, List.length_cons, Frame.interleaved_lawful.length_pack, Nat.add_comm]
  rfl

theorem length_encode (deltas : List UInt32) : (encode deltas).length = encodedSize deltas := by
  rw [encode, encodedSize]
  induction Cut.rows granule deltas with
  | nil => rfl
  | cons frame frames ih =>
    rw [List.flatMap_cons, List.length_append, List.foldr_cons, ih, length_encodeFrame]
    rfl

theorem length_flatMap_encodeFrame_le {frames : List (List UInt32)}
    (h : ∀ frame ∈ frames, frame.length = granule) :
    (frames.flatMap encodeFrame).length ≤ 5 * frames.flatten.length := by
  induction frames with
  | nil => exact Nat.le_refl _
  | cons frame frames ih =>
    have hframe := h frame List.mem_cons_self
    have hwidth := frameWidth_le frame
    have hframes := ih fun frame' hmem => h frame' (List.mem_cons_of_mem _ hmem)
    have hsize : granule = 128 := rfl
    simp only [List.flatMap_cons, List.flatten_cons, List.length_append, length_encodeFrame]
    omega

/-- A block takes at most five bytes a difference. -/
theorem length_encode_le {deltas : List UInt32} (h : granule ∣ deltas.length) :
    (encode deltas).length ≤ 5 * deltas.length := by
  have hlen := length_flatMap_encodeFrame_le (Cut.length_of_mem_rows h)
  rwa [Cut.flatten_rows (by decide)] at hlen

theorem frameWidth_zeros {frame : List UInt32} (h : ∀ delta ∈ frame, delta = 0) :
    frameWidth frame = 0 := by
  apply Nat.le_zero.1
  refine Frame.interleaved_lawful.numBits_le_iff.2 fun delta hdelta => ?_
  rw [h delta hdelta]
  decide

/-- Frames without a difference take a byte each, and the frames of the first `n` differences at
most 513. -/
theorem length_encode_le_of_zeros {deltas : List UInt32} (h : granule ∣ deltas.length) {n : Nat}
    (hzeros : ∀ delta ∈ deltas.drop n, delta = 0) :
    (encode deltas).length ≤ deltas.length / granule + 512 * ((n + 127) / 128) := by
  have hpos : 0 < granule := by decide
  rw [encode, ← Cut.length_rows hpos h]
  clear h
  fun_induction Cut.rows granule deltas generalizing n with
  | case1 deltas h => simp
  | case2 deltas hne ih =>
    have hrest : ∀ delta ∈ (deltas.drop granule).drop (n - granule), delta = 0 := by
      intro delta hdelta
      rw [List.drop_drop] at hdelta
      exact hzeros delta (List.drop_subset_drop_left deltas (by omega) hdelta)
    have hframes := ih hrest
    have hwidth := frameWidth_le (deltas.take granule)
    have hsize : granule = 128 := rfl
    rw [List.flatMap_cons, List.length_append, List.length_cons, length_encodeFrame]
    simp only [hsize] at hframes hwidth ⊢
    by_cases h0 : n = 0
    · subst h0
      have hwidth0 : frameWidth (deltas.take 128) = 0 :=
        frameWidth_zeros fun delta hdelta => hzeros delta (List.mem_of_mem_take hdelta)
      rw [hwidth0]
      omega
    · omega

end SampledSeq.FixedWidth
