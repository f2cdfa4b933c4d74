import SampledSeq.Proofs.Variant

/-!
# What a header can claim

Length and block size are not stored with each block. What the bytes of a container say about them
all the same is how many blocks there can be, and which block sizes the container can be read with.
-/

/-!
## Short streams have few blocks

What the header of a stream claims about its length is not limited by the bytes that follow by
itself: a table of fields without bits has any number of entries. The check limits it. In a hybrid
sequence every block has its tag in the payload; in a delta-coded one that keeps no blocks out of
the payload, the table has to tell the blocks from the end of the payload. So a stream has at most
four blocks for each of its bytes (`containers_are_not_inflated`). Blocks of consecutive numbers are
kept out of the payload, and of them twenty-five bytes may hold any number (`runs_take_no_bytes`).
-/

namespace SampledSeq

open BlockSequence

/-! ### Tags in the payload -/

namespace HybridSeq

variable {size : Nat} {s : HybridSeq size}

/-- Behind `id` blocks there are at least their tags. -/
theorem tags_le_pointer
    (h : ∀ k < s.numBlocks, ∃ pointer next, s.pointer k = .ok pointer ∧
      s.pointer (k + 1) = .ok next ∧ pointer + BlockKind.tagBits ≤ next)
    {id : Nat} (hid : id ≤ s.numBlocks) {pointer : Nat}
    (hpointer : s.pointer id = .ok pointer) : BlockKind.tagBits * id ≤ pointer := by
  induction id generalizing pointer with
  | zero => exact Nat.zero_le _
  | succ id ih =>
    obtain ⟨previous, next, hprevious, hnext, htag⟩ := h id hid
    obtain rfl : next = pointer := Except.ok.inj (hnext.symm.trans hpointer)
    have hle := ih (Nat.le_of_succ_le hid) hprevious
    rw [Nat.mul_succ]
    omega

theorem Accepted.numBlocks_le (h : s.Accepted) : s.numBlocks ≤ 32 * s.payload.size := by
  obtain ⟨-, bits, hbits, hpayload, hblocks⟩ := checked_iff.1 h.checked
  have htags := tags_le_pointer hblocks (Nat.le_refl _) hbits
  rw [BlockKind.tagBits] at htags
  rw [hpayload, BitWriter.wordsFor]
  omega

theorem numBlocks_le_of_load {bytes : List UInt8} {source : Source}
    (h : load.run { rest := bytes } = .ok (s, source)) :
    s.numBlocks ≤ 4 * bytes.length := by
  obtain ⟨haccepted, hsource⟩ := load_eq_ok.1 h
  have hbytes : bytes = s.stored ++ source.rest := congrArg Source.rest hsource
  have hwords := haccepted.numBlocks_le
  rw [hbytes, List.length_append, length_stored]
  omega

end HybridSeq

/-! ### Bits in the table -/

namespace DeltaSeq

variable {codec : Codec} {size : Nat} {s : DeltaSeq codec size}

/-- A table of fields without bits has nothing but zeros. -/
theorem pointer_of_width_zero (hwidth : s.samples.width = 0) {id : Nat} {pointer : UInt64}
    (h : s.pointer id = .ok pointer) : pointer = 0 := by
  obtain ⟨position, -, h⟩ := bind_eq_ok.1 h
  rw [PackedArray.get] at h
  split at h
  · obtain ⟨start, -, h⟩ := bind_eq_ok.1 h
    rw [hwidth, BitSlice.getBits, if_pos rfl] at h
    exact (Except.ok.inj h).symm
  · cases h

/-- If no block is kept out of the payload, the fields of the table tell the payload length from the
pointers below it. -/
theorem Accepted.width_pos (h : s.Accepted) (hcodec : codec.marksRuns = false)
    (hpos : 0 < s.numBlocks) :
    0 < s.samples.width := by
  obtain ⟨sentinel, hsentinel, hsize⟩ := sentinel_of_check h.checked
  obtain ⟨sample, pointer, hentry⟩ := (entries_of_check h.checked).2 0 hpos
  have hlt := hentry.pointer_lt (by simp [marksRun, hcodec])
  apply Nat.pos_of_ne_zero
  intro hwidth
  have hzero : sentinel.toNat = 0 := congrArg UInt64.toNat (pointer_of_width_zero hwidth hsentinel)
  omega

theorem Accepted.numBlocks_le (h : s.Accepted) (hcodec : codec.marksRuns = false) :
    s.numBlocks ≤ 32 * s.samples.words.size := by
  rcases Nat.eq_zero_or_pos s.numBlocks with hzero | hpos
  · omega
  · have hlen := (entries_of_check h.checked).1
    have hbits := Nat.le_mul_of_pos_right s.samples.len (h.width_pos hcodec hpos)
    rw [h.sound.size_eq, BitWriter.wordsFor]
    omega

theorem numBlocks_le_of_load (hcodec : codec.marksRuns = false) {bytes : List UInt8}
    {source : Source}
    (h : load.run { rest := bytes } = .ok (s, source)) : s.numBlocks ≤ 4 * bytes.length := by
  obtain ⟨haccepted, hsource⟩ := load_eq_ok.1 h
  have hbytes : bytes = s.stored ++ source.rest := congrArg Source.rest hsource
  have hwords := haccepted.numBlocks_le hcodec
  rw [hbytes, List.length_append, length_stored]
  omega

/-! ### Runs, which have neither -/

/-- Nothing but runs of 0, 1, 2 and so on, with a table of fields without bits. -/
def zeroRuns (blocks : Nat) : DeltaSeq .patched 32 := ⟨blocks * 32, ⟨#[], 0, 2 * blocks + 2⟩, #[]⟩

theorem numBlocks_zeroRuns (blocks : Nat) : (zeroRuns blocks).numBlocks = blocks := by
  show (blocks * 32 + 31) / 32 = blocks
  omega

theorem entry_zeroRuns {blocks position : Nat} (h : 2 * blocks + 2 < Position.limit)
    (hposition : position < 2 * blocks + 2) :
    (do (zeroRuns blocks).samples.get (← Position.checked position) : Except Error UInt64) =
      .ok 0 := by
  rw [Position.checked_eq_ok (Nat.lt_trans hposition h), ok_bind, PackedArray.get]
  simp only [zeroRuns, hposition, if_true, Nat.mul_zero]
  rfl

theorem checkBlocks_zeroRuns {blocks remaining id : Nat} (h : 2 * blocks + 2 < Position.limit)
    (hid : id + remaining ≤ blocks) : (zeroRuns blocks).checkBlocks remaining id 0 = .ok () := by
  induction remaining generalizing id with
  | zero => rfl
  | succ remaining ih =>
    rw [checkBlocks, sampleEntry, entry_zeroRuns h (by omega), ok_bind, pointer,
      entry_zeroRuns h (by omega), ok_bind]
    exact ih (by omega)

theorem accepted_zeroRuns {blocks : Nat} (h : blocks * 32 < UInt64.size) :
    (zeroRuns blocks).Accepted := by
  have htable : 2 * blocks + 2 < Position.limit := by
    simp only [UInt64.size] at h
    simp only [Position.limit, UInt64.size]
    omega
  have hsound : (zeroRuns blocks).samples.Sound :=
    ⟨Nat.zero_le _, by simp [zeroRuns, BitWriter.wordsFor], Nat.zero_lt_succ _, htable⟩
  refine ⟨h, Nat.zero_lt_succ _, hsound, ?_⟩
  rw [check]
  simp only [numBlocks_zeroRuns]
  rw [Position.checked_eq_ok htable, ok_bind, if_neg (by simp [zeroRuns]), pointer,
    entry_zeroRuns htable (by omega), ok_bind, if_neg (by simp [zeroRuns])]
  exact checkBlocks_zeroRuns htable (by omega)

end DeltaSeq

/-! ### Blocks of a stream -/

namespace Variant

variable {variant : Variant} {size : Nat}

/-- Of the containers that keep no blocks out of their payload, a stream has at most four blocks for
each of its bytes, whatever its header claims. -/
theorem containers_are_not_inflated (hvariant : variant ≠ delta .patched) (hs : 0 < size)
    {bytes : List UInt8}
    {s : variant.Seq size} (h : (ofBytes (S := variant.Seq size) bytes).result = .ok s) :
    numBlocks s ≤ 4 * bytes.length ∧ len s ≤ 4 * bytes.length * size := by
  obtain ⟨source, hload⟩ := load_of_ofBytes h
  have hblocks : numBlocks s ≤ 4 * bytes.length := by
    cases variant with
    | delta codec =>
      cases codec with
      | fixedWidth => exact DeltaSeq.numBlocks_le_of_load rfl hload
      | patched => exact absurd rfl hvariant
    | hybrid => exact HybridSeq.numBlocks_le_of_load hload
  have hlen : len s ≤ numBlocks s * size := by
    cases variant with
    | delta codec => exact Blocks.le_count_mul hs
    | hybrid => exact Blocks.le_count_mul hs
  exact ⟨hblocks, Nat.le_trans hlen (Nat.mul_le_mul_right size hblocks)⟩

/-- 31 blocks of zeros: a header, one byte of payload, and a table with a single bit set. -/
def oneWordBytes : List UInt8 :=
  [128, 15, 0, 0, 0, 0, 0, 0, 1, 0, 0, 0, 0, 0, 0, 0, 0, 1, 64, 0, 0, 0, 0, 0, 0, 0, 0, 0, 0, 0, 0,
    0, 0, 128]

theorem oneWord_is_not_inflated : ∃ s : (delta .fixedWidth).Seq 128,
    (ofBytes (S := (delta .fixedWidth).Seq 128) oneWordBytes).result = .ok s ∧ len s = 31 * 128 ∧
      len s ≤ 4 * 34 * 128 := by
  let s : DeltaSeq .fixedWidth 128 := ⟨3968, ⟨#[9223372036854775808], 1, 64⟩, #[0]⟩
  have hresult : (ofBytes (S := DeltaSeq .fixedWidth 128) oneWordBytes).result = .ok s := by
    decide +kernel
  have hs : (ofBytes (S := (delta .fixedWidth).Seq 128) oneWordBytes).result = .ok s := hresult
  exact ⟨s, hs, rfl, (containers_are_not_inflated (by decide) (by decide) hs).2⟩

/-- Runs take nothing: any number of them is read from twenty-five bytes. -/
theorem runs_take_no_bytes {blocks : Nat} (h : blocks * 32 < UInt64.size) :
    ∃ (bytes : List UInt8) (s : (delta .patched).Seq 32), bytes.length = 25 ∧
      (ofBytes (S := (delta .patched).Seq 32) bytes).result = .ok s ∧ numBlocks s = blocks := by
  have hreads : Load.Reads load (DeltaSeq.zeroRuns blocks).stored (DeltaSeq.zeroRuns blocks) :=
    DeltaSeq.toBytes_eq_stored _ ▸ (DeltaSeq.accepted_zeroRuns h).reads
  exact ⟨_, DeltaSeq.zeroRuns blocks, DeltaSeq.length_stored _, ofBytes_of_reads hreads,
    DeltaSeq.numBlocks_zeroRuns blocks⟩

end Variant

end SampledSeq

/-!
## Another block size

The stored form does not say how many values a block has. A container may therefore be read with
blocks of another size (`resized`), and all that tells the two apart is the length of the table,
which goes by the number of blocks. Where that is another one, the stored form is refused. Where it
is the same one, a hybrid sequence is accepted, since its table is checked without the block size;
and if there is but one block, its values are the same ones too.
-/

namespace SampledSeq

open BlockSequence

namespace Blocks

variable {len size other : Nat}

theorem le_of_count_le_one (hs : 0 < size) (h : count len size ≤ 1) : len ≤ size := by
  have hlast : ¬ 1 < count len size := Nat.not_lt_of_le h
  rw [lt_count_iff hs, Nat.one_mul] at hlast
  exact Nat.le_of_not_lt hlast

theorem length_zero_of_le (h : len ≤ size) : length len size 0 = len := by
  rw [length, Nat.zero_mul, Nat.sub_zero, Nat.min_eq_left h]

end Blocks

/-! ### Hybrid sequences -/

namespace HybridSeq

variable {size other : Nat} {s : HybridSeq size}

/-- The same parts, with blocks of another size. -/
def resized (other : Nat) (s : HybridSeq size) : HybridSeq other := ⟨s.len, s.table, s.payload⟩

theorem toBytes_resized (other : Nat) (s : HybridSeq size) :
    toBytes (s.resized other) = toBytes s := by
  rw [toBytes_eq_stored, toBytes_eq_stored]
  rfl

/-- The check does not look at the block size, only at the number of blocks. -/
theorem Accepted.resized (h : s.Accepted) (hcount : (s.resized other).numBlocks = s.numBlocks) :
    (s.resized other).Accepted := by
  have hchecked := checked_iff.1 h.checked
  rw [payloadBits, ← hcount] at hchecked
  exact ⟨h.len_lt, h.payload_lt, h.sound, checked_iff.2 hchecked⟩

/-- With another number of blocks, the table has the wrong length. -/
theorem Accepted.check_resized (h : s.Accepted)
    (hcount : (s.resized other).numBlocks ≠ s.numBlocks) :
    (s.resized other).check = corrupt (.blockTable s.table.len s.len) := by
  have hlen := (checked_iff.1 h.checked).1
  have hne : (s.resized other).table.len ≠ 2 * (s.resized other).numBlocks + 2 := by
    show s.table.len ≠ _
    omega
  rw [check, if_pos hne, corrupt_bind]
  rfl

theorem ofBytes_resized (h : s.Accepted) :
    (ofBytes (S := HybridSeq other) (toBytes s)).result =
      if (s.resized other).numBlocks = s.numBlocks then .ok (s.resized other)
      else corrupt (.blockTable s.table.len s.len) := by
  rw [← toBytes_resized other s]
  split
  · rename_i hcount
    exact ofBytes_of_reads (h.resized hcount).reads
  · rename_i hcount
    have hload := run_load (s := s.resized other) h.len_lt h.payload_lt h.sound
    rw [h.check_resized hcount, ← toBytes_eq_stored] at hload
    exact ofBytes_of_error hload

/-- A single block is found at the same place, with the same number of values. -/
theorem get_resized (hs : 0 < size) (hother : 0 < other)
    (hcount : (s.resized other).numBlocks = s.numBlocks) (hone : s.numBlocks ≤ 1) {i : Nat}
    (hi : i < s.len) : (s.resized other).get i = s.get i := by
  have hle : s.len ≤ size := Blocks.le_of_count_le_one hs hone
  have hle' : s.len ≤ other := Blocks.le_of_count_le_one hother (hcount.trans_le hone)
  have hlength : Blocks.length (s.resized other).len other 0 = Blocks.length s.len size 0 := by
    rw [Blocks.length_zero_of_le hle,
      Blocks.length_zero_of_le (show (s.resized other).len ≤ other from hle')]
    rfl
  have hvalue : (s.resized other).valueIn 0 i = s.valueIn 0 i := by
    rw [valueIn, valueIn, hlength]
    rfl
  have hi' : i < (s.resized other).len := hi
  rwa [get_eq_valueIn hi, get_eq_valueIn hi', Nat.div_eq_of_lt (Nat.lt_of_lt_of_le hi hle),
    Nat.div_eq_of_lt (Nat.lt_of_lt_of_le hi hle'), Nat.mod_eq_of_lt (Nat.lt_of_lt_of_le hi hle),
    Nat.mod_eq_of_lt (Nat.lt_of_lt_of_le hi hle')]

end HybridSeq

/-! ### Delta-coded sequences -/

namespace DeltaSeq

variable {codec : Codec} {size other : Nat} {s : DeltaSeq codec size}

/-- The same parts, with blocks of another size. -/
def resized (other : Nat) (s : DeltaSeq codec size) : DeltaSeq codec other :=
  ⟨s.len, s.samples, s.payload⟩

theorem toBytes_resized (other : Nat) (s : DeltaSeq codec size) :
    toBytes (s.resized other) = toBytes s := by
  rw [toBytes_eq_stored, toBytes_eq_stored]
  rfl

/-- With another number of blocks, the table has the wrong length. -/
theorem Accepted.check_resized (h : s.Accepted) (hother : 0 < other) (hlen : s.len < 2 ^ 56)
    (hcount : (s.resized other).numBlocks ≠ s.numBlocks) :
    (s.resized other).check =
      corrupt (.sampleTable s.samples.len (2 * (s.resized other).numBlocks + 2) s.len) := by
  have hsamples := (entries_of_check h.checked).1
  have hle : (s.resized other).numBlocks ≤ s.len := Blocks.count_le hother
  have hposition : 2 * (s.resized other).numBlocks + 2 < Position.limit := by
    simp only [Position.limit, UInt64.size]
    omega
  have hne : (s.resized other).samples.len ≠ 2 * (s.resized other).numBlocks + 2 := by
    show s.samples.len ≠ _
    omega
  rw [check, Position.checked_eq_ok hposition, ok_bind, if_pos hne, corrupt_bind]
  rfl

theorem ofBytes_resized (h : s.Accepted) (hother : 0 < other) (hlen : s.len < 2 ^ 56)
    (hcount : (s.resized other).numBlocks ≠ s.numBlocks) :
    (ofBytes (S := DeltaSeq codec other) (toBytes s)).result =
      corrupt (.sampleTable s.samples.len (2 * (s.resized other).numBlocks + 2) s.len) := by
  have hload := run_load (s := s.resized other) h.len_lt h.payload_lt h.sound
  rw [h.check_resized hother hlen hcount, ← toBytes_eq_stored, toBytes_resized] at hload
  exact ofBytes_of_error hload

end DeltaSeq

namespace Variant

variable {variant : Variant} {size other : Nat}

/-- Read with another block size, a container that was built is refused if the number of blocks is
another one. A hybrid sequence is accepted otherwise, and a single block of it keeps all its
values. -/
theorem other_sizes_are_told_apart (hsize : variant.Admits size) (hother : variant.Admits other)
    {values : List UInt64} (hlen : values.length < 2 ^ 56) {s : variant.Seq size}
    (h : (variant.ofList size values).result = .ok s) :
    (Blocks.count values.length size ≠ Blocks.count values.length other →
      ∃ cause, (ofBytes (S := variant.Seq other) (toBytes s)).result = corrupt cause) ∧
    (variant = hybrid →
      ((∃ s', (ofBytes (S := variant.Seq other) (toBytes s)).result = .ok s') ↔
        Blocks.count values.length size = Blocks.count values.length other) ∧
      ∀ s', (ofBytes (S := variant.Seq other) (toBytes s)).result = .ok s' →
      Blocks.count values.length size ≤ 1 →
        len s' = values.length ∧ ∀ i (hi : i < values.length), get s' i = .ok values[i]) := by
  cases variant with
  | delta codec =>
    obtain ⟨narrow, rfl, rfl⟩ := DeltaSeq.exists_built_of_ofList hsize.pos h
    refine ⟨fun hcount => ?_, nofun⟩
    rw [List.length_map] at hlen hcount
    have haccepted := DeltaSeq.accepted_built hsize.dvd hsize.pos hsize.lt hlen
    exact ⟨_, DeltaSeq.ofBytes_resized haccepted hother.pos hlen hcount.symm⟩
  | hybrid =>
    obtain rfl := HybridSeq.built_of_ofList hsize.pos h
    have hresult :
        (ofBytes (S := HybridSeq other) (toBytes (HybridSeq.built values size))).result = _ :=
      HybridSeq.ofBytes_resized (HybridSeq.accepted_built hsize.pos hlen)
    rw [if_congr eq_comm rfl rfl] at hresult
    have hequal :
        ∀ s', (ofBytes (S := HybridSeq other) (toBytes (HybridSeq.built values size))).result =
          .ok s' →
        Blocks.count values.length size = Blocks.count values.length other := by
      intro s' hs'
      by_contra hcount
      cases (hresult.trans (if_neg hcount)).symm.trans hs'
    refine ⟨fun hcount => ⟨_, hresult.trans (if_neg hcount)⟩, fun _ => ⟨⟨?_, ?_⟩, ?_⟩⟩
    · exact fun ⟨s', hs'⟩ => hequal s' hs'
    · exact fun hcount => ⟨_, hresult.trans (if_pos hcount)⟩
    · intro s' hs' hone
      have hcount := hequal s' hs'
      obtain rfl : (HybridSeq.built values size).resized other = s' :=
        Except.ok.inj ((hresult.trans (if_pos hcount)).symm.trans hs')
      have hblocks :
          ((HybridSeq.built values size).resized other).numBlocks =
            (HybridSeq.built values size).numBlocks :=
        hcount.symm
      refine ⟨rfl, fun i hi => ?_⟩
      exact (HybridSeq.get_resized hsize.pos hother.pos hblocks hone hi).trans
        (HybridSeq.get_built hsize.pos hlen i hi)

/-- Three values in blocks of two are not accepted in blocks of three, but in a block of four they
are those in a block of three. -/
theorem three_values_in_other_blocks :
    ∃ pairs : hybrid.Seq 2, ∃ block : hybrid.Seq 3, ∃ wider : hybrid.Seq 4,
    (hybrid.ofList 2 [5, 3, 9]).result = .ok pairs ∧
      (hybrid.ofList 3 [5, 3, 9]).result = .ok block ∧
      (∃ cause, (ofBytes (S := hybrid.Seq 3) (toBytes pairs)).result = corrupt cause) ∧
      (ofBytes (S := hybrid.Seq 4) (toBytes block)).result = .ok wider ∧ get wider 2 = .ok 9 := by
  have hlen : [5, 3, 9].length < 2 ^ 56 := by decide
  have htwo : hybrid.Admits 2 := ⟨by decide, by decide, by decide⟩
  have hthree : hybrid.Admits 3 := ⟨by decide, by decide, by decide⟩
  have hfour : hybrid.Admits 4 := ⟨by decide, by decide, by decide⟩
  obtain ⟨pairs, hpairs⟩ : ∃ s, (hybrid.ofList 2 [5, 3, 9]).result = .ok s :=
    ⟨_, HybridSeq.ofList_eq (by decide) [5, 3, 9]⟩
  obtain ⟨block, hblock⟩ : ∃ s, (hybrid.ofList 3 [5, 3, 9]).result = .ok s :=
    ⟨_, HybridSeq.ofList_eq (by decide) [5, 3, 9]⟩
  have hrefused := (other_sizes_are_told_apart htwo hthree hlen hpairs).1 (by decide)
  obtain ⟨haccepted, hvalues⟩ := (other_sizes_are_told_apart hthree hfour hlen hblock).2 rfl
  obtain ⟨wider, hwider⟩ := haccepted.2 (by decide)
  exact ⟨pairs, block, wider, hpairs, hblock, hrefused, hwider,
    (hvalues wider hwider (by decide)).2 2 (by decide)⟩

end Variant

end SampledSeq
