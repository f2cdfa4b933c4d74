import SampledSeq.Proofs.Bits.Edits
import SampledSeq.Proofs.Bits.Ones
import SampledSeq.Proofs.Bits.View
import SampledSeq.Proofs.Stream
import SampledSeq.Stream

/-!
# Packed arrays keep their values and their bytes

`get_ofList`: every value of a list is found in its packed array. An array that was read from a
stream may hold anything, but it is `Sound`, and a sound array answers at every index.
-/

namespace SampledSeq.PackedArray

/-- The words of an array are as many as its fields take, and all its bits can be addressed. -/
structure Sound (t : PackedArray) : Prop where
  width_le : t.width ≤ 64
  size_eq : t.words.size = BitWriter.wordsFor (t.len * t.width)
  bits_lt : t.len * t.width < Position.limit
  len_lt : t.len < Position.limit

variable {t : PackedArray}

theorem get_eq_getBits (h : t.len * t.width < Position.limit) {i : Nat} (hi : i < t.len) :
    t.get i = BitSlice.getBits ⟨t.words⟩ (i * t.width) t.width := by
  have hle : i * t.width ≤ t.len * t.width := Nat.mul_le_mul_right _ (Nat.le_of_lt hi)
  rw [get, if_pos hi, Position.checked_eq_ok (by omega), ok_bind]

theorem field_end_le {i : Nat} (hi : i < t.len) : i * t.width + t.width ≤ t.len * t.width := by
  rw [← Nat.succ_mul]
  exact Nat.mul_le_mul_right _ hi

/-- The fields of a sound array lie inside its words. -/
theorem Sound.inside (h : t.Sound) {i : Nat} (hi : i < t.len) :
    i * t.width + t.width ≤ t.words.size * 64 := by
  have hend := field_end_le hi
  have hsize := h.size_eq
  rw [BitWriter.wordsFor] at hsize
  omega

theorem Sound.get_ok (h : t.Sound) {i : Nat} (hi : i < t.len) : ∃ v, t.get i = .ok v := by
  obtain ⟨v, hv, -⟩ := BitSlice.getBits_ok ⟨t.words⟩ h.width_le (h.inside hi)
  exact ⟨v, (get_eq_getBits h.bits_lt hi).trans hv⟩

/-! ## Packing -/

theorem lt_two_pow_width {values : List UInt64} {v : UInt64} (h : v ∈ values) :
    v.toNat < 2 ^ (ofList values).width :=
  Word.commonWidth_le_iff.1 (Nat.le_refl _) _ (List.mem_map_of_mem h)

theorem width_ofList_le (values : List UInt64) : (ofList values).width ≤ 64 := by
  apply Word.commonWidth_le_iff.2
  intro n hn
  obtain ⟨v, -, rfl⟩ := List.mem_map.1 hn
  exact v.toNat_lt

theorem sound_ofList {values : List UInt64} (h : values.length * 64 < Position.limit) :
    (ofList values).Sound := by
  have hwidth := width_ofList_le values
  have hle := Nat.mul_le_mul_left values.length hwidth
  have hclean := (BitWriter.writeAll_spec hwidth values BitWriter.clean_empty).1
  refine ⟨hwidth, ?_, Nat.lt_of_le_of_lt hle h,
    Nat.lt_of_le_of_lt (Nat.le_mul_of_pos_right _ (by decide)) h⟩
  have hexact := hclean.exact
  rw [BitWriter.Exact, BitWriter.len_writeAll, Nat.zero_add] at hexact
  exact hexact

theorem get_ofList {values : List UInt64} (h : values.length * 64 < Position.limit) (i : Nat)
    (hi : i < values.length) : (ofList values).get i = .ok values[i] := by
  have hwidth := width_ofList_le values
  have hclean := (BitWriter.writeAll_spec hwidth values BitWriter.clean_empty).1
  have hfield := BitWriter.getBits_writeAll hwidth BitWriter.clean_empty
    (BitWriter.carries_words hclean.exact) i hi
  rw [get_eq_getBits (sound_ofList h).bits_lt hi]
  rw [Nat.zero_add, Word.and_lowMask_eq_self (lt_two_pow_width (List.getElem_mem hi))] at hfield
  exact hfield

/-! ## Tables of pairs -/

/-- The array lists the pairs of `n` blocks one after the other. -/
structure Lists (entries : Array UInt64) (pair : Nat → UInt64 × UInt64) (n : Nat) : Prop where
  size_eq : entries.size = 2 * n
  fst_eq : ∀ k < n, entries[2 * k]? = some (pair k).1
  snd_eq : ∀ k < n, entries[2 * k + 1]? = some (pair k).2

section
variable {entries : Array UInt64} {pair : Nat → UInt64 × UInt64} {n : Nat}

theorem lists_empty (pair : Nat → UInt64 × UInt64) : Lists #[] pair 0 := ⟨rfl, nofun, nofun⟩

theorem Lists.congr {pair' : Nat → UInt64 × UInt64} (h : Lists entries pair n)
    (hpair : ∀ k < n, pair k = pair' k) :
    Lists entries pair' n :=
  ⟨h.size_eq, fun k hk => hpair k hk ▸ h.fst_eq k hk, fun k hk => hpair k hk ▸ h.snd_eq k hk⟩

theorem Lists.push (h : Lists entries pair n) {a b : UInt64} (hpair : pair n = (a, b)) :
    Lists ((entries.push a).push b) pair (n + 1) := by
  have hsize := h.size_eq
  refine ⟨by simp only [Array.size_push, hsize]; omega, ?_, ?_⟩
  · intro k hk
    rcases Nat.lt_succ_iff_lt_or_eq.1 hk with hlt | rfl
    · rw [Array.getElem?_push, if_neg (by rw [Array.size_push]; omega), Array.getElem?_push,
        if_neg (by omega), h.fst_eq k hlt]
    · rw [Array.getElem?_push, if_neg (by rw [Array.size_push]; omega), Array.getElem?_push,
        if_pos hsize.symm, hpair]
  · intro k hk
    rcases Nat.lt_succ_iff_lt_or_eq.1 hk with hlt | rfl
    · rw [Array.getElem?_push, if_neg (by rw [Array.size_push]; omega), Array.getElem?_push,
        if_neg (by omega), h.snd_eq k hlt]
    · rw [Array.getElem?_push, if_pos (by rw [Array.size_push]; omega), hpair]

/-- Both halves of a pair are found in the packed array. -/
theorem Lists.get_ofList (h : Lists entries pair n) (hn : n * 128 < Position.limit) {k : Nat}
    (hk : k < n) :
    (ofList entries.toList).get (2 * k) = .ok (pair k).1 ∧
    (ofList entries.toList).get (2 * k + 1) = .ok (pair k).2 := by
  have hsize := h.size_eq
  have hlen : entries.toList.length * 64 < Position.limit := by
    rw [Array.length_toList, hsize]
    omega
  have hget := PackedArray.get_ofList hlen
  have hfst := h.fst_eq k hk
  have hsnd := h.snd_eq k hk
  rw [Array.getElem?_eq_getElem (by omega), Option.some.injEq] at hfst hsnd
  constructor
  · rw [hget _ (by rw [Array.length_toList]; omega), Array.getElem_toList, hfst]
  · rw [hget _ (by rw [Array.length_toList]; omega), Array.getElem_toList, hsnd]

end

end SampledSeq.PackedArray

/-!
## The stored form of a packed array

Loading accepts exactly the stored forms of sound arrays (`load_eq_ok`): width, length and words are
all that is stored, and none of them is changed on the way. From any other bytes it fails with an
inconsistent stream (`guarded_load`).
-/

namespace SampledSeq.PackedArray

variable {t : PackedArray}

def stored (t : PackedArray) : List UInt8 :=
  Numeral.toBytes 1 t.width ++ (Source.wordBytes (UInt64.ofNat t.len) ++ t.words.toList.flatMap
    Source.wordBytes)

theorem length_stored (t : PackedArray) : t.stored.length = 9 + t.words.size * 8 := by
  rw [stored, List.length_append, List.length_append, Store.length_wordBytes,
    Numeral.length_toBytes, Source.wordBytes, Numeral.length_toBytes, Array.length_toList]
  omega

theorem toBytes_one (n : Nat) : Numeral.toBytes 1 n = [UInt8.ofNat n] := by
  have hmod : UInt8.ofNat (n % 256) = UInt8.ofNat n := by
    apply UInt8.toNat_inj.1
    rw [UInt8.toNat_ofNat', UInt8.toNat_ofNat', Nat.mod_mod]
  rw [Numeral.toBytes, Numeral.digits, Numeral.digits, List.map_singleton, hmod]

theorem writes_serialize (t : PackedArray) : Store.Writes t.serialize t.stored t.stored.length := by
  have hbody := (Store.writes_writeWords t.words.toList).bind
    (f := fun body => pure (1 + 8 + body)) (.pure (1 + 8 + t.words.toList.length * 8))
  rw [List.append_nil] at hbody
  rw [length_stored, ← Array.length_toList, stored, toBytes_one]
  exact (Store.writes_write _).bind ((Store.writes_writeWord _).bind hbody)

/-- What a sink without end takes when the array is written. -/
def toBytes (t : PackedArray) : List UInt8 := (t.serialize.run.run {}).2.taken.toList

theorem toBytes_eq_stored (t : PackedArray) : t.toBytes = t.stored := by
  rw [toBytes, writes_serialize t {}, Store.run_write_none]
  simp

/-- Writing to a sink without end succeeds, and answers the number of bytes. -/
theorem run_serialize (t : PackedArray) :
    t.serialize.run.run {} = (.ok t.toBytes.length, { taken := t.toBytes.toArray }) := by
  rw [writes_serialize t {}, Store.run_write_none, toBytes_eq_stored]
  simp [Except.map]

theorem exact_load : Load.Exact load :=
  (Source.exact_readNumber 1).bind fun _ => .check <| Source.exact_readWord.bind fun _ => .check <|
    (Source.exact_readWords _).bind fun _ => .pure _

theorem load_eq_ok {source source' : Source} : load.run source = .ok (t, source') ↔
    t.Sound ∧ source = ⟨t.stored ++ source'.rest, source'.ending⟩ := by
  simp only [load, Load.bind_eq_ok, Load.check_eq_ok, Load.pure_eq_ok, Source.readNumber_eq_ok,
    Source.readWord_eq_ok, Source.readWords_eq_ok]
  constructor
  · rintro ⟨width, _, ⟨-, rfl⟩, hwidth, len, _, rfl, hbits, words, _, ⟨hsize, rfl⟩, rfl, rfl⟩
    refine ⟨⟨Nat.le_of_not_lt hwidth, hsize, Nat.lt_of_not_le hbits, len.toNat_lt⟩, ?_⟩
    simp only [stored, UInt64.ofNat_toNat, List.append_assoc]
  · rintro ⟨h, rfl⟩
    have hlen : (UInt64.ofNat t.len).toNat = t.len := UInt64.toNat_ofNat_of_lt' h.len_lt
    have hwidth := h.width_le
    refine ⟨t.width, _, ⟨by omega, ?_⟩, Nat.not_lt_of_le hwidth, UInt64.ofNat t.len, _, rfl, ?_,
      t.words, source', ⟨?_, rfl⟩, ?_, rfl⟩
    · simp only [stored, List.append_assoc]
    · rw [hlen]
      exact Nat.not_le_of_lt h.bits_lt
    · rw [hlen]
      exact h.size_eq
    · rw [hlen]

/-- Two lengths, a payload and an array behind it are read as they are stored. -/
theorem run_behind_payload {α β : Type} {len length : Nat} {readPayload : Nat → Load α}
    {payload : α}
    {bytes : List UInt8} (hlen : len < UInt64.size) (hlength : length < UInt64.size)
    (hpayload : ∀ rest, (readPayload length).run { rest := bytes ++ rest } =
      .ok (payload, { rest })) (ht : t.Sound)
    (f : Nat → α → PackedArray → Load β) :
    (do
      let len ← Source.readWord
      let length ← Source.readWord
      let payload ← readPayload length.toNat
      let t ← load
      f len.toNat payload t : Load β).run
        { rest := Source.wordBytes (UInt64.ofNat len) ++
          (Source.wordBytes (UInt64.ofNat length) ++ (bytes ++ t.stored)) } =
      (f len payload t).run { rest := [] } := by
  have hword : ∀ word rest, Source.readWord.run { rest := Source.wordBytes word ++ rest } =
      .ok (word, { rest }) :=
    fun _ _ => Source.readWord_eq_ok.2 rfl
  have htable : load.run { rest := t.stored } = .ok (t, { rest := [] }) :=
    load_eq_ok.2 ⟨ht, by rw [List.append_nil]⟩
  rw [Load.run_bind_of_ok (hword _ _), Load.run_bind_of_ok (hword _ _),
    UInt64.toNat_ofNat_of_lt' hlen, UInt64.toNat_ofNat_of_lt' hlength,
    Load.run_bind_of_ok (hpayload _), Load.run_bind_of_ok htable]

theorem guarded_load : Load.Guarded Sound load := by
  refine (Source.guarded_readNumber 1).bind fun width _ => .check fun hwidth => ?_
  refine Source.guarded_readWord.bind fun len _ => .check fun hbits => ?_
  refine (Source.guarded_readWords _).bind fun words hwords => .pure ?_
  exact ⟨Nat.le_of_not_lt hwidth, hwords, Nat.lt_of_not_le hbits, len.toNat_lt⟩

end SampledSeq.PackedArray

/-!
## Values and bytes

An array of given values has the least width that holds them, answers each of them at its index, and
is read again from what was written, whatever follows in the stream (`Packs`). An array that was
read need not hold what packing would have put there: any width up to 64, any length, any bits
behind the last field. Its announced number of bits is an address all the same, so every field can
be found (`Addressed`), and it is written back byte by byte.
-/

namespace SampledSeq.PackedArray

variable {t : PackedArray}

/-! ### Arrays of given values -/

/-- The width of an array is enough exactly if every value is below its power of two. -/
theorem width_ofList_le_iff {values : List UInt64} {width : Nat} :
    (ofList values).width ≤ width ↔ ∀ v ∈ values, v.toNat < 2 ^ width :=
  Word.commonWidth_le_iff.trans List.forall_mem_map

theorem get_past_end {i : Nat} (hi : t.len ≤ i) : t.get i = .error (.indexOutOfRange i t.len) :=
  if_neg (Nat.not_lt_of_le hi)

theorem Sound.reads (h : t.Sound) (rest : List UInt8) (ending : Ending) :
    load.run ⟨t.toBytes ++ rest, ending⟩ = .ok (t, ⟨rest, ending⟩) :=
  load_eq_ok.2 ⟨h, by rw [toBytes_eq_stored]⟩

/-- The array holds the values, at the least width for them, and comes back from its bytes. -/
structure Packs (values : List UInt64) (t : PackedArray) : Prop where
  width_le_iff : ∀ width, t.width ≤ width ↔ ∀ v ∈ values, v.toNat < 2 ^ width
  len_eq : t.len = values.length
  size_eq : t.words.size = (values.length * t.width + 63) / 64
  get_eq : ∀ i (h : i < values.length), t.get i = .ok values[i]
  past_end : ∀ i, values.length ≤ i → t.get i = .error (.indexOutOfRange i values.length)
  written : t.serialize.run.run {} = (.ok t.toBytes.length, { taken := t.toBytes.toArray })
  reads : ∀ rest ending, load.run ⟨t.toBytes ++ rest, ending⟩ = .ok (t, ⟨rest, ending⟩)

theorem packs_ofList {values : List UInt64} (h : values.length * 64 < Position.limit) :
    Packs values (ofList values) where
  width_le_iff _ := width_ofList_le_iff
  len_eq := rfl
  size_eq := (sound_ofList h).size_eq
  get_eq := get_ofList h
  past_end _ hi := get_past_end hi
  written := run_serialize _
  reads := (sound_ofList h).reads

/-! ### Arrays that were read -/

/-- Every field of the array has an address, lies inside the words, and holds no more bits than the
width says. -/
structure Addressed (t : PackedArray) : Prop where
  width_le : t.width ≤ 64
  pos_lt : ∀ i < t.len, i * t.width < UInt64.size
  inside : ∀ i < t.len, i * t.width + t.width ≤ t.words.size * 64
  get_ok : ∀ i < t.len, ∃ v, t.get i = .ok v ∧ v.toNat < 2 ^ t.width
  past_end : ∀ i, t.len ≤ i → t.get i = .error (.indexOutOfRange i t.len)

theorem Sound.addressed (h : t.Sound) : t.Addressed where
  width_le := h.width_le
  pos_lt i hi := by
    have hend := field_end_le hi
    have hbits : t.len * t.width < UInt64.size := h.bits_lt
    omega
  inside _ hi := h.inside hi
  get_ok i hi := by
    obtain ⟨v, hv⟩ := h.get_ok hi
    refine ⟨v, hv, ?_⟩
    rw [get_eq_getBits h.bits_lt hi] at hv
    exact ((BitSlice.guarded_getBits _ h.width_le).of_ok hv).1
  past_end _ hi := get_past_end hi

/-- Given values are packed at the least width and come back from the array and from its bytes.
Whatever bytes an array is read from, each of its fields can be read, and writing it gives back just
the bytes that were taken. -/
theorem fields_and_bytes_are_kept :
    (∀ values : List UInt64, values.length < 2 ^ 56 → Packs values (ofList values)) ∧
      ∀ (bytes : List UInt8) (ending : Ending) (t : PackedArray) (source : Source),
        load.run ⟨bytes, ending⟩ = .ok (t, source) → t.Addressed ∧
        ∃ used, bytes = used ++ source.rest ∧
          t.serialize.run.run {} = (.ok used.length, { taken := used.toArray }) := by
  constructor
  · intro values hlen
    have hbits : values.length * 64 < Position.limit := by
      have hlimit : Position.limit = 2 ^ 64 := rfl
      omega
    exact packs_ofList hbits
  · intro bytes ending t source hload
    obtain ⟨hsound, hsource⟩ := load_eq_ok.1 hload
    refine ⟨hsound.addressed, t.toBytes, ?_, run_serialize t⟩
    rw [toBytes_eq_stored]
    exact congrArg Source.rest hsource

/-- Four fields of three bits, with ones in all 52 bits behind them. -/
def paddedBytes : List UInt8 := [3, 4, 0, 0, 0, 0, 0, 0, 0, 255, 255, 255, 255, 255, 255, 255, 255]

theorem paddedFields_are_kept : (ofList [0, 5, 7, 3]).get 2 = .ok 7 ∧
    ∃ t, load.run { rest := paddedBytes ++ [9] } = .ok (t, { rest := [9] }) ∧
      t.serialize.run.run {} = (.ok 17, { taken := paddedBytes.toArray }) ∧ ∃ v, t.get 3 = .ok v ∧
      v.toNat < 2 ^ 3 := by
  let t : PackedArray := ⟨#[18446744073709551615], 3, 4⟩
  have hload : load.run { rest := paddedBytes ++ [9] } = .ok (t, { rest := [9] }) := by
    decide +kernel
  obtain ⟨hbuilt, hread⟩ := fields_and_bytes_are_kept
  obtain ⟨haddressed, used, hused, hwritten⟩ := hread _ _ _ _ hload
  obtain rfl : paddedBytes = used := List.append_cancel_right hused
  exact ⟨(hbuilt [0, 5, 7, 3] (by decide)).get_eq 2 (by decide), t, hload, hwritten,
    haddressed.get_ok 3 (by decide)⟩

end SampledSeq.PackedArray
