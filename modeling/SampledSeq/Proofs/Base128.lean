import Mathlib.Data.Nat.Bitwise
import SampledSeq.Codec
import SampledSeq.Numeral
import SampledSeq.Proofs.Bits.View
import SampledSeq.Proofs.Outcome
import SampledSeq.Proofs.Stream

/-!
# Base-128 integers are exact

An integer that fits a word comes back from where it was written, in front of anything. From any
other bytes an integer is either their exact sum or none: nothing is cut off silently
(`integers_are_exact`). There are three ways to have none (`decode_fails_iff`), and all of them are
reported as an inconsistent stream.
-/

/-!
## The groups of a base-128 integer

The bytes of an integer end with the first one whose high bit is not set (`Terminated`), and they
are a numeral in base 128 whose value has no limit (`groupSum`). Decoding writes group after group
into a word. As long as no group leaves the word this adds up to the same value (`toNat_addGroup`),
and a group that would leave it is refused. So decoding succeeds exactly where at most ten bytes
make up an integer that fits a word (`decode_eq_ok_iff`).
-/

namespace SampledSeq.Base128

/-! ### What bytes stand for -/

/-- The bytes of one integer: the high bit is set in all of them but the last. -/
inductive Terminated : List UInt8 → Prop
  | last {byte : UInt8} : byte.toNat < 128 → Terminated [byte]
  | more {byte : UInt8} {bytes : List UInt8} : 128 ≤ byte.toNat → Terminated bytes →
    Terminated (byte :: bytes)

/-- The number whose groups of seven bits stand in the bytes, the lowest one first, however many
they are. -/
def groupSum (bytes : List UInt8) : Nat :=
  Numeral.ofDigits 128 (bytes.map fun byte => byte.toNat % 128)

@[simp] theorem groupSum_nil : groupSum [] = 0 := rfl

@[simp] theorem groupSum_cons (byte : UInt8) (bytes : List UInt8) :
    groupSum (byte :: bytes) = byte.toNat % 128 + 128 * groupSum bytes := rfl

theorem terminated_cons_iff {byte : UInt8} {bytes : List UInt8} :
    Terminated (byte :: bytes) ↔ if byte.toNat < 128 then bytes = [] else Terminated bytes := by
  split
  · rename_i hlast
    constructor
    · intro h
      cases h with
      | last _ => rfl
      | more hmore _ => omega
    · rintro rfl
      exact .last hlast
  · rename_i hmore
    constructor
    · intro h
      cases h with
      | last hlast => omega
      | more _ h => exact h
    · intro h
      exact .more (Nat.le_of_not_lt hmore) h

instance decidableTerminated : (bytes : List UInt8) → Decidable (Terminated bytes)
  | [] => .isFalse nofun
  | _ :: bytes =>
    have := decidableTerminated bytes
    decidable_of_iff _ terminated_cons_iff.symm

/-- The bytes of one integer do not all continue it. -/
theorem Terminated.exists_last {used : List UInt8} (h : Terminated used) :
    ∃ byte ∈ used, byte.toNat < 128 := by
  induction h with
  | last hlast => exact ⟨_, List.mem_singleton_self _, hlast⟩
  | more _ _ ih =>
    obtain ⟨byte, hmem, hlast⟩ := ih
    exact ⟨byte, List.mem_cons_of_mem _ hmem, hlast⟩

/-- Where an integer ends is decided by its own bytes. -/
theorem Terminated.unique {used used' rest rest' : List UInt8} (h : Terminated used)
    (h' : Terminated used') (heq : used ++ rest = used' ++ rest') : used = used' := by
  induction h generalizing used' with
  | last hlast =>
    cases h' with
    | last _ => simp_all
    | more hmore _ =>
      obtain ⟨rfl, -⟩ := List.cons.inj heq
      omega
  | more hmore _ ih =>
    cases h' with
    | last hlast =>
      obtain ⟨rfl, -⟩ := List.cons.inj heq
      omega
    | more _ hrest =>
      simp only [List.cons_append, List.cons.injEq] at heq
      rw [heq.1, ih hrest heq.2]

/-- Bytes go on with an integer up to their end, or begin with all bytes of one. -/
theorem all_continue_or_terminated (bytes : List UInt8) :
    (∀ byte ∈ bytes, 128 ≤ byte.toNat) ∨ ∃ used rest, bytes = used ++ rest ∧ Terminated used := by
  induction bytes with
  | nil => exact .inl nofun
  | cons byte bytes ih =>
    by_cases hlast : byte.toNat < 128
    · exact .inr ⟨[byte], bytes, rfl, .last hlast⟩
    · have hmore : 128 ≤ byte.toNat := Nat.le_of_not_lt hlast
      rcases ih with hall | ⟨used, rest, rfl, hused⟩
      · left
        intro next hnext
        rcases List.mem_cons.1 hnext with rfl | hnext
        · exact hmore
        · exact hall next hnext
      · exact .inr ⟨byte :: used, rest, rfl, .more hmore hused⟩

/-! ### Groups in a word -/

variable {index group : Nat} {value : UInt64}

/-- A group that is not refused lies in the word, with all that may stand below it: the tenth one
has a single bit, and there is no eleventh. -/
theorem group_fits (hgroup : group < 128) (hlimit : ¬ (index ≥ 10 ∨ (index = 9 ∧ group ≥ 2))) :
    (group + 1) * 2 ^ (7 * index) ≤ 2 ^ 64 := by
  by_cases h9 : index = 9
  · subst h9
    calc (group + 1) * 2 ^ (7 * 9) ≤ 2 * 2 ^ (7 * 9) := Nat.mul_le_mul_right _ (by omega)
      _ = 2 ^ 64 := by decide
  · calc (group + 1) * 2 ^ (7 * index) ≤ 2 ^ 7 * 2 ^ (7 * index) := Nat.mul_le_mul_right _ hgroup
      _ = 2 ^ (7 + 7 * index) := (Nat.pow_add 2 7 (7 * index)).symm
      _ ≤ 2 ^ 64 := Nat.pow_le_pow_right (by decide) (by omega)

/-- Above the groups that a word holds, a group that fits is added without loss. -/
theorem toNat_addGroup (hvalue : value.toNat < 2 ^ (7 * index)) (hgroup : group < 128)
    (hlimit : ¬ (index ≥ 10 ∨ (index = 9 ∧ group ≥ 2))) :
    (addGroup (7 * index) value group).toNat = value.toNat + group * 2 ^ (7 * index) := by
  have hfits := group_fits hgroup hlimit
  rw [Nat.add_mul, Nat.one_mul] at hfits
  have hpos : 0 < 2 ^ (7 * index) := Nat.two_pow_pos _
  have hshift : (UInt64.ofNat (7 * index)).toNat = 7 * index := UInt64.toNat_ofNat_of_lt' (by
    rw [UInt64.size]
    omega)
  have hword : (UInt64.ofNat group).toNat = group := UInt64.toNat_ofNat_of_lt' (by
    rw [UInt64.size]
    omega)
  rw [addGroup, UInt64.toNat_or, UInt64.toNat_shiftLeft, hshift, hword,
    Nat.mod_eq_of_lt (by omega : 7 * index < 64), Nat.shiftLeft_eq, Nat.mod_eq_of_lt (by omega),
    Nat.or_comm, Nat.mul_comm, ← Nat.two_pow_add_eq_or_of_lt hvalue, Nat.add_comm]

theorem addGroup_lt (hvalue : value.toNat < 2 ^ (7 * index)) (hgroup : group < 128)
    (hlimit : ¬ (index ≥ 10 ∨ (index = 9 ∧ group ≥ 2))) :
    (addGroup (7 * index) value group).toNat < 2 ^ (7 * (index + 1)) := by
  rw [toNat_addGroup hvalue hgroup hlimit]
  calc value.toNat + group * 2 ^ (7 * index) < (group + 1) * 2 ^ (7 * index) := by
        rw [Nat.add_mul, Nat.one_mul]
        omega
    _ ≤ 128 * 2 ^ (7 * index) := Nat.mul_le_mul_right _ hgroup
    _ = 2 ^ (7 * (index + 1)) := by
        rw [Nat.mul_add, Nat.pow_add, Nat.mul_comm]

/-! ### Decoding -/

theorem decodeFrom_cons {byte : UInt8}
    (hlimit : ¬ (index ≥ 10 ∨ (index = 9 ∧ byte.toNat % 128 ≥ 2))) (rest : List UInt8) :
    decodeFrom index value (byte :: rest) =
      if byte.toNat < 128 then .ok (addGroup (7 * index) value (byte.toNat % 128), rest)
      else decodeFrom (index + 1) (addGroup (7 * index) value (byte.toNat % 128)) rest := by
  have hshift : 7 * index < 64 := by omega
  rw [decodeFrom]
  simp only [if_neg hlimit, Position.below_eq_ok hshift, ok_bind, pure_eq_ok]

/-- What is refused are bytes behind the tenth one, and groups that reach beyond the word. -/
theorem not_refused (hindex : index < 10) (hfits : group * 2 ^ (7 * index) < 2 ^ 64) :
    ¬ (index ≥ 10 ∨ (index = 9 ∧ group ≥ 2)) := by
  rintro (hlimit | ⟨rfl, hlimit⟩)
  · omega
  · have hle : 2 * 2 ^ (7 * 9) ≤ group * 2 ^ (7 * 9) := Nat.mul_le_mul_right _ hlimit
    omega

/-- The first group of a sum, and the sum of the others one place further up. -/
theorem add_groups (start first others index : Nat) :
    start + (first + 128 * others) * 2 ^ (7 * index) =
      start + first * 2 ^ (7 * index) + others * 2 ^ (7 * (index + 1)) := by
  have hpow : 2 ^ (7 * (index + 1)) = 128 * 2 ^ (7 * index) := by
    rw [Nat.mul_add, Nat.pow_add, Nat.mul_comm]
  rw [hpow, Nat.add_mul, Nat.add_assoc, Nat.mul_comm 128 others, Nat.mul_assoc]

/-- The bytes of one integer are decoded in front of anything, unless they are too many or their sum
is too large. -/
theorem decodeFrom_of_terminated {used : List UInt8} (hused : Terminated used)
    (hvalue : value.toNat < 2 ^ (7 * index)) (hlen : index + used.length ≤ 10)
    (hsum : value.toNat + groupSum used * 2 ^ (7 * index) < 2 ^ 64) (rest : List UInt8) :
    ∃ v : UInt64, v.toNat = value.toNat + groupSum used * 2 ^ (7 * index) ∧
      decodeFrom index value (used ++ rest) = .ok (v, rest) := by
  induction hused generalizing index value with
  | @last byte hlast =>
    rw [groupSum_cons, groupSum_nil, Nat.mul_zero, Nat.add_zero] at hsum ⊢
    have hgroup : byte.toNat % 128 < 128 := Nat.mod_lt _ (by decide)
    have hlimit := not_refused hlen (Nat.lt_of_le_of_lt (Nat.le_add_left _ _) hsum)
    refine ⟨addGroup (7 * index) value (byte.toNat % 128), toNat_addGroup hvalue hgroup hlimit, ?_⟩
    exact (decodeFrom_cons hlimit rest).trans (if_pos hlast)
  | @more byte bytes hmore hbytes ih =>
    rw [List.length_cons] at hlen
    rw [groupSum_cons, add_groups] at hsum ⊢
    have hgroup : byte.toNat % 128 < 128 := Nat.mod_lt _ (by decide)
    have hlimit : ¬ (index ≥ 10 ∨ (index = 9 ∧ byte.toNat % 128 ≥ 2)) :=
      not_refused (by omega) (by omega)
    rw [← toNat_addGroup hvalue hgroup hlimit] at hsum ⊢
    rw [List.cons_append, decodeFrom_cons hlimit, if_neg (Nat.not_lt_of_le hmore)]
    exact ih (addGroup_lt hvalue hgroup hlimit) (by omega) hsum

/-- What is decoded are the bytes of one integer, ten of them at most, and the word holds their
sum. -/
theorem terminated_of_decodeFrom {bytes rest : List UInt8} {v : UInt64}
    (hvalue : value.toNat < 2 ^ (7 * index)) (h : decodeFrom index value bytes = .ok (v, rest)) :
    ∃ used, bytes = used ++ rest ∧ Terminated used ∧ index + used.length ≤ 10 ∧
      v.toNat = value.toNat + groupSum used * 2 ^ (7 * index) := by
  induction bytes generalizing index value with
  | nil => cases h
  | cons byte bytes ih =>
    by_cases hlimit : index ≥ 10 ∨ (index = 9 ∧ byte.toNat % 128 ≥ 2)
    · rw [decodeFrom] at h
      cases (if_pos hlimit).symm.trans h
    · have hgroup : byte.toNat % 128 < 128 := Nat.mod_lt _ (by decide)
      rw [decodeFrom_cons hlimit] at h
      by_cases hlast : byte.toNat < 128
      · rw [if_pos hlast] at h
        obtain ⟨rfl, rfl⟩ := Prod.mk.inj (Except.ok.inj h)
        refine ⟨[byte], rfl, .last hlast, by rw [List.length_singleton]; omega, ?_⟩
        rw [toNat_addGroup hvalue hgroup hlimit, groupSum_cons, groupSum_nil, Nat.mul_zero,
          Nat.add_zero]
      · rw [if_neg hlast] at h
        obtain ⟨used, rfl, hused, hlen, hv⟩ := ih (addGroup_lt hvalue hgroup hlimit) h
        refine ⟨byte :: used, rfl,
          .more (Nat.le_of_not_lt hlast) hused, by rw [List.length_cons]; omega, ?_⟩
        rw [hv, toNat_addGroup hvalue hgroup hlimit, groupSum_cons, add_groups]

/-- Decoding gives an integer exactly if the bytes begin with at most ten bytes of one whose sum
fits a word. It gives this sum, and leaves the bytes behind alone. -/
theorem decode_eq_ok_iff {bytes rest : List UInt8} {n : Nat} :
    decode bytes = .ok (n, rest) ↔
      ∃ used, bytes = used ++ rest ∧ Terminated used ∧ used.length ≤ 10 ∧ n = groupSum used ∧
      n < 2 ^ 64 := by
  constructor
  · intro h
    cases hfrom : decodeFrom 0 0 bytes with
    | error e =>
      rw [decode, hfrom] at h
      cases h
    | ok found =>
      obtain ⟨v, rest'⟩ := found
      rw [decode, hfrom] at h
      obtain ⟨rfl, rfl⟩ := Prod.mk.inj (Except.ok.inj h)
      obtain ⟨used, hbytes, hused, hlen, hv⟩ := terminated_of_decodeFrom (by decide) hfrom
      exact ⟨used, hbytes, hused, by omega, by simpa using hv, v.toNat_lt⟩
  · rintro ⟨used, rfl, hused, hlen, rfl, hword⟩
    have hstart : (0 : UInt64).toNat < 2 ^ (7 * 0) := by decide
    obtain ⟨v, hv, hfrom⟩ :=
      decodeFrom_of_terminated hused hstart (by omega) (by simpa using hword) rest
    have hsum : v.toNat = groupSum used := by simpa using hv
    rw [decode, hfrom, ← hsum]
    rfl

end SampledSeq.Base128

/-!
## Base-128 integers come back

An integer is appended to what was written before (`encodeOnto_eq`), with as many bytes as its bit
length says (`length_encode`). These are the bytes of one integer, and their groups add up to it
(`terminated_encode`), so an integer that fits a word is read back, and the bytes behind it are left
alone (`decode_encode`).
-/

namespace SampledSeq.Base128

theorem encodeOnto_eq (out : Array UInt8) (n : Nat) : encodeOnto out n = out ++ encode n := by
  fun_induction encodeOnto out n with
  | case1 out n h =>
    rw [encode, dif_pos h]
    simp
  | case2 out n h ih =>
    rw [ih, encode.eq_def n, dif_neg h]
    simp

theorem length_encode (n : Nat) : (encode n).length = encodedSize n := by
  fun_induction encode n with
  | case1 n h =>
    have : Word.bitLength n ≤ 7 := Word.bitLength_le_iff.2 h
    simp only [List.length_singleton, encodedSize]
    omega
  | case2 n h ih =>
    have hlen : Word.bitLength n = Word.bitLength (n / 128) + 7 :=
      Word.bitLength_div_two_pow (k := 7) (by omega)
    have hpos : 0 < Word.bitLength (n / 128) := by
      have : ¬ Word.bitLength (n / 128) ≤ 0 := fun h0 => by
        have := Word.bitLength_le_iff.1 h0
        omega
      omega
    rw [List.length_cons, ih, encodedSize, encodedSize, hlen]
    omega

/-- A number that fits a word has at most ten groups. -/
theorem length_encode_le_ten {n : Nat} (h : n < 2 ^ 64) : (encode n).length ≤ 10 := by
  have hbits : Word.bitLength n ≤ 64 := Word.bitLength_le_iff.2 h
  rw [length_encode, encodedSize]
  omega

/-- What is written are the bytes of one integer, and that integer is their sum. -/
theorem terminated_encode (n : Nat) : Terminated (encode n) ∧ groupSum (encode n) = n := by
  fun_induction encode n with
  | case1 n h =>
    have hbyte : (UInt8.ofNat n).toNat = n := by
      rw [UInt8.toNat_ofNat', Nat.mod_eq_of_lt (by omega)]
    refine ⟨.last (by omega), ?_⟩
    rw [groupSum_cons, groupSum_nil, hbyte]
    omega
  | case2 n h ih =>
    obtain ⟨hterminated, hsum⟩ := ih
    have hbyte : (UInt8.ofNat (n % 128 + 128)).toNat = n % 128 + 128 := by
      rw [UInt8.toNat_ofNat', Nat.mod_eq_of_lt (by omega)]
    refine ⟨.more (by omega) hterminated, ?_⟩
    rw [groupSum_cons, hsum, hbyte]
    omega

/-- An integer that fits a word is read back, and nothing behind it is touched. -/
theorem decode_encode {n : Nat} (h : n < 2 ^ 64) (rest : List UInt8) :
    decode (encode n ++ rest) = .ok (n, rest) := by
  obtain ⟨hterminated, hsum⟩ := terminated_encode n
  exact decode_eq_ok_iff.2 ⟨encode n, rfl, hterminated, length_encode_le_ten h, hsum.symm, h⟩

end SampledSeq.Base128

/-!
## Base-128 integers on arbitrary bytes

No group is written where the word ends: a tenth group is shifted by 63 bits, and there is no
eleventh. So an integer is never larger than a word, whatever groups it has, and no read lies behind
the data (`guarded_decode`).
-/

namespace SampledSeq.Base128

/-- No group is written where the word ends: a tenth group is shifted by 63 bits, and there is no
eleventh. -/
theorem guarded_decodeFrom (bytes : List UInt8) (index : Nat) (value : UInt64) :
    Guarded (fun _ => True) (decodeFrom index value bytes) := by
  induction bytes generalizing index value with
  | nil => exact .corrupt _
  | cons byte bytes ih =>
    by_cases hlimit : index ≥ 10 ∨ (index = 9 ∧ byte.toNat % 128 ≥ 2)
    · rw [decodeFrom]
      exact .inr ⟨_, if_pos hlimit⟩
    · rw [decodeFrom_cons hlimit]
      split
      · exact .ok trivial
      · exact ih _ _

theorem guarded_decode (bytes : List UInt8) :
    Guarded (fun (n, rest) => n < 2 ^ 64 ∧ rest <:+ bytes) (decode bytes) := by
  rcases guarded_decodeFrom bytes 0 0 with ⟨⟨v, rest⟩, hfrom, -⟩ | ⟨cause, hfrom⟩
  · have hdecode : decode bytes = .ok (v.toNat, rest) := by
      rw [decode, hfrom]
      rfl
    obtain ⟨used, rfl, -, -, -, hword⟩ := decode_eq_ok_iff.1 hdecode
    rw [hdecode]
    exact .ok ⟨hword, List.suffix_append used rest⟩
  · rw [decode, hfrom]
    exact .corrupt cause

end SampledSeq.Base128

/-! ## Exactness -/

namespace SampledSeq.Base128

/-- There is no integer where no byte ends it, and where the bytes that make it up are too many or
too large. -/
theorem decode_fails_iff (bytes : List UInt8) :
    (∃ e, decode bytes = .error e) ↔
      (∀ byte ∈ bytes, 128 ≤ byte.toNat) ∨
        ∃ used rest, bytes = used ++ rest ∧ Terminated used ∧
        (2 ^ 64 ≤ groupSum used ∨ 10 < used.length) := by
  constructor
  · rintro ⟨e, he⟩
    rcases all_continue_or_terminated bytes with hall | ⟨used, rest, rfl, hused⟩
    · exact .inl hall
    · refine .inr ⟨used, rest, rfl, hused, ?_⟩
      by_contra hfits
      have hok : decode (used ++ rest) = .ok (groupSum used, rest) :=
        decode_eq_ok_iff.2 ⟨used, rfl, hused, by omega, rfl, by omega⟩
      cases he.symm.trans hok
  · intro h
    cases hdecode : decode bytes with
    | error e => exact ⟨e, rfl⟩
    | ok found =>
      obtain ⟨n, rest⟩ := found
      obtain ⟨used, rfl, hused, hlen, rfl, hword⟩ := decode_eq_ok_iff.1 hdecode
      rcases h with hall | ⟨used', rest', heq, hused', hlimit⟩
      · obtain ⟨byte, hmem, hlast⟩ := hused.exists_last
        have := hall byte (List.mem_append_left rest hmem)
        omega
      · obtain rfl := hused.unique hused' heq
        omega

/-- A word is appended in as many bytes as its size says, and read back in front of anything.
Whatever bytes are given, decoding answers the exact sum of at most ten of them, the last one being
the first that ends the integer; and it fails, with an inconsistent stream, exactly where no byte
ends it, or where those up to the end are more than ten or add up to more than a word holds. -/
theorem integers_are_exact :
    (∀ (value : UInt64) (out : Array UInt8), ∃ bytes : List UInt8,
      encodeOnto out value.toNat = out ++ bytes ∧ bytes.length = encodedSize value.toNat ∧
        ∀ rest, decode (bytes ++ rest) = .ok (value.toNat, rest)) ∧
    ∀ bytes : List UInt8,
      (∀ n rest, decode bytes = .ok (n, rest) ↔
        ∃ used, bytes = used ++ rest ∧ Terminated used ∧ used.length ≤ 10 ∧ n = groupSum used ∧
        n < 2 ^ 64) ∧
      (∀ e, decode bytes = .error e → ∃ cause, e = .corruption cause) ∧
      ((∃ e, decode bytes = .error e) ↔
        (∀ byte ∈ bytes, 128 ≤ byte.toNat) ∨
          ∃ used rest, bytes = used ++ rest ∧ Terminated used ∧
          (2 ^ 64 ≤ groupSum used ∨ 10 < used.length)) := by
  refine ⟨fun value out => ?_, fun bytes => ⟨fun n rest => decode_eq_ok_iff, fun e he => ?_,
    decode_fails_iff bytes⟩⟩
  · exact ⟨encode value.toNat, encodeOnto_eq out _, length_encode _, decode_encode value.toNat_lt⟩
  · rcases guarded_decode bytes with ⟨found, hok, -⟩ | ⟨cause, hcorrupt⟩
    · cases he.symm.trans hok
    · exact ⟨cause, Except.error.inj (he.symm.trans hcorrupt)⟩

/-- 300 takes two bytes behind whatever is there. A tenth group of two bits is refused, although its
byte is the last. -/
theorem wideTenthGroup_is_refused :
    (∃ bytes : List UInt8, encodeOnto #[7] 300 = (#[7] : Array UInt8) ++ bytes ∧ bytes.length = 2 ∧
      decode (bytes ++ [5]) = .ok (300, [5])) ∧
    ∃ cause, decode (List.replicate 9 128 ++ [2, 5]) = corrupt cause := by
  obtain ⟨hwords, hbytes⟩ := integers_are_exact
  constructor
  · obtain ⟨bytes, hencode, hlen, hdecode⟩ := hwords 300 #[7]
    exact ⟨bytes, hencode, hlen.trans (by decide), hdecode [5]⟩
  · obtain ⟨-, hcorrupt, hfails⟩ := hbytes (List.replicate 9 128 ++ [2, 5])
    have hsum : 2 ^ 64 ≤ groupSum (List.replicate 9 128 ++ [2]) := by decide
    obtain ⟨e, he⟩ := hfails.2 (.inr ⟨List.replicate 9 128 ++ [2], [5], rfl, by decide, .inl hsum⟩)
    obtain ⟨cause, rfl⟩ := hcorrupt e he
    exact ⟨cause, he⟩

end SampledSeq.Base128
