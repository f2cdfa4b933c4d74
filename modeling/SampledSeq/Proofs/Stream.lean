import Mathlib.Data.List.Basic
import SampledSeq.Error
import SampledSeq.Proofs.Bits.View
import SampledSeq.Proofs.Outcome
import SampledSeq.Stream

/-!
# Streams that are read and written

From the steps of a reader to the reader: which bytes it takes, and how it can fail. Everything that
is stored is written as a single write would write it, and read from exactly its own bytes.
-/

/-!
## Reading exactly what was written

A reader of a stored form knows from the bytes themselves where they end. `Load.Reads` says so of
one run, and `Load.Exact` of every run that succeeds; both carry over from the steps of a reader to
the reader (`Load.Reads.bind`, `Load.Exact.bind`). A writer adds its bytes to the sink as a single
write would (`Store.Writes`).

For every field the lemma `…_eq_ok` says from which bytes it is read: no two of them give the same
value.
-/

namespace SampledSeq

/-! ### Readers -/

namespace Load

variable {α β : Type}

/-- The reader takes the bytes `used` and answers `a`. What lies behind them is left alone, a stream
that ends before them is refused, and a device that fails before them is reported. -/
structure Reads (x : Load α) (used : List UInt8) (a : α) : Prop where
  read : ∀ rest ending, x.run ⟨used ++ rest, ending⟩ = .ok (a, ⟨rest, ending⟩)
  cut : ∀ part ending, part <+: used → part ≠ used → ending.failure = none →
    ∃ cause, x.run ⟨part, ending⟩ = corrupt cause
  failed : ∀ part ending failure, part <+: used → part ≠ used → ending.failure = some failure →
    x.run ⟨part, ending⟩ = .error (.ofRead failure)

/-- Every answer was read from exactly the bytes that are gone. -/
def Exact (x : Load α) : Prop := ∀ ⦃source a source'⦄, x.run source = .ok (a, source') →
  ∃ used, source = ⟨used ++ source'.rest, source'.ending⟩ ∧ Reads x used a

theorem run_bind_of_ok {x : Load α} {f : α → Load β} {source source' : Source} {a : α}
    (h : x.run source = .ok (a, source')) : (x >>= f).run source = (f a).run source' := by
  rw [StateT.run_bind, h, ok_bind]

theorem run_bind_of_error {x : Load α} {f : α → Load β} {source : Source} {e : Error}
    (h : x.run source = .error e) :
    (x >>= f).run source = .error e := by
  rw [StateT.run_bind, h, error_bind]

theorem run_check (x : Except Error Unit) (a : α) (source : Source) :
    (do liftM x; pure a : Load α).run source = x.map fun _ => (a, source) := by
  cases x <;> rfl

theorem Reads.pure (a : α) : Reads (pure a) [] a where
  read _ _ := rfl
  cut _ _ hpart hne := absurd (List.prefix_nil.1 hpart) hne
  failed _ _ _ hpart hne := absurd (List.prefix_nil.1 hpart) hne

/-- A stream that ends too early for two parts ends within the first one, or within the second. -/
theorem prefix_append_cases {first second part : List UInt8} (hpart : part <+: first ++ second)
    (hne : part ≠ first ++ second) :
    (part <+: first ∧ part ≠ first) ∨ ∃ part', part = first ++ part' ∧ part' <+: second ∧
    part' ≠ second := by
  by_cases hfirst : first <+: part
  · obtain ⟨part', rfl⟩ := hfirst
    exact .inr ⟨part', rfl, (List.prefix_append_right_inj first).1 hpart, fun h => hne (h ▸ rfl)⟩
  · have hpart' : part <+: first :=
      (List.prefix_or_prefix_of_prefix hpart (List.prefix_append first second)).resolve_right hfirst
    exact .inl ⟨hpart', fun h => hfirst (h ▸ List.prefix_rfl)⟩

/-- Two readers one after the other take the bytes of the first, then those of the second. -/
theorem Reads.bind {x : Load α} {f : α → Load β} {first second : List UInt8} {a : α} {b : β}
    (hx : Reads x first a) (hf : Reads (f a) second b) : Reads (x >>= f) (first ++ second) b where
  read rest ending := by
    rw [List.append_assoc, run_bind_of_ok (hx.read _ _), hf.read]
  cut part ending hpart hne hends := by
    obtain ⟨hpart, hne⟩ | ⟨part', rfl, hpart, hne⟩ := prefix_append_cases hpart hne
    · obtain ⟨cause, hcause⟩ := hx.cut part ending hpart hne hends
      exact ⟨cause, run_bind_of_error hcause⟩
    · obtain ⟨cause, hcause⟩ := hf.cut part' ending hpart hne hends
      exact ⟨cause, (run_bind_of_ok (hx.read part' ending)).trans hcause⟩
  failed part ending failure hpart hne hfails := by
    obtain ⟨hpart, hne⟩ | ⟨part', rfl, hpart, hne⟩ := prefix_append_cases hpart hne
    · exact run_bind_of_error (hx.failed part ending failure hpart hne hfails)
    · exact (run_bind_of_ok (hx.read part' ending)).trans
        (hf.failed part' ending failure hpart hne hfails)

theorem Exact.pure (a : α) : Exact (pure a) := by
  intro source b source' h
  obtain ⟨rfl, rfl⟩ := pure_eq_ok.1 h
  exact ⟨[], rfl, .pure a⟩

/-- Readers that are exact one by one are exact together. -/
theorem Exact.bind {x : Load α} {f : α → Load β} (hx : Exact x) (hf : ∀ a, Exact (f a)) :
    Exact (x >>= f) := by
  intro source b source'' h
  obtain ⟨a, source', ha, hb⟩ := bind_eq_ok.1 h
  obtain ⟨first, rfl, hfirst⟩ := hx ha
  obtain ⟨second, rfl, hsecond⟩ := hf a hb
  exact ⟨first ++ second, by rw [List.append_assoc], hfirst.bind hsecond⟩

theorem Exact.lift (x : Except Error α) : Exact (liftM x : Load α) := by
  intro source a source' h
  obtain ⟨rfl, rfl⟩ := lift_eq_ok.1 h
  exact ⟨[], rfl, .pure a⟩

theorem Exact.check {refused : Prop} [Decidable refused] {cause : Corruption} {f : α → Load β}
    {x : Load β} (hx : Exact x) :
    Exact (if refused then (liftM (corrupt cause : Except Error α) : Load α) >>= f else x) := by
  by_cases h : refused
  · intro _ _ _ hok
    exact absurd h (check_eq_ok.1 hok).1
  · rwa [if_neg h]

end Load

/-! ### Fields -/

namespace Source

open Load

variable {n : Nat} {source source' : Source}

theorem readBytes_eq_ok {bytes : List UInt8} : (readBytes n).run source = .ok (bytes, source') ↔
    bytes.length = n ∧ source = ⟨bytes ++ source'.rest, source'.ending⟩ := by
  constructor
  · intro h
    simp only [readBytes, StateT.run] at h
    split at h
    · rename_i taken rest hcut
      obtain ⟨rfl, rfl⟩ := Prod.mk.inj (Except.ok.inj h)
      obtain ⟨hrest, hlen⟩ := Cut.eq_append_of_exact hcut
      exact ⟨hlen, by rw [← hrest]⟩
    · cases h
  · rintro ⟨rfl, rfl⟩
    simp only [readBytes, StateT.run, Cut.exact_append]

/-- The beginning of a field is not a whole field. -/
theorem cut_part {part used : List UInt8} (hpart : part <+: used) (hne : part ≠ used) :
    Cut.exact used.length part = none :=
  Cut.exact_eq_none_iff.2 (Nat.lt_of_le_of_ne hpart.length_le fun h => hne (hpart.eq_of_length h))

theorem exact_readBytes (n : Nat) : Exact (readBytes n) := by
  intro source bytes source' h
  obtain ⟨rfl, rfl⟩ := readBytes_eq_ok.1 h
  have hshort : ∀ part ending, part <+: bytes → part ≠ bytes →
      (readBytes bytes.length).run ⟨part, ending⟩ =
      .error (.ofRead (ending.failure.getD .endOfFile)) := by
    intro part ending hpart hne
    simp only [readBytes, StateT.run, cut_part hpart hne]
  refine ⟨bytes, rfl, fun rest ending => readBytes_eq_ok.2 ⟨rfl, rfl⟩, ?_, ?_⟩
  · intro part ending hpart hne hends
    exact ⟨.endOfInput, by rw [hshort part ending hpart hne, hends]; rfl⟩
  · intro part ending failure hpart hne hfails
    rw [hshort part ending hpart hne, hfails, Option.getD_some]

theorem readNumber_eq_ok {number : Nat} : (readNumber n).run source = .ok (number, source') ↔
    number < 256 ^ n ∧ source = ⟨Numeral.toBytes n number ++ source'.rest, source'.ending⟩ := by
  simp only [readNumber, Load.bind_eq_ok, readBytes_eq_ok, Load.pure_eq_ok]
  constructor
  · rintro ⟨bytes, source'', ⟨rfl, rfl⟩, rfl, rfl⟩
    exact ⟨Numeral.ofBytes_lt bytes, by rw [Numeral.toBytes_ofBytes]⟩
  · rintro ⟨hlt, rfl⟩
    exact ⟨_, _, ⟨Numeral.length_toBytes n number, rfl⟩, by rw [Numeral.ofBytes_toBytes,
      Nat.mod_eq_of_lt hlt], rfl⟩

theorem exact_readNumber (n : Nat) : Exact (readNumber n) :=
  (exact_readBytes n).bind fun _ => .pure _

def wordBytes (word : UInt64) : List UInt8 := Numeral.toBytes 8 word.toNat

theorem readWord_eq_ok {word : UInt64} : readWord.run source = .ok (word, source') ↔
    source = ⟨wordBytes word ++ source'.rest, source'.ending⟩ := by
  simp only [readWord, Load.bind_eq_ok, readNumber_eq_ok, Load.pure_eq_ok, wordBytes]
  constructor
  · rintro ⟨number, source'', ⟨hlt, rfl⟩, rfl, rfl⟩
    rw [UInt64.toNat_ofNat_of_lt' hlt]
  · rintro rfl
    exact ⟨word.toNat, source', ⟨word.toNat_lt, rfl⟩, UInt64.ofNat_toNat, rfl⟩

theorem exact_readWord : Exact readWord := (exact_readNumber 8).bind fun _ => .pure _

theorem readWordsOnto_eq_ok {words words' : Array UInt64} :
    (readWordsOnto words n).run source = .ok (words', source') ↔
    ∃ new : List UInt64, new.length = n ∧ words' = words ++ new ∧
      source = ⟨new.flatMap wordBytes ++ source'.rest, source'.ending⟩ := by
  induction n generalizing words source with
  | zero =>
    rw [readWordsOnto, Load.pure_eq_ok]
    constructor
    · rintro ⟨rfl, rfl⟩
      exact ⟨[], rfl, by simp, rfl⟩
    · rintro ⟨new, hlen, rfl, rfl⟩
      obtain rfl := List.length_eq_zero_iff.1 hlen
      exact ⟨by simp, rfl⟩
  | succ n ih =>
    simp only [readWordsOnto, Load.bind_eq_ok, readWord_eq_ok, ih]
    constructor
    · rintro ⟨word, source'', rfl, new, rfl, rfl, rfl⟩
      exact ⟨word :: new, rfl, by simp, by simp⟩
    · rintro ⟨new, hlen, rfl, rfl⟩
      obtain ⟨word, new, rfl⟩ := List.exists_cons_of_length_eq_add_one hlen
      exact ⟨word, ⟨new.flatMap wordBytes ++ source'.rest, source'.ending⟩, by simp, new,
        Nat.succ.inj hlen, by simp, rfl⟩

theorem exact_readWordsOnto (words : Array UInt64) (n : Nat) : Exact (readWordsOnto words n) := by
  induction n generalizing words with
  | zero => exact .pure words
  | succ n ih => exact exact_readWord.bind fun word => ih (words.push word)

theorem readWords_eq_ok {words : Array UInt64} : (readWords n).run source = .ok (words, source') ↔
    words.size = n ∧ source = ⟨words.toList.flatMap wordBytes ++ source'.rest, source'.ending⟩ := by
  rw [readWords, readWordsOnto_eq_ok]
  constructor
  · rintro ⟨new, rfl, rfl, rfl⟩
    simp
  · rintro ⟨rfl, rfl⟩
    exact ⟨words.toList, by simp, by simp, rfl⟩

theorem exact_readWords (n : Nat) : Exact (readWords n) := exact_readWordsOnto #[] n

theorem readPayload_eq_ok {payload : Array UInt8} :
    (readPayload n).run source = .ok (payload, source') ↔
    payload.size = n ∧ source = ⟨payload.toList ++ source'.rest, source'.ending⟩ := by
  constructor
  · intro h
    simp only [readPayload, StateT.run] at h
    split at h
    · rename_i taken rest hcut
      obtain ⟨rfl, rfl⟩ := Prod.mk.inj (Except.ok.inj h)
      obtain ⟨hrest, hlen⟩ := Cut.eq_append_of_exact hcut
      exact ⟨hlen, by rw [← hrest]⟩
    · split at h <;> cases h
  · rintro ⟨rfl, rfl⟩
    simp only [readPayload, StateT.run, ← Array.length_toList, Cut.exact_append]

theorem exact_readPayload (n : Nat) : Exact (readPayload n) := by
  intro source payload source' h
  obtain ⟨rfl, rfl⟩ := readPayload_eq_ok.1 h
  refine ⟨payload.toList, rfl, fun rest ending => readPayload_eq_ok.2 ⟨rfl, rfl⟩, ?_, ?_⟩
  · intro part ending hpart hne hends
    refine ⟨.payloadTruncated payload.size part.length, ?_⟩
    simp only [readPayload, StateT.run, ← Array.length_toList, cut_part hpart hne, hends]
  · intro part ending failure hpart hne hfails
    simp only [readPayload, StateT.run, ← Array.length_toList, cut_part hpart hne, hfails]

end Source

/-! ### Writers -/

namespace Store

variable {α β : Type}

/-- On every sink the writer does what one write of `bytes` does, and answers `a` where that
succeeds. -/
def Writes (x : Store α) (bytes : List UInt8) (a : α) : Prop :=
  ∀ sink, x.run.run sink = Prod.map (Except.map fun _ => a) id ((Sink.write bytes).run.run sink)

theorem run_write_none (bytes : List UInt8) (taken : Array UInt8) :
    (Sink.write bytes).run.run { taken } = (.ok bytes.length, { taken := taken ++ bytes }) := rfl

theorem run_write_of_le {bytes : List UInt8} {room : Nat} (h : bytes.length ≤ room)
    (taken : Array UInt8) :
    (Sink.write bytes).run.run ⟨some room, taken⟩ =
      (.ok bytes.length, ⟨some (room - bytes.length), taken ++ bytes⟩) :=
  if_pos h

theorem run_write_of_lt {bytes : List UInt8} {room : Nat} (h : room < bytes.length)
    (taken : Array UInt8) :
    (Sink.write bytes).run.run ⟨some room, taken⟩ =
      (.error (.device .sinkFull), ⟨some 0, taken ++ bytes.take room⟩) :=
  if_neg (Nat.not_le_of_lt h)

theorem Writes.pure (a : α) : Writes (pure a) [] a := by
  rintro ⟨room, taken⟩
  have htaken : taken ++ ([] : List UInt8) = taken := Array.appendList_nil
  cases room with
  | none => rw [run_write_none, htaken]; rfl
  | some room => rw [run_write_of_le (Nat.zero_le room), htaken]; rfl

/-- Two writers one after the other add the bytes of the first, then those of the second. -/
theorem Writes.bind {x : Store α} {f : α → Store β} {first second : List UInt8} {a : α} {b : β}
    (hx : Writes x first a) (hf : Writes (f a) second b) :
    Writes (x >>= f) (first ++ second) b := by
  rintro ⟨room, taken⟩
  have hjoin (taken : Array UInt8) (second : List UInt8) :
      taken ++ (first ++ second) = taken ++ first ++ second := by
    simp [← Array.toList_inj]
  have hlen : (first ++ second).length = first.length + second.length := List.length_append
  rw [ExceptT.run_bind, StateT.run_bind, hx]
  -- a bounded sink has room for both parts, for the first one only, or not even for that
  cases room with
  | none =>
    rw [run_write_none, run_write_none, hjoin]
    exact hf _
  | some room =>
    by_cases hfirst : first.length ≤ room
    · rw [run_write_of_le hfirst]
      refine (hf ⟨some (room - first.length), taken ++ first⟩).trans ?_
      by_cases hsecond : second.length ≤ room - first.length
      · rw [run_write_of_le hsecond, run_write_of_le (by omega), hjoin, hlen, Nat.sub_add_eq]
        rfl
      · rw [run_write_of_lt (by omega), run_write_of_lt (by omega), List.take_append,
          List.take_of_length_le hfirst, hjoin]
    · rw [run_write_of_lt (by omega), run_write_of_lt (by omega),
        List.take_append_of_le_length (by omega)]
      rfl

theorem writes_write (bytes : List UInt8) : Writes (Sink.write bytes) bytes bytes.length := by
  rintro ⟨room, taken⟩
  cases room with
  | none => rfl
  | some room =>
    by_cases h : bytes.length ≤ room
    · rw [run_write_of_le h]; rfl
    · rw [run_write_of_lt (by omega)]; rfl

theorem writes_writeWord (word : UInt64) :
    Writes (Sink.writeWord word) (Source.wordBytes word) 8 := by
  have h := writes_write (Source.wordBytes word)
  rwa [Source.wordBytes, Numeral.length_toBytes] at h

theorem length_wordBytes (words : List UInt64) :
    (words.flatMap Source.wordBytes).length = words.length * 8 := by
  simp [Source.wordBytes]

theorem writes_writeWords : ∀ words : List UInt64,
    Writes (Sink.writeWords words) (words.flatMap Source.wordBytes) (words.length * 8)
  | [] => .pure 0
  | word :: words => by
    have hlen : words.length * 8 + 8 = (word :: words).length * 8 := by simp [Nat.add_mul]
    have hrest := (writes_writeWords words).bind (f := fun tail => Pure.pure (8 + tail)) (.pure _)
    rw [List.append_nil, Nat.add_comm 8, hlen] at hrest
    exact (writes_writeWord word).bind hrest

end Store

end SampledSeq

/-!
## Answers from bytes that nobody vouches for

An operation on stored data is `Guarded` if all that can go wrong is the data: it answers something
of which a given property holds, or it reports an inconsistent stream. No other failure is left. In
particular it is never `Error.positionRange`: no sum, product or difference of positions leaves the
64-bit range, no shift takes as many bits as its word has, and no index lies behind what it indexes.
Guarded steps make a guarded operation (`Guarded.bind`), and
the same holds of readers, on a stream that just ends (`Load.Guarded`).
-/

namespace SampledSeq

/-- The answer has the property `p`, unless the stream is reported to be inconsistent. -/
def Guarded {α : Type} (p : α → Prop) (x : Except Error α) : Prop :=
  (∃ a, x = .ok a ∧ p a) ∨ ∃ cause, x = corrupt cause

namespace Guarded

variable {α β : Type} {p : α → Prop} {q : β → Prop}

theorem ok {a : α} (h : p a) : Guarded p (.ok a) := .inl ⟨a, rfl, h⟩

theorem corrupt (cause : Corruption) : Guarded p (SampledSeq.corrupt cause) := .inr ⟨cause, rfl⟩

theorem of_ok {x : Except Error α} (h : Guarded p x) {a : α} (hx : x = .ok a) : p a := by
  rcases h with ⟨a', ha, hp⟩ | ⟨cause, hcause⟩
  · obtain rfl := Except.ok.inj (ha.symm.trans hx)
    exact hp
  · cases hcause.symm.trans hx

theorem mono {x : Except Error α} {p' : α → Prop} (h : Guarded p x) (hp : ∀ a, p a → p' a) :
    Guarded p' x := by
  rcases h with ⟨a, rfl, ha⟩ | ⟨cause, rfl⟩
  · exact .ok (hp a ha)
  · exact .corrupt cause

/-- A step may rely on what the steps before it promise. -/
theorem bind {x : Except Error α} {f : α → Except Error β} (hx : Guarded p x)
    (hf : ∀ a, p a → Guarded q (f a)) :
    Guarded q (x >>= f) := by
  rcases hx with ⟨a, rfl, ha⟩ | ⟨cause, rfl⟩
  · exact hf a ha
  · exact .corrupt cause

theorem check {refused : Prop} [Decidable refused] {cause : Corruption} {f : α → Except Error β}
    {x : Except Error β} (hx : ¬ refused → Guarded q x) :
    Guarded q (if refused then SampledSeq.corrupt cause >>= f else x) := by
  by_cases h : refused
  · rw [if_pos h]
    exact .corrupt cause
  · rw [if_neg h]
    exact hx h

/-- Guarded steps for the items of a list are guarded together. -/
theorem mapM {f : α → Except Error β} {xs : List α} (hf : ∀ a ∈ xs, Guarded q (f a)) :
    Guarded (fun ys => ys.length = xs.length ∧ ∀ y ∈ ys, q y) (xs.mapM f) := by
  induction xs with
  | nil => exact .ok ⟨rfl, nofun⟩
  | cons x xs ih =>
    rw [List.mapM_cons]
    refine (hf x List.mem_cons_self).bind fun y hy => ?_
    refine (ih fun a ha => hf a (List.mem_cons_of_mem _ ha)).bind fun ys hys =>
      .ok ⟨by simp [hys.1], ?_⟩
    rintro y' (_ | ⟨_, hy'⟩)
    · exact hy
    · exact hys.2 y' hy'

end Guarded

/-! ### Readers -/

namespace Load

variable {α β : Type} {p : α → Prop} {q : β → Prop}

/-- The reader is guarded on every stream that just ends. -/
def Guarded (p : α → Prop) (x : Load α) : Prop :=
  ∀ bytes, SampledSeq.Guarded (fun r => p r.1 ∧ r.2.ending = .ends) (x.run { rest := bytes })

theorem Guarded.pure {a : α} (h : p a) : Guarded p (pure a) := fun _ => .ok ⟨h, rfl⟩

theorem Guarded.bind {x : Load α} {f : α → Load β} (hx : Guarded p x)
    (hf : ∀ a, p a → Guarded q (f a)) :
    Guarded q (x >>= f) := by
  intro bytes
  refine (hx bytes).bind ?_
  rintro ⟨a, rest, ending⟩ ⟨ha, rfl⟩
  exact hf a ha rest

theorem Guarded.lift {x : Except Error α} (h : SampledSeq.Guarded p x) :
    Guarded p (liftM x : Load α) := by
  intro bytes
  rcases h with ⟨a, rfl, ha⟩ | ⟨cause, rfl⟩
  · exact .ok ⟨ha, rfl⟩
  · exact .corrupt cause

theorem Guarded.check {refused : Prop} [Decidable refused] {cause : Corruption} {f : α → Load β}
    {x : Load β} (hx : ¬ refused → Guarded q x) :
    Guarded q (if refused then (liftM (corrupt cause : Except Error α) : Load α) >>= f else x) := by
  by_cases h : refused
  · rw [if_pos h]
    exact fun _ => .corrupt cause
  · rw [if_neg h]
    exact hx h

end Load

namespace Source

theorem guarded_readBytes (n : Nat) : Load.Guarded (fun _ => True) (readBytes n) := by
  intro bytes
  cases hcut : Cut.exact n bytes with
  | none => exact .inr ⟨.endOfInput, by simp only [readBytes, StateT.run, hcut]; rfl⟩
  | some cut => exact .inl ⟨_, by simp only [readBytes, StateT.run, hcut]; rfl, trivial, rfl⟩

theorem guarded_readNumber (n : Nat) : Load.Guarded (fun _ => True) (readNumber n) :=
  (guarded_readBytes n).bind fun _ _ => .pure trivial

theorem guarded_readWord : Load.Guarded (fun _ => True) readWord :=
  (guarded_readNumber 8).bind fun _ _ => .pure trivial

theorem guarded_readWordsOnto (words : Array UInt64) (n : Nat) :
    Load.Guarded (fun words' => words'.size = words.size + n) (readWordsOnto words n) := by
  induction n generalizing words with
  | zero => exact .pure rfl
  | succ n ih =>
    refine guarded_readWord.bind fun word _ => ?_
    have hrest := ih (words.push word)
    rwa [Array.size_push, Nat.add_assoc, Nat.add_comm 1] at hrest

theorem guarded_readWords (n : Nat) : Load.Guarded (fun words => words.size = n) (readWords n) := by
  have h := guarded_readWordsOnto #[] n
  rwa [Array.size_empty, Nat.zero_add] at h

theorem guarded_readPayload (n : Nat) : Load.Guarded (fun _ => True) (readPayload n) := by
  intro bytes
  cases hcut : Cut.exact n bytes with
  | none =>
    exact .inr ⟨.payloadTruncated n bytes.length, by simp only [readPayload, StateT.run, hcut]; rfl⟩
  | some cut => exact .inl ⟨_, by simp only [readPayload, StateT.run, hcut]; rfl, trivial, rfl⟩

end Source

end SampledSeq
