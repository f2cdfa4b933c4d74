import SampledSeq.Proofs.DeltaSeq.RoundTrip
import SampledSeq.Proofs.HybridSeq.RoundTrip
import SampledSeq.Proofs.Reader.History
import SampledSeq.Variant

/-!
# Containers as bytes and in buffers

What holds of every container is stated here once for all of them: it comes back from its bytes,
whatever follows them, however little room there was for them and wherever they break off, and its
blocks come into any buffer.
-/

/-!
## Stored containers come back

Whatever was built is accepted again, and so are stored forms that follow each other in a stream,
each with its own bytes (`streams_come_back`). The stored forms are all that is accepted, whoever
wrote them: a container has only one, and no byte can be left out or added
(`accepted_bytes_are_canonical`).
-/

namespace SampledSeq.Variant

open BlockSequence

variable {variant : Variant} {size : Nat}

instance (variant : Variant) (size : Nat) : Canonical (variant.Seq size) :=
  match variant with
  | delta codec => inferInstanceAs (Canonical (DeltaSeq codec size))
  | hybrid => inferInstanceAs (Canonical (HybridSeq size))

theorem reads_of_ofList (hsize : variant.Admits size) {values : List UInt64}
    (hlen : values.length < 2 ^ 56) {s : variant.Seq size}
    (h : (variant.ofList size values).result = .ok s) : Load.Reads load (toBytes s) s := by
  cases variant with
  | delta codec =>
    obtain ⟨narrow, rfl, rfl⟩ := DeltaSeq.exists_built_of_ofList hsize.pos h
    rw [List.length_map] at hlen
    exact (DeltaSeq.accepted_built hsize.dvd hsize.pos hsize.lt hlen).reads
  | hybrid =>
    obtain rfl := HybridSeq.built_of_ofList hsize.pos h
    exact (HybridSeq.accepted_built hsize.pos hlen).reads

/-- Containers that were built come back from a stream that holds their stored forms one after the
other, and what lies behind the last one is left alone. Each of them also comes back from its own
bytes, which are as many as writing it answers. -/
theorem streams_come_back (hsize : variant.Admits size) {containers : List (variant.Seq size)}
    (hbuilt : ∀ s ∈ containers, ∃ values : List UInt64, values.length < 2 ^ 56 ∧
      (variant.ofList size values).result = .ok s)
    (rest : List UInt8) (ending : Ending) :
    (loadMany containers.length).run ⟨containers.flatMap toBytes ++ rest, ending⟩ =
      .ok (containers, ⟨rest, ending⟩) ∧
      ∀ s ∈ containers, (ofBytes (S := variant.Seq size) (toBytes s)).result = .ok s ∧
        ∀ taken : Array UInt8, (serialize s).run.run { taken } =
          (.ok (toBytes s).length, { taken := taken ++ toBytes s }) := by
  have hreads : ∀ s ∈ containers, Load.Reads load (toBytes s) s := by
    intro s hs
    obtain ⟨values, hlen, h⟩ := hbuilt s hs
    exact reads_of_ofList hsize hlen h
  refine ⟨run_loadMany hreads rest ending, fun s hs =>
    ⟨ofBytes_of_reads (hreads s hs), fun taken => ?_⟩⟩
  rw [Canonical.writes_serialize s, Store.run_write_none]
  rfl

theorem two_containers_come_back : ∃ first second : (delta .patched).Seq 32,
    ((delta .patched).ofList 32 [5, 3, 9]).result = .ok first ∧
      ((delta .patched).ofList 32 []).result = .ok second ∧
      (loadMany 2).run ⟨toBytes first ++ toBytes second ++ [7], .ends⟩ =
        .ok ([first, second], ⟨[7], .ends⟩) := by
  have hsize : (delta .patched).Admits 32 := ⟨by decide, by decide, by decide⟩
  obtain ⟨first, hfirst⟩ : ∃ s, ((delta .patched).ofList 32 [5, 3, 9]).result = .ok s :=
    ⟨_, DeltaSeq.ofList_narrow .patched (by decide) [5, 3, 9]⟩
  obtain ⟨second, hsecond⟩ : ∃ s, ((delta .patched).ofList 32 []).result = .ok s :=
    ⟨_, DeltaSeq.ofList_narrow .patched (by decide) []⟩
  have hbuilt : ∀ s ∈ [first, second], ∃ values : List UInt64, values.length < 2 ^ 56 ∧
      ((delta .patched).ofList 32 values).result = .ok s := by
    rintro s (_ | ⟨_, _ | ⟨_, hs⟩⟩)
    · exact ⟨[5, 3, 9], by decide, hfirst⟩
    · exact ⟨[], by decide, hsecond⟩
    · cases hs
  have hload := (streams_come_back hsize hbuilt [7] .ends).1
  rw [List.flatMap_cons, List.flatMap_singleton] at hload
  exact ⟨first, second, hfirst, hsecond, hload⟩

/-- What is accepted is the stored form of what it stands for, byte by byte: nothing that is shorter
is accepted, and nothing that is longer. -/
theorem accepted_bytes_are_canonical {bytes : List UInt8} {s : variant.Seq size}
    (h : (ofBytes (S := variant.Seq size) bytes).result = .ok s) :
    toBytes s = bytes ∧
      (∀ part, part <+: bytes → part ≠ bytes →
        ∃ cause, (ofBytes (S := variant.Seq size) part).result = corrupt cause) ∧
      ∀ rest, rest ≠ [] →
      ∃ cause, (ofBytes (S := variant.Seq size) (bytes ++ rest)).result = corrupt cause := by
  obtain ⟨hbytes, hreads⟩ := toBytes_of_ofBytes h
  exact ⟨hbytes, fun part hpart hne => ofBytes_part hreads hpart hne, fun rest hne =>
    ⟨_, ofBytes_append hreads hne⟩⟩

theorem threeValues_are_canonical : ∃ s : hybrid.Seq 2,
    (ofBytes (S := hybrid.Seq 2) HybridSeq.threeValueBytes).result = .ok s ∧
      toBytes s = HybridSeq.threeValueBytes ∧
      ∃ cause, (ofBytes (S := hybrid.Seq 2) (HybridSeq.threeValueBytes ++ [0])).result =
        corrupt cause := by
  let s : HybridSeq 2 := ⟨3, ⟨#[327271424], 5, 6⟩, #[5010448]⟩
  have hresult : (ofBytes (S := HybridSeq 2) HybridSeq.threeValueBytes).result = .ok s := by
    decide +kernel
  have hs : (ofBytes (S := hybrid.Seq 2) HybridSeq.threeValueBytes).result = .ok s := hresult
  obtain ⟨hbytes, -, hlonger⟩ := accepted_bytes_are_canonical hs
  exact ⟨s, hs, hbytes, hlonger [0] (List.cons_ne_nil _ _)⟩

end SampledSeq.Variant

/-!
## Writing into too little room

A container is written field by field, and the number of bytes is added up on the way. On any sink
this is the same as one write of its stored form (`Store.Writes`), so a sink with too little room
ends up with the beginning of the stored form, cut off at whatever byte the room ends, and none of
it twice or left out (`bounded_sinks_take_the_front`).
-/

namespace SampledSeq

/-- What a sink that was empty, with room for some bytes, answers and holds when `bytes` were
written to it: all of them and their number, or those that there is room for and a failure. -/
structure Clipped (bytes : List UInt8) (room : Nat) (r : Except Error Nat × Sink) : Prop where
  answer_eq : r.1 = if bytes.length ≤ room then .ok bytes.length else .error (.device .sinkFull)
  taken_eq : r.2.taken.toList = bytes.take (min room bytes.length)

/-- A writer that does what one write does is cut off like one write. -/
theorem Store.Writes.clipped {x : Store Nat} {bytes : List UInt8}
    (h : Store.Writes x bytes bytes.length) (room : Nat) :
    Clipped bytes room (x.run.run { room := some room }) := by
  rw [h]
  by_cases hroom : bytes.length ≤ room
  · rw [run_write_of_le hroom]
    exact ⟨(if_pos hroom).symm, by simp [Nat.min_eq_right hroom]⟩
  · have hlt : room < bytes.length := Nat.lt_of_not_le hroom
    rw [run_write_of_lt hlt]
    exact ⟨(if_neg hroom).symm, by simp [Nat.min_eq_left (Nat.le_of_lt hlt)]⟩

namespace Variant

open BlockSequence

/-- Writing any container or packed array into a sink with a given room succeeds exactly if there is
room for its whole stored form, and answers the length of that. Otherwise the sink has failed,
holding as much of the beginning as fits. -/
theorem bounded_sinks_take_the_front (variant : Variant) (size room : Nat) :
    (∀ s : variant.Seq size,
      Clipped (toBytes s) room ((serialize s).run.run { room := some room })) ∧
      ∀ t : PackedArray, Clipped t.toBytes room (t.serialize.run.run { room := some room }) := by
  refine ⟨fun s => (Canonical.writes_serialize s).clipped room, fun t => ?_⟩
  rw [t.toBytes_eq_stored]
  exact t.writes_serialize.clipped room

end Variant

end SampledSeq

/-!
## Decoding into a buffer that is not new

A caller may hand in the same buffer again and again, with whatever an earlier block left there, and
may keep something behind the slots of a block. Every container fills all slots of a block in place,
and what it leaves there does not depend on what they held (`Lawful`). So old content never shows up
in a block, and nothing behind a block is lost, also when it fails to decode halfway
(`Variant.buffers_are_framed`).
-/

namespace SampledSeq

open BlockSequence

/-- What decoding block `id` into a buffer depends on and what it changes, if a block has `size`
slots. -/
structure Framed {S : Type} [BlockSequence S] (size : Nat) (s : S) (id : Nat) : Prop where
  /-- Nothing in a buffer with room changes the answer. -/
  same : ∀ buffer other : Array UInt64, size ≤ buffer.size → size ≤ other.size →
    (decodeBlock s id buffer).1 = (decodeBlock s id other).1
  /-- A block that decodes leaves the same in its slots. -/
  slots : ∀ buffer other : Array UInt64, size ≤ buffer.size → size ≤ other.size → ∀ count,
    (decodeBlock s id buffer).1 = .ok count →
    ∀ j < size, (decodeBlock s id buffer).2[j]? = (decodeBlock s id other).2[j]?
  /-- Whether it decodes or not, the buffer keeps its length and what it has behind these slots. -/
  behind : ∀ buffer, (decodeBlock s id buffer).2.size = buffer.size ∧
    ∀ j, size ≤ j → (decodeBlock s id buffer).2[j]? = buffer[j]?
  /-- Without a block or without room, it is left as it is. -/
  refused : ∀ buffer, numBlocks s ≤ id ∨ buffer.size < size →
      ∃ e, decodeBlock s id buffer = (.error e, buffer)

theorem framed {S : Type} [BlockSequence S] [Lawful S] (s : S) (id : Nat) :
    Framed (blockSize S) s id where
  same buffer other hb hb' := by
    rcases Nat.lt_or_ge id (numBlocks s) with hid | hid
    · rw [decodeBlock_fst hid hb, decodeBlock_fst hid hb']
    · rw [decodeBlock_past_end s buffer hid, decodeBlock_past_end s other hid]
  slots buffer other hb hb' count hcount j hj := by
    have hdecode : decodeBlock s id buffer = (.ok count, (decodeBlock s id buffer).2) :=
      Prod.ext hcount rfl
    obtain ⟨hid, -⟩ := lt_of_decodeBlock_ok hdecode
    obtain ⟨values, hvalues, -⟩ := (decodeBlock_eq_ok hid hb).1 hdecode
    have hslot : j < values.length := by rwa [Lawful.length_offsets hid hvalues]
    rw [decodeBlock_of_ok hid hb hvalues, decodeBlock_of_ok hid hb' hvalues, getElem?_overlay hslot,
      getElem?_overlay hslot]
  behind buffer := by
    refine ⟨size_decodeBlock s id buffer, fun j hj => ?_⟩
    obtain h | ⟨-, written, hlen, h⟩ := exists_decodeBlock s id buffer
    · rw [h]
    · rw [h, getElem?_overlay_of_le (hlen ▸ hj)]
  refused _ h := exists_decodeBlock_of_refused h

/-- Whatever container it is of, intact or not, decoding a block gives the same for every buffer,
and changes nothing but the slots of the block. -/
theorem Variant.buffers_are_framed (variant : Variant) (size : Nat) (s : variant.Seq size)
    (id : Nat) :
    Framed size s id := by
  have hframed := framed s id
  rwa [Variant.blockSize_seq] at hframed

/-- The second block of this one has a low part, but no one for its upper part: the low part is
written all the same. -/
example : decodeBlock (⟨3, ⟨#[327271424], 5, 6⟩, #[291856]⟩ : HybridSeq 2) 1 #[7, 8, 9] =
    (corrupt (.upperShort 0 1), #[0, 8, 9]) := by decide +kernel

end SampledSeq

/-!
## Where a stream may break off

Every reader of a stored form is exact (`Load.Exact`), so what a container was loaded from decides
how loading goes on any shorter stream: the same as long as the bytes of the container are there,
whatever happens behind them, and otherwise a failure that says what ended the stream
(`Load.Takes`). The causes stay apart: bytes that are missing make an inconsistent stream, and a
device that fails does not, unless it calls its failure an unexpected end itself
(`ownEnd_is_corruption`).
-/

namespace SampledSeq

namespace Source

/-- The bytes in front of which a device is said to fail are not all there are, or it just ends. -/
theorem failingAt_of_lt {bytes : List UInt8} {n : Nat} (h : bytes.length < n) (ending : Ending) :
    failingAt bytes n ending = { rest := bytes } := by
  simp [failingAt, Nat.not_le_of_lt h, List.take_of_length_le (Nat.le_of_lt h)]

theorem failingAt_of_le {bytes : List UInt8} {n : Nat} (h : n ≤ bytes.length) (ending : Ending) :
    failingAt bytes n ending = ⟨bytes.take n, ending⟩ := by
  simp [failingAt, h]

end Source

namespace Load

variable {α : Type} {x : Load α}

/-- The reader answers `a` from the first `count` of the bytes. It looks at none behind them, and
needs all of them: a stream that is over before is inconsistent, and a device that fails before is
reported as its failure says. A read that is interrupted is tried again, so only what it comes to in
the end makes a difference. -/
structure Takes (x : Load α) (bytes : List UInt8) (count : Nat) (a : α) : Prop where
  count_le : count ≤ bytes.length
  enough : ∀ n ending, count ≤ n →
    x.run (.failingAt bytes n ending) = .ok (a, .failingAt (bytes.drop count) (n - count) ending)
  fails : ∀ n < count, ∀ ending failure, ending.failure = some failure →
    x.run (.failingAt bytes n ending) =
      .error (if failure.kind = .unexpectedEof then .corruption .endOfInput else .device failure)
  ends : ∀ n < count, ∀ ending, ending.failure = none →
    ∃ cause, x.run (.failingAt bytes n ending) = corrupt cause

/-- The bytes that are used up are those that are needed. -/
theorem Reads.takes {used : List UInt8} {a : α} (h : Reads x used a) (rest : List UInt8) :
    Takes x (used ++ rest) used.length a := by
  have hpart : ∀ n < used.length, ∀ ending,
      Source.failingAt (used ++ rest) n ending = ⟨(used ++ rest).take n, ending⟩ :=
    fun n hn ending => Source.failingAt_of_le (by rw [List.length_append]; omega) ending
  refine ⟨by simp, fun n ending hn => ?_, fun n hn ending failure hfails => ?_,
    fun n hn ending hends => ?_⟩
  · rw [List.drop_left]
    by_cases hle : n ≤ (used ++ rest).length
    · rw [List.length_append] at hle
      rw [Source.failingAt_of_le (by rwa [List.length_append]), Source.failingAt_of_le (by omega),
        List.take_append, List.take_of_length_le hn]
      exact h.read _ _
    · rw [List.length_append] at hle
      rw [Source.failingAt_of_lt (by rw [List.length_append]; omega),
        Source.failingAt_of_lt (by omega)]
      exact h.read _ _
  · obtain ⟨hstart, hne⟩ := Cut.take_part hn rest
    rw [hpart n hn]
    exact h.failed _ ending failure hstart hne hfails
  · obtain ⟨hstart, hne⟩ := Cut.take_part hn rest
    rw [hpart n hn]
    exact h.cut _ ending hstart hne hends

/-- An exact reader takes what is gone when it has answered. -/
theorem Exact.takes (h : Exact x) {bytes : List UInt8} {ending : Ending} {a : α} {source : Source}
    (hx : x.run ⟨bytes, ending⟩ = .ok (a, source)) :
    Takes x bytes (bytes.length - source.rest.length) a := by
  obtain ⟨used, hused, hreads⟩ := h hx
  obtain rfl : bytes = used ++ source.rest := congrArg Source.rest hused
  rw [List.length_append, Nat.add_sub_cancel]
  exact hreads.takes source.rest

end Load

namespace Variant

open BlockSequence

/-- Whatever bytes a container or a packed array is loaded from: it takes those that are gone
afterwards, so it is loaded just as well if the stream ends or fails behind them. If the stream ends
before them it is inconsistent, and if the device fails before them its failure is reported, unless
that is of the kind of an unexpected end. -/
theorem loading_takes_its_bytes (variant : Variant) (size : Nat) :
    (∀ (bytes : List UInt8) (s : variant.Seq size) (source : Source),
      load.run { rest := bytes } = .ok (s, source) →
      Load.Takes load bytes (bytes.length - source.rest.length) s) ∧
    ∀ (bytes : List UInt8) (t : PackedArray) (source : Source),
      PackedArray.load.run { rest := bytes } = .ok (t, source) →
      Load.Takes PackedArray.load bytes (bytes.length - source.rest.length) t :=
  ⟨fun _ _ _ h => Canonical.exact_load.takes h, fun _ _ _ h => PackedArray.exact_load.takes h⟩

/-- The stored form of three values takes 41 bytes, and a stream may fail behind them, but not
before the last one: a broken device is reported as such, also after an interruption. -/
theorem threeValues_take_their_bytes : ∃ s : hybrid.Seq 2,
    load.run (.failingAt HybridSeq.threeValueBytes 41) = .ok (s, .failingAt [] 0) ∧
      (load (S := hybrid.Seq 2)).run
        (.failingAt HybridSeq.threeValueBytes 40 (.interrupted (.fails .broken))) =
        .error (.device .broken) := by
  let s : HybridSeq 2 := ⟨3, ⟨#[327271424], 5, 6⟩, #[5010448]⟩
  have hload : (load (S := HybridSeq 2)).run { rest := HybridSeq.threeValueBytes } =
      .ok (s, { rest := [] }) := by
    decide +kernel
  have htakes := (loading_takes_its_bytes hybrid 2).1 _ s _ hload
  exact ⟨s, htakes.enough 41 _ (by decide), htakes.fails 40 (by decide) _ .broken rfl⟩

/-- A device may call its own failure an unexpected end. -/
def closedConnection : DeviceError := ⟨.unexpectedEof, "connection closed"⟩

/-- Where it does so in front of the last byte of three values, the failure of the device is not
what is reported. -/
theorem ownEnd_is_corruption :
    (∃ s : hybrid.Seq 2, load.run { rest := HybridSeq.threeValueBytes } =
      .ok (s, { rest := [] })) ∧
      40 < HybridSeq.threeValueBytes.length ∧
      (load (S := hybrid.Seq 2)).run
        (.failingAt HybridSeq.threeValueBytes 40 (.fails closedConnection)) =
        corrupt .endOfInput ∧
      (load (S := hybrid.Seq 2)).run
        (.failingAt HybridSeq.threeValueBytes 40 (.fails closedConnection)) ≠
        .error (.device closedConnection) := by
  let s : HybridSeq 2 := ⟨3, ⟨#[327271424], 5, 6⟩, #[5010448]⟩
  have hload : (load (S := HybridSeq 2)).run { rest := HybridSeq.threeValueBytes } =
      .ok (s, { rest := [] }) := by
    decide +kernel
  have hcorrupt :
      (load (S := HybridSeq 2)).run
        (.failingAt HybridSeq.threeValueBytes 40 (.fails closedConnection)) =
      corrupt .endOfInput := by decide +kernel
  refine ⟨⟨s, hload⟩, by decide, hcorrupt, fun h => ?_⟩
  cases hcorrupt.symm.trans h

end Variant

end SampledSeq
