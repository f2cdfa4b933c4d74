import SampledSeq.Blocks
import SampledSeq.Stream

/-!
# Taking computations apart

Two kinds of computation run through the library: answers that may be an error, and steps that fill
the slots of a buffer in place. Here is what they do when they are put together.
-/

/-!
## Taking answers apart

An operation that may fail answers a value exactly if all its parts do: `bind_eq_ok` for one step,
`mapM_eq_ok` for a list of steps, `Load.bind_eq_ok` for a step that also consumes a stream.
-/

namespace SampledSeq

section
variable {ε α β : Type}

theorem bind_eq_ok {x : Except ε α} {f : α → Except ε β} {b : β} :
    (x >>= f) = .ok b ↔ ∃ a, x = .ok a ∧ f a = .ok b := by
  cases x with
  | error e => exact ⟨nofun, nofun⟩
  | ok a => exact ⟨fun h => ⟨a, rfl, h⟩, fun ⟨_, ha, h⟩ => Except.ok.inj ha ▸ h⟩

@[simp] theorem ok_bind (a : α) (f : α → Except ε β) : (Except.ok a >>= f) = f a := rfl

@[simp] theorem error_bind (e : ε) (f : α → Except ε β) : (Except.error e >>= f) = .error e := rfl

@[simp] theorem pure_eq_ok (a : α) : (pure a : Except ε α) = .ok a := rfl

/-- A list of steps succeeds exactly if every step does. -/
theorem mapM_eq_ok {f : α → Except ε β} {xs : List α} {ys : List β} :
    xs.mapM f = .ok ys ↔
    ys.length = xs.length ∧ ∀ i (h : i < xs.length) (h' : i < ys.length), f xs[i] = .ok ys[i] := by
  induction xs generalizing ys with
  | nil => cases ys <;> simp
  | cons x xs ih =>
    rw [List.mapM_cons, bind_eq_ok]
    constructor
    · rintro ⟨y, hy, h⟩
      obtain ⟨ys', hys, h⟩ := bind_eq_ok.1 h
      obtain rfl : y :: ys' = ys := Except.ok.inj h
      obtain ⟨hlen, hall⟩ := ih.1 hys
      refine ⟨by simp [hlen], ?_⟩
      intro i hi hi'
      cases i with
      | zero => exact hy
      | succ i => exact hall i (by simpa using hi) (by simpa using hi')
    · rintro ⟨hlen, hall⟩
      cases ys with
      | nil => simp at hlen
      | cons y ys =>
        refine ⟨y, hall 0 (by simp) (by simp),
          bind_eq_ok.2 ⟨ys, ih.2 ⟨by simpa using hlen, ?_⟩, rfl⟩⟩
        intro i hi hi'
        exact hall (i + 1) (by simpa using hi) (by simpa using hi')

end

@[simp] theorem corrupt_bind {α β : Type} (cause : Corruption) (f : α → Except Error β) :
    (corrupt cause >>= f) = corrupt cause := rfl

@[simp] theorem corrupt_ne_ok {α : Type} (cause : Corruption) (a : α) : corrupt cause ≠ .ok a :=
  nofun

/-- Behind a check, an answer means that nothing was refused. -/
theorem check_eq_ok {α β : Type} {refused : Prop} [Decidable refused] {cause : Corruption}
    {f : α → Except Error β} {x : Except Error β} {b : β} :
    (if refused then corrupt cause >>= f else x) = .ok b ↔ ¬ refused ∧ x = .ok b := by
  by_cases h : refused <;> simp [h]

/-! ### Steps that consume a stream -/

namespace Load

variable {α β : Type} {source : Source}

/-- A step hands the bytes that it leaves to the next step. -/
theorem bind_eq_ok {x : Load α} {f : α → Load β} {r : β × Source} :
    (x >>= f).run source = .ok r ↔ ∃ a source', x.run source = .ok (a, source') ∧
    (f a).run source' = .ok r := by
  simp only [StateT.run_bind, SampledSeq.bind_eq_ok, Prod.exists]

theorem pure_eq_ok {a b : α} {source' : Source} :
    (pure a : Load α).run source = .ok (b, source') ↔ a = b ∧ source = source' := by
  simp [StateT.run_pure]

theorem lift_eq_ok {x : Except Error α} {a : α} {source' : Source} :
    (liftM x : Load α).run source = .ok (a, source') ↔ x = .ok a ∧ source = source' := by
  cases x with
  | error e => exact ⟨nofun, nofun⟩
  | ok b => exact pure_eq_ok.trans (by simp)

theorem check_eq_ok {refused : Prop} [Decidable refused] {cause : Corruption} {f : α → Load β}
    {x : Load β} {r : β × Source} :
    (if refused then (liftM (corrupt cause : Except Error α) : Load α) >>= f
    else x).run source = .ok r ↔
      ¬ refused ∧ x.run source = .ok r := by
  by_cases h : refused
  · simp only [h, if_true, bind_eq_ok, lift_eq_ok, not_true, false_and, corrupt_ne_ok, exists_false]
  · simp [h]

end Load

end SampledSeq

/-!
## What filling in place leaves behind

A step that works on the first slots of a buffer is described by what it makes of their content, for
every content of the slots behind them: these it neither reads nor writes (`Fill.Turns`). So steps
compose like the computations on lists that describe them, and a step on some slots is one on more
slots as well (`Turns.frame`).
-/

namespace SampledSeq.Fill

/-- Started on slots with the content `before`, a step leaves them with the content that an outcome
says, or fails with the error that it says and leaves something in them. What lies behind these
slots makes no difference, and stays. -/
def Turns (x : Fill Unit) (before : List UInt64) (outcome : Except Error (List UInt64)) : Prop :=
  ∃ after : List UInt64, after.length = before.length ∧
    (∀ values, outcome = .ok values → after = values) ∧
    ∀ rest, x.run.run (before ++ rest).toArray = (outcome.map fun _ => (), (after ++ rest).toArray)

variable {x : Fill Unit} {before : List UInt64} {outcome : Except Error (List UInt64)}

/-! ### Composing steps -/

theorem Turns.pure (before : List UInt64) : Turns (return ()) before (.ok before) :=
  ⟨before, rfl, fun _ => Except.ok.inj, fun _ => rfl⟩

theorem Turns.fail (e : Error) (before : List UInt64) :
    Turns (liftM (.error e : Except Error Unit)) before (.error e) :=
  ⟨before, rfl, nofun, fun _ => rfl⟩

theorem Turns.length_eq {after : List UInt64} (h : Turns x before (.ok after)) :
    after.length = before.length := by
  obtain ⟨_, hlen, hafter, -⟩ := h
  rw [← hafter after rfl, hlen]

/-- A computation that does not use the buffer comes before a step. -/
theorem Turns.lift_bind {α : Type} {a : Except Error α} {f : α → Fill Unit}
    {q : α → Except Error (List UInt64)} (h : ∀ v, a = .ok v → Turns (f v) before (q v)) :
    Turns (liftM a >>= f) before (a >>= q) := by
  cases a with
  | error e => exact ⟨before, rfl, nofun, fun _ => rfl⟩
  | ok v => exact h v rfl

theorem Turns.bind {f : Unit → Fill Unit} {q : List UInt64 → Except Error (List UInt64)}
    (hx : Turns x before outcome)
    (hf : ∀ middle, outcome = .ok middle → Turns (f ()) middle (q middle)) :
    Turns (x >>= f) before (outcome >>= q) := by
  obtain ⟨middle, hlen, hmiddle, hrun⟩ := hx
  cases outcome with
  | error e =>
    refine ⟨middle, hlen, nofun, fun rest => ?_⟩
    rw [ExceptT.run_bind, StateT.run_bind, hrun]
    rfl
  | ok values =>
    obtain rfl := hmiddle values rfl
    obtain ⟨after, hlen', hafter, hrun'⟩ := hf middle rfl
    refine ⟨after, hlen'.trans hlen, hafter, fun rest => ?_⟩
    rw [ExceptT.run_bind, StateT.run_bind, hrun]
    exact hrun' rest

theorem Turns.seq {f : Unit → Fill Unit} {middle : List UInt64} (hx : Turns x before (.ok middle))
    (hf : Turns (f ()) middle outcome) : Turns (x >>= f) before outcome :=
  hx.bind (q := fun _ => outcome) fun _ h => Except.ok.inj h ▸ hf

theorem Turns.stop {f : Unit → Fill Unit} {e : Error} (hx : Turns x before (.error e)) :
    Turns (x >>= f) before (.error e) :=
  hx.bind (q := .ok) nofun

/-- More slots stay as they are. -/
theorem Turns.frame (h : Turns x before outcome) (later : List UInt64) :
    Turns x (before ++ later) (do return (← outcome) ++ later) := by
  obtain ⟨after, hlen, hafter, hrun⟩ := h
  refine ⟨after ++ later, by rw [List.length_append, List.length_append, hlen], ?_, fun rest => ?_⟩
  · intro values hvalues
    obtain ⟨_, rfl, hvalues⟩ := bind_eq_ok.1 hvalues
    rw [hafter _ rfl]
    exact Except.ok.inj hvalues
  · rw [List.append_assoc, List.append_assoc, hrun]
    cases outcome <;> rfl

/-! ### Single slots -/

variable {done todo : List UInt64} {value : UInt64}

theorem turns_put (done todo : List UInt64) (old value : UInt64) :
    Turns (put done.length value) (done ++ old :: todo) (.ok (done ++ value :: todo)) := by
  refine ⟨done ++ value :: todo, by simp, fun _ => Except.ok.inj, fun rest => ?_⟩
  have hslot : done.length < ((done ++ old :: todo) ++ rest).toArray.size := by simp
  have hrun : (put done.length value).run.run ((done ++ old :: todo) ++ rest).toArray = _ :=
    dif_pos hslot
  rw [hrun]
  simp [Except.map]

theorem Turns.slot_bind {f : UInt64 → Fill Unit}
    (h : Turns (f value) (done ++ value :: todo) outcome) :
    Turns (slot done.length >>= f) (done ++ value :: todo) outcome := by
  obtain ⟨after, hlen, hafter, hrun⟩ := h
  refine ⟨after, hlen, hafter, fun rest => ?_⟩
  have hslot : Position.get ((done ++ value :: todo) ++ rest).toArray done.length = .ok value := by
    simp [Position.get]
  have hread : (slot done.length).run.run ((done ++ value :: todo) ++ rest).toArray =
      (.ok value, _) :=
    congrArg (·, _) hslot
  rw [ExceptT.run_bind, StateT.run_bind, hread]
  exact hrun rest

theorem turns_change (f : UInt64 → Except Error UInt64) (done todo : List UInt64) (old : UInt64) :
    Turns (change f done.length) (done ++ old :: todo) (do return done ++ (← f old) :: todo) :=
  .slot_bind (.lift_bind fun value _ => turns_put done todo old value)

/-! ### Many slots -/

theorem turns_putAll (done : List UInt64) {now : List UInt64} (later : List UInt64)
    {values : List UInt64} (h : now.length = values.length) :
    Turns (putAll done.length values) (done ++ now ++ later) (.ok (done ++ values ++ later)) := by
  induction values generalizing done now with
  | nil =>
    obtain rfl := List.length_eq_zero_iff.1 h
    exact .pure _
  | cons value values ih =>
    obtain ⟨old, now, rfl⟩ := List.exists_cons_of_length_eq_add_one h
    have hnext := ih (done ++ [value]) (Nat.succ.inj h)
    simp only [List.length_append, List.append_assoc, List.cons_append, List.nil_append] at hnext ⊢
    exact (turns_put done (now ++ later) old value).seq hnext

theorem turns_changeAll (f : UInt64 → Except Error UInt64) (done now : List UInt64) :
    Turns (changeAll f now.length done.length) (done ++ now)
      (do return done ++ (← now.mapM f)) := by
  induction now generalizing done with
  | nil => exact .pure _
  | cons old now ih =>
    have hchange := turns_change f done now old
    have hnext := fun value => ih (done ++ [value])
    simp only [List.length_append, List.append_assoc, List.cons_append, List.nil_append] at hnext ⊢
    rw [List.mapM_cons]
    cases hf : f old with
    | error e =>
      rw [hf] at hchange
      exact hchange.stop
    | ok value =>
      rw [hf] at hchange
      rw [ok_bind, bind_assoc]
      exact hchange.seq (hnext value)

theorem return_nil_append (p : Except Error (List UInt64)) : (do return [] ++ (← p)) = p := by
  cases p <;> rfl

/-- Slots that a step has turned are replaced one by one. -/
theorem Turns.changeAll (h : Turns x before outcome) (f : UInt64 → Except Error UInt64) :
    Turns (do x; Fill.changeAll f before.length 0) before (do (← outcome).mapM f) := by
  refine h.bind fun middle hmiddle => ?_
  rw [hmiddle] at h
  have hchange := turns_changeAll f [] middle
  rwa [return_nil_append, h.length_eq] at hchange

/-- The slots of a list, each as the item of its place turns it. -/
def turned {α : Type} (f : Nat → α → UInt64 → UInt64) : Nat → List UInt64 → List α → List UInt64
  | i, old :: now, item :: items => f i item old :: turned f (i + 1) now items
  | _, _, _ => []

theorem length_turned {α : Type} {f : Nat → α → UInt64 → UInt64} {i : Nat} {now : List UInt64}
    {items : List α} (h : now.length = items.length) :
    (turned f i now items).length = items.length := by
  induction items generalizing i now with
  | nil => cases now <;> rfl
  | cons item items ih =>
    obtain ⟨old, now, rfl⟩ := List.exists_cons_of_length_eq_add_one h
    rw [turned, List.length_cons, List.length_cons, ih (Nat.succ.inj h)]

theorem turned_append {α : Type} {f : Nat → α → UInt64 → UInt64} {i : Nat} {now later : List UInt64}
    {items : List α} (h : now.length = items.length) (more : List α) :
    turned f i (now ++ later) (items ++ more) = turned f i now items ++ turned f (i + items.length)
      later more := by
  induction items generalizing i now with
  | nil =>
    obtain rfl := List.length_eq_zero_iff.1 h
    rfl
  | cons item items ih =>
    obtain ⟨old, now, rfl⟩ := List.exists_cons_of_length_eq_add_one h
    rw [List.cons_append, List.cons_append, turned, turned, ih (Nat.succ.inj h), List.cons_append,
      List.length_cons, Nat.add_assoc, Nat.add_comm 1]

/-- Steps that turn one slot each turn all of them, if every item is one for its number. -/
theorem turns_each {α : Type} {step : Nat → α → Fill Unit} {p : Nat → α → Prop}
    {f : Nat → α → UInt64 → UInt64}
    (hstep : ∀ (done todo : List UInt64) old item, p done.length item →
      Turns (step done.length item) (done ++ old :: todo)
      (.ok (done ++ f done.length item old :: todo)))
    (done : List UInt64) {now : List UInt64} (later : List UInt64) {items : List α}
    (h : now.length = items.length)
    (hitems : ∀ k (h : k < items.length), p (done.length + k) items[k]) :
    Turns (each step done.length items) (done ++ now ++ later)
    (.ok (done ++ turned f done.length now items ++ later)) := by
  induction items generalizing done now with
  | nil =>
    obtain rfl := List.length_eq_zero_iff.1 h
    exact .pure _
  | cons item items ih =>
    obtain ⟨old, now, rfl⟩ := List.exists_cons_of_length_eq_add_one h
    have hitems' :
        ∀ k (h : k < items.length), p ((done ++ [f done.length item old]).length + k) items[k] := by
      intro k hk
      simpa [Nat.add_assoc, Nat.add_comm 1] using hitems (k + 1) (Nat.succ_lt_succ hk)
    have hnext := ih (done ++ [f done.length item old]) (Nat.succ.inj h) hitems'
    simp only [List.length_append, List.append_assoc, List.cons_append, List.nil_append] at hnext ⊢
    exact (hstep done (now ++ later) old item (hitems 0 (Nat.zero_lt_succ _))).seq hnext

end SampledSeq.Fill
