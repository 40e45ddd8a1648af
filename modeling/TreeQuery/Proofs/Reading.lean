/-
What operators ask of a sequence depends on its trace only.

An operator that does not hand a sequence on asks whether it has an item, whether it counts as true,
which single value it has, or how long it is.  Each of these questions is a function of the trace, with
an equation that says so:

* `ItemStream.result_truth`, `ItemStream.result_holdsAt` — truth, as such and as a predicate;
* `ItemStream.result_single` — the single value of an operand;
* `Source.result_nonempty`, `Source.result_count` — whether there is an item, and how many.
-/
import TreeQuery.Proofs.Trace

namespace TreeQuery

/-! ### The value of an item -/

/-- The atomic value that a node stands for. -/
def Forest.value (f : Forest) (n : Nat) : Value :=
  match f.kind n with
  | .comment => .string (f.stringValue n)
  | .processingInstruction => .string (f.stringValue n)
  | _ => .untyped (f.stringValue n)

/-- The atomic value that an item stands for. -/
def Item.value (f : Forest) : Item → Value
  | node n => f.value n
  | atomic v => v

theorem Item.typedValue_eq (f : Forest) (a : Item) : a.typedValue f = [a.value f] := by
  cases a with
  | atomic v => rfl
  | node n =>
    simp only [Item.typedValue, Forest.typedValue, Item.value, Forest.value]
    cases f.kind n <;> rfl

namespace Trace

variable {t : Trace} {a : Item}

/-- The values that the items stand for. -/
def atomize (f : Forest) (t : Trace) : Trace :=
  ⟨t.items.map fun a => .atomic (a.value f), t.failure?⟩

/-- The first item, with what comes after it. -/
def first? (t : Trace) : Except Cause (Option (Item × Trace)) :=
  match t.items, t.failure? with
  | [], none => .ok none
  | [], some e => .error e
  | a :: rest, failure? => .ok (some (a, ⟨rest, failure?⟩))

/-- The only item: none, or one if nothing comes after it, where `several` is the failure if something
does. -/
def only (several : Cause) (t : Trace) : Except Cause (Option Item) :=
  t.first?.bind fun
    | none => .ok none
    | some (a, rest) => rest.first?.bind fun
      | none => .ok (some a)
      | some _ => .error several

/-- Whether a sequence counts as true. -/
def truth (t : Trace) : Except Cause Bool :=
  t.first?.bind fun
    | none => .ok false
    | some (.node _, _) => .ok true
    | some (.atomic v, rest) => rest.first?.bind fun
      | none => .ok v.truth
      | some _ => .error .truthOfSeveral

/-- Whether a sequence holds as a predicate at a position. -/
def holdsAt (t : Trace) (position : Nat) : Except Cause Bool :=
  t.first?.bind fun
    | none => .ok false
    | some (a, rest) =>
      match a.atomic?.bind (·.number?) with
      | some x => rest.first?.bind fun
        | none => .ok (x == doubleOfInt position)
        | some _ => .error .predicateOfSeveral
      | none => (cons a rest).truth

/-- The single value of a sequence. -/
def single (f : Forest) (t : Trace) : Except Cause (Option Value) :=
  (t.only .severalForOperand).map (·.map (·.value f))

/-- The number of a sequence that must have one. -/
def number (f : Forest) (t : Trace) : Except Cause Float :=
  (t.single f).bind fun
    | none => .error .emptyNumber
    | some v => ((v.convertUntyped .double .strict).mapError (·.cause)).bind fun w =>
      match w.number? with
      | some x => .ok x
      | none => .error (.notANumber w.type)

/-- The integer of a sequence that may have one. -/
def integer? (f : Forest) (t : Trace) : Except Cause (Option Int64) :=
  (t.single f).bind fun
    | none => .ok none
    | some (.integer n) => .ok (some n)
    | some (.untyped s) => ((Value.parseInteger s).mapError (·.cause)).map some
    | some v => .error (.rangeBound v.type)

/-- Whether there is an item. -/
def nonempty (t : Trace) : Except Cause Bool := t.first?.map (·.isSome)

@[simp] theorem first?_ofList_nil : (ofList []).first? = .ok none := rfl

@[simp] theorem first?_failed (e : Cause) : (failed e).first? = .error e := rfl

@[simp] theorem first?_cons (a : Item) (t : Trace) : (cons a t).first? = .ok (some (a, t)) := rfl

theorem nonempty_ofList (xs : Sequence) : (ofList xs).nonempty = .ok (!xs.isEmpty) := by
  cases xs <;> rfl

theorem only_eq_none_iff {several : Cause} : t.only several = .ok none ↔ t = ofList [] := by
  rcases t with ⟨_ | ⟨a, _ | ⟨b, xs⟩⟩, _ | e⟩ <;> simp [only, first?, ofList]

theorem single_eq_none_iff {f : Forest} : t.single f = .ok none ↔ t = ofList [] := by
  rw [← @only_eq_none_iff t .severalForOperand, single]
  rcases t.only .severalForOperand with _ | _ | _ <;> simp [Except.map]

end Trace

/-! ### Streams -/

namespace ItemStream

/-- The three ways in which asking for the next item can turn out. -/
theorem next?_cases (s : ItemStream) :
    (s.next?.result = .ok none ∧ s.trace = .ofList []) ∨
    (∃ e, s.next?.result = .error e ∧ s.trace = .failed e) ∨
    ∃ a rest, s.next?.result = .ok (some (a, rest)) ∧ s.trace = .cons a (rest ()).trace := by
  induction s with
  | done => exact .inl ⟨rfl, rfl⟩
  | failed e => exact .inr (.inl ⟨e.cause, rfl, rfl⟩)
  | item a rest => exact .inr (.inr ⟨a, rest, rfl, rfl⟩)
  | warned w rest ih => exact ih ()

theorem trace_atomize (f : Forest) (s : ItemStream) :
    (s.atomize f).trace = s.trace.atomize f := by
  rw [ItemStream.atomize, trace_expand (g := id) fun _ => rfl]
  simp only [Item.typedValue_eq, List.map_cons, List.map_nil, trace_ofList]
  generalize s.trace = t
  obtain ⟨xs, failure?⟩ := t
  suffices fold : ∀ before, Trace.expandFrom (fun _ a => .ofList [.atomic (a.value f)]) failure?
      before xs = ⟨xs.map fun a => .atomic (a.value f), failure?⟩ from fold 0
  induction xs with
  | nil => exact fun _ => rfl
  | cons a xs ih =>
    intro before
    simp [Trace.expandFrom, ih, Trace.append_ofList]

theorem result_truth (s : ItemStream) : s.truth.result = s.trace.truth := by
  simp only [truth, Trace.truth, Eval.result_bind]
  rcases next?_cases s with ⟨h, ht⟩ | ⟨e, h, ht⟩ | ⟨a, rest, h, ht⟩ <;> rw [h, ht]
  case inl => rfl
  case inr.inl => rfl
  case inr.inr =>
    simp only [Trace.first?_cons, ok_bind]
    cases a with
    | node n => rfl
    | atomic v =>
      simp only [Eval.result_bind]
      rcases next?_cases (rest ()) with ⟨h, ht⟩ | ⟨e, h, ht⟩ | ⟨b, _, h, ht⟩ <;> rw [h, ht] <;> rfl

theorem result_holdsAt (s : ItemStream) (position : Nat) :
    (s.holdsAt position).result = s.trace.holdsAt position := by
  simp only [holdsAt, Trace.holdsAt, Eval.result_bind]
  rcases next?_cases s with ⟨h, ht⟩ | ⟨e, h, ht⟩ | ⟨a, rest, h, ht⟩ <;> rw [h, ht]
  case inl => rfl
  case inr.inl => rfl
  case inr.inr =>
    simp only [Trace.first?_cons, ok_bind]
    cases a.atomic?.bind (·.number?) with
    | none => exact result_truth (.item a rest)
    | some x =>
      simp only [Eval.result_bind]
      rcases next?_cases (rest ()) with ⟨h, ht⟩ | ⟨e, h, ht⟩ | ⟨b, _, h, ht⟩ <;> rw [h, ht] <;> rfl

/-- Asking for the only item of a stream, where each of the two ways to use the answer is given. -/
theorem result_only {α : Type} (several : Error) (s : ItemStream) (none_ : Eval α)
    (some_ : Item → Eval α) :
    (s.next? >>= fun
      | none => none_
      | some (a, rest) => (rest ()).next? >>= fun
        | none => some_ a
        | some _ => .fail several).result =
    (s.trace.only several.cause).bind fun
      | none => none_.result
      | some a => (some_ a).result := by
  simp only [Trace.only, Eval.result_bind]
  rcases next?_cases s with ⟨h, ht⟩ | ⟨e, h, ht⟩ | ⟨a, rest, h, ht⟩ <;> rw [h, ht]
  case inl => rfl
  case inr.inl => rfl
  case inr.inr =>
    simp only [Trace.first?_cons, ok_bind, Eval.result_bind]
    rcases next?_cases (rest ()) with ⟨h, ht⟩ | ⟨e, h, ht⟩ | ⟨b, _, h, ht⟩ <;> rw [h, ht] <;> rfl

theorem result_onlyItem (required : Bool) (s : ItemStream) :
    (Behaviour.onlyItem required s).result =
      (s.trace.only (if required then .notExactlyOne else .moreThanOne)).bind fun
        | none => if required then .error .notExactlyOne else .ok none
        | some a => .ok (some a) := by
  cases required <;> exact result_only _ s _ _

theorem result_single (s : ItemStream) (f : Forest) (l : Location) :
    (s.single f l).result = s.trace.single f := by
  refine (result_only _ (s.atomize f) _ _).trans ?_
  rw [trace_atomize, Error.cause_located, Trace.single, Trace.only, Trace.only]
  obtain ⟨xs, failure?⟩ := s.trace
  rcases xs with _ | ⟨a, _ | ⟨b, xs⟩⟩ <;> cases failure? <;> rfl

end ItemStream

/-! ### Sources -/

theorem ItemStream.result_countFrom (s : ItemStream) (n : Nat) (log : List Warning) :
    (s.countFrom n log).result = s.trace.result.map (n + ·.length) := by
  induction s generalizing n log with
  | done => rfl
  | failed e => rfl
  | warned w rest ih => exact ih () n (w :: log)
  | item a rest ih =>
    rw [countFrom, ih, trace_item, Trace.result_cons]
    cases (rest ()).trace.result with
    | error e => rfl
    | ok xs => simp [Except.map, Nat.add_assoc, Nat.add_comm 1]

namespace Source

/-- What a source comes to. -/
def trace (s : Source) : Trace := s.toStream.trace

@[simp] theorem trace_items (xs : Sequence) : (items xs).trace = .ofList xs :=
  ItemStream.trace_ofList xs

@[simp] theorem trace_stream (s : Unit → ItemStream) : (stream s).trace = (s ()).trace := rfl

@[simp] theorem trace_through (s : Source) (f : ItemStream → ItemStream) :
    (s.through f).trace = (f s.toStream).trace := rfl

theorem trace_range (low high : Int64) :
    (range low high).trace = .ofList ((List.range (spanLength low high)).map fun i : Nat =>
      .atomic (.integer (Int64.ofInt (low.toInt + i)))) :=
  ItemStream.trace_integers ..

@[simp] theorem trace_ofOption (a? : Option Item) : (ofOption a?).trace = .ofList a?.toList := by
  cases a? <;> simp [ofOption]

theorem result_collect (s : Source) : s.collect.result = s.trace.result := by
  rw [collect_eq_drain, ItemStream.result_drain, trace]

/-- The length that a source tells, or that of its trace. -/
def size (s : Source) : Nat := s.length?.getD s.trace.items.length

/-- A source that tells its length does not fail, and the length is right as far as lengths are told
apart. -/
theorem trace_of_length? {s : Source} {n : Nat} (h : s.length? = some n) :
    s.trace.failure? = none ∧
      (n = s.trace.items.length ∨ maxLength ≤ n ∧ maxLength ≤ s.trace.items.length) := by
  cases s with
  | items xs =>
    obtain rfl : xs.length = n := by simpa [length?] using h
    simp
  | range low high =>
    obtain rfl : min (spanLength low high) maxLength = n := by simpa [length?] using h
    rw [trace_range]
    simp only [Trace.failure?_ofList, Trace.items_ofList, List.length_map, List.length_range,
      true_and]
    omega
  | stream s => simp [length?] at h

theorem lengthValue_size (s : Source) : lengthValue s.size = lengthValue s.trace.items.length := by
  unfold size
  cases hs : s.length? with
  | none => rfl
  | some n =>
    rcases (trace_of_length? hs).2 with hn | hn
    · simp [hn]
    · have hmax : Int64.maxValue.toInt = 2 ^ 63 - 1 := by decide
      have hlength : maxLength = 2 ^ 64 - 1 := by decide
      simp only [lengthValue, Option.getD_some, hmax]
      rw [Int.min_eq_right (by omega), Int.min_eq_right (by omega)]

theorem result_count (s : Source) :
    s.count.result = s.trace.result.map fun _ => s.size := by
  unfold count size
  cases hs : s.length? with
  | none =>
    simp only [Option.getD_none]
    rw [ItemStream.result_countFrom, ← trace]
    rcases s.trace with ⟨xs, _ | e⟩ <;> simp [Trace.result, Except.map]
  | some n =>
    rw [Trace.result_eq_ok_items (trace_of_length? hs).1]
    rfl

theorem result_nonempty (s : Source) : s.nonempty.result = s.trace.nonempty := by
  unfold nonempty
  cases hs : s.length? with
  | none =>
    simp only [first?, Eval.result_bind, Trace.nonempty, trace]
    rcases ItemStream.next?_cases s.toStream with ⟨h, ht⟩ | ⟨e, h, ht⟩ | ⟨a, rest, h, ht⟩ <;>
      rw [h, ht] <;> rfl
  | some n =>
    obtain ⟨hfailure, hn⟩ := trace_of_length? hs
    have hmax : 0 < maxLength := by decide
    rw [Trace.nonempty, Trace.first?, hfailure]
    cases hitems : s.trace.items with
    | nil =>
      obtain rfl : n = 0 := by
        simp only [hitems, List.length_nil] at hn
        omega
      rfl
    | cons a rest =>
      have : n ≠ 0 := by
        simp only [hitems, List.length_cons] at hn
        omega
      simp [this, Except.map]

end Source

end TreeQuery
