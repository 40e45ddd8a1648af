/-
Evaluation as an equation on traces.

`Behaviour.trace` is what evaluation as a sequence comes to, and `Expr.run` is the same of an expression.
For every operator there is one equation, which gives its trace in terms of the traces of its operands
(`Behaviour.trace_letIn`, `Behaviour.trace_path` and so on), so that proofs about evaluation need to know
neither streams nor the time at which something is computed.

Design notes: two things about an operand are not in its trace.  A range tells a length that stops
growing at the greatest one (`Behaviour.size`), which nobody can tell apart from the real one, and a
subsequence that ends before the first item still computes the beginning of its source
(`Behaviour.opening`).
-/
import TreeQuery.Proofs.Reading

namespace TreeQuery

/-- The same items, or nothing but the failure if there is one. -/
def Trace.whole (t : Trace) : Trace := .ofResult (t.result.map .ofList)

@[simp] theorem Trace.whole_ofList (xs : Sequence) : (Trace.ofList xs).whole = .ofList xs := rfl

theorem Trace.whole_of_ok {t : Trace} (h : t.failure? = none) : t.whole = t := by
  obtain ⟨xs, failure?⟩ := t
  obtain rfl : failure? = none := h
  rfl

/-- Whether the second operand of a connective decides, given the truth of the first. -/
def LogicalOp.isOpen : LogicalOp → Bool → Bool
  | .and, x => x
  | .or, x => !x

namespace Trace

/-- What is left of a trace if its length has to be known before the first item is handed on. -/
def wholeIf (needed : Bool) (t : Trace) : Trace := if needed then t.whole else t

/-- The nodes of a trace in document order, each once. -/
def sorted (f : Forest) (t : Trace) : Trace :=
  .ofResult (t.result.bind fun xs => ((sortPath f xs).mapError (·.cause)).map .ofList)

/-- Several traces, one after the other. -/
def concat : List Trace → Trace
  | [] => .ofList []
  | t :: ts => t.append (concat ts)

/-- One truth value. -/
def ofTruth (x : Except Cause Bool) : Trace :=
  .ofItem (x.map fun b => some (.atomic (.boolean b)))

@[simp] theorem wholeIf_false (t : Trace) : t.wholeIf false = t := rfl

@[simp] theorem wholeIf_true (t : Trace) : t.wholeIf true = t.whole := rfl

@[simp] theorem wholeIf_failed (needed : Bool) (e : Cause) :
    (failed e).wholeIf needed = failed e := by
  cases needed <;> rfl

theorem wholeIf_of_ok {t : Trace} (needed : Bool) (h : t.failure? = none) : t.wholeIf needed = t := by
  cases needed
  · rfl
  · exact whole_of_ok h

end Trace

namespace Behaviour

variable {l : Location} {c : Context} {a b : Behaviour}

/-- What evaluation as a sequence comes to. -/
def trace (b : Behaviour) (c : Context) : Trace := .ofResult ((b.iterate c).result.map Source.trace)

/-- The length of the result, as far as lengths are told apart. -/
def size (b : Behaviour) (c : Context) : Nat :=
  match (b.iterate c).result with
  | .ok s => s.size
  | .error _ => 0

/-- What evaluation comes to if none of its items is asked for. -/
def opening (b : Behaviour) (c : Context) : Trace :=
  .ofResult ((b.iterate c).result.map fun _ => .ofList [])

theorem trace_ofSource (l : Location) (iterate : Context → Eval Source) (c : Context) :
    (ofSource l iterate).trace c = .ofResult ((iterate c).result.map Source.trace) := rfl

/-- Evaluation as a sequence fails at once or gives a source. -/
theorem iterate_cases (b : Behaviour) (c : Context) :
    (∃ e, (b.iterate c).result = .error e ∧ b.trace c = .failed e ∧ b.opening c = .failed e) ∨
    ∃ s, (b.iterate c).result = .ok s ∧ b.trace c = s.trace ∧ b.opening c = .ofList [] ∧
      b.size c = s.size := by
  unfold trace opening size
  cases (b.iterate c).result with
  | error e => exact .inl ⟨e, rfl, rfl, rfl⟩
  | ok s => exact .inr ⟨s, rfl, rfl, rfl, rfl⟩

/-! ### Ways of evaluation -/

theorem trace_stream (b : Behaviour) (c : Context) :
    Trace.ofResult ((b.stream c).result.map ItemStream.trace) = b.trace c := by
  rw [stream, Eval.result_bind, trace]
  cases (b.iterate c).result <;> rfl

theorem result_collect (b : Behaviour) (c : Context) : (b.collect c).result = (b.trace c).result := by
  rw [collect, Eval.result_bind, trace]
  cases (b.iterate c).result with
  | error e => rfl
  | ok s => exact s.result_collect

theorem result_truth (b : Behaviour) (c : Context) : (b.truth c).result = (b.trace c).truth := by
  rw [truth, Eval.result_bind, ← trace_stream]
  cases (b.stream c).result with
  | error e => rfl
  | ok s => exact s.result_truth

theorem result_holdsAt (b : Behaviour) (c : Context) (position : Nat) :
    (b.holdsAt c position).result = (b.trace c).holdsAt position := by
  rw [holdsAt, Eval.result_bind, ← trace_stream]
  cases (b.stream c).result with
  | error e => rfl
  | ok s => exact s.result_holdsAt position

theorem result_single (b : Behaviour) (l : Location) (c : Context) :
    (b.single l c).result = (b.trace c).single c.forest := by
  rw [single, Eval.result_bind, ← trace_stream]
  cases (b.stream c).result with
  | error e => rfl
  | ok s => exact s.result_single c.forest l

theorem result_number (b : Behaviour) (l : Location) (c : Context) :
    (b.number l c).result = (b.trace c).number c.forest := by
  rw [number, Eval.result_bind, result_single, Trace.number]
  cases (b.trace c).single c.forest with
  | error e => rfl
  | ok v? =>
    simp only [ok_bind]
    cases v? with
    | none => simp [Error.cause_located, Error.of]
    | some v =>
      simp only [Eval.result_bind, Eval.result_ofExcept]
      congr 1
      funext w
      cases w.number? <;> simp [Error.cause_located, Error.of]

theorem result_integer? (b : Behaviour) (l : Location) (c : Context) :
    (b.integer? l c).result = (b.trace c).integer? c.forest := by
  rw [integer?, Eval.result_bind, result_single, Trace.integer?]
  cases (b.trace c).single c.forest with
  | error e => rfl
  | ok v? =>
    simp only [ok_bind]
    cases v? with
    | none => rfl
    | some v =>
      cases v with
      | untyped s =>
        simp only [Eval.result_bind, Eval.result_ofExcept]
        cases (Value.parseInteger s).mapError (·.cause) <;> rfl
      | _ => simp [Error.cause_located, Error.of]

theorem result_nonempty (b : Behaviour) (c : Context) :
    (b.iterate c >>= Source.nonempty).result = (b.trace c).nonempty := by
  rw [Eval.result_bind, trace]
  cases (b.iterate c).result with
  | error e => rfl
  | ok s => exact s.result_nonempty

theorem lengthValue_size (b : Behaviour) (c : Context) :
    lengthValue (b.size c) = lengthValue (b.trace c).items.length := by
  unfold size trace
  cases (b.iterate c).result with
  | error e => rfl
  | ok s => exact s.lengthValue_size

/-! ### Behaviours from one way of evaluation -/

@[simp] theorem trace_located (l : Location) (b : Behaviour) (c : Context) :
    (b.located l).trace c = b.trace c := by
  simp [trace, located]

@[simp] theorem opening_located (l : Location) (b : Behaviour) (c : Context) :
    (b.located l).opening c = b.opening c := by
  simp [opening, located]

theorem trace_ofItem (l : Location) (item : Context → Eval (Option Item)) (c : Context) :
    (ofItem l item).trace c = .ofItem (item c).result := by
  simp only [trace, ofItem, Eval.result_bind]
  cases (item c).result <;> simp [Except.map, Trace.ofItem]

theorem trace_ofValue (l : Location) (value : Context → Eval Value) (c : Context) :
    (ofValue l value).trace c = .ofItem ((value c).result.map fun v => some (.atomic v)) := by
  rw [ofValue, trace_ofItem, Eval.result_bind]
  cases (value c).result <;> rfl

theorem trace_ofProcess (process : Context → Push Unit) (c : Context) :
    (ofProcess process).trace c =
      .ofResult ((process c.withOutput).collected.result.map .ofList) := by
  simp only [trace, ofProcess, Eval.result_bind]
  cases (process c.withOutput).collected.result <;> simp [Except.map]

/-! ### Operators without operands -/

@[simp] theorem trace_literal (l : Location) (vs : List Value) (c : Context) :
    (literal l vs).trace c = .ofList (vs.map .atomic) := by
  simp [trace, literal, ofSource, Except.map]

theorem trace_contextItem (l : Location) (c : Context) :
    (contextItem l).trace c = .ofItem ((c.item.mapError (·.cause)).map some) := by
  rw [contextItem, trace_ofItem, Eval.result_bind, Eval.result_ofExcept]
  cases c.item <;> rfl

theorem trace_position (l : Location) (c : Context) :
    (position l).trace c =
      .ofItem ((c.position.mapError (·.cause)).map fun n => some (.atomic (lengthValue n))) := by
  rw [position, trace_ofValue, Eval.result_bind, Eval.result_ofExcept]
  cases c.position <;> rfl

theorem trace_last (l : Location) (c : Context) :
    (last l).trace c =
      .ofItem ((c.size.mapError (·.cause)).map fun n => some (.atomic (lengthValue n))) := by
  rw [last, trace_ofValue, Eval.result_bind, Eval.result_ofExcept]
  cases c.size <;> rfl

theorem trace_variable (l : Location) (v : Binding) (c : Context) :
    («variable» l v).trace c = .ofResult (((c.slot v.slot).mapError (·.cause)).map .ofList) := by
  simp only [trace, «variable», ofSource, Eval.result_bind, Eval.result_ofExcept]
  cases c.slot v.slot <;> simp [Except.map]

theorem trace_global (l : Location) (name : Name) (c : Context) :
    (global l name).trace c = .ofResult (((c.global name).mapError (·.cause)).map .ofList) := by
  simp only [trace, global, ofSource, Eval.result_bind, Eval.result_ofExcept]
  cases c.global name <;> simp [Except.map]

/-- The nodes that a step finds from an item. -/
def stepFrom (axis : Axis) (test : NodeTest) (f : Forest) : Item → Trace
  | .node n => .ofList (((axis.nodes f n).filter (test.accepts f)).map .node)
  | .atomic _ => .failed (.axisNeedsNode axis)

private theorem filter_nodes (test : NodeTest) (f : Forest) (ns : List Nat) :
    (Trace.ofList (ns.map .node)).filter
        (fun _ a => .ok ((a.node?.map (test.accepts f)).getD false)) =
      .ofList ((ns.filter (test.accepts f)).map .node) := by
  suffices fold : ∀ before, Trace.expandFrom
      (fun _ a => .keeping (.ok ((a.node?.map (test.accepts f)).getD false)) a) none before
        (ns.map .node) = .ofList ((ns.filter (test.accepts f)).map .node) from fold 0
  induction ns with
  | nil => exact fun _ => rfl
  | cons n ns ih =>
    intro before
    rw [List.map_cons, Trace.expandFrom, ih, Item.node?, Option.map_some, Option.getD_some]
    cases h : test.accepts f n <;> simp [Trace.keeping, h, Trace.append, Trace.ofList]

theorem trace_step (l : Location) (axis : Axis) (test : NodeTest) (c : Context) :
    (step l axis test).trace c =
      .ofResult ((c.item.mapError (·.cause)).map (stepFrom axis test c.forest)) := by
  simp only [trace, step, ofSource, Eval.result_bind, Eval.result_ofExcept]
  cases c.item with
  | error e => rfl
  | ok a =>
    simp only [ok_mapError, ok_bind]
    cases a with
    | atomic v => rfl
    | node n =>
      simp only
      split
      case isTrue => simp [Except.map, stepFrom]
      case isFalse =>
        have walked : (axis.walk c.forest n).trace = .ofList ((axis.nodes c.forest n).map .node) := by
          rw [← Trace.result_eq_ok_iff, ← ItemStream.result_drain, Axis.drain_walk]
          rfl
        simp only [Eval.result_pure, Except.map, Trace.ofResult_ok, Source.trace_stream,
          ItemStream.trace_filter, walked]
        exact filter_nodes test c.forest _

/-! ### Operators with one operand -/

theorem trace_through {s : Eval Source} {f : ItemStream → ItemStream} {g : Trace → Trace}
    (hf : ∀ s, (f s).trace = g s.trace) (hg : ∀ e, g (.failed e) = .failed e) (l : Location)
    (c : Context) :
    (ofSource l fun _ => do return (← s).through f).trace c =
      g (.ofResult (s.result.map Source.trace)) := by
  simp only [trace, ofSource, Eval.result_bind]
  cases s.result with
  | error e => exact (hg e).symm
  | ok s => exact hf s.toStream

theorem trace_atomize (l : Location) (a : Behaviour) (c : Context) :
    (atomize l a).trace c = (a.trace c).atomize c.forest :=
  trace_through (s := a.iterate c) (g := (·.atomize c.forest)) (ItemStream.trace_atomize c.forest)
    (fun _ => rfl) l c

/-- An item with its untyped value converted. -/
def convertOne (target : AtomicType) (conversion : Conversion) : Item → Trace
  | .node n => .ofList [.node n]
  | .atomic v =>
    .ofItem (((v.convertUntyped target conversion).mapError (·.cause)).map fun w =>
      some (.atomic w))

theorem trace_convert (l : Location) (target : AtomicType) (conversion : Conversion)
    (atMostOne : Bool) (place : Location) (a : Behaviour) (c : Context) :
    (convert l target conversion atMostOne place a).trace c =
      (a.trace c).expand fun _ => convertOne target conversion := by
  have hstream (s : ItemStream) :
      (s.convert target conversion).trace = s.trace.expand fun _ => convertOne target conversion := by
    rw [ItemStream.convert, ItemStream.trace_expand (g := id) fun _ => rfl]
    congr 1
    funext i a
    cases a with
    | node n => simp [convertOne]
    | atomic v =>
      simp only [convertOne]
      cases v.convertUntyped target conversion <;>
        simp [Except.map, Trace.ofItem]
  have hsource := trace_through (s := a.iterate c)
    (g := (·.expand fun _ => convertOne target conversion)) hstream (fun _ => rfl) l c
  unfold convert
  split <;> exact hsource

/-- The value of a cast. -/
def castOne (target : AtomicType) (allowsEmpty : Bool) :
    Option Value → Except Cause (Option Item)
  | some v => ((v.cast target).mapError (·.cause)).map fun w => some (.atomic w)
  | none => if allowsEmpty then .ok none else .error .emptyCast

theorem trace_cast (l : Location) (target : AtomicType) (allowsEmpty : Bool) (place : Location)
    (a : Behaviour) (c : Context) :
    (cast l target allowsEmpty place a).trace c =
      .ofItem (((a.trace c).single c.forest).bind (castOne target allowsEmpty)) := by
  rw [cast, trace_ofItem, Eval.result_bind, result_single]
  congr 2
  funext v?
  cases v? with
  | none => cases allowsEmpty <;> rfl
  | some v =>
    simp only [castOne, Eval.result_bind, Eval.result_ofExcept]
    cases v.cast target <;> rfl

theorem trace_check (l : Location) (required : Cardinality) (a : Behaviour) (c : Context) :
    (check l required a).trace c = (a.trace c).check required :=
  trace_through (s := a.iterate c) (g := (·.check required)) (ItemStream.trace_check required l)
    (fun e => by cases h : required.zero <;> rfl) l c

/-! ### Operators with two operands -/

theorem trace_letIn (l : Location) (slot : Nat) (value body : Behaviour) (c : Context) :
    (letIn l slot value body).trace c =
      .ofResult ((value.trace c).result.map fun v => body.trace (c.setSlot slot v)) := by
  simp only [letIn, ofSource]
  rw [trace, ← result_collect]
  simp only [Eval.result_bind]
  cases (value.collect c).result <;> rfl

theorem trace_forIn (l : Location) (slot : Nat) (input body : Behaviour) (c : Context) :
    (forIn l slot input body).trace c =
      (input.trace c).expand fun _ a => body.trace (c.setSlot slot [a]) := by
  refine (trace_through (s := input.iterate c)
    (g := (·.expand fun _ a => body.trace (c.setSlot slot [a]))) (fun s => ?_) (fun _ => rfl) l
    c)
  rw [ItemStream.trace_expand (g := id) fun _ => rfl]
  simp only [ItemStream.trace_ofEval, trace_stream]

/-- The result of an operation on two values that may be missing. -/
def pairOne (op : Value → Value → Except Error Value) :
    Option Value → Option Value → Except Cause (Option Item)
  | some x, some y => ((op x y).mapError (·.cause)).map fun w => some (.atomic w)
  | _, _ => .ok none

theorem trace_arithmetic (l : Location) (op : ArithmeticOp) (calculator : Calculator)
    (placeA placeB : Location) (a b : Behaviour) (c : Context) :
    (arithmetic l op calculator placeA placeB a b).trace c =
      .ofItem (((a.trace c).single c.forest).bind fun x => ((b.trace c).single c.forest).bind
        (pairOne (Value.compute op · · calculator) x)) := by
  rw [arithmetic, trace_ofItem, Eval.result_bind, result_single]
  congr 2
  funext x
  rw [Eval.result_bind, result_single]
  congr 1
  funext y
  cases x <;> cases y <;> try rfl
  case some.some x y =>
    simp only [pairOne, Eval.result_bind, Eval.result_ofExcept]
    cases Value.compute op x y calculator <;> rfl

theorem trace_compare (l : Location) (op : ComparisonOp) (placeA placeB : Location)
    (a b : Behaviour) (c : Context) :
    (compare l op placeA placeB a b).trace c =
      .ofItem (((a.trace c).single c.forest).bind fun x => ((b.trace c).single c.forest).bind
        (pairOne (fun v w => (Value.compare op v w).map .boolean) x)) := by
  rw [compare, trace_ofItem, Eval.result_bind, result_single]
  congr 2
  funext x
  rw [Eval.result_bind, result_single]
  congr 1
  funext y
  cases x <;> cases y <;> try rfl
  case some.some x y =>
    simp only [pairOne, Eval.result_bind, Eval.result_ofExcept]
    cases Value.compare op x y <;> rfl

theorem trace_logical (l : Location) (op : LogicalOp) (a b : Behaviour) (c : Context) :
    (logical l op a b).trace c =
      .ofItem (((a.trace c).truth.bind fun x =>
        if op.isOpen x then (b.trace c).truth else .ok x).map fun x =>
          some (.atomic (.boolean x))) := by
  rw [logical, trace_ofValue, Eval.result_bind, result_truth]
  cases (a.trace c).truth with
  | error e => rfl
  | ok x =>
    cases op <;> cases x <;>
      simp [LogicalOp.isOpen, Except.map, result_truth, Trace.ofItem] <;>
      cases (b.trace c).truth <;> rfl

theorem trace_range (l : Location) (placeA placeB : Location) (a b : Behaviour) (c : Context) :
    (range l placeA placeB a b).trace c =
      .ofResult (((a.trace c).integer? c.forest).bind fun low? =>
        ((b.trace c).integer? c.forest).map fun high? =>
          match low?, high? with
          | some low, some high => if low ≤ high then (Source.range low high).trace else .ofList []
          | _, _ => .ofList []) := by
  simp only [trace, range, ofSource, Eval.result_bind, result_integer?]
  rw [← trace, ← trace]
  cases (a.trace c).integer? c.forest with
  | error e => rfl
  | ok low? =>
    simp only [ok_bind]
    cases (b.trace c).integer? c.forest with
    | error e => rfl
    | ok high? =>
      cases low? <;> cases high? <;> simp [Except.map]
      split <;> simp

/-- The length of a sequence, if it is needed. -/
def sizeIf (needed : Bool) (b : Behaviour) (c : Context) : Option Nat :=
  if needed then some (b.size c) else none

/-- A sequence whose length is found out first comes to the same, or to nothing but its failure. -/
private theorem trace_sized (s : Source) (needed : Bool) (g : Option Nat → Trace → Trace)
    (hg : ∀ size? e, g size? (.failed e) = .failed e) :
    Trace.ofResult ((sized s needed).result.map fun p => g p.2 p.1.trace) =
      g (if needed then some s.size else none) (s.trace.wholeIf needed) := by
  cases needed with
  | false => rfl
  | true =>
    unfold sized Source.size
    cases hs : s.length? with
    | some n => simp [Except.map, Trace.whole_of_ok (Source.trace_of_length? hs).1]
    | none =>
      have hcollect := s.result_collect
      simp only [if_true, Eval.result_bind, hcollect, Option.getD_none, Trace.wholeIf_true]
      cases ht : s.trace.result with
      | error e => simp [Trace.whole, ht, Except.map, hg]
      | ok xs =>
        obtain rfl := congrArg Trace.items (Trace.result_eq_ok_iff.mp ht)
        simp [Trace.whole, ht, Except.map]

/-- What a path gives for one node. -/
def pathOne (step : Behaviour) (c : Context) (size? : Option Nat) : Nat → Item → Trace
  | before, .node n => step.trace (c.withFocus (.node n) (before + 1) size?)
  | _, .atomic _ => .failed .stepOnAtomic

private theorem trace_pathStream (l : Location) (size? : Option Nat) (step : Behaviour) (c : Context)
    (s : Source) :
    (s.through (pathStream l size? step c)).trace = s.trace.expand (pathOne step c size?) := by
  rw [Source.trace_through, pathStream, ItemStream.trace_expand fun e => e.cause_located l]
  congr 1
  funext before a
  cases a with
  | atomic v => simp [pathOne, Error.cause_located, Error.of]
  | node n =>
    simp only [ItemStream.trace_mapFailure fun e => e.cause_located l, ItemStream.trace_ofEval,
      trace_stream, pathOne]

theorem trace_path (l : Location) (needsLast ordered : Bool) (start step : Behaviour)
    (c : Context) :
    (path l needsLast ordered start step).trace c =
      let found := ((start.trace c).wholeIf needsLast).expand
        (pathOne step c (start.sizeIf needsLast c))
      if ordered then found else found.sorted c.forest := by
  simp only [path, trace_ofSource, Eval.result_bind, sizeIf]
  rcases start.iterate_cases c with ⟨e, hs, ht, _⟩ | ⟨s, hs, ht, _, hsize⟩
  · rw [hs, ht]
    cases ordered <;> simp [Except.map, Trace.sorted]
  · have found := trace_sized s needsLast (fun size? t => t.expand (pathOne step c size?))
      fun _ _ => rfl
    rw [hs, ht, hsize, ← found]
    simp only [ok_bind]
    cases (sized s needsLast).result with
    | error e => cases ordered <;> simp [Except.map, Trace.sorted]
    | ok p =>
      obtain ⟨s', size?⟩ := p
      simp only [ok_bind]
      cases ordered with
      | true => simpa [Except.map] using trace_pathStream l size? step c s'
      | false =>
        simp only [Bool.false_eq_true, if_false, Eval.result_bind, Source.result_collect,
          trace_pathStream, Except.map, Trace.ofResult_ok, Trace.sorted]
        cases (s'.trace.expand (pathOne step c size?)).result with
        | error e => rfl
        | ok xs =>
          simp only [ok_bind, Eval.result_ofExcept]
          cases sortPath c.forest xs <;> simp

theorem trace_filter (l : Location) (needsLast : Bool) (base predicate : Behaviour) (c : Context) :
    (filter l needsLast base predicate).trace c =
      ((base.trace c).wholeIf needsLast).filter fun before a =>
        (predicate.trace (c.withFocus a (before + 1) (base.sizeIf needsLast c))).holdsAt
          (before + 1) := by
  simp only [filter, trace_ofSource, Eval.result_bind, sizeIf]
  rcases base.iterate_cases c with ⟨e, hs, ht, _⟩ | ⟨s, hs, ht, _, hsize⟩
  · rw [hs, ht]
    simp [Except.map, Trace.filter]
  · have kept := trace_sized s needsLast
      (fun size? t => t.filter fun before a =>
        (predicate.trace (c.withFocus a (before + 1) size?)).holdsAt (before + 1))
      fun _ _ => rfl
    rw [hs, ht, hsize, ← kept]
    simp only [ok_bind]
    cases (sized s needsLast).result with
    | error e => rfl
    | ok p =>
      simp only [Except.map, ok_bind, Eval.result_pure, Trace.ofResult_ok, Source.trace_through,
        ItemStream.trace_filter, Eval.result_located, result_holdsAt]
      rfl

theorem trace_union (l : Location) (a b : Behaviour) (c : Context) :
    (union l a b).trace c =
      .ofResult ((a.trace c).result.bind fun xs => (b.trace c).result.bind fun ys =>
        ((unionOf c.forest xs ys).mapError (·.cause)).map .ofList) := by
  rw [← result_collect, ← result_collect]
  simp only [union, ofSource]
  rw [trace]
  simp only [Eval.result_bind]
  cases (a.collect c).result with
  | error e => rfl
  | ok xs =>
    simp only [ok_bind]
    cases (b.collect c).result with
    | error e => rfl
    | ok ys =>
      simp only [ok_bind, Eval.result_ofExcept]
      cases unionOf c.forest xs ys <;> simp [Except.map]

/-! ### Choices, blocks and calls -/

theorem trace_choice (condition yes no : Behaviour) (c : Context) :
    (choice condition yes no).trace c =
      .ofResult ((condition.trace c).truth.map fun x => if x then yes.trace c else no.trace c) := by
  rw [← result_truth, trace]
  simp only [choice, Eval.result_bind]
  cases (condition.truth c).result with
  | error e => rfl
  | ok x => cases x <;> rfl

theorem trace_block (l : Location) (parts : List Behaviour) (c : Context) :
    (block l parts).trace c = .concat (parts.map (·.trace c)) := by
  have concat : (concatStream c parts).trace = .concat (parts.map (·.trace c)) := by
    induction parts with
    | nil => rfl
    | cons part rest ih =>
      simp only [concatStream, ItemStream.trace_append, ItemStream.trace_ofEval, trace_stream,
        List.map_cons, Trace.concat, ih]
  simpa [block, ofSource, trace, Except.map] using concat

/-- A subsequence with given bounds. -/
def cut (source : Behaviour) (c : Context) : Option (Int × Int) → Trace
  | none => .ofList []
  | some (low, high) =>
    if 0 < high then (source.trace c).between low high else source.opening c

/-- The number of an argument that may be left out. -/
def numberIf (length? : Option (Behaviour × Location)) (c : Context) :
    Except Cause (Option Float) :=
  match length? with
  | none => .ok none
  | some (b, _) => ((b.trace c).number c.forest).map some

/-- The items at the positions from `low` to `high` of a sequence. -/
def sliced (s : Source) (low high : Int) : Source :=
  match s.grounded? with
  | some xs => .items (slice xs low high)
  | none => .stream fun _ => .between low high fun _ => s.toStream

private theorem trace_sliced (s : Source) (low high : Int) :
    (sliced s low high).trace = if 0 < high then s.trace.between low high else .ofList [] := by
  unfold sliced
  cases s with
  | items xs =>
    simp only [Source.grounded?, Source.trace_items]
    split
    case isTrue hhigh =>
      refine Trace.ext (Trace.items_between (.ofList xs) low high).symm ?_
      simp [Trace.between, Trace.betweenFrom]
    case isFalse hhigh =>
      have : (high - max (low - 1) 0).toNat = 0 := by omega
      simp [slice, this]
  | range _ _ | stream _ =>
    simp only [Source.grounded?, Source.trace_stream]
    split
    case isTrue hhigh => exact ItemStream.trace_between hhigh _
    case isFalse hhigh => simp [ItemStream.between, show high ≤ 0 by omega]

/-- A subsequence with given bounds; if there are none the sequence is not evaluated. -/
def selected (source : Behaviour) (c : Context) : Option (Int × Int) → Eval Source
  | none => return .items []
  | some (low, high) => do return sliced (← source.iterate c) low high

theorem result_subsequence (source start : Behaviour) (place : Location)
    (length? : Option (Behaviour × Location)) (c : Context) :
    (subsequence source start place length? c).result =
      ((start.trace c).number c.forest).bind fun x => (numberIf length? c).bind fun n? =>
        (source.selected c (subsequenceBounds? x n?)).result := by
  have finish (bounds? : Option (Int × Int)) : source.selected c bounds? = (do
      match bounds? with
      | none => return .items []
      | some (low, high) =>
        let s ← source.iterate c
        match s.grounded? with
        | some xs => return .items (slice xs low high)
        | none => return .stream fun _ => .between low high fun _ => s.toStream) := by
    rcases bounds? with _ | ⟨low, high⟩
    · rfl
    · refine congrArg (source.iterate c >>= ·) (funext fun s => ?_)
      unfold sliced
      cases s.grounded? <;> rfl
  simp only [subsequence, finish, Eval.result_bind, result_number]
  cases (start.trace c).number c.forest with
  | error e => rfl
  | ok x =>
    cases length? with
    | none => rfl
    | some p =>
      obtain ⟨b, place'⟩ := p
      simp only [Eval.result_bind, result_number, numberIf]
      cases (b.trace c).number c.forest <;> rfl

theorem trace_subsequence (l : Location) (source start : Behaviour) (place : Location)
    (length? : Option (Behaviour × Location)) (c : Context) :
    (ofSource l (subsequence source start place length?)).trace c =
      .ofResult (((start.trace c).number c.forest).bind fun x => (numberIf length? c).map fun n? =>
        source.cut c (subsequenceBounds? x n?)) := by
  -- A window of items in memory and a part of a stream come to the same.
  have selected (bounds? : Option (Int × Int)) :
      Trace.ofResult ((source.selected c bounds?).result.map Source.trace) = source.cut c bounds? := by
    rcases bounds? with _ | ⟨low, high⟩
    · simp [Behaviour.selected, cut, Except.map]
    · simp only [Behaviour.selected, cut, Eval.result_bind]
      rcases source.iterate_cases c with ⟨e, hs, ht, ho⟩ | ⟨s, hs, ht, ho, _⟩
      · rw [hs, ht, ho]
        by_cases hhigh : 0 < high
        · rw [if_pos hhigh]
          refine Trace.ext (by simp [Trace.items_between, slice, Except.map]) ?_
          simp [Trace.between, Trace.betweenFrom, hhigh, Except.map]
        · rw [if_neg hhigh]
          rfl
      · rw [hs, ht, ho, ← trace_sliced]
        rfl
  rw [trace_ofSource, result_subsequence]
  cases (start.trace c).number c.forest with
  | error e => rfl
  | ok x =>
    simp only [ok_bind]
    cases numberIf length? c with
    | error e => rfl
    | ok n? => exact selected _

/-- The only item, which there must be. -/
def required : Option Item → Except Cause (Option Item)
  | none => .error .notExactlyOne
  | some a => .ok (some a)

section Call

variable (place : Location) (rest : List (Behaviour × Location))

theorem trace_negation :
    (call l .negation ((a, place) :: rest)).trace c = .ofTruth ((a.trace c).truth.map (!·)) := by
  rw [call, trace_ofValue, Eval.result_bind, result_truth]
  cases (a.trace c).truth <;> rfl

theorem trace_truth :
    (call l .truth ((a, place) :: rest)).trace c = .ofTruth (a.trace c).truth := by
  rw [call, trace_ofValue, Eval.result_bind, result_truth]
  cases (a.trace c).truth <;> rfl

theorem trace_existence :
    (call l .existence ((a, place) :: rest)).trace c = .ofTruth (a.trace c).nonempty := by
  rw [← result_nonempty, Eval.result_bind]
  simp only [call, trace_ofValue, Eval.result_bind]
  cases (a.iterate c).result with
  | error e => rfl
  | ok s =>
    simp only [ok_bind]
    cases s.nonempty.result <;> rfl

theorem trace_emptiness :
    (call l .emptiness ((a, place) :: rest)).trace c =
      .ofTruth ((a.trace c).nonempty.map (!·)) := by
  rw [← result_nonempty, Eval.result_bind]
  simp only [call, trace_ofValue, Eval.result_bind]
  cases (a.iterate c).result with
  | error e => rfl
  | ok s =>
    simp only [ok_bind]
    cases s.nonempty.result <;> rfl

theorem trace_count :
    (call l .count ((a, place) :: rest)).trace c =
      .ofItem ((a.trace c).result.map fun xs => some (.atomic (lengthValue xs.length))) := by
  simp only [call, trace_ofValue, Eval.result_bind]
  rcases a.iterate_cases c with ⟨e, hs, ht, _⟩ | ⟨s, hs, ht, _⟩
  · rw [hs, ht]
    rfl
  · rw [hs, ht]
    simp only [ok_bind, Source.result_count]
    cases h : s.trace.result with
    | error e => rfl
    | ok xs =>
      have hxs : s.trace.items = xs := congrArg Trace.items (Trace.result_eq_ok_iff.mp h)
      simp only [Except.map, ok_bind, Eval.result_pure]
      rw [Source.lengthValue_size, hxs]

private theorem result_onlyItem (required : Bool) :
    (a.stream c >>= onlyItem required).result =
      ((a.trace c).only (if required then .notExactlyOne else .moreThanOne)).bind fun
        | none => if required then .error .notExactlyOne else .ok none
        | some a => .ok (some a) := by
  rw [Eval.result_bind, ← trace_stream]
  cases (a.stream c).result with
  | error e => rfl
  | ok s => exact s.result_onlyItem required

theorem trace_exactlyOne :
    (call l .exactlyOne ((a, place) :: rest)).trace c =
      .ofItem (((a.trace c).only .notExactlyOne).bind required) := by
  simp only [call, trace_ofItem, result_onlyItem, if_true]
  congr 2

theorem trace_zeroOrOne :
    (call l .zeroOrOne ((a, place) :: rest)).trace c =
      .ofItem ((a.trace c).only .moreThanOne) := by
  simp only [call, trace_ofItem, result_onlyItem, Bool.false_eq_true, if_false]
  congr 1
  cases (a.trace c).only .moreThanOne with
  | error e => rfl
  | ok a? => cases a? <;> rfl

theorem trace_data :
    (call l .data ((a, place) :: rest)).trace c = (a.trace c).atomize c.forest :=
  trace_atomize l a c

theorem trace_call_subsequence (start : Behaviour) (place' : Location)
    (more : List (Behaviour × Location)) :
    (call l .subsequence ((a, place) :: (start, place') :: more)).trace c =
      .ofResult (((start.trace c).number c.forest).bind fun x =>
        (numberIf more.head? c).map fun n? => a.cut c (subsequenceBounds? x n?)) :=
  trace_subsequence l a start place' more.head? c

end Call

end Behaviour

/-! ### Variables -/

theorem Context.slot_setSlot (c : Context) (i j : Nat) (xs : Sequence) :
    (c.setSlot i xs).slot j = if i = j then .ok xs else c.slot j := by
  have padded (frame : List (Option Sequence)) (size : Nat) :
      (padFrame frame size)[j]?.join = frame[j]?.join := by
    rw [padFrame, List.getElem?_append]
    split
    · rfl
    · rw [List.getElem?_replicate, List.getElem?_eq_none (by omega)]
      split <;> rfl
  unfold Context.slot Context.setSlot
  by_cases h : i = j
  · subst h
    rw [if_pos rfl, List.getElem?_set_self (by simp [padFrame]; omega)]
    rfl
  · rw [if_neg h, List.getElem?_set_ne h, padded]

/-! ### Expressions -/

namespace Expr

/-- What evaluation of an expression comes to. -/
def run (d : Dispatcher) (e : Expr) (c : Context) : Trace := (e.behaviour d).trace c

variable {d : Dispatcher} {c : Context}

theorem result_collect (d : Dispatcher) (e : Expr) (c : Context) :
    ((e.behaviour d).collect c).result = (e.run d c).result := Behaviour.result_collect _ c

theorem collect_eq_ok_iff {e : Expr} {xs : Sequence} :
    ((e.behaviour d).collect c).outcome = .ok xs ↔ e.run d c = .ofList xs := by
  rw [← Eval.result_eq_ok_iff, result_collect, Trace.result_eq_ok_iff]

/-- Draining fails for a cause if the trace does. -/
theorem exists_collect_iff {e : Expr} {k : Cause} :
    (∃ err, ((e.behaviour d).collect c).outcome = .error err ∧ err.cause = k) ↔ (e.run d c).failure? = some k := by
  rw [← Trace.result_eq_error_iff, ← result_collect, Eval.result]
  constructor
  · rintro ⟨err, h, rfl⟩
    rw [h]
    rfl
  · intro h
    cases houtcome : ((e.behaviour d).collect c).outcome with
    | error err =>
      rw [houtcome] at h
      exact ⟨err, rfl, Except.error.inj h⟩
    | ok xs =>
      rw [houtcome] at h
      cases h

@[simp] theorem behaviours_eq_map (d : Dispatcher) (args : List Operand) :
    behaviours d args = args.map fun a => (a.expr.behaviour d, a.expr.location) := by
  induction args with
  | nil => rfl
  | cons a rest ih =>
    obtain ⟨role, e⟩ := a
    rw [behaviours, ih]
    rfl

theorem behaviour_leaf (op : Leaf) (i : Info) :
    (leaf op i).behaviour d = (op.behaviour d i.location).located i.location := by
  rw [behaviour]

theorem behaviour_unary (op : Unary) (a : Operand) (i : Info) :
    (unary op a i).behaviour d =
      (op.behaviour d i.location a.expr (a.expr.behaviour d)).located i.location := by
  obtain ⟨role, e⟩ := a
  rw [behaviour]
  rfl

theorem behaviour_binary (op : Binary) (a b : Operand) (i : Info) :
    (binary op a b i).behaviour d =
      (op.behaviour i.location i.props.special.ordered a.expr b.expr (a.expr.behaviour d)
        (b.expr.behaviour d)).located i.location := by
  obtain ⟨role, e⟩ := a
  obtain ⟨role', e'⟩ := b
  rw [behaviour]
  rfl

theorem behaviour_choice (x y n : Operand) (i : Info) :
    (choice x y n i).behaviour d =
      (Behaviour.choice (x.expr.behaviour d) (y.expr.behaviour d) (n.expr.behaviour d)).located
        i.location := by
  obtain ⟨_, e⟩ := x
  obtain ⟨_, e'⟩ := y
  obtain ⟨_, e''⟩ := n
  rw [behaviour]
  rfl

theorem behaviour_variadic (op : Variadic) (args : List Operand) (i : Info) :
    (variadic op args i).behaviour d =
      (op.behaviour i.location (args.map fun a => (a.expr.behaviour d, a.expr.location))).located
        i.location := by
  rw [behaviour, behaviours_eq_map]

/-- What evaluation of an expression comes to for one item of a sequence of which the length is given if
it is needed. -/
def runAt (d : Dispatcher) (e : Expr) (c : Context) (size? : Option Nat) (before : Nat)
    (a : Item) : Trace := e.run d (c.withFocus a (before + 1) size?)

/-- The length of the result, if it is needed. -/
def sizeIf (d : Dispatcher) (needed : Bool) (e : Expr) (c : Context) : Option Nat :=
  (e.behaviour d).sizeIf needed c

/-- What a step gives for one item of the sequence it starts from. -/
def stepAt (d : Dispatcher) (e : Expr) (c : Context) (size? : Option Nat) : Nat → Item → Trace
  | before, .node n => e.runAt d c size? before (.node n)
  | _, .atomic _ => .failed .stepOnAtomic

/-- What a part of a sequence comes to, between two positions if there are any. -/
def cut (d : Dispatcher) (e : Expr) (c : Context) (bounds? : Option (Int × Int)) : Trace :=
  (e.behaviour d).cut c bounds?

/-- The number of an argument that may be left out. -/
def numberIf (d : Dispatcher) (length? : Option Operand) (c : Context) :
    Except Cause (Option Float) :=
  match length? with
  | none => .ok none
  | some a => ((a.expr.run d c).number c.forest).map some

variable {a b x y n : Operand} {i : Info}

theorem run_leaf (op : Leaf) : (leaf op i).run d c = (op.behaviour d i.location).trace c := by
  rw [run, behaviour_leaf, Behaviour.trace_located]

theorem run_unary (op : Unary) :
    (unary op a i).run d c =
      (op.behaviour d i.location a.expr (a.expr.behaviour d)).trace c := by
  rw [run, behaviour_unary, Behaviour.trace_located]

theorem run_binary (op : Binary) :
    (binary op a b i).run d c =
      (op.behaviour i.location i.props.special.ordered a.expr b.expr (a.expr.behaviour d)
        (b.expr.behaviour d)).trace c := by
  rw [run, behaviour_binary, Behaviour.trace_located]

theorem run_variadic (op : Variadic) (args : List Operand) :
    (variadic op args i).run d c =
      (op.behaviour i.location
        (args.map fun a => (a.expr.behaviour d, a.expr.location))).trace c := by
  rw [run, behaviour_variadic, Behaviour.trace_located]

theorem run_literal (vs : List Value) :
    (leaf (.literal vs) i).run d c = .ofList (vs.map .atomic) :=
  (run_leaf _).trans (Behaviour.trace_literal ..)

theorem run_contextItem :
    (leaf .contextItem i).run d c = .ofItem ((c.item.mapError (·.cause)).map some) :=
  (run_leaf _).trans (Behaviour.trace_contextItem ..)

theorem run_position :
    (leaf .position i).run d c =
      .ofItem ((c.position.mapError (·.cause)).map fun n => some (.atomic (lengthValue n))) :=
  (run_leaf _).trans (Behaviour.trace_position ..)

theorem run_last :
    (leaf .last i).run d c =
      .ofItem ((c.size.mapError (·.cause)).map fun n => some (.atomic (lengthValue n))) :=
  (run_leaf _).trans (Behaviour.trace_last ..)

theorem run_variable (v : Binding) (type : Option SequenceType) :
    (leaf (.variable v type) i).run d c =
      .ofResult (((c.slot v.slot).mapError (·.cause)).map .ofList) :=
  (run_leaf _).trans (Behaviour.trace_variable ..)

theorem run_global (name : Name) (type : Option SequenceType) :
    (leaf (.global name type) i).run d c =
      .ofResult (((c.global name).mapError (·.cause)).map .ofList) :=
  (run_leaf _).trans (Behaviour.trace_global ..)

theorem run_step (axis : Axis) (test : NodeTest) :
    (leaf (.step axis test) i).run d c =
      .ofResult ((c.item.mapError (·.cause)).map (Behaviour.stepFrom axis test c.forest)) :=
  (run_leaf _).trans (Behaviour.trace_step ..)

theorem run_nextMatch :
    (leaf .nextMatch i).run d c =
      .ofResult ((d.next i.location c.withOutput).collected.result.map .ofList) :=
  (run_leaf _).trans (Behaviour.trace_ofProcess ..)

theorem run_atomize : (unary .atomize a i).run d c = (a.expr.run d c).atomize c.forest :=
  (run_unary _).trans (Behaviour.trace_atomize ..)

theorem run_convert (target : AtomicType) (conversion : Conversion) :
    (unary (.convert target conversion) a i).run d c =
      (a.expr.run d c).expand fun _ => Behaviour.convertOne target conversion :=
  (run_unary _).trans (Behaviour.trace_convert ..)

theorem run_cast (target : AtomicType) (allowsEmpty : Bool) :
    (unary (.cast target allowsEmpty) a i).run d c =
      .ofItem (((a.expr.run d c).single c.forest).bind (Behaviour.castOne target allowsEmpty)) :=
  (run_unary _).trans (Behaviour.trace_cast ..)

theorem run_check (required : Cardinality) :
    (unary (.check required) a i).run d c = (a.expr.run d c).check required :=
  (run_unary _).trans (Behaviour.trace_check ..)

theorem run_applyRules (mode : ModeName) :
    (unary (.applyRules mode) a i).run d c =
      .ofResult ((a.expr.run d c.withOutput).result.bind fun xs =>
        (d.apply xs mode i.location c.withOutput).collected.result.map .ofList) := by
  rw [run_unary, Unary.behaviour, Behaviour.trace_ofProcess, ← result_collect]
  generalize (a.expr.behaviour d).collect c.withOutput = x
  rcases x with ⟨log, e | xs⟩
  · rfl
  · rcases h : d.apply xs mode i.location c.withOutput Output.initial with ⟨o, log', e | u⟩ <;>
      simp [Push.collected, Push.lift, bind, h, Except.map]

theorem run_letIn (v : Binding) :
    (binary (.letIn v) a b i).run d c =
      .ofResult ((a.expr.run d c).result.map fun xs => b.expr.run d (c.setSlot v.slot xs)) :=
  (run_binary _).trans (Behaviour.trace_letIn ..)

theorem run_forIn (v : Binding) :
    (binary (.forIn v) a b i).run d c =
      (a.expr.run d c).expand fun _ item => b.expr.run d (c.setSlot v.slot [item]) :=
  (run_binary _).trans (Behaviour.trace_forIn ..)

theorem run_arithmetic (op : ArithmeticOp) (calculator : Calculator) :
    (binary (.arithmetic op calculator) a b i).run d c =
      .ofItem (((a.expr.run d c).single c.forest).bind fun v =>
        ((b.expr.run d c).single c.forest).bind
          (Behaviour.pairOne (Value.compute op · · calculator) v)) :=
  (run_binary _).trans (Behaviour.trace_arithmetic ..)

theorem run_compare (op : ComparisonOp) :
    (binary (.compare op) a b i).run d c =
      .ofItem (((a.expr.run d c).single c.forest).bind fun v =>
        ((b.expr.run d c).single c.forest).bind
          (Behaviour.pairOne (fun v w => (Value.compare op v w).map .boolean) v)) :=
  (run_binary _).trans (Behaviour.trace_compare ..)

theorem run_logical (op : LogicalOp) :
    (binary (.logical op) a b i).run d c =
      .ofTruth ((a.expr.run d c).truth.bind fun x =>
        if op.isOpen x then (b.expr.run d c).truth else .ok x) :=
  (run_binary _).trans (Behaviour.trace_logical ..)

theorem run_range :
    (binary .range a b i).run d c =
      .ofResult (((a.expr.run d c).integer? c.forest).bind fun low? =>
        ((b.expr.run d c).integer? c.forest).map fun high? =>
          match low?, high? with
          | some low, some high => if low ≤ high then (Source.range low high).trace else .ofList []
          | _, _ => .ofList []) :=
  (run_binary _).trans (Behaviour.trace_range ..)

/-- What the steps of a path give, one after the other. -/
def found (d : Dispatcher) (start step : Expr) (c : Context) : Trace :=
  ((start.run d c).wholeIf step.dependencies.last).expand
    (step.stepAt d c (start.sizeIf d step.dependencies.last c))

theorem run_path :
    (binary .path a b i).run d c =
      if i.props.special.ordered then found d a.expr b.expr c
      else (found d a.expr b.expr c).sorted c.forest := by
  refine (run_binary _).trans ((Behaviour.trace_path ..).trans ?_)
  have steps (size? : Option Nat) :
      (b.expr.behaviour d).pathOne c size? = b.expr.stepAt d c size? := by
    funext before item
    cases item <;> rfl
  simp only [steps]
  rfl

theorem run_filter :
    (binary .filter a b i).run d c =
      ((a.expr.run d c).wholeIf b.expr.dependencies.last).filter fun before item =>
        (b.expr.runAt d c (a.expr.sizeIf d b.expr.dependencies.last c) before item).holdsAt
          (before + 1) :=
  (run_binary _).trans (Behaviour.trace_filter ..)

theorem run_union :
    (binary .union a b i).run d c =
      .ofResult ((a.expr.run d c).result.bind fun xs => (b.expr.run d c).result.bind fun ys =>
        ((unionOf c.forest xs ys).mapError (·.cause)).map .ofList) :=
  (run_binary _).trans (Behaviour.trace_union ..)

theorem run_choice :
    (choice x y n i).run d c =
      .ofResult ((x.expr.run d c).truth.map fun t =>
        if t then y.expr.run d c else n.expr.run d c) := by
  rw [run, behaviour_choice, Behaviour.trace_located, Behaviour.trace_choice]
  rfl

theorem run_block (args : List Operand) :
    (variadic .block args i).run d c = .concat (args.map (·.expr.run d c)) := by
  refine (run_variadic _ _).trans ((Behaviour.trace_block ..).trans ?_)
  simp [Function.comp_def, run]

variable (rest : List Operand)

theorem run_call (function : BuiltIn) :
    (variadic (.call function) (a :: rest) i).run d c =
      (Behaviour.call i.location function ((a.expr.behaviour d, a.expr.location) ::
        rest.map fun a => (a.expr.behaviour d, a.expr.location))).trace c :=
  run_variadic _ _

theorem run_negation :
    (variadic (.call .negation) (a :: rest) i).run d c =
      .ofTruth ((a.expr.run d c).truth.map (!·)) :=
  (run_call rest _).trans (Behaviour.trace_negation _ _)

theorem run_truth :
    (variadic (.call .truth) (a :: rest) i).run d c = .ofTruth (a.expr.run d c).truth :=
  (run_call rest _).trans (Behaviour.trace_truth _ _)

theorem run_existence :
    (variadic (.call .existence) (a :: rest) i).run d c =
      .ofTruth (a.expr.run d c).nonempty :=
  (run_call rest _).trans (Behaviour.trace_existence _ _)

theorem run_emptiness :
    (variadic (.call .emptiness) (a :: rest) i).run d c =
      .ofTruth ((a.expr.run d c).nonempty.map (!·)) :=
  (run_call rest _).trans (Behaviour.trace_emptiness _ _)

theorem run_count :
    (variadic (.call .count) (a :: rest) i).run d c =
      .ofItem ((a.expr.run d c).result.map fun xs =>
        some (.atomic (lengthValue xs.length))) :=
  (run_call rest _).trans (Behaviour.trace_count _ _)

theorem run_exactlyOne :
    (variadic (.call .exactlyOne) (a :: rest) i).run d c =
      .ofItem (((a.expr.run d c).only .notExactlyOne).bind Behaviour.required) :=
  (run_call rest _).trans (Behaviour.trace_exactlyOne _ _)

theorem run_zeroOrOne :
    (variadic (.call .zeroOrOne) (a :: rest) i).run d c =
      .ofItem ((a.expr.run d c).only .moreThanOne) :=
  (run_call rest _).trans (Behaviour.trace_zeroOrOne _ _)

theorem run_data :
    (variadic (.call .data) (a :: rest) i).run d c = (a.expr.run d c).atomize c.forest :=
  (run_call rest _).trans (Behaviour.trace_data _ _)

theorem run_subsequence :
    (variadic (.call .subsequence) (a :: b :: rest) i).run d c =
      .ofResult (((b.expr.run d c).number c.forest).bind fun x =>
        (numberIf d rest.head? c).map fun n? => a.expr.cut d c (subsequenceBounds? x n?)) := by
  refine (run_variadic _ _).trans ((Behaviour.trace_call_subsequence a.expr.location ..).trans ?_)
  cases rest <;> rfl

end Expr

end TreeQuery
