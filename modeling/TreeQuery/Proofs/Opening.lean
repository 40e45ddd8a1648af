/-
What is computed before the first item is asked for.

A subsequence that ends before the first item still has its source evaluated up to the point where the
first item could be asked for.  `Expr.opening` is what that comes to: nothing, or a failure.  Of most
operators it is the whole evaluation (`Trace.emptied`); the others hand their items on one by one, and
there is an equation for each of them.
-/
import TreeQuery.Proofs.Evaluation

namespace TreeQuery

/-- No items, or nothing but the failure if there is one. -/
def Trace.emptied (t : Trace) : Trace := .ofResult (t.result.map fun _ => .ofList [])

@[simp] theorem Trace.emptied_ofList (xs : Sequence) : (Trace.ofList xs).emptied = .ofList [] := rfl

@[simp] theorem Trace.emptied_failed (e : Cause) : (Trace.failed e).emptied = .failed e := rfl

namespace Behaviour

variable {l : Location} {c : Context} {a b : Behaviour}

/-- If nothing fails after the first item could be asked for, the opening is the whole evaluation. -/
theorem opening_of_complete (h : ∀ s, (b.iterate c).result = .ok s → s.trace.failure? = none) :
    b.opening c = (b.trace c).emptied := by
  rcases b.iterate_cases c with ⟨e, hs, ht, ho⟩ | ⟨s, hs, ht, ho, -⟩
  · rw [ht, ho]
    rfl
  · rw [ht, ho, Trace.emptied, Trace.result_eq_ok_items (h s hs)]
    rfl

theorem opening_ofItem (l : Location) (item : Context → Eval (Option Item)) (c : Context) :
    (ofItem l item).opening c = ((ofItem l item).trace c).emptied := by
  refine opening_of_complete fun s hs => ?_
  obtain ⟨a?, -, hs⟩ := bind_eq_ok_iff.mp ((Eval.result_bind _ _).symm.trans hs)
  obtain rfl := Except.ok.inj hs
  simp

theorem opening_ofProcess (process : Context → Push Unit) (c : Context) :
    (ofProcess process).opening c = ((ofProcess process).trace c).emptied := by
  refine opening_of_complete fun s hs => ?_
  obtain ⟨xs, -, hs⟩ := bind_eq_ok_iff.mp ((Eval.result_bind _ _).symm.trans hs)
  obtain rfl := Except.ok.inj hs
  simp

/-- A sequence that is computed as a whole. -/
theorem opening_ofItems (l : Location) (items : Context → Eval Sequence) (c : Context) :
    (ofSource l fun c => do return .items (← items c)).opening c =
      ((ofSource l fun c => do return .items (← items c)).trace c).emptied := by
  refine opening_of_complete fun s hs => ?_
  obtain ⟨xs, -, hs⟩ := bind_eq_ok_iff.mp ((Eval.result_bind _ _).symm.trans hs)
  obtain rfl := Except.ok.inj hs
  simp

theorem opening_literal (l : Location) (vs : List Value) (c : Context) :
    (literal l vs).opening c = ((literal l vs).trace c).emptied := by
  rw [trace_literal]
  rfl

theorem opening_step (l : Location) (axis : Axis) (test : NodeTest) (c : Context) :
    (step l axis test).opening c = ((step l axis test).trace c).emptied := by
  rw [trace_step]
  simp only [opening, step, ofSource, Eval.result_bind, Eval.result_ofExcept]
  cases c.item with
  | error e => rfl
  | ok a =>
    simp only [ok_mapError, ok_bind]
    cases a with
    | atomic v => rfl
    | node n =>
      simp only
      split <;> rfl

theorem opening_through (l : Location) (f : Context → ItemStream → ItemStream) (c : Context) :
    (ofSource l fun c => do return (← a.iterate c).through (f c)).opening c = a.opening c := by
  simp only [opening, ofSource, Eval.result_bind]
  cases (a.iterate c).result <;> rfl

theorem opening_letIn (l : Location) (slot : Nat) (value body : Behaviour) (c : Context) :
    (letIn l slot value body).opening c =
      .ofResult ((value.trace c).result.map fun v => body.opening (c.setSlot slot v)) := by
  simp only [letIn, ofSource]
  rw [opening, ← result_collect]
  simp only [Eval.result_bind]
  cases (value.collect c).result <;> rfl

theorem opening_range (l : Location) (placeA placeB : Location) (a b : Behaviour) (c : Context) :
    (range l placeA placeB a b).opening c = ((range l placeA placeB a b).trace c).emptied := by
  refine opening_of_complete fun s hs => ?_
  obtain ⟨low?, -, hs⟩ := bind_eq_ok_iff.mp ((Eval.result_bind _ _).symm.trans hs)
  obtain ⟨high?, -, hs⟩ := bind_eq_ok_iff.mp ((Eval.result_bind _ _).symm.trans hs)
  cases low? <;> cases high? <;> obtain rfl := Except.ok.inj hs <;>
    first | exact congrArg Trace.failure? (Source.trace_items []) | skip
  split
  · rw [Source.trace_range]
    rfl
  · rw [Source.trace_items]
    rfl

/-- The beginning of a sequence whose length may have to be found out first. -/
private theorem opening_sized (needed : Bool) :
    Trace.ofResult ((a.iterate c >>= fun s => sized s needed).result.map fun _ => .ofList []) =
      if needed then (a.trace c).emptied else a.opening c := by
  rw [Eval.result_bind]
  rcases a.iterate_cases c with ⟨e, hs, ht, ho⟩ | ⟨s, hs, ht, ho, -⟩
  · rw [hs, ht, ho]
    cases needed <;> rfl
  · rw [hs, ht, ho]
    cases needed with
    | false => rfl
    | true =>
      simp only [ok_bind, if_true]
      unfold sized
      cases hn : s.length? with
      | some n =>
        rw [Trace.emptied, Trace.result_eq_ok_items (Source.trace_of_length? hn).1]
        rfl
      | none =>
        simp only [if_true, Eval.result_bind, s.result_collect, Trace.emptied]
        cases s.trace.result <;> rfl

theorem opening_path_of_ordered (l : Location) (needsLast : Bool) (start step : Behaviour)
    (c : Context) :
    (path l needsLast true start step).opening c =
      if needsLast then (start.trace c).emptied else start.opening c := by
  rw [← opening_sized]
  simp only [opening, path, ofSource, Eval.result_bind, if_true]
  cases (start.iterate c).result with
  | error e => rfl
  | ok s =>
    simp only [ok_bind]
    cases (sized s needsLast).result <;> rfl

theorem opening_path_of_unordered (l : Location) (needsLast : Bool) (start step : Behaviour)
    (c : Context) :
    (path l needsLast false start step).opening c =
      ((path l needsLast false start step).trace c).emptied := by
  refine opening_of_complete fun s hs => ?_
  obtain ⟨_, -, hs⟩ := bind_eq_ok_iff.mp ((Eval.result_bind _ _).symm.trans hs)
  obtain ⟨p, -, hs⟩ := bind_eq_ok_iff.mp ((Eval.result_bind _ _).symm.trans hs)
  simp only [Bool.false_eq_true, if_false] at hs
  obtain ⟨_, -, hs⟩ := bind_eq_ok_iff.mp ((Eval.result_bind _ _).symm.trans hs)
  obtain ⟨_, -, hs⟩ := bind_eq_ok_iff.mp ((Eval.result_bind _ _).symm.trans hs)
  obtain rfl := Except.ok.inj hs
  simp

theorem opening_filter (l : Location) (needsLast : Bool) (base predicate : Behaviour) (c : Context) :
    (filter l needsLast base predicate).opening c =
      if needsLast then (base.trace c).emptied else base.opening c := by
  rw [← opening_sized]
  simp only [opening, filter, ofSource, Eval.result_bind]
  cases (base.iterate c).result with
  | error e => rfl
  | ok s =>
    simp only [ok_bind]
    cases (sized s needsLast).result <;> rfl

theorem opening_union (l : Location) (a b : Behaviour) (c : Context) :
    (union l a b).opening c = ((union l a b).trace c).emptied := by
  refine opening_of_complete fun s hs => ?_
  obtain ⟨_, -, hs⟩ := bind_eq_ok_iff.mp ((Eval.result_bind _ _).symm.trans hs)
  obtain ⟨_, -, hs⟩ := bind_eq_ok_iff.mp ((Eval.result_bind _ _).symm.trans hs)
  obtain ⟨_, -, hs⟩ := bind_eq_ok_iff.mp ((Eval.result_bind _ _).symm.trans hs)
  obtain rfl := Except.ok.inj hs
  simp

theorem opening_choice (condition yes no : Behaviour) (c : Context) :
    (choice condition yes no).opening c =
      .ofResult ((condition.trace c).truth.map fun x =>
        if x then yes.opening c else no.opening c) := by
  rw [← result_truth, opening]
  simp only [choice, Eval.result_bind]
  cases (condition.truth c).result with
  | error e => rfl
  | ok x => cases x <;> rfl

/-- The source of a subsequence is opened if any position is selected. -/
def openingIf (source : Behaviour) (c : Context) (bounds? : Option (Int × Int)) : Trace :=
  if bounds?.isSome then source.opening c else .ofList []

theorem opening_subsequence (l : Location) (source start : Behaviour) (place : Location)
    (length? : Option (Behaviour × Location)) (c : Context) :
    (ofSource l (subsequence source start place length?)).opening c =
      .ofResult (((start.trace c).number c.forest).bind fun x => (numberIf length? c).map fun n? =>
        source.openingIf c (subsequenceBounds? x n?)) := by
  have selected (bounds? : Option (Int × Int)) :
      Trace.ofResult ((source.selected c bounds?).result.map fun _ => .ofList []) =
        source.openingIf c bounds? := by
    rcases bounds? with _ | ⟨low, high⟩
    · rfl
    · simp only [Behaviour.selected, Eval.result_bind, openingIf, Option.isSome_some, if_true, opening]
      cases (source.iterate c).result <;> rfl
  rw [opening, ofSource, result_subsequence]
  cases (start.trace c).number c.forest with
  | error e => rfl
  | ok x =>
    simp only [ok_bind]
    cases numberIf length? c with
    | error e => rfl
    | ok n? => exact selected _

end Behaviour

namespace Expr

variable {d : Dispatcher} {c : Context} {a b x y n : Operand} {i : Info}

/-- What evaluation of an expression comes to if no item is asked for. -/
def opening (d : Dispatcher) (e : Expr) (c : Context) : Trace := (e.behaviour d).opening c

theorem opening_leaf (op : Leaf) : (leaf op i).opening d c = ((leaf op i).run d c).emptied := by
  rw [opening, run_leaf, behaviour_leaf, Behaviour.opening_located]
  cases op with
  | literal vs => exact Behaviour.opening_literal ..
  | contextItem => exact Behaviour.opening_ofItem ..
  | position => exact Behaviour.opening_ofItem ..
  | last => exact Behaviour.opening_ofItem ..
  | «variable» v type => exact Behaviour.opening_ofItems ..
  | global name type => exact Behaviour.opening_ofItems ..
  | step axis test => exact Behaviour.opening_step ..
  | nextMatch => exact Behaviour.opening_ofProcess ..

theorem opening_unary (op : Unary) :
    (unary op a i).opening d c =
      (op.behaviour d i.location a.expr (a.expr.behaviour d)).opening c := by
  rw [opening, behaviour_unary, Behaviour.opening_located]

theorem opening_binary (op : Binary) :
    (binary op a b i).opening d c =
      (op.behaviour i.location i.props.special.ordered a.expr b.expr (a.expr.behaviour d)
        (b.expr.behaviour d)).opening c := by
  rw [opening, behaviour_binary, Behaviour.opening_located]

theorem opening_atomize : (unary .atomize a i).opening d c = a.expr.opening d c :=
  (opening_unary _).trans (Behaviour.opening_through i.location (fun c s => s.atomize c.forest) c)

theorem opening_convert (target : AtomicType) (conversion : Conversion) :
    (unary (.convert target conversion) a i).opening d c = a.expr.opening d c := by
  refine (opening_unary _).trans ?_
  have through := Behaviour.opening_through (a := a.expr.behaviour d) i.location
    (fun _ s => s.convert target conversion) c
  simp only [Unary.behaviour, Behaviour.convert]
  split <;> exact through

theorem opening_cast (target : AtomicType) (allowsEmpty : Bool) :
    (unary (.cast target allowsEmpty) a i).opening d c =
      ((unary (.cast target allowsEmpty) a i).run d c).emptied := by
  rw [opening_unary, run_unary]
  exact Behaviour.opening_ofItem ..

theorem opening_check (required : Cardinality) :
    (unary (.check required) a i).opening d c = a.expr.opening d c :=
  (opening_unary _).trans
    (Behaviour.opening_through i.location (fun _ s => s.check required i.location 0) c)

theorem opening_applyRules (mode : ModeName) :
    (unary (.applyRules mode) a i).opening d c =
      ((unary (.applyRules mode) a i).run d c).emptied := by
  rw [opening_unary, run_unary, Unary.behaviour]
  exact Behaviour.opening_ofProcess ..

theorem opening_letIn (v : Binding) :
    (binary (.letIn v) a b i).opening d c =
      .ofResult ((a.expr.run d c).result.map fun xs => b.expr.opening d (c.setSlot v.slot xs)) :=
  (opening_binary _).trans (Behaviour.opening_letIn ..)

theorem opening_forIn (v : Binding) :
    (binary (.forIn v) a b i).opening d c = a.expr.opening d c :=
  (opening_binary _).trans (Behaviour.opening_through i.location
    (fun c s => s.expand id
      (fun _ item => .ofEval ((b.expr.behaviour d).stream (c.setSlot v.slot [item]))) 0) c)

theorem opening_arithmetic (op : ArithmeticOp) (calculator : Calculator) :
    (binary (.arithmetic op calculator) a b i).opening d c =
      ((binary (.arithmetic op calculator) a b i).run d c).emptied := by
  rw [opening_binary, run_binary]
  exact Behaviour.opening_ofItem ..

theorem opening_compare (op : ComparisonOp) :
    (binary (.compare op) a b i).opening d c =
      ((binary (.compare op) a b i).run d c).emptied := by
  rw [opening_binary, run_binary]
  exact Behaviour.opening_ofItem ..

theorem opening_logical (op : LogicalOp) :
    (binary (.logical op) a b i).opening d c =
      ((binary (.logical op) a b i).run d c).emptied := by
  rw [opening_binary, run_binary]
  exact Behaviour.opening_ofItem ..

theorem opening_range :
    (binary .range a b i).opening d c = ((binary .range a b i).run d c).emptied := by
  rw [opening_binary, run_binary]
  exact Behaviour.opening_range ..

theorem opening_path :
    (binary .path a b i).opening d c =
      if i.props.special.ordered then
        if b.expr.dependencies.last then (a.expr.run d c).emptied else a.expr.opening d c
      else ((binary .path a b i).run d c).emptied := by
  rw [opening_binary, run_binary]
  cases h : i.props.special.ordered with
  | true => exact Behaviour.opening_path_of_ordered ..
  | false => exact Behaviour.opening_path_of_unordered ..

theorem opening_filter :
    (binary .filter a b i).opening d c =
      if b.expr.dependencies.last then (a.expr.run d c).emptied else a.expr.opening d c :=
  (opening_binary _).trans (Behaviour.opening_filter ..)

theorem opening_union :
    (binary .union a b i).opening d c = ((binary .union a b i).run d c).emptied := by
  rw [opening_binary, run_binary]
  exact Behaviour.opening_union ..

theorem opening_choice :
    (choice x y n i).opening d c =
      .ofResult ((x.expr.run d c).truth.map fun t =>
        if t then y.expr.opening d c else n.expr.opening d c) := by
  rw [opening, behaviour_choice, Behaviour.opening_located]
  exact Behaviour.opening_choice ..

theorem opening_variadic (op : Variadic) (args : List Operand) :
    (variadic op args i).opening d c =
      (op.behaviour i.location
        (args.map fun a => (a.expr.behaviour d, a.expr.location))).opening c := by
  rw [opening, behaviour_variadic, Behaviour.opening_located]

theorem opening_block (args : List Operand) : (variadic .block args i).opening d c = .ofList [] :=
  opening_variadic _ _

variable (rest : List Operand)

theorem opening_data :
    (variadic (.call .data) (a :: rest) i).opening d c = a.expr.opening d c :=
  (opening_variadic _ _).trans
    (Behaviour.opening_through i.location (fun c s => s.atomize c.forest) c)

/-- The source of a subsequence is opened if any position is selected. -/
def openingIf (d : Dispatcher) (e : Expr) (c : Context) (bounds? : Option (Int × Int)) : Trace :=
  (e.behaviour d).openingIf c bounds?

theorem opening_subsequence :
    (variadic (.call .subsequence) (a :: b :: rest) i).opening d c =
      .ofResult (((b.expr.run d c).number c.forest).bind fun x =>
        (numberIf d rest.head? c).map fun n? =>
          a.expr.openingIf d c (subsequenceBounds? x n?)) := by
  refine (opening_variadic _ _).trans ((Behaviour.opening_subsequence ..).trans ?_)
  cases rest <;> rfl

/-- The other functions give a single value. -/
theorem opening_call (function : BuiltIn) (h : function ≠ .data) (h' : function ≠ .subsequence) :
    (variadic (.call function) (a :: rest) i).opening d c =
      ((variadic (.call function) (a :: rest) i).run d c).emptied := by
  rw [opening_variadic, run_variadic]
  cases function <;> first | exact Behaviour.opening_ofItem .. | contradiction

end Expr

end TreeQuery
