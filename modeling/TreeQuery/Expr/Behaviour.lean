/-
What an expression does, and how operators combine it.

A `Behaviour` has three ways of evaluation: as a sequence, as the first item of it, and as output.
An operator has some of them of its own; `ofItem`, `ofSource` and `ofProcess` derive the others.
The rest of this module is one definition for each operator, in terms of the behaviours of its
operands.

Design notes: no operator looks at the expressions it combines, so every one of them can be
understood by itself.  What is computed when a result is asked for, and what only when its items
are pulled, is visible in the types: the first is an `Eval`, the second a stream that a `Source`
holds.
-/
import TreeQuery.Context
import TreeQuery.Expr.Basic
import TreeQuery.Node.Order
import TreeQuery.Node.Walk
import TreeQuery.Sequence.Output
import TreeQuery.Sequence.Sorting

namespace TreeQuery

/-! ### Values of sequences -/

/-- A length or a position as a value; one that is too large becomes the largest integer. -/
def lengthValue (n : Nat) : Value :=
  .integer (Int64.ofInt (min (n : Int) Int64.maxValue.toInt))

/-- Replaces nodes by the atomic values they stand for. -/
def ItemStream.atomize (s : ItemStream) (f : Forest) : ItemStream :=
  s.expand id (fun _ a => .ofList ((a.typedValue f).map .atomic)) 0

/-- Converts untyped values and leaves all other items alone. -/
def ItemStream.convert (s : ItemStream) (target : AtomicType) (conversion : Conversion) :
    ItemStream :=
  s.expand id
    (fun _ a =>
      match a with
      | .node _ => .ofList [a]
      | .atomic v =>
        match v.convertUntyped target conversion with
        | .ok w => .ofList [.atomic w]
        | .error e => .failed e)
    0

/-- Whether a sequence counts as true: a node in front does, a single value may, nothing does not,
and several values are an error. -/
def ItemStream.truth (s : ItemStream) : Eval Bool := do
  match ← s.next? with
  | none => return false
  | some (.node _, _) => return true
  | some (.atomic v, rest) =>
    match ← (rest ()).next? with
    | none => return v.truth
    | some _ => .fail (.of .truthOfSeveral)

/-- Whether a sequence of literal values counts as true. -/
def truthOfValues : List Value → Except Error Bool
  | [] => .ok false
  | [v] => .ok v.truth
  | _ => .error (.of .truthOfSeveral)

/-- Whether a predicate with this result holds at a position: a single number does if it is the
position, and everything else if it counts as true. -/
def ItemStream.holdsAt (s : ItemStream) (position : Nat) : Eval Bool := do
  match ← s.next? with
  | none => return false
  | some (a, rest) =>
    match a.atomic?.bind (·.number?) with
    | some x =>
      match ← (rest ()).next? with
      | none => return x == doubleOfInt position
      | some _ => .fail (.of .predicateOfSeveral)
    | none => truth (.item a rest)

/-- The atomic value of a sequence that must not have more than one. -/
def ItemStream.single (s : ItemStream) (f : Forest) (l : Location) : Eval (Option Value) := do
  match ← (s.atomize f).next? with
  | none => return none
  | some (a, rest) =>
    match ← (rest ()).next? with
    | none => return a.atomic?
    | some _ => .fail ((Error.of .severalForOperand).located l)

/-! ### Document order of results -/

/-- Leaves one of each run of equal nodes. -/
def dropRepeats : List Nat → List Nat
  | [] => []
  | [n] => [n]
  | m :: n :: rest => if m = n then dropRepeats (n :: rest) else m :: dropRepeats (n :: rest)

/-- Whether a node may stand before another: unless it certainly comes after it. -/
def Forest.mayPrecede (f : Forest) (a b : Nat) : Bool :=
  match f.order a b with
  | .ok .gt => false
  | _ => true

/-- Compares nodes for a sort.  A sort cannot fail, so a failure is kept, unless there was one before, and
the two nodes count as equal. -/
def Forest.compareKeeping (f : Forest) (a b : Nat) : StateM (Option Error) Ordering :=
  match f.order a b with
  | .ok o => return o
  | .error e => do
    modify (·.or (some e))
    return .eq

/-- Nodes of one tree in document order, each once; nodes of several trees have no order. -/
def Forest.sortNodes (f : Forest) (ns : List Nat) : Except Error (List Nat) :=
  match (sortBy f.compareKeeping ns).run none with
  | (_, some e) => .error e
  | (sorted, none) => .ok (dropRepeats sorted)

/-- The result of a path: nodes in document order, each once, or values as they come, but not
both. -/
def sortPath (f : Forest) (xs : Sequence) : Except Error Sequence :=
  let nodes := xs.filterMap Item.node?
  if nodes.isEmpty then .ok xs
  else if nodes.length ≠ xs.length then .error (.of .mixedPath)
  else (f.sortNodes nodes).map (·.map .node)

/-- The nodes of two sequences in document order, each once. -/
def unionOf (f : Forest) (xs ys : Sequence) : Except Error Sequence :=
  if (xs ++ ys).all Item.isNode then
    (f.sortNodes ((xs ++ ys).filterMap Item.node?)).map (·.map .node)
  else .error (.of .unionOfAtomics)

/-! ### Positions of a subsequence -/

/-- The nearest whole number, a half going up. -/
def roundHalfUp (x : Float) : Float :=
  (Unpacked.ofDouble (x + Unpacked.toDouble (.finite false 1 (-1)))).floor.toDouble

/-- A position as an integer: at least 1, at most the largest integer. -/
def clampPosition (x : Float) : Int :=
  if doubleOfInt Int64.maxValue.toInt ≤ x then Int64.maxValue.toInt
  else if x ≤ doubleOfInt 1 then 1
  else (Unpacked.ofDouble x).truncate?.getD 0

/-- The first and the last position that a start and a length select; `none` if there is none. -/
def subsequenceBounds? (start : Float) (length? : Option Float) : Option (Int × Int) :=
  let first := roundHalfUp start
  if first.isNaN then none
  else
    let last? :=
      match length? with
      | none => some (infinity false)
      | some length =>
        let n := roundHalfUp length
        if n.isNaN then none else some (first + n - doubleOfInt 1)
    match last? with
    | none => none
    | some last =>
      let least := if first < doubleOfInt 1 then doubleOfInt 1 else first
      if last < least then none else some (clampPosition first, clampPosition last)

/-- The items at the positions from `low` to `high`, counted from 1. -/
def slice (xs : Sequence) (low high : Int) : Sequence :=
  (xs.drop (low - 1).toNat).take (high - max (low - 1) 0).toNat

/-! ### Behaviours -/

/-- The three ways of evaluation. -/
structure Behaviour where
  iterate : Context → Eval Source
  item : Context → Eval (Option Item)
  process : Context → Push Unit

namespace Behaviour

/-- Attaches a place to the errors of all three ways; errors that arise only when items are pulled
are not among them. -/
def located (l : Location) (b : Behaviour) : Behaviour where
  iterate c := (b.iterate c).located l
  item c := (b.item c).located l
  process c := (b.process c).located l

/-- The result as output. -/
def deliverAll (iterate : Context → Eval Source) (l : Location) (c : Context) : Push Unit := do
  let s ← Push.lift (iterate c)
  s.toStream.forEach fun _ a => .deliver c.hasOutput l a

/-- From a sequence: its first item, and its items as output. -/
def ofSource (l : Location) (iterate : Context → Eval Source) : Behaviour where
  iterate
  item c := do (← iterate c).first?
  process := deliverAll iterate l

/-- From at most one item: the sequence of it, and the item as output. -/
def ofItem (l : Location) (item : Context → Eval (Option Item)) : Behaviour :=
  let iterate c := do return Source.ofOption (← item c)
  { iterate, item, process := deliverAll iterate l }

/-- From a single value. -/
def ofValue (l : Location) (value : Context → Eval Value) : Behaviour :=
  ofItem l fun c => do return some (.atomic (← value c))

/-- From output: the sequence of the items put out, and the first of them. -/
def ofProcess (process : Context → Push Unit) : Behaviour :=
  let iterate c := do return Source.items (← (process c.withOutput).collected)
  { iterate, item := fun c => do (← iterate c).first?, process }

/-- The result as a stream. -/
def stream (b : Behaviour) (c : Context) : Eval ItemStream := do return (← b.iterate c).toStream

/-- All items. -/
def collect (b : Behaviour) (c : Context) : Eval Sequence := do (← b.iterate c).collect

/-- Whether the result counts as true. -/
def truth (b : Behaviour) (c : Context) : Eval Bool := do (← b.stream c).truth

/-- Whether the result holds as a predicate at a position. -/
def holdsAt (b : Behaviour) (c : Context) (position : Nat) : Eval Bool := do
  (← b.stream c).holdsAt position

/-- The atomic value of an operand that must not have more than one; `l` is its place. -/
def single (b : Behaviour) (l : Location) (c : Context) : Eval (Option Value) := do
  (← b.stream c).single c.forest l

/-- The number of an operand that must have one. -/
def number (b : Behaviour) (l : Location) (c : Context) : Eval Float := do
  match ← b.single l c with
  | none => .fail ((Error.of .emptyNumber).located l)
  | some v =>
    let w ← Eval.ofExcept (v.convertUntyped .double .strict)
    match w.number? with
    | some x => return x
    | none => .fail ((Error.of (.notANumber w.type)).located l)

/-- The integer of an operand that may have one. -/
def integer? (b : Behaviour) (l : Location) (c : Context) : Eval (Option Int64) := do
  match ← b.single l c with
  | none => return none
  | some (.integer n) => return some n
  | some (.untyped s) => return some (← Eval.ofExcept (Value.parseInteger s))
  | some v => .fail ((Error.of (.rangeBound v.type)).located l)

/-! ### Operators without operands -/

/-- A literal. -/
def literal (l : Location) (values : List Value) : Behaviour :=
  { ofSource l fun _ => pure (.items (values.map .atomic)) with
    item := fun _ => pure (values.head?.map .atomic) }

/-- The context item. -/
def contextItem (l : Location) : Behaviour := ofItem l fun c => do return some (← .ofExcept c.item)

/-- The position of the context item. -/
def position (l : Location) : Behaviour :=
  ofValue l fun c => do return lengthValue (← .ofExcept c.position)

/-- The length of the sequence that the context item came from. -/
def last (l : Location) : Behaviour :=
  ofValue l fun c => do return lengthValue (← .ofExcept c.size)

/-- A local variable. -/
def «variable» (l : Location) (b : Binding) : Behaviour :=
  ofSource l fun c => do return .items (← .ofExcept (c.slot b.slot))

/-- A global variable. -/
def global (l : Location) (name : Name) : Behaviour :=
  ofSource l fun c => do return .items (← .ofExcept (c.global name))

/-- The nodes on an axis from the context item that pass a test. -/
def step (l : Location) (axis : Axis) (test : NodeTest) : Behaviour :=
  ofSource l fun c => do
    match ← Eval.ofExcept c.item with
    | .atomic _ => .fail (.of (.axisNeedsNode axis))
    | .node n =>
      if axis.isMaterialized then
        return .items (((axis.nodes c.forest n).filter (test.accepts c.forest)).map .node)
      else
        return .stream fun _ => (axis.walk c.forest n).filter
          (fun _ a => pure ((a.node?.map (test.accepts c.forest)).getD false)) 0

/-! ### Operators with one operand -/

/-- The atomic values of the items. -/
def atomize (l : Location) (a : Behaviour) : Behaviour :=
  ofSource l fun c => do return (← a.iterate c).through (·.atomize c.forest)

/-- The items, untyped values converted.  Of an operand that has at most one item the single value is
converted without a stream. -/
def convert (l : Location) (target : AtomicType) (conversion : Conversion) (atMostOne : Bool)
    (place : Location) (a : Behaviour) : Behaviour :=
  let b := ofSource l fun c => do return (← a.iterate c).through (·.convert target conversion)
  if atMostOne then
    { b with
      item := fun c => do
        match ← a.single place c with
        | none => return none
        | some v => return some (.atomic (← .ofExcept (v.convertUntyped target conversion))) }
  else b

/-- The value in another type. -/
def cast (l : Location) (target : AtomicType) (allowsEmpty : Bool) (place : Location)
    (a : Behaviour) : Behaviour :=
  ofItem l fun c => do
    match ← a.single place c with
    | some v => return some (.atomic (← .ofExcept (v.cast target)))
    | none => if allowsEmpty then return none else .fail (.of .emptyCast)

/-- The items, if their number is a required one. -/
def check (l : Location) (required : Cardinality) (a : Behaviour) : Behaviour :=
  ofSource l fun c => do return (← a.iterate c).through (·.check required l 0)

/-! ### Operators with two operands -/

/-- The body, with a variable that stands for the whole of a sequence. -/
def letIn (l : Location) (slot : Nat) (value body : Behaviour) : Behaviour :=
  { ofSource l fun c => do
      let v ← value.collect c
      body.iterate (c.setSlot slot v) with
    process := fun c => do
      let v ← Push.lift (value.collect c)
      body.process (c.setSlot slot v) }

/-- The body for every item of a sequence, with a variable that stands for the item. -/
def forIn (l : Location) (slot : Nat) (input body : Behaviour) : Behaviour :=
  { ofSource l fun c => do
      let s ← input.iterate c
      return s.through (·.expand id (fun _ a => .ofEval (body.stream (c.setSlot slot [a]))) 0) with
    process := fun c => do
      let s ← Push.lift (input.stream c)
      s.forEach fun _ a => body.process (c.setSlot slot [a]) }

/-- An arithmetic operation; nothing if an operand has no value. -/
def arithmetic (l : Location) (op : ArithmeticOp) (calculator : Calculator) (placeA placeB : Location)
    (a b : Behaviour) : Behaviour :=
  ofItem l fun c => do
    let x ← a.single placeA c
    let y ← b.single placeB c
    match x, y with
    | some x, some y => return some (.atomic (← .ofExcept (Value.compute op x y calculator)))
    | _, _ => return none

/-- A value comparison; nothing if an operand has no value. -/
def compare (l : Location) (op : ComparisonOp) (placeA placeB : Location) (a b : Behaviour) :
    Behaviour :=
  ofItem l fun c => do
    let x ← a.single placeA c
    let y ← b.single placeB c
    match x, y with
    | some x, some y => return some (.atomic (.boolean (← .ofExcept (Value.compare op x y))))
    | _, _ => return none

/-- A logical connective; the second operand is evaluated only if the first leaves it open. -/
def logical (l : Location) (op : LogicalOp) (a b : Behaviour) : Behaviour :=
  ofValue l fun c => do
    let x ← a.truth c
    match op, x with
    | .and, false => return .boolean false
    | .or, true => return .boolean true
    | _, _ => return .boolean (← b.truth c)

/-- The integers between two bounds; none if a bound has no value. -/
def range (l : Location) (placeA placeB : Location) (a b : Behaviour) : Behaviour :=
  ofSource l fun c => do
    let low? ← a.integer? placeA c
    let high? ← b.integer? placeB c
    match low?, high? with
    | some low, some high => return if low ≤ high then .range low high else .items []
    | _, _ => return .items []

/-- A sequence, with its length if that is needed; it is read for that only if nothing else helps. -/
def sized (s : Source) (needed : Bool) : Eval (Source × Option Nat) := do
  if needed then
    match s.length? with
    | some n => return (s, some n)
    | none =>
      let xs ← s.collect
      return (.items xs, some xs.length)
  else return (s, none)

/-- The results of a step from every node of a sequence, one after the other. -/
def pathStream (l : Location) (size? : Option Nat) (step : Behaviour) (c : Context)
    (s : ItemStream) : ItemStream :=
  s.expand (·.located l)
    (fun before a =>
      match a with
      | .node _ =>
        (ItemStream.ofEval (step.stream (c.withFocus a (before + 1) size?))).mapFailure (·.located l)
      | .atomic _ => .failed ((Error.of .stepOnAtomic).located l))
    0

/-- A path: a step from every node of a sequence.  Unless it is known that the nodes come out in
document order they are put into it. -/
def path (l : Location) (needsLast ordered : Bool) (start step : Behaviour) : Behaviour :=
  ofSource l fun c => do
    let (s, size?) ← sized (← start.iterate c) needsLast
    let found := s.through (pathStream l size? step c)
    if ordered then return found
    else return .items (← .ofExcept (sortPath c.forest (← found.collect)))

/-- The items of a sequence for which a predicate holds. -/
def filter (l : Location) (needsLast : Bool) (base predicate : Behaviour) : Behaviour :=
  ofSource l fun c => do
    let (s, size?) ← sized (← base.iterate c) needsLast
    return s.through (·.filter
      (fun before a =>
        (predicate.holdsAt (c.withFocus a (before + 1) size?) (before + 1)).located l) 0)

/-- The nodes of two sequences in document order. -/
def union (l : Location) (a b : Behaviour) : Behaviour :=
  ofSource l fun c => do
    let xs ← a.collect c
    let ys ← b.collect c
    return .items (← .ofExcept (unionOf c.forest xs ys))

/-! ### Choices, blocks and calls -/

/-- One of two branches. -/
def choice (condition yes no : Behaviour) : Behaviour where
  iterate c := do if ← condition.truth c then yes.iterate c else no.iterate c
  item c := do if ← condition.truth c then yes.item c else no.item c
  process c := do if ← Push.lift (condition.truth c) then yes.process c else no.process c

/-- The results of several parts, one after the other; a part is evaluated when it is reached. -/
def concatStream (c : Context) : List Behaviour → ItemStream
  | [] => .done
  | part :: rest => (ItemStream.ofEval (part.stream c)).append fun _ => concatStream c rest

/-- Runs several parts, one after the other. -/
def processAll (c : Context) : List Behaviour → Push Unit
  | [] => pure ()
  | part :: rest => do
    part.process c
    processAll c rest

/-- Several parts, one after the other. -/
def block (l : Location) (parts : List Behaviour) : Behaviour :=
  { ofSource l fun c => pure (.stream fun _ => concatStream c parts) with
    process := fun c => processAll c parts }

/-- The only item, where there must not be more than one and, if `required`, not less. -/
def onlyItem (required : Bool) (s : ItemStream) : Eval (Option Item) := do
  match ← s.next? with
  | none => if required then .fail (.of .notExactlyOne) else return none
  | some (a, rest) =>
    match ← (rest ()).next? with
    | none => return some a
    | some _ => .fail (.of (if required then .notExactlyOne else .moreThanOne))

/-- A subsequence: the start, the length and then the sequence itself are evaluated, the last only if
a position is selected at all. -/
def subsequence (source start : Behaviour) (startPlace : Location)
    (length? : Option (Behaviour × Location)) (c : Context) : Eval Source := do
  let x ← start.number startPlace c
  let n? ← match length? with
    | none => pure none
    | some (b, l) => do pure (some (← b.number l c))
  match subsequenceBounds? x n? with
  | none => return .items []
  | some (low, high) =>
    let s ← source.iterate c
    match s.grounded? with
    | some xs => return .items (slice xs low high)
    | none => return .stream fun _ => .between low high fun _ => s.toStream

/-- A call of a built-in function.  The arguments come with their places. -/
def call (l : Location) (function : BuiltIn) (args : List (Behaviour × Location)) : Behaviour :=
  match args with
  | [] =>
    let missing : Eval (Option Item) := .fail (.of (.noArguments function))
    match function with
    | .data => { ofSource l fun _ => pure (.items []) with item := fun _ => missing }
    | .subsequence =>
      { ofSource l fun _ => .fail (.of (.tooFewArguments function)) with item := fun _ => missing }
    | _ => ofItem l fun _ => missing
  | (a, _) :: rest =>
    match function with
    | .negation => ofValue l fun c => do return .boolean (!(← a.truth c))
    | .truth => ofValue l fun c => do return .boolean (← a.truth c)
    | .existence => ofValue l fun c => do return .boolean (← (← a.iterate c).nonempty)
    | .emptiness => ofValue l fun c => do return .boolean (!(← (← a.iterate c).nonempty))
    | .count => ofValue l fun c => do return lengthValue (← (← a.iterate c).count)
    | .exactlyOne => ofItem l fun c => do onlyItem true (← a.stream c)
    | .zeroOrOne => ofItem l fun c => do onlyItem false (← a.stream c)
    | .data => atomize l a
    | .subsequence =>
      match rest with
      | [] => ofSource l fun _ => .fail (.of (.tooFewArguments function))
      | (start, place) :: more => ofSource l (subsequence a start place more.head?)

end Behaviour

end TreeQuery
