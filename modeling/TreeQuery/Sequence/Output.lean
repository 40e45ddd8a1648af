/-
Output.

An `Output` collects items in the order in which they arrive, each with the place of the expression
that it comes from.  It may refuse: because it is in use elsewhere, or because it is full.  A `Push`
is a step of evaluation that may add to the output; what it has added stays there when it fails.
-/
import TreeQuery.Sequence.Source

namespace TreeQuery

/-- A destination of items. -/
structure Output where
  entries : Array (Item × Location)
  limit? : Option Nat
  inUse : Bool

namespace Output

/-- An empty output that takes everything. -/
def initial : Output := ⟨#[], none, false⟩

/-- The items that have arrived. -/
def items (o : Output) : Sequence := o.entries.toList.map (·.1)

/-- Adds an item. -/
def append (o : Output) (a : Item) (l : Location) : Except Error Output :=
  if o.inUse then .error (.of .outputBusy)
  else if o.limit? = some o.entries.size then
    .error (.of (.raised ErrorCode.FOER0000.name "output full"))
  else .ok { o with entries := o.entries.push (a, l) }

end Output

/-- A step of evaluation that may add to the output. -/
def Push (α : Type) : Type := Output → Output × Eval α

namespace Push

instance : Monad Push where
  pure a := fun o => (o, pure a)
  bind p f := fun o =>
    let (o', x) := p o
    match x.outcome with
    | .ok a =>
      let (o'', y) := f a o'
      (o'', ⟨x.log ++ y.log, y.outcome⟩)
    | .error e => (o', ⟨x.log, .error e⟩)

/-- A step that adds nothing. -/
def lift {α : Type} (x : Eval α) : Push α := fun o => (o, x)

/-- Nothing but an error. -/
def fail {α : Type} (e : Error) : Push α := lift (.fail e)

/-- Attaches a place to the error, if there is one. -/
def located {α : Type} (l : Location) (p : Push α) : Push α := fun o =>
  let (o', x) := p o
  (o', x.located l)

/-- Adds an item, if there is an output at all. -/
def deliver (hasOutput : Bool) (l : Location) (a : Item) : Push Unit := fun o =>
  if hasOutput then
    match o.append a l with
    | .ok o' => (o', pure ())
    | .error e => (o, .fail e)
  else (o, .fail (.of .noOutput))

/-- What is added to an output of its own, as a result. -/
def collected (p : Push Unit) : Eval Sequence :=
  let (o, x) := p .initial
  ⟨x.log, x.outcome.map fun _ => o.items⟩

end Push

namespace ItemStream

/-- Runs a step for every item, with the number of items before it, as far as no step fails; `log`
holds the warnings so far, the latest first. -/
def forEachFrom (step : Nat → Item → Push Unit) (before : Nat) (log : List Warning) :
    ItemStream → Push Unit
  | .done, o => (o, ⟨log.reverse, .ok ()⟩)
  | .failed e, o => (o, ⟨log.reverse, .error e⟩)
  | .warned w rest, o => forEachFrom step before (w :: log) (rest ()) o
  | .item a rest, o =>
    let (o', x) := step before a o
    match x.outcome with
    | .ok _ => forEachFrom step (before + 1) (x.log.reverse ++ log) (rest ()) o'
    | .error e => (o', ⟨log.reverse ++ x.log, .error e⟩)

/-- Runs a step for every item, with the number of items before it, as far as no step fails. -/
def forEach (s : ItemStream) (step : Nat → Item → Push Unit) : Push Unit := forEachFrom step 0 [] s

end ItemStream

end TreeQuery
