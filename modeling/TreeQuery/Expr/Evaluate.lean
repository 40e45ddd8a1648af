/-
The behaviour of a whole expression.

`Expr.behaviour` puts the behaviours of the operators together.  It recurses on the expression only:
the two operators that run rules take what they need from a `Dispatcher`, so that nothing here
depends on the rules, and the recursion from an action to the rules it applies is closed elsewhere.

Design notes: an operator looks at the stored properties of its operands in four places, where they
say whether a length has to be known (`path`, `filter`), whether a result has to be put into document
order (`path`), and whether a single value may be converted without a stream (`convert`).
-/
import TreeQuery.Expr.Behaviour

namespace TreeQuery

/-- The two ways to run rules: on the items of a sequence, and on the context item with the rules
below the current one. -/
structure Dispatcher where
  apply : Sequence → ModeName → Location → Context → Push Unit
  next : Location → Context → Push Unit

namespace Dispatcher

/-- Nothing can be run. -/
def none : Dispatcher := ⟨fun _ _ _ _ => .fail (.of .tooDeep), fun _ _ => .fail (.of .tooDeep)⟩

end Dispatcher

namespace Leaf

/-- The behaviour of an operator without operands. -/
def behaviour (d : Dispatcher) (l : Location) : Leaf → Behaviour
  | literal values => .literal l values
  | contextItem => .contextItem l
  | position => .position l
  | last => .last l
  | «variable» b _ => .variable l b
  | global name _ => .global l name
  | step axis test => .step l axis test
  | nextMatch => .ofProcess (d.next l)

end Leaf

namespace Unary

/-- The behaviour of an operator with one operand, from that of the operand. -/
def behaviour (d : Dispatcher) (l : Location) (op : Unary) (operand : Expr) (a : Behaviour) :
    Behaviour :=
  match op with
  | atomize => .atomize l a
  | convert target conversion =>
    .convert l target conversion operand.cardinality.atMostOne operand.location a
  | cast target allowsEmpty => .cast l target allowsEmpty operand.location a
  | check required => .check l required a
  | applyRules mode =>
    .ofProcess fun c => do
      let selection ← Push.lift (a.collect c)
      d.apply selection mode l c

end Unary

namespace Binary

/-- The behaviour of an operator with two operands, from those of the operands.  `ordered` says that
the result is known to be in document order. -/
def behaviour (l : Location) (ordered : Bool) (op : Binary) (x y : Expr) (a b : Behaviour) :
    Behaviour :=
  match op with
  | letIn v => .letIn l v.slot a b
  | forIn v => .forIn l v.slot a b
  | arithmetic op calculator => .arithmetic l op calculator x.location y.location a b
  | compare op => .compare l op x.location y.location a b
  | logical op => .logical l op a b
  | range => .range l x.location y.location a b
  | path => .path l y.dependencies.last ordered a b
  | filter => .filter l y.dependencies.last a b
  | union => .union l a b

end Binary

namespace Variadic

/-- The behaviour of an operator with a list of operands, from those of the operands, which come
with their places. -/
def behaviour (l : Location) (op : Variadic) (args : List (Behaviour × Location)) : Behaviour :=
  match op with
  | block => .block l (args.map (·.1))
  | call function => .call l function args

end Variadic

namespace Expr

mutual

/-- What an expression does.  Its place is attached to its errors. -/
def behaviour (d : Dispatcher) : Expr → Behaviour
  | leaf op i => (op.behaviour d i.location).located i.location
  | unary op ⟨_, x⟩ i => (op.behaviour d i.location x (behaviour d x)).located i.location
  | binary op ⟨_, x⟩ ⟨_, y⟩ i =>
    (op.behaviour i.location i.props.special.ordered x y (behaviour d x) (behaviour d y)).located
      i.location
  | choice ⟨_, c⟩ ⟨_, y⟩ ⟨_, n⟩ i =>
    (Behaviour.choice (behaviour d c) (behaviour d y) (behaviour d n)).located i.location
  | variadic op args i => (op.behaviour i.location (behaviours d args)).located i.location

/-- What the operands of a list do, with their places. -/
def behaviours (d : Dispatcher) : List Operand → List (Behaviour × Location)
  | [] => []
  | ⟨_, e⟩ :: rest => (behaviour d e, e.location) :: behaviours d rest

end

end Expr

end TreeQuery
