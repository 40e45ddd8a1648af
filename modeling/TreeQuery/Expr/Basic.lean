/-
Expressions.

An expression is an operator with its operands, a place in the source text, and its static
properties, which are kept with it.  Operators are sorted by the number of operands they take, so
that a tree always has the right number of them.  An operand carries its role: how it is evaluated
relative to the expression it belongs to.

`Expr.computed` says what the properties of an expression are, given those that its operands
carry; `Expr.refresh` stores them.  Everything here that makes an expression stores them at once,
and `Expr.verify` finds an expression whose stored properties are not the computed ones.
-/
import TreeQuery.Error
import TreeQuery.Expr.Properties
import TreeQuery.Node.Test
import TreeQuery.Value.Arithmetic

namespace TreeQuery

/-- A local variable: its identity, its name, and the slot of the frame that holds its value. -/
structure Binding where
  id : Nat
  name : Name
  slot : Nat
  deriving DecidableEq, Repr

/-- Hands out identities and slots of local variables. -/
structure Allocator where
  nextId : Nat
  nextSlot : Nat
  deriving DecidableEq, Repr

namespace Allocator

/-- Nothing handed out yet. -/
def initial : Allocator := ⟨0, 0⟩

/-- A new variable. -/
def declare (a : Allocator) (name : Name) : Binding × Allocator :=
  (⟨a.nextId, name, a.nextSlot⟩, ⟨a.nextId + 1, a.nextSlot + 1⟩)

/-- How many slots a frame needs for all variables handed out. -/
def frameSize (a : Allocator) : Nat := a.nextSlot

end Allocator

/-- How an operand is evaluated relative to its parent. -/
inductive Role where
  /-- Once, with the parent's focus. -/
  | navigate
  /-- Once, with the parent's focus, as a single atomic value. -/
  | atomic
  /-- For every item, with a focus that the parent sets. -/
  | controlled
  /-- For every item, with the parent's focus. -/
  | loopBody
  deriving DecidableEq, Repr

/-- The role as a number. -/
def Role.bits : Role → Nat
  | .navigate => 1
  | .atomic => 9
  | .controlled => 6
  | .loopBody => 5

/-- The two logical connectives. -/
inductive LogicalOp where
  | and
  | or
  deriving DecidableEq, Repr

/-- The written form. -/
def LogicalOp.label : LogicalOp → String
  | .and => "and"
  | .or => "or"

/-- Operators without operands. -/
inductive Leaf where
  | literal (values : List Value)
  | contextItem
  | position
  | last
  | variable (binding : Binding) (type : Option SequenceType)
  | global (name : Name) (type : Option SequenceType)
  | step (axis : Axis) (test : NodeTest)
  | nextMatch

/-- Operators with one operand. -/
inductive Unary where
  | atomize
  | convert (target : AtomicType) (conversion : Conversion)
  | cast (target : AtomicType) (allowsEmpty : Bool)
  | check (required : Cardinality)
  | applyRules (mode : ModeName)
  deriving DecidableEq, Repr

/-- Operators with two operands. -/
inductive Binary where
  | letIn (binding : Binding)
  | forIn (binding : Binding)
  | arithmetic (op : ArithmeticOp) (calculator : Calculator)
  | compare (op : ComparisonOp)
  | logical (op : LogicalOp)
  | range
  | path
  | filter
  | union
  deriving DecidableEq, Repr

/-- Operators with a list of operands. -/
inductive Variadic where
  | block
  | call (function : BuiltIn)
  deriving DecidableEq, Repr

/-- What every expression carries besides its operator and its operands. -/
structure Info where
  props : Properties
  location : Location
  deriving DecidableEq, Repr

mutual

/-- An expression. -/
inductive Expr where
  | leaf (op : Leaf) (info : Info)
  | unary (op : Unary) (a : Operand) (info : Info)
  | binary (op : Binary) (a b : Operand) (info : Info)
  | choice (condition yes no : Operand) (info : Info)
  | variadic (op : Variadic) (args : List Operand) (info : Info)

/-- An operand with its role. -/
inductive Operand where
  | mk (role : Role) (expr : Expr)

end

namespace Operand

/-- The role of an operand. -/
def role : Operand → Role
  | ⟨r, _⟩ => r

/-- The expression of an operand. -/
def expr : Operand → Expr
  | ⟨_, e⟩ => e

end Operand

namespace Expr

/-- What an expression carries. -/
def info : Expr → Info
  | leaf _ i => i
  | unary _ _ i => i
  | binary _ _ _ i => i
  | choice _ _ _ i => i
  | variadic _ _ i => i

/-- The same expression with other accompaniments. -/
def withInfo (e : Expr) (i : Info) : Expr :=
  match e with
  | leaf op _ => leaf op i
  | unary op a _ => unary op a i
  | binary op a b _ => binary op a b i
  | choice c y n _ => choice c y n i
  | variadic op args _ => variadic op args i

/-- The stored properties. -/
def props (e : Expr) : Properties := e.info.props

/-- The place in the source text. -/
def location (e : Expr) : Location := e.info.location

/-- The stored cardinality. -/
def cardinality (e : Expr) : Cardinality := e.props.cardinality

/-- The stored item type. -/
def itemType (e : Expr) : ItemType := e.props.itemType

/-- The stored order properties and effects. -/
def special (e : Expr) : Special := e.props.special

/-- The stored dependencies. -/
def dependencies (e : Expr) : Dependencies := e.props.dependencies

/-- The same expression at another place. -/
def withLocation (e : Expr) (l : Location) : Expr := e.withInfo ⟨e.props, l⟩

/-- The operands in order. -/
def operands : Expr → List Operand
  | leaf _ _ => []
  | unary _ a _ => [a]
  | binary _ a b _ => [a, b]
  | choice c y n _ => [c, y, n]
  | variadic _ args _ => args

/-- The values of a literal. -/
def literal? : Expr → Option (List Value)
  | leaf (.literal vs) _ => some vs
  | _ => none

/-- Whether an expression is a literal. -/
def isLiteral (e : Expr) : Bool := e.literal?.isSome

/-- Whether an expression is the literal without values. -/
def isEmptyLiteral (e : Expr) : Bool := (e.literal?.map (·.isEmpty)).getD false

/-- The axis of a step. -/
def stepAxis? : Expr → Option Axis
  | leaf (.step a _) _ => some a
  | _ => none

end Expr

/-! ### Computed properties -/

namespace Properties

/-- What the operands read, the focus not counting where the parent sets it. -/
def dependenciesOf (ops : List Operand) : Dependencies :=
  ops.foldl (fun acc op =>
    acc.union <|
      if op.role = .controlled then op.expr.dependencies.withoutFocus else op.expr.dependencies) .none

/-- Without effects if all operands are. -/
def effectsOf (ops : List Operand) : Special :=
  ⟨false, false, ops.all (·.expr.special.nonCreative)⟩

/-- Evaluated as a single item only. -/
def itemOnly : Methods := ⟨false, true, false⟩

/-- Evaluated by iteration only. -/
def iterateOnly : Methods := ⟨true, false, false⟩

/-- The length of a literal. -/
def literalCardinality : List Value → Cardinality
  | [] => .empty
  | [_] => .exactlyOne
  | _ => .severalOnly

/-- Exactly one if both operands are exactly one. -/
def pairCardinality (a b : Expr) : Cardinality :=
  if a.cardinality = .exactlyOne ∧ b.cardinality = .exactlyOne then .exactlyOne else .zeroOrOne

/-- The properties of an operator without operands. -/
def ofLeaf : Leaf → Properties
  | .literal vs =>
    ⟨literalCardinality vs, .commonOf (vs.map fun v => .atomic v.type), ⟨false, false, true⟩, .none,
      ⟨true, true, false⟩⟩
  | .contextItem =>
    ⟨.exactlyOne, .any, ⟨true, true, true⟩, { Dependencies.none with item := true }, itemOnly⟩
  | .position =>
    ⟨.exactlyOne, .atomic .integer, ⟨false, false, true⟩, { Dependencies.none with position := true },
      itemOnly⟩
  | .last =>
    ⟨.exactlyOne, .atomic .integer, ⟨false, false, true⟩, { Dependencies.none with last := true },
      itemOnly⟩
  | .variable _ type =>
    let t := type.getD .any
    ⟨t.cardinality, t.item, ⟨false, false, true⟩, { Dependencies.none with locals := true },
      iterateOnly⟩
  | .global _ type =>
    let t := type.getD .any
    ⟨t.cardinality, t.item, ⟨false, false, true⟩, { Dependencies.none with globals := true },
      iterateOnly⟩
  | .step axis test =>
    ⟨if axis = .self ∨ axis = .parent then .zeroOrOne else .any,
      match test.kind? with
      | some k => .node k
      | none => .anyNode,
      ⟨true, axis == .child || axis == .attribute || axis == .self || axis == .parent, true⟩,
      { Dependencies.none with item := true }, iterateOnly⟩
  | .nextMatch =>
    ⟨.any, .any, .none, { Dependencies.none with item := true, rules := true },
      ⟨false, false, true⟩⟩

/-- The type of the items that conversion of untyped values leaves. -/
def convertedType (target : AtomicType) : ItemType → ItemType
  | .atomic .untypedAtomic => .atomic target
  | .atomic t => .atomic (if t.mayBeUntyped then .anyAtomic else t)
  | _ => .atomic .anyAtomic

/-- The properties of an operator with one operand. -/
def ofUnary (op : Unary) (a : Operand) : Properties :=
  let deps := dependenciesOf [a]
  let effects := effectsOf [a]
  let e := a.expr
  match op with
  | .atomize =>
    ⟨if e.itemType.isAtomic then e.cardinality else .any, .atomic e.itemType.atomized, effects, deps,
      ⟨true, true, false⟩⟩
  | .convert target _ =>
    ⟨e.cardinality, convertedType target e.itemType, effects, deps, ⟨true, true, false⟩⟩
  | .cast target allowsEmpty =>
    ⟨if allowsEmpty && e.cardinality.zero then .zeroOrOne else .exactlyOne, .atomic target, effects,
      deps, itemOnly⟩
  | .check required =>
    let narrowed := e.cardinality.inter required
    ⟨if narrowed = .impossible then required else narrowed, e.itemType, e.special, deps,
      ⟨true, true, false⟩⟩
  | .applyRules _ => ⟨.any, .any, .none, { deps with rules := true }, ⟨false, false, true⟩⟩

/-- Whether steps along an axis from nodes in document order, none inside another, give nodes in
document order. -/
def keepsOrder : Axis → Bool
  | .child => true
  | .attribute => true
  | .self => true
  | .descendant => true
  | .descendantOrSelf => true
  | _ => false

/-- Whether steps along an axis from nodes, none inside another, give such nodes again. -/
def keepsPeers : Axis → Bool
  | .child => true
  | .attribute => true
  | .self => true
  | _ => false

/-- The order properties of a path. -/
def pathOrder (start step : Expr) : Special :=
  if start.special.ordered && step.special.ordered then
    if start.cardinality.atMostOne then ⟨true, step.special.peer, false⟩
    else if start.special.peer then
      match step.stepAxis? with
      | some axis => if keepsOrder axis then ⟨true, keepsPeers axis, false⟩ else .none
      | none => .none
    else .none
  else .none

/-- The properties of an operator with two operands. -/
def ofBinary (op : Binary) (a b : Operand) : Properties :=
  let deps := dependenciesOf [a, b]
  let effects := effectsOf [a, b]
  let x := a.expr
  let y := b.expr
  match op with
  | .letIn _ =>
    ⟨y.cardinality, y.itemType, effects.withOrderOf y.special, deps, ⟨true, false, true⟩⟩
  | .forIn _ =>
    ⟨x.cardinality.multiply y.cardinality, y.itemType, effects, deps, ⟨true, false, true⟩⟩
  | .arithmetic op calculator =>
    ⟨pairCardinality x y, .atomic (calculator.resultType op), effects, deps, itemOnly⟩
  | .compare _ => ⟨pairCardinality x y, .atomic .boolean, effects, deps, itemOnly⟩
  | .logical _ => ⟨.exactlyOne, .atomic .boolean, effects, deps, itemOnly⟩
  | .range => ⟨.any, .atomic .integer, effects, deps, iterateOnly⟩
  | .path =>
    ⟨x.cardinality.multiply y.cardinality, y.itemType, effects.withOrderOf (pathOrder x y), deps,
      iterateOnly⟩
  | .filter =>
    ⟨x.cardinality.union .empty, x.itemType, effects.withOrderOf x.special, deps, iterateOnly⟩
  | .union =>
    ⟨(x.cardinality.sum y.cardinality).union (x.cardinality.either y.cardinality),
      x.itemType.common y.itemType, effects.withOrderOf ⟨true, false, false⟩, deps, iterateOnly⟩

/-- The properties of a choice.  A branch that is always empty says nothing about the type. -/
def ofChoice (c y n : Operand) : Properties :=
  let yes := y.expr
  let no := n.expr
  let type :=
    if yes.cardinality.isEmptyOnly && !no.cardinality.isEmptyOnly then no.itemType
    else if no.cardinality.isEmptyOnly && !yes.cardinality.isEmptyOnly then yes.itemType
    else yes.itemType.common no.itemType
  ⟨yes.cardinality.either no.cardinality, type, effectsOf [c, y, n], dependenciesOf [c, y, n],
    ⟨true, true, true⟩⟩

/-- The properties of a call. -/
def ofCall (function : BuiltIn) (args : List Operand) : Properties :=
  let deps := dependenciesOf args
  let effects := effectsOf args
  let first := args.head?.map Operand.expr
  match function with
  | .count => ⟨.exactlyOne, .atomic .integer, effects, deps, itemOnly⟩
  | .exactlyOne =>
    ⟨.exactlyOne, (first.map itemType).getD .any,
      effects.withOrderOf ((first.map special).getD .none), deps, itemOnly⟩
  | .zeroOrOne =>
    ⟨.zeroOrOne, (first.map itemType).getD .any,
      effects.withOrderOf ((first.map special).getD .none), deps, itemOnly⟩
  | .data =>
    let c := (first.map cardinality).getD .any
    let t := (first.map itemType).getD .any
    ⟨if t.isAtomic then c else .any, .atomic t.atomized, effects, deps, iterateOnly⟩
  | .subsequence =>
    ⟨((first.map cardinality).getD .any).union .empty, (first.map itemType).getD .any,
      effects.withOrderOf ((first.map special).getD .none), deps, iterateOnly⟩
  | _ => ⟨.exactlyOne, .atomic .boolean, effects, deps, itemOnly⟩
where
  itemType (e : Expr) : ItemType := e.itemType
  special (e : Expr) : Special := e.special
  cardinality (e : Expr) : Cardinality := e.cardinality

/-- The properties of a block: the parts one after the other.  A part that is always empty says
nothing about the type. -/
def ofBlock (parts : List Operand) : Properties :=
  ⟨parts.foldl (fun c p => c.sum p.expr.cardinality) .empty,
    .commonOf ((parts.filter fun p => !p.expr.cardinality.isEmptyOnly).map (·.expr.itemType)),
    effectsOf parts, dependenciesOf parts, ⟨true, false, true⟩⟩

end Properties

namespace Expr

/-- The properties of an expression, from those that its operands carry. -/
def computed : Expr → Properties
  | leaf op _ => .ofLeaf op
  | unary op a _ => .ofUnary op a
  | binary op a b _ => .ofBinary op a b
  | choice c y n _ => .ofChoice c y n
  | variadic .block args _ => .ofBlock args
  | variadic (.call f) args _ => .ofCall f args

/-- The same expression with its properties stored anew. -/
def refresh (e : Expr) : Expr := e.withInfo ⟨e.computed, e.location⟩

/-- What a new expression carries before its properties are computed. -/
def fresh (l : Location) : Info := ⟨.initial, l⟩

/-- A new expression without operands. -/
def ofLeaf (op : Leaf) (l : Location) : Expr := (leaf op (fresh l)).refresh

/-- A new expression with one operand. -/
def ofUnary (op : Unary) (a : Operand) (l : Location) : Expr := (unary op a (fresh l)).refresh

/-- A new expression with two operands. -/
def ofBinary (op : Binary) (a b : Operand) (l : Location) : Expr :=
  (binary op a b (fresh l)).refresh

/-- A new choice. -/
def ofChoice (c y n : Operand) (l : Location) : Expr := (choice c y n (fresh l)).refresh

/-- A new expression with a list of operands. -/
def ofVariadic (op : Variadic) (args : List Operand) (l : Location) : Expr :=
  (variadic op args (fresh l)).refresh

/-- A new literal. -/
def literal (values : List Value) (l : Location) : Expr := ofLeaf (.literal values) l

/-- The literal without values, at no known place. -/
def empty : Expr := literal [] .unknown

instance : Inhabited Expr := ⟨empty⟩

/-- Puts an expression in the place of another, whose location it takes if it has none. -/
def replacing (old new : Expr) : Expr :=
  if new.location.isUnknown then new.withLocation old.location else new

mutual

/-- The variables that are referred to, in the order of the tree. -/
def references : Expr → List Binding
  | leaf (.variable b _) _ => [b]
  | leaf _ _ => []
  | unary _ a _ => operandReferences a
  | binary _ a b _ => operandReferences a ++ operandReferences b
  | choice c y n _ => operandReferences c ++ operandReferences y ++ operandReferences n
  | variadic _ args _ => argumentReferences args

/-- The variables that an operand refers to. -/
def operandReferences : Operand → List Binding
  | ⟨_, e⟩ => references e

/-- The variables that the operands of a list refer to. -/
def argumentReferences : List Operand → List Binding
  | [] => []
  | a :: rest => operandReferences a ++ argumentReferences rest

end

/-- Whether a variable is referred to. -/
def refersTo (e : Expr) (id : Nat) : Bool := e.references.any (·.id == id)

/-- Reports stored properties that are not the computed ones. -/
def verifyHere (e : Expr) : Except Error Unit :=
  if e.computed = e.props then .ok ()
  else .error ((Error.of .staleProperties).located e.location)

mutual

/-- Reports the first expression of a tree, operands before the expressions they belong to, whose
stored properties are not the computed ones. -/
def verify : Expr → Except Error Unit
  | leaf op i => verifyHere (leaf op i)
  | unary op a i => do
    verifyOperand a
    verifyHere (unary op a i)
  | binary op a b i => do
    verifyOperand a
    verifyOperand b
    verifyHere (binary op a b i)
  | choice c y n i => do
    verifyOperand c
    verifyOperand y
    verifyOperand n
    verifyHere (choice c y n i)
  | variadic op args i => do
    verifyArguments args
    verifyHere (variadic op args i)

/-- Reports stale properties inside an operand. -/
def verifyOperand : Operand → Except Error Unit
  | ⟨_, e⟩ => verify e

/-- Reports stale properties inside the operands of a list. -/
def verifyArguments : List Operand → Except Error Unit
  | [] => .ok ()
  | a :: rest => do
    verifyOperand a
    verifyArguments rest

end

end Expr

/-- Whether two operators without operands are the same; literals are compared by value. -/
def Leaf.same : Leaf → Leaf → Bool
  | .literal vs, .literal ws => vs == ws
  | .contextItem, .contextItem => true
  | .position, .position => true
  | .last, .last => true
  | .variable b t, .variable b' t' => b == b' && t == t'
  | .global n t, .global n' t' => n == n' && t == t'
  | .step a t, .step a' t' => a == a' && t == t'
  | .nextMatch, .nextMatch => true
  | _, _ => false

namespace Expr

mutual

/-- Whether two expressions are the same in all they carry. -/
def same : Expr → Expr → Bool
  | leaf op i, leaf op' i' => op.same op' && i == i'
  | unary op a i, unary op' a' i' => op == op' && sameOperand a a' && i == i'
  | binary op a b i, binary op' a' b' i' =>
    op == op' && sameOperand a a' && sameOperand b b' && i == i'
  | choice c y n i, choice c' y' n' i' =>
    sameOperand c c' && sameOperand y y' && sameOperand n n' && i == i'
  | variadic op args i, variadic op' args' i' => op == op' && sameArguments args args' && i == i'
  | _, _ => false

/-- Whether two operands are the same. -/
def sameOperand : Operand → Operand → Bool
  | ⟨r, e⟩, ⟨r', e'⟩ => r == r' && same e e'

/-- Whether two lists of operands are the same. -/
def sameArguments : List Operand → List Operand → Bool
  | [], [] => true
  | a :: rest, a' :: rest' => sameOperand a a' && sameArguments rest rest'
  | _, _ => false

end

/-- A call; the number of arguments has to be right. -/
def call (function : BuiltIn) (args : List Expr) (l : Location) : Except Error Expr :=
  let (low, high) := function.arity
  if args.length < low ∨ high < args.length then
    .error ((Error.static (.wrongArity function args.length)).located l)
  else
    let roleOf : Nat → Role
      | 0 => .navigate
      | _ => if function = .subsequence then .atomic else .navigate
    .ok (ofVariadic (.call function) (args.mapIdx fun i e => ⟨roleOf i, e⟩) l)

end Expr

end TreeQuery
