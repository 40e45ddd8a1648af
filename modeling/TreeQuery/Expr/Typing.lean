/-
Typing.

`Expr.typed` gives every reference to a variable the type of what it stands for, puts in the
conversions that operators need, and settles what the types alone decide: the calculator of an
arithmetic operation, checks that always hold, and parts that are always empty.  What can be known
to fail is a static error.

Design notes: types of local variables are handed down in a scope, so that one walk over the
expression is enough.  An inner declaration of the same variable stands before an outer one.
-/
import TreeQuery.Expr.Basic
import TreeQuery.StaticContext

namespace TreeQuery

/-- The types of local variables, by identity, the innermost declaration first. -/
abbrev Scope := List (Nat × SequenceType)

/-- The type of a local variable that is in scope. -/
def Scope.type? (scope : Scope) (id : Nat) : Option SequenceType :=
  (scope.find? (·.1 == id)).map (·.2)

namespace Expr

/-- The type of an expression. -/
def staticType (e : Expr) : SequenceType := ⟨e.itemType, e.cardinality⟩

/-- A type error that is known in advance. -/
def typeError (e : Expr) (c : Cause) : Error := (Error.static c).located e.location

/-- Replaces an expression that never gives an item by the empty literal. -/
def collapseEmpty (e : Expr) : Expr :=
  if e.isLiteral || !e.cardinality.isEmptyOnly then e else e.replacing empty

/-! ### Conversions of operands -/

/-- Puts an operator around an expression, at the same place. -/
def wrapped (e : Expr) (op : Unary) : Expr := ofUnary op ⟨.navigate, e⟩ e.location

/-- Puts atomization around an expression, unless its items are atomic values anyway. -/
def atomized (e : Expr) : Expr :=
  match e with
  | unary .atomize _ _ => e
  | _ => if e.itemType.isAtomic then e else e.wrapped .atomize

/-- Puts a check around an expression that it has at most one item, unless that is known. -/
def limited (e : Expr) : Expr :=
  if e.cardinality.many then e.wrapped (.check .zeroOrOne) else e

/-- Puts conversion of untyped values around an expression that may have some. -/
def converted (e : Expr) (target : AtomicType) (conversion : Conversion) : Expr :=
  if e.itemType.atomized.mayBeUntyped then e.wrapped (.convert target conversion) else e

/-- An operand that must be a single atomic value, untyped ones converted. -/
def prepared (e : Expr) (target : AtomicType) (conversion : Conversion) : Expr :=
  match e with
  | unary (.convert _ _) _ _ => e
  | _ => (e.atomized.limited).converted target conversion

/-! ### Typing of single expressions -/

/-- An operand of an arithmetic operation. -/
def arithmeticOperand (s : StaticContext) (e : Expr) : Except Error Expr :=
  let p := e.prepared .double s.conversion
  let t := p.itemType.atomized
  if t.isKnownNonNumeric then .error (p.typeError (.operandNotNumeric t)) else .ok p

/-- Typing of an arithmetic operation. -/
def typedArithmetic (s : StaticContext) (op : ArithmeticOp) (e : Expr) (a b : Operand) (i : Info) :
    Except Error Expr := do
  if a.expr.cardinality.isEmptyOnly || b.expr.cardinality.isEmptyOnly then
    return e.replacing empty
  let x ← arithmeticOperand s a.expr
  let y ← arithmeticOperand s b.expr
  let calculator := Calculator.select op x.itemType.atomized y.itemType.atomized
  return (binary (.arithmetic op calculator) ⟨a.role, x⟩ ⟨b.role, y⟩ i).refresh

/-- Typing of a comparison. -/
def typedComparison (op : ComparisonOp) (e : Expr) (a b : Operand) (i : Info) :
    Except Error Expr :=
  if a.expr.cardinality.isEmptyOnly || b.expr.cardinality.isEmptyOnly then
    .ok (e.replacing empty)
  else
    let x := a.expr.prepared .string .strict
    let y := b.expr.prepared .string .strict
    if AtomicType.comparable x.itemType.atomized y.itemType.atomized then
      .ok (binary (.compare op) ⟨a.role, x⟩ ⟨b.role, y⟩ i).refresh
    else .error (e.typeError (.incomparableTypes x.itemType.atomized y.itemType.atomized))

/-- Typing of a call: some calls are settled by the cardinality of their argument. -/
def typedCall (function : BuiltIn) (e : Expr) : List Operand → Except Error Expr
  | [] => .ok e
  | a :: _ =>
    let c := a.expr.cardinality
    match function with
    | .exactlyOne =>
      if c.isEmptyOnly then .error (e.typeError .neverExactlyOne)
      else if c = .exactlyOne then .ok (e.replacing a.expr)
      else .ok e
    | .zeroOrOne => .ok (if c.atMostOne then e.replacing a.expr else e)
    | .existence => settled c (.boolean false)
    | .emptiness => settled c (.boolean true)
    | .count => settled c (.integer 0)
    | _ => .ok e
where
  /-- Of an argument that is always empty the result is known. -/
  settled (c : Cardinality) (v : Value) : Except Error Expr :=
    .ok (if c.isEmptyOnly then e.replacing (literal [v] .unknown) else e)

/-- Typing of a check of the number of items. -/
def typedCheck (required : Cardinality) (e operand : Expr) : Except Error Expr :=
  let actual := operand.cardinality
  if actual.isEmptyOnly && !required.zero then .error (e.typeError .alwaysEmpty)
  else if actual.inter required = .impossible then .error (e.typeError (.unsatisfiable required))
  else if required.covers actual then .ok (e.replacing operand)
  else .ok e

/-- Typing of a cast. -/
def typedCast (target : AtomicType) (allowsEmpty : Bool) (e : Expr) (a : Operand) (i : Info) :
    Except Error Expr :=
  if target.isAbstract && target != .numeric then .error (e.typeError (.abstractTarget target))
  else if a.expr.cardinality.isEmptyOnly then
    if allowsEmpty then .ok (e.replacing empty) else .error (e.typeError .alwaysEmptyCast)
  else .ok (unary (.cast target allowsEmpty) ⟨a.role, a.expr.atomized⟩ i).refresh

/-- Typing of a path: an axis starts at nodes. -/
def typedPath (e start step : Expr) : Except Error Expr :=
  if step.stepAxis?.isSome && start.itemType.isAtomic && !start.cardinality.isEmptyOnly then
    .error (e.typeError .axisOnAtomics)
  else .ok e

/-- Typing of an expression whose operands are typed. -/
def typedHere (s : StaticContext) (e : Expr) : Except Error Expr :=
  match e with
  | leaf (.global name _) i =>
    match s.globalType? name with
    | some t => .ok (leaf (.global name (some t)) i).refresh
    | none => .error (e.typeError (.undeclaredVariable name))
  | binary (.arithmetic op _) a b i => typedArithmetic s op e a b i
  | binary (.compare op) a b i => typedComparison op e a b i
  | variadic (.call function) args _ => typedCall function e args
  | unary (.check required) a _ => typedCheck required e a.expr
  | unary (.cast target allowsEmpty) a i => typedCast target allowsEmpty e a i
  | binary .path a b _ => typedPath e a.expr b.expr
  | _ => .ok e

/-- Typing of an expression whose operands are typed but whose properties are not up to date. -/
def settle (s : StaticContext) (e : Expr) : Except Error Expr :=
  (typedHere s e.refresh).map collapseEmpty

/-! ### Typing of whole expressions -/

end Expr

/-- An operator without operands, where variables in scope get their type. -/
def Leaf.typed (scope : Scope) : Leaf → Leaf
  | .variable b type => .variable b ((scope.type? b.id).or type)
  | op => op

/-- The scope of the second operand, given the first. -/
def Binary.scope (op : Binary) (first : Expr) (scope : Scope) : Scope :=
  match op with
  | .letIn b => (b.id, first.staticType) :: scope
  | .forIn b => (b.id, ⟨first.itemType, .exactlyOne⟩) :: scope
  | _ => scope

namespace Expr

mutual

/-- Typing of an expression whose free variables have the types of a scope. -/
def typedIn (s : StaticContext) (scope : Scope) : Expr → Except Error Expr
  | leaf op i => settle s (leaf (op.typed scope) i)
  | unary op a i => do
    let a' ← typedOperand s scope a
    settle s (unary op a' i)
  | binary op a b i => do
    let a' ← typedOperand s scope a
    let b' ← typedOperand s (op.scope a'.expr scope) b
    settle s (binary op a' b' i)
  | choice c y n i => do
    let c' ← typedOperand s scope c
    let y' ← typedOperand s scope y
    let n' ← typedOperand s scope n
    settle s (choice c' y' n' i)
  | variadic op args i => do
    let args' ← typedOperands s scope args
    settle s (variadic op args' i)

/-- Typing of an operand. -/
def typedOperand (s : StaticContext) (scope : Scope) : Operand → Except Error Operand
  | ⟨role, e⟩ => do
    let e' ← typedIn s scope e
    return ⟨role, e'⟩

/-- Typing of the operands of a list, in order. -/
def typedOperands (s : StaticContext) (scope : Scope) : List Operand → Except Error (List Operand)
  | [] => .ok []
  | a :: rest => do
    let a' ← typedOperand s scope a
    let rest' ← typedOperands s scope rest
    return a' :: rest'

end

/-- Typing of an expression. -/
def typed (s : StaticContext) (e : Expr) : Except Error Expr := e.typedIn s []

end Expr

end TreeQuery
