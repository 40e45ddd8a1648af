/-
Optimization: simplifications that use the properties of expressions.

* A test whether a union is empty is split into tests of its operands.
* A filter by a constant position selects a subsequence; a filter by a constant truth is no filter.
* A filter by a condition that does not depend on the item is a choice (at the level `full` only).
* A variable that is not referred to is not computed.

Design notes: the tests that a split makes are optimized again, with operands that are optimized
already.  Each of them has fewer unions in it than the test that was split, so the number of unions
of the whole expression bounds how often that happens (`Expr.optimizeWithin`).
-/
import TreeQuery.Expr.Constant
import TreeQuery.StaticContext

namespace TreeQuery

/-- The position that a number selects: `none` for a value that is no number, and `some none` for a
number that is the position of nothing. -/
def Value.position? : Value → Option (Option Int64)
  | integer n => some (some n)
  | decimal x => some (whole x)
  | double x => some (whole x)
  | float x => some (whole (doubleOfSingle x))
  | _ => none
where
  /-- A number without a fraction, as an integer. -/
  whole (x : Float) : Option Int64 :=
    if (Unpacked.ofDouble x).isWhole then (Unpacked.ofDouble x).truncate?.bind int64? else none

namespace Expr

/-- A test of one operand of a union, which `again` optimizes. -/
def testOf (again : Expr → Expr) (function : BuiltIn) (operand : Operand) : Operand :=
  ⟨.atomic, again <|
    ofVariadic (.call function) [⟨.navigate, operand.expr⟩] operand.expr.location⟩

/-- Splits a test whether a union is empty. -/
def splitTest (again : Expr → Expr) (op : LogicalOp) (function : BuiltIn) (e : Expr) :
    List Operand → Expr
  | [⟨_, binary .union a b _⟩] =>
    ofBinary (.logical op) (testOf again function a) (testOf again function b) e.location
  | _ => e

/-- The subsequence of one item at a position. -/
def itemAt (base : Expr) (position : Int64) (l : Location) : Expr :=
  let number n : Operand := ⟨.atomic, literal [.integer n] l⟩
  ofVariadic (.call .subsequence) [⟨.navigate, base⟩, number position, number 1] l

/-- Whether a predicate is one truth value that does not depend on the item. -/
def isUniform (predicate : Expr) : Bool :=
  !predicate.dependencies.onFocus && predicate.itemType == .atomic .boolean
    && predicate.cardinality == .exactlyOne

/-- Simplifies a filter by a single literal value. -/
def optimizeLiteralFilter (e base : Expr) (value : Value) : Expr :=
  match value.position? with
  | some (some n) => base.itemAt n e.location
  | some none => e.replacing empty
  | none =>
    match value with
    | .boolean true => e.replacing base
    | .boolean false => e.replacing empty
    | _ => e

/-- Simplifies a filter. -/
def optimizeFilter (level : Optimization) (e base predicate : Expr) : Expr :=
  match predicate.literal? with
  | some [value] => optimizeLiteralFilter e base value
  | _ =>
    if level = .full ∧ predicate.isUniform then
      ofChoice ⟨.atomic, predicate⟩ ⟨.navigate, base⟩ ⟨.navigate, empty⟩ e.location
    else e

/-- Simplifies an expression whose operands are optimized. -/
def optimizeHere (level : Optimization) (again : Expr → Expr) (e : Expr) : Expr :=
  fold <|
    match e with
    | variadic (.call .existence) args _ => splitTest again .or .existence e args
    | variadic (.call .emptiness) args _ => splitTest again .and .emptiness e args
    | binary .filter ⟨_, base⟩ ⟨_, predicate⟩ _ => optimizeFilter level e base predicate
    | binary (.letIn b) _ ⟨_, body⟩ _ => if body.refersTo b.id then e else e.replacing body
    | _ => e

mutual

/-- Optimizes an expression, where `again` optimizes the tests that splits make. -/
def optimizeWith (level : Optimization) (again : Expr → Expr) : Expr → Expr
  | leaf op i => optimizeHere level again (leaf op i).refresh
  | unary op a i => optimizeHere level again (unary op (optimizeOperand level again a) i).refresh
  | binary op a b i =>
    optimizeHere level again
      (binary op (optimizeOperand level again a) (optimizeOperand level again b) i).refresh
  | choice c y n i =>
    optimizeHere level again
      (choice (optimizeOperand level again c) (optimizeOperand level again y)
        (optimizeOperand level again n) i).refresh
  | variadic op args i =>
    optimizeHere level again (variadic op (optimizeOperands level again args) i).refresh

/-- Optimizes an operand. -/
def optimizeOperand (level : Optimization) (again : Expr → Expr) : Operand → Operand
  | ⟨role, e⟩ => ⟨role, optimizeWith level again e⟩

/-- Optimizes the operands of a list. -/
def optimizeOperands (level : Optimization) (again : Expr → Expr) : List Operand → List Operand
  | [] => []
  | a :: rest => optimizeOperand level again a :: optimizeOperands level again rest

end

/-- Optimizes an expression, splitting tests of unions nested at most so deep. -/
def optimizeWithin (level : Optimization) : Nat → Expr → Expr
  | 0 => optimizeWith level id
  | depth + 1 => optimizeWith level (optimizeWithin level depth)

mutual

/-- The number of unions in an expression. -/
def unions : Expr → Nat
  | leaf _ _ => 0
  | unary _ a _ => operandUnions a
  | binary op a b _ => (if op = .union then 1 else 0) + operandUnions a + operandUnions b
  | choice c y n _ => operandUnions c + operandUnions y + operandUnions n
  | variadic _ args _ => argumentUnions args

/-- The number of unions in an operand. -/
def operandUnions : Operand → Nat
  | ⟨_, e⟩ => unions e

/-- The number of unions in the operands of a list. -/
def argumentUnions : List Operand → Nat
  | [] => 0
  | a :: rest => operandUnions a + argumentUnions rest

end

/-- Optimizes an expression. -/
def optimize (level : Optimization) (e : Expr) : Expr :=
  if level = .none then e else optimizeWithin level e.unions e

end Expr

end TreeQuery
