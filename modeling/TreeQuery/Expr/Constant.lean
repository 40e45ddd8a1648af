/-
Constants: operators applied to literals only.

The value of such an expression does not depend on anything, so it can take the place of the
expression.  It is found by evaluating the expression, which is left as it is if that fails: the
error belongs to the time when the expression is evaluated, which may be never.
-/
import TreeQuery.Expr.Evaluate

namespace TreeQuery.Expr

/-- Whether the value of an expression follows from the values of its operands alone. -/
def isOperation : Expr → Bool
  | leaf _ _ => false
  | unary (.applyRules _) _ _ => false
  | unary _ _ _ => true
  | binary (.arithmetic _ _) _ _ _ => true
  | binary (.compare _) _ _ _ => true
  | binary (.logical _) _ _ _ => true
  | binary _ _ _ _ => false
  | choice _ _ _ _ => true
  | variadic .block _ _ => false
  | variadic (.call _) _ _ => true

/-- Whether an expression is an operator applied to literals only. -/
def isConstant (e : Expr) : Bool := e.isOperation && e.operands.all (·.expr.isLiteral)

/-- The values of an operator applied to literals only, unless its evaluation fails. -/
def constant? (e : Expr) : Option (List Value) :=
  if e.isConstant then
    match ((e.behaviour .none).collect (.initial .empty)).outcome with
    | .ok xs => some (xs.filterMap Item.atomic?)
    | .error _ => none
  else none

/-- Replaces an operator applied to literals by its value. -/
def fold (e : Expr) : Expr :=
  match e.constant? with
  | some values => e.replacing (literal values .unknown)
  | none => e

end TreeQuery.Expr
