/-
Construction of expressions.

Every operator has its own way of evaluating its operands, and `Unary.on`, `Binary.on`,
`Expr.choose`, `Expr.block` and `Expr.call` give the operands their roles accordingly.
-/
import TreeQuery.Expr.Basic

namespace TreeQuery

/-- The role of the operand. -/
def Unary.role : Unary → Role
  | .cast _ _ => .atomic
  | _ => .navigate

/-- An operator with one operand. -/
def Unary.on (op : Unary) (a : Expr) (l : Location) : Expr := .ofUnary op ⟨op.role, a⟩ l

namespace Binary

/-- The roles of the operands. -/
def roles : Binary → Role × Role
  | forIn _ => (.navigate, .loopBody)
  | arithmetic _ _ => (.atomic, .atomic)
  | compare _ => (.atomic, .atomic)
  | range => (.atomic, .atomic)
  | path => (.navigate, .controlled)
  | filter => (.navigate, .controlled)
  | _ => (.navigate, .navigate)

/-- An operator with two operands. -/
def on (op : Binary) (a b : Expr) (l : Location) : Expr :=
  .ofBinary op ⟨op.roles.1, a⟩ ⟨op.roles.2, b⟩ l

end Binary

namespace Expr

/-- Operands that are evaluated once each, with the focus of their parent. -/
def navigated (es : List Expr) : List Operand := es.map fun e => ⟨.navigate, e⟩

/-- A choice. -/
def choose (condition yes no : Expr) (l : Location) : Expr :=
  ofChoice ⟨.navigate, condition⟩ ⟨.navigate, yes⟩ ⟨.navigate, no⟩ l

/-- A block. -/
def block (parts : List Expr) (l : Location) : Expr := ofVariadic .block (navigated parts) l

/-- A call that nobody has checked: with any number of arguments, all of them with the same role. -/
def uncheckedCall (function : BuiltIn) (args : List Expr) (l : Location) : Expr :=
  ofVariadic (.call function) (navigated args) l

end Expr

end TreeQuery
