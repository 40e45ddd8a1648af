/-
Copies of expressions.

A copy has variables of its own: a variable declared inside the copied expression gets a new
binding, and a reference to one declared outside is directed to the binding that the caller has put
into the `Rebinding`.  A reference that finds neither is an error.
-/
import TreeQuery.Expr.Basic

namespace TreeQuery

/-- Which binding a copy uses in place of a given one, the latest entry first, and the
allocator for new ones. -/
structure Rebinding where
  entries : List (Nat × Binding)
  allocator : Allocator

namespace Rebinding

/-- No entries. -/
def initial (a : Allocator) : Rebinding := ⟨[], a⟩

/-- Directs references from one binding to another. -/
def bind (m : Rebinding) (old replacement : Binding) : Rebinding :=
  { m with entries := (old.id, replacement) :: m.entries }

/-- The binding used in place of a given one. -/
def find? (m : Rebinding) (old : Binding) : Option Binding :=
  (m.entries.find? (·.1 == old.id)).map (·.2)

end Rebinding

/-- A step of copying: what has been entered stays entered, even when the step fails. -/
abbrev Copying := ExceptT Error (StateM Rebinding)

namespace Copying

/-- A new binding for a variable declared inside the copied expression. -/
def declare (old : Binding) : Copying Binding := do
  let m ← get
  let (b, a) := m.allocator.declare old.name
  set ({ m with allocator := a }.bind old b)
  return b

end Copying

namespace Expr

mutual

/-- The copy of an expression.  The value of a variable is copied before the variable is declared
anew, because it lies outside its scope. -/
def copy : Expr → Copying Expr
  | leaf (.variable b t) i => do
    match (← get).find? b with
    | some b' => return leaf (.variable b' t) i
    | none => throw ((Error.of (.noRebinding b.name b.id)).located i.location)
  | leaf op i => return leaf op i
  | unary op a i => return unary op (← copyOperand a) i
  | binary (.letIn b) v body i => do
    let v' ← copyOperand v
    let b' ← Copying.declare b
    return binary (.letIn b') v' (← copyOperand body) i
  | binary (.forIn b) v body i => do
    let v' ← copyOperand v
    let b' ← Copying.declare b
    return binary (.forIn b') v' (← copyOperand body) i
  | binary op a b i => do
    let a' ← copyOperand a
    return binary op a' (← copyOperand b) i
  | choice c y n i => do
    let c' ← copyOperand c
    let y' ← copyOperand y
    return choice c' y' (← copyOperand n) i
  | variadic op args i => return variadic op (← copyArguments args) i

/-- The copy of an operand. -/
def copyOperand : Operand → Copying Operand
  | ⟨r, e⟩ => return ⟨r, ← copy e⟩

/-- The copies of the operands of a list. -/
def copyArguments : List Operand → Copying (List Operand)
  | [] => return []
  | a :: rest => do
    let a' ← copyOperand a
    return a' :: (← copyArguments rest)

end

end Expr

end TreeQuery
