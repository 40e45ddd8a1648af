/-
Expressions with other variables.

`Expr.rename` puts other variables into an expression and leaves everything else as it is.  This is what a
copy differs in, and the equations of `Expr.copy` are stated with it: they have one case for all operators
that declare a variable (`Expr.copy_declaring`) and one for all others with two operands
(`Expr.copy_plain`).
-/
import TreeQuery.Proofs.CopySteps
import TreeQuery.Proofs.Structure

namespace TreeQuery

/-- The same operator with another variable. -/
def Leaf.rename (f : Binding → Binding) : Leaf → Leaf
  | .variable b type => .variable (f b) type
  | op => op

namespace Binary

/-- The variable that an operator declares for its second operand. -/
def declared? : Binary → Option Binding
  | letIn b => some b
  | forIn b => some b
  | _ => none

/-- The same operator with another variable. -/
def rename (f : Binding → Binding) : Binary → Binary
  | letIn b => letIn (f b)
  | forIn b => forIn (f b)
  | op => op

@[simp] theorem declared?_rename (f : Binding → Binding) (op : Binary) :
    (op.rename f).declared? = op.declared?.map f := by
  cases op <;> rfl

@[simp] theorem rename_rename (f g : Binding → Binding) (op : Binary) :
    (op.rename g).rename f = op.rename fun b => f (g b) := by
  cases op <;> rfl

theorem rename_of_declared?_eq_none {op : Binary} (h : op.declared? = none) (f : Binding → Binding) :
    op.rename f = op := by
  cases op <;> first | rfl | simp [declared?] at h

theorem rename_of_declared?_eq_some {op : Binary} {v v' : Binding} {f : Binding → Binding}
    (h : op.declared? = some v) (hv : f v = v') : op.rename f = op.rename fun _ => v' := by
  cases op <;> simp_all [declared?, rename]

end Binary

namespace Expr

mutual

/-- The same expression with other variables. -/
def rename (f : Binding → Binding) : Expr → Expr
  | leaf op i => leaf (op.rename f) i
  | unary op a i => unary op (renameOperand f a) i
  | binary op a b i => binary (op.rename f) (renameOperand f a) (renameOperand f b) i
  | choice c y n i => choice (renameOperand f c) (renameOperand f y) (renameOperand f n) i
  | variadic op args i => variadic op (renameArguments f args) i

/-- The same operand with other variables. -/
def renameOperand (f : Binding → Binding) : Operand → Operand
  | ⟨r, e⟩ => ⟨r, rename f e⟩

/-- The same operands with other variables. -/
def renameArguments (f : Binding → Binding) : List Operand → List Operand
  | [] => []
  | a :: rest => renameOperand f a :: renameArguments f rest

end

@[simp] theorem expr_renameOperand (f : Binding → Binding) (a : Operand) :
    (renameOperand f a).expr = a.expr.rename f := by
  obtain ⟨r, e⟩ := a
  rfl

theorem renameArguments_eq_map (f : Binding → Binding) (args : List Operand) :
    renameArguments f args = args.map (renameOperand f) := by
  induction args with
  | nil => rfl
  | cons a rest ih => rw [renameArguments, ih, List.map_cons]

theorem dependencies_rename (f : Binding → Binding) (e : Expr) : (e.rename f).dependencies = e.dependencies := by
  cases e <;> rfl

variable {op : Binary} {a b : Operand} {i : Info}

/-- The variable of an operator is declared between its operands. -/
theorem copy_declaring {v : Binding} (h : op.declared? = some v) :
    copy (binary op a b i) = (do
      let a' ← copyOperand a
      let v' ← Copying.declare v
      return binary (op.rename fun _ => v') a' (← copyOperand b) i) := by
  cases op <;> simp only [Binary.declared?, reduceCtorEq, Option.some.injEq] at h
  all_goals
    subst h
    rfl

theorem copy_plain (h : op.declared? = none) :
    copy (binary op a b i) = (do
      let a' ← copyOperand a
      return binary op a' (← copyOperand b) i) := by
  cases op <;> first | rfl | simp [Binary.declared?] at h

end Expr

end TreeQuery
