/-
The normal form of an expression: simplifications that need no types.

* Operators applied to literals are replaced by their values.
* A block has no blocks and no empty literals in it, and no two literals next to each other; a block
  of one part is that part.
* A choice does not depend on a literal.
* Not-not is the truth of the operand.
* A path does not start at the context item if its step can do so itself.
-/
import TreeQuery.Expr.Constant

namespace TreeQuery.Expr

/-- The parts that stand for a part of a block: those of a block inside it, and none for the empty
literal. -/
def spliced (part : Operand) : List Operand :=
  match part.expr with
  | variadic .block inner _ => inner
  | leaf (.literal []) _ => []
  | _ => [part]

/-- Puts literals next to each other into one, at the place of the first. -/
def mergeLiterals : List Operand → List Operand
  | [] => []
  | part :: rest =>
    match mergeLiterals rest with
    | [] => [part]
    | next :: rest' =>
      match part.expr.literal?, next.expr.literal? with
      | some vs, some ws => ⟨part.role, literal (vs ++ ws) part.expr.location⟩ :: rest'
      | _, _ => part :: next :: rest'

/-- The normal form of a block whose parts have it. -/
def simplifyBlock (parts : List Operand) (l : Location) : Expr :=
  match mergeLiterals (parts.flatMap spliced) with
  | [] => literal [] l
  | [part] => part.expr
  | flat => ofVariadic .block flat l

/-- The normal form of a choice whose parts have it. -/
def simplifyChoice (e condition yes no : Expr) : Expr :=
  match condition.literal? with
  | none => e.fold
  | some values =>
    match truthOfValues values with
    | .ok true => e.replacing yes
    | .ok false => e.replacing no
    | .error _ => e

/-- The normal form of a negation whose arguments have it. -/
def simplifyNegation (e : Expr) : List Operand → Expr
  | [⟨_, variadic (.call .negation) inner _⟩] => ofVariadic (.call .truth) inner e.location
  | _ => e.fold

/-- The normal form of a path whose parts have it. -/
def simplifyPath (e : Expr) : Expr → Expr → Expr
  | leaf .contextItem _, leaf (.step axis test) i => e.replacing (leaf (.step axis test) i)
  | _, _ => e

/-- The normal form of an expression whose operands have it. -/
def simplifyHere (e : Expr) : Expr :=
  match e with
  | variadic .block parts i => simplifyBlock parts i.location
  | choice ⟨_, c⟩ ⟨_, y⟩ ⟨_, n⟩ _ => simplifyChoice e c y n
  | variadic (.call .negation) args _ => simplifyNegation e args
  | binary .path ⟨_, start⟩ ⟨_, step⟩ _ => simplifyPath e start step
  | _ => e.fold

mutual

/-- The normal form of an expression. -/
def simplify : Expr → Expr
  | leaf op i => simplifyHere (leaf op i).refresh
  | unary op a i => simplifyHere (unary op (simplifyOperand a) i).refresh
  | binary op a b i => simplifyHere (binary op (simplifyOperand a) (simplifyOperand b) i).refresh
  | choice c y n i =>
    simplifyHere (choice (simplifyOperand c) (simplifyOperand y) (simplifyOperand n) i).refresh
  | variadic op args i => simplifyHere (variadic op (simplifyOperands args) i).refresh

/-- The normal form of an operand. -/
def simplifyOperand : Operand → Operand
  | ⟨role, e⟩ => ⟨role, simplify e⟩

/-- The normal forms of a list of operands. -/
def simplifyOperands : List Operand → List Operand
  | [] => []
  | a :: rest => simplifyOperand a :: simplifyOperands rest

end

end TreeQuery.Expr
