/-
Programs: expressions and rules that are ready to be evaluated.

`Expr.compile` brings an expression into normal form, gives it types, and optimizes it.  A `Program`
is a compiled expression with the number of slots that its variables take; rules go through the same
phases when they are added to a `RuleSet`.
-/
import TreeQuery.Expr.NormalForm
import TreeQuery.Expr.Optimization
import TreeQuery.Expr.Typing
import TreeQuery.Rule.Application

namespace TreeQuery

/-- The three phases, one after the other. -/
def Expr.compile (s : StaticContext) (e : Expr) : Except Error Expr := do
  let t ← e.simplify.typed s
  return t.optimize s.optimization

namespace Pattern

mutual

/-- The pattern with its predicates compiled. -/
def compile (s : StaticContext) : Pattern → Except Error Pattern
  | underParent step parent => do
    let parent' ← compile s parent
    return underParent step parent'
  | predicate base condition => do
    let base' ← compile s base
    let condition' ← condition.compile s
    return predicate base' condition'
  | union branches => do
    let branches' ← compileAll s branches
    return union branches'
  | anyItem => .ok anyItem
  | node test => .ok (node test)
  | atomic type => .ok (atomic type)

/-- The patterns of a list with their predicates compiled, in order. -/
def compileAll (s : StaticContext) : List Pattern → Except Error (List Pattern)
  | [] => .ok []
  | p :: rest => do
    let p' ← compile s p
    let rest' ← compileAll s rest
    return p' :: rest'

end

end Pattern

namespace RuleSet

/-- Adds a rule, compiled, and tells the numbers of the rules that were made of it. -/
def addRule (r : RuleSet) (s : StaticContext) (mode : ModeName) (p : Pattern) (action : Expr)
    (precedence : Int) (priority : Option Float) : Except Error (List Nat × RuleSet) := do
  let pattern ← p.compile s
  let compiled ← action.compile s
  let numbers := (((r.mode? mode).getD (.initial mode)).add pattern compiled precedence priority).1
  return (numbers, r.modify mode fun m => (m.add pattern compiled precedence priority).2)

/-- The rules ranked, with frames of the given size. -/
def build (r : RuleSet) (frameSize : Nat) : RuleSet :=
  { modes := r.modes.map Mode.rank, frameSize }

/-- Processes a sequence with the rules of a mode. -/
def process (r : RuleSet) (xs : Sequence) (mode : ModeName) (c : Context) : Push Unit :=
  dispatcher.apply xs mode .unknown ((c.ensureFrame r.frameSize).withRules r)

end RuleSet

/-- An expression that is ready to be evaluated. -/
structure Program where
  root : Expr
  frameSize : Nat

namespace Program

/-- What the program does, in a context with enough slots. -/
def behaviour (p : Program) : Behaviour :=
  let b := p.root.behaviour dispatcher
  { iterate := fun c => b.iterate (c.ensureFrame p.frameSize)
    item := fun c => b.item (c.ensureFrame p.frameSize)
    process := fun c => b.process (c.ensureFrame p.frameSize) }

/-- All items of the result. -/
def evaluate (p : Program) (c : Context) : Eval Sequence := p.behaviour.collect c

/-- The first item of the result. -/
def first? (p : Program) (c : Context) : Eval (Option Item) := do
  (← p.behaviour.iterate c).first?

/-- Puts the result into the output. -/
def process (p : Program) (c : Context) : Push Unit := p.behaviour.process c

end Program

end TreeQuery
