/-
Which items a pattern matches.

Predicates are expressions, so a match may fail with an error and may give warnings.
-/
import TreeQuery.Expr.Evaluate
import TreeQuery.Pattern.Basic

namespace TreeQuery.Pattern

mutual

/-- Whether an item matches.  A predicate is evaluated with the item alone in the focus. -/
def accepts (d : Dispatcher) (c : Context) : Pattern → Item → Eval Bool
  | anyItem, _ => pure true
  | node test, a => pure (a.node?.any (test.accepts c.forest))
  | underParent step parent, a =>
    match a with
    | .atomic _ => pure false
    | .node n =>
      if step.accepts c.forest n then
        match c.forest.parent? n with
        | some p => accepts d c parent (.node p)
        | none => pure false
      else pure false
  | predicate base condition, a => do
    if ← accepts d c base a then (condition.behaviour d).holdsAt (c.withFocus a 1 (some 1)) 1
    else return false
  | union branches, a => acceptsAny d c branches a
  | atomic type, a => pure (a.atomic?.any (·.type.isSubtypeOf type))

/-- Whether an item matches one of several patterns, which are tried in order. -/
def acceptsAny (d : Dispatcher) (c : Context) : List Pattern → Item → Eval Bool
  | [], _ => pure false
  | p :: rest, a => do
    if ← accepts d c p a then return true else acceptsAny d c rest a

end

end TreeQuery.Pattern
