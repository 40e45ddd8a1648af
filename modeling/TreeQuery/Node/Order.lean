/-
Document order.

Two nodes of one tree are compared by their ways from the root: an ancestor comes before its
descendants, and where the ways part the parent's list decides, in which attributes come before
children.  Nodes that have no ancestor in common have no order.
-/
import TreeQuery.Error
import TreeQuery.Node.Forest

namespace TreeQuery

namespace Forest

/-- The way from the root down to a node, both included. -/
def path (f : Forest) (n : Nat) : List Nat := (n :: f.ancestors n).reverse

/-- The order of two nodes in the list of their parent; equal if one is not there. -/
def siblingOrder (f : Forest) (parent x y : Nat) : Ordering :=
  match (f.listed parent).idxOf? x, (f.listed parent).idxOf? y with
  | some i, some j => compare i j
  | _, _ => .eq

/-- Follows two ways from the root as long as they agree; `above` is the last node that both
share. -/
def comparePaths (f : Forest) : Option Nat → List Nat → List Nat → Except Error Ordering
  | above, x :: xs, y :: ys =>
    if x = y then comparePaths f (some x) xs ys
    else
      match above with
      | some p => .ok (f.siblingOrder p x y)
      | none => .error (.of .unrelatedNodes)
  | _, xs, ys => .ok (compare xs.length ys.length)

/-- The document order of two nodes. -/
def order (f : Forest) (a b : Nat) : Except Error Ordering :=
  if a = b then .ok .eq else f.comparePaths none (f.path a) (f.path b)

end Forest

end TreeQuery
