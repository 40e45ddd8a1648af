/-
The built-in functions: their names and the numbers of arguments they take.
-/
namespace TreeQuery

/-- A built-in function. -/
inductive BuiltIn where
  | negation
  | existence
  | emptiness
  | truth
  | count
  | exactlyOne
  | zeroOrOne
  | data
  | subsequence
  deriving DecidableEq, Repr

namespace BuiltIn

/-- All functions. -/
def all : List BuiltIn :=
  [.negation, .existence, .emptiness, .truth, .count, .exactlyOne, .zeroOrOne, .data, .subsequence]

/-- The written form. -/
def label : BuiltIn → String
  | .negation => "not"
  | .existence => "exists"
  | .emptiness => "empty"
  | .truth => "boolean"
  | .count => "count"
  | .exactlyOne => "exactly-one"
  | .zeroOrOne => "zero-or-one"
  | .data => "data"
  | .subsequence => "subsequence"

/-- The least and the greatest number of arguments. -/
def arity : BuiltIn → Nat × Nat
  | .subsequence => (2, 3)
  | _ => (1, 1)

end BuiltIn

end TreeQuery
