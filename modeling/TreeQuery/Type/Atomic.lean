/-
The built-in atomic types.

They form a tree with `anyAtomic` at its root; `lineage` lists a type and its ancestors up to the
root, and subtyping and the nearest common supertype are read off it.
-/
import TreeQuery.Name

namespace TreeQuery

/-- A built-in atomic type.  `anyAtomic` and `numeric` have no values of their own. -/
inductive AtomicType where
  | anyAtomic
  | untypedAtomic
  | string
  | anyURI
  | boolean
  | numeric
  | decimal
  | integer
  | float
  | double
  deriving DecidableEq, Repr

namespace AtomicType

/-- All types, in the order in which they are listed. -/
def all : List AtomicType :=
  [anyAtomic, untypedAtomic, string, anyURI, boolean, numeric, decimal, integer, float, double]

/-- The local part of a type's name. -/
def label : AtomicType → String
  | anyAtomic => "anyAtomicType"
  | untypedAtomic => "untypedAtomic"
  | string => "string"
  | anyURI => "anyURI"
  | boolean => "boolean"
  | numeric => "numeric"
  | decimal => "decimal"
  | integer => "integer"
  | float => "float"
  | double => "double"

/-- The full name. -/
def name (t : AtomicType) : Name := Name.schema t.label

/-- The type with a given full name. -/
def ofName? (n : Name) : Option AtomicType := all.find? (·.name == n)

/-- A type, its parent, and so on up to the root. -/
def lineage : AtomicType → List AtomicType
  | anyAtomic => [anyAtomic]
  | integer => [integer, decimal, numeric, anyAtomic]
  | decimal => [decimal, numeric, anyAtomic]
  | float => [float, numeric, anyAtomic]
  | double => [double, numeric, anyAtomic]
  | t => [t, anyAtomic]

/-- The next type up, if there is one. -/
def parent? (t : AtomicType) : Option AtomicType := t.lineage[1]?

/-- The primitive type it belongs to: an integer is a decimal. -/
def primitive : AtomicType → AtomicType
  | integer => decimal
  | t => t

/-- Whether every value of the first type is one of the second. -/
def isSubtypeOf (a b : AtomicType) : Bool := a.lineage.contains b

/-- The nearest type above both. -/
def common (a b : AtomicType) : AtomicType :=
  (a.lineage.find? (b.isSubtypeOf ·)).getD anyAtomic

/-- Whether all values are numbers. -/
def isNumeric (t : AtomicType) : Bool := t.isSubtypeOf numeric

/-- Whether the type has no values of its own. -/
def isAbstract (t : AtomicType) : Bool := t == anyAtomic || t == numeric

/-- Whether values of the type may turn out to be untyped. -/
def mayBeUntyped (t : AtomicType) : Bool := t == anyAtomic || t == untypedAtomic

/-- Whether values of the type are certainly not numbers, not even after conversion of untyped
ones. -/
def isKnownNonNumeric (t : AtomicType) : Bool := !t.isNumeric && !t.mayBeUntyped

/-- The classes of values that can be compared with each other. -/
inductive ComparisonClass where
  | number
  | text
  | truth
  deriving DecidableEq, Repr

/-- The class of a type; `none` where untyped values may occur, since those adapt. -/
def comparisonClass? (t : AtomicType) : Option ComparisonClass :=
  if t.mayBeUntyped then none
  else if t.isNumeric then some .number
  else if t == string || t == anyURI then some .text
  else some .truth

/-- Whether values of the two types can ever be compared. -/
def comparable (a b : AtomicType) : Bool :=
  match a.comparisonClass?, b.comparisonClass? with
  | some x, some y => x == y
  | _, _ => true

theorem isSubtypeOf_refl (t : AtomicType) : t.isSubtypeOf t = true := by
  cases t <;> rfl

theorem isSubtypeOf_trans {a b c : AtomicType} (hab : a.isSubtypeOf b = true)
    (hbc : b.isSubtypeOf c = true) : a.isSubtypeOf c = true := by
  revert hab hbc
  cases a <;> cases b <;> cases c <;> decide

end AtomicType

end TreeQuery
