/-
Numeric promotion and comparison of values.

Two numbers are compared in the wider of their types, where integers are narrower than decimals,
decimals than singles and singles than doubles.  Texts are compared by code points, whatever their
types; booleans with booleans.  Every other pair has no order, and asking for it is an error.
-/
import TreeQuery.Error
import TreeQuery.Value.Basic

namespace TreeQuery

/-- A number in one of the four numeric types. -/
inductive Number where
  | int (n : Int64)
  | dec (x : Float)
  | single (x : Float32)
  | double (x : Float)

namespace Number

/-- The number that a value is. -/
def ofValue? : Value → Option Number
  | .integer n => some (.int n)
  | .decimal x => some (.dec x)
  | .float x => some (.single x)
  | .double x => some (.double x)
  | _ => none

/-- The value that a number is. -/
def toValue : Number → Value
  | int n => .integer n
  | dec x => .decimal x
  | single x => .float x
  | double x => .double x

/-- The number as a double. -/
def toDouble : Number → Float
  | int n => doubleOfInt n.toInt
  | dec x => x
  | single x => doubleOfSingle x
  | double x => x

/-- Two numbers of the same type. -/
inductive Pair where
  | ints (x y : Int64)
  | decs (x y : Float)
  | singles (x y : Float32)
  | doubles (x y : Float)

/-- Both numbers in the wider of their types. -/
def promote : Number → Number → Pair
  | double x, b => .doubles x b.toDouble
  | a, double y => .doubles a.toDouble y
  | single x, b => .singles x (singleOfDouble b.toDouble)
  | a, single y => .singles (singleOfDouble a.toDouble) y
  | dec x, b => .decs x b.toDouble
  | a, dec y => .decs a.toDouble y
  | int x, int y => .ints x y

end Number

/-- The order of two doubles; a value that is not a number has none. -/
def compareDoubles (x y : Float) : Option Ordering :=
  if x < y then some .lt else if y < x then some .gt else if x == y then some .eq else none

/-- The order of two numbers of the same type. -/
def Number.Pair.compare : Number.Pair → Option Ordering
  | ints x y => some (Ord.compare x.toInt y.toInt)
  | decs x y => compareDoubles x y
  | singles x y => compareDoubles (doubleOfSingle x) (doubleOfSingle y)
  | doubles x y => compareDoubles x y

/-- The operators of value comparison. -/
inductive ComparisonOp where
  | eq
  | ne
  | lt
  | le
  | gt
  | ge
  deriving DecidableEq, Repr

namespace ComparisonOp

/-- All operators, in the order in which they are listed. -/
def all : List ComparisonOp := [.eq, .ne, .lt, .le, .gt, .ge]

/-- The written form. -/
def label : ComparisonOp → String
  | .eq => "eq"
  | .ne => "ne"
  | .lt => "lt"
  | .le => "le"
  | .gt => "gt"
  | .ge => "ge"

/-- Whether the operator holds of a pair with the given order. -/
def holds : ComparisonOp → Option Ordering → Bool
  | .ne, none => true
  | _, none => false
  | .eq, some o => o == .eq
  | .ne, some o => o != .eq
  | .lt, some o => o == .lt
  | .le, some o => o != .gt
  | .gt, some o => o == .gt
  | .ge, some o => o != .lt

end ComparisonOp

namespace Value

/-- The text of a value of a textual type. -/
def textual? : Value → Option String
  | string s => some s
  | untyped s => some s
  | uri s => some s
  | _ => none

/-- The order of two values: `none` if they are comparable but unordered. -/
def order (a b : Value) : Except Error (Option Ordering) :=
  match Number.ofValue? a, Number.ofValue? b with
  | some x, some y => .ok (Number.promote x y).compare
  | _, _ =>
    match a, b with
    | boolean x, boolean y => .ok (some (Ord.compare x y))
    | _, _ =>
      match a.textual?, b.textual? with
      | some x, some y => .ok (some (Ord.compare x y))
      | _, _ => .error (.of (.incomparable a.type b.type))

/-- A value comparison. -/
def compare (op : ComparisonOp) (a b : Value) : Except Error Bool :=
  (order a b).map op.holds

end Value

end TreeQuery
