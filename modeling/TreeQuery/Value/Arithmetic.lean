/-
Arithmetic on values.

Both operands are promoted to the wider of their types and the operation is done there.  Integers
are exact or overflow; decimals and the floating-point types follow binary floating point, except
that a decimal never is divided by zero.  A calculator, chosen once the types of the operands are
known, fixes the type in advance.
-/
import TreeQuery.Value.Cast
import TreeQuery.Value.Comparison

namespace TreeQuery

/-- The operators of arithmetic. -/
inductive ArithmeticOp where
  | add
  | sub
  | mul
  | div
  | idiv
  | mod
  deriving DecidableEq, Repr

namespace ArithmeticOp

/-- All operators, in the order in which they are listed. -/
def all : List ArithmeticOp := [.add, .sub, .mul, .div, .idiv, .mod]

/-- The written form. -/
def label : ArithmeticOp → String
  | .add => "add"
  | .sub => "sub"
  | .mul => "mul"
  | .div => "div"
  | .idiv => "idiv"
  | .mod => "mod"

end ArithmeticOp

/-- The type in which an operation is done; the generic calculator looks at its operands. -/
inductive Calculator where
  | generic
  | integer
  | decimal
  | float
  | double
  deriving DecidableEq, Repr

namespace Calculator

/-- All calculators. -/
def all : List Calculator := [.generic, .integer, .decimal, .float, .double]

/-- The written form. -/
def label : Calculator → String
  | .generic => "generic"
  | .integer => "integer"
  | .decimal => "decimal"
  | .float => "float"
  | .double => "double"

/-- The width of a concrete numeric type. -/
def width? : AtomicType → Option Nat
  | .integer => some 0
  | .decimal => some 1
  | .float => some 2
  | .double => some 3
  | _ => none

/-- The calculator for two operand types: the wider of the two, a quotient of integers being a
decimal; generic unless both types are concrete numeric types. -/
def select (op : ArithmeticOp) (left right : AtomicType) : Calculator :=
  match width? left, width? right with
  | some a, some b =>
    match max a b with
    | 0 => if op = .div then .decimal else .integer
    | 1 => .decimal
    | 2 => .float
    | _ => .double
  | _, _ => .generic

/-- The type of the results. -/
def resultType (op : ArithmeticOp) : Calculator → AtomicType
  | .generic => if op = .idiv then .integer else .numeric
  | .integer => .integer
  | .decimal => if op = .idiv then .integer else .decimal
  | .float => if op = .idiv then .integer else .float
  | .double => if op = .idiv then .integer else .double

/-- An operand in the type of the calculator. -/
def coerce : Calculator → Number → Number
  | .decimal, .int n => .dec (doubleOfInt n.toInt)
  | .float, n => .single (singleOfDouble n.toDouble)
  | .double, n => .double n.toDouble
  | _, n => n

end Calculator

namespace Number

/-- An exact integer result, which has to fit. -/
def exact (n : Int) : Except Error Number :=
  match int64? n with
  | some i => .ok (.int i)
  | none => .error (.of .integerOverflow)

/-- An operation on integers.  The quotient of the least integer by -1 does not fit; the remainder
of that division is refused with it. -/
def computeInts (op : ArithmeticOp) (x y : Int64) : Except Error Number :=
  match op with
  | .add => exact (x.toInt + y.toInt)
  | .sub => exact (x.toInt - y.toInt)
  | .mul => exact (x.toInt * y.toInt)
  | .div =>
    if y = 0 then .error (.of .divisionByZero)
    else .ok (.dec (doubleOfInt x.toInt / doubleOfInt y.toInt))
  | .idiv =>
    if y = 0 then .error (.of .divisionByZero) else exact (x.toInt.tdiv y.toInt)
  | .mod =>
    if y = 0 then .error (.of .divisionByZero)
    else
      match int64? (x.toInt.tdiv y.toInt) with
      | some _ => exact (x.toInt.tmod y.toInt)
      | none => .error (.of .integerOverflow)

/-- The whole part of a quotient of doubles. -/
def quotient (x y : Float) : Except Error Number :=
  if y == doubleOfInt 0 then .error (.of .divisionByZero)
  else if x.isNaN || y.isNaN || x.isInf then .error (.of .quotientUndefined)
  else
    match (Unpacked.ofDouble (x / y)).truncate? with
    | some n => exact n
    | none => .error (.of .integerOverflow)

/-- The remainder of a division of doubles, with the sign of the dividend. -/
def remainder (x y : Float) : Float :=
  ((Unpacked.ofDouble x).remainder (Unpacked.ofDouble y)).toDouble

/-- The remainder of a division of singles. -/
def remainderSingle (x y : Float32) : Float32 :=
  ((Unpacked.ofSingle x).remainder (Unpacked.ofSingle y)).toSingle

/-- An operation on decimals. -/
def computeDecimals (op : ArithmeticOp) (x y : Float) : Except Error Number :=
  match op with
  | .add => .ok (.dec (x + y))
  | .sub => .ok (.dec (x - y))
  | .mul => .ok (.dec (x * y))
  | .div => if y == doubleOfInt 0 then .error (.of .divisionByZero) else .ok (.dec (x / y))
  | .mod =>
    if y == doubleOfInt 0 then .error (.of .divisionByZero) else .ok (.dec (remainder x y))
  | .idiv => quotient x y

/-- An operation on singles. -/
def computeSingles (op : ArithmeticOp) (x y : Float32) : Except Error Number :=
  match op with
  | .add => .ok (.single (x + y))
  | .sub => .ok (.single (x - y))
  | .mul => .ok (.single (x * y))
  | .div => .ok (.single (x / y))
  | .mod => .ok (.single (remainderSingle x y))
  | .idiv => quotient (doubleOfSingle x) (doubleOfSingle y)

/-- An operation on doubles. -/
def computeDoubles (op : ArithmeticOp) (x y : Float) : Except Error Number :=
  match op with
  | .add => .ok (.double (x + y))
  | .sub => .ok (.double (x - y))
  | .mul => .ok (.double (x * y))
  | .div => .ok (.double (x / y))
  | .mod => .ok (.double (remainder x y))
  | .idiv => quotient x y

/-- An operation on two numbers of the same type. -/
def computePair (op : ArithmeticOp) : Pair → Except Error Number
  | .ints x y => computeInts op x y
  | .decs x y => computeDecimals op x y
  | .singles x y => computeSingles op x y
  | .doubles x y => computeDoubles op x y

/-- The number that an operand stands for; an untyped value is read as a double. -/
def ofOperand (v : Value) : Except Error Number :=
  match v with
  | .untyped _ => (v.toDouble .double).map .double
  | _ =>
    match ofValue? v with
    | some n => .ok n
    | none => .error (.of (.operandNotNumeric v.type))

end Number

/-- An arithmetic operation on two values. -/
def Value.compute (op : ArithmeticOp) (a b : Value) (calculator : Calculator) :
    Except Error Value := do
  let x ← Number.ofOperand a
  let y ← Number.ofOperand b
  let n ← Number.computePair op (Number.promote (calculator.coerce x) (calculator.coerce y))
  return n.toValue

end TreeQuery
