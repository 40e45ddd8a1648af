/-
Atomic values.

A value is a boolean, a text in one of three types, or a number in one of four.  Integers have
64 bits.  Two values are the same when they have the same type and the same content, where
floating-point content is compared as numbers: a value that is not a number differs from itself,
and the two zeros are the same.
-/
import TreeQuery.Number.Layout
import TreeQuery.Type.Atomic

namespace TreeQuery

/-- An atomic value. -/
inductive Value where
  | boolean (b : Bool)
  | string (s : String)
  | untyped (s : String)
  | uri (s : String)
  | integer (n : Int64)
  | decimal (x : Float)
  | float (x : Float32)
  | double (x : Float)

/-- The integer as 64 bits, if it fits. -/
def int64? (n : Int) : Option Int64 :=
  if Int64.minValue.toInt ≤ n ∧ n ≤ Int64.maxValue.toInt then some (Int64.ofInt n) else none

/-- The integer of 64 bits that is nearest to a number. -/
def nearestInt64 (n : Int) : Int64 :=
  Int64.ofInt (max Int64.minValue.toInt (min n Int64.maxValue.toInt))

theorem toInt_nearestInt64 (n : Int) :
    (nearestInt64 n).toInt = max (-9223372036854775808) (min n 9223372036854775807) := by
  have least : Int64.minValue.toInt = -9223372036854775808 := by decide
  have greatest : Int64.maxValue.toInt = 9223372036854775807 := by decide
  rw [nearestInt64, least, greatest, Int64.toInt_ofInt_of_le] <;> omega

/-- An integer that is not negative is the same without a sign. -/
theorem toNat_toUInt64 {n : Int64} (h : 0 ≤ n.toInt) : (n.toUInt64.toNat : Int) = n.toInt := by
  have unsigned := Int64.toNat_toUInt64_of_le (Int64.le_iff_toInt_le.mpr h)
  rw [unsigned]
  exact Int.toNat_of_nonneg h

/-- Below another integer of 64 bits there is a next one. -/
theorem toInt_add_one {n high : Int64} (h : n < high) : (n + 1).toInt = n.toInt + 1 := by
  rw [Int64.lt_iff_toInt_lt] at h
  have := n.le_toInt
  have := high.toInt_lt
  rw [Int64.toInt_add, show (1 : Int64).toInt = 1 from rfl]
  exact Int.bmod_eq_of_le (by omega) (by omega)

/-- The integer between two bounds that is nearest to a given one. -/
def clampInt64 (low high n : Int64) : Int64 :=
  if n < low then low else if high < n then high else n

theorem toInt_clampInt64 {low high : Int64} (h : low.toInt ≤ high.toInt) (n : Int64) :
    (clampInt64 low high n).toInt = max low.toInt (min n.toInt high.toInt) := by
  rw [clampInt64]
  split
  case isTrue below =>
    rw [Int64.lt_iff_toInt_lt] at below
    omega
  case isFalse notBelow =>
    rw [Int64.lt_iff_toInt_lt] at notBelow
    split
    case isTrue above =>
      rw [Int64.lt_iff_toInt_lt] at above
      omega
    case isFalse notAbove =>
      rw [Int64.lt_iff_toInt_lt] at notAbove
      omega

namespace Value

instance : Inhabited Value := ⟨.boolean false⟩

instance : BEq Value where
  beq
    | boolean a, boolean b => a == b
    | string a, string b => a == b
    | untyped a, untyped b => a == b
    | uri a, uri b => a == b
    | integer a, integer b => a == b
    | decimal a, decimal b => a == b
    | float a, float b => a == b
    | double a, double b => a == b
    | _, _ => false

/-- The type of a value. -/
def type : Value → AtomicType
  | boolean _ => .boolean
  | string _ => .string
  | untyped _ => .untypedAtomic
  | uri _ => .anyURI
  | integer _ => .integer
  | decimal _ => .decimal
  | float _ => .float
  | double _ => .double

/-- Whether a value is a number. -/
def isNumeric (v : Value) : Bool := v.type.isNumeric

/-- The text of a value. -/
def text : Value → String
  | boolean b => if b then "true" else "false"
  | string s => s
  | untyped s => s
  | uri s => s
  | integer n => toString n.toInt
  | decimal x => decimalText x
  | float x => floatingText (doubleOfSingle x)
  | double x => floatingText x

/-- A number as a double; `none` for every other value. -/
def number? : Value → Option Float
  | integer n => some (doubleOfInt n.toInt)
  | decimal x => some x
  | float x => some (doubleOfSingle x)
  | double x => some x
  | _ => none

/-- Whether a double counts as true. -/
def truthOfDouble (x : Float) : Bool := x != doubleOfInt 0 && !x.isNaN

/-- Whether a single value counts as true. -/
def truth : Value → Bool
  | boolean b => b
  | string s => !s.isEmpty
  | untyped s => !s.isEmpty
  | uri s => !s.isEmpty
  | integer n => n != 0
  | decimal x => truthOfDouble x
  | float x => truthOfDouble (doubleOfSingle x)
  | double x => truthOfDouble x

end Value

end TreeQuery
