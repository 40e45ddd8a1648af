/-
Binary interchange formats, exactly.

A bit pattern is taken apart into sign, mantissa and exponent (`BinaryFormat.decode`), and a
quotient of two natural numbers is rounded back into a bit pattern, to the nearest value with
ties to the even mantissa (`BinaryFormat.nearest`).  Everything the language needs beyond the
four basic operations of floating point is built from these two: whole parts, remainders,
and the conversions between single precision, double precision and integers.

Design notes: all arithmetic here is on `Nat` and `Int`, so every conversion has a meaning
that can be computed with in proofs.  A finite value `± m * 2 ^ q` keeps its sign apart from
its mantissa, because the sign of a zero is visible in the text of a value.
-/
namespace TreeQuery

/-- A binary interchange format, given by the widths of its fraction and exponent fields. -/
structure BinaryFormat where
  fractionBits : Nat
  exponentBits : Nat

namespace BinaryFormat

/-- Double precision: 52 fraction bits and 11 exponent bits. -/
def double : BinaryFormat := ⟨52, 11⟩

/-- Single precision: 23 fraction bits and 8 exponent bits. -/
def single : BinaryFormat := ⟨23, 8⟩

/-- The exponent of the last mantissa bit of the smallest values. -/
def lowest (f : BinaryFormat) : Int :=
  2 - (Nat.pow 2 (f.exponentBits - 1) : Nat) - (f.fractionBits : Int)

/-- The exponent field of infinities and of values that are not numbers. -/
def special (f : BinaryFormat) : Nat :=
  Nat.pow 2 f.exponentBits - 1

end BinaryFormat

/-- A floating-point value taken apart: a finite one is `± mantissa * 2 ^ exponent`. -/
inductive Unpacked where
  | notANumber
  | infinite (negative : Bool)
  | finite (negative : Bool) (mantissa : Nat) (exponent : Int)
  deriving DecidableEq, Repr

namespace BinaryFormat

/-- Reads the three fields of a bit pattern. -/
def decode (f : BinaryFormat) (bits : Nat) : Unpacked :=
  let fraction := bits % Nat.pow 2 f.fractionBits
  let field := bits / Nat.pow 2 f.fractionBits % Nat.pow 2 f.exponentBits
  let negative := bits / Nat.pow 2 (f.fractionBits + f.exponentBits) % 2 == 1
  if field = f.special then
    if fraction = 0 then .infinite negative else .notANumber
  else if field = 0 then .finite negative fraction f.lowest
  else .finite negative (fraction + Nat.pow 2 f.fractionBits) (f.lowest + (field - 1 : Nat))

/-- The quotient rounded to the nearest natural number, a half to the even neighbour. -/
def roundHalfEven (num den : Nat) : Nat :=
  let whole := num / den
  let twice := 2 * (num % den)
  if twice < den then whole
  else if den < twice then whole + 1
  else whole + whole % 2

/-- The quotient `num / den` as a fraction of natural numbers after division by `2 ^ q`. -/
def scaleDown (num den : Nat) (q : Int) : Nat × Nat :=
  if 0 ≤ q then (num, den * Nat.pow 2 q.toNat) else (num * Nat.pow 2 (-q).toNat, den)

/-- The largest `e` with `2 ^ e ≤ num / den`, for a positive quotient. -/
def binaryLog (num den : Nat) : Int :=
  let guess : Int := num.log2 - den.log2
  let (n, d) := scaleDown num den guess
  if d ≤ n then guess else guess - 1

/-- The bit pattern, without sign, of the value nearest to `num / den`.  With `q` the exponent
of the last kept bit, the pattern is `(q - lowest) * 2 ^ fractionBits` plus the rounded
mantissa: a mantissa that rounds up to the next power of two carries into the exponent field
by itself, and so does a step from the subnormal values to the normal ones. -/
def nearestMagnitude (f : BinaryFormat) (num den : Nat) : Nat :=
  if num = 0 then 0
  else
    let q := max (binaryLog num den - f.fractionBits) f.lowest
    let (n, d) := scaleDown num den q
    let bits := (q - f.lowest).toNat * Nat.pow 2 f.fractionBits + roundHalfEven n d
    min bits (f.special * Nat.pow 2 f.fractionBits)

/-- The bit pattern of the value nearest to `± num / den`. -/
def nearest (f : BinaryFormat) (negative : Bool) (num den : Nat) : Nat :=
  (if negative then Nat.pow 2 (f.fractionBits + f.exponentBits) else 0) + f.nearestMagnitude num den

/-- The bit pattern of a value taken apart, rounded if the format cannot hold it. -/
def encode (f : BinaryFormat) : Unpacked → Nat
  | .notANumber => f.special * Nat.pow 2 f.fractionBits + Nat.pow 2 (f.fractionBits - 1)
  | .infinite negative =>
    (if negative then Nat.pow 2 (f.fractionBits + f.exponentBits) else 0)
      + f.special * Nat.pow 2 f.fractionBits
  | .finite negative m q =>
    if 0 ≤ q then f.nearest negative (m * Nat.pow 2 q.toNat) 1
    else f.nearest negative m (Nat.pow 2 (-q).toNat)

end BinaryFormat

namespace Unpacked

/-- Takes a double apart. -/
def ofDouble (x : Float) : Unpacked := BinaryFormat.double.decode x.toBits.toNat

/-- Takes a single apart. -/
def ofSingle (x : Float32) : Unpacked := BinaryFormat.single.decode x.toBits.toNat

/-- The nearest double. -/
def toDouble (b : Unpacked) : Float := Float.ofBits (UInt64.ofNat (BinaryFormat.double.encode b))

/-- The nearest single. -/
def toSingle (b : Unpacked) : Float32 :=
  Float32.ofBits (UInt32.ofNat (BinaryFormat.single.encode b))

/-- An integer as a binary value; it is never a negative zero. -/
def ofInt (n : Int) : Unpacked := .finite (n < 0) n.natAbs 0

/-- The magnitude of `m * 2 ^ q` without its fraction. -/
def wholeMagnitude (m : Nat) (q : Int) : Nat :=
  if 0 ≤ q then m * Nat.pow 2 q.toNat else m / Nat.pow 2 (-q).toNat

/-- The value without its fraction, as an integer; `none` unless it is finite. -/
def truncate? : Unpacked → Option Int
  | .finite true m q => some (-(wholeMagnitude m q : Int))
  | .finite false m q => some (wholeMagnitude m q)
  | _ => none

/-- Whether the value is finite and has no fraction. -/
def isWhole : Unpacked → Bool
  | .finite _ m q => 0 ≤ q || m % Nat.pow 2 (-q).toNat == 0
  | _ => false

/-- The largest whole value that is not above; a zero and anything not finite stay as they are. -/
def floor : Unpacked → Unpacked
  | .finite negative m q =>
    let whole := wholeMagnitude m q
    if negative && !(isWhole (.finite negative m q)) then .finite negative (whole + 1) 0
    else .finite negative whole 0
  | b => b

/-- The remainder of a division whose quotient is cut off at the point.  It has the sign of
the dividend and is exact: with both mantissas at the smaller exponent it is the remainder of
two natural numbers. -/
def remainder : Unpacked → Unpacked → Unpacked
  | .finite negative m q, .finite _ m' q' =>
    if m' = 0 then .notANumber
    else
      let low := min q q'
      let a := m * Nat.pow 2 (q - low).toNat
      let b := m' * Nat.pow 2 (q' - low).toNat
      .finite negative (a % b) low
  | .finite negative m q, .infinite _ => .finite negative m q
  | _, _ => .notANumber

end Unpacked

/-- An integer as the nearest double. -/
def doubleOfInt (n : Int) : Float := (Unpacked.ofInt n).toDouble

/-- A single as the double of the same value. -/
def doubleOfSingle (x : Float32) : Float := (Unpacked.ofSingle x).toDouble

/-- A double as the nearest single. -/
def singleOfDouble (x : Float) : Float32 := (Unpacked.ofDouble x).toSingle

/-- The double that stands for no number. -/
def notANumber : Float := Unpacked.toDouble .notANumber

/-- An infinite double of the given sign. -/
def infinity (negative : Bool) : Float := Unpacked.toDouble (.infinite negative)

/-- Whether a double is an infinity of the given sign. -/
def isInfinity (negative : Bool) (x : Float) : Bool :=
  Unpacked.ofDouble x == .infinite negative

end TreeQuery
