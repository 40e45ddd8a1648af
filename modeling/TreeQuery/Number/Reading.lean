/-
Reading numbers from text.

The lexical forms are those of the atomic types: an optional sign and digits for an integer;
with at most one point for a decimal; and with an optional exponent, or one of the names `INF`,
`+INF`, `-INF` and `NaN`, for the floating-point types.  A decimal literal is read exactly, as a
whole number and a power of ten, and then rounded once to the nearest double.

Design notes: all readers work on lists of characters already freed of blanks.  Digits are ASCII
digits only.  The floating-point readers let through what is made of the right characters and leave
the rest to the reader of the standard library, which knows more forms than the atomic types have.
-/
import TreeQuery.Number.Shortest

namespace TreeQuery

/-- Whether a character is one of the ten ASCII digits. -/
def isDigit (c : Char) : Bool := '0' ≤ c && c ≤ '9'

/-- The number a list of digits stands for; no digits stand for zero. -/
def digitsValue (cs : List Char) : Nat :=
  cs.foldl (fun n c => 10 * n + (c.toNat - '0'.toNat)) 0

/-- Splits off an optional sign; the flag tells whether it was a minus. -/
def splitSign : List Char → Bool × List Char
  | '+' :: cs => (false, cs)
  | '-' :: cs => (true, cs)
  | cs => (false, cs)

/-- A decimal literal: `± coefficient * 10 ^ exponent`. -/
structure DecimalLiteral where
  negative : Bool
  coefficient : Nat
  exponent : Int
  deriving DecidableEq, Repr

namespace DecimalLiteral

/-- The nearest double.  A magnitude that is certainly beyond every finite double, or certainly
below half of the smallest one, is decided by the count of digits, so that no huge power of ten
is ever formed. -/
def toDouble (l : DecimalLiteral) : Float :=
  let magnitude : Int := decimalLength l.coefficient + l.exponent
  let bits :=
    if l.coefficient = 0 || magnitude < -400 then BinaryFormat.double.nearest l.negative 0 1
    else if 400 < magnitude then BinaryFormat.double.encode (.infinite l.negative)
    else
      let (num, den) := scaleDecimal l.coefficient 1 l.exponent
      BinaryFormat.double.nearest l.negative num den
  Float.ofBits (UInt64.ofNat bits)

end DecimalLiteral

/-- An optional exponent part, which has to be all that is left. -/
def readExponent? : List Char → Option Int
  | [] => some 0
  | c :: cs =>
    if c = 'e' ∨ c = 'E' then
      let (negative, digits) := splitSign cs
      if digits.isEmpty || !digits.all isDigit then none
      else
        let n : Int := digitsValue digits
        some (if negative then -n else n)
    else none

/-- A decimal literal with an optional exponent: a sign, digits with at most one point among them
or at their ends, at least one digit. -/
def readScientific? (cs : List Char) : Option DecimalLiteral := do
  let (negative, body) := splitSign cs
  let whole := body.takeWhile isDigit
  let (fraction, rest) :=
    match body.dropWhile isDigit with
    | '.' :: tail => (tail.takeWhile isDigit, tail.dropWhile isDigit)
    | other => ([], other)
  if whole.isEmpty && fraction.isEmpty then none
  else
    let exponent ← readExponent? rest
    some ⟨negative, digitsValue (whole ++ fraction), exponent - fraction.length⟩

/-- Reads a number as the standard library does, which knows `inf`, `infinity` and `nan` in small
and capital letters. -/
def readStandard? (cs : List Char) : Option Float :=
  let (negative, body) := splitSign cs
  let name := body.map Char.toLower
  if name = "inf".toList || name = "infinity".toList then some (infinity negative)
  else if name = "nan".toList then some notANumber
  else (readScientific? cs).map DecimalLiteral.toDouble

/-- Whether a character may stand in a floating-point number that is not a name. -/
def isNumeral (c : Char) : Bool :=
  isDigit c || c == '.' || c == 'e' || c == 'E' || c == '+' || c == '-'

/-- The lexical form of the floating-point types, without blanks around it: one of the names, or
numerals, among them a digit, that the standard library reads. -/
def readFloating? (cs : List Char) : Option Float :=
  if cs = "INF".toList || cs = "+INF".toList then some (infinity false)
  else if cs = "-INF".toList then some (infinity true)
  else if cs = "NaN".toList then some notANumber
  else if !cs.isEmpty && cs.any isDigit && cs.all isNumeral then readStandard? cs
  else none

/-- The lexical form of a decimal: after a sign only digits, among them at most one point. -/
def readDecimal? (cs : List Char) : Option Float :=
  let (_, body) := splitSign cs
  if body.any isDigit && body.all (fun c => isDigit c || c == '.') && body.count '.' ≤ 1 then
    readStandard? cs
  else none

/-- The lexical form of an integer, of any size. -/
def readInteger? (cs : List Char) : Option Int :=
  let (negative, digits) := splitSign cs
  if digits.isEmpty || !digits.all isDigit then none
  else
    let n : Int := digitsValue digits
    some (if negative then -n else n)

end TreeQuery
