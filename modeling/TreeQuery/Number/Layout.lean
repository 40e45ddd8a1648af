/-
The text of a number.

`positional` writes digits without an exponent, however long that gets; `scientific` writes
one digit before the point and the exponent after `E`.  A decimal value is always positional.
A floating-point value is positional from a millionth up to a million and scientific outside,
where its mantissa always has a point (`1.0E7`).
-/
import TreeQuery.Number.Shortest

namespace TreeQuery

namespace Digits

/-- Digits as text. -/
def text (digits : List Nat) : String :=
  String.ofList (digits.map Nat.digitChar)

/-- A run of zeros. -/
def zeros (n : Nat) : List Nat := List.replicate n 0

/-- Without an exponent: `0.00012`, `1.2`, `1200`. -/
def positional (d : Digits) : String :=
  if d.point ≤ 0 then "0." ++ text (zeros (-d.point).toNat ++ d.digits)
  else
    let whole := d.point.toNat
    if d.digits.length ≤ whole then text (d.digits ++ zeros (whole - d.digits.length))
    else text (d.digits.take whole) ++ "." ++ text (d.digits.drop whole)

/-- One digit, a point, at least one more digit, and the exponent: `1.0E7`, `1.5E-10`. -/
def scientific (d : Digits) : String :=
  let rest := if d.digits.tail.isEmpty then [0] else d.digits.tail
  text (d.digits.take 1) ++ "." ++ text rest ++ "E" ++ toString (d.point - 1)

end Digits

/-- A minus in front of a negative number's magnitude. -/
def withSign (negative : Bool) (magnitude : String) : String :=
  if negative then "-" ++ magnitude else magnitude

/-- The text of a decimal value: always positional, a negative zero shows its sign, and a value
that has overflowed is spelled `inf`, `-inf` or `NaN`. -/
def decimalText (x : Float) : String :=
  match Unpacked.ofDouble x with
  | .notANumber => "NaN"
  | .infinite negative => withSign negative "inf"
  | .finite negative m q =>
    withSign negative (if m = 0 then "0" else (shortestDigits m q).positional)

/-- Whether a magnitude is written without an exponent: from 10⁻⁶ up to, not including, 10⁶.  The
place of the point in the shortest digits tells. -/
def Digits.isMiddling (d : Digits) : Bool := -5 ≤ d.point && d.point ≤ 6

/-- The text of a floating-point value. -/
def floatingText (x : Float) : String :=
  match Unpacked.ofDouble x with
  | .notANumber => "NaN"
  | .infinite negative => withSign negative "INF"
  | .finite negative m q =>
    withSign negative <|
      if m = 0 then "0"
      else
        let d := shortestDigits m q
        if d.isMiddling then d.positional else d.scientific

end TreeQuery
