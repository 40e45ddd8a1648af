/-
The shortest decimal digits that identify a double.

A positive double stands for an interval of reals: those that round to it.  `shortestDigits`
finds the decimal with the fewest digits in that interval and, among those, the one nearest
to the value (a tie goes up).  The digits carry no layout: `Number.Layout` places the point.

Design notes: on the grid of decimals with `n` digits only the two neighbours of the value
have to be looked at, because if the interval holds any point of the grid it holds one of
those two.  All comparisons are between natural numbers, after multiplying out.
-/
import TreeQuery.Number.Binary

namespace TreeQuery

/-- Decimal digits, most significant first, and the place of the point counted from their
left end: `⟨[1, 2], 3⟩` is 120 and `⟨[1, 2], 0⟩` is 0.12. -/
structure Digits where
  digits : List Nat
  point : Int
  deriving DecidableEq, Repr

namespace Digits

/-- The decimal digits of a natural number, most significant first; zero has none. -/
def ofNat (n : Nat) : List Nat :=
  go n n []
where
  /-- At most `fuel` digits are taken from `n`, in front of those already found. -/
  go : Nat → Nat → List Nat → List Nat
    | 0, _, acc => acc
    | fuel + 1, n, acc => if n = 0 then acc else go fuel (n / 10) (n % 10 :: acc)

end Digits

/-- How many decimal digits a natural number has; zero has none. -/
def decimalLength (n : Nat) : Nat :=
  go (n.log2 + 1) n 0
where
  /-- Counts divisions by ten until nothing is left. -/
  go : Nat → Nat → Nat → Nat
    | 0, _, acc => acc
    | fuel + 1, n, acc => if n = 0 then acc else go fuel (n / 10) (acc + 1)

/-- A quotient multiplied by a power of ten, as a fraction of natural numbers. -/
def scaleDecimal (num den : Nat) (k : Int) : Nat × Nat :=
  if 0 ≤ k then (num * Nat.pow 10 k.toNat, den) else (num, den * Nat.pow 10 (-k).toNat)

/-- The `k` with `10 ^ (k - 1) ≤ num / den < 10 ^ k`, for a positive quotient. -/
def decimalPoint (num den : Nat) : Int :=
  let guess : Int := (decimalLength num : Int) - decimalLength den
  let (n, d) := scaleDecimal num den (-guess)
  if n < d then guess else guess + 1

/-- The reals that round to `mantissa * 2 ^ exponent`, in quarters of its last bit: from
`4 * mantissa - below` to `4 * mantissa + 2`, the ends belonging to it when `closed`. -/
structure RoundingInterval where
  below : Nat
  closed : Bool
  deriving DecidableEq, Repr

/-- The interval of a value.  Just above a power of two the values below lie twice as dense, so
the interval reaches only half as far down; an even mantissa wins ties and owns both ends. -/
def roundingInterval (f : BinaryFormat) (mantissa : Nat) (exponent : Int) : RoundingInterval where
  below := if mantissa = Nat.pow 2 f.fractionBits ∧ f.lowest < exponent then 1 else 2
  closed := mantissa % 2 = 0

/-- Whether `num / den` lies in the interval, both given in quarters of the last bit around
`four`, which is four times the mantissa. -/
def RoundingInterval.holds (i : RoundingInterval) (four num den : Nat) : Bool :=
  let low := (four - i.below) * den
  let high := (four + 2) * den
  if i.closed then low ≤ num && num ≤ high else low < num && num < high

/-- The better of the two neighbours of the value on the grid of `n` digits, as a multiple of
the grid's unit, if one lies in the interval.  `num / den` is four times the mantissa. -/
def gridHit? (i : RoundingInterval) (four : Nat) (unitNum unitDen : Nat) : Option Nat :=
  -- `unitNum / unitDen` is the grid's unit in quarters of the last bit
  let low := four * unitDen / unitNum
  let lowIn := i.holds four (low * unitNum) unitDen
  let highIn := i.holds four ((low + 1) * unitNum) unitDen
  if lowIn && highIn then
    if 2 * (four * unitDen - low * unitNum) < unitNum then some low else some (low + 1)
  else if lowIn then some low
  else if highIn then some (low + 1)
  else none

/-- Tries grids of `n`, `n + 1`, … digits, at most `fuel` of them. -/
def searchGrids (i : RoundingInterval) (four : Nat) (exponent point : Int) : Nat → Nat → Digits
  | 0, _ => ⟨[], point⟩
  | fuel + 1, n =>
    -- one unit of the grid is 10 ^ (point - n), and a quarter of the last bit 2 ^ (exponent - 2)
    let (a, b) := scaleDecimal 1 1 (point - n)
    let (unitNum, unitDen) := BinaryFormat.scaleDown a b (exponent - 2)
    match gridHit? i four unitNum unitDen with
    | some hit =>
      let digits := Digits.ofNat hit
      ⟨digits, point - n + digits.length⟩
    | none => searchGrids i four exponent point fuel (n + 1)

/-- The fewest digits that read back as the double `mantissa * 2 ^ exponent`, a positive one;
seventeen always suffice. -/
def shortestDigits (mantissa : Nat) (exponent : Int) : Digits :=
  let (num, den) := BinaryFormat.scaleDown mantissa 1 (-exponent)
  let found := searchGrids (roundingInterval .double mantissa exponent) (4 * mantissa) exponent
    (decimalPoint num den) 17 1
  { found with digits := (found.digits.reverse.dropWhile (· == 0)).reverse }

end TreeQuery
