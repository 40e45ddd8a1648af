/-
Cardinalities.

A cardinality says which lengths a sequence may have, as far as lengths are told apart: none,
one, or more than one.  `sum`, `multiply` and `either` give the cardinality of a concatenation,
of a mapping and of a choice.  All three work on the least and the greatest allowed length, so
they may allow a length in between that no combination reaches, never the other way round.
-/
namespace TreeQuery

/-- The allowed lengths of a sequence. -/
structure Cardinality where
  zero : Bool
  one : Bool
  many : Bool
  deriving DecidableEq, Repr

namespace Cardinality

/-- No length at all is allowed. -/
def impossible : Cardinality := ⟨false, false, false⟩

/-- Exactly zero. -/
def empty : Cardinality := ⟨true, false, false⟩

/-- Exactly one. -/
def exactlyOne : Cardinality := ⟨false, true, false⟩

/-- Two or more. -/
def severalOnly : Cardinality := ⟨false, false, true⟩

/-- At most one. -/
def zeroOrOne : Cardinality := ⟨true, true, false⟩

/-- Any length. -/
def any : Cardinality := ⟨true, true, true⟩

/-- Whether a sequence of `n` items is allowed. -/
def admits (c : Cardinality) : Nat → Bool
  | 0 => c.zero
  | 1 => c.one
  | _ => c.many

/-- Whether only the empty sequence is allowed. -/
def isEmptyOnly (c : Cardinality) : Bool := c == empty

/-- Whether two or more items are excluded. -/
def atMostOne (c : Cardinality) : Bool := !c.many

/-- The lengths allowed by either. -/
def union (a b : Cardinality) : Cardinality :=
  ⟨a.zero || b.zero, a.one || b.one, a.many || b.many⟩

/-- The lengths allowed by both. -/
def inter (a b : Cardinality) : Cardinality :=
  ⟨a.zero && b.zero, a.one && b.one, a.many && b.many⟩

/-- Whether every length that `b` allows is allowed by `a`. -/
def covers (a b : Cardinality) : Bool := inter a b == b

/-- The least allowed length, where 2 stands for more than one. -/
def least (c : Cardinality) : Nat := if c.zero then 0 else if c.one then 1 else 2

/-- The greatest allowed length, where 2 stands for more than one. -/
def greatest (c : Cardinality) : Nat := if c.many then 2 else if c.one then 1 else 0

/-- All lengths from `lo` to `hi`, where everything above 1 is more than one.  If there are none,
exactly zero. -/
def between (lo hi : Nat) : Cardinality :=
  let lo := min lo 2
  let hi := min hi 2
  if hi < lo then empty else ⟨lo == 0, lo ≤ 1 && 1 ≤ hi, hi == 2⟩

/-- The lengths of the concatenation of two sequences. -/
def sum (a b : Cardinality) : Cardinality :=
  between (a.least + b.least) (a.greatest + b.greatest)

/-- The lengths of a mapping that yields `perItem` items for every item. -/
def multiply (a perItem : Cardinality) : Cardinality :=
  between (a.least * perItem.least) (a.greatest * perItem.greatest)

/-- The lengths of a choice between two sequences. -/
def either (a b : Cardinality) : Cardinality :=
  between (min a.least b.least) (max a.greatest b.greatest)

/-- The cardinality as a number: zero counts 1, one counts 2, many counts 4. -/
def bits (c : Cardinality) : Nat :=
  c.zero.toNat + 2 * c.one.toNat + 4 * c.many.toNat

/-- The cardinality with the given number. -/
def ofBits (n : Nat) : Cardinality :=
  ⟨n % 2 == 1, n / 2 % 2 == 1, n / 4 % 2 == 1⟩

theorem ofBits_bits (c : Cardinality) : ofBits c.bits = c := by
  rcases c with ⟨_ | _, _ | _, _ | _⟩ <;> rfl

/-- How a cardinality is shown in a message. -/
def text (c : Cardinality) : String :=
  let names := (if c.zero then ["ALLOWS_ZERO"] else []) ++ (if c.one then ["ALLOWS_ONE"] else [])
    ++ (if c.many then ["ALLOWS_MANY"] else [])
  "Cardinality(" ++ (if names.isEmpty then "0x0" else " | ".intercalate names) ++ ")"

end Cardinality

end TreeQuery
