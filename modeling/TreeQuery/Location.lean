/-
Places in a source text.

A location is a line and a column, perhaps in a named module.  Line zero, column zero in no
module stands for an unknown place.
-/
namespace TreeQuery

/-- A place in a source text. -/
structure Location where
  module? : Option String
  line : Nat
  column : Nat
  deriving DecidableEq, Repr

namespace Location

/-- The unknown place. -/
def unknown : Location := ⟨none, 0, 0⟩

/-- A place in no particular module. -/
def ofPlace (line column : Nat) : Location := ⟨none, line, column⟩

/-- Whether the place is unknown. -/
def isUnknown (l : Location) : Bool := l == unknown

/-- The written form. -/
def text (l : Location) : String :=
  let place := toString l.line ++ ":" ++ toString l.column
  match l.module? with
  | some m => m ++ ":" ++ place
  | none => place

end Location

end TreeQuery
