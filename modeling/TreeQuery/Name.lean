/-
Names.

A `Name` is a local part with an optional namespace, and is written `local` or `Q{namespace}local`.
A `ModeName` is the name of a set of rules; one set has no name of its own.
-/
namespace TreeQuery

/-- A local part in a namespace, or in none.  A namespace that is the empty text is not the same
as none. -/
structure Name where
  space : Option String
  localPart : String
  deriving DecidableEq, Repr

namespace Name

/-- The namespace of the built-in atomic types. -/
def schemaSpace : String := "http://www.w3.org/2001/XMLSchema"

/-- The namespace bound to the reserved prefix `xml`. -/
def xmlSpace : String := "http://www.w3.org/XML/1998/namespace"

/-- The namespace of the standard error codes. -/
def errorSpace : String := "http://www.w3.org/2005/xqt-errors"

/-- The namespace of the error codes that no standard defines. -/
def ownErrorSpace : String := "urn:quire:errors"

/-- A name in no namespace. -/
def plain (localPart : String) : Name := ⟨none, localPart⟩

/-- A name in the namespace of the built-in types. -/
def schema (localPart : String) : Name := ⟨some schemaSpace, localPart⟩

/-- The written form. -/
def text : Name → String
  | ⟨none, l⟩ => l
  | ⟨some s, l⟩ => "Q\x7b" ++ s ++ "\x7d" ++ l

end Name

/-- The name of a mode; the unnamed mode is the default one. -/
inductive ModeName where
  | unnamed
  | named (name : Name)
  deriving DecidableEq, Repr

/-- The written form. -/
def ModeName.text : ModeName → String
  | .unnamed => "#default"
  | .named n => n.text

end TreeQuery
