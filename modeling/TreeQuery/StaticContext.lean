/-
The static context: what is known before evaluation.

It declares global variables with their types and prefixes of names, and it says how far to optimize
and how untyped operands of arithmetic become numbers.
-/
import TreeQuery.Error
import TreeQuery.Sequence.Item
import TreeQuery.Value.Cast

namespace TreeQuery

/-- How far to optimize. -/
inductive Optimization where
  /-- Not at all. -/
  | none
  /-- Only steps after which every expression is evaluated at most as often as before. -/
  | basic
  /-- All steps. -/
  | full
  deriving DecidableEq, Repr

namespace Optimization

/-- All levels. -/
def all : List Optimization := [.none, .basic, .full]

/-- The written form. -/
def label : Optimization → String
  | .none => "none"
  | .basic => "basic"
  | .full => "full"

end Optimization

/-- What is known before evaluation. -/
structure StaticContext where
  optimization : Optimization
  conversion : Conversion
  /-- Declared global variables, the latest declaration first. -/
  globals : List (Name × SequenceType)
  /-- Prefixes with their namespaces, the latest declaration first. -/
  namespaces : List (String × String)
  base? : Option String
  deriving DecidableEq, Repr

namespace StaticContext

/-- Nothing is declared but the two reserved prefixes. -/
def initial : StaticContext where
  optimization := .full
  conversion := .strict
  globals := []
  namespaces := [("xml", Name.xmlSpace), ("xs", Name.schemaSpace)]
  base? := none

/-- The declared type of a global variable. -/
def globalType? (s : StaticContext) (name : Name) : Option SequenceType :=
  (s.globals.find? (·.1 == name)).map (·.2)

/-- The namespace of a prefix. -/
def namespace? (s : StaticContext) (short : String) : Option String :=
  (s.namespaces.find? (·.1 == short)).map (·.2)

/-- Declares a global variable. -/
def declareGlobal (s : StaticContext) (name : Name) (type : SequenceType) : StaticContext :=
  { s with globals := (name, type) :: s.globals.filter (·.1 != name) }

/-- Declares a prefix.  The prefix `xml` keeps its meaning. -/
def declareNamespace (s : StaticContext) (short space : String) : StaticContext :=
  if short = "xml" then s
  else { s with namespaces := (short, space) :: s.namespaces.filter (·.1 != short) }

/-- The part of a name before its first colon, if there is one, and the rest. -/
def splitName (lexical : String) : Option String × String :=
  let cs := lexical.toList
  match cs.dropWhile (· != ':') with
  | [] => (none, lexical)
  | _ :: rest => (some (String.ofList (cs.takeWhile (· != ':'))), String.ofList rest)

/-- The atomic type with a name as it is written. -/
def resolveType (s : StaticContext) (lexical : String) : Except Error AtomicType := do
  let space? ← match splitName lexical with
    | (none, _) => pure none
    | (some short, _) =>
      match s.namespace? short with
      | some space => pure (some space)
      | none => throw (Error.static (.unboundPrefix lexical))
  match AtomicType.ofName? ⟨space?, (splitName lexical).2⟩ with
  | some t => return t
  | none => throw (Error.static (.unknownType lexical))

end StaticContext

end TreeQuery
