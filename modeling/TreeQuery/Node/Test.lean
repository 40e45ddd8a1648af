/-
Node tests.

A test accepts nodes by kind, or by kind and name.  A node without a name, such as a text, passes
no test of a name, not even one that accepts every name.
-/
import TreeQuery.Node.Forest

namespace TreeQuery

/-- A condition on a name. -/
inductive NameTest where
  /-- One particular name. -/
  | exact (space : Option String) (localPart : String)
  /-- Any name of a namespace. -/
  | anyLocal (space : Option String)
  /-- A local part in any namespace. -/
  | anySpace (localPart : String)
  /-- Any name. -/
  | any
  deriving DecidableEq, Repr

/-- Whether a name meets the condition. -/
def NameTest.accepts : NameTest → Name → Bool
  | .exact s l, n => n.localPart == l && n.space == s
  | .anyLocal s, n => n.space == s
  | .anySpace l, n => n.localPart == l
  | .any, _ => true

/-- A condition on a node. -/
inductive NodeTest where
  /-- Any node. -/
  | anyNode
  /-- Any node of a kind. -/
  | ofKind (kind : NodeKind)
  /-- A node of a kind with a name. -/
  | named (kind : NodeKind) (name : NameTest)
  deriving DecidableEq, Repr

namespace NodeTest

/-- Elements of a name in no namespace. -/
def elementNamed (localPart : String) : NodeTest := .named .element (.exact none localPart)

/-- Attributes of a name in no namespace. -/
def attributeNamed (localPart : String) : NodeTest := .named .attribute (.exact none localPart)

/-- Whether a node passes. -/
def accepts (t : NodeTest) (f : Forest) (n : Nat) : Bool :=
  match t with
  | .anyNode => true
  | .ofKind k => f.kind n == k
  | .named k name => f.kind n == k && (f.name? n).any name.accepts

/-- The kind that every accepted node has, if the test fixes one. -/
def kind? : NodeTest → Option NodeKind
  | .anyNode => none
  | .ofKind k => some k
  | .named k _ => some k

end NodeTest

end TreeQuery
