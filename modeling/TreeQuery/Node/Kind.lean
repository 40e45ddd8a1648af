/-
Kinds of nodes, and the axes along which a step moves from one node to others.
-/
namespace TreeQuery

/-- The kinds of nodes of a tree. -/
inductive NodeKind where
  | document
  | element
  | attribute
  | text
  | comment
  | processingInstruction
  deriving DecidableEq, Repr

namespace NodeKind

/-- How a kind is shown in the description of a node. -/
def label : NodeKind → String
  | .document => "Document"
  | .element => "Element"
  | .attribute => "Attribute"
  | .text => "Text"
  | .comment => "Comment"
  | .processingInstruction => "ProcessingInstruction"

/-- The word for a kind in a type or a test. -/
def word : NodeKind → String
  | .document => "document"
  | .element => "element"
  | .attribute => "attribute"
  | .text => "text"
  | .comment => "comment"
  | .processingInstruction => "pi"

/-- All kinds, in the order in which they are listed. -/
def all : List NodeKind :=
  [.document, .element, .attribute, .text, .comment, .processingInstruction]

/-- Whether nodes of this kind have content below them. -/
def hasContent : NodeKind → Bool
  | .document => true
  | .element => true
  | _ => false

end NodeKind

/-- A direction of navigation. -/
inductive Axis where
  | child
  | attribute
  | self
  | parent
  | descendant
  | descendantOrSelf
  | ancestor
  deriving DecidableEq, Repr

namespace Axis

/-- All axes, in the order in which they are listed. -/
def all : List Axis :=
  [.child, .attribute, .self, .parent, .descendant, .descendantOrSelf, .ancestor]

/-- The written form. -/
def label : Axis → String
  | .child => "child"
  | .attribute => "attribute"
  | .self => "self"
  | .parent => "parent"
  | .descendant => "descendant"
  | .descendantOrSelf => "descendant-or-self"
  | .ancestor => "ancestor"

/-- Whether the axis leads to the node itself or to nodes after it. -/
def isForward : Axis → Bool
  | .parent => false
  | .ancestor => false
  | _ => true

/-- The kind of node that a bare name selects on this axis. -/
def principalKind : Axis → NodeKind
  | .attribute => .attribute
  | _ => .element

/-- Whether all nodes of the axis are known before the first of them is handed out, which is so
where the walk goes against the direction in which the nodes are needed. -/
def isMaterialized (a : Axis) : Bool := a == .ancestor

end Axis

end TreeQuery
