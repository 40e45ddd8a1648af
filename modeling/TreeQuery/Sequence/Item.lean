/-
Items, and the types of items and sequences.

An item is a node or an atomic value, and a sequence is a list of items: it is flat by
construction.  `ItemType` has four levels: any item, any node, the nodes of one kind, and the
atomic values of one type.
-/
import TreeQuery.Cardinality
import TreeQuery.Node.Forest

namespace TreeQuery

/-- A node, by its number in the forest, or an atomic value. -/
inductive Item where
  | node (n : Nat)
  | atomic (v : Value)

namespace Item

instance : Inhabited Item := ⟨.node 0⟩

instance : BEq Item where
  beq
    | node a, node b => a == b
    | atomic a, atomic b => a == b
    | _, _ => false

/-- Whether an item is a node. -/
def isNode : Item → Bool
  | node _ => true
  | atomic _ => false

/-- The node, if the item is one. -/
def node? : Item → Option Nat
  | node n => some n
  | atomic _ => none

/-- The atomic value, if the item is one. -/
def atomic? : Item → Option Value
  | node _ => none
  | atomic v => some v

/-- How an item is shown in a message. -/
def describe (f : Forest) : Item → String
  | node n => f.describe n
  | atomic v => v.text

/-- The atomic values that an item stands for. -/
def typedValue (f : Forest) : Item → List Value
  | node n => f.typedValue n
  | atomic v => [v]

end Item

/-- A flat list of items. -/
abbrev Sequence := List Item

/-- Concatenates sequences. -/
def Sequence.concat (parts : List Sequence) : Sequence := parts.flatten

/-- Whether a concatenation hands its first part on unchanged, which it does if that is the only
one. -/
def Sequence.isFirstPart (parts : List Sequence) : Bool := parts.length == 1

/-- A set of items. -/
inductive ItemType where
  | any
  | anyNode
  | node (kind : NodeKind)
  | atomic (type : AtomicType)
  deriving DecidableEq, Repr

namespace ItemType

/-- All item types. -/
def all : List ItemType :=
  [any, anyNode] ++ NodeKind.all.map node ++ AtomicType.all.map atomic

/-- The written form. -/
def label : ItemType → String
  | .any => "item"
  | .anyNode => "node"
  | .node k => k.word
  | .atomic t => "xs:" ++ t.label

/-- Whether an item belongs to the type. -/
def accepts (f : Forest) : ItemType → Item → Bool
  | .any, _ => true
  | .anyNode, .node _ => true
  | .node k, .node n => f.kind n == k
  | .atomic t, .atomic v => v.type.isSubtypeOf t
  | _, _ => false

/-- Whether every item of the first type belongs to the second. -/
def isSubtypeOf : ItemType → ItemType → Bool
  | _, .any => true
  | .anyNode, .anyNode => true
  | .node _, .anyNode => true
  | .node a, .node b => a == b
  | .atomic a, .atomic b => a.isSubtypeOf b
  | _, _ => false

/-- Whether all items of the type are atomic values. -/
def isAtomic : ItemType → Bool
  | .atomic _ => true
  | _ => false

/-- Whether an item of the type may be a node. -/
def mayBeNode (t : ItemType) : Bool := !t.isAtomic

/-- The type of the atomic values that items of this type stand for. -/
def atomized : ItemType → AtomicType
  | .atomic t => t
  | .node .comment => .string
  | .node .processingInstruction => .string
  | .node _ => .untypedAtomic
  | .any => .anyAtomic
  | .anyNode => .anyAtomic

/-- A type above both. -/
def common (a b : ItemType) : ItemType :=
  if a = b then a
  else
    match a, b with
    | .atomic s, .atomic t => .atomic (s.common t)
    | .atomic _, _ => .any
    | _, .atomic _ => .any
    | .any, _ => .any
    | _, .any => .any
    | _, _ => .anyNode

/-- A type above all of a list; `any` for the empty list. -/
def commonOf : List ItemType → ItemType
  | [] => .any
  | t :: ts => ts.foldl common t

end ItemType

/-- A set of sequences: by the type of their items and by their length. -/
structure SequenceType where
  item : ItemType
  cardinality : Cardinality
  deriving DecidableEq, Repr

/-- Every sequence. -/
def SequenceType.any : SequenceType := ⟨.any, .any⟩

end TreeQuery
