/-
Static properties of expressions.

What is known of an expression without running it: the length and the type of its result, whether
its nodes come out in document order, which parts of the context it reads, and which ways of
evaluation it has of its own.
-/
import TreeQuery.Sequence.Item

namespace TreeQuery

/-- What is known of the nodes of a result and of the effects of an evaluation. -/
structure Special where
  /-- Nodes come out in document order, each once. -/
  ordered : Bool
  /-- No node of the result is an ancestor of another. -/
  peer : Bool
  /-- Evaluation makes no new nodes and has no effects. -/
  nonCreative : Bool
  deriving DecidableEq, Repr

namespace Special

/-- Nothing is known. -/
def none : Special := ⟨false, false, false⟩

/-- The order properties of one and the effects of the other. -/
def withOrderOf (effects order : Special) : Special :=
  ⟨effects.ordered || order.ordered, effects.peer || order.peer, effects.nonCreative⟩

/-- The properties as a number. -/
def bits (s : Special) : Nat := s.ordered.toNat + 2 * s.peer.toNat + 4 * s.nonCreative.toNat

end Special

/-- The parts of the context that an evaluation reads. -/
structure Dependencies where
  item : Bool
  position : Bool
  last : Bool
  locals : Bool
  globals : Bool
  rules : Bool
  deriving DecidableEq, Repr

namespace Dependencies

/-- Reads nothing. -/
def none : Dependencies := ⟨false, false, false, false, false, false⟩

/-- Reads what either reads. -/
def union (a b : Dependencies) : Dependencies :=
  ⟨a.item || b.item, a.position || b.position, a.last || b.last, a.locals || b.locals,
    a.globals || b.globals, a.rules || b.rules⟩

/-- The same without the focus. -/
def withoutFocus (a : Dependencies) : Dependencies :=
  { a with item := false, position := false, last := false }

/-- Whether any part of the focus is read. -/
def onFocus (a : Dependencies) : Bool := a.item || a.position || a.last

/-- The dependencies as a number. -/
def bits (a : Dependencies) : Nat :=
  a.item.toNat + 2 * a.position.toNat + 4 * a.last.toNat + 8 * a.locals.toNat
    + 16 * a.globals.toNat + 32 * a.rules.toNat

end Dependencies

/-- The ways of evaluation that an expression has of its own; the others are derived. -/
structure Methods where
  iterate : Bool
  item : Bool
  process : Bool
  deriving DecidableEq, Repr

/-- The methods as a number. -/
def Methods.bits (m : Methods) : Nat := m.iterate.toNat + 2 * m.item.toNat + 4 * m.process.toNat

/-- What is known of an expression without running it. -/
structure Properties where
  cardinality : Cardinality
  itemType : ItemType
  special : Special
  dependencies : Dependencies
  methods : Methods
  deriving DecidableEq, Repr

/-- Stands in until the properties of a new expression are computed. -/
def Properties.initial : Properties :=
  ⟨.empty, .any, ⟨false, false, true⟩, .none, ⟨true, false, false⟩⟩

end TreeQuery
