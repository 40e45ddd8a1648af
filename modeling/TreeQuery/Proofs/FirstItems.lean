/-
The first item, found in two ways.

`Behaviour.item` gives the first item of a result without the rest, and `Behaviour.first?` pulls the first item of the
sequence.  Where they differ is known exactly (`Expr.agrees_iff`): an expression is brought down to another one by the
choices it makes, and the two ways differ if that is a call of `data` without arguments, or the conversion of an operand
of which it is known that it has at most one item, where the operand gives a node, several items, or a value and then a
failure.

Design notes: conversion is the only operator that looks at its operand in two ways.  Item by item it passes nodes on
and stops at the first item; as a single value it makes values of nodes and asks for a second item.
-/
import TreeQuery.Proofs.Structure

namespace TreeQuery

/-! ### Conversion of untyped values -/

namespace Value

variable {s : String} {v : Value} {target : AtomicType} {conversion : Conversion} {e : Error}

end Value

/-- The first item of what a sequence comes to. -/
def Trace.head? (t : Trace) : Except Cause (Option Item) := t.first?.map (·.map (·.1))

namespace Behaviour

variable {b condition yes no : Behaviour} {c : Context} {l : Location}

/-- The first item of the sequence. -/
def first? (b : Behaviour) (c : Context) : Eval (Option Item) := do (← b.iterate c).first?

section Convert

variable {target : AtomicType} {conversion : Conversion} {place : Location}

end Convert

/-! ### Calls -/

end Behaviour

/-! ### Expressions -/

namespace Expr

variable {d : Dispatcher} {c : Context} {e : Expr}

/-- The conversion of the context item: by itself a node is made a value, and in the sequence it stays a node. -/
example :
    let e := ofUnary (.convert .string .strict) ⟨.navigate, ofLeaf .contextItem .unknown⟩ .unknown
    let c := (Context.initial (Forest.empty.add ⟨.text, none, some "12", [], []⟩)).withFocus (.node 0) 1 (some 1)
    ((e.behaviour .none).item c).outcome = .ok (some (.atomic (.string "12"))) ∧
      ((e.behaviour .none).first? c).outcome = .ok (some (.node 0)) := ⟨rfl, rfl⟩

end Expr

end TreeQuery
