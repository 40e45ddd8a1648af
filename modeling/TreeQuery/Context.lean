/-
The context of an evaluation.

A context holds the focus (an item with its position and the length of the sequence it came from),
a frame of slots for local variables, the values of global variables, the tables of rules and the
rule that is being executed, and whether there is a destination for output.  Contexts are values: a
change makes a new one and leaves the old one as it was.
-/
import TreeQuery.Rule.Mode
import TreeQuery.Sequence.Source

namespace TreeQuery

/-- The context item, its position counted from 1, and the length of its sequence if known. -/
structure Focus where
  item : Item
  position : Nat
  size? : Option Nat

/-- A rule, by its mode and its number there. -/
structure CurrentRule where
  mode : ModeName
  index : Nat
  deriving DecidableEq, Repr

/-- Everything an evaluation depends on besides the expression. -/
structure Context where
  forest : Forest
  focus? : Option Focus
  /-- The slots; an empty one has not been assigned. -/
  frame : List (Option Sequence)
  /-- Values of global variables, the latest first. -/
  globals : List (Name × Sequence)
  hasOutput : Bool
  rules? : Option RuleSet
  currentRule? : Option CurrentRule

/-- A slot without a value for every place up to the given size. -/
def padFrame (frame : List (Option Sequence)) (size : Nat) : List (Option Sequence) :=
  frame ++ List.replicate (size - frame.length) none

namespace Context

/-- Nothing but a forest. -/
def initial (f : Forest) : Context := ⟨f, none, [], [], false, none, none⟩

/-- The context item. -/
def item (c : Context) : Except Error Item :=
  match c.focus? with
  | some focus => .ok focus.item
  | none => .error (.of .noContextItem)

/-- The position of the context item. -/
def position (c : Context) : Except Error Nat :=
  match c.focus? with
  | some focus => .ok focus.position
  | none => .error (.of .noPosition)

/-- The length of the sequence that the context item came from. -/
def size (c : Context) : Except Error Nat :=
  match c.focus?.bind (·.size?) with
  | some n => .ok n
  | none => .error (.of .noSize)

/-- The same with another focus. -/
def withFocus (c : Context) (item : Item) (position : Nat) (size? : Option Nat) : Context :=
  { c with focus? := some ⟨item, position, size?⟩ }

/-- The same without a focus. -/
def withoutFocus (c : Context) : Context := { c with focus? := none }

/-- A context for a rule: an empty frame and no focus, all else as it is. -/
def child (c : Context) (frameSize : Nat) : Context :=
  { c with focus? := none, frame := padFrame [] frameSize }

/-- The same with at least so many slots. -/
def ensureFrame (c : Context) (size : Nat) : Context := { c with frame := padFrame c.frame size }

/-- The value in a slot. -/
def slot (c : Context) (index : Nat) : Except Error Sequence :=
  match c.frame[index]?.join with
  | some value => .ok value
  | none => .error (.of (.slotUnassigned index))

/-- The same with a value in a slot. -/
def setSlot (c : Context) (index : Nat) (value : Sequence) : Context :=
  { c with frame := (padFrame c.frame (index + 1)).set index (some value) }

/-- The value of a global variable. -/
def global (c : Context) (name : Name) : Except Error Sequence :=
  match c.globals.find? (·.1 == name) with
  | some (_, value) => .ok value
  | none => .error (.of (.missingGlobal name))

/-- The same with a value for a global variable. -/
def setGlobal (c : Context) (name : Name) (value : Sequence) : Context :=
  { c with globals := (name, value) :: c.globals }

/-- The same with a destination for output. -/
def withOutput (c : Context) : Context := { c with hasOutput := true }

/-- The same with tables of rules. -/
def withRules (c : Context) (rules : RuleSet) : Context := { c with rules? := some rules }

end Context

end TreeQuery
