/-
Sources: sequences that are about to be read.

A result of evaluation is a list that is already there, a run of integers, or a stream.  Of the
first two the length is known without reading, and the first can be handed over as it is.

Design notes: finding the first item of a stream may take long, or have no end, so a source holds a
stream as a function, and nothing of it is computed before the first item is asked for.  `through` puts
a transformation of streams between a source and its reader under the same condition.
-/
import TreeQuery.Sequence.Stream

namespace TreeQuery

/-- A sequence of which nothing has been read yet. -/
inductive Source where
  | items (xs : Sequence)
  | range (low high : Int64)
  | stream (s : Unit → ItemStream)

/-- The greatest length that is told apart from longer ones. -/
def maxLength : Nat := Nat.pow 2 64 - 1

/-- How many integers lie between two bounds, both included. -/
def spanLength (low high : Int64) : Nat := (high.toInt - low.toInt + 1).toNat

namespace Source

/-- At most one item. -/
def ofOption : Option Item → Source
  | some a => items [a]
  | none => items []

/-- The source as a stream. -/
def toStream : Source → ItemStream
  | items xs => .ofList xs
  | range low high => .integers low.toInt (spanLength low high)
  | stream s => s ()

/-- The source, read through a transformation. -/
def through (s : Source) (f : ItemStream → ItemStream) : Source := stream fun _ => f s.toStream

@[simp] theorem toStream_through (s : Source) (f : ItemStream → ItemStream) :
    (s.through f).toStream = f s.toStream := rfl

/-- The length, where it is known in advance. -/
def length? : Source → Option Nat
  | items xs => some xs.length
  | range low high => some (min (spanLength low high) maxLength)
  | stream _ => none

/-- The items, where they are there already. -/
def grounded? : Source → Option Sequence
  | items xs => some xs
  | _ => none

/-- All items. -/
def collect : Source → Eval Sequence
  | items xs => pure xs
  | s => s.toStream.drain

theorem collect_eq_drain (s : Source) : s.collect = s.toStream.drain := by
  cases s <;> simp [collect, toStream]

/-- The number of items. -/
def count (s : Source) : Eval Nat :=
  match s.length? with
  | some n => pure n
  | none => s.toStream.countFrom 0 []

/-- The first item. -/
def first? (s : Source) : Eval (Option Item) := do
  let next ← s.toStream.next?
  return next.map (·.1)

/-- Whether there is an item. -/
def nonempty (s : Source) : Eval Bool :=
  match s.length? with
  | some n => pure (n != 0)
  | none => return (← s.first?).isSome

end Source

end TreeQuery
