/-
Sorting with a comparison that has effects.

`sortBy` is a stable merge sort.  The comparison runs in a monad, so that it can keep notes on the pairs
that it is asked about; which pairs these are is up to the sort.
-/
namespace TreeQuery

variable {m : Type → Type} [Monad m] {α : Type}

/-- Merges two lists.  Of two elements that compare as equal the one of the first list comes first. -/
def mergeBy (compare : α → α → m Ordering) : List α → List α → m (List α)
  | [], ys => return ys
  | xs, [] => return xs
  | x :: xs, y :: ys => do
    if (← compare x y) = .gt then return y :: (← mergeBy compare (x :: xs) ys)
    else return x :: (← mergeBy compare xs (y :: ys))
termination_by xs ys => xs.length + ys.length

/-- Sorts a list: its two halves, which are then merged. -/
def sortBy (compare : α → α → m Ordering) (xs : List α) : m (List α) :=
  if _several : 2 ≤ xs.length then do
    let first ← sortBy compare (xs.take ((xs.length + 1) / 2))
    let second ← sortBy compare (xs.drop ((xs.length + 1) / 2))
    mergeBy compare first second
  else return xs
termination_by xs.length
decreasing_by all_goals simp only [List.length_take, List.length_drop]; omega

end TreeQuery
