/-
Slices of windows and of what is read.

The positions from `least` to `greatest` of a sequence are had in two ways.  Of a window on an array a smaller
window is cut out, with bounds that are computed in 64 bits (`Reader.slice`); of anything else the items are read
one by one and counted (`Traversal.between`).  Both hand out the items at these positions (`Sequence.fromTo`).

* `Reader.slice_window`: the bounds are those that unbounded integers give;
* `Traversal.Hands`: a traversal hands out items until the end, and no error; `Hands.window` says so of
  windows and `Hands.between` of counting, from whatever position it counts.

**Main result** (`slices_exact`): what is cut out of a window is exactly the items at the positions asked for, and
counting over any source without errors gives the same as slicing an array of its items.

Design notes: a sum that 64 bits do not hold becomes the nearest number that they hold.  That is harmless as long
as no position comes near the greatest number, and no array in memory is that long.
-/
import Mathlib.Algebra.Order.Ring.Int
import TreeQuery.Proofs.TraversalStreams

namespace TreeQuery

/-- The items at the positions from `low` to `high`, where the first one is at position `first`. -/
def Sequence.fromTo (low high : Int) (first : Nat) (xs : Sequence) : Sequence :=
  ((xs.zipIdx first).filter fun x => decide (low ≤ x.2 ∧ x.2 ≤ high)).map (·.1)

namespace Sequence

variable {low high : Int} {first : Nat} {a : Item} {xs : Sequence}

theorem fromTo_cons_of_mem (h : low ≤ first ∧ first ≤ high) :
    fromTo low high first (a :: xs) = a :: fromTo low high (first + 1) xs := by
  simp [fromTo, h]

theorem fromTo_cons_of_not_mem (h : ¬ (low ≤ first ∧ first ≤ high)) :
    fromTo low high first (a :: xs) = fromTo low high (first + 1) xs := by
  rw [fromTo, List.zipIdx_cons, List.filter_cons_of_neg (by simpa using h)]
  rfl

theorem fromTo_of_lt (h : high < first) : fromTo low high first xs = [] := by
  induction xs generalizing first with
  | nil => rfl
  | cons a xs ih => rw [fromTo_cons_of_not_mem (by omega), ih (by omega)]

/-- The items from one position to another are left when those before and those after are dropped. -/
theorem fromTo_eq (low high : Int) (first : Nat) (xs : Sequence) :
    fromTo low high first xs =
      (xs.drop (low - first).toNat).take (high + 1 - max low first).toNat := by
  induction xs generalizing first with
  | nil => simp [fromTo]
  | cons a xs ih =>
    by_cases before : (first : Int) < low
    · rw [fromTo_cons_of_not_mem (by omega), ih,
        show (low - first).toNat = (low - (first + 1 : Nat)).toNat + 1 by omega,
        show max low (first + 1 : Nat) = max low first by omega, List.drop_succ_cons]
    · rw [show (low - first).toNat = 0 by omega, List.drop_zero]
      by_cases after : high < first
      · rw [fromTo_of_lt after, show (high + 1 - max low first).toNat = 0 by omega, List.take_zero]
      · rw [fromTo_cons_of_mem (by omega), ih, show (low - (first + 1 : Nat)).toNat = 0 by omega, List.drop_zero,
          show (high + 1 - max low first).toNat = (high + 1 - max low (first + 1 : Nat)).toNat + 1 by omega,
          List.take_succ_cons]

/-- The part of a list that a subsequence of it selects. -/
theorem slice_eq_fromTo (low high : Int) (xs : Sequence) : slice xs low high = fromTo low high 1 xs := by
  rw [slice, fromTo_eq]
  congr 2
  omega

end Sequence

/-! ### The bounds of a slice -/

namespace Reader

variable {start stop : Nat}

/-- What is moved into a window, in 64 bits, is the nearest number in it. -/
theorem toNat_clampInt64 (ordered : start ≤ stop) (n : Int64) :
    ((clampInt64 (nearestInt64 start) (nearestInt64 stop) n).toUInt64.toNat : Int) =
      (clampInt64 (nearestInt64 start) (nearestInt64 stop) n).toInt ∧
    (clampInt64 (nearestInt64 start) (nearestInt64 stop) n).toInt =
      max (min (start : Int) (2 ^ 63 - 1)) (min n.toInt (min stop (2 ^ 63 - 1))) := by
  have first : (nearestInt64 start).toInt = min (start : Int) (2 ^ 63 - 1) := by
    rw [toInt_nearestInt64]
    omega
  have last : (nearestInt64 stop).toInt = min (stop : Int) (2 ^ 63 - 1) := by
    rw [toInt_nearestInt64]
    omega
  have bounds : (nearestInt64 start).toInt ≤ (nearestInt64 stop).toInt := by omega
  have inside := toInt_clampInt64 bounds n
  rw [first, last] at inside
  exact ⟨toNat_toUInt64 (by omega), inside⟩

/-- A number that differs from the exact one only outside of the window is moved to the same place. -/
theorem toNat_clampInt64_of_exact (ordered : start ≤ stop) (held : start = 0 ∨ stop < 2 ^ 63 - 1) {n : Int64}
    {exact : Int} (h : n.toInt = exact ∨ n.toInt ≤ start ∧ exact ≤ start ∨ stop ≤ n.toInt ∧ stop ≤ exact) :
    ((clampInt64 (nearestInt64 start) (nearestInt64 stop) n).toUInt64.toNat : Int) =
      max (start : Int) (min stop exact) := by
  obtain ⟨unsigned, inside⟩ := toNat_clampInt64 ordered n
  have bound := n.toInt_lt
  rw [unsigned, inside]
  rcases h with h | h | h
  · omega
  · omega
  · omega

/-- The bounds of what is cut out of a window are those that unbounded integers give, and lie within it. -/
theorem slice_window (items : Array Item) (ordered : start ≤ stop) (held : start = 0 ∨ stop < 2 ^ 63 - 1)
    (least greatest : Int64) (index : Nat) :
    ∃ low high : Nat, (low : Int) = max (start : Int) (min stop (start + least.toInt - 1)) ∧
      (high : Int) = max (start : Int) (min stop (start + greatest.toInt)) ∧
      (window items start stop index).slice least greatest =
        if low < high then .window items low high low else .empty := by
  have first : (nearestInt64 start).toInt = start := by
    rw [toInt_nearestInt64]
    omega
  have leastHeld := And.intro least.le_toInt least.toInt_lt
  have greatestHeld := And.intro greatest.le_toInt greatest.toInt_lt
  simp only [slice, slice?, first]
  -- Both bounds are named by the unbounded numbers that they are nearest to; the lower one is made in two steps.
  generalize hsum : nearestInt64 (start + least.toInt) = sum
  generalize hbefore : nearestInt64 (sum.toInt - 1) = before
  generalize hafter : nearestInt64 (start + greatest.toInt) = after
  replace hsum := toInt_nearestInt64 (start + least.toInt) ▸ congrArg Int64.toInt hsum
  replace hbefore := toInt_nearestInt64 (sum.toInt - 1) ▸ congrArg Int64.toInt hbefore
  replace hafter := toInt_nearestInt64 (start + greatest.toInt) ▸ congrArg Int64.toInt hafter
  refine ⟨_, _, toNat_clampInt64_of_exact ordered held (n := before) ?low,
    toNat_clampInt64_of_exact ordered held (n := after) ?high, ?cut⟩
  case low =>
    clear hafter
    omega
  case high =>
    clear hsum hbefore
    omega
  case cut =>
    rw [apply_ite (Option.getD · Reader.empty)]
    refine ite_congr (propext ?_) (fun _ => rfl) fun _ => rfl
    rw [Int64.lt_iff_toInt_lt, ← (toNat_clampInt64 ordered before).1, ← (toNat_clampInt64 ordered after).1,
      Int.ofNat_lt]

end Reader

/-! ### What a traversal hands out -/

/-- Asked until the end, a traversal hands out items and no error. -/
inductive Traversal.Hands (d : Dispatcher) : Traversal → Workspace → Sequence → Prop
  | ended {t t' : Traversal} {q q' : Workspace} (h : t.next d q = some (none, t', q')) : Hands d t q []
  | item {t t' : Traversal} {q q' : Workspace} {a : Item} {xs : Sequence}
    (h : t.next d q = some (some (.ok a), t', q')) (rest : Hands d t' q' xs) : Hands d t q (a :: xs)

namespace Traversal

variable {d : Dispatcher} {t t' : Traversal} {q q' : Workspace} {xs ys : Sequence}

namespace Hands

/-- What a traversal hands out is determined. -/
theorem unique (h : Hands d t q xs) (h' : Hands d t q ys) : xs = ys := by
  induction h generalizing ys with
  | ended h =>
    cases h' with
    | ended => rfl
    | item h' => rw [h] at h'; cases h'
  | item h rest ih =>
    cases h' with
    | ended h' => rw [h] at h'; cases h'
    | item h' rest' =>
      rw [h] at h'
      cases h'
      rw [ih rest']

theorem iff_eq (h : Hands d t q xs) : Hands d t q ys ↔ ys = xs :=
  ⟨fun h' => h'.unique h, fun heq => heq ▸ h⟩

/-- A turn that goes on. -/
theorem onward (same : t.next d q = t'.next d q') (h : Hands d t' q' xs) : Hands d t q xs := by
  cases h with
  | ended h => exact .ended (same.trans h)
  | item h rest => exact .item (same.trans h) rest

/-! ### Windows -/

theorem empty (d : Dispatcher) (q : Workspace) : Hands d (.reader .empty) q [] :=
  .ended (next_reader d .empty q)

/-- A window hands out the items from the next one to its end. -/
theorem window (d : Dispatcher) (items : Array Item) (start : Nat) {stop index : Nat}
    (within : stop ≤ items.size) (q : Workspace) :
    Hands d (.reader (.window items start stop index)) q ((items.toList.drop index).take (stop - index)) := by
  have told := next_reader d (.window items start stop index) q
  simp only [Reader.next, Reader.nextWith] at told
  induction left : stop - index generalizing index with
  | zero =>
    rw [if_neg (by omega)] at told
    exact .ended told
  | succ left ih =>
    have more : index < items.toList.length := by rw [Array.length_toList]; omega
    rw [List.drop_eq_getElem_cons more, List.take_succ_cons]
    rw [if_pos (by omega), Array.getElem?_eq_getElem (by omega)] at told
    exact .item told (ih (next_reader d _ q) (by omega))

/-- What is cut out of a window hands out the items at the positions asked for. -/
theorem slice (items : Array Item) {start stop : Nat} (ordered : start ≤ stop) (within : stop ≤ items.size)
    (held : start = 0 ∨ stop < 2 ^ 63 - 1) (least greatest : Int64) (index : Nat) (q : Workspace) :
    Hands d (.reader ((Reader.window items start stop index).slice least greatest)) q
      (Sequence.fromTo least.toInt greatest.toInt 1 (items.extract start stop).toList) := by
  obtain ⟨low, high, hlow, hhigh, cut⟩ :=
    Reader.slice_window items ordered held least greatest index
  -- As many items are asked for as there are between the bounds, also where these have crossed.
  have count : min (greatest.toInt + 1 - max least.toInt (1 : Nat)).toNat
      (stop - start - (least.toInt - (1 : Nat)).toNat) = high - low := by omega
  rw [cut, Sequence.fromTo_eq, Array.toList_extract, List.extract_eq_take_drop, List.drop_take, List.take_take,
    List.drop_drop, count]
  split
  case isTrue nonempty =>
    rw [show start + (least.toInt - (1 : Nat)).toNat = low by omega]
    exact window d items low (by omega) q
  case isFalse crossed =>
    rw [Nat.sub_eq_zero_of_le (Nat.le_of_not_lt crossed), List.take_zero]
    exact empty d q

/-- A reader of a list hands out the list. -/
theorem ofItems (d : Dispatcher) (q : Workspace) (xs : Sequence) :
    Hands d (.reader (.ofSource (.items xs))) q xs := by
  cases xs with
  | nil => exact empty d q
  | cons a xs =>
    have whole : Hands d (.reader (.window (a :: xs).toArray 0 (a :: xs).length 0)) q _ :=
      window d _ 0 (by simp) q
    rwa [List.drop_zero, Nat.sub_zero, List.take_length] at whole

/-! ### Counting -/

/-- Counting from a position hands out the items at the positions from `low` to `high`. -/
theorem between (h : Hands d t q xs) (low high : Int) (position : Nat) :
    Hands d (.between low high t position false) q (xs.fromTo low high (position + 1)) := by
  -- The source is not asked any more when the last position was counted, also if it has more items.
  induction h generalizing position with
  | @ended t t' q q' told =>
    by_cases last : high ≤ position
    · have alone : (Traversal.between low high t position false).asks? q = none := if_pos last
      exact .ended (next_of_alone alone)
    · have asked : (Traversal.between low high t position false).asks? q = some t := if_neg last
      exact .ended (next_of_told asked told)
  | @item t t' q q' a xs told rest ih =>
    by_cases last : high ≤ position
    · have alone : (Traversal.between low high t position false).asks? q = none := if_pos last
      rw [Sequence.fromTo_of_lt (by omega)]
      exact .ended (next_of_alone alone)
    · have asked : (Traversal.between low high t position false).asks? q = some t := if_neg last
      have turn := next_of_told asked told
      simp only [react] at turn
      by_cases reached : low ≤ position + 1
      · rw [if_pos reached] at turn
        rw [Sequence.fromTo_cons_of_mem (by omega)]
        exact .item turn (ih (position + 1))
      · rw [if_neg reached] at turn
        rw [Sequence.fromTo_cons_of_not_mem (by omega)]
        exact .onward turn (ih (position + 1))

end Hands

/-- **Slices are exact, and counting gives the same.**  Of a window `[start, stop)` on an array the positions from
`least` to `greatest` are cut out, whatever was read of it before: the new bounds are those that unbounded
integers give, so that no step of the computation leaves 64 bits unnoticed; they lie within the window; what is
read are the items at these positions, in their order; and there is nothing where there are no such positions.
Counting the items of a traversal without errors gives what a slice of an array of its items gives, and what a
reader of the list gives that a subsequence selects. -/
theorem slices_exact (d : Dispatcher) (items : Array Item) (least greatest : Int64) :
    (∀ start stop index, start ≤ stop → stop ≤ items.size → items.size < 2 ^ 63 - 1 →
      (∃ low high : Nat, (low : Int) = max (start : Int) (min stop (start + least.toInt - 1)) ∧
        (high : Int) = max (start : Int) (min stop (start + greatest.toInt)) ∧
        (Reader.window items start stop index).slice least greatest =
          if low < high then .window items low high low else .empty) ∧
      (∀ q, Hands d (.reader ((Reader.window items start stop index).slice least greatest)) q
        (Sequence.fromTo least.toInt greatest.toInt 1 (items.extract start stop).toList)) ∧
      ((Reader.window items start stop index).slice least greatest = .empty ↔
        ∀ p : Nat, 1 ≤ p → p ≤ stop - start → ¬ (least.toInt ≤ p ∧ p ≤ greatest.toInt))) ∧
    ∀ t q, Hands d t q items.toList → 1 ≤ least.toInt → ∀ ys,
      (Hands d (.between least.toInt greatest.toInt t 0 false) q ys ↔
        Hands d (.reader ((Reader.ofList items.toList).slice least greatest)) q ys) ∧
      (Hands d (.between least.toInt greatest.toInt t 0 false) q ys ↔
        Hands d (.reader (.ofSource (.items (slice items.toList least.toInt greatest.toInt)))) q ys) := by
  constructor
  · intro start stop index ordered within memory
    obtain ⟨low, high, hlow, hhigh, cut⟩ :=
      Reader.slice_window items ordered (.inr (by omega)) least greatest index
    refine ⟨⟨low, high, hlow, hhigh, cut⟩, .slice items ordered within (.inr (by omega)) least greatest index,
      ?_⟩
    rw [cut, ite_eq_right_iff]
    constructor
    · intro none p hp hpos inside
      have : low < high := by omega
      cases none this
    · intro none some
      refine absurd ⟨?_, ?_⟩ (none (low - start + 1) (by omega) (by omega)) <;> omega
  · intro t q source positive ys
    have counted := source.between least.toInt greatest.toInt 0
    have sliced := Hands.slice (d := d) items.toList.toArray (Nat.zero_le items.toList.length) (by simp)
      (.inl rfl) least greatest 0 q
    rw [List.extract_toArray, List.extract_eq_take_drop, List.drop_zero, Nat.sub_zero, List.take_length] at sliced
    refine ⟨counted.iff_eq.trans sliced.iff_eq.symm, ?_⟩
    rw [Sequence.slice_eq_fromTo]
    exact counted.iff_eq.trans (Hands.ofItems d q _).iff_eq.symm

/-- Of the window without the first and the last of five numbers the second position and those after it are cut
out, also when all of the window was read; and counting finds the same positions in the five numbers. -/
theorem slices_exact_fiveNumbers :
    let number (n : Int64) : Item := .atomic (.integer n)
    let five : Sequence := [number 1, number 2, number 3, number 4, number 5]
    Hands .none (.reader ((Reader.window five.toArray 1 4 4).slice 2 9223372036854775807)) (.ofPool .empty)
        [number 3, number 4] ∧
      Hands .none (.between 2 9 (.reader (.ofList five)) 0 false) (.ofPool .empty)
        [number 2, number 3, number 4, number 5] := by
  intro number five
  have cut := ((slices_exact .none five.toArray 2 9223372036854775807).1 1 4 4 (by decide) (by decide)
    (by decide)).2.1 (.ofPool .empty)
  have counted := ((slices_exact .none five.toArray 2 9).2 (.reader (.ofList five)) (.ofPool .empty)
    (Hands.ofItems .none _ five) (by decide) [number 2, number 3, number 4, number 5]).2
  exact ⟨cut, counted.mpr (Hands.ofItems .none _ _)⟩

end Traversal

end TreeQuery
