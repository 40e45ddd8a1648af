/-
Runs of integers, and how many they are.

A reader of a run hands out the integers from the lower bound to the upper one, however near the bounds are to the
ends of 64 bits (`Reader.yields_ofRange`): the next integer is computed only while the upper bound is not reached.
The run of all integers of 64 bits has one item more than a length can say (`spanLength_le_maxLength_iff`), and a run
of more than half of them has more items than an integer can say.

**Main result** (`Expr.range_counted`): lengths and counts of a run are right as far as they go, and beyond that the
greatest length or the greatest integer.
-/
import Mathlib.Data.Int.Range
import TreeQuery.Proofs.Evaluation
import TreeQuery.Sequence.Reader

namespace TreeQuery

variable {low high n : Int64} {p : Pool}

/-- A reader that leaves the pool alone gives these items one after the other, and then the end, however often it is
asked. -/
inductive Reader.Yields (p : Pool) : Reader → Sequence → Prop where
  | ended {r : Reader} : r.next p = (none, r, p) → Yields p r []
  | item {r r' : Reader} {a : Item} {xs : Sequence} :
      r.next p = (some (.ok a), r', p) → Yields p r' xs → Yields p r (a :: xs)

/-- The integers of 64 bits between two bounds, both included. -/
def integersBetween (low high : Int64) : List Int64 :=
  (Int.range low.toInt (high.toInt + 1)).map Int64.ofInt

theorem length_integersBetween (low high : Int64) : (integersBetween low high).length = spanLength low high := by
  rw [integersBetween, List.length_map, Int.range, List.length_map, List.length_range, spanLength]
  congr 1
  omega

/-- They are what they are between the bounds as unbounded integers. -/
theorem map_toInt_integersBetween (low high : Int64) :
    (integersBetween low high).map Int64.toInt = Int.range low.toInt (high.toInt + 1) := by
  have within : ∀ z ∈ Int.range low.toInt (high.toInt + 1), (Int64.ofInt z).toInt = z := by
    intro z hz
    rw [Int.mem_range_iff] at hz
    have := low.le_toInt
    have := high.toInt_lt
    exact Int64.toInt_ofInt_of_le (by omega) (by omega)
  rw [integersBetween, List.map_map]
  exact (List.map_congr_left within).trans (List.map_id _)

theorem integersBetween_of_lt (h : high < low) : integersBetween low high = [] := by
  rw [Int64.lt_iff_toInt_lt] at h
  rw [← List.length_eq_zero_iff, length_integersBetween, spanLength]
  omega

theorem integersBetween_of_le (h : n ≤ high) :
    integersBetween n high = n :: (Int.range (n.toInt + 1) (high.toInt + 1)).map Int64.ofInt := by
  rw [Int64.le_iff_toInt_le] at h
  have hcount : (high.toInt + 1 - n.toInt).toNat = (high.toInt + 1 - (n.toInt + 1)).toNat + 1 := by omega
  simp only [integersBetween, Int.range, hcount, List.range_succ_eq_map, List.map_cons, List.map_map]
  refine List.cons_eq_cons.mpr ⟨by simp, List.map_congr_left fun k _ => ?_⟩
  show Int64.ofInt (n.toInt + ((k + 1 : ℕ) : ℤ)) = Int64.ofInt (n.toInt + 1 + k)
  congr 1
  omega

namespace Reader

/-- The integers between two bounds as items. -/
def itemsBetween (low high : Int64) : Sequence := (integersBetween low high).map fun n => .atomic (.integer n)

theorem yields_range (h : n ≤ high) : (range low high (some n)).Yields p (itemsBetween n high) := by
  rw [itemsBetween, integersBetween_of_le h]
  -- On how far the upper bound is.
  generalize hleft : (high.toInt - n.toInt).toNat = left
  induction left generalizing n with
  | zero =>
    rw [Int64.le_iff_toInt_le] at h
    have hlast : ¬ n < high := by
      rw [Int64.lt_iff_toInt_lt]
      omega
    have hnone : Int.range (n.toInt + 1) (high.toInt + 1) = [] := by
      rw [Int.range, show (high.toInt + 1 - (n.toInt + 1)).toNat = 0 by omega]
      rfl
    rw [hnone]
    have hnext : (range low high (some n)).next p = (some (.ok (.atomic (.integer n))), range low high none, p) := by
      simp only [next, nextWith, if_neg hlast]
    exact .item hnext (.ended rfl)
  | succ left ih =>
    have hmore : n < high := by
      rw [Int64.lt_iff_toInt_lt]
      omega
    have hnext := toInt_add_one hmore
    have hle : n + 1 ≤ high := by
      rw [Int64.lt_iff_toInt_lt] at hmore
      rw [Int64.le_iff_toInt_le]
      omega
    have hturn : (range low high (some n)).next p =
        (some (.ok (.atomic (.integer n))), range low high (some (n + 1)), p) := by
      simp only [next, nextWith, if_pos hmore]
    have hlater := ih hle (by omega)
    rw [← integersBetween_of_le hle, integersBetween, hnext] at hlater
    exact .item hturn hlater

/-- A reader of a run hands out the integers between its bounds. -/
theorem yields_ofRange (low high : Int64) (p : Pool) : (ofRange low high).Yields p (itemsBetween low high) := by
  unfold ofRange
  split
  case isTrue h => exact yields_range h
  case isFalse h =>
    have hlt : high < low := by
      rw [Int64.le_iff_toInt_le] at h
      rw [Int64.lt_iff_toInt_lt]
      omega
    rw [itemsBetween, integersBetween_of_lt hlt]
    exact .ended rfl

end Reader

/-! ### Lengths and counts -/

/-- Only the integers of 64 bits all together are more than a length can say. -/
theorem spanLength_le_maxLength_iff (low high : Int64) :
    spanLength low high ≤ maxLength ↔ ¬ (low = Int64.minValue ∧ high = Int64.maxValue) := by
  have hmax : maxLength = 2 ^ 64 - 1 := by decide
  have least : Int64.minValue.toInt = -2 ^ 63 := by decide
  have greatest : Int64.maxValue.toInt = 2 ^ 63 - 1 := by decide
  have := low.le_toInt
  have := high.toInt_lt
  rw [← Int64.toInt_inj, ← Int64.toInt_inj, spanLength, hmax, least, greatest]
  omega

/-- A length as a value is the nearest integer. -/
theorem exists_lengthValue (k : ℕ) :
    ∃ n : Int64, n.toInt = min (k : ℤ) Int64.maxValue.toInt ∧ lengthValue k = .integer n := by
  have greatest : Int64.maxValue.toInt = 2 ^ 63 - 1 := by decide
  refine ⟨_, ?_, rfl⟩
  rw [greatest]
  exact Int64.toInt_ofInt_of_le (by omega) (by omega)

namespace Expr

variable {d : Dispatcher} {c : Context} {a b : Operand} {role : Role} {i j : Info}

/-- A count of a run is the number of its integers, as a value. -/
theorem run_count_range (h : low ≤ high) (ha : (a.expr.run d c).integer? c.forest = .ok (some low))
    (hb : (b.expr.run d c).integer? c.forest = .ok (some high)) :
    (variadic (.call .count) [⟨role, binary .range a b i⟩] j).run d c =
      .ofList [.atomic (lengthValue (spanLength low high))] := by
  have hrange : (binary .range a b i).run d c = (Source.range low high).trace := by
    rw [run_range, ha, hb]
    exact congrArg Trace.ofResult (congrArg Except.ok (if_pos h))
  rw [run_count, show Operand.expr ⟨role, binary .range a b i⟩ = binary .range a b i from rfl, hrange,
    Source.trace_range, Trace.result_ofList]
  show Trace.ofList [.atomic (lengthValue (List.length (List.map _ _)))] = _
  rw [List.length_map, List.length_range]

/-- **Lengths and counts of runs.**  A reader of the run from `low` to `high` hands out the integers from `low` to
`high` in this order, and then the end.  The length it tells is their number, except that the run of all integers
has one more than the greatest length, which is told instead.  And a count of the run is their number as an integer,
or the greatest integer if that is less. -/
theorem range_counted (h : low ≤ high) (ha : (a.expr.run d c).integer? c.forest = .ok (some low))
    (hb : (b.expr.run d c).integer? c.forest = .ok (some high)) :
    ∃ ns : List Int64, ns.map Int64.toInt = Int.range low.toInt (high.toInt + 1) ∧
      (∀ p, (Reader.ofRange low high).Yields p (ns.map fun n => .atomic (.integer n))) ∧
      (Reader.ofRange low high).length? = some (min ns.length maxLength) ∧
      (ns.length ≤ maxLength ↔ ¬ (low = Int64.minValue ∧ high = Int64.maxValue)) ∧
      ∃ n : Int64, n.toInt = min (ns.length : ℤ) Int64.maxValue.toInt ∧
        (((variadic (.call .count) [⟨role, binary .range a b i⟩] j).behaviour d).collect c).outcome =
          .ok [.atomic (.integer n)] := by
  have hlength := length_integersBetween low high
  obtain ⟨n, hn, hvalue⟩ := exists_lengthValue (spanLength low high)
  refine ⟨integersBetween low high, map_toInt_integersBetween low high, Reader.yields_ofRange low high, ?_, ?_, n, ?_, ?_⟩
  · rw [hlength]
    rfl
  · rw [hlength]
    exact spanLength_le_maxLength_iff low high
  · rw [hlength]
    exact hn
  · rw [collect_eq_ok_iff, run_count_range h ha hb, hvalue]

/-- A bound of a run. -/
def bound (n : Int64) : Operand := ⟨.atomic, literal [.integer n] .unknown⟩

/-- A count of the integers between two bounds. -/
def countBetween (low high : Int64) : Expr :=
  ofVariadic (.call .count) [⟨.navigate, ofBinary .range (bound low) (bound high) .unknown⟩] .unknown

theorem integer?_bound (d : Dispatcher) (c : Context) (n : Int64) :
    ((bound n).expr.run d c).integer? c.forest = .ok (some n) :=
  congrArg (Trace.integer? c.forest) (run_literal [.integer n])

theorem range_counted_oneToThree :
    (1 : Int64) ≤ 3 ∧
      ((bound 1).expr.run .none (.initial .empty)).integer? .empty = .ok (some 1) ∧
      ((bound 3).expr.run .none (.initial .empty)).integer? .empty = .ok (some 3) ∧
      ∃ ns : List Int64, ns.map Int64.toInt = [1, 2, 3] ∧
        ∃ n : Int64, n.toInt = min (ns.length : ℤ) Int64.maxValue.toInt ∧
          (((countBetween 1 3).behaviour .none).collect (.initial .empty)).outcome = .ok [.atomic (.integer n)] := by
  have one := integer?_bound .none (.initial .empty) 1
  have three := integer?_bound .none (.initial .empty) 3
  obtain ⟨ns, hns, -, -, -, n, hn, hcount⟩ :=
    range_counted (show (1 : Int64) ≤ 3 by decide) one three
  exact ⟨by decide, one, three, ns, hns.trans (by decide), n, hn, hcount⟩

/-- Neither the length nor the count is the number of integers for all runs.  The run of all integers has one more than
its length says, and the run of those from 0 on one more than its count. -/
theorem exists_range_miscounted :
    (∃ xs : Sequence,
      (Reader.ofRange Int64.minValue Int64.maxValue).Yields .empty xs ∧
        xs.length = 18446744073709551616 ∧
        (Reader.ofRange Int64.minValue Int64.maxValue).length? = some 18446744073709551615) ∧
      ∃ xs : Sequence, (Reader.ofRange 0 Int64.maxValue).Yields .empty xs ∧
        xs.length = 9223372036854775808 ∧
        (((countBetween 0 Int64.maxValue).behaviour .none).collect (.initial .empty)).outcome =
          .ok [.atomic (.integer 9223372036854775807)] := by
  have length (low high : Int64) : (Reader.itemsBetween low high).length = spanLength low high := by
    rw [Reader.itemsBetween, List.length_map, length_integersBetween]
  have all : spanLength Int64.minValue Int64.maxValue = 18446744073709551616 := by decide
  have half : spanLength 0 Int64.maxValue = 9223372036854775808 := by decide
  refine ⟨⟨_, Reader.yields_ofRange .., (length ..).trans all, by decide⟩, _, Reader.yields_ofRange ..,
    (length ..).trans half, ?_⟩
  refine collect_eq_ok_iff.mpr ((run_count_range (by decide) (integer?_bound ..) (integer?_bound ..)).trans ?_)
  rw [half]
  rfl

end Expr

end TreeQuery
