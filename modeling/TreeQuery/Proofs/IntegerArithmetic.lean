/-
Arithmetic on integers.

An operation on two integers of 64 bits gives the exact result where that fits into 64 bits, and an overflow where
it does not.  The one exception is the remainder of the least integer divided by -1.  It is zero, but it is refused
as an overflow because the quotient of the same division is one.

Main statements:

* `int64?_tdiv_eq_none_iff` — the least integer divided by -1 is the only quotient that does not fit;
* `Number.computeInts_eq` — an operation on integers, without the ways in which it is done;
* `Value.Computed` — the four things that can come of an operation, and when they do;
* `Value.compute_integers` — integers are exact or overflow, but for that remainder.
-/
import TreeQuery.Proofs.Positions

namespace TreeQuery

variable {x y n : Int64} {z : ℤ}

/-! ### Integers that fit -/

theorem int64?_eq_none_iff : int64? z = none ↔ ∀ n : Int64, n.toInt ≠ z := by
  rw [Option.eq_none_iff_forall_ne_some]
  exact forall_congr' fun n => not_congr int64?_eq_some_iff

/-- Only the quotient of the least integer and -1 does not fit. -/
theorem int64?_tdiv_eq_none_iff (hy : y ≠ 0) :
    int64? (x.toInt.tdiv y.toInt) = none ↔ x = Int64.minValue ∧ y = -1 := by
  constructor
  · intro h
    have hleast : Int64.minValue.toInt = -2 ^ 63 := rfl
    have hgreatest : Int64.maxValue.toInt = 2 ^ 63 - 1 := rfl
    have hfits : ¬ (-2 ^ 63 ≤ x.toInt.tdiv y.toInt ∧ x.toInt.tdiv y.toInt ≤ 2 ^ 63 - 1) := by
      intro hfits
      rw [int64?, hleast, hgreatest, if_pos hfits] at h
      exact Option.some_ne_none _ h
    have hx := x.le_toInt
    have hx' := x.toInt_lt
    have hy0 : y.toInt ≠ 0 := fun h0 => hy (Int64.toInt_inj.mp h0)
    have hquotient : (x.toInt.tdiv y.toInt).natAbs = x.toInt.natAbs / y.toInt.natAbs :=
      Int.natAbs_tdiv x.toInt y.toInt
    -- A divisor of two or more halves the dividend at least.
    have hone : y.toInt.natAbs = 1 := by
      refine Decidable.byContradiction fun hne => hfits ?_
      have hhalf : x.toInt.natAbs / y.toInt.natAbs ≤ x.toInt.natAbs / 2 :=
        Nat.div_le_div_left (by omega) (by omega)
      omega
    obtain hy1 | hy1 : y.toInt = 1 ∨ y.toInt = -1 := by omega
    · rw [hy1, Int.tdiv_one] at hfits
      omega
    · rw [hy1, Int.tdiv_neg, Int.tdiv_one] at hfits
      refine ⟨Int64.toInt_inj.mp ?_, Int64.toInt_inj.mp hy1⟩
      rw [hleast]
      omega
  · rintro ⟨rfl, rfl⟩
    rfl

/-! ### Operations on integers -/

namespace ArithmeticOp

/-- The exact result of an operation on integers, where division is meant to give the whole part of a quotient. -/
def exact (op : ArithmeticOp) (x y : ℤ) : ℤ :=
  match op with
  | .add => x + y
  | .sub => x - y
  | .mul => x * y
  | .div | .idiv => x.tdiv y
  | .mod => x - y * x.tdiv y

/-- Whether an operation divides by zero. -/
def DividesByZero (op : ArithmeticOp) (y : Int64) : Prop := (op = .idiv ∨ op = .mod) ∧ y = 0

/-- Whether an operation is the remainder whose quotient does not fit. -/
def LosesQuotient (op : ArithmeticOp) (x y : Int64) : Prop := op = .mod ∧ x = Int64.minValue ∧ y = -1

variable {op : ArithmeticOp}

instance (op : ArithmeticOp) (y : Int64) : Decidable (op.DividesByZero y) := inferInstanceAs (Decidable (_ ∧ _))

instance (op : ArithmeticOp) (x y : Int64) : Decidable (op.LosesQuotient x y) :=
  inferInstanceAs (Decidable (_ ∧ _ ∧ _))

/-- The remainder that is refused is zero. -/
theorem LosesQuotient.exact_eq_zero (h : op.LosesQuotient x y) : op.exact x.toInt y.toInt = 0 := by
  obtain ⟨rfl, rfl, rfl⟩ := h
  rfl

end ArithmeticOp

namespace Number

variable {op : ArithmeticOp}

theorem exact_of_fits (h : n.toInt = z) : exact z = .ok (.int n) := by
  rw [exact, int64?_eq_some_iff.mpr h]

theorem exact_of_not_fits (h : ∀ n : Int64, n.toInt ≠ z) : exact z = .error (.of .integerOverflow) := by
  rw [exact, int64?_eq_none_iff.mpr h]

/-- An operation on integers gives the exact result if it divides by no zero and loses no quotient. -/
theorem computeInts_eq (hop : op ≠ .div) (x y : Int64) :
    computeInts op x y =
      if op.DividesByZero y then .error (.of .divisionByZero)
      else if op.LosesQuotient x y then .error (.of .integerOverflow)
      else exact (op.exact x.toInt y.toInt) := by
  cases op with
  | div => exact absurd rfl hop
  | add | sub | mul => simp [computeInts, ArithmeticOp.DividesByZero, ArithmeticOp.LosesQuotient, ArithmeticOp.exact]
  | idiv => simp [computeInts, ArithmeticOp.DividesByZero, ArithmeticOp.LosesQuotient, ArithmeticOp.exact]
  | mod =>
    by_cases hy : y = 0
    · simp [computeInts, ArithmeticOp.DividesByZero, hy]
    · have hlost : ArithmeticOp.LosesQuotient .mod x y ↔ int64? (x.toInt.tdiv y.toInt) = none := by
        simp [ArithmeticOp.LosesQuotient, int64?_tdiv_eq_none_iff hy]
      rw [computeInts, if_neg hy, if_neg fun h => hy h.2]
      cases hquotient : int64? (x.toInt.tdiv y.toInt) with
      | none => rw [if_pos (hlost.mpr hquotient)]
      | some q =>
        rw [if_neg (mt hlost.mp (by simp [hquotient])), ArithmeticOp.exact, Int.tmod_def]

end Number

/-! ### Values -/

namespace Value

variable {op : ArithmeticOp} {calculator : Calculator}

/-- What comes of an operation on two integers. -/
inductive Computed (op : ArithmeticOp) (x y : Int64) : Except Error Value → Prop where
  | zero : op.DividesByZero y → Computed op x y (.error (.of .divisionByZero))
  | lost : ¬ op.DividesByZero y → op.LosesQuotient x y → Computed op x y (.error (.of .integerOverflow))
  | fits (n : Int64) : ¬ op.DividesByZero y → ¬ op.LosesQuotient x y → n.toInt = op.exact x.toInt y.toInt →
    Computed op x y (.ok (.integer n))
  | overflow : ¬ op.DividesByZero y → (∀ n : Int64, n.toInt ≠ op.exact x.toInt y.toInt) →
    Computed op x y (.error (.of .integerOverflow))

variable {r : Except Error Value}

theorem Computed.divisionByZero_iff (h : Computed op x y r) :
    (∃ e, r = .error e ∧ e.code = ErrorCode.FOAR0001.name) ↔ op.DividesByZero y := by
  constructor
  · rintro ⟨e, rfl, hcode⟩
    cases h with
    | zero hzero => exact hzero
    | lost => exact absurd hcode (by decide)
    | overflow => exact absurd hcode (by decide)
  · intro hzero
    cases h with
    | zero => exact ⟨_, rfl, rfl⟩
    | lost hzero' => exact absurd hzero hzero'
    | fits n hzero' => exact absurd hzero hzero'
    | overflow hzero' => exact absurd hzero hzero'

theorem Computed.overflow_iff (h : Computed op x y r) (hzero : ¬ op.DividesByZero y) :
    (∃ e, r = .error e ∧ e.code = ErrorCode.FOAR0002.name) ↔
      op.LosesQuotient x y ∨ ∀ n : Int64, n.toInt ≠ op.exact x.toInt y.toInt := by
  constructor
  · rintro ⟨e, rfl, hcode⟩
    cases h with
    | zero => exact absurd hcode (by decide)
    | lost _ hlost => exact .inl hlost
    | overflow _ hfits => exact .inr hfits
  · intro hfails
    cases h with
    | zero hzero' => exact absurd hzero' hzero
    | lost => exact ⟨_, rfl, rfl⟩
    | fits n _ hlost hn => exact (hfails.elim hlost fun hfits => hfits n hn).elim
    | overflow => exact ⟨_, rfl, rfl⟩

theorem Computed.eq_exact (h : Computed op x y r) (hzero : ¬ op.DividesByZero y) (hlost : ¬ op.LosesQuotient x y)
    (hn : n.toInt = op.exact x.toInt y.toInt) : r = .ok (.integer n) := by
  cases h with
  | zero hzero' => exact absurd hzero' hzero
  | lost _ hlost' => exact absurd hlost' hlost
  | fits n' _ _ hn' => rw [Int64.toInt_inj.mp (hn'.trans hn.symm)]
  | overflow _ hfits => exact absurd hn (hfits n)

theorem Computed.exact_of_ok (h : Computed op x y (.ok (.integer n))) : n.toInt = op.exact x.toInt y.toInt := by
  cases h with
  | fits n _ _ hn => exact hn

theorem compute_eq_computeInts (hc : calculator = .generic ∨ calculator = .integer) (op : ArithmeticOp)
    (x y : Int64) :
    compute op (.integer x) (.integer y) calculator = (Number.computeInts op x y).map Number.toValue := by
  have hpair : compute op (.integer x) (.integer y) calculator =
      (do return (← Number.computeInts op x y).toValue) := by
    obtain rfl | rfl := hc <;> rfl
  rw [hpair]
  cases Number.computeInts op x y <;> rfl

theorem computed_compute (hop : op ≠ .div) (hc : calculator = .generic ∨ calculator = .integer) (x y : Int64) :
    Computed op x y (compute op (.integer x) (.integer y) calculator) := by
  rw [compute_eq_computeInts hc, Number.computeInts_eq hop]
  by_cases hzero : op.DividesByZero y
  · rw [if_pos hzero]
    exact .zero hzero
  rw [if_neg hzero]
  by_cases hlost : op.LosesQuotient x y
  · rw [if_pos hlost]
    exact .lost hzero hlost
  rw [if_neg hlost]
  by_cases hfits : ∃ n : Int64, n.toInt = op.exact x.toInt y.toInt
  · obtain ⟨n, hn⟩ := hfits
    rw [Number.exact_of_fits hn]
    exact .fits n hzero hlost hn
  · have hfits : ∀ n : Int64, n.toInt ≠ op.exact x.toInt y.toInt := fun n hn => hfits ⟨n, hn⟩
    rw [Number.exact_of_not_fits hfits]
    exact .overflow hzero hfits

/-- **Integers are exact or overflow**, with a calculator for integers or one that looks at its operands.  An
operation fails for a division by zero if and only if it divides by zero.  Otherwise it gives the exact result where
that fits into 64 bits and fails for an overflow where it does not; but it fails so, too, for the remainder of the
least integer divided by -1, although that is zero.  Quotient and remainder give the dividend. -/
theorem compute_integers (hop : op ≠ .div) (hc : calculator = .generic ∨ calculator = .integer) (x y : Int64) :
    let result (o : ArithmeticOp) := compute o (.integer x) (.integer y) calculator
    let fails (code : ErrorCode) := ∃ e, result op = .error e ∧ e.code = code.name
    (fails .FOAR0001 ↔ op.DividesByZero y) ∧
    (¬ op.DividesByZero y →
      (∀ n : Int64, ¬ op.LosesQuotient x y → n.toInt = op.exact x.toInt y.toInt → result op = .ok (.integer n)) ∧
      (fails .FOAR0002 ↔ op.LosesQuotient x y ∨ ∀ n : Int64, n.toInt ≠ op.exact x.toInt y.toInt)) ∧
    (op.LosesQuotient x y → op.exact x.toInt y.toInt = 0) ∧
    ∀ q r, result .idiv = .ok (.integer q) → result .mod = .ok (.integer r) →
      x.toInt = y.toInt * q.toInt + r.toInt := by
  intro result fails
  have computed (o : ArithmeticOp) (ho : o ≠ .div) : Computed o x y (result o) := computed_compute ho hc x y
  refine ⟨(computed op hop).divisionByZero_iff, fun hzero => ⟨?_, (computed op hop).overflow_iff hzero⟩,
    ArithmeticOp.LosesQuotient.exact_eq_zero, ?_⟩
  · intro n hlost hn
    exact (computed op hop).eq_exact hzero hlost hn
  · intro q r hq hr
    have hquotient : q.toInt = x.toInt.tdiv y.toInt := (hq ▸ computed .idiv (by decide)).exact_of_ok
    have hremainder : r.toInt = x.toInt - y.toInt * x.toInt.tdiv y.toInt :=
      (hr ▸ computed .mod (by decide)).exact_of_ok
    rw [hquotient, hremainder]
    omega

/-- The remainder of the least integer divided by -1 is zero and is refused; with 2 for the divisor it is not. -/
theorem compute_integers_leastInteger :
    ArithmeticOp.mod ≠ .div ∧ (Calculator.generic = .generic ∨ Calculator.generic = .integer) ∧
      ArithmeticOp.mod.exact Int64.minValue.toInt (-1) = 0 ∧
      (∃ e, compute .mod (.integer Int64.minValue) (.integer (-1)) .generic = .error e ∧
        e.code = ErrorCode.FOAR0002.name) ∧
      compute .mod (.integer Int64.minValue) (.integer 2) .generic = .ok (.integer 0) := by
  have hop : ArithmeticOp.mod ≠ .div := by decide
  have hc : Calculator.generic = .generic ∨ Calculator.generic = .integer := .inl rfl
  obtain ⟨-, refused, zero, -⟩ := compute_integers hop hc Int64.minValue (-1)
  obtain ⟨-, given, -, -⟩ := compute_integers hop hc Int64.minValue 2
  have hlost : ArithmeticOp.mod.LosesQuotient Int64.minValue (-1) := by decide
  refine ⟨hop, hc, zero hlost, (refused (by decide)).2.mpr (.inl hlost), ?_⟩
  exact (given (by decide)).1 0 (by decide) (by decide)

end Value

end TreeQuery
