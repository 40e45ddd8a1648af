/-
Chosen calculators and operands that are looked at.

A calculator that is chosen for the types of the operands comes to the same value, or to an error with the same
code, as one that looks at the operands themselves (`Value.ComputesAlike`).  The exception are integers where
a calculator for decimals was chosen: it takes them for the decimals that they are, and a sum, a difference
or a product of decimals is a decimal.

Main statements:

* `Number.computeDecimals_alike_iff` — when two integers come to the same as the decimals that they are;
* `ArithmeticOp.suitsDecimals_idiv` — the whole part of a quotient does if doubles hold both exactly;
* `Value.compute_select_iff` — when the chosen calculator comes to the same as the generic one;
* `Value.compute_select_differs` — a sum of integers of which one may be any decimal.
-/
import TreeQuery.Proofs.Calculators
import TreeQuery.Proofs.Quotients

namespace TreeQuery

/-- Whether an operation on two integers comes to the same on the decimals that they are: never where the result
would be an integer of its own, always where it is a decimal anyway, and else if there is no result, or the
quotient of the doubles has the whole part that the integer quotient is. -/
def ArithmeticOp.SuitsDecimals (x y : Int64) : ArithmeticOp → Prop
  | .add => False
  | .sub => False
  | .mul => False
  | .div => True
  | .mod => y = 0
  | .idiv => y = 0 ∨
      (Unpacked.ofDouble (doubleOfInt x.toInt / doubleOfInt y.toInt)).truncate?.bind int64? =
        int64? (x.toInt.tdiv y.toInt)

theorem ArithmeticOp.suitsDecimals_idiv {x y : Int64} (hx : x.toInt.natAbs < 2 ^ 53)
    (hy : y.toInt.natAbs < 2 ^ 53) : ArithmeticOp.idiv.SuitsDecimals x y := by
  by_cases hzero : y = 0
  · exact .inl hzero
  · refine .inr ?_
    rw [truncate_quotient hx hy (fun h => hzero (Int64.toInt_inj.mp h))]
    rfl

/-! ### Integers and the decimals that they are -/

namespace Number

variable {x y : Int64}

/-- An integer of 64 bits is a number as a double, too. -/
theorem exists_denotes (x : Int64) : ∃ r, Denotes (doubleOfInt x.toInt) r := by
  have := x.le_toInt
  have := x.toInt_lt
  obtain ⟨c, -, hc⟩ := denotes_doubleOfInt (n := x.toInt) (by omega)
  exact ⟨c, hc⟩

theorem doubleOfInt_beq_zero_iff (y : Int64) : (doubleOfInt y.toInt == doubleOfInt 0) = true ↔ y = 0 := by
  have := y.le_toInt
  have := y.toInt_lt
  rw [doubleOfInt_beq_iff (by omega) (by norm_num), ← Int64.toInt_inj]
  rfl

/-- The number of an integer that fits into 64 bits, or the error that none does. -/
def ofFitting (i? : Option Int64) : Except Error Number :=
  i?.elim (.error (.of .integerOverflow)) fun i => .ok (.int i)

theorem exact_eq (n : Int) : Number.exact n = ofFitting (int64? n) := by
  unfold Number.exact
  cases int64? n <;> rfl

/-- Two of them come to the same only for the same integer. -/
theorem ofFitting_alike_iff (i? j? : Option Int64) :
    ((ofFitting i?).map toValue).mapError Error.code = ((ofFitting j?).map toValue).mapError Error.code ↔
      i? = j? := by
  refine ⟨fun h => ?_, fun h => by rw [h]⟩
  cases i? with
  | none =>
    cases j? with
    | none => rfl
    | some j => cases h
  | some i =>
    cases j? with
    | none => cases h
    | some j =>
      have hvalue : Value.integer i = .integer j := Except.ok.inj h
      rw [Value.integer.inj hvalue]

/-- The whole part of a quotient, and whether it fits. -/
theorem quotient_eq (hy : y ≠ 0) : quotient (doubleOfInt x.toInt) (doubleOfInt y.toInt) =
    ofFitting ((Unpacked.ofDouble (doubleOfInt x.toInt / doubleOfInt y.toInt)).truncate?.bind int64?) := by
  obtain ⟨r, hr⟩ := exists_denotes x
  obtain ⟨r', hr'⟩ := exists_denotes y
  have hnumber : ¬ ((doubleOfInt x.toInt).isNaN || (doubleOfInt y.toInt).isNaN ||
      (doubleOfInt x.toInt).isInf) = true := by
    simp only [Bool.or_eq_true, isNaN_iff, isInf_iff]
    rintro ((h | h) | ⟨s, h⟩)
    · exact hr.form_ne.1 h
    · exact hr'.form_ne.1 h
    · exact hr.form_ne.2 s h
  rw [quotient, if_neg (mt (doubleOfInt_beq_zero_iff y).mp hy), if_neg hnumber]
  cases (Unpacked.ofDouble (doubleOfInt x.toInt / doubleOfInt y.toInt)).truncate? with
  | none => rfl
  | some n => exact exact_eq n

theorem quotient_zero : quotient (doubleOfInt x.toInt) (doubleOfInt (0 : Int64).toInt) = .error (.of .divisionByZero) :=
  if_pos ((doubleOfInt_beq_zero_iff 0).mpr rfl)

/-- An operation on integers that is no division comes to an integer. -/
theorem type_computeInts {op : ArithmeticOp} (hop : op ≠ .div) {n : Number} (h : computeInts op x y = .ok n) :
    n.toValue.type = .integer := by
  by_cases hidiv : op = .idiv
  · subst hidiv
    obtain ⟨i, rfl⟩ := exists_int_of_idiv (p := .ints x y) h
    rfl
  · rcases type_computePair (p := .ints x y) h hidiv with htype | ⟨-, hdiv⟩
    · exact htype
    · exact absurd hdiv hop

/-- So it does not come to a decimal. -/
theorem decimal_ne_computeInts {op : ArithmeticOp} (hop : op ≠ .div) (z : Float) :
    ¬ ((.ok (dec z) : Except Error Number).map toValue).mapError Error.code =
      ((computeInts op x y).map toValue).mapError Error.code := by
  intro h
  cases hints : computeInts op x y with
  | error e =>
    rw [hints] at h
    cases h
  | ok n =>
    rw [hints] at h
    have hvalue : Value.decimal z = n.toValue := Except.ok.inj h
    have htype := type_computeInts hop hints
    rw [← hvalue] at htype
    cases htype

/-- Two integers come to the same as the decimals that they are if and only if the operation suits them. -/
theorem computeDecimals_alike_iff (op : ArithmeticOp) :
    ((computeDecimals op (doubleOfInt x.toInt) (doubleOfInt y.toInt)).map toValue).mapError Error.code =
      ((computeInts op x y).map toValue).mapError Error.code ↔ op.SuitsDecimals x y := by
  cases op with
  | add => exact iff_of_false (decimal_ne_computeInts (by simp) _) id
  | sub => exact iff_of_false (decimal_ne_computeInts (by simp) _) id
  | mul => exact iff_of_false (decimal_ne_computeInts (by simp) _) id
  | div => exact iff_of_true (by rw [computeDecimals_div]) trivial
  | mod =>
    by_cases hy : y = 0
    · subst hy
      refine iff_of_true ?_ rfl
      rw [computeDecimals, if_pos ((doubleOfInt_beq_zero_iff 0).mpr rfl)]
      rfl
    · refine iff_of_false ?_ hy
      rw [computeDecimals, if_neg (mt (doubleOfInt_beq_zero_iff y).mp hy)]
      exact decimal_ne_computeInts (by simp) _
  | idiv =>
    by_cases hy : y = 0
    · subst hy
      refine iff_of_true ?_ (.inl rfl)
      rw [computeDecimals, quotient_zero]
      rfl
    · refine Iff.trans ?_ (or_iff_right hy).symm
      rw [computeDecimals, quotient_eq hy, computeInts, if_neg hy, exact_eq]
      exact ofFitting_alike_iff _ _

end Number

namespace Value

/-- Whether a calculator comes to the same value as one that looks at the operands, or to an error with the same
code. -/
def ComputesAlike (op : ArithmeticOp) (a b : Value) (calculator : Calculator) : Prop :=
  (compute op a b calculator).mapError Error.code = (compute op a b .generic).mapError Error.code

/-- **When a calculator may be chosen in advance.**  A calculator that is chosen for types of the operands comes to
the same value of the same type as the generic one, or to an error with the same code, unless a calculator for
decimals is chosen and both operands are integers; there it does so if and only if the operation suits them, as
the whole part of a quotient does if both are below `2 ^ 53`. -/
theorem compute_select_iff (op : ArithmeticOp) (a b : Value) (s t : AtomicType)
    (ha : a.type.isSubtypeOf s = true) (hb : b.type.isSubtypeOf t = true) :
    (ComputesAlike op a b (.select op s t) ↔
      (Calculator.select op s t = .decimal → ∀ x y, a = .integer x → b = .integer y → op.SuitsDecimals x y)) ∧
      (op = .idiv → (∀ x, a = .integer x → x.toInt.natAbs < 2 ^ 53) →
        (∀ y, b = .integer y → y.toInt.natAbs < 2 ^ 53) → ComputesAlike op a b (.select op s t)) := by
  have alike_iff : ComputesAlike op a b (.select op s t) ↔
      (Calculator.select op s t = .decimal → ∀ x y, a = .integer x → b = .integer y → op.SuitsDecimals x y) := by
    by_cases hmixed : Calculator.select op s t = .decimal ∧ ∃ x y, a = .integer x ∧ b = .integer y
    · obtain ⟨hdecimal, x, y, rfl, rfl⟩ := hmixed
      rw [ComputesAlike, hdecimal, compute_decimal, compute_generic, Number.computeDecimals_alike_iff]
      exact ⟨by rintro h - _ _ ⟨⟩ ⟨⟩; exact h, fun h => h rfl x y rfl rfl⟩
    · have mixed : Calculator.select op s t = .decimal → ∀ x y, a = .integer x → b = .integer y → False :=
        fun hdecimal x y hx hy => hmixed ⟨hdecimal, x, y, hx, hy⟩
      exact iff_of_true (by rw [ComputesAlike, compute_select_eq ha hb mixed])
        fun hdecimal x y hx hy => (mixed hdecimal x y hx hy).elim
  refine ⟨alike_iff, ?_⟩
  rintro rfl hx hy
  exact alike_iff.mpr fun _ x y hxa hyb => ArithmeticOp.suitsDecimals_idiv (hx x hxa) (hy y hyb)

/-- Seven and two, of which one may be any decimal: their whole quotient is found in either way. -/
theorem compute_select_iff_sevenHalves :
    (Value.integer 7).type.isSubtypeOf .decimal = true ∧ (Value.integer 2).type.isSubtypeOf .integer = true ∧
      Calculator.select .idiv .decimal .integer = .decimal ∧
      ComputesAlike .idiv (.integer 7) (.integer 2) .decimal := by
  refine ⟨rfl, rfl, rfl, (compute_select_iff .idiv (.integer 7) (.integer 2) .decimal .integer rfl rfl).2 rfl ?_ ?_⟩
  · rintro x ⟨⟩
    decide
  · rintro y ⟨⟩
    decide

/-- The sum of one and one is a decimal if one of them was known to be a decimal, and an integer if both are looked
at. -/
theorem compute_select_differs : ¬ ∀ op a b s t, a.type.isSubtypeOf s = true → b.type.isSubtypeOf t = true →
    ComputesAlike op a b (.select op s t) := by
  intro h
  have hsum := h .add (.integer 1) (.integer 1) .decimal .integer rfl rfl
  cases hsum

end Value

end TreeQuery
