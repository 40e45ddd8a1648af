/-
Chosen calculators.

An arithmetic operation is done in the wider of the types of the two numbers.  The calculator that is chosen for types
of the operands does it in the same type (`Calculator.promote_coerce`), and so to the same result
(`Value.compute_select`), with one exception: what is chosen for decimals takes two integers for decimals, although
integers are decimals that stay what they are.  A quotient of integers is a decimal in any case
(`Number.computeDecimals_div`).

Conversion of untyped values is what an operation would do itself with such a value (`Value.exists_converted`), and
texts compare as untyped values do (`Value.exists_compared`).
-/
import TreeQuery.Proofs.Positions
import TreeQuery.Proofs.Singles
import TreeQuery.Proofs.ValueTypes

namespace TreeQuery

/-! ### Calculators -/

namespace Calculator

variable {op : ArithmeticOp} {s t : AtomicType} {m n : Number}

/-- Nothing is chosen where a value need not be a number. -/
theorem select_eq_generic (h : s.mayBeUntyped = true ∨ t.mayBeUntyped = true) : select op s t = .generic := by
  rcases h with h | h <;> cases s <;> cases t <;> first | rfl | cases h

/-- Singles are chosen where one of the types is theirs, and the other one is no wider. -/
theorem select_eq_float (h : select op s t = .float) :
    s = .float ∧ (t = .float ∨ t.isSubtypeOf .decimal = true) ∨ t = .float ∧ s.isSubtypeOf .decimal = true := by
  by_cases hdiv : op = .div <;> cases s <;> cases t <;> simp_all [select, width?] <;> decide

theorem select_eq_double (h : select op s t = .double) : s = .double ∨ t = .double := by
  by_cases hdiv : op = .div <;> cases s <;> cases t <;> simp_all [select, width?]

theorem exists_single (h : m.toValue.type.isSubtypeOf .float = true) : ∃ x, m = .single x := by
  cases m <;> first | exact ⟨_, rfl⟩ | cases h

theorem exists_double (h : m.toValue.type.isSubtypeOf .double = true) : ∃ x, m = .double x := by
  cases m <;> first | exact ⟨_, rfl⟩ | cases h

/-- An integer may be a decimal. -/
theorem exists_decimal (h : m.toValue.type.isSubtypeOf .decimal = true) :
    (∃ x, m = .int x) ∨ ∃ x, m = .dec x := by
  cases m <;> first | exact .inl ⟨_, rfl⟩ | exact .inr ⟨_, rfl⟩ | cases h

/-- Numbers are brought to the same type whether or not the chosen calculator has done so before, unless they are two
integers among decimals. -/
theorem promote_coerce (hm : m.toValue.type.isSubtypeOf s = true) (hn : n.toValue.type.isSubtypeOf t = true)
    (mixed : select op s t = .decimal → ∀ x y, m = .int x → n = .int y → False) :
    Number.promote (coerce (select op s t) m) (coerce (select op s t) n) = Number.promote m n := by
  cases hselect : select op s t with
  | generic | integer => cases m <;> cases n <;> rfl
  | decimal =>
    obtain ⟨hs, ht⟩ := select_eq_decimal hselect
    rcases exists_decimal (AtomicType.isSubtypeOf_trans hm hs) with ⟨x, rfl⟩ | ⟨x, rfl⟩ <;>
      rcases exists_decimal (AtomicType.isSubtypeOf_trans hn ht) with ⟨y, rfl⟩ | ⟨y, rfl⟩
    · exact (mixed hselect x y rfl rfl).elim
    all_goals rfl
  | float =>
    -- a single is made a double and a single again
    rcases select_eq_float hselect with ⟨rfl, rfl | ht⟩ | ⟨rfl, hs⟩
    · obtain ⟨x, rfl⟩ := exists_single hm
      obtain ⟨y, rfl⟩ := exists_single hn
      simp only [coerce, Number.promote, Number.toDouble, singleOfDouble_doubleOfSingle]
    · obtain ⟨x, rfl⟩ := exists_single hm
      rcases exists_decimal (AtomicType.isSubtypeOf_trans hn ht) with ⟨y, rfl⟩ | ⟨y, rfl⟩ <;>
        simp only [coerce, Number.promote, Number.toDouble, singleOfDouble_doubleOfSingle]
    · obtain ⟨y, rfl⟩ := exists_single hn
      rcases exists_decimal (AtomicType.isSubtypeOf_trans hm hs) with ⟨x, rfl⟩ | ⟨x, rfl⟩ <;>
        simp only [coerce, Number.promote, Number.toDouble, singleOfDouble_doubleOfSingle]
  | double =>
    rcases select_eq_double hselect with rfl | rfl
    · obtain ⟨x, rfl⟩ := exists_double hm
      cases n <;> rfl
    · obtain ⟨y, rfl⟩ := exists_double hn
      cases m <;> rfl

end Calculator

/-! ### Operations -/

/-- A quotient of integers is that of the decimals that they are. -/
theorem Number.computeDecimals_div (x y : Int64) :
    computeDecimals .div (doubleOfInt x.toInt) (doubleOfInt y.toInt) = computeInts .div x y := by
  have hzero : (doubleOfInt y.toInt == doubleOfInt 0) = true ↔ y = 0 := by
    have := y.le_toInt
    have := y.toInt_lt
    rw [doubleOfInt_beq_iff (by omega) (by norm_num), ← Int64.toInt_inj]
    rfl
  simp only [computeDecimals, computeInts, hzero]

namespace Value

variable {op : ArithmeticOp} {a b v w u : Value} {s t : AtomicType} {conversion : Conversion}

/-- Whether a calculator for decimals, if it is used and is given two integers, comes to what integers come to. -/
def DecimalsSuit (op : ArithmeticOp) (calculator : Calculator) (a b : Value) : Prop :=
  calculator = .decimal → op ≠ .div → ∀ x y n, a = .integer x → b = .integer y →
    Number.computeInts op x y = .ok n → Number.computeDecimals op (doubleOfInt x.toInt) (doubleOfInt y.toInt) = .ok n

/-- The number that a value of a numeric type stands for. -/
theorem toValue_ofOperand (hs : s.mayBeUntyped = false) (ha : a.type.isSubtypeOf s = true) {n : Number}
    (h : Number.ofOperand a = .ok n) : n.toValue = a := by
  cases a with
  | untyped text => cases s <;> first | cases hs; done | cases ha
  | boolean _ | string _ | uri _ => cases h
  | integer _ | decimal _ | float _ | double _ =>
    obtain rfl := Except.ok.inj h
    rfl

/-- The chosen calculator does what an operation does that looks at its operands, unless it takes integers for
decimals. -/
theorem compute_select_eq (ha : a.type.isSubtypeOf s = true) (hb : b.type.isSubtypeOf t = true)
    (mixed : Calculator.select op s t = .decimal → ∀ x y, a = .integer x → b = .integer y → False) :
    compute op a b (.select op s t) = compute op a b .generic := by
  by_cases huntyped : s.mayBeUntyped = true ∨ t.mayBeUntyped = true
  · rw [Calculator.select_eq_generic huntyped]
  rw [not_or, Bool.not_eq_true, Bool.not_eq_true] at huntyped
  unfold compute
  cases hm : Number.ofOperand a with
  | error e => rfl
  | ok m =>
    cases hn : Number.ofOperand b with
    | error e => rfl
    | ok n =>
      obtain rfl := toValue_ofOperand huntyped.1 ha hm
      obtain rfl := toValue_ofOperand huntyped.2 hb hn
      have hpromote := Calculator.promote_coerce ha hb fun hdecimal x y hx hy =>
        mixed hdecimal x y (by rw [hx]; rfl) (by rw [hy]; rfl)
      simp only [bind, Except.bind, hpromote]
      rfl

/-- A calculator for decimals takes two integers for the decimals that they are. -/
theorem compute_decimal (op : ArithmeticOp) (x y : Int64) : compute op (.integer x) (.integer y) .decimal =
    (Number.computeDecimals op (doubleOfInt x.toInt) (doubleOfInt y.toInt)).map Number.toValue := by
  change (Number.computeDecimals op (doubleOfInt x.toInt) (doubleOfInt y.toInt) >>= fun n => pure n.toValue) = _
  cases Number.computeDecimals op (doubleOfInt x.toInt) (doubleOfInt y.toInt) <;> rfl

theorem compute_generic (op : ArithmeticOp) (x y : Int64) :
    compute op (.integer x) (.integer y) .generic = (Number.computeInts op x y).map Number.toValue := by
  change (Number.computeInts op x y >>= fun n => pure n.toValue) = _
  cases Number.computeInts op x y <;> rfl

/-- The chosen calculator comes to what an operation comes to that looks at its operands. -/
theorem compute_select (ha : a.type.isSubtypeOf s = true) (hb : b.type.isSubtypeOf t = true)
    (decimals : DecimalsSuit op (.select op s t) a b) (h : compute op a b .generic = .ok u) :
    compute op a b (.select op s t) = .ok u := by
  by_cases hmixed : Calculator.select op s t = .decimal ∧ ∃ x y, a = .integer x ∧ b = .integer y
  · obtain ⟨hdecimal, x, y, rfl, rfl⟩ := hmixed
    rw [compute_generic] at h
    obtain ⟨k, hk, rfl⟩ := map_eq_ok_iff.mp h
    rw [hdecimal, compute_decimal, map_eq_ok_iff]
    refine ⟨k, ?_, rfl⟩
    by_cases hdiv : op = .div
    · subst hdiv
      -- Division makes decimals of integers itself.
      exact (Number.computeDecimals_div x y).trans hk
    · exact decimals hdecimal hdiv x y k rfl rfl hk
  · rwa [compute_select_eq ha hb fun hdecimal x y hx hy => hmixed ⟨hdecimal, x, y, hx, hy⟩]

/-- An operation does with an untyped value what conversion does before. -/
theorem exists_converted (conversion : Conversion) {n : Number} (h : Number.ofOperand a = .ok n) :
    ∃ v, a.convertUntyped .double conversion = .ok v ∧ Number.ofOperand v = .ok n := by
  cases a with
  | untyped text =>
    obtain ⟨x, hx, rfl⟩ := map_eq_ok_iff.mp h
    refine ⟨.double x, ?_, rfl⟩
    have hcast : (untyped text).cast .double = .ok (.double x) := by
      show ((untyped text).toDouble .double).map _ = _
      rw [hx]
      rfl
    simp only [convertUntyped, hcast]
  | _ => exact ⟨_, rfl, h⟩

/-- Where an operation comes to something, it comes to the same with converted operands.  No value is made an
integer. -/
theorem exists_operands (conversion : Conversion) (h : compute op a b .generic = .ok u) :
    ∃ v w, a.convertUntyped .double conversion = .ok v ∧ b.convertUntyped .double conversion = .ok w ∧
      compute op v w .generic = .ok u ∧
        ∀ calculator, DecimalsSuit op calculator a b → DecimalsSuit op calculator v w := by
  have same {a v : Value} {n : Number} (ha : Number.ofOperand a = .ok n) (hv : Number.ofOperand v = .ok n) {x : Int64}
      (hx : v = .integer x) : a = .integer x := by
    subst hx
    obtain rfl := Except.ok.inj hv
    cases a with
    | untyped text =>
      obtain ⟨_, -, hcontra⟩ := map_eq_ok_iff.mp ha
      cases hcontra
    | _ => cases ha <;> rfl
  unfold compute at h
  obtain ⟨m, hm, hrest⟩ := bind_eq_ok_iff.mp h
  obtain ⟨n, hn, hrest⟩ := bind_eq_ok_iff.mp hrest
  obtain ⟨v, hv, hm'⟩ := exists_converted conversion hm
  obtain ⟨w, hw, hn'⟩ := exists_converted conversion hn
  refine ⟨v, w, hv, hw, ?_, fun calculator suits hdecimal hdiv x y k hx hy => ?_⟩
  · unfold compute
    exact bind_eq_ok_iff.mpr ⟨m, hm', bind_eq_ok_iff.mpr ⟨n, hn', hrest⟩⟩
  · exact suits hdecimal hdiv x y k (same hm hm' hx) (same hn hn' hy)

/-- Only untyped values are converted. -/
theorem eq_of_convertUntyped {target : AtomicType} (hs : s.mayBeUntyped = false) (ha : a.type.isSubtypeOf s = true)
    (h : a.convertUntyped target conversion = .ok v) : v = a := by
  cases a with
  | untyped text => cases s <;> first | cases hs; done | cases ha
  | _ => exact (Except.ok.inj h).symm

/-- An untyped value is made a text, and every other value is left alone. -/
theorem exists_text (conversion : Conversion) (a : Value) : ∃ v, a.convertUntyped .string conversion = .ok v ∧
    (v = a ∨ ∃ text, a = .untyped text ∧ v = .string text) := by
  cases a with
  | untyped text => exact ⟨_, rfl, .inr ⟨text, rfl, rfl⟩⟩
  | _ => exact ⟨_, rfl, .inl rfl⟩

theorem order_text_left {text : String} {o : Option Ordering} (h : order (.untyped text) b = .ok o) :
    order (.string text) b = .ok o := by
  cases b <;> first | exact h | cases h

theorem order_text_right {text : String} {o : Option Ordering} (h : order a (.untyped text) = .ok o) :
    order a (.string text) = .ok o := by
  cases a <;> first | exact h | cases h

/-- Texts compare as untyped values do. -/
theorem exists_compared (conversion : Conversion) {op : ComparisonOp} {t : Bool} (h : Value.compare op a b = .ok t) :
    ∃ v w, a.convertUntyped .string conversion = .ok v ∧ b.convertUntyped .string conversion = .ok w ∧
      Value.compare op v w = .ok t := by
  obtain ⟨o, ho, rfl⟩ := map_eq_ok_iff.mp h
  obtain ⟨v, hv, heq⟩ := exists_text conversion a
  obtain ⟨w, hw, heq'⟩ := exists_text conversion b
  have hleft : order v b = .ok o := by
    rcases heq with rfl | ⟨text, rfl, rfl⟩
    · exact ho
    · exact order_text_left ho
  have hright : order v w = .ok o := by
    rcases heq' with rfl | ⟨text, rfl, rfl⟩
    · exact hleft
    · exact order_text_right hleft
  exact ⟨v, w, hv, hw, map_eq_ok_iff.mpr ⟨o, hright, rfl⟩⟩

end Value

end TreeQuery
