/-
Operators of typed expressions.

Typing changes operators at two places only.  The operands of arithmetic operations and comparisons are prepared, and
a conversion is put around what may be untyped.  A property of operators is settled there if typing gives it to the
operations whose operands it prepares and to the conversions that it puts in, and if all other operators have it
(`Expr.Settles`).  Such a property holds of every part of what typing leaves (`Expr.Settles.throughout`).  Two of them
are of use.

* The calculator of an arithmetic operation is the one that is chosen for the types of the operands, and what is
  converted is atomic (`Expr.operated_typedIn`).
* The operands of arithmetic operations and comparisons are what preparation makes of expressions that are not known
  to be empty and are no conversions themselves (`Expr.prepared_typedIn`).

Design notes: what is put in stands between an operation and its operand, so it is part of the tree but was never
typed as an expression of its own.  For this reason the second property names the operand before it was prepared.
-/
import TreeQuery.Proofs.FreshProperties

namespace TreeQuery

namespace Expr

variable {s : StaticContext} {scope : Scope} {e e' r t x : Expr} {a b : Operand} {i : Info} {checks : Bool}
  {target : AtomicType} {conversion : Conversion} {P : Expr → Prop}

/-! ### Conversions -/

/-- Whether an operator converts untyped values. -/
def isConversion : Expr → Bool
  | unary (.convert _ _) _ _ => true
  | _ => false

theorem isConversion_withInfo (e : Expr) (i : Info) : (e.withInfo i).isConversion = e.isConversion := by
  rcases e with _ | ⟨op, _, _⟩ | _ | _ | _
  case unary => cases op <;> rfl
  all_goals rfl

theorem isConversion_replacing (old e : Expr) : (old.replacing e).isConversion = e.isConversion := by
  unfold replacing
  split
  · exact isConversion_withInfo e _
  · rfl

theorem OperandsTyped.isConversion_eq (h : OperandsTyped s scope e e') : e'.isConversion = e.isConversion := by
  cases h with
  | @unary op => cases op <;> rfl
  | _ => rfl

/-- Typing puts conversions around operands only. -/
theorem isConversion_typedIn (h : Throughout (fun e => e.isConversion = false) e) (ht : typedIn s scope e = .ok t) :
    t.isConversion = false := by
  induction e using inductOperands generalizing scope t with
  | h e ih =>
    obtain ⟨e', r, operands, types, rfl⟩ := exists_types ht
    have here : r.isConversion = false := by
      generalize hm : e'.refresh = m at types
      cases types with
      | stays =>
        rw [← hm, refresh, isConversion_withInfo, operands.isConversion_eq]
        exact h.here
      | nothing | value =>
        rw [isConversion_replacing]
        rfl
      | holds holds =>
        rw [isConversion_replacing]
        have hmem := holds.mem_operands
        rw [← hm, operands_refresh] at hmem
        obtain ⟨a, ha, -, scope', htyped⟩ := operands.exists_typedIn hmem
        exact ih a ha (h.operand ha) htyped
      | _ => rfl
    exact collapseEmpty_induction (P := fun e => e.isConversion = false) here (isConversion_replacing r empty)

theorem Constructed.isConversion_eq (h : e.Constructed checks) : e.isConversion = false := by
  have raw := h.raw
  rcases e with _ | ⟨op, _, _⟩ | _ | _ | _
  case unary => cases op <;> first | rfl | exact raw.elim
  all_goals rfl

/-- Construction puts in no conversions. -/
theorem unconverted_of_built (built : e.Built checks) : Throughout (fun e => e.isConversion = false) e :=
  (constructed_of_built built).mono fun _ h => h.isConversion_eq

theorem opensGuards_eq_false_iff (s : StaticContext) :
    e.opensGuards = false ↔ e.preparation? s = none ∧ e.isConversion = false := by
  rcases e with _ | ⟨op, _, _⟩ | ⟨op, _, _, _⟩ | _ | _
  case unary => cases op <;> simp [opensGuards, preparation?, isConversion]
  case binary => cases op <;> simp [opensGuards, preparation?, isConversion]
  all_goals simp [opensGuards, preparation?, isConversion]

/-- What may have checks and conversions as operands is a conversion, or an operation whose operands are prepared. -/
theorem exists_of_opensGuards (s : StaticContext) (h : e.opensGuards = true) :
    (∃ target conversion a i, e = unary (.convert target conversion) a i) ∨
      ∃ target conversion, e.preparation? s = some (target, conversion) := by
  rcases e with _ | ⟨op, a, i⟩ | ⟨op, _, _, _⟩ | _ | _
  case unary =>
    cases op with
    | convert target conversion => exact .inl ⟨target, conversion, a, i, rfl⟩
    | _ => cases h
  case binary =>
    cases op with
    | arithmetic | compare => exact .inr ⟨_, _, rfl⟩
    | _ => cases h
  all_goals cases h

theorem prepared_eq (hconversion : x.isConversion = false) :
    x.prepared target conversion = x.atomized.limited.converted target conversion := by
  unfold prepared
  split
  · cases hconversion
  · rfl

/-! ### Properties of operators -/

/-- What is known of an operand that is to be prepared. -/
structure Operable (e : Expr) : Prop where
  nonempty : e.cardinality.isEmptyOnly = false
  unconverted : e.isConversion = false
  fresh : e.Fresh

/-- Whether typing gives a property to the operators that it changes, and all others have it anyway. -/
structure Settles (s : StaticContext) (P : Expr → Prop) : Prop where
  /-- The property does not depend on what an expression carries. -/
  withInfo {e : Expr} : P e → ∀ i, P (e.withInfo i)
  ordinary {e : Expr} : e.opensGuards = false → P e
  convert {target : AtomicType} {conversion : Conversion} {a : Operand} {i : Info} :
    a.expr.itemType.isAtomic = true → P (unary (.convert target conversion) a i)
  arithmetic {op : ArithmeticOp} {a b : Operand} {x y : Expr} {i : Info} : a.expr.Operable → b.expr.Operable →
    x = a.expr.prepared .double s.conversion → y = b.expr.prepared .double s.conversion →
    P (binary (.arithmetic op (.select op x.itemType.atomized y.itemType.atomized)) ⟨a.role, x⟩ ⟨b.role, y⟩ i)
  compare {op : ComparisonOp} {a b : Operand} {i : Info} : a.expr.Operable → b.expr.Operable →
    P (binary (.compare op) ⟨a.role, a.expr.prepared .string .strict⟩ ⟨b.role, b.expr.prepared .string .strict⟩ i)

/-- What is atomized has atomic values only. -/
theorem isAtomic_atomized (h : e.Fresh) : e.atomized.itemType.isAtomic = true := by
  unfold atomized
  split
  · rw [itemType, h]
    rfl
  · split
    · assumption
    · rfl

namespace Settles

theorem refresh (h : Settles s P) (here : P e) (operands : ∀ a ∈ e.operands, Throughout P a.expr) :
    Throughout P e.refresh :=
  .mk (h.withInfo here _) (by simpa using operands)

theorem literal (h : Settles s P) (vs : List Value) (l : Location) : Throughout P (literal vs l) :=
  h.refresh (e := leaf (.literal vs) (Expr.fresh l)) (h.ordinary rfl) (by simp)

theorem replacing (h : Settles s P) (he : Throughout P e) (old : Expr) : Throughout P (old.replacing e) := by
  unfold Expr.replacing
  split
  · exact .mk (h.withInfo he.here _) fun a ha => he.operand (by simpa using ha)
  · exact he

theorem wrapped (h : Settles s P) {op : Unary} (he : Throughout P e)
    (here : P (unary op ⟨.navigate, e⟩ (Expr.fresh e.location))) : Throughout P (e.wrapped op) :=
  h.refresh here (by simpa [Operand.expr] using he)

theorem atomized (h : Settles s P) (he : Throughout P e) : Throughout P e.atomized :=
  atomized_induction he (h.wrapped he (h.ordinary rfl))

theorem prepared (h : Settles s P) (he : Throughout P e) (hfresh : e.Fresh) (target : AtomicType)
    (conversion : Conversion) : Throughout P (e.prepared target conversion) := by
  have limited {e : Expr} (he : Throughout P e) : Throughout P e.limited ∧ e.limited.itemType = e.itemType := by
    unfold Expr.limited
    split
    · exact ⟨h.wrapped he (h.ordinary rfl), rfl⟩
    · exact ⟨he, rfl⟩
  unfold Expr.prepared
  split
  · exact he
  · obtain ⟨hlimited, htype⟩ := limited (h.atomized he)
    unfold Expr.converted
    split
    · refine h.wrapped hlimited (h.convert ?_)
      show e.atomized.limited.itemType.isAtomic = true
      rw [htype]
      exact isAtomic_atomized hfresh
    · exact hlimited

/-- One step of typing keeps the property where it does not give it. -/
theorem types (h : Settles s P) (types : Types s e r) (hconversion : e.isConversion = false)
    (unconverted : ∀ a ∈ e.operands, a.expr.isConversion = false) (fresh : ∀ a ∈ e.operands, a.expr.Fresh)
    (operands : ∀ a ∈ e.operands, Throughout P a.expr) : Throughout P r := by
  have pair {op : Binary} {a b : Operand} {x y : Expr} {i : Info} (here : P (binary op ⟨a.role, x⟩ ⟨b.role, y⟩ i))
      (hx : Throughout P x) (hy : Throughout P y) : Throughout P (binary op ⟨a.role, x⟩ ⟨b.role, y⟩ i).refresh := by
    refine h.refresh here ?_
    simp only [operands_binary, List.forall_mem_cons]
    exact ⟨hx, hy, fun _ ha => absurd ha List.not_mem_nil⟩
  have prepared (a : Operand) (ha : a ∈ e.operands) (target : AtomicType) (conversion : Conversion) :
      Throughout P (a.expr.prepared target conversion) :=
    h.prepared (operands a ha) (fresh a ha) target conversion
  have operable (a : Operand) (ha : a ∈ e.operands) (nonempty : a.expr.cardinality.isEmptyOnly = false) :
      a.expr.Operable := ⟨nonempty, unconverted a ha, fresh a ha⟩
  cases types with
  | stays hpreparation =>
    exact .mk (h.ordinary ((opensGuards_eq_false_iff s).mpr ⟨hpreparation, hconversion⟩)) operands
  | global => exact h.refresh (h.ordinary rfl) (by simp)
  | nothing | value => exact h.replacing (h.literal _ _) _
  | holds known => exact h.replacing (operands _ known.mem_operands) _
  | @arithmetic op calculator a b x y i ha hb hx hy =>
    refine pair (h.arithmetic (operable a (by simp) ha) (operable b (by simp) hb) hx hy) ?_ ?_
    · exact hx ▸ prepared a (by simp) _ _
    · exact hy ▸ prepared b (by simp) _ _
  | @compare op a b i ha hb =>
    exact pair (h.compare (operable a (by simp) ha) (operable b (by simp) hb)) (prepared a (by simp) _ _)
      (prepared b (by simp) _ _)
  | @cast target allowsEmpty a i =>
    refine h.refresh (h.ordinary rfl) fun x hx => ?_
    obtain rfl := List.mem_singleton.mp hx
    exact h.atomized (operands a (by simp))

/-- A property that typing settles holds of every part of what typing leaves. -/
theorem throughout (h : Settles s P) (unconverted : Throughout (fun e => e.isConversion = false) e)
    (ht : typedIn s scope e = .ok t) : Throughout P t := by
  induction e using inductOperands generalizing scope t with
  | h e ih =>
    obtain ⟨e', r, operands, types, rfl⟩ := exists_types ht
    have typed : Throughout P r := by
      refine h.types types ?_ ?_ ?_ ?_
      · rw [Expr.refresh, isConversion_withInfo, operands.isConversion_eq]
        exact unconverted.here
      all_goals
        rw [operands_refresh]
        intro a' ha'
        obtain ⟨a, ha, -, scope', htyped⟩ := operands.exists_typedIn ha'
      · exact isConversion_typedIn (unconverted.operand ha) htyped
      · exact (fresh_typedIn htyped).here
      · exact ih a ha (unconverted.operand ha) htyped
    exact collapseEmpty_induction typed (h.replacing (h.literal [] _) _)

end Settles

/-! ### Calculators -/

/-- Whether the calculator of an arithmetic operation is the one that is chosen for the types of the operands, and
the operand of a conversion has atomic values only. -/
def Operated : Expr → Prop
  | binary (.arithmetic op calculator) a b _ =>
    calculator = .select op a.expr.itemType.atomized b.expr.itemType.atomized
  | unary (.convert _ _) a _ => a.expr.itemType.isAtomic = true
  | _ => True

theorem settles_operated (s : StaticContext) : Settles s Operated where
  withInfo {e} h i := by
    rcases e with _ | ⟨op, _, _⟩ | ⟨op, _, _, _⟩ | _ | _
    case unary => cases op <;> exact h
    case binary => cases op <;> exact h
    all_goals exact h
  ordinary {e} h := by
    rcases e with _ | ⟨op, _, _⟩ | ⟨op, _, _, _⟩ | _ | _
    case unary => cases op <;> trivial
    case binary => cases op <;> trivial
    all_goals trivial
  convert h := h
  arithmetic _ _ _ _ := rfl
  compare _ _ := trivial

/-- Typing chooses calculators by the types of the operands, and puts conversions around atomic values. -/
theorem operated_typedIn (h : Throughout (fun e => e.isConversion = false) e) (ht : typedIn s scope e = .ok t) :
    Throughout Operated t :=
  (settles_operated s).throughout h ht

/-! ### Prepared operands -/

/-- Whether the operands of an operation on single values have been prepared for it. -/
def OperandsPrepared (s : StaticContext) (e : Expr) : Prop :=
  ∀ target conversion, e.preparation? s = some (target, conversion) → ∀ a ∈ e.operands,
    ∃ x : Expr, x.Operable ∧ a.expr = x.prepared target conversion

theorem settles_operandsPrepared (s : StaticContext) : Settles s (OperandsPrepared s) where
  withInfo {e} h i := by
    rcases e with _ | _ | ⟨op, _, _, _⟩ | _ | _
    case binary => cases op <;> exact h
    all_goals exact h
  ordinary {e} h := by
    intro target conversion hprepares
    rw [(opensGuards_eq_false_iff s).mp h |>.1] at hprepares
    cases hprepares
  convert _ _ _ h := by cases h
  arithmetic {op a b x y i} ha hb hx hy := by
    rintro _ _ ⟨⟩ z hz
    simp only [operands_binary, List.mem_cons, List.not_mem_nil, or_false] at hz
    rcases hz with rfl | rfl
    · exact ⟨_, ha, hx⟩
    · exact ⟨_, hb, hy⟩
  compare {op a b i} ha hb := by
    rintro _ _ ⟨⟩ z hz
    simp only [operands_binary, List.mem_cons, List.not_mem_nil, or_false] at hz
    rcases hz with rfl | rfl
    · exact ⟨_, ha, rfl⟩
    · exact ⟨_, hb, rfl⟩

/-- Typing prepares the operands of operations on single values. -/
theorem prepared_typedIn (h : Throughout (fun e => e.isConversion = false) e) (ht : typedIn s scope e = .ok t) :
    Throughout (OperandsPrepared s) t :=
  (settles_operandsPrepared s).throughout h ht

end Expr

end TreeQuery
