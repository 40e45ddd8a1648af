/-
Typing, step by step.

An expression is typed from the operands up.  `Expr.OperandsTyped` says that the operands of an expression have been
typed, each in its scope, and `Expr.Types` says what is then done to the expression itself: at most one change.
`Expr.exists_types` puts the two together.  Typing fails at an operand or at the expression itself
(`Expr.typedIn_eq_error`), and `Expr.Rejects` says why it does.  Nothing is assumed of the expressions, and nothing is
said about what the changes are good for.
-/
import Mathlib.Data.List.Forall2
import TreeQuery.Proofs.Structure

namespace TreeQuery

namespace Expr

variable {s : StaticContext} {scope : Scope} {e e' t : Expr} {a : Operand} {err : Error}

/-! ### Operands -/

/-- An expression, and the same operator over its operands after they have been typed. -/
inductive OperandsTyped (s : StaticContext) (scope : Scope) : Expr → Expr → Prop
  | leaf (op : Leaf) (i : Info) : OperandsTyped s scope (leaf op i) (leaf (op.typed scope) i)
  | unary {op : Unary} {a a' : Operand} {i : Info} : a'.role = a.role → typedIn s scope a.expr = .ok a'.expr →
      OperandsTyped s scope (unary op a i) (unary op a' i)
  | binary {op : Binary} {a b a' b' : Operand} {i : Info} : a'.role = a.role → b'.role = b.role →
      typedIn s scope a.expr = .ok a'.expr → typedIn s (op.scope a'.expr scope) b.expr = .ok b'.expr →
      OperandsTyped s scope (binary op a b i) (binary op a' b' i)
  | choice {x y n x' y' n' : Operand} {i : Info} : x'.role = x.role → y'.role = y.role → n'.role = n.role →
      typedIn s scope x.expr = .ok x'.expr → typedIn s scope y.expr = .ok y'.expr →
      typedIn s scope n.expr = .ok n'.expr → OperandsTyped s scope (choice x y n i) (choice x' y' n' i)
  | variadic {op : Variadic} {args args' : List Operand} {i : Info} :
      List.Forall₂ (fun a a' => a'.role = a.role ∧ typedIn s scope a.expr = .ok a'.expr) args args' →
      OperandsTyped s scope (variadic op args i) (variadic op args' i)

theorem typedOperand_eq_ok {a a' : Operand} (h : typedOperand s scope a = .ok a') :
    a'.role = a.role ∧ typedIn s scope a.expr = .ok a'.expr := by
  obtain ⟨role, e⟩ := a
  rw [typedOperand] at h
  obtain ⟨x, hx, h⟩ := bind_eq_ok_iff.mp h
  obtain rfl := Except.ok.inj h
  exact ⟨rfl, hx⟩

theorem forall₂_of_typedOperands {args args' : List Operand} (h : typedOperands s scope args = .ok args') :
    List.Forall₂ (fun a a' => a'.role = a.role ∧ typedIn s scope a.expr = .ok a'.expr) args args' := by
  induction args generalizing args' with
  | nil =>
    obtain rfl : [] = args' := by simpa [typedOperands] using h
    exact .nil
  | cons a rest ih =>
    rw [typedOperands] at h
    obtain ⟨x, hx, h⟩ := bind_eq_ok_iff.mp h
    obtain ⟨xs, hxs, h⟩ := bind_eq_ok_iff.mp h
    obtain rfl := Except.ok.inj h
    exact .cons (typedOperand_eq_ok hx) (ih hxs)

/-- Typing of an expression types its operands before it settles the expression. -/
theorem exists_operandsTyped (ht : typedIn s scope e = .ok t) :
    ∃ e', OperandsTyped s scope e e' ∧ settle s e' = .ok t := by
  cases e with
  | leaf op i =>
    rw [typedIn] at ht
    exact ⟨_, .leaf op i, ht⟩
  | unary op a i =>
    rw [typedIn] at ht
    obtain ⟨a', ha', ht⟩ := bind_eq_ok_iff.mp ht
    obtain ⟨hrole, ha'⟩ := typedOperand_eq_ok ha'
    exact ⟨_, .unary hrole ha', ht⟩
  | binary op a b i =>
    rw [typedIn] at ht
    obtain ⟨a', ha', ht⟩ := bind_eq_ok_iff.mp ht
    obtain ⟨b', hb', ht⟩ := bind_eq_ok_iff.mp ht
    obtain ⟨hrole, ha'⟩ := typedOperand_eq_ok ha'
    obtain ⟨hrole', hb'⟩ := typedOperand_eq_ok hb'
    exact ⟨_, .binary hrole hrole' ha' hb', ht⟩
  | choice x y n i =>
    rw [typedIn] at ht
    obtain ⟨x', hx', ht⟩ := bind_eq_ok_iff.mp ht
    obtain ⟨y', hy', ht⟩ := bind_eq_ok_iff.mp ht
    obtain ⟨n', hn', ht⟩ := bind_eq_ok_iff.mp ht
    obtain ⟨hrole, hx'⟩ := typedOperand_eq_ok hx'
    obtain ⟨hrole', hy'⟩ := typedOperand_eq_ok hy'
    obtain ⟨hrole'', hn'⟩ := typedOperand_eq_ok hn'
    exact ⟨_, .choice hrole hrole' hrole'' hx' hy' hn', ht⟩
  | variadic op args i =>
    rw [typedIn] at ht
    obtain ⟨args', hargs', ht⟩ := bind_eq_ok_iff.mp ht
    exact ⟨_, .variadic (forall₂_of_typedOperands hargs'), ht⟩

theorem typedOperand_eq_error (failed : typedOperand s scope a = .error err) : typedIn s scope a.expr = .error err := by
  obtain ⟨role, e⟩ := a
  rw [typedOperand] at failed
  rcases bind_eq_error_iff.mp failed with failed | ⟨t, -, failed⟩
  · exact failed
  · cases failed

theorem exists_of_typedOperands {args : List Operand} (failed : typedOperands s scope args = .error err) :
    ∃ a ∈ args, typedIn s scope a.expr = .error err := by
  induction args with
  | nil => cases failed
  | cons a rest ih =>
    rw [typedOperands] at failed
    rcases bind_eq_error_iff.mp failed with failed | ⟨a', -, failed⟩
    · exact ⟨a, List.mem_cons_self, typedOperand_eq_error failed⟩
    · rcases bind_eq_error_iff.mp failed with failed | ⟨rest', -, failed⟩
      · obtain ⟨b, hb, failed⟩ := ih failed
        exact ⟨b, List.mem_cons_of_mem _ hb, failed⟩
      · cases failed

/-- Typing fails at an operand, or when the expression is settled after all operands are typed. -/
theorem typedIn_eq_error (failed : typedIn s scope e = .error err) :
    (∃ a ∈ e.operands, ∃ scope', typedIn s scope' a.expr = .error err) ∨
      ∃ e', OperandsTyped s scope e e' ∧ settle s e' = .error err := by
  have operand {a : Operand} {scope' : Scope} (ha : a ∈ e.operands)
      (failed : typedOperand s scope' a = .error err) :
      ∃ a ∈ e.operands, ∃ scope', typedIn s scope' a.expr = .error err :=
    ⟨a, ha, scope', typedOperand_eq_error failed⟩
  -- The operands are typed from left to right, and the first one that fails is the one at which typing fails.
  cases e with
  | leaf op i =>
    rw [typedIn] at failed
    exact .inr ⟨_, .leaf op i, failed⟩
  | unary op a i =>
    rw [typedIn] at failed
    rcases bind_eq_error_iff.mp failed with failed | ⟨a', ha', failed⟩
    · exact .inl (operand (by simp) failed)
    · obtain ⟨hrole, ha'⟩ := typedOperand_eq_ok ha'
      exact .inr ⟨_, .unary hrole ha', failed⟩
  | binary op a b i =>
    rw [typedIn] at failed
    rcases bind_eq_error_iff.mp failed with failed | ⟨a', ha', failed⟩
    · exact .inl (operand (by simp) failed)
    · rcases bind_eq_error_iff.mp failed with failed | ⟨b', hb', failed⟩
      · exact .inl (operand (by simp) failed)
      · obtain ⟨hrole, ha'⟩ := typedOperand_eq_ok ha'
        obtain ⟨hrole', hb'⟩ := typedOperand_eq_ok hb'
        exact .inr ⟨_, .binary hrole hrole' ha' hb', failed⟩
  | choice x y n i =>
    rw [typedIn] at failed
    rcases bind_eq_error_iff.mp failed with failed | ⟨x', hx', failed⟩
    · exact .inl (operand (by simp) failed)
    · rcases bind_eq_error_iff.mp failed with failed | ⟨y', hy', failed⟩
      · exact .inl (operand (by simp) failed)
      · rcases bind_eq_error_iff.mp failed with failed | ⟨n', hn', failed⟩
        · exact .inl (operand (by simp) failed)
        · obtain ⟨hrole, hx'⟩ := typedOperand_eq_ok hx'
          obtain ⟨hrole', hy'⟩ := typedOperand_eq_ok hy'
          obtain ⟨hrole'', hn'⟩ := typedOperand_eq_ok hn'
          exact .inr ⟨_, .choice hrole hrole' hrole'' hx' hy' hn', failed⟩
  | variadic op args i =>
    rw [typedIn] at failed
    rcases bind_eq_error_iff.mp failed with failed | ⟨args', hargs', failed⟩
    · obtain ⟨a, ha, failed⟩ := exists_of_typedOperands failed
      exact .inl ⟨a, ha, scope, failed⟩
    · exact .inr ⟨_, .variadic (forall₂_of_typedOperands hargs'), failed⟩

/-- Every operand that has been typed comes from one that is to be typed, and is used in the same way. -/
theorem OperandsTyped.exists_typedIn (h : OperandsTyped s scope e e') {a' : Operand} (ha' : a' ∈ e'.operands) :
    ∃ a ∈ e.operands, a'.role = a.role ∧ ∃ scope', typedIn s scope' a.expr = .ok a'.expr := by
  cases h with
  | leaf op i => simp at ha'
  | unary hrole ha =>
    obtain rfl := List.mem_singleton.mp ha'
    exact ⟨_, by simp, hrole, _, ha⟩
  | binary hrole hrole' ha hb =>
    simp only [operands_binary, List.mem_cons, List.not_mem_nil, or_false] at ha'
    rcases ha' with rfl | rfl
    · exact ⟨_, by simp, hrole, _, ha⟩
    · exact ⟨_, by simp, hrole', _, hb⟩
  | choice hrole hrole' hrole'' hx hy hn =>
    simp only [operands_choice, List.mem_cons, List.not_mem_nil, or_false] at ha'
    rcases ha' with rfl | rfl | rfl
    · exact ⟨_, by simp, hrole, _, hx⟩
    · exact ⟨_, by simp, hrole', _, hy⟩
    · exact ⟨_, by simp, hrole'', _, hn⟩
  | variadic hargs =>
    obtain ⟨k, hk, rfl⟩ := List.getElem_of_mem (show a' ∈ _ from ha')
    have hk' := Nat.lt_of_lt_of_eq hk hargs.length_eq.symm
    have ha := hargs.get hk' hk
    exact ⟨_, List.getElem_mem hk', ha.1, _, ha.2⟩

/-- Every operand that has been typed has been typed in its scope. -/
theorem OperandsTyped.exists_typedIn_of_mem (h : OperandsTyped s scope e e') {p : Scope × Expr}
    (hp : p ∈ e'.operandsIn scope) : ∃ a ∈ e.operands, typedIn s p.1 a.expr = .ok p.2 := by
  cases h with
  | leaf op i => exact absurd hp List.not_mem_nil
  | unary _ ha =>
    obtain rfl := List.mem_singleton.mp hp
    exact ⟨_, by simp, ha⟩
  | binary _ _ ha hb =>
    simp only [operandsIn, List.mem_cons, List.not_mem_nil, or_false] at hp
    rcases hp with rfl | rfl
    · exact ⟨_, by simp, ha⟩
    · exact ⟨_, by simp, hb⟩
  | choice _ _ _ hx hy hn =>
    simp only [operandsIn, List.mem_cons, List.not_mem_nil, or_false] at hp
    rcases hp with rfl | rfl | rfl
    · exact ⟨_, by simp, hx⟩
    · exact ⟨_, by simp, hy⟩
    · exact ⟨_, by simp, hn⟩
  | variadic hargs =>
    obtain ⟨a', ha', rfl⟩ := List.mem_map.mp hp
    obtain ⟨k, hk, rfl⟩ := List.getElem_of_mem ha'
    have hk' := Nat.lt_of_lt_of_eq hk hargs.length_eq.symm
    exact ⟨_, List.getElem_mem hk', (hargs.get hk' hk).2⟩

/-- Every operand that is to be typed has been. -/
theorem OperandsTyped.exists_typed (h : OperandsTyped s scope e e') {a : Operand} (ha : a ∈ e.operands) :
    ∃ scope' t, typedIn s scope' a.expr = .ok t := by
  cases h with
  | leaf op i => simp at ha
  | unary _ ha' =>
    obtain rfl := List.mem_singleton.mp ha
    exact ⟨_, _, ha'⟩
  | binary _ _ ha' hb' =>
    simp only [operands_binary, List.mem_cons, List.not_mem_nil, or_false] at ha
    rcases ha with rfl | rfl
    · exact ⟨_, _, ha'⟩
    · exact ⟨_, _, hb'⟩
  | choice _ _ _ hx hy hn =>
    simp only [operands_choice, List.mem_cons, List.not_mem_nil, or_false] at ha
    rcases ha with rfl | rfl | rfl
    · exact ⟨_, _, hx⟩
    · exact ⟨_, _, hy⟩
    · exact ⟨_, _, hn⟩
  | variadic hargs =>
    obtain ⟨k, hk, rfl⟩ := List.getElem_of_mem (show a ∈ _ from ha)
    exact ⟨_, _, (hargs.get hk (Nat.lt_of_lt_of_eq hk hargs.length_eq)).2⟩

section Inversion

variable {a' b' : Operand} {i' : Info}

theorem OperandsTyped.exists_unary {op : Unary} (operands : OperandsTyped s scope e e')
    (h : e'.refresh = Expr.unary op a' i') : ∃ a i, e = Expr.unary op a i ∧ typedIn s scope a.expr = .ok a'.expr := by
  cases operands with
  | unary _ ha =>
    obtain ⟨rfl, rfl, -⟩ := Expr.unary.inj h
    exact ⟨_, _, rfl, ha⟩
  | _ => cases h

theorem OperandsTyped.exists_binary {op : Binary} (operands : OperandsTyped s scope e e')
    (h : e'.refresh = Expr.binary op a' b' i') :
    ∃ a b i, e = Expr.binary op a b i ∧ typedIn s scope a.expr = .ok a'.expr ∧
      typedIn s (op.scope a'.expr scope) b.expr = .ok b'.expr := by
  cases operands with
  | binary _ _ ha hb =>
    obtain ⟨rfl, rfl, rfl, -⟩ := Expr.binary.inj h
    exact ⟨_, _, _, rfl, ha, hb⟩
  | _ => cases h

/-- The first argument of a call. -/
theorem OperandsTyped.exists_call {function : BuiltIn} {rest' : List Operand} (operands : OperandsTyped s scope e e')
    (h : e'.refresh = Expr.variadic (.call function) (a' :: rest') i') :
    ∃ a rest i, e = Expr.variadic (.call function) (a :: rest) i ∧ typedIn s scope a.expr = .ok a'.expr := by
  cases operands with
  | variadic hargs =>
    obtain ⟨rfl, rfl, -⟩ := Expr.variadic.inj h
    cases hargs with
    | cons ha _ => exact ⟨_, _, _, rfl, ha.2⟩
  | _ => cases h

end Inversion

/-! ### The expression itself -/

/-- Whether an operator gives nothing where an operand gives nothing. -/
def TakesNothing : Expr → Prop
  | unary (.cast _ allowsEmpty) _ _ => allowsEmpty = true
  | binary (.arithmetic _ _) _ _ _ => True
  | binary (.compare _) _ _ _ => True
  | _ => False

/-- The value of a call of a function for nothing. -/
inductive ValueOfNothing : BuiltIn → Value → Prop
  | existence : ValueOfNothing .existence (.boolean false)
  | emptiness : ValueOfNothing .emptiness (.boolean true)
  | count : ValueOfNothing .count (.integer 0)

/-- Whether a test of the number of items is known to hold of an operand. -/
inductive KnownToHold : Expr → Operand → Prop
  | check {required : Cardinality} {a : Operand} {i : Info} : required.covers a.expr.cardinality = true →
      KnownToHold (unary (.check required) a i) a
  | exactlyOne {a : Operand} {rest : List Operand} {i : Info} : a.expr.cardinality = .exactlyOne →
      KnownToHold (variadic (.call .exactlyOne) (a :: rest) i) a
  | zeroOrOne {a : Operand} {rest : List Operand} {i : Info} : a.expr.cardinality.atMostOne = true →
      KnownToHold (variadic (.call .zeroOrOne) (a :: rest) i) a

theorem KnownToHold.mem_operands (h : KnownToHold e a) : a ∈ e.operands := by
  cases h <;> simp

theorem KnownToHold.mem_operandsIn (h : KnownToHold e a) (scope : Scope) : (scope, a.expr) ∈ e.operandsIn scope := by
  cases h <;> simp [operandsIn]

/-- What the operands of an operation on single values are prepared for: the type that untyped values are converted to,
and how. -/
def preparation? (s : StaticContext) : Expr → Option (AtomicType × Conversion)
  | binary (.arithmetic _ _) _ _ _ => some (.double, s.conversion)
  | binary (.compare _) _ _ _ => some (.string, .strict)
  | _ => none

/-- What is done to an expression whose operands are typed. -/
inductive Types (s : StaticContext) : Expr → Expr → Prop
  | stays {e : Expr} : e.preparation? s = none → Types s e e
  /-- A reference to a global variable gets the declared type. -/
  | global {name : Name} {old : Option SequenceType} {type : SequenceType} {i : Info} :
      s.globalType? name = some type →
        Types s (leaf (.global name old) i) (leaf (.global name (some type)) i).refresh
  /-- An operator over something that never gives an item. -/
  | nothing {e : Expr} {a : Operand} : e.TakesNothing → a ∈ e.operands →
      a.expr.cardinality.isEmptyOnly = true → Types s e (e.replacing empty)
  /-- A call whose argument never gives an item. -/
  | value {function : BuiltIn} {a : Operand} {rest : List Operand} {i : Info} {v : Value} :
      ValueOfNothing function v → a.expr.cardinality.isEmptyOnly = true →
        Types s (variadic (.call function) (a :: rest) i)
          ((variadic (.call function) (a :: rest) i).replacing (literal [v] .unknown))
  /-- A test of the number of items that always holds. -/
  | holds {e : Expr} {a : Operand} : KnownToHold e a → Types s e (e.replacing a.expr)
  /-- The operands of an arithmetic operation are prepared, and its calculator is chosen. -/
  | arithmetic {op : ArithmeticOp} {calculator : Calculator} {a b : Operand} {x y : Expr} {i : Info} :
      a.expr.cardinality.isEmptyOnly = false → b.expr.cardinality.isEmptyOnly = false →
      x = a.expr.prepared .double s.conversion → y = b.expr.prepared .double s.conversion →
      Types s (binary (.arithmetic op calculator) a b i)
        (binary (.arithmetic op (.select op x.itemType.atomized y.itemType.atomized))
          ⟨a.role, x⟩ ⟨b.role, y⟩ i).refresh
  /-- The operands of a comparison are prepared. -/
  | compare {op : ComparisonOp} {a b : Operand} {i : Info} :
      a.expr.cardinality.isEmptyOnly = false → b.expr.cardinality.isEmptyOnly = false →
      AtomicType.comparable (a.expr.prepared .string .strict).itemType.atomized
        (b.expr.prepared .string .strict).itemType.atomized = true →
      Types s (binary (.compare op) a b i)
        (binary (.compare op) ⟨a.role, a.expr.prepared .string .strict⟩
          ⟨b.role, b.expr.prepared .string .strict⟩ i).refresh
  /-- The operand of a cast is atomized. -/
  | cast {target : AtomicType} {allowsEmpty : Bool} {a : Operand} {i : Info} :
      Types s (unary (.cast target allowsEmpty) a i)
        (unary (.cast target allowsEmpty) ⟨a.role, a.expr.atomized⟩ i).refresh

theorem eq_prepared_of_arithmeticOperand {x : Expr} (h : arithmeticOperand s e = .ok x) :
    x = e.prepared .double s.conversion := by
  unfold arithmeticOperand at h
  simp only at h
  split at h
  · simp at h
  · exact (Except.ok.inj h).symm

theorem types_of_typedArithmetic {op : ArithmeticOp} {calculator : Calculator} {a b : Operand} {i : Info}
    (ht : typedArithmetic s op (binary (.arithmetic op calculator) a b i) a b i = .ok t) :
    Types s (binary (.arithmetic op calculator) a b i) t := by
  unfold typedArithmetic at ht
  split at ht
  case isTrue h =>
    obtain rfl := Except.ok.inj ht
    rcases Bool.or_eq_true_iff.mp h with ha | hb
    · exact .nothing (a := a) trivial (by simp) ha
    · exact .nothing (a := b) trivial (by simp) hb
  case isFalse h =>
    obtain ⟨x, hx, ht⟩ := bind_eq_ok_iff.mp ht
    obtain ⟨y, hy, ht⟩ := bind_eq_ok_iff.mp ht
    obtain rfl := Except.ok.inj ht
    obtain ⟨ha, hb⟩ := Bool.or_eq_false_iff.mp (Bool.eq_false_iff.mpr h)
    exact .arithmetic ha hb (eq_prepared_of_arithmeticOperand hx) (eq_prepared_of_arithmeticOperand hy)

theorem types_of_typedComparison {op : ComparisonOp} {a b : Operand} {i : Info}
    (ht : typedComparison op (binary (.compare op) a b i) a b i = .ok t) :
    Types s (binary (.compare op) a b i) t := by
  unfold typedComparison at ht
  split at ht
  case isTrue h =>
    obtain rfl := Except.ok.inj ht
    rcases Bool.or_eq_true_iff.mp h with ha | hb
    · exact .nothing (a := a) trivial (by simp) ha
    · exact .nothing (a := b) trivial (by simp) hb
  case isFalse h =>
    obtain ⟨ha, hb⟩ := Bool.or_eq_false_iff.mp (Bool.eq_false_iff.mpr h)
    simp only at ht
    split at ht
    · obtain rfl := Except.ok.inj ht
      exact .compare ha hb ‹_›
    · simp at ht

theorem types_of_typedCall {function : BuiltIn} {args : List Operand} {i : Info}
    (ht : typedCall function (variadic (.call function) args i) args = .ok t) :
    Types s (variadic (.call function) args i) t := by
  cases args with
  | nil =>
    obtain rfl := Except.ok.inj ht
    exact .stays rfl
  | cons a rest =>
    have settled {v : Value} (hv : ValueOfNothing function v)
        (ht : typedCall.settled (variadic (.call function) (a :: rest) i) a.expr.cardinality v = .ok t) :
        Types s (variadic (.call function) (a :: rest) i) t := by
      obtain rfl := Except.ok.inj ht
      split
      · exact .value hv ‹_›
      · exact .stays rfl
    cases function with
    | exactlyOne =>
      simp only [typedCall] at ht
      split at ht
      · simp at ht
      · split at ht <;> obtain rfl := Except.ok.inj ht
        · exact .holds (.exactlyOne ‹_›)
        · exact .stays rfl
    | zeroOrOne =>
      obtain rfl := Except.ok.inj ht
      split
      · exact .holds (.zeroOrOne ‹_›)
      · exact .stays rfl
    | existence => exact settled .existence ht
    | emptiness => exact settled .emptiness ht
    | count => exact settled .count ht
    | negation | truth | data | subsequence =>
      obtain rfl := Except.ok.inj ht
      exact .stays rfl

theorem types_of_typedCheck {required : Cardinality} {a : Operand} {i : Info}
    (ht : typedCheck required (unary (.check required) a i) a.expr = .ok t) :
    Types s (unary (.check required) a i) t := by
  unfold typedCheck at ht
  simp only at ht
  split at ht
  · simp at ht
  · split at ht
    · simp at ht
    · split at ht <;> obtain rfl := Except.ok.inj ht
      · exact .holds (.check ‹_›)
      · exact .stays rfl

theorem types_of_typedCast {target : AtomicType} {allowsEmpty : Bool} {a : Operand} {i : Info}
    (ht : typedCast target allowsEmpty (unary (.cast target allowsEmpty) a i) a i = .ok t) :
    Types s (unary (.cast target allowsEmpty) a i) t := by
  unfold typedCast at ht
  split at ht
  · simp at ht
  · split at ht
    · split at ht
      · obtain rfl := Except.ok.inj ht
        exact .nothing (a := a) ‹_› (by simp) ‹_›
      · simp at ht
    · obtain rfl := Except.ok.inj ht
      exact .cast

/-- Typing of a single expression makes at most one change. -/
theorem types_of_typedHere (ht : typedHere s e = .ok t) : Types s e t := by
  unfold typedHere at ht
  split at ht
  · split at ht
    · obtain rfl := Except.ok.inj ht
      exact .global ‹_›
    · simp at ht
  · exact types_of_typedArithmetic ht
  · exact types_of_typedComparison ht
  · exact types_of_typedCall ht
  · exact types_of_typedCheck ht
  · exact types_of_typedCast ht
  · unfold typedPath at ht
    split at ht
    · simp at ht
    · obtain rfl := Except.ok.inj ht
      exact .stays rfl
  · rename_i harithmetic hcompare _ _ _ _
    obtain rfl := Except.ok.inj ht
    refine .stays ?_
    rcases e with _ | _ | ⟨op, a, b, i⟩ | _ | _
    case binary =>
      cases op with
      | arithmetic op calculator => exact (harithmetic op calculator a b i rfl).elim
      | compare op => exact (hcompare op a b i rfl).elim
      | _ => rfl
    all_goals rfl

/-! ### Rejections -/

/-- Why an expression whose operands are typed is rejected, and with what error. -/
inductive Rejects (s : StaticContext) : Expr → Error → Prop
  | undeclared {name : Name} {old : Option SequenceType} {i : Info} : s.globalType? name = none →
      Rejects s (leaf (.global name old) i) ((leaf (.global name old) i).typeError (.undeclaredVariable name))
  /-- The values of an operand are certainly not numbers.  It is rejected with its conversions around it. -/
  | operand {op : ArithmeticOp} {calculator : Calculator} {a b x : Operand} {i : Info} :
      x ∈ (binary (.arithmetic op calculator) a b i).operands →
      (x.expr.prepared .double s.conversion).itemType.atomized.isKnownNonNumeric = true →
        Rejects s (binary (.arithmetic op calculator) a b i) ((x.expr.prepared .double s.conversion).typeError
          (.operandNotNumeric (x.expr.prepared .double s.conversion).itemType.atomized))
  | compare {op : ComparisonOp} {a b : Operand} {i : Info} {t u : AtomicType} :
      t = (a.expr.prepared .string .strict).itemType.atomized →
      u = (b.expr.prepared .string .strict).itemType.atomized → AtomicType.comparable t u = false →
        Rejects s (binary (.compare op) a b i) ((binary (.compare op) a b i).typeError (.incomparableTypes t u))
  | exactlyOne {a : Operand} {rest : List Operand} {i : Info} : a.expr.cardinality.isEmptyOnly = true →
      Rejects s (variadic (.call .exactlyOne) (a :: rest) i)
        ((variadic (.call .exactlyOne) (a :: rest) i).typeError .neverExactlyOne)
  | alwaysEmpty {required : Cardinality} {a : Operand} {i : Info} : a.expr.cardinality.isEmptyOnly = true →
      required.zero = false →
        Rejects s (unary (.check required) a i) ((unary (.check required) a i).typeError .alwaysEmpty)
  /-- No number of items that is known to be possible passes a check. -/
  | unsatisfiable {required : Cardinality} {a : Operand} {i : Info} :
      a.expr.cardinality.inter required = .impossible →
        Rejects s (unary (.check required) a i) ((unary (.check required) a i).typeError (.unsatisfiable required))
  | abstractTarget {target : AtomicType} {allowsEmpty : Bool} {a : Operand} {i : Info} :
      Rejects s (unary (.cast target allowsEmpty) a i)
        ((unary (.cast target allowsEmpty) a i).typeError (.abstractTarget target))
  | cast {target : AtomicType} {a : Operand} {i : Info} : a.expr.cardinality.isEmptyOnly = true →
      Rejects s (unary (.cast target false) a i) ((unary (.cast target false) a i).typeError .alwaysEmptyCast)
  | path {a b : Operand} {i : Info} : a.expr.itemType.isAtomic = true →
      Rejects s (binary .path a b i) ((binary .path a b i).typeError .axisOnAtomics)

theorem rejects_of_typedArithmetic {op : ArithmeticOp} {calculator : Calculator} {a b : Operand} {i : Info}
    (failed : typedArithmetic s op (binary (.arithmetic op calculator) a b i) a b i = .error err) :
    Rejects s (binary (.arithmetic op calculator) a b i) err := by
  have operand {x : Operand} (hx : x ∈ (binary (.arithmetic op calculator) a b i).operands)
      (failed : arithmeticOperand s x.expr = .error err) : Rejects s (binary (.arithmetic op calculator) a b i) err := by
    unfold arithmeticOperand at failed
    simp only at failed
    split at failed
    · obtain rfl := Except.error.inj failed
      exact .operand hx ‹_›
    · cases failed
  unfold typedArithmetic at failed
  split at failed
  · cases failed
  · rcases bind_eq_error_iff.mp failed with failed | ⟨x, -, failed⟩
    · exact operand (by simp) failed
    · rcases bind_eq_error_iff.mp failed with failed | ⟨y, -, failed⟩
      · exact operand (by simp) failed
      · cases failed

theorem rejects_of_typedCall {function : BuiltIn} {args : List Operand} {i : Info}
    (failed : typedCall function (variadic (.call function) args i) args = .error err) :
    Rejects s (variadic (.call function) args i) err := by
  cases args with
  | nil => cases failed
  | cons a rest =>
    cases function with
    | exactlyOne =>
      simp only [typedCall] at failed
      split at failed
      · obtain rfl := Except.error.inj failed
        exact .exactlyOne ‹_›
      · split at failed <;> cases failed
    | _ => cases failed

theorem rejects_of_typedCheck {required : Cardinality} {a : Operand} {i : Info}
    (failed : typedCheck required (unary (.check required) a i) a.expr = .error err) :
    Rejects s (unary (.check required) a i) err := by
  unfold typedCheck at failed
  simp only at failed
  split at failed
  case isTrue h =>
    obtain rfl := Except.error.inj failed
    obtain ⟨hempty, hzero⟩ := Bool.and_eq_true_iff.mp h
    exact .alwaysEmpty hempty (by simpa using hzero)
  case isFalse =>
    split at failed
    · obtain rfl := Except.error.inj failed
      exact .unsatisfiable ‹_›
    · split at failed <;> cases failed

theorem rejects_of_typedCast {target : AtomicType} {allowsEmpty : Bool} {a : Operand} {i : Info}
    (failed : typedCast target allowsEmpty (unary (.cast target allowsEmpty) a i) a i = .error err) :
    Rejects s (unary (.cast target allowsEmpty) a i) err := by
  unfold typedCast at failed
  split at failed
  · obtain rfl := Except.error.inj failed
    exact .abstractTarget
  · split at failed
    · cases allowsEmpty with
      | true => cases failed
      | false =>
        obtain rfl := Except.error.inj failed
        exact .cast ‹_›
    · cases failed

/-- Typing rejects an expression for what is known of its operands. -/
theorem rejects_of_typedHere (failed : typedHere s e = .error err) : Rejects s e err := by
  unfold typedHere at failed
  split at failed
  · split at failed
    · cases failed
    · obtain rfl := Except.error.inj failed
      exact .undeclared ‹_›
  · exact rejects_of_typedArithmetic failed
  · unfold typedComparison at failed
    split at failed
    · cases failed
    · simp only at failed
      split at failed
      · cases failed
      · obtain rfl := Except.error.inj failed
        exact .compare rfl rfl (Bool.eq_false_iff.mpr ‹_›)
  · exact rejects_of_typedCall failed
  · exact rejects_of_typedCheck failed
  · exact rejects_of_typedCast failed
  · unfold typedPath at failed
    split at failed
    case isTrue h =>
      obtain rfl := Except.error.inj failed
      simp only [Bool.and_eq_true] at h
      exact .path h.1.2
    case isFalse => cases failed
  · cases failed

/-- An expression is rejected after its operands are typed. -/
theorem rejects_of_settle (failed : settle s e = .error err) : Rejects s e.refresh err := by
  unfold settle at failed
  cases hx : typedHere s e.refresh with
  | error err' =>
    rw [hx] at failed
    obtain rfl := Except.error.inj failed
    exact rejects_of_typedHere hx
  | ok x =>
    rw [hx] at failed
    cases failed

/-! ### Steps -/

/-- An expression is typed after its operands are, and becomes the empty literal if it never gives an item. -/
theorem exists_typedHere (ht : typedIn s scope e = .ok t) :
    ∃ e' r, OperandsTyped s scope e e' ∧ typedHere s e'.refresh = .ok r ∧ t = r.collapseEmpty := by
  obtain ⟨e', operands, ht⟩ := exists_operandsTyped ht
  unfold settle at ht
  obtain ⟨r, hr, rfl⟩ := map_eq_ok_iff.mp ht
  exact ⟨e', r, operands, hr, rfl⟩

/-- An expression is typed by one change after its operands are. -/
theorem exists_types (ht : typedIn s scope e = .ok t) :
    ∃ e' r, OperandsTyped s scope e e' ∧ Types s e'.refresh r ∧ t = r.collapseEmpty := by
  obtain ⟨e', r, operands, hr, ht⟩ := exists_typedHere ht
  exact ⟨e', r, operands, types_of_typedHere hr, ht⟩

end Expr

end TreeQuery
