/-
The structure of expressions.

What holds of an expression because it holds of its parts is proved by `Expr.inductOperands`, which has
one case for all operators.  `Expr.Everywhere` says a property of an expression and of everything inside
it, where each part comes with the scope it stands in; `Expr.Throughout` says the same where the scope does
not matter; and `Expr.Occurs` says that an expression stands somewhere inside another one.

`Expr.Built` are the expressions that construction gives: `Unary.on`, `Binary.on`, `Expr.choose`,
`Expr.block` and `Expr.call` over operators without operands, with variables that an allocator hands out.

What an expression refers to is what its operands refer to, unless it is a reference itself
(`Expr.mem_references_iff`).  What typing puts around an operand keeps whatever each single operator that is
put around it keeps (`Expr.prepared_induction`).

`Expr.Evaluates` says where the operands of an expression are evaluated when the expression is evaluated
to the end, and `Expr.Reaches` says the same of everything inside it.
-/
import TreeQuery.Expr.Construction
import TreeQuery.Expr.Typing
import TreeQuery.Proofs.Evaluation

namespace TreeQuery

/-! ### Allocation -/

/-- The allocators that come about by handing out variables. -/
inductive Allocator.Reachable : Allocator → Prop
  | initial : Reachable .initial
  | declare {a : Allocator} (name : Name) : Reachable a → Reachable (a.declare name).2

theorem Allocator.Reachable.nextId_eq {a : Allocator} (h : a.Reachable) : a.nextId = a.nextSlot := by
  induction h with
  | initial => rfl
  | declare name _ ih => simp [Allocator.declare, ih]

/-- The variables that an allocator hands out. -/
def Binding.Allocated (b : Binding) : Prop :=
  ∃ (a : Allocator) (name : Name), a.Reachable ∧ (a.declare name).1 = b

theorem Binding.Allocated.id_eq_slot {b : Binding} (h : b.Allocated) : b.id = b.slot := by
  obtain ⟨a, name, ha, rfl⟩ := h
  exact ha.nextId_eq

/-- Whether both operands are evaluated once each in the context of the expression. -/
def Binary.isPlain : Binary → Bool
  | arithmetic _ _ => true
  | compare _ => true
  | range => true
  | union => true
  | _ => false

namespace Expr

/-! ### Parts -/

theorem sizeOf_expr_lt {e : Expr} {a : Operand} (h : a ∈ e.operands) : sizeOf a.expr < sizeOf e := by
  have operand (a : Operand) : sizeOf a.expr < sizeOf a := by
    obtain ⟨role, e⟩ := a
    simp only [Operand.expr, Operand.mk.sizeOf_spec]
    omega
  have := operand a
  cases e with
  | leaf op i => simp [operands] at h
  | unary op x i =>
    obtain rfl : a = x := by simpa [operands] using h
    simp only [unary.sizeOf_spec]
    omega
  | binary op x y i =>
    simp only [binary.sizeOf_spec]
    simp only [operands, List.mem_cons, List.not_mem_nil, or_false] at h
    rcases h with rfl | rfl <;> omega
  | choice x y n i =>
    simp only [choice.sizeOf_spec]
    simp only [operands, List.mem_cons, List.not_mem_nil, or_false] at h
    rcases h with rfl | rfl | rfl <;> omega
  | variadic op args i =>
    have := List.sizeOf_lt_of_mem (show a ∈ args from h)
    simp only [variadic.sizeOf_spec]
    omega

theorem eq_of_literal? {e : Expr} {vs : List Value} (h : e.literal? = some vs) :
    e = leaf (.literal vs) e.info := by
  unfold literal? at h
  split at h
  · rw [Option.some.inj h]
    rfl
  · simp at h

theorem exists_literal {e : Expr} (h : e.isLiteral = true) : ∃ vs, e = leaf (.literal vs) e.info := by
  obtain ⟨vs, hvs⟩ := Option.isSome_iff_exists.mp h
  exact ⟨vs, eq_of_literal? hvs⟩

/-- What holds of an expression if it holds of its operands holds of all expressions. -/
theorem inductOperands {P : Expr → Prop} (h : ∀ e, (∀ a ∈ e.operands, P a.expr) → P e) (e : Expr) :
    P e :=
  h e fun a _ => inductOperands h a.expr
termination_by sizeOf e
decreasing_by exact sizeOf_expr_lt ‹_›

/-- The operands, each with the scope it stands in. -/
def operandsIn (scope : Scope) : Expr → List (Scope × Expr)
  | leaf _ _ => []
  | unary _ a _ => [(scope, a.expr)]
  | binary op a b _ => [(scope, a.expr), (op.scope a.expr scope, b.expr)]
  | choice x y n _ => [(scope, x.expr), (scope, y.expr), (scope, n.expr)]
  | variadic _ args _ => args.map fun a => (scope, a.expr)

theorem exists_operand_of_mem_operandsIn {scope : Scope} {e : Expr} {p : Scope × Expr}
    (h : p ∈ e.operandsIn scope) : ∃ a ∈ e.operands, a.expr = p.2 := by
  cases e with
  | leaf op i => simp [operandsIn] at h
  | unary op a i =>
    obtain rfl : p = _ := by simpa [operandsIn] using h
    exact ⟨a, by simp [operands], rfl⟩
  | binary op a b i =>
    simp only [operandsIn, List.mem_cons, List.not_mem_nil, or_false] at h
    rcases h with rfl | rfl
    · exact ⟨a, by simp [operands], rfl⟩
    · exact ⟨b, by simp [operands], rfl⟩
  | choice x y n i =>
    simp only [operandsIn, List.mem_cons, List.not_mem_nil, or_false] at h
    rcases h with rfl | rfl | rfl
    · exact ⟨x, by simp [operands], rfl⟩
    · exact ⟨y, by simp [operands], rfl⟩
    · exact ⟨n, by simp [operands], rfl⟩
  | variadic op args i =>
    obtain ⟨a, ha, rfl⟩ := List.mem_map.mp h
    exact ⟨a, ha, rfl⟩

/-- A property of an expression and of all that is inside it. -/
inductive Everywhere (P : Scope → Expr → Prop) : Scope → Expr → Prop
  | mk {scope : Scope} {e : Expr} : P scope e →
      (∀ p ∈ e.operandsIn scope, Everywhere P p.1 p.2) → Everywhere P scope e

/-- An expression with its scope somewhere inside another. -/
inductive Occurs (scope : Scope) (e : Expr) : Scope → Expr → Prop
  | root : Occurs scope e scope e
  | operand {scope' : Scope} {e' : Expr} {p : Scope × Expr} : Occurs scope e scope' e' →
      p ∈ e'.operandsIn scope' → Occurs scope e p.1 p.2

namespace Everywhere

variable {P Q : Scope → Expr → Prop} {scope scope' : Scope} {e e' : Expr}

theorem here (h : Everywhere P scope e) : P scope e := by
  obtain ⟨h, _⟩ := h
  exact h

theorem operand (h : Everywhere P scope e) {p : Scope × Expr} (hp : p ∈ e.operandsIn scope) :
    Everywhere P p.1 p.2 := by
  obtain ⟨_, h⟩ := h
  exact h p hp

theorem of_occurs (h : Everywhere P scope e) (occurs : Occurs scope e scope' e') :
    Everywhere P scope' e' := by
  induction occurs with
  | root => exact h
  | operand _ hp ih => exact ih.operand hp

/-- The property of the parts does not look at what an expression carries itself. -/
theorem withInfo (h : Everywhere P scope e) {i : Info} (hP : P scope (e.withInfo i)) :
    Everywhere P scope (e.withInfo i) := by
  refine .mk hP fun p hp => h.operand ?_
  cases e <;> exact hp

section Parts

variable {a b x y n : Operand} {i : Info} {args : List Operand}

theorem unary {op : Unary} (h : Everywhere P scope (unary op a i)) : Everywhere P scope a.expr :=
  h.operand (p := (scope, a.expr)) (by simp [operandsIn])

theorem left {op : Binary} (h : Everywhere P scope (binary op a b i)) :
    Everywhere P scope a.expr :=
  h.operand (p := (scope, a.expr)) (by simp [operandsIn])

theorem right {op : Binary} (h : Everywhere P scope (binary op a b i)) :
    Everywhere P (op.scope a.expr scope) b.expr :=
  h.operand (p := (op.scope a.expr scope, b.expr)) (by simp [operandsIn])

theorem condition (h : Everywhere P scope (choice x y n i)) : Everywhere P scope x.expr :=
  h.operand (p := (scope, x.expr)) (by simp [operandsIn])

theorem yes (h : Everywhere P scope (choice x y n i)) : Everywhere P scope y.expr :=
  h.operand (p := (scope, y.expr)) (by simp [operandsIn])

theorem no (h : Everywhere P scope (choice x y n i)) : Everywhere P scope n.expr :=
  h.operand (p := (scope, n.expr)) (by simp [operandsIn])

theorem argument {op : Variadic} (h : Everywhere P scope (variadic op args i)) (ha : a ∈ args) :
    Everywhere P scope a.expr :=
  h.operand (p := (scope, a.expr)) (List.mem_map.mpr ⟨a, ha, rfl⟩)

end Parts

end Everywhere

/-- A property of an expression and of all that is inside it, wherever it stands. -/
inductive Throughout (P : Expr → Prop) : Expr → Prop
  | mk {e : Expr} : P e → (∀ a ∈ e.operands, Throughout P a.expr) → Throughout P e

namespace Throughout

variable {P Q : Expr → Prop} {e : Expr}

theorem here (h : Throughout P e) : P e := by
  obtain ⟨h, _⟩ := h
  exact h

theorem operand (h : Throughout P e) {a : Operand} (ha : a ∈ e.operands) : Throughout P a.expr := by
  obtain ⟨_, h⟩ := h
  exact h a ha

theorem mono (h : Throughout P e) (hPQ : ∀ e, P e → Q e) : Throughout Q e := by
  induction e using inductOperands with
  | h e ih => exact .mk (hPQ e h.here) fun a ha => ih a ha (h.operand ha)

theorem and (h : Throughout P e) (h' : Throughout Q e) : Throughout (fun e => P e ∧ Q e) e := by
  induction e using inductOperands with
  | h e ih => exact .mk ⟨h.here, h'.here⟩ fun a ha => ih a ha (h.operand ha) (h'.operand ha)

/-- What holds throughout an expression holds throughout each of its parts. -/
theorem parts (h : Throughout P e) : Throughout (Throughout P) e := by
  induction e using inductOperands with
  | h e ih => exact .mk h fun a ha => ih a ha (h.operand ha)

end Throughout

theorem mem_operandsIn_of_operand {e : Expr} {a : Operand} (scope : Scope) (h : a ∈ e.operands) :
    ∃ scope', (scope', a.expr) ∈ e.operandsIn scope := by
  cases e with
  | leaf op i => simp [operands] at h
  | unary op b i =>
    obtain rfl : a = b := by simpa [operands] using h
    exact ⟨scope, by simp [operandsIn]⟩
  | binary op b b' i =>
    simp only [operands, List.mem_cons, List.not_mem_nil, or_false] at h
    rcases h with rfl | rfl
    · exact ⟨scope, by simp [operandsIn]⟩
    · exact ⟨op.scope b.expr scope, by simp [operandsIn]⟩
  | choice x y n i =>
    simp only [operands, List.mem_cons, List.not_mem_nil, or_false] at h
    rcases h with rfl | rfl | rfl <;> exact ⟨scope, by simp [operandsIn]⟩
  | variadic op args i => exact ⟨scope, List.mem_map.mpr ⟨a, h, rfl⟩⟩

theorem Everywhere.throughout {P : Scope → Expr → Prop} {Q : Expr → Prop} {scope : Scope} {e : Expr}
    (h : Everywhere P scope e) (hPQ : ∀ scope e, P scope e → Q e) : Throughout Q e := by
  induction e using inductOperands generalizing scope with
  | h e ih =>
    refine .mk (hPQ scope e h.here) fun a ha => ?_
    obtain ⟨scope', hp⟩ := mem_operandsIn_of_operand scope ha
    exact ih a ha (h.operand hp)

theorem throughout_iff_occurs {P : Expr → Prop} {e : Expr} (scope : Scope) :
    Throughout P e ↔ ∀ scope' part, Occurs scope e scope' part → P part := by
  constructor
  · intro h scope' part occurs
    have : Throughout P part := by
      induction occurs with
      | root => exact h
      | operand _ hp ih =>
        obtain ⟨a, ha, heq⟩ := exists_operand_of_mem_operandsIn hp
        exact heq ▸ ih.operand ha
    exact this.here
  · intro h
    have inside (part : Expr) : ∀ scope', Occurs scope e scope' part → Throughout P part := by
      induction part using inductOperands with
      | h part ih =>
        intro scope' occurs
        refine .mk (h scope' part occurs) fun a ha => ?_
        obtain ⟨scope'', hp⟩ := mem_operandsIn_of_operand scope' ha
        exact ih a ha scope'' (.operand occurs hp)
    exact inside e scope .root

/-- The same operator with other operands. -/
def mapOperands (g : Operand → Operand) : Expr → Expr
  | leaf op i => leaf op i
  | unary op a i => unary op (g a) i
  | binary op a b i => binary op (g a) (g b) i
  | choice x y n i => choice (g x) (g y) (g n) i
  | variadic op args i => variadic op (args.map g) i

@[simp] theorem mapOperands_id (e : Expr) : e.mapOperands id = e := by
  cases e <;> simp [mapOperands]

@[simp] theorem operands_mapOperands (g : Operand → Operand) (e : Expr) :
    (e.mapOperands g).operands = e.operands.map g := by
  cases e <;> rfl

/-! ### Operators and what they carry -/

section Constructors

variable (a b x y n : Operand) (args : List Operand) (i : Info) (op : Binary)

@[simp] theorem operands_leaf (op : Leaf) : (leaf op i).operands = [] := rfl

@[simp] theorem operands_unary (op : Unary) : (unary op a i).operands = [a] := rfl

@[simp] theorem operands_binary : (binary op a b i).operands = [a, b] := rfl

@[simp] theorem operands_choice : (choice x y n i).operands = [x, y, n] := rfl

@[simp] theorem operands_variadic (op : Variadic) : (variadic op args i).operands = args := rfl

end Constructors

section WithInfo

variable (e : Expr) (i : Info) (l : Location)

@[simp] theorem info_withInfo : (e.withInfo i).info = i := by cases e <;> rfl

@[simp] theorem operands_withInfo : (e.withInfo i).operands = e.operands := by cases e <;> rfl

@[simp] theorem computed_withInfo : (e.withInfo i).computed = e.computed := by
  rcases e with _ | _ | _ | _ | ⟨_ | _, _, _⟩ <;> rfl

@[simp] theorem literal?_withInfo : (e.withInfo i).literal? = e.literal? := by
  rcases e with ⟨_ | _ | _ | _ | _ | _ | _ | _, _⟩ | _ | _ | _ | _ <;> rfl

@[simp] theorem isLiteral_withInfo : (e.withInfo i).isLiteral = e.isLiteral := by
  simp [isLiteral]

@[simp] theorem props_withInfo : (e.withInfo i).props = i.props := by simp [props]

@[simp] theorem props_withLocation : (e.withLocation l).props = e.props := by simp [withLocation]

@[simp] theorem cardinality_withLocation : (e.withLocation l).cardinality = e.cardinality := by
  simp [cardinality]

@[simp] theorem cardinality_replacing (old : Expr) : (old.replacing e).cardinality = e.cardinality := by
  unfold replacing
  split
  · exact cardinality_withLocation e _
  · rfl

@[simp] theorem isLiteral_withLocation : (e.withLocation l).isLiteral = e.isLiteral := by
  simp [withLocation]

@[simp] theorem operands_withLocation : (e.withLocation l).operands = e.operands := by
  simp [withLocation]

@[simp] theorem props_refresh : e.refresh.props = e.computed := by simp [refresh]

@[simp] theorem operands_refresh : e.refresh.operands = e.operands := by simp [refresh]

@[simp] theorem computed_refresh : e.refresh.computed = e.computed := by simp [refresh]

theorem refresh_eq_self {e : Expr} (h : e.props = e.computed) : e.refresh = e := by
  rw [refresh, ← h]
  cases e <;> rfl

theorem operandsIn_withInfo (scope : Scope) :
    (e.withInfo i).operandsIn scope = e.operandsIn scope := by
  cases e <;> rfl

end WithInfo

/-- The operands that are evaluated with the focus of the expression. -/
def inheritors : Expr → List Operand
  | binary .path a _ _ => [a]
  | binary .filter a _ _ => [a]
  | e => e.operands

@[simp] theorem inheritors_withInfo (e : Expr) (i : Info) :
    (e.withInfo i).inheritors = e.inheritors := by
  rcases e with _ | _ | ⟨op, _, _, _⟩ | _ | _
  case binary => cases op <;> rfl
  all_goals rfl

@[simp] theorem inheritors_refresh (e : Expr) : e.refresh.inheritors = e.inheritors := by
  simp [refresh]

theorem mem_operands_of_mem_inheritors {e : Expr} {a : Operand} (h : a ∈ e.inheritors) :
    a ∈ e.operands := by
  unfold inheritors at h
  split at h
  · exact List.mem_cons.mpr (.inl (List.mem_singleton.mp h))
  · exact List.mem_cons.mpr (.inl (List.mem_singleton.mp h))
  · exact h

/-! ### References -/

section References

variable {e : Expr} {a : Operand} {v : Binding}

theorem operandReferences_eq (a : Operand) : operandReferences a = a.expr.references := by
  obtain ⟨role, e⟩ := a
  rw [operandReferences]
  rfl

theorem argumentReferences_eq (args : List Operand) :
    argumentReferences args = args.flatMap (·.expr.references) := by
  induction args with
  | nil => rfl
  | cons a rest ih => rw [argumentReferences, operandReferences_eq, ih, List.flatMap_cons]

/-- What refers to a variable is a reference to it or has one inside. -/
theorem mem_references_iff : v ∈ e.references ↔
    (∃ type i, e = leaf (.variable v type) i) ∨ ∃ a ∈ e.operands, v ∈ a.expr.references := by
  cases e with
  | leaf op i => cases op <;> simp [references, operands, eq_comm]
  | unary op a i => simp [references, operandReferences_eq]
  | binary op a b i => simp [references, operandReferences_eq]
  | choice x y n i => simp [references, operandReferences_eq]
  | variadic op args i => simp [references, argumentReferences_eq]

theorem mem_references_of_operand (ha : a ∈ e.operands) (hv : v ∈ a.expr.references) : v ∈ e.references :=
  mem_references_iff.mpr (.inr ⟨a, ha, hv⟩)

end References

/-! ### Construction -/

/-- The expressions that construction gives; `checks` says whether checks of the number of items may be
among them. -/
inductive Built (checks : Bool) : Expr → Prop
  | literal (vs : List Value) (l : Location) : Built checks (.ofLeaf (.literal vs) l)
  | contextItem (l : Location) : Built checks (.ofLeaf .contextItem l)
  | position (l : Location) : Built checks (.ofLeaf .position l)
  | last (l : Location) : Built checks (.ofLeaf .last l)
  | reference {v : Binding} (l : Location) :
      v.Allocated → Built checks (.ofLeaf (.variable v none) l)
  | global (name : Name) (l : Location) : Built checks (.ofLeaf (.global name none) l)
  | step (axis : Axis) (test : NodeTest) (l : Location) : Built checks (.ofLeaf (.step axis test) l)
  | nextMatch (l : Location) : Built checks (.ofLeaf .nextMatch l)
  | atomize {e : Expr} (l : Location) : Built checks e → Built checks (Unary.atomize.on e l)
  | cast {e : Expr} (target : AtomicType) (allowsEmpty : Bool) (l : Location) :
      Built checks e → Built checks ((Unary.cast target allowsEmpty).on e l)
  | check {e : Expr} (required : Cardinality) (l : Location) :
      checks = true → Built checks e → Built checks ((Unary.check required).on e l)
  | applyRules {e : Expr} (mode : ModeName) (l : Location) :
      Built checks e → Built checks ((Unary.applyRules mode).on e l)
  | letIn {v : Binding} {e f : Expr} (l : Location) :
      v.Allocated → Built checks e → Built checks f → Built checks ((Binary.letIn v).on e f l)
  | forIn {v : Binding} {e f : Expr} (l : Location) :
      v.Allocated → Built checks e → Built checks f → Built checks ((Binary.forIn v).on e f l)
  | arithmetic {e f : Expr} (op : ArithmeticOp) (l : Location) :
      Built checks e → Built checks f → Built checks ((Binary.arithmetic op .generic).on e f l)
  | compare {e f : Expr} (op : ComparisonOp) (l : Location) :
      Built checks e → Built checks f → Built checks ((Binary.compare op).on e f l)
  | logical {e f : Expr} (op : LogicalOp) (l : Location) :
      Built checks e → Built checks f → Built checks ((Binary.logical op).on e f l)
  | range {e f : Expr} (l : Location) :
      Built checks e → Built checks f → Built checks (Binary.range.on e f l)
  | path {e f : Expr} (l : Location) :
      Built checks e → Built checks f → Built checks (Binary.path.on e f l)
  | filter {e f : Expr} (l : Location) :
      Built checks e → Built checks f → Built checks (Binary.filter.on e f l)
  | union {e f : Expr} (l : Location) :
      Built checks e → Built checks f → Built checks (Binary.union.on e f l)
  | choose {x y n : Expr} (l : Location) :
      Built checks x → Built checks y → Built checks n → Built checks (choose x y n l)
  | block {parts : List Expr} (l : Location) :
      (∀ e ∈ parts, Built checks e) → Built checks (block parts l)
  | call {function : BuiltIn} {args : List Expr} {l : Location} {e : Expr} :
      (∀ a ∈ args, Built checks a) → Expr.call function args l = .ok e → Built checks e

/-! ### What typing puts around operands -/

section Preparation

variable {P : Expr → Prop} {e : Expr}

/-- What holds of an expression and of its atomization holds of it after it was atomized if need be. -/
theorem atomized_induction (h : P e) (wrapped : P (e.wrapped .atomize)) : P e.atomized := by
  unfold atomized
  split
  · exact h
  · split
    · exact h
    · exact wrapped

/-- What any operator that is put around an operand keeps, preparation of the operand keeps. -/
theorem prepared_induction (h : P e) (wrapped : ∀ (e : Expr) (op : Unary), P e → P (e.wrapped op))
    (target : AtomicType) (conversion : Conversion) : P (e.prepared target conversion) := by
  have atomized : P e.atomized := atomized_induction h (wrapped e .atomize h)
  have limited : P e.atomized.limited := by
    unfold Expr.limited
    split
    · exact wrapped _ _ atomized
    · exact atomized
  unfold prepared
  split
  · exact h
  · unfold converted
    split
    · exact wrapped _ _ limited
    · exact limited

/-- What holds of an expression and of the empty literal holds of what is known not to give an item as well. -/
theorem collapseEmpty_induction (h : P e) (nothing : P (e.replacing empty)) : P e.collapseEmpty := by
  unfold collapseEmpty
  split
  · exact h
  · exact nothing

end Preparation

/-! ### Evaluation of operands -/

/-- One expression is evaluated in one context, and then, in the course of it, an operand of it in
another. -/
inductive Evaluates (d : Dispatcher) : Expr → Context → Expr → Context → Prop
  | unary {op : Unary} {a : Operand} {i : Info} {c : Context} :
      (∀ mode, op ≠ .applyRules mode) → Evaluates d (unary op a i) c a.expr c
  | selection {mode : ModeName} {a : Operand} {i : Info} {c : Context} :
      Evaluates d (.unary (.applyRules mode) a i) c a.expr c.withOutput
  | first {op : Binary} {a b : Operand} {i : Info} {c : Context} :
      Evaluates d (binary op a b i) c a.expr c
  | letBody {v : Binding} {a b : Operand} {i : Info} {c : Context} {xs : Sequence} :
      a.expr.run d c = .ofList xs →
        Evaluates d (binary (.letIn v) a b i) c b.expr (c.setSlot v.slot xs)
  | forBody {v : Binding} {a b : Operand} {i : Info} {c : Context} {item : Item} :
      item ∈ (a.expr.run d c).items →
        Evaluates d (binary (.forIn v) a b i) c b.expr (c.setSlot v.slot [item])
  | step {a b : Operand} {i : Info} {c : Context} {before n : Nat} :
      ((a.expr.run d c).wholeIf b.expr.dependencies.last).items[before]? = some (.node n) →
        Evaluates d (binary .path a b i) c b.expr
          (c.withFocus (.node n) (before + 1) (a.expr.sizeIf d b.expr.dependencies.last c))
  | predicate {a b : Operand} {i : Info} {c : Context} {before : Nat} {item : Item} :
      ((a.expr.run d c).wholeIf b.expr.dependencies.last).items[before]? = some item →
        Evaluates d (binary .filter a b i) c b.expr
          (c.withFocus item (before + 1) (a.expr.sizeIf d b.expr.dependencies.last c))
  | second {op : Binary} {a b : Operand} {i : Info} {c : Context} :
      op.isPlain = true → Evaluates d (binary op a b i) c b.expr c
  | connective {op : LogicalOp} {a b : Operand} {i : Info} {c : Context} {t : Bool} :
      (a.expr.run d c).truth = .ok t → op.isOpen t = true →
        Evaluates d (binary (.logical op) a b i) c b.expr c
  | condition {x y n : Operand} {i : Info} {c : Context} :
      Evaluates d (choice x y n i) c x.expr c
  | yes {x y n : Operand} {i : Info} {c : Context} :
      (x.expr.run d c).truth = .ok true → Evaluates d (choice x y n i) c y.expr c
  | no {x y n : Operand} {i : Info} {c : Context} :
      (x.expr.run d c).truth = .ok false → Evaluates d (choice x y n i) c n.expr c
  | argument {op : Variadic} {args : List Operand} {a : Operand} {i : Info} {c : Context} :
      a ∈ args → Evaluates d (variadic op args i) c a.expr c

/-- The contexts in which an operator evaluates its second operand. -/
inductive Second (d : Dispatcher) (a b : Operand) (c : Context) : Binary → Context → Prop
  | letBody {v : Binding} {xs : Sequence} : a.expr.run d c = .ofList xs →
      Second d a b c (.letIn v) (c.setSlot v.slot xs)
  | forBody {v : Binding} {item : Item} : item ∈ (a.expr.run d c).items →
      Second d a b c (.forIn v) (c.setSlot v.slot [item])
  | step {before n : Nat} :
      ((a.expr.run d c).wholeIf b.expr.dependencies.last).items[before]? = some (.node n) →
        Second d a b c .path
          (c.withFocus (.node n) (before + 1) (a.expr.sizeIf d b.expr.dependencies.last c))
  | predicate {before : Nat} {item : Item} :
      ((a.expr.run d c).wholeIf b.expr.dependencies.last).items[before]? = some item →
        Second d a b c .filter
          (c.withFocus item (before + 1) (a.expr.sizeIf d b.expr.dependencies.last c))
  | plain {op : Binary} : op.isPlain = true → Second d a b c op c
  | connective {op : LogicalOp} {t : Bool} : (a.expr.run d c).truth = .ok t → op.isOpen t = true →
      Second d a b c (.logical op) c

theorem Second.evaluates {d : Dispatcher} {op : Binary} {a b : Operand} {i : Info} {c c' : Context}
    (h : Second d a b c op c') : Evaluates d (binary op a b i) c b.expr c' := by
  cases h with
  | letBody hxs => exact .letBody hxs
  | forBody hitem => exact .forBody hitem
  | step hitem => exact .step hitem
  | predicate hitem => exact .predicate hitem
  | plain hop => exact .second hop
  | connective ht hop => exact .connective ht hop

/-- Evaluation of one expression in one context comes to evaluate another in another. -/
inductive Reaches (d : Dispatcher) : Expr → Context → Expr → Context → Prop
  | here {e : Expr} {c : Context} : Reaches d e c e c
  | operand {e e' e'' : Expr} {c c' c'' : Context} :
      Evaluates d e c e' c' → Reaches d e' c' e'' c'' → Reaches d e c e'' c''

theorem Evaluates.exists_operand {d : Dispatcher} {e e' : Expr} {c c' : Context} (evaluates : Evaluates d e c e' c') :
    ∃ a ∈ e.operands, e' = a.expr := by
  cases evaluates with
  | argument ha => exact ⟨_, ha, rfl⟩
  | _ => exact ⟨_, by simp [operands], rfl⟩

theorem Throughout.of_reaches {P : Expr → Prop} {d : Dispatcher} {e e' : Expr} {c c' : Context}
    (reaches : Reaches d e c e' c')
    (h : Throughout P e) : Throughout P e' := by
  induction reaches with
  | here => exact h
  | operand evaluates _ ih =>
    obtain ⟨a, ha, rfl⟩ := evaluates.exists_operand
    exact ih (h.operand ha)

end Expr

end TreeQuery
