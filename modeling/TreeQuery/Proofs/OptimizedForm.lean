/-
The form that optimization leaves.

`Expr.Simplifies` says what happens to an expression whose operands are optimized: one simplification, or none
if it is simple already; and then a constant is replaced by its value (`Expr.exists_simplifies`).  What comes
out is done (`Expr.Done`): optimizing it once more would change nothing.  That is why the tests that a split
makes are optimized in one way only (`Expr.tested`), whatever the depth that is allowed for, and why
optimization is a recursion over the expression alone (`Expr.optimize_eq`), and why it reaches its end at once
(`Expr.optimize_optimize`).

Optimization adds nothing: no unions (`Expr.unions_optimized_le`), no references to variables, and no parts of the
focus on which the expression depends (`Expr.Lighter`).

Design notes: nothing is assumed of the expressions, not even that the properties they carry are right, because
optimization computes all properties anew.  Only what is said of the focus needs expressions whose operands have the
roles that construction gives them, and the parameter `strict` of `Expr.Done` says whether that is so.
-/
import TreeQuery.Expr.Optimization
import TreeQuery.Proofs.Constants

namespace TreeQuery

namespace Expr

variable {e e' r : Expr} {a b : Operand} {level : Optimization} {again : Expr → Expr} {g : Operand → Operand}
  {op : LogicalOp} {function : BuiltIn} {strict : Prop}

/-! ### Operands -/

@[simp] theorem role_optimizeOperand (a : Operand) : (optimizeOperand level again a).role = a.role := by
  obtain ⟨role, e⟩ := a
  rw [optimizeOperand]
  rfl

@[simp] theorem expr_optimizeOperand (a : Operand) :
    (optimizeOperand level again a).expr = optimizeWith level again a.expr := by
  obtain ⟨role, e⟩ := a
  rw [optimizeOperand]
  rfl

/-- Optimization of an expression, given that of its operands. -/
theorem optimizeWith_eq (level : Optimization) (again : Expr → Expr) (e : Expr) :
    optimizeWith level again e =
      optimizeHere level again (e.mapOperands (optimizeOperand level again)).refresh := by
  have operands (args : List Operand) :
      optimizeOperands level again args = args.map (optimizeOperand level again) := by
    induction args with
    | nil => rw [optimizeOperands, List.map_nil]
    | cons a rest ih => rw [optimizeOperands, ih, List.map_cons]
  cases e <;> rw [optimizeWith] <;> simp only [mapOperands, operands]

/-- Whether an operator takes nodes from two operands. -/
def isUnion : Expr → Bool
  | binary .union _ _ _ => true
  | _ => false

@[simp] theorem argumentUnions_nil : argumentUnions [] = 0 := by rw [argumentUnions]

@[simp] theorem argumentUnions_cons (a : Operand) (rest : List Operand) :
    argumentUnions (a :: rest) = a.expr.unions + argumentUnions rest := by
  obtain ⟨role, e⟩ := a
  rw [argumentUnions, operandUnions]
  rfl

theorem unions_eq (e : Expr) : e.unions = e.isUnion.toNat + argumentUnions e.operands := by
  have operand (a : Operand) : operandUnions a = a.expr.unions := by
    obtain ⟨role, e⟩ := a
    rw [operandUnions]
    rfl
  cases e with
  | leaf op i => rw [unions]; rfl
  | unary op a i => rw [unions, operand]; simp [isUnion]
  | binary op a b i =>
    rw [unions, operand, operand]
    cases op <;> simp [isUnion, Nat.add_assoc]
  | choice x y n i =>
    rw [unions, operand, operand, operand]
    simp [isUnion, Nat.add_assoc]
  | variadic op args i => rw [unions]; simp [isUnion]

theorem unions_le_of_operand (h : a ∈ e.operands) : a.expr.unions ≤ e.unions := by
  have le_arguments (args : List Operand) (h : a ∈ args) : a.expr.unions ≤ argumentUnions args := by
    induction args with
    | nil => exact absurd h List.not_mem_nil
    | cons b rest ih =>
      rw [argumentUnions_cons]
      rcases List.mem_cons.mp h with rfl | h
      · exact Nat.le_add_right _ _
      · exact Nat.le_trans (ih h) (Nat.le_add_left _ _)
  rw [unions_eq e]
  exact Nat.le_trans (le_arguments _ h) (Nat.le_add_left _ _)

@[simp] theorem unions_withInfo (e : Expr) (i : Info) : (e.withInfo i).unions = e.unions := by
  have : (e.withInfo i).isUnion = e.isUnion := by
    rcases e with _ | _ | ⟨op, _, _, _⟩ | _ | _
    case binary => cases op <;> rfl
    all_goals rfl
  rw [unions_eq, unions_eq e, operands_withInfo, this]

@[simp] theorem references_withInfo (e : Expr) (i : Info) :
    (e.withInfo i).references = e.references := by
  rcases e with ⟨op, _⟩ | _ | _ | _ | _
  case leaf => cases op <;> simp [withInfo, references]
  all_goals simp [withInfo, references]

/-! ### Simplifications -/

/-- The functions that tell whether there is an item, with the connective of the tests of two parts. -/
def IsTest (op : LogicalOp) (function : BuiltIn) : Prop :=
  op = .or ∧ function = .existence ∨ op = .and ∧ function = .emptiness

/-- A test whether an expression is empty. -/
def test (function : BuiltIn) (e : Expr) : Expr :=
  ofVariadic (.call function) [⟨.navigate, e⟩] e.location

/-- A test whether an expression that is optimized is empty, split as far as possible. -/
def tested (op : LogicalOp) (function : BuiltIn) : Expr → Expr
  | binary .union ⟨_, a⟩ ⟨_, b⟩ i =>
    fold (ofBinary (.logical op) ⟨.atomic, tested op function a⟩ ⟨.atomic, tested op function b⟩ i.location)
  | e => fold (test function e)

/-- Splits the tests that a split makes. -/
def retest : Expr → Expr
  | variadic (.call .existence) [⟨_, a⟩] _ => tested .or .existence a
  | variadic (.call .emptiness) [⟨_, a⟩] _ => tested .and .emptiness a
  | e => e

/-- Whether no simplification applies to an expression, except that it may be a constant. -/
def Simple (level : Optimization) : Expr → Prop
  | variadic (.call function) args _ =>
    ∀ op, IsTest op function → ∀ role a b i, args ≠ [⟨role, binary .union a b i⟩]
  | binary .filter _ b _ =>
    (∀ value, b.expr.literal? = some [value] →
      value.position? = none ∧ ∀ t, value ≠ .boolean t) ∧
    ((∀ value, b.expr.literal? ≠ some [value]) → ¬ (level = .full ∧ b.expr.isUniform = true))
  | binary (.letIn v) _ b _ => b.expr.refersTo v.id = true
  | _ => True

/-- One simplification of an expression whose operands are optimized. -/
inductive Simplifies (level : Optimization) : Expr → Expr → Prop
  /-- Nothing applies. -/
  | stays {e : Expr} : e.Simple level → Simplifies level e e
  /-- A test whether a union is empty. -/
  | split {op : LogicalOp} {function : BuiltIn} {role : Role} {a b : Operand} {i j : Info} :
      IsTest op function → Simplifies level (variadic (.call function) [⟨role, binary .union a b j⟩] i)
        (ofBinary (.logical op) ⟨.atomic, tested op function a.expr⟩ ⟨.atomic, tested op function b.expr⟩
          i.location)
  /-- A filter by a position. -/
  | position {a b : Operand} {i : Info} {value : Value} {n : Int64} :
      b.expr.literal? = some [value] → value.position? = some (some n) →
        Simplifies level (binary .filter a b i) (a.expr.itemAt n i.location)
  /-- A filter by a number that is no position. -/
  | nowhere {a b : Operand} {i : Info} {value : Value} :
      b.expr.literal? = some [value] → value.position? = some none →
        Simplifies level (binary .filter a b i) ((binary .filter a b i).replacing empty)
  | always {a b : Operand} {i : Info} : b.expr.literal? = some [.boolean true] →
      Simplifies level (binary .filter a b i) ((binary .filter a b i).replacing a.expr)
  | never {a b : Operand} {i : Info} : b.expr.literal? = some [.boolean false] →
      Simplifies level (binary .filter a b i) ((binary .filter a b i).replacing empty)
  /-- A filter by a condition that does not depend on the item. -/
  | hoist {a b : Operand} {i : Info} : level = .full → (∀ value, b.expr.literal? ≠ some [value]) →
      b.expr.isUniform = true → Simplifies level (binary .filter a b i)
        (ofChoice ⟨.atomic, b.expr⟩ ⟨.navigate, a.expr⟩ ⟨.navigate, empty⟩ i.location)
  /-- A variable that is not referred to. -/
  | dead {v : Binding} {a b : Operand} {i : Info} : b.expr.refersTo v.id = false →
      Simplifies level (binary (.letIn v) a b i) ((binary (.letIn v) a b i).replacing b.expr)

/-- A filter has one simplification at most. -/
theorem simplifies_optimizeFilter (level : Optimization) (role role' : Role) (base predicate : Expr) (i : Info) :
    Simplifies level (binary .filter ⟨role, base⟩ ⟨role', predicate⟩ i)
      (optimizeFilter level (binary .filter ⟨role, base⟩ ⟨role', predicate⟩ i) base predicate) := by
  unfold optimizeFilter
  split
  case h_1 value hliteral =>
    unfold optimizeLiteralFilter
    split
    case h_1 n hposition => exact .position hliteral hposition
    case h_2 hposition => exact .nowhere hliteral hposition
    case h_3 hposition =>
      split
      case h_1 => exact .always hliteral
      case h_2 => exact .never hliteral
      case h_3 htrue hfalse =>
        refine .stays ⟨fun value' hvalue => ?_, fun h => absurd hliteral (h value)⟩
        obtain rfl : value = value' := by simpa using hliteral.symm.trans hvalue
        refine ⟨hposition, fun t ht => ?_⟩
        cases t
        · exact hfalse ht
        · exact htrue ht
  case h_2 hliteral =>
    split
    case isTrue h => exact .hoist h.1 hliteral h.2
    case isFalse h => exact .stays ⟨fun value hvalue => absurd hvalue (hliteral value), fun _ => h⟩

/-- A test is split if it is about a union. -/
theorem simplifies_splitTest {function : BuiltIn} (htest : IsTest op function) (args : List Operand) (i : Info)
    (hagain : ∀ a : Operand, testOf again function a = ⟨.atomic, tested op function a.expr⟩) :
    Simplifies level (variadic (.call function) args i)
      (splitTest again op function (variadic (.call function) args i) args) := by
  unfold splitTest
  split
  case h_1 role a b j =>
    rw [hagain, hagain]
    exact .split htest
  case h_2 hunion => exact .stays fun op' _ role a b j hargs => hunion role a b j hargs

/-- The simplification that is looked for. -/
theorem exists_simplifies (level : Optimization) (e : Expr) :
    ∃ r, Simplifies level e r ∧ optimizeHere level retest e = r.fold := by
  unfold optimizeHere
  split
  · exact ⟨_, simplifies_splitTest (.inl ⟨rfl, rfl⟩) _ _ fun a => rfl, rfl⟩
  · exact ⟨_, simplifies_splitTest (.inr ⟨rfl, rfl⟩) _ _ fun a => rfl, rfl⟩
  · exact ⟨_, simplifies_optimizeFilter level _ _ _ _ _, rfl⟩
  · rename_i v a role body i
    split
    case isTrue h => exact ⟨_, .stays h, rfl⟩
    case isFalse h => exact ⟨_, .dead (Bool.eq_false_iff.mpr h), rfl⟩
  -- No rule applies.  The hypotheses exclude the four forms to which there are rules.
  · rename_i h₁ h₂ h₃ h₄
    refine ⟨e, .stays ?_, rfl⟩
    cases e with
    | leaf op i => trivial
    | unary op a i => trivial
    | binary op a b i =>
      obtain ⟨_, _⟩ := a
      obtain ⟨_, _⟩ := b
      cases op with
      | filter => exact (h₃ _ _ _ _ _ rfl).elim
      | letIn v => exact (h₄ _ _ _ _ _ rfl).elim
      | _ => trivial
    | choice x y n i => trivial
    | variadic op args i =>
      cases op with
      | block => trivial
      | call function =>
        intro op htest
        rcases htest with ⟨-, rfl⟩ | ⟨-, rfl⟩
        · exact (h₁ _ _ rfl).elim
        · exact (h₂ _ _ rfl).elim

/-- To a simple expression nothing applies, however the tests are treated that a split would make. -/
theorem optimizeHere_of_simple (h : e.Simple level) (again : Expr → Expr) :
    optimizeHere level again e = e.fold := by
  have unsplit {op : LogicalOp} {function : BuiltIn} {args : List Operand} (e : Expr)
      (h : ∀ role a b i, args ≠ [⟨role, binary .union a b i⟩]) :
      splitTest again op function e args = e := by
    unfold splitTest
    split
    · exact absurd rfl (h _ _ _ _)
    · rfl
  unfold optimizeHere
  congr 1
  split
  · exact unsplit _ (h .or (.inl ⟨rfl, rfl⟩))
  · exact unsplit _ (h .and (.inr ⟨rfl, rfl⟩))
  · obtain ⟨hliteral, huniform⟩ := h
    unfold optimizeFilter
    split
    case h_1 value hvalue =>
      obtain ⟨hposition, htruth⟩ := hliteral value hvalue
      unfold optimizeLiteralFilter
      rw [hposition]
      simp only
      split
      · exact absurd rfl (htruth true)
      · exact absurd rfl (htruth false)
      · rfl
    case h_2 hvalue => exact if_neg (huniform hvalue)
  · exact if_pos h
  · rfl

/-! ### Expressions that are done -/

/-- Whether nothing applies to an expression any more.  If `strict`, the focus counts where it is used. -/
structure Done (strict : Prop) (level : Optimization) (e : Expr) : Prop where
  fresh : e.props = e.computed
  roles : strict → ∀ a ∈ e.inheritors, a.role ≠ .controlled
  constant : e.constant? = none
  simple : e.Simple level

/-- Whether nothing applies to an expression, except that it may be a constant, and nothing at all to what is
inside it. -/
structure Ready (strict : Prop) (level : Optimization) (e : Expr) : Prop where
  fresh : e.props = e.computed
  roles : strict → ∀ a ∈ e.inheritors, a.role ≠ .controlled
  simple : e.Simple level
  operands : ∀ a ∈ e.operands, Throughout (Done strict level) a.expr

theorem Throughout.ready (h : Throughout (Done strict level) e) : e.Ready strict level :=
  ⟨h.here.fresh, h.here.roles, h.here.simple, fun _ => h.operand⟩

theorem mapOperands_congr {g g' : Operand → Operand} (h : ∀ a ∈ e.operands, g a = g' a) :
    e.mapOperands g = e.mapOperands g' := by
  cases e with
  | leaf op i => rfl
  | unary op a i => simp [mapOperands, h a (by simp)]
  | binary op a b i => simp [mapOperands, h a (by simp), h b (by simp)]
  | choice x y n i => simp [mapOperands, h x (by simp), h y (by simp), h n (by simp)]
  | variadic op args i => exact congrArg (variadic op · i) (List.map_congr_left h)

theorem optimizeWith_of_done (h : Throughout (Done strict level) e) (again : Expr → Expr) :
    optimizeWith level again e = e := by
  induction e using inductOperands with
  | h e ih =>
    have hmap : e.mapOperands (optimizeOperand level again) = e := by
      refine (mapOperands_congr fun a ha => ?_).trans (mapOperands_id e)
      have := ih a ha (h.operand ha)
      obtain ⟨role, e⟩ := a
      rw [optimizeOperand]
      exact congrArg _ this
    rw [optimizeWith_eq, hmap, refresh_eq_self h.here.fresh, optimizeHere_of_simple h.here.simple, fold,
      h.here.constant]

theorem simple_withInfo (e : Expr) (i : Info) : (e.withInfo i).Simple level ↔ e.Simple level := by
  rcases e with _ | _ | ⟨op, _, _, _⟩ | _ | ⟨op, _, _⟩
  case binary => cases op <;> rfl
  case variadic => cases op <;> rfl
  all_goals rfl

theorem Ready.withLocation (h : e.Ready strict level) (l : Location) : (e.withLocation l).Ready strict level where
  fresh := by simpa [Expr.withLocation] using h.fresh
  roles hs := by simpa [Expr.withLocation] using h.roles hs
  simple := (simple_withInfo e _).mpr h.simple
  operands := by simpa using h.operands

theorem Ready.replacing (h : e.Ready strict level) (old : Expr) : (old.replacing e).Ready strict level := by
  unfold Expr.replacing
  split
  · exact h.withLocation _
  · exact h

theorem ready_literal (vs : List Value) (l : Location) : (literal vs l).Ready strict level :=
  ⟨rfl, fun _ _ ha => absurd ha List.not_mem_nil, trivial, fun _ ha => absurd ha List.not_mem_nil⟩

theorem throughout_done_of_leaf {op : Leaf} {i : Info} (h : (leaf op i).Ready strict level) :
    Throughout (Done strict level) (leaf op i) :=
  .mk ⟨h.fresh, h.roles, rfl, h.simple⟩ h.operands

theorem replacing_literal (old : Expr) (vs : List Value) (l : Location) :
    ∃ i, old.replacing (literal vs l) = leaf (.literal vs) i := by
  unfold replacing
  split
  · exact ⟨_, rfl⟩
  · exact ⟨_, rfl⟩

/-- What is ready is done once a constant is replaced by its value. -/
theorem Ready.done_fold (h : e.Ready strict level) : Throughout (Done strict level) e.fold := by
  unfold fold
  cases hconstant : e.constant? with
  | none => exact .mk ⟨h.fresh, h.roles, hconstant, h.simple⟩ h.operands
  | some vs =>
    have literal : (literal vs .unknown).Ready strict level := ready_literal vs .unknown
    have ready := literal.replacing e
    obtain ⟨i, hi⟩ := replacing_literal e vs .unknown
    simp only [hi] at ready ⊢
    exact throughout_done_of_leaf ready

theorem done_literal (vs : List Value) (l : Location) : Throughout (Done strict level) (literal vs l) :=
  throughout_done_of_leaf (ready_literal vs l)

/-- A new expression over operands that are done. -/
theorem ready_refresh (h : ∀ a ∈ e.operands, Throughout (Done strict level) a.expr)
    (roles : strict → ∀ a ∈ e.inheritors, a.role ≠ .controlled) (simple : e.Simple level) :
    e.refresh.Ready strict level where
  fresh := by simp
  roles := by simpa using roles
  simple := (simple_withInfo e _).mpr simple
  operands := by simpa using h

theorem done_tested (op : LogicalOp) (function : BuiltIn) (h : Throughout (Done strict level) e) :
    Throughout (Done strict level) (tested op function e) := by
  induction e using inductOperands with
  | h e ih =>
    unfold tested
    split
    case h_1 role a role' b i =>
      refine Ready.done_fold (ready_refresh ?_ ?_ trivial)
      · simp only [operands_binary, List.forall_mem_cons]
        exact ⟨ih ⟨role, a⟩ (by simp) (h.operand (by simp)),
          ih ⟨role', b⟩ (by simp) (h.operand (by simp)), fun _ ha => absurd ha List.not_mem_nil⟩
      · simp [inheritors, Operand.role]
    case h_2 hunion =>
      refine Ready.done_fold
        (ready_refresh (e := variadic (.call function) [⟨.navigate, _⟩] (fresh _)) ?_ ?_ ?_)
      · intro a ha
        obtain rfl := List.mem_singleton.mp ha
        exact h
      · simp [inheritors, Operand.role]
      · intro op' _ role a b i heq
        obtain ⟨_, a⟩ := a
        obtain ⟨_, b⟩ := b
        simp only [List.cons.injEq, Operand.mk.injEq, and_true] at heq
        exact hunion _ _ _ _ _ heq.2

/-- What comes out of a simplification is ready. -/
theorem Simplifies.ready (h : Simplifies level e r) (fresh : e.props = e.computed)
    (roles : strict → ∀ a ∈ e.inheritors, a.role ≠ .controlled)
    (operands : ∀ a ∈ e.operands, Throughout (Done strict level) a.expr) : r.Ready strict level := by
  have empty (old : Expr) : (old.replacing empty).Ready strict level := (ready_literal [] .unknown).replacing old
  cases h with
  | stays simple => exact ⟨fresh, roles, simple, operands⟩
  | @split op function role a b i j htest =>
    have union : Throughout (Done strict level) (binary .union a b j) :=
      operands ⟨role, binary .union a b j⟩ (by simp)
    refine ready_refresh ?_ ?_ trivial
    · simp only [operands_binary, List.forall_mem_cons]
      exact ⟨done_tested op function (union.operand (by simp)),
        done_tested op function (union.operand (by simp)), fun _ ha => absurd ha List.not_mem_nil⟩
    · simp [inheritors, Operand.role]
  | @position a b i value n =>
    unfold itemAt
    refine ready_refresh ?_ ?_ ?_
    · simp only [operands_variadic, List.forall_mem_cons]
      exact ⟨operands a (by simp), done_literal _ _, done_literal _ _,
        fun _ ha => absurd ha List.not_mem_nil⟩
    · simp [inheritors, Operand.role]
    · intro op htest
      rcases htest with ⟨-, h⟩ | ⟨-, h⟩ <;> cases h
  | nowhere | never => exact empty _
  | @always a b i => exact (operands a (by simp)).ready.replacing _
  | @hoist a b i =>
    refine ready_refresh ?_ ?_ trivial
    · simp only [operands_choice, List.forall_mem_cons]
      exact ⟨operands b (by simp), operands a (by simp), done_literal _ _,
        fun _ ha => absurd ha List.not_mem_nil⟩
    · simp [inheritors, Operand.role]
  | @dead v a b i => exact (operands b (by simp)).ready.replacing _

/-! ### Optimization adds nothing -/

@[simp] theorem unions_literal (vs : List Value) (l : Location) : (literal vs l).unions = 0 := by
  simp [literal, ofLeaf, refresh, withInfo, unions]

@[simp] theorem unions_replacing (old e : Expr) : (old.replacing e).unions = e.unions := by
  unfold replacing
  split <;> simp [withLocation]

theorem unions_fold_le (e : Expr) : e.fold.unions ≤ e.unions := by
  unfold fold
  split <;> simp

theorem unions_tested_le (op : LogicalOp) (function : BuiltIn) (e : Expr) :
    (tested op function e).unions ≤ e.unions := by
  induction e using inductOperands with
  | h e ih =>
    unfold tested
    split
    case h_1 role a role' b i =>
      refine Nat.le_trans (unions_fold_le _) ?_
      have ha : (tested op function a).unions ≤ a.unions := ih ⟨role, a⟩ (by simp)
      have hb : (tested op function b).unions ≤ b.unions := ih ⟨role', b⟩ (by simp)
      rw [ofBinary, refresh, unions_withInfo, unions_eq, unions_eq (binary .union _ _ i)]
      simp only [isUnion, operands_binary, argumentUnions_cons, argumentUnions_nil, Operand.expr,
        Bool.toNat_false, Bool.toNat_true]
      omega
    case h_2 =>
      refine Nat.le_trans (unions_fold_le _) ?_
      rw [test, ofVariadic, refresh, unions_withInfo, unions_eq]
      simp [isUnion, Operand.expr]

theorem Simplifies.unions_le (h : Simplifies level e r) : r.unions ≤ e.unions := by
  cases h with
  | stays _ => exact Nat.le_refl _
  | @split op function role a b i j =>
    obtain ⟨roleA, a⟩ := a
    obtain ⟨roleB, b⟩ := b
    have union : (binary .union ⟨roleA, a⟩ ⟨roleB, b⟩ j).unions = 1 + (a.unions + b.unions) := by
      rw [unions_eq]
      simp [isUnion, Operand.expr]
    have ha := unions_tested_le op function a
    have hb := unions_tested_le op function b
    rw [ofBinary, refresh, unions_withInfo, unions_eq, unions_eq (variadic _ _ i)]
    simp only [isUnion, operands_binary, operands_variadic, argumentUnions_cons, argumentUnions_nil,
      Operand.expr, Bool.toNat_false, union]
    omega
  | @position a b i value n =>
    rw [itemAt, ofVariadic, refresh, unions_withInfo, unions_eq]
    simpa [isUnion, Operand.expr] using unions_le_of_operand (e := binary .filter a b i) (a := a) (by simp)
  | nowhere | never => simp [Expr.empty]
  | @always a b i =>
    rw [unions_replacing]
    exact unions_le_of_operand (by simp)
  | @hoist a b i =>
    rw [ofChoice, refresh, unions_withInfo, unions_eq, unions_eq (binary .filter a b i)]
    simp only [isUnion, operands_binary, operands_choice, argumentUnions_cons, argumentUnions_nil,
      Operand.expr, Expr.empty, unions_literal]
    omega
  | @dead v a b i =>
    rw [unions_replacing]
    exact unions_le_of_operand (by simp)

theorem unions_mapOperands_le (hg : ∀ a ∈ e.operands, (g a).expr.unions ≤ a.expr.unions) :
    (e.mapOperands g).unions ≤ e.unions := by
  have isUnion : (e.mapOperands g).isUnion = e.isUnion := by
    rcases e with _ | _ | ⟨op, _, _, _⟩ | _ | _
    case binary => cases op <;> rfl
    all_goals rfl
  have sums (args : List Operand) (h : ∀ a ∈ args, (g a).expr.unions ≤ a.expr.unions) :
      argumentUnions (args.map g) ≤ argumentUnions args := by
    induction args with
    | nil => exact Nat.le_refl _
    | cons a rest ih =>
      rw [List.map_cons, argumentUnions_cons, argumentUnions_cons]
      exact Nat.add_le_add (h a List.mem_cons_self) (ih fun b hb => h b (List.mem_cons_of_mem a hb))
  rw [unions_eq, unions_eq e, isUnion, operands_mapOperands]
  exact Nat.add_le_add_left (sums _ hg) _

/-- Whether an expression refers to no other variables than another, and reads no other part of the focus. -/
structure Lighter (e' e : Expr) : Prop extends ReadsWithin e' e where
  references : ∀ v ∈ e'.references, v ∈ e.references

namespace Lighter

theorem refl (e : Expr) : Lighter e e where
  toReadsWithin := .refl e
  references _ := id

theorem trans {e₁ e₂ e₃ : Expr} (h : Lighter e₁ e₂) (h' : Lighter e₂ e₃) : Lighter e₁ e₃ where
  toReadsWithin := h.toReadsWithin.trans h'.toReadsWithin
  references v hv := h'.references v (h.references v hv)

theorem literal (vs : List Value) (l : Location) (e : Expr) : Lighter (literal vs l) e where
  toReadsWithin := .literal vs l e
  references _ hv := absurd hv (by simp [Expr.literal, ofLeaf, refresh, withInfo, Expr.references])

theorem withLocation (e : Expr) (l : Location) : Lighter (e.withLocation l) e where
  toReadsWithin := .withLocation e l
  references v hv := by simpa [Expr.withLocation] using hv

theorem replacing (h : Lighter e' e) (old : Expr) : Lighter (old.replacing e') e := by
  unfold Expr.replacing
  split
  · exact (withLocation e' _).trans h
  · exact h

theorem fold (e : Expr) : Lighter e.fold e := by
  unfold Expr.fold
  split
  · exact (literal _ _ e).replacing e
  · exact refl e

theorem of_inheritor (he : e.Consistent) (ha : a ∈ e.inheritors) : Lighter a.expr e where
  toReadsWithin := .of_inheritor he ha
  references _ hv := mem_references_of_operand (mem_operands_of_mem_inheritors ha) hv

/-- A new expression over operands that are together lighter than another. -/
theorem refresh (hreferences : ∀ v ∈ e'.references, v ∈ e.references)
    (hreads : ∀ a ∈ e'.operands, ReadsWithin a.expr e) (hoperands : e'.operands ≠ []) :
    Lighter e'.refresh e where
  toReadsWithin := .refresh hreads hoperands
  references v hv := hreferences v (by simpa [Expr.refresh] using hv)

end Lighter

/-- A test of what is lighter than an expression. -/
theorem lighter_test (function : BuiltIn) (e : Expr) : Lighter (test function e) e := by
  show Lighter (variadic (.call function) [⟨.navigate, e⟩] (fresh e.location)).refresh e
  refine .refresh ?_ ?_ (by simp)
  · intro v hv
    rcases mem_references_iff.mp hv with ⟨type, i, heq⟩ | ⟨a, ha, hv⟩
    · cases heq
    · obtain rfl := List.mem_singleton.mp ha
      exact hv
  · intro a ha
    obtain rfl := List.mem_singleton.mp ha
    exact .refl e

/-- A connective of what is lighter than the operands of a union. -/
theorem lighter_logical (op : LogicalOp) {i : Info} {x y : Expr} (l : Location)
    (hx : Lighter x a.expr) (hy : Lighter y b.expr) (he : (binary .union a b i).Consistent) :
    Lighter (ofBinary (.logical op) ⟨.atomic, x⟩ ⟨.atomic, y⟩ l) (binary .union a b i) := by
  have ha : Lighter a.expr (binary .union a b i) := .of_inheritor he (by simp [inheritors])
  have hb : Lighter b.expr (binary .union a b i) := .of_inheritor he (by simp [inheritors])
  show Lighter (binary (.logical op) ⟨.atomic, x⟩ ⟨.atomic, y⟩ (fresh l)).refresh (binary .union a b i)
  refine .refresh ?_ ?_ (by simp)
  · intro v hv
    rcases mem_references_iff.mp hv with ⟨type, i, heq⟩ | ⟨z, hz, hv⟩
    · cases heq
    · simp only [operands_binary, List.mem_cons, List.not_mem_nil, or_false] at hz
      rcases hz with rfl | rfl
      · exact (hx.trans ha).references v hv
      · exact (hy.trans hb).references v hv
  · simp only [operands_binary, List.forall_mem_cons]
    exact ⟨(hx.trans ha).toReadsWithin, (hy.trans hb).toReadsWithin, fun _ hz => absurd hz List.not_mem_nil⟩

/-- Tests of the parts of a union need no more than the union. -/
theorem lighter_tested (op : LogicalOp) (function : BuiltIn) (h : Throughout Consistent e) :
    Lighter (tested op function e) e := by
  induction e using inductOperands with
  | h e ih =>
    unfold tested
    split
    case h_1 role a role' b i =>
      exact (Lighter.fold _).trans (lighter_logical op _ (a := ⟨role, a⟩) (b := ⟨role', b⟩)
        (ih ⟨role, a⟩ (by simp) (h.operand (by simp)))
        (ih ⟨role', b⟩ (by simp) (h.operand (by simp))) h.here)
    case h_2 => exact (Lighter.fold _).trans (lighter_test function _)

/-- What comes out of a simplification needs no more than the expression. -/
theorem Simplifies.lighter (h : Simplifies level e r) (he : Throughout Consistent e) : Lighter r e := by
  have empty (old : Expr) : Lighter (old.replacing empty) e := (Lighter.literal [] .unknown e).replacing old
  cases h with
  | stays _ => exact .refl e
  | @split op function role a b i j htest =>
    have union : Throughout Consistent (binary .union a b j) := he.operand (a := ⟨role, _⟩) (by simp)
    refine (lighter_logical op _ (lighter_tested op function (union.operand (by simp)))
      (lighter_tested op function (union.operand (by simp))) union.here).trans ?_
    exact .of_inheritor (a := ⟨role, _⟩) he.here (by simp [inheritors])
  | @position a b i value n hliteral =>
    have base : Lighter a.expr (binary .filter a b i) := .of_inheritor he.here (by simp [inheritors])
    unfold itemAt
    refine .refresh ?_ ?_ (by simp)
    · intro v hv
      rcases mem_references_iff.mp hv with ⟨type, i, heq⟩ | ⟨z, hz, hv⟩
      · cases heq
      · simp only [operands_variadic, List.mem_cons, List.not_mem_nil, or_false] at hz
        rcases hz with rfl | rfl | rfl
        · exact base.references v hv
        · exact (Lighter.literal _ _ _).references v hv
        · exact (Lighter.literal _ _ _).references v hv
    · simp only [operands_variadic, List.forall_mem_cons]
      exact ⟨base.toReadsWithin, .literal _ _ _, .literal _ _ _, fun _ hz => absurd hz List.not_mem_nil⟩
  | nowhere | never => exact empty _
  | always => exact (Lighter.of_inheritor he.here (by simp [inheritors])).replacing _
  | @hoist a b i _ _ huniform =>
    have base : Lighter a.expr (binary .filter a b i) := .of_inheritor he.here (by simp [inheritors])
    simp only [isUniform, Dependencies.onFocus, Bool.and_eq_true, Bool.not_eq_true', Bool.or_eq_false_iff]
      at huniform
    obtain ⟨⟨⟨⟨hitem, hposition⟩, hlast⟩, -⟩, -⟩ := huniform
    -- The predicate goes outside only because it reads nothing of the focus that it would see there.
    have predicate : ReadsWithin b.expr (binary .filter a b i) :=
      ⟨⟨fun h => absurd (h.symm.trans hitem) Bool.false_ne_true.symm,
        fun h => absurd (h.symm.trans hposition) Bool.false_ne_true.symm,
        fun h => absurd (h.symm.trans hlast) Bool.false_ne_true.symm⟩,
        fun h => absurd ((h.item (he.operand (by simp))).symm.trans hitem) Bool.false_ne_true.symm⟩
    refine .refresh ?_ ?_ (by simp)
    · intro v hv
      rcases mem_references_iff.mp hv with ⟨type, i, heq⟩ | ⟨z, hz, hv⟩
      · cases heq
      · simp only [operands_choice, List.mem_cons, List.not_mem_nil, or_false] at hz
        rcases hz with rfl | rfl | rfl
        · exact mem_references_of_operand (a := b) (by simp) hv
        · exact base.references v hv
        · exact (Lighter.literal _ _ _).references v hv
    · simp only [operands_choice, List.forall_mem_cons]
      exact ⟨predicate, base.toReadsWithin, .literal _ _ _, fun _ hz => absurd hz List.not_mem_nil⟩
  | dead => exact (Lighter.of_inheritor he.here (by simp [inheritors])).replacing _

/-- Lighter operands make a lighter expression. -/
theorem lighter_mapOperands (he : e.props = e.computed)
    (hg : ∀ a ∈ e.operands, Lighter (g a).expr a.expr ∧ (g a).role = a.role) :
    Lighter (e.mapOperands g).refresh e where
  toReadsWithin := .mapOperands he fun a ha => ⟨(hg a ha).1.toReadsWithin, (hg a ha).2⟩
  references v hv := by
    rw [refresh, references_withInfo] at hv
    rcases mem_references_iff.mp hv with ⟨type, i, heq⟩ | ⟨z, hz, hv⟩
    · cases e <;> cases heq
      simp [references]
    · rw [operands_mapOperands] at hz
      obtain ⟨a, ha, rfl⟩ := List.mem_map.mp hz
      exact mem_references_of_operand ha ((hg a ha).1.references v hv)

/-! ### Optimized expressions -/

/-- Optimization as a recursion over the expression alone. -/
def optimized (level : Optimization) (e : Expr) : Expr := optimizeWith level retest e

/-- The operand in its place in an optimized expression. -/
def optimizedOperand (level : Optimization) : Operand → Operand := optimizeOperand level retest

@[simp] theorem role_optimizedOperand (a : Operand) : (optimizedOperand level a).role = a.role :=
  role_optimizeOperand a

@[simp] theorem expr_optimizedOperand (a : Operand) :
    (optimizedOperand level a).expr = a.expr.optimized level := expr_optimizeOperand a

/-- An expression is optimized by one simplification after its operands are. -/
theorem exists_optimized (level : Optimization) (e : Expr) :
    ∃ r, Simplifies level (e.mapOperands (optimizedOperand level)).refresh r ∧
      e.optimized level = r.fold := by
  rw [optimized, optimizeWith_eq]
  exact exists_simplifies level _

/-- The operator over optimized operands. -/
theorem consistent_mapOperands (he : e.Consistent) (hg : ∀ a ∈ e.operands, (g a).role = a.role) :
    (e.mapOperands g).refresh.Consistent where
  fresh := by simp
  roles := by
    have inheritors : (e.mapOperands g).inheritors = e.inheritors.map g := by
      rcases e with _ | _ | ⟨op, _, _, _⟩ | _ | _
      case binary => cases op <;> rfl
      all_goals rfl
    rw [inheritors_refresh, inheritors]
    intro z hz
    obtain ⟨a, ha, rfl⟩ := List.mem_map.mp hz
    rw [hg a (mem_operands_of_mem_inheritors ha)]
    exact he.roles a ha

/-- Nothing applies any more to what is optimized. -/
theorem done_optimized (h : strict → Throughout Consistent e) :
    Throughout (Done strict level) (e.optimized level) := by
  induction e using inductOperands with
  | h e ih =>
    obtain ⟨r, hr, heq⟩ := exists_optimized level e
    have roles (hs : strict) : (e.mapOperands (optimizedOperand level)).refresh.Consistent :=
      consistent_mapOperands (h hs).here fun a _ => role_optimizedOperand a
    rw [heq]
    refine (hr.ready (by simp) (fun hs => (roles hs).roles) ?_).done_fold
    rw [operands_refresh, operands_mapOperands]
    intro z hz
    obtain ⟨a, ha, rfl⟩ := List.mem_map.mp hz
    rw [expr_optimizedOperand]
    exact ih a ha fun hs => (h hs).operand ha

theorem consistent_optimized (h : Throughout Consistent e) : Throughout Consistent (e.optimized level) := by
  have done : Throughout (Done True level) (e.optimized level) := done_optimized fun _ => h
  exact done.mono fun _ h => ⟨h.fresh, h.roles trivial⟩

theorem unions_optimized_le (level : Optimization) (e : Expr) : (e.optimized level).unions ≤ e.unions := by
  induction e using inductOperands with
  | h e ih =>
    obtain ⟨r, hr, heq⟩ := exists_optimized level e
    have operands : (e.mapOperands (optimizedOperand level)).unions ≤ e.unions :=
      unions_mapOperands_le fun a ha => by simpa using ih a ha
    rw [heq]
    refine Nat.le_trans (unions_fold_le r) (Nat.le_trans hr.unions_le ?_)
    rwa [refresh, unions_withInfo]

/-- The operator over optimized operands, with all that is inside it. -/
theorem throughout_mapOperands (h : Throughout Consistent e) :
    Throughout Consistent (e.mapOperands (optimizedOperand level)).refresh := by
  refine .mk (consistent_mapOperands h.here fun a _ => role_optimizedOperand a) ?_
  rw [operands_refresh, operands_mapOperands]
  intro z hz
  obtain ⟨a, ha, rfl⟩ := List.mem_map.mp hz
  rw [expr_optimizedOperand]
  exact consistent_optimized (h.operand ha)

/-- Optimization adds nothing. -/
theorem lighter_optimized (h : Throughout Consistent e) : Lighter (e.optimized level) e := by
  induction e using inductOperands with
  | h e ih =>
    obtain ⟨r, hr, heq⟩ := exists_optimized level e
    rw [heq]
    refine (Lighter.fold r).trans ((hr.lighter (throughout_mapOperands h)).trans
      (lighter_mapOperands h.here.fresh fun a ha => ⟨?_, role_optimizedOperand a⟩))
    rw [expr_optimizedOperand]
    exact ih a ha (h.operand ha)

/-! ### The depth of splits -/

/-- What optimizes the tests that a split makes, where splits are nested at most so deep. -/
def optimizeBelow (level : Optimization) : Nat → Expr → Expr
  | 0 => id
  | k + 1 => optimizeWithin level k

theorem optimizeWithin_eq_optimizeWith (level : Optimization) (k : Nat) (e : Expr) :
    optimizeWithin level k e = optimizeWith level (optimizeBelow level k) e := by
  cases k <;> rfl

/-- A test of what is done is split as far as possible if the depth is enough for that. -/
theorem optimizeWithin_test (htest : IsTest op function) {k : Nat} (h : Throughout (Done strict level) e)
    (hk : e.unions ≤ k) : optimizeWithin level k (test function e) = tested op function e := by
  -- On the tree, since a test of a union becomes two tests of its parts, one union fewer in each.
  induction e using inductOperands generalizing k with
  | h e ih =>
    have hmap : (test function e).mapOperands (optimizeOperand level (optimizeBelow level k)) =
        test function e := by
      have := optimizeWith_of_done h (optimizeBelow level k)
      simp only [test, ofVariadic, refresh, withInfo, mapOperands, List.map_cons, List.map_nil,
        optimizeOperand, this]
    have hsplit : optimizeHere level (optimizeBelow level k) (test function e) =
        (splitTest (optimizeBelow level k) op function (test function e) [⟨.navigate, e⟩]).fold := by
      rcases htest with ⟨rfl, rfl⟩ | ⟨rfl, rfl⟩ <;> rfl
    rw [optimizeWithin_eq_optimizeWith, optimizeWith_eq, hmap, refresh_eq_self (by simp [test, ofVariadic]),
      hsplit]
    unfold tested
    split
    case h_1 role a role' b i =>
      rw [unions_eq] at hk
      simp only [isUnion, operands_binary, argumentUnions_cons, argumentUnions_nil,
        Operand.expr, Bool.toNat_true] at hk
      obtain ⟨k, rfl⟩ : ∃ k', k = k' + 1 := ⟨k - 1, by omega⟩
      have ha : optimizeBelow level (k + 1) (test function a) = tested op function a :=
        ih ⟨role, a⟩ (by simp) (h.operand (by simp)) (show a.unions ≤ k by omega)
      have hb : optimizeBelow level (k + 1) (test function b) = tested op function b :=
        ih ⟨role', b⟩ (by simp) (h.operand (by simp)) (show b.unions ≤ k by omega)
      rw [← ha, ← hb]
      rfl
    case h_2 hunion =>
      unfold splitTest
      split
      · rename_i heq
        simp only [List.cons.injEq, Operand.mk.injEq, and_true] at heq
        rename_i a b j
        obtain ⟨_, _⟩ := a
        obtain ⟨_, _⟩ := b
        exact (hunion _ _ _ _ _ heq.2).elim
      · rfl

/-- Only what is done with the tests that a split makes counts. -/
theorem optimizeHere_congr (h : ∀ op function role a b i j, IsTest op function →
      e = variadic (.call function) [⟨role, binary .union a b j⟩] i →
      again (test function a.expr) = tested op function a.expr ∧
        again (test function b.expr) = tested op function b.expr) :
    optimizeHere level again e = optimizeHere level retest e := by
  have split {op : LogicalOp} {function : BuiltIn} {args : List Operand} {i : Info}
      (htest : IsTest op function) (heq : e = variadic (.call function) args i)
      (hretest : ∀ a : Operand, testOf retest function a = ⟨.atomic, tested op function a.expr⟩) :
      splitTest again op function e args = splitTest retest op function e args := by
    unfold splitTest
    split
    · obtain ⟨ha, hb⟩ := h op function _ _ _ _ _ htest heq
      rw [hretest, hretest, ← ha, ← hb]
      rfl
    · rfl
  unfold optimizeHere
  congr 1
  split
  · exact split (.inl ⟨rfl, rfl⟩) rfl fun a => rfl
  · exact split (.inr ⟨rfl, rfl⟩) rfl fun a => rfl
  · rfl
  · rfl
  · rfl

theorem optimizeWithin_eq {k : Nat} (hk : e.unions ≤ k) :
    optimizeWithin level k e = e.optimized level := by
  induction e using inductOperands with
  | h e ih =>
    have operand (a : Operand) (ha : a ∈ e.operands) :
        optimizeOperand level (optimizeBelow level k) a = optimizedOperand level a := by
      have := ih a ha (Nat.le_trans (unions_le_of_operand ha) hk)
      rw [optimizeWithin_eq_optimizeWith] at this
      obtain ⟨role, e⟩ := a
      rw [optimizeOperand, optimizedOperand, optimizeOperand]
      exact congrArg _ this
    rw [optimizeWithin_eq_optimizeWith, optimizeWith_eq, mapOperands_congr operand, optimized,
      optimizeWith_eq]
    refine optimizeHere_congr fun op function role a b i j htest heq => ?_
    -- The operands of the test are those of a union that is optimized, and of which there are fewer.
    have hmem : ⟨role, binary .union a b j⟩ ∈
        (e.mapOperands (optimizedOperand level)).refresh.operands := by
      rw [heq]
      exact List.mem_singleton.mpr rfl
    rw [operands_refresh, operands_mapOperands] at hmem
    obtain ⟨x, hx, hunion⟩ := List.mem_map.mp hmem
    have hexpr : x.expr.optimized level = binary .union a b j := by
      rw [← expr_optimizedOperand, hunion]
      rfl
    have hdone : Throughout (Done False level) (x.expr.optimized level) := done_optimized False.elim
    have hunions := unions_optimized_le level x.expr
    have hle := unions_le_of_operand hx
    rw [hexpr] at hdone hunions
    rw [unions_eq] at hunions
    simp only [isUnion, operands_binary, argumentUnions_cons, argumentUnions_nil,
      Bool.toNat_true] at hunions
    obtain ⟨k, rfl⟩ : ∃ k', k = k' + 1 := ⟨k - 1, by omega⟩
    exact ⟨optimizeWithin_test htest (hdone.operand (by simp)) (by omega),
      optimizeWithin_test htest (hdone.operand (by simp)) (by omega)⟩

/-- The depth that is allowed for is enough. -/
theorem optimize_eq (e : Expr) (hlevel : level ≠ .none) : e.optimize level = e.optimized level := by
  rw [optimize, if_neg hlevel, optimizeWithin_eq (Nat.le_refl _)]

/-- **Optimization reaches its end at once.**  Whatever an expression carries and however it came about, to
optimize it a second time changes nothing, at any level. -/
theorem optimize_optimize (level : Optimization) (e : Expr) :
    (e.optimize level).optimize level = e.optimize level := by
  by_cases hlevel : level = .none
  · rw [optimize, if_pos hlevel]
  · rw [optimize_eq e hlevel, optimize_eq _ hlevel]
    have done : Throughout (Done False level) (e.optimized level) := done_optimized False.elim
    exact optimizeWith_of_done done retest

end Expr

end TreeQuery
