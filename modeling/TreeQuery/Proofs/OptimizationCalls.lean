/-
Why optimization ends.

`Expr.optimize` is told in advance how deep splits may be nested.  `Expr.Optimizes` has no such bound: it says what
is to be done, step by step, and each of its derivations is one finished computation.  What is inside an expression
is optimized first; the operator over the results is rewritten; and if that is a test whether a union is empty, it
is split into two tests, which are optimized in turn.

* `Expr.optimize_unfold`: optimization meets the equation of this recursion, which mentions no depth;
* `Expr.wellFounded_calls`: to optimize an expression, others are optimized, and so on, but not for ever;
* `Expr.not_testsUnion_optimize`: no test of a union is left.

**Main result** (`Expr.optimize_terminates`): the recursion is well founded, has exactly the one result that
`Expr.optimize` computes, and that has no more unions than the expression and no test of a union in it.

Design notes: a test that a split makes is not inside the expression that is optimized, and can be larger than it,
since what is inside was rewritten.  But it has fewer unions, because the union that was split is gone and rewriting
never adds any (`Expr.unions_optimized_le`).  So the number of unions counts first, and the size only among
expressions with equally many.
-/
import TreeQuery.Proofs.OptimizedForm

namespace TreeQuery

namespace Expr

variable {e r : Expr} {a b c : Operand} {i j : Info} {role : Role} {level : Optimization} {op : LogicalOp}
  {function : BuiltIn} {g : Expr → Expr}

/-- The operator over results for what is inside, with its properties computed anew. -/
def withResults (g : Expr → Expr) (e : Expr) : Expr := (e.mapOperands fun a => ⟨a.role, g a.expr⟩).refresh

/-- Whether an expression is a test whether a union is empty. -/
def TestsUnion (e : Expr) : Prop :=
  ∃ op function role a b j i, IsTest op function ∧ e = variadic (.call function) [⟨role, binary .union a b j⟩] i

/-- What optimization makes of an expression, as far as that is found in finitely many steps. -/
inductive Optimizes (level : Optimization) : Expr → Expr → Prop
  /-- Nothing is done. -/
  | off {e : Expr} : level = .none → Optimizes level e e
  /-- After what is inside, the operator over the results is rewritten, and is no test of a union. -/
  | here {e : Expr} {g : Expr → Expr} : level ≠ .none →
      (∀ a ∈ e.operands, Optimizes level a.expr (g a.expr)) → ¬ (e.withResults g).TestsUnion →
      Optimizes level e (optimizeHere level id (e.withResults g))
  /-- After what is inside, a test of a union is split, and the two tests that this makes are optimized. -/
  | split {e x y : Expr} {g : Expr → Expr} {op : LogicalOp} {function : BuiltIn} {role : Role} {a b : Operand}
      {i j : Info} : level ≠ .none →
      (∀ a ∈ e.operands, Optimizes level a.expr (g a.expr)) →
      IsTest op function → e.withResults g = variadic (.call function) [⟨role, binary .union a b j⟩] i →
      Optimizes level (test function a.expr) x → Optimizes level (test function b.expr) y →
      Optimizes level e (ofBinary (.logical op) ⟨.atomic, x⟩ ⟨.atomic, y⟩ i.location).fold

/-- To optimize the second expression, the first has to be optimized. -/
inductive Calls (level : Optimization) : Expr → Expr → Prop
  /-- It is inside. -/
  | operand {e : Expr} {a : Operand} : level ≠ .none → a ∈ e.operands → Calls level a.expr e
  /-- It is one of the two tests that a split makes. -/
  | test {e : Expr} {g : Expr → Expr} {op : LogicalOp} {function : BuiltIn} {role : Role} {a b c : Operand}
      {i j : Info} : level ≠ .none → (∀ a ∈ e.operands, Optimizes level a.expr (g a.expr)) →
      IsTest op function → e.withResults g = variadic (.call function) [⟨role, binary .union a b j⟩] i →
      c ∈ [a, b] → Calls level (test function c.expr) e

/-! ### The recursion -/

@[simp] theorem unions_test (function : BuiltIn) (e : Expr) : (test function e).unions = e.unions := by
  rw [test, ofVariadic, refresh, unions_withInfo, unions_eq]
  simp [isUnion, Operand.expr]

theorem optimize_none (e : Expr) : e.optimize .none = e := if_pos rfl

theorem unions_optimize_le (level : Optimization) (e : Expr) : (e.optimize level).unions ≤ e.unions := by
  by_cases hlevel : level = .none
  · subst hlevel
    exact Nat.le_of_eq (congrArg unions (optimize_none e))
  · rw [optimize_eq e hlevel]
    exact unions_optimized_le level e

theorem done_optimize (hlevel : level ≠ .none) (e : Expr) : Throughout (Done False level) (e.optimize level) := by
  rw [optimize_eq e hlevel]
  exact done_optimized False.elim

/-- A test of what is optimized is split as far as possible. -/
theorem optimize_test (hlevel : level ≠ .none) (htest : IsTest op function) (h : Throughout (Done False level) e) :
    (test function e).optimize level = tested op function e := by
  rw [optimize, if_neg hlevel]
  exact optimizeWithin_test htest h (Nat.le_of_eq (unions_test function e).symm)

/-- In a test of a union over optimized operands, the union is an operand that was optimized. -/
theorem exists_union_of_withResults
    (h : e.withResults g = variadic (.call function) [⟨role, binary .union a b j⟩] i) :
    ∃ x ∈ e.operands, g x.expr = binary .union a b j := by
  have hmem : ⟨role, binary .union a b j⟩ ∈ (e.withResults g).operands := by
    rw [h]
    exact List.mem_singleton.mpr rfl
  rw [withResults, operands_refresh, operands_mapOperands] at hmem
  obtain ⟨x, hx, heq⟩ := List.mem_map.mp hmem
  exact ⟨x, hx, congrArg Operand.expr heq⟩

/-- The operands of a union in a test have nothing more to be done, and fewer unions than the test. -/
theorem of_withResults_optimize (hlevel : level ≠ .none)
    (h : e.withResults (optimize level) = variadic (.call function) [⟨role, binary .union a b j⟩] i)
    (hc : c ∈ [a, b]) :
    Throughout (Done False level) c.expr ∧ c.expr.unions < e.unions := by
  obtain ⟨x, hx, hunion⟩ := exists_union_of_withResults h
  have hdone := done_optimize hlevel x.expr
  have hle : (binary .union a b j).unions ≤ e.unions := by
    rw [← hunion]
    exact Nat.le_trans (unions_optimize_le level x.expr) (unions_le_of_operand hx)
  rw [hunion] at hdone
  refine ⟨hdone.operand hc, ?_⟩
  rw [unions_eq] at hle
  simp only [isUnion, operands_binary, argumentUnions_cons, argumentUnions_nil, Bool.toNat_true] at hle
  rcases List.mem_pair.mp hc with rfl | rfl <;> omega

/-- **The recursion of optimization**, without a depth. -/
theorem optimize_unfold (hlevel : level ≠ .none) (e : Expr) :
    e.optimize level = optimizeHere level (optimize level) (e.withResults (optimize level)) := by
  have operands : (e.mapOperands (optimizedOperand level)).refresh = e.withResults (optimize level) := by
    rw [withResults]
    refine congrArg refresh (mapOperands_congr fun a _ => ?_)
    obtain ⟨role, x⟩ := a
    rw [optimizedOperand, optimizeOperand]
    exact congrArg (Operand.mk role) (optimize_eq x hlevel).symm
  rw [optimize_eq e hlevel, optimized, optimizeWith_eq]
  show optimizeHere level retest (e.mapOperands (optimizedOperand level)).refresh = _
  rw [operands]
  -- The operands of a union in a test are done, so its two tests come out split as far as possible.
  refine (optimizeHere_congr fun op function role a b i j htest heq => ?_).symm
  exact ⟨optimize_test hlevel htest (of_withResults_optimize hlevel heq (by simp)).1,
    optimize_test hlevel htest (of_withResults_optimize hlevel heq (by simp)).1⟩

/-- A test of a union is split, and what the two tests become is put together. -/
theorem optimizeHere_split {again : Expr → Expr} (htest : IsTest op function) :
    optimizeHere level again (variadic (.call function) [⟨role, binary .union a b j⟩] i) =
      (ofBinary (.logical op) ⟨.atomic, again (test function a.expr)⟩ ⟨.atomic, again (test function b.expr)⟩
        i.location).fold := by
  rcases htest with ⟨rfl, rfl⟩ | ⟨rfl, rfl⟩ <;> rfl

/-- What is no test of a union asks for no further optimization. -/
theorem optimizeHere_unsplit {again again' : Expr → Expr} (h : ¬ e.TestsUnion) :
    optimizeHere level again e = optimizeHere level again' e := by
  have retested (again : Expr → Expr) : optimizeHere level again e = optimizeHere level retest e := by
    refine optimizeHere_congr fun op function role a b i j htest heq => ?_
    exact absurd ⟨op, function, role, a, b, j, i, htest, heq⟩ h
  rw [retested again, retested again']

/-! ### Its end -/

/-- The operator over results that are those of optimization. -/
theorem withResults_congr (h : ∀ a ∈ e.operands, g a.expr = a.expr.optimize level) :
    e.withResults g = e.withResults (optimize level) := by
  rw [withResults, withResults]
  refine congrArg refresh (mapOperands_congr fun a ha => ?_)
  rw [h a ha]

/-- What is found in finitely many steps is what `optimize` computes. -/
theorem Optimizes.eq_optimize (h : Optimizes level e r) : r = e.optimize level := by
  induction h with
  | off hlevel => rw [hlevel, optimize_none]
  | here hlevel _ hunsplit ih =>
    have hresults := withResults_congr ih
    rw [optimize_unfold hlevel, ← hresults]
    exact optimizeHere_unsplit hunsplit
  | split hlevel _ htest heq _ _ ih ihx ihy =>
    have hresults := withResults_congr ih
    rw [optimize_unfold hlevel, ← hresults, heq, optimizeHere_split htest, ihx, ihy]

/-- What is asked for has fewer unions, or as many and is smaller. -/
theorem Calls.lt (h : Calls level r e) :
    Prod.Lex (· < ·) (· < ·) (r.unions, sizeOf r) (e.unions, sizeOf e) := by
  cases h with
  | operand _ ha =>
    have hle := unions_le_of_operand ha
    rcases Nat.lt_or_eq_of_le hle with hlt | heq
    · exact .left _ _ hlt
    · rw [heq]
      exact .right _ (sizeOf_expr_lt ha)
  | test hlevel hoperands _ heq hc =>
    -- The test need not be smaller than what it comes from, but the union that was split is gone.
    rw [withResults_congr fun a ha => (hoperands a ha).eq_optimize] at heq
    refine .left _ _ ?_
    rw [unions_test]
    exact (of_withResults_optimize hlevel heq hc).2

/-- What is asked for may ask for more, but not for ever. -/
theorem wellFounded_calls (level : Optimization) : WellFounded (Calls level) :=
  Subrelation.wf Calls.lt
    (InvImage.wf (fun e : Expr => (e.unions, sizeOf e)) (Prod.lex Nat.lt_wfRel Nat.lt_wfRel).wf)

/-- What `optimize` computes is found in finitely many steps. -/
theorem optimizes_optimize (level : Optimization) (e : Expr) : Optimizes level e (e.optimize level) := by
  -- On what is asked for, since the tests that a split makes are not inside the expression.
  induction e using (wellFounded_calls level).induction with
  | _ e ih =>
    by_cases hlevel : level = .none
    · subst hlevel
      rw [optimize_none]
      exact .off rfl
    · have operands : ∀ a ∈ e.operands, Optimizes level a.expr (a.expr.optimize level) :=
        fun a ha => ih a.expr (.operand hlevel ha)
      rw [optimize_unfold hlevel]
      by_cases hsplit : (e.withResults (optimize level)).TestsUnion
      · obtain ⟨op, function, role, a, b, j, i, htest, heq⟩ := hsplit
        have first := ih _ (.test hlevel operands htest heq (c := a) (by simp))
        have second := ih _ (.test hlevel operands htest heq (c := b) (by simp))
        rw [heq, optimizeHere_split htest]
        exact .split hlevel operands htest heq first second
      · have rewritten : optimizeHere level (optimize level) (e.withResults (optimize level)) =
            optimizeHere level id (e.withResults (optimize level)) := optimizeHere_unsplit hsplit
        rw [rewritten]
        exact .here hlevel operands hsplit

theorem optimizes_iff : Optimizes level e r ↔ r = e.optimize level := by
  constructor
  · exact Optimizes.eq_optimize
  · rintro rfl
    exact optimizes_optimize level e

/-- No test of a union is left. -/
theorem not_testsUnion_optimize (hlevel : level ≠ .none) (e : Expr) :
    Throughout (fun part => ¬ part.TestsUnion) (e.optimize level) := by
  refine (done_optimize hlevel e).mono fun part hdone => ?_
  rintro ⟨op, function, role, a, b, j, i, htest, rfl⟩
  exact hdone.simple op htest role a b j rfl

/-- **Optimization ends.**  At every level, to optimize an expression others have to be optimized, and so on, but
there is no endless chain of them.  So there is a result, which is found in finitely many steps, and there is only
this one; it is what `optimize` computes.  It has no more unions than the expression.  And unless nothing is
optimized at all, no part of it is a test whether a union is empty. -/
theorem optimize_terminates (level : Optimization) :
    WellFounded (Calls level) ∧ ∀ e : Expr,
      (∀ r, Optimizes level e r ↔ r = e.optimize level) ∧
      (e.optimize level).unions ≤ e.unions ∧
      (level ≠ .none → Throughout (fun part => ¬ part.TestsUnion) (e.optimize level)) := by
  refine ⟨wellFounded_calls level, fun e => ⟨fun r => optimizes_iff, unions_optimize_le level e, fun hlevel => ?_⟩⟩
  exact not_testsUnion_optimize hlevel e

/-- A test of a union inside a union is split twice at once. -/
example :
    let item := ofLeaf .contextItem .unknown
    let union (a b : Expr) := ofBinary .union ⟨.navigate, a⟩ ⟨.navigate, b⟩ .unknown
    ((test .existence (union (union item item) item)).optimize .basic).unions = 0 := by decide

end Expr

end TreeQuery
