/-
Parts that are known to be empty.

What typing knows to be always empty becomes the empty literal as soon as it is typed.  What typing puts around an
operand afterwards does not: a check that there is one item at most stays where none or several are known to come,
although only nothing can pass it, and so does a conversion around such a check.  Nothing else is left
(`Expr.collapsed_iff_of_typed`), so all that is known to be empty is a literal if and only if no such check was put in.

Design notes: the parts are looked at from the top down.  An operand has been typed as an expression of its own, unless
an arithmetic operation, a comparison or a conversion is around it; there it is known what typing has put in.
-/
import TreeQuery.Proofs.ItemTypes

namespace TreeQuery

namespace Expr

variable {s : StaticContext} {scope : Scope} {e t x : Expr} {target : AtomicType} {conversion : Conversion}

/-! ### What is known to be empty -/

/-- Whether an expression is the empty literal if it is known to be always empty. -/
def Collapsed (e : Expr) : Prop := e.cardinality = .empty → e.isEmptyLiteral = true

/-- Whether an expression is a check that there is one item at most where none or several come. -/
def LimitsToNothing : Expr → Prop
  | unary (.check required) a _ => required = .zeroOrOne ∧ a.expr.cardinality = ⟨true, false, true⟩
  | _ => False

/-- What a part that is known to be always empty can be once it is typed. -/
inductive KnownEmpty : Expr → Prop
  | literal {e : Expr} : e.isEmptyLiteral = true → KnownEmpty e
  | limited {e : Expr} : e.LimitsToNothing → KnownEmpty e
  | converted {target : AtomicType} {conversion : Conversion} {a : Operand} {i : Info} :
      a.expr.LimitsToNothing → KnownEmpty (unary (.convert target conversion) a i)

theorem exists_of_isEmptyLiteral (h : e.isEmptyLiteral = true) : e = leaf (.literal []) e.info := by
  unfold isEmptyLiteral at h
  cases hvs : e.literal? with
  | none => simp [hvs] at h
  | some vs =>
    obtain rfl : vs = [] := by simpa [hvs] using h
    exact eq_of_literal? hvs

theorem exists_of_limitsToNothing (h : e.LimitsToNothing) :
    ∃ a i, e = unary (.check .zeroOrOne) a i ∧ a.expr.cardinality = ⟨true, false, true⟩ := by
  rcases e with _ | ⟨op, a, i⟩ | _ | _ | _
  case unary =>
    cases op with
    | check required =>
      obtain ⟨rfl, hcardinality⟩ := h
      exact ⟨a, i, rfl, hcardinality⟩
    | _ => exact h.elim
  all_goals exact h.elim

theorem LimitsToNothing.not_isEmptyLiteral (h : e.LimitsToNothing) : e.isEmptyLiteral = false := by
  obtain ⟨a, i, rfl, -⟩ := exists_of_limitsToNothing h
  rfl

theorem LimitsToNothing.cardinality_eq (h : e.LimitsToNothing) (fresh : e.Fresh) : e.cardinality = .empty := by
  obtain ⟨a, i, rfl, hcardinality⟩ := exists_of_limitsToNothing h
  rw [cardinality, fresh]
  simp only [computed, Properties.ofUnary, hcardinality]
  rfl

theorem KnownEmpty.cardinality_eq (h : e.KnownEmpty) (fresh : Throughout Fresh e) : e.cardinality = .empty := by
  cases h with
  | literal h =>
    rw [cardinality, fresh.here, exists_of_isEmptyLiteral h]
    rfl
  | limited h => exact h.cardinality_eq fresh.here
  | converted h =>
    rw [cardinality, fresh.here]
    exact h.cardinality_eq (fresh.operand (by simp)).here

/-! ### What is typed and what is put in -/

/-- What has been typed is collapsed. -/
theorem Settled.collapsed {checks : Bool} (h : e.Settled checks) (fresh : e.Fresh) : e.Collapsed := by
  intro hempty
  rcases h.nonempty with hliteral | hnonempty
  · obtain ⟨vs, he⟩ := exists_literal hliteral
    rw [he] at fresh hempty ⊢
    rw [cardinality, fresh] at hempty
    rcases vs with _ | ⟨v, _ | ⟨w, vs⟩⟩
    · rfl
    · cases hempty
    · cases hempty
  · rw [hempty] at hnonempty
    cases hnonempty

theorem cardinality_atomized (nonempty : e.cardinality.isEmptyOnly = false) :
    e.atomized.cardinality ≠ .empty := by
  have here : e.cardinality ≠ .empty := fun h => by
    rw [h] at nonempty
    cases nonempty
  unfold atomized
  split
  · exact here
  · split
    · exact here
    · have hany : (e.wrapped .atomize).cardinality = .any := by
        simp [wrapped, ofUnary, cardinality, computed, Properties.ofUnary, Operand.expr, *]
      rw [hany]
      rintro ⟨⟩

/-- Of what may be several items, nothing is left by one at most only if it is several or nothing. -/
theorem eq_of_narrowed {c : Cardinality} (hmany : c.many = true)
    (h : (if c.inter .zeroOrOne = .impossible then .zeroOrOne else c.inter .zeroOrOne) = .empty) :
    c = ⟨true, false, true⟩ := by
  revert h hmany
  rcases c with ⟨_ | _, _ | _, _ | _⟩ <;> decide

/-- A check leaves nothing only where none or several items come. -/
theorem limitsToNothing_limited (nonempty : e.cardinality ≠ .empty) (h : e.limited.cardinality = .empty) :
    e.limited.LimitsToNothing := by
  unfold limited at h ⊢
  split at h
  case isTrue hmany =>
    rw [if_pos hmany]
    rw [wrapped, ofUnary, cardinality, props_refresh] at h
    exact ⟨rfl, eq_of_narrowed hmany h⟩
  case isFalse => exact absurd h nonempty

/-- A prepared operand is known to be empty only because of the check that was put around it. -/
theorem Operable.knownEmpty_prepared (h : x.Operable)
    (hempty : (x.prepared target conversion).cardinality = .empty) : (x.prepared target conversion).KnownEmpty := by
  rw [prepared_eq h.unconverted] at hempty ⊢
  unfold converted at hempty ⊢
  split at hempty
  case isTrue hconverts =>
    rw [if_pos hconverts]
    refine .converted (limitsToNothing_limited (cardinality_atomized h.nonempty) ?_)
    rwa [wrapped, ofUnary, cardinality, props_refresh] at hempty
  case isFalse hconverts =>
    rw [if_neg hconverts]
    exact .limited (limitsToNothing_limited (cardinality_atomized h.nonempty) hempty)

/-! ### Typed expressions -/

/-- What is known of the parts of a typed expression as far as it bears on what they put around their operands. -/
structure Prepared (s : StaticContext) (e : Expr) : Prop where
  fresh : e.Fresh
  settled : e.opensGuards = false → ∀ a ∈ e.operands, a.expr.Settled true
  operands : OperandsPrepared s e

theorem prepared_of_typed (built : e.Built true) (typed : e.typed s = .ok t) : Throughout (Prepared s) t := by
  have annotated := (wellTyped_of_built built [] t typed).1.throughout (Q := fun e => e.Fresh ∧
    (e.opensGuards = false → ∀ a ∈ e.operands, a.expr.Settled true)) fun _ _ h => ⟨h.fresh, h.settled⟩
  exact (annotated.and (prepared_typedIn (unconverted_of_built built) typed)).mono fun _ h => ⟨h.1.1, h.1.2, h.2⟩

/-- An operand that is known to be empty is a literal, or a check that was put in is to blame. -/
theorem Prepared.knownEmpty_operand (h : Prepared s e) (here : e.cardinality = .empty → e.KnownEmpty) {a : Operand}
    (ha : a ∈ e.operands) (fresh : a.expr.Fresh) (hempty : a.expr.cardinality = .empty) : a.expr.KnownEmpty := by
  cases hopens : e.opensGuards with
  | false => exact .literal ((h.settled hopens a ha).collapsed fresh hempty)
  | true =>
    rcases exists_of_opensGuards s hopens with ⟨target, conversion, b, i, rfl⟩ | ⟨target, conversion, hpreparation⟩
    · -- A conversion is known to be as long as what it converts.
      obtain rfl := List.mem_singleton.mp ha
      have hlength : (unary (.convert target conversion) a i).cardinality = .empty := by
        rw [cardinality, h.fresh]
        exact hempty
      cases here hlength with
      | literal h => cases h
      | limited h => exact h.elim
      | converted h => exact .limited h
    · obtain ⟨x, operable, hx⟩ := h.operands target conversion hpreparation a ha
      rw [hx] at hempty ⊢
      exact operable.knownEmpty_prepared hempty

theorem knownEmpty_of_prepared (h : Throughout (Prepared s) t) (here : t.cardinality = .empty → t.KnownEmpty) :
    Throughout (fun x => x.cardinality = .empty → x.KnownEmpty) t := by
  induction t using inductOperands with
  | h t ih =>
    refine .mk here fun a ha => ih a ha (h.operand ha) fun hempty => ?_
    exact h.here.knownEmpty_operand here ha (h.operand ha).here.fresh hempty

/-- **What is known to be empty is the empty literal, unless a check was put around it.**  Of the parts of a typed
expression, those are known to be always empty that are the empty literal, a check for at most one item where none or
several come, or a conversion around such a check.  So all of them are the empty literal if and only if there is no
such check. -/
theorem collapsed_iff_of_typed (built : e.Built true) (typed : e.typed s = .ok t) :
    Throughout (fun x => x.cardinality = .empty ↔ x.KnownEmpty) t ∧
      (Throughout Collapsed t ↔ Throughout (fun x => ¬ x.LimitsToNothing) t) := by
  have prepared := prepared_of_typed built typed
  have fresh : Throughout Fresh t := prepared.mono fun _ h => h.fresh
  have settled : t.Settled true := (wellTyped_of_built built [] t typed).2
  have known := knownEmpty_of_prepared prepared fun h => .literal (settled.collapsed fresh.here h)
  refine ⟨(known.and fresh.parts).mono fun _ h => ⟨h.1, fun hknown => hknown.cardinality_eq h.2⟩, ?_, ?_⟩
  · intro collapsed
    refine (collapsed.and fresh).mono fun x h hlimits => ?_
    have hliteral := h.1 (hlimits.cardinality_eq h.2)
    rw [hlimits.not_isEmptyLiteral] at hliteral
    cases hliteral
  · intro unlimited
    refine (known.and unlimited.parts).mono fun x h hempty => ?_
    cases h.1 hempty with
    | literal hliteral => exact hliteral
    | limited hlimits => exact (h.2.here hlimits).elim
    | converted hlimits => exact ((h.2.operand (by simp)).here hlimits).elim

/-- The numbers that a global variable has, and one added. -/
def numbersSum : Expr :=
  (Binary.arithmetic .add .generic).on (ofLeaf (.global numbersName none) .unknown) (literal [.integer 1] .unknown)
    .unknown

/-- Where none or several integers are declared, the sum is of something that is known to be always empty and yet is a
check. -/
theorem collapsed_iff_of_typed_numbersSum :
    let s := StaticContext.initial.declareGlobal numbersName ⟨.atomic .integer, ⟨true, false, true⟩⟩
    ∃ t a, numbersSum.typed s = .ok t ∧ a ∈ t.operands ∧ a.expr.LimitsToNothing ∧
      a.expr.cardinality = .empty ∧ a.expr.isEmptyLiteral = false ∧ ¬ Throughout Collapsed t := by
  intro s
  have built : numbersSum.Built true := .arithmetic _ _ (.global _ _) (.literal _ _)
  obtain ⟨t, a, typed, ha, hlimits⟩ : ∃ t a, numbersSum.typed s = .ok t ∧ a ∈ t.operands ∧ a.expr.LimitsToNothing :=
    ⟨_, _, rfl, List.mem_cons_self, rfl, rfl⟩
  obtain ⟨known, iff⟩ := collapsed_iff_of_typed built typed
  refine ⟨t, a, typed, ha, hlimits, (known.operand ha).here.mpr (.limited hlimits), hlimits.not_isEmptyLiteral, ?_⟩
  exact fun collapsed => ((iff.mp collapsed).operand ha).here hlimits

end Expr

end TreeQuery
