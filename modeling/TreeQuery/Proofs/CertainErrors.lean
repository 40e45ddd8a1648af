/-
Type errors that are known in advance.

Typing rejects an operation over typed operands if the types and cardinalities of these tell that it fails
(`Expr.Rejects`).  They tell the truth about the items that there are: a number does not belong to a type that is known
to have none (`Expr.not_isKnownNonNumeric`), values that can be compared belong to comparable types
(`AtomicType.comparable_of_order`), and what is known to be always empty is empty (`Context.Suits.le_greatest`).  But
they do not tell whether there are any items.

* `Expr.succeeds_iff_spared` — where global and local variables have values of their types, what typing rejects fails
  unless it is spared: an arithmetic operation or a comparison for which an operand gives nothing, a path that starts
  from nothing, or a check of a length that the cardinality of its operand wrongly excludes.

Design notes: the expression that is evaluated is the one over typed operands, to which typing has put nothing yet.
That its operands can be prepared carries the argument for values: prepared values belong to the types that typing has
looked at.
-/
import TreeQuery.Proofs.PreparedOperands

namespace TreeQuery

/-! ### Values -/

namespace AtomicType

variable {s t : AtomicType} {v w : Value}

/-- Number operands are numbers. -/
theorem not_isKnownNonNumeric (hv : v.type.isSubtypeOf t = true) {n : Number} (h : Number.ofOperand v = .ok n) :
    t.isKnownNonNumeric = false := by
  cases v with
  | boolean _ | string _ | uri _ => cases h
  | _ => cases t <;> first | rfl | cases hv

/-- The values of a type with a class have that class. -/
theorem comparisonClass?_of_isSubtypeOf {u : AtomicType} {k : ComparisonClass} (h : u.isSubtypeOf t = true)
    (hk : t.comparisonClass? = some k) : u.comparisonClass? = some k := by
  revert h hk
  cases k <;> cases u <;> cases t <;> decide

/-- Values that can be compared belong to one class. -/
theorem eq_of_order {o : Option Ordering} (h : Value.order v w = .ok o) {k l : ComparisonClass}
    (hk : v.type.comparisonClass? = some k) (hl : w.type.comparisonClass? = some l) : k = l := by
  cases v <;> cases w <;>
    first | cases h; done | cases hk; done | cases hl; done | exact Option.some.inj (hk.symm.trans hl)

/-- Values that can be compared belong to comparable types. -/
theorem comparable_of_order (hv : v.type.isSubtypeOf s = true) (hw : w.type.isSubtypeOf t = true) {o : Option Ordering}
    (h : Value.order v w = .ok o) : comparable s t = true := by
  unfold comparable
  split
  case h_1 k l hk hl =>
    exact beq_iff_eq.mpr (eq_of_order h (comparisonClass?_of_isSubtypeOf hv hk) (comparisonClass?_of_isSubtypeOf hw hl))
  case h_2 => rfl

end AtomicType

/-! ### What evaluation comes to -/

namespace Trace

theorem exists_ofItem_iff {x : Except Cause (Option Item)} :
    (∃ xs, Trace.ofItem x = .ofList xs) ↔ ∃ a?, x = .ok a? := by
  constructor
  · rintro ⟨xs, h⟩
    cases x with
    | error e => cases h
    | ok a? => exact ⟨a?, rfl⟩
  · rintro ⟨a?, rfl⟩
    exact ⟨a?.toList, rfl⟩

/-- Whether of two operands neither has several items, and one has none. -/
def LacksPartner (f : Forest) (t u : Trace) : Prop :=
  ∃ v? w?, t.single f = .ok v? ∧ u.single f = .ok w? ∧ (v? = none ∨ w? = none)

/-- An operation that fails on every two values succeeds where there are not two. -/
theorem exists_pair_iff {f : Forest} {t u : Trace} {compute : Value → Value → Except Error Value}
    (fails : ∀ v w r, t.single f = .ok (some v) → u.single f = .ok (some w) → compute v w ≠ .ok r) :
    (∃ xs, Trace.ofItem ((t.single f).bind fun v => (u.single f).bind (Behaviour.pairOne compute v)) = .ofList xs) ↔
      t.LacksPartner f u := by
  rw [exists_ofItem_iff]
  constructor
  · rintro ⟨a?, h⟩
    obtain ⟨v?, hv, h⟩ := bind_eq_ok_iff.mp h
    obtain ⟨w?, hw, h⟩ := bind_eq_ok_iff.mp h
    refine ⟨v?, w?, hv, hw, ?_⟩
    cases v? with
    | none => exact .inl rfl
    | some v =>
      cases w? with
      | none => exact .inr rfl
      | some w =>
        obtain ⟨r, hr, -⟩ := map_eq_ok_iff.mp h
        exact absurd (mapError_eq_ok_iff.mp hr) (fails v w r hv hw)
  · rintro ⟨v?, w?, hv, hw, hnone⟩
    refine ⟨none, ?_⟩
    rw [hv, hw, ok_bind, ok_bind]
    rcases hnone with rfl | rfl
    · rfl
    · cases v? <;> rfl

/-- Where there are no items, there is no first one. -/
theorem only_of_items_eq_nil {t : Trace} {several : Cause} {a? : Option Item} (h : t.items = [])
    (honly : t.only several = .ok a?) : a? = none := by
  obtain ⟨xs, failure?⟩ := t
  obtain rfl : xs = [] := h
  cases failure? with
  | none => exact (Except.ok.inj honly).symm
  | some e => cases honly

theorem failure?_of_wholeIf {t : Trace} {needed : Bool} (h : (t.wholeIf needed).failure? = none) :
    t.failure? = none := by
  rcases t with ⟨xs, _ | e⟩
  · rfl
  · cases needed <;> cases h

theorem failure?_of_sorted {t : Trace} {f : Forest} {xs : Sequence} (h : t.sorted f = .ofList xs) :
    t.failure? = none := by
  rcases t with ⟨ys, _ | e⟩
  · rfl
  · cases h

/-- A check that is known to fail succeeds where what is known is wrong. -/
theorem exists_check_iff {t : Trace} {required known : Cardinality} (hlength : min t.items.length 2 ≤ known.greatest)
    (h : known.isEmptyOnly = true ∧ required.zero = false ∨ known.inter required = .impossible) :
    (∃ xs, t.check required = .ofList xs) ↔
      ∃ xs, t = .ofList xs ∧ xs.length ≤ 1 ∧ required.admits xs.length = true ∧ known.admits xs.length = false := by
  constructor
  · rintro ⟨xs, hcheck⟩
    obtain ⟨hfailure, -, hadmits⟩ := checkFrom_of_ok (show (t.check required).failure? = none by rw [hcheck]; rfl)
    have hrequired : required.admits t.items.length = true := by simpa using hadmits (.inl rfl)
    have hknown : known.admits t.items.length = false := by
      rcases h with ⟨hempty, hzero⟩ | himpossible
      · have hnil : t.items.length = 0 := by
          have := Cardinality.greatest_eq_zero hempty
          omega
        rw [hnil] at hrequired
        cases hzero.symm.trans hrequired
      · have hboth := Cardinality.admits_inter known required t.items.length
        rw [himpossible, hrequired, Bool.and_true] at hboth
        rw [← hboth]
        rcases t.items.length with _ | _ | n <;> rfl
    refine ⟨t.items, result_eq_ok_iff.mp ?_, ?_, hrequired, hknown⟩
    · rw [result, hfailure]
    -- Of several items it is always known that there may be several.
    · by_contra hmore
      have hmany : known.many = true := by
        by_contra hnot
        have := Cardinality.greatest_le_one (show known.atMostOne = true by simpa [Cardinality.atMostOne] using hnot)
        omega
      cases (Cardinality.admits_of_many hmany (show 2 ≤ t.items.length by omega)).symm.trans hknown
  · rintro ⟨xs, rfl, hlength, hrequired, -⟩
    refine ⟨xs, ?_⟩
    rcases xs with _ | ⟨a, _ | ⟨b, xs⟩⟩
    · have hzero : required.zero = true := hrequired
      simp [check, checkFrom, hzero, ofList]
    · have hone : required.admits (0 + 1) = true := hrequired
      simp [check, checkFrom, hone, ofList, cons]
    · simp at hlength

end Trace

/-! ### Rejections -/

/-- The codes of errors about types and numbers of items that typing may know in advance. -/
def ErrorCode.ofTyping : List Name := [XPTY0004.name, XPTY0019.name, FORG0005.name]

namespace Expr

variable {s : StaticContext} {d : Dispatcher} {scope : Scope} {e e' x : Expr} {a b : Operand} {i : Info} {c : Context}
  {err : Error}

theorem code_typeError (e : Expr) (cause : Cause) : (e.typeError cause).code = cause.code :=
  congrArg Cause.code (Error.cause_located _ _)

/-! ### Operations on two values -/

section Pair

variable {op : ArithmeticOp} {calculator : Calculator} {conversion : Conversion}

/-- A number does not belong to a type without numbers. -/
theorem not_isKnownNonNumeric (hx : x.Preparable d .double conversion c) {v : Value} {n : Number}
    (hv : (x.run d c).single c.forest = .ok (some v)) (h : Number.ofOperand v = .ok n) :
    (x.prepared .double conversion).itemType.atomized.isKnownNonNumeric = false := by
  obtain ⟨w, hw, hn⟩ := Value.exists_converted conversion h
  exact AtomicType.not_isKnownNonNumeric (isSubtypeOf_single hx.prepared (hx.single_some hv hw)) hn

theorem exists_arithmetic_iff (ha : a.expr.Preparable d .double conversion c)
    (hb : b.expr.Preparable d .double conversion c) {z : Operand}
    (hz : z ∈ (binary (.arithmetic op calculator) a b i).operands)
    (nonNumeric : (z.expr.prepared .double conversion).itemType.atomized.isKnownNonNumeric = true) :
    (∃ xs, (binary (.arithmetic op calculator) a b i).run d c = .ofList xs) ↔
      (a.expr.run d c).LacksPartner c.forest (b.expr.run d c) := by
  rw [run_arithmetic]
  refine Trace.exists_pair_iff fun v w r hv hw hr => ?_
  obtain ⟨m, hm, hr⟩ := bind_eq_ok_iff.mp hr
  obtain ⟨n, hn, -⟩ := bind_eq_ok_iff.mp hr
  simp only [operands_binary, List.mem_cons, List.not_mem_nil, or_false] at hz
  rcases hz with rfl | rfl
  · cases nonNumeric.symm.trans (not_isKnownNonNumeric ha hv hm)
  · cases nonNumeric.symm.trans (not_isKnownNonNumeric hb hw hn)

theorem exists_compare_iff {op : ComparisonOp} (ha : a.expr.Preparable d .string .strict c)
    (hb : b.expr.Preparable d .string .strict c)
    (incomparable : AtomicType.comparable (a.expr.prepared .string .strict).itemType.atomized
      (b.expr.prepared .string .strict).itemType.atomized = false) :
    (∃ xs, (binary (.compare op) a b i).run d c = .ofList xs) ↔
      (a.expr.run d c).LacksPartner c.forest (b.expr.run d c) := by
  rw [run_compare]
  refine Trace.exists_pair_iff fun v w r hv hw hr => ?_
  obtain ⟨truth, htruth, -⟩ := map_eq_ok_iff.mp hr
  obtain ⟨v', w', hv', hw', hcompare⟩ := Value.exists_compared .strict htruth
  obtain ⟨o, ho, -⟩ := map_eq_ok_iff.mp hcompare
  have hv := isSubtypeOf_single ha.prepared (ha.single_some hv hv')
  have hw := isSubtypeOf_single hb.prepared (hb.single_some hw hw')
  cases incomparable.symm.trans (AtomicType.comparable_of_order hv hw ho)

end Pair

/-! ### Other operators -/

/-- A path that starts from atomic values fails at the first of them. -/
theorem exists_path_iff (accepting : Accepting d a.expr c) (atomic : a.expr.itemType.isAtomic = true) :
    (∃ xs, (binary .path a b i).run d c = .ofList xs) ↔ a.expr.run d c = .ofList [] := by
  constructor
  · rintro ⟨xs, hrun⟩
    have hfound : (found d a.expr b.expr c).failure? = none := by
      rw [run_path] at hrun
      split at hrun
      · rw [hrun, Trace.failure?_ofList]
      · exact Trace.failure?_of_sorted hrun
    obtain ⟨hwhole, hsteps⟩ := Trace.failure?_expand_eq_none hfound
    have hstart : (a.expr.run d c).failure? = none := Trace.failure?_of_wholeIf hwhole
    rw [Trace.wholeIf_of_ok _ hstart] at hsteps
    have hnil : (a.expr.run d c).items = [] := by
      by_contra hne
      obtain ⟨item, rest, hitems⟩ := List.exists_cons_of_ne_nil hne
      obtain ⟨v, rfl⟩ := ItemType.exists_atomic atomic (accepting item (by simp [hitems]))
      cases hsteps 0 (.atomic v) (by simp [hitems])
    exact Trace.ext hnil hstart
  · intro h
    have hfound : found d a.expr b.expr c = .ofList [] := by
      rw [found, h, Trace.wholeIf_of_ok _ rfl]
      rfl
    refine ⟨[], ?_⟩
    rw [run_path, hfound]
    split <;> rfl

theorem fails_exactlyOne {rest : List Operand} (hempty : (a.expr.run d c).items = []) :
    ¬ ∃ xs, (variadic (.call .exactlyOne) (a :: rest) i).run d c = .ofList xs := by
  rw [run_exactlyOne, Trace.exists_ofItem_iff]
  rintro ⟨a?, h⟩
  obtain ⟨item?, honly, hrequired⟩ := bind_eq_ok_iff.mp h
  obtain rfl := Trace.only_of_items_eq_nil hempty honly
  cases hrequired

theorem fails_cast {target : AtomicType} (hempty : (a.expr.run d c).items = []) :
    ¬ ∃ xs, (unary (.cast target false) a i).run d c = .ofList xs := by
  rw [run_cast, Trace.exists_ofItem_iff]
  rintro ⟨a?, h⟩
  obtain ⟨v?, hsingle, hcast⟩ := bind_eq_ok_iff.mp h
  obtain ⟨item?, honly, rfl⟩ := map_eq_ok_iff.mp hsingle
  obtain rfl := Trace.only_of_items_eq_nil hempty honly
  cases hcast

/-! ### Rejected expressions -/

/-- How an expression may escape what typing rejects it for.  The operands of an operation do not have a value each.  A
path starts from nothing.  A check meets a number of items that it asks for, and that the cardinality of its operand
excludes. -/
def Spared (d : Dispatcher) (c : Context) : Expr → Prop
  | binary (.arithmetic _ _) a b _ => (a.expr.run d c).LacksPartner c.forest (b.expr.run d c)
  | binary (.compare _) a b _ => (a.expr.run d c).LacksPartner c.forest (b.expr.run d c)
  | binary .path a _ _ => a.expr.run d c = .ofList []
  | unary (.check required) a _ =>
    ∃ xs, a.expr.run d c = .ofList xs ∧ xs.length ≤ 1 ∧ required.admits xs.length = true ∧
      a.expr.cardinality.admits xs.length = false
  | _ => False

/-- **What typing rejects fails unless it is spared.**  Take an expression over operands that have been typed, which
typing rejects with an error about types, and a context where global and local variables have values of their types.
Evaluation of the expression succeeds there if and only if it is an arithmetic operation or a comparison for which one
operand gives nothing and the other one no more than one item, a path that starts from nothing, or a check of a number
of items that the cardinality of its operand excludes, although the operand has that many. -/
theorem succeeds_iff_spared (built : e.Built true) (operands : OperandsTyped s scope e e')
    (failed : settle s e' = .error err) (type : err.code ∈ ErrorCode.ofTyping) (suits : c.Suits s scope) :
    (∃ xs, ((e'.refresh.behaviour d).collect c).outcome = .ok xs) ↔ e'.refresh.Spared d c := by
  have rejects := rejects_of_settle failed
  simp only [collect_eq_ok_iff]
  generalize hm : e'.refresh = m at rejects ⊢
  have length {a₀ a : Operand} (ha₀ : a₀ ∈ e.operands) (ha : typedIn s scope a₀.expr = .ok a.expr) :
      min (a.expr.run d c).items.length 2 ≤ a.expr.cardinality.greatest :=
    suits.le_greatest (wellTyped_of_built (built.operand ha₀) scope _ ha)
  -- An operand that is known to be always empty is.
  have nothing {a₀ a : Operand} (ha₀ : a₀ ∈ e.operands) (ha : typedIn s scope a₀.expr = .ok a.expr)
      (hempty : a.expr.cardinality.isEmptyOnly = true) : (a.expr.run d c).items = [] := by
    have := length ha₀ ha
    have := Cardinality.greatest_eq_zero hempty
    exact List.eq_nil_of_length_eq_zero (by omega)
  cases rejects with
  | undeclared =>
    rw [code_typeError] at type
    exact absurd (show ErrorCode.XPST0008.name ∈ ErrorCode.ofTyping from type) (by decide)
  | abstractTarget =>
    rw [code_typeError] at type
    exact absurd (show ErrorCode.XPST0051.name ∈ ErrorCode.ofTyping from type) (by decide)
  | operand hx nonNumeric =>
    obtain ⟨a₀, b₀, i₀, rfl, ha, hb⟩ := operands.exists_binary hm
    exact exists_arithmetic_iff (preparable_typedIn (built.operand (by simp)) ha suits _ _)
      (preparable_typedIn (built.operand (by simp)) hb suits _ _) hx nonNumeric
  | compare ht hu incomparable =>
    obtain ⟨a₀, b₀, i₀, rfl, ha, hb⟩ := operands.exists_binary hm
    subst ht hu
    exact exists_compare_iff (preparable_typedIn (built.operand (by simp)) ha suits _ _)
      (preparable_typedIn (built.operand (by simp)) hb suits _ _) incomparable
  | exactlyOne hempty =>
    obtain ⟨a₀, rest₀, i₀, rfl, ha⟩ := operands.exists_call hm
    exact iff_of_false (fails_exactlyOne (nothing (by simp) ha hempty)) id
  | alwaysEmpty hempty hzero =>
    obtain ⟨a₀, i₀, rfl, ha⟩ := operands.exists_unary hm
    simp only [run_check]
    exact Trace.exists_check_iff (length (by simp) ha) (.inl ⟨hempty, hzero⟩)
  | unsatisfiable himpossible =>
    obtain ⟨a₀, i₀, rfl, ha⟩ := operands.exists_unary hm
    simp only [run_check]
    exact Trace.exists_check_iff (length (by simp) ha) (.inr himpossible)
  | cast hempty =>
    obtain ⟨a₀, i₀, rfl, ha⟩ := operands.exists_unary hm
    exact iff_of_false (fails_cast (nothing (by simp) ha hempty)) id
  | path atomic =>
    obtain ⟨a₀, b₀, i₀, rfl, ha, hb⟩ := operands.exists_binary hm
    exact exists_path_iff (suits.accepting (checked_typedIn (built.operand (by simp)) ha)) atomic

/-- Where nothing is declared, every context suits. -/
theorem suits_initial (c : Context) : c.Suits .initial [] where
  globals name type xs htype := by cases (show (none : Option SequenceType) = some type from htype)
  matching name type xs htype := by cases (show (none : Option SequenceType) = some type from htype)
  locals v type xs _ htype := by cases htype
  localsMatch v type xs _ htype := by cases htype

/-- The sum of a text, of which nothing is left, and a number. -/
def sumOfNothing : Expr :=
  (Binary.arithmetic .add .generic).on
    (Binary.filter.on (literal [.string "a"] .unknown) (literal [.boolean false] .unknown) .unknown)
    (literal [.integer 1] .unknown) .unknown

/-- Typing rejects the sum because texts are no numbers, but there is no text to be added. -/
theorem succeeds_iff_spared_sumOfNothing :
    ∃ e' err, sumOfNothing.Built true ∧ OperandsTyped .initial [] sumOfNothing e' ∧ settle .initial e' = .error err ∧
      err.code ∈ ErrorCode.ofTyping ∧ (Context.initial .empty).Suits .initial [] ∧
      ∃ xs, ((e'.refresh.behaviour .none).collect (.initial .empty)).outcome = .ok xs := by
  have built : sumOfNothing.Built true := .arithmetic _ _ (.filter _ (.literal _ _) (.literal _ _)) (.literal _ _)
  have operands : OperandsTyped .initial [] sumOfNothing sumOfNothing := .binary rfl rfl rfl rfl
  have failed : ∃ err, settle .initial sumOfNothing = .error err ∧ err.code ∈ ErrorCode.ofTyping := ⟨_, rfl, by decide⟩
  obtain ⟨err, failed, type⟩ := failed
  have suits : (Context.initial .empty).Suits .initial [] := suits_initial _
  refine ⟨_, err, built, operands, failed, type, suits, ?_⟩
  exact (succeeds_iff_spared built operands failed type suits).mpr ⟨none, some (.integer 1), rfl, rfl, .inl rfl⟩

end Expr

end TreeQuery
