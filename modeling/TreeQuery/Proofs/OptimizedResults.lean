/-
What optimization leaves comes to what the expression came to.

Each step of simplification under the basic level puts an expression in place of another that it stands for
(`Expr.Simplifies.standsFor`): a filter by a literal becomes a subsequence, its base or nothing, a test of a
union becomes two tests, and a binding that nothing refers to becomes its body.  So does the fold of a constant.
By induction over a typed expression, what optimization leaves stands for it, with properties that describe
its results (`Expr.standsFor_optimized`), as long as no path is sorted after optimization that was not before
(`Expr.Undisturbed`).  The results of the whole are then the same (`Expr.optimize_preserves`).  Without
the conditions they need not be (`Expr.optimize_changes_orValues`).
-/
import TreeQuery.Proofs.OptimizedForm
import TreeQuery.Proofs.OrderedResults
import TreeQuery.Proofs.Positions
import TreeQuery.Proofs.Replacement

namespace TreeQuery

/-! ### Filters by a literal -/

namespace Trace

variable {t : Trace} {v : Value}

/-- Whether a single value holds as a predicate at a position. -/
def valueHolds (v : Value) (position : Nat) : Bool :=
  match v.number? with
  | some x => x == doubleOfInt position
  | none => v.truth

theorem holdsAt_value (v : Value) (position : Nat) :
    (ofList [.atomic v]).holdsAt position = .ok (valueHolds v position) := by
  show (match v.number? with
    | some x => Except.ok (x == doubleOfInt position)
    | none => Except.ok v.truth) = _
  unfold valueHolds
  cases v.number? <;> rfl

theorem filter_of_true (t : Trace) : t.filter (fun _ _ => .ok true) = t := by
  obtain ⟨xs, failure?⟩ := t
  have from_ (before : Nat) :
      expandFrom (fun _ a => keeping (.ok true) a) failure? before xs = ⟨xs, failure?⟩ := by
    induction xs generalizing before with
    | nil => rfl
    | cons a rest ih =>
      rw [expandFrom, ih]
      rfl
  exact from_ 0

theorem expandFrom_at {keep : Nat → Item → Except Cause Bool} {xs : Sequence} {failure? : Option Cause}
    (k : Option Nat) (before : Nat)
    (h : ∀ i a, xs[i]? = some a → keep (before + i) a = .ok (decide (k = some i))) :
    expandFrom (fun i a => keeping (keep i a) a) failure? before xs = ⟨(k.bind (xs[·]?)).toList, failure?⟩ := by
  induction xs generalizing before k with
  | nil => cases k <;> rfl
  | cons a rest ih =>
    have hfirst : keep before a = .ok (decide (k = some 0)) := h 0 a rfl
    have hrest (i : Nat) (b : Item) (hb : rest[i]? = some b) :
        keep (before + 1 + i) b = .ok (decide (k = some (i + 1))) := by
      rw [Nat.add_right_comm]
      exact h (i + 1) b hb
    rw [expandFrom, hfirst]
    rcases k with _ | _ | k
    · rw [ih none (before + 1) fun i b hb => by rw [hrest i b hb]; simp]
      rfl
    · rw [ih none (before + 1) fun i b hb => by rw [hrest i b hb]; simp]
      rfl
    · rw [ih (some k) (before + 1) fun i b hb => by rw [hrest i b hb]; simp]
      rfl

/-- A filter that keeps one position, or none. -/
theorem filter_at {keep : Nat → Item → Except Cause Bool} (k : Option Nat)
    (h : ∀ i a, t.items[i]? = some a → keep i a = .ok (decide (k = some i))) :
    t.filter keep = ⟨(k.bind (t.items[·]?)).toList, t.failure?⟩ :=
  expandFrom_at k 0 fun i a ha => by rw [Nat.zero_add]; exact h i a ha

/-- One item is taken where it is found, whatever comes after it. -/
theorem at_extendsTo_between (t : Trace) {n : Int} (hn : 0 < n) :
    (Trace.mk t.items[(n - 1).toNat]?.toList t.failure?).ExtendsTo (t.between n n) := by
  obtain ⟨xs, failure?⟩ := t
  have hitems : slice xs n n = xs[(n - 1).toNat]?.toList := by
    rw [slice, show (n - max (n - 1) 0).toNat = 1 by omega]
    generalize (n - 1).toNat = k
    induction xs generalizing k with
    | nil => simp
    | cons a rest ih =>
      cases k with
      | zero => simp
      | succ k => exact ih k
  have hbetween : (Trace.mk xs failure?).between n n =
      ⟨xs[(n - 1).toNat]?.toList, if (xs.length : Int) < n then failure? else none⟩ := by
    rw [← hitems]
    simp [between, betweenFrom, slice]
  rw [hbetween]
  cases failure? with
  | none =>
    simp only [ite_self]
    exact .refl _
  | some e => exact .of_starts (by rintro ⟨⟩) (List.prefix_refl _)

/-- Far behind the end of a sequence there is nothing. -/
theorem between_far {low high : Int} (h : (t.items.length : Int) < low) :
    (Trace.mk [] t.failure?).ExtendsTo (t.between low high) := by
  have hitems : (t.between low high).items = [] := by
    rw [items_between, slice, List.drop_of_length_le (by omega), List.take_nil]
  cases hfailure : t.failure? with
  | none =>
    have : t.between low high = ofList [] := by
      rw [← hitems]
      simp [between, betweenFrom, hfailure, ofList]
    rw [this]
    exact .refl _
  | some e => exact .of_starts (by rintro ⟨⟩) List.nil_prefix

end Trace

theorem Value.valueHolds_boolean (b : Bool) (position : Nat) :
    Trace.valueHolds (.boolean b) position = b := rfl

/-- A number holds at the position that it is. -/
theorem Value.valueHolds_position {v : Value} {n? : Option Int64} (h : v.position? = some n?) {k : Nat}
    (hk : k + 1 < 2 ^ 52) : Trace.valueHolds v (k + 1) = true ↔ ∃ n, n? = some n ∧ n.toInt = k + 1 := by
  obtain ⟨x, hx⟩ : ∃ x, v.number? = some x := by
    cases v <;> first | exact ⟨_, rfl⟩ | cases h
  have := number_beq_iff (p := k + 1) hx (by omega) (by omega)
  rw [h] at this
  simp only [Option.some.injEq] at this
  rw [Trace.valueHolds, hx]
  exact this

namespace Expr

variable {d : Dispatcher} {c : Context} {a b a' b' : Operand} {i : Info} {value : Value}

/-- Whether a value holds at no position of a sequence that is not too long. -/
def NeverHolds (v : Value) : Prop := v = .boolean false ∨ v.position? = some none

section LiteralFilters

variable (hd : d.IsLocal) (hb' : Throughout Consistent b'.expr) (needs : NeedsNoMore b.expr b'.expr)
  (hb : ∀ c', Second d a b c .filter c' → (b.expr.run d c').ExtendsTo (b'.expr.run d c'))
include hd hb' needs hb

/-- A filter by what comes to the same as the predicate or further. -/
theorem filter_extendsTo_predicate :
    ((binary .filter a b i).run d c).ExtendsTo ((binary .filter a b' i).run d c) := by
  have follows : ((binary .filter a b i).run d c).Follows False ((binary .filter a b' i).run d c) :=
    follows_filter (needs.seesAlike hd hb' (.refl _)) nofun (.refl (a.expr.run d c)) fun c' second =>
      ⟨hb c' second, nofun⟩
  exact follows.forth

/-- A filter by what comes to a literal value. -/
theorem filter_extendsTo_literal (hliteral : b'.expr.literal? = some [value]) :
    ((binary .filter a b i).run d c).ExtendsTo
      ((a.expr.run d c).filter fun k _ => .ok (Trace.valueHolds value (k + 1))) := by
  have hlast : b'.expr.dependencies.last = false := by
    rw [dependencies, hb'.here.fresh, eq_of_literal? hliteral]
    rfl
  have hrun (k : Nat) (item : Item) :
      b'.expr.runAt d c (a.expr.sizeIf d false c) k item = .ofList [.atomic value] := by
    rw [runAt, eq_of_literal? hliteral]
    exact run_literal [value]
  have hfilter : (binary .filter a b' i).run d c =
      (a.expr.run d c).filter fun k _ => .ok (Trace.valueHolds value (k + 1)) := by
    rw [run_filter, hlast, Trace.wholeIf_false]
    simp only [hrun, Trace.holdsAt_value]
  rw [← hfilter]
  exact filter_extendsTo_predicate hd hb' needs hb

theorem filter_extendsTo_base (hliteral : b'.expr.literal? = some [.boolean true]) :
    ((binary .filter a b i).run d c).ExtendsTo (a.expr.run d c) := by
  have h := filter_extendsTo_literal (i := i) hd hb' needs hb hliteral
  simp only [Value.valueHolds_boolean] at h
  rwa [Trace.filter_of_true] at h

/-- A filter by what holds nowhere leaves nothing. -/
theorem filter_extendsTo_nothing (hliteral : b'.expr.literal? = some [value]) (never : NeverHolds value)
    (hlength : (a.expr.run d c).items.length < 2 ^ 52) :
    ((binary .filter a b i).run d c).ExtendsTo ⟨[], (a.expr.run d c).failure?⟩ := by
  have h := filter_extendsTo_literal (i := i) hd hb' needs hb hliteral
  rwa [Trace.filter_at none fun k item hitem => ?_] at h
  have hk : k < (a.expr.run d c).items.length := (List.getElem?_eq_some_iff.mp hitem).1
  rw [Except.ok.injEq]
  rcases never with rfl | hposition
  · rfl
  · have := Value.valueHolds_position hposition (k := k) (by omega)
    rw [Bool.eq_iff_iff, this]
    simp

/-- A filter by a number leaves the item at that position. -/
theorem filter_extendsTo_at {n? : Option Int64} (hliteral : b'.expr.literal? = some [value])
    (hposition : value.position? = some n?) (hlength : (a.expr.run d c).items.length < 2 ^ 52) :
    ((binary .filter a b i).run d c).ExtendsTo
      ⟨((n?.bind fun n => if 0 < n.toInt then some (n.toInt - 1).toNat else none).bind
        ((a.expr.run d c).items[·]?)).toList, (a.expr.run d c).failure?⟩ := by
  have h := filter_extendsTo_literal (i := i) hd hb' needs hb hliteral
  rwa [Trace.filter_at] at h
  intro k item hitem
  have hk : k < (a.expr.run d c).items.length := (List.getElem?_eq_some_iff.mp hitem).1
  have := Value.valueHolds_position hposition (k := k) (by omega)
  rw [Except.ok.injEq, Bool.eq_iff_iff, this, decide_eq_true_eq]
  cases n? with
  | none => simp
  | some n =>
    simp only [Option.some.injEq, Option.bind_some, exists_eq_left']
    split
    · simp only [Option.some.injEq]
      omega
    · simp only [reduceCtorEq, iff_false]
      omega

end LiteralFilters

/-! ### Simplifications -/

theorem number_integer (n : Int64) (f : Forest) :
    (Trace.ofList [.atomic (.integer n)]).number f = .ok (doubleOfInt n.toInt) := rfl

/-- The subsequence of one item is cut from the sequence. -/
theorem run_itemAt (e : Expr) (n : Int64) (l : Location) :
    (e.itemAt n l).run d c = e.cut d c (subsequenceBounds? (doubleOfInt n.toInt) (some (doubleOfInt 1))) := by
  have literal (n : Int64) : Operand.expr ⟨.atomic, literal [.integer n] l⟩ = literal [.integer n] l := rfl
  rw [itemAt, ofVariadic]
  refine (run_subsequence _).trans ?_
  rw [literal, show (Expr.literal [.integer n] l).run d c = .ofList [.atomic (.integer n)] from run_literal _,
    number_integer, ok_bind, List.head?_cons, numberIf, literal,
    show (Expr.literal [.integer 1] l).run d c = .ofList [.atomic (.integer 1)] from run_literal _, number_integer]
  rfl

theorem opening_itemAt (e : Expr) (n : Int64) (l : Location) :
    (e.itemAt n l).opening d c =
      e.openingIf d c (subsequenceBounds? (doubleOfInt n.toInt) (some (doubleOfInt 1))) := by
  have literal (n : Int64) : Operand.expr ⟨.atomic, literal [.integer n] l⟩ = literal [.integer n] l := rfl
  rw [itemAt, ofVariadic]
  refine (opening_subsequence _).trans ?_
  rw [literal, show (Expr.literal [.integer n] l).run d c = .ofList [.atomic (.integer n)] from run_literal _,
    number_integer, ok_bind, List.head?_cons, numberIf, literal,
    show (Expr.literal [.integer 1] l).run d c = .ofList [.atomic (.integer 1)] from run_literal _, number_integer]
  rfl

/-- A subsequence of one item ends after the start of the sequence. -/
theorem subsequenceBounds_one_pos {x : Float} {low high : Int}
    (hbounds : subsequenceBounds? x (some (doubleOfInt 1)) = some (low, high)) : 0 < high := by
  have hfinite : ¬ (doubleOfInt 1).isInf = true := by decide
  refine subsequenceBounds_pos hbounds fun y hy => ?_
  obtain rfl := Option.some.inj hy
  exact fun h => hfinite h.2

/-- The item at a position is cut from a sequence. -/
theorem at_extendsTo_cut {e : Expr} {n : Int64} (hlength : (e.run d c).items.length < 2 ^ 52) :
    (Trace.mk ((if 0 < n.toInt then some (n.toInt - 1).toNat else none).bind
      ((e.run d c).items[·]?)).toList (e.run d c).failure?).ExtendsTo
      (e.cut d c (subsequenceBounds? (doubleOfInt n.toInt) (some (doubleOfInt 1)))) := by
  have nothing : (Trace.mk [] (e.run d c).failure?).ExtendsTo (.ofList []) := by
    cases (e.run d c).failure? with
    | none => exact .refl _
    | some cause => exact .of_failed _ _
  have hlow := n.le_toInt
  have hhigh := n.toInt_lt
  rcases Int.lt_or_le 0 n.toInt with hpos | hneg
  · rw [if_pos hpos, Option.bind_some]
    rcases Int.lt_or_le n.toInt (2 ^ 52) with hsmall | hlarge
    · rw [subsequenceBounds_at hpos hsmall]
      simp only [cut, Behaviour.cut, if_pos hpos]
      exact Trace.at_extendsTo_between _ hpos
    · have hnone : (e.run d c).items[(n.toInt - 1).toNat]? = none := List.getElem?_eq_none (by omega)
      rw [hnone]
      rcases hbounds : subsequenceBounds? (doubleOfInt n.toInt) (some (doubleOfInt 1)) with _ | ⟨low, high⟩
      · exact nothing
      · have hfar := subsequenceBounds_far hlarge (by omega) hbounds
        simp only [cut, Behaviour.cut, if_pos (subsequenceBounds_one_pos hbounds)]
        exact Trace.between_far (by omega)
  · rw [if_neg (by omega), subsequenceBounds_before hneg hlow]
    exact nothing

section Filters

variable (hd : d.IsLocal) (placed : d.Placed) (hb' : Throughout Consistent b'.expr)
  (needs : NeedsNoMore b.expr b'.expr)
  (hb : ∀ c', Second d a b c .filter c' → (b.expr.run d c').ExtendsTo (b'.expr.run d c'))

include hd hb' needs hb

theorem filter_extendsTo_itemAt {n : Int64} (l : Location) (ha : (a.expr.run d c).ExtendsTo (a'.expr.run d c))
    (hliteral : b'.expr.literal? = some [value]) (hposition : value.position? = some (some n))
    (hlength : (a.expr.run d c).items.length < 2 ^ 52) :
    ((binary .filter a b i).run d c).ExtendsTo ((a'.expr.itemAt n l).run d c) := by
  have follows : (a.expr.run d c).Follows False (a'.expr.run d c) := ⟨ha, nofun⟩
  have cut := follows_cut follows fun _ _ => subsequenceBounds_one_pos (x := doubleOfInt n.toInt)
  rw [run_itemAt]
  refine (filter_extendsTo_at hd hb' needs hb hliteral hposition hlength).trans ?_
  exact (at_extendsTo_cut hlength).trans cut.forth

include placed

theorem filter_extendsTo_replacing_base (old : Expr) (ha : (a.expr.run d c).ExtendsTo (a'.expr.run d c))
    (hliteral : b'.expr.literal? = some [.boolean true]) :
    ((binary .filter a b i).run d c).ExtendsTo ((old.replacing a'.expr).run d c) := by
  rw [run_replacing placed]
  exact (filter_extendsTo_base hd hb' needs hb hliteral).trans ha

theorem filter_extendsTo_replacing_empty (old : Expr) (hliteral : b'.expr.literal? = some [value])
    (never : NeverHolds value) (hlength : (a.expr.run d c).items.length < 2 ^ 52) :
    ((binary .filter a b i).run d c).ExtendsTo ((old.replacing empty).run d c) := by
  have hnothing := filter_extendsTo_nothing (i := i) hd hb' needs hb hliteral never hlength
  rw [run_replacing placed]
  exact (StandsFor.of_nil (List.prefix_nil.mp (hnothing.starts.trans (List.prefix_refl [])))).run

end Filters

theorem openingExtends_base (ha : a'.expr.StandsFor d a.expr c) :
    ((binary .filter a b i).opening d c).ExtendsTo (a'.expr.opening d c) := by
  rw [opening_filter]
  have opening := openingExtends_sized (show false = true → b.expr.dependencies.last = true from nofun) ha.run
    ha.opening
  exact opening

theorem openingExtends_itemAt (ha : a'.expr.StandsFor d a.expr c) (n : Int64) (l : Location) :
    ((binary .filter a b i).opening d c).ExtendsTo ((a'.expr.itemAt n l).opening d c) := by
  rw [opening_itemAt, openingIf, Behaviour.openingIf]
  split
  · exact openingExtends_base ha
  · exact opening_extendsTo_nil d _ c

/-- Nothing is opened without an error. -/
theorem openingExtends_replacing_empty (placed : d.Placed) (e old : Expr) :
    (e.opening d c).ExtendsTo ((old.replacing empty).opening d c) := by
  rw [opening_replacing placed, opening_of_run (show empty.run d c = .ofList [] from run_literal [])]
  exact opening_extendsTo_nil d e c

/-- A test tells from whether there is an item, and the tests of two parts tell together from whether there is an
item in either. -/
theorem exists_tells {op : LogicalOp} {function : BuiltIn} (htest : IsTest op function) :
    ∃ tells : Bool → Bool,
      (∀ (d : Dispatcher) (c : Context) (x : Operand) (i : Info),
        (variadic (.call function) [x] i).run d c = .ofTruth ((x.expr.run d c).nonempty.map tells)) ∧
      ∀ s t, tells (s || t) = if op.isOpen (tells s) then tells t else tells s := by
  rcases htest with ⟨rfl, rfl⟩ | ⟨rfl, rfl⟩
  · refine ⟨id, fun d c x i => ?_, by decide⟩
    rw [run_existence]
    cases (x.expr.run d c).nonempty <;> rfl
  · exact ⟨(!·), fun d c x i => run_emptiness [], by decide⟩

/-- What stands for a test tells from the items what the test tells. -/
theorem truth_of_standsFor_test {function : BuiltIn} {tells : Bool → Bool} {z e : Expr} {xs : Sequence}
    (hrun : ∀ (x : Operand) (i : Info),
      (variadic (.call function) [x] i).run d c = .ofTruth ((x.expr.run d c).nonempty.map tells))
    (hz : z.StandsFor d (test function e) c) (he : e.run d c = .ofList xs) :
    (z.run d c).truth = .ok (tells (!xs.isEmpty)) := by
  have htest : (test function e).run d c = .ofList [.atomic (.boolean (tells (!xs.isEmpty)))] := by
    refine (hrun ⟨.navigate, e⟩ _).trans ?_
    rw [show (Operand.expr ⟨.navigate, e⟩).run d c = _ from he, Trace.nonempty_ofList]
    rfl
  rw [hz.run.eq_ofList htest]
  rfl

/-- Tests of the operands of a union, put together, tell whether it is empty. -/
theorem standsFor_connective {op : LogicalOp} {function : BuiltIn} (htest : IsTest op function) {role : Role}
    {j : Info} {x y : Expr} (l : Location) (hx : x.StandsFor d (test function a.expr) c)
    (hy : y.StandsFor d (test function b.expr) c) :
    (ofBinary (.logical op) ⟨.atomic, x⟩ ⟨.atomic, y⟩ l).StandsFor d
      (variadic (.call function) [⟨role, binary .union a b j⟩] i) c := by
  have hdata : function ≠ .data ∧ function ≠ .subsequence := by
    rcases htest with ⟨-, rfl⟩ | ⟨-, rfl⟩ <;> decide
  obtain ⟨tells, hrun, htells⟩ := exists_tells htest
  refine .of_run ?_ (opening_call [] function hdata.1 hdata.2)
  rw [hrun]
  -- The union is asked for all its nodes, so an error of either operand is its own.
  cases hxs : (a.expr.run d c).result with
  | error cause =>
    rw [show (Operand.expr ⟨role, binary .union a b j⟩).run d c = _ from run_union, hxs]
    exact .of_failed _ _
  | ok xs =>
    cases hys : (b.expr.run d c).result with
    | error cause =>
      rw [show (Operand.expr ⟨role, binary .union a b j⟩).run d c = _ from run_union, hxs, hys]
      exact .of_failed _ _
    | ok ys =>
      rw [show (Operand.expr ⟨role, binary .union a b j⟩).run d c = _ from run_union, hxs, hys, ok_bind, ok_bind]
      cases hzs : unionOf c.forest xs ys with
      | error cause => exact .of_failed _ _
      | ok zs =>
        have hx := truth_of_standsFor_test (hrun d c) hx (Trace.result_eq_ok_iff.mp hxs)
        have hy := truth_of_standsFor_test (hrun d c) hy (Trace.result_eq_ok_iff.mp hys)
        have hconnective : (ofBinary (.logical op) ⟨.atomic, x⟩ ⟨.atomic, y⟩ l).run d c =
            .ofTruth (.ok (tells (!zs.isEmpty))) := by
          refine (run_logical op).trans (congrArg Trace.ofTruth ?_)
          rw [show (Operand.expr ⟨.atomic, x⟩).run d c = x.run d c from rfl, hx, ok_bind, isEmpty_unionOf hzs, htells]
          split
          · exact hy
          · rfl
        show (Trace.ofTruth ((Trace.ofList zs).nonempty.map tells)).ExtendsTo _
        rw [hconnective, Trace.nonempty_ofList]
        exact .refl _

theorem standsFor_tested {op : LogicalOp} {function : BuiltIn} (htest : IsTest op function) (placed : d.Placed)
    (e : Expr) : (tested op function e).StandsFor d (test function e) c := by
  induction e using inductOperands with
  | h e ih =>
    unfold tested
    split
    case h_1 role a role' b i =>
      exact .fold placed (standsFor_connective htest _ (a := ⟨role, a⟩) (b := ⟨role', b⟩)
        (ih ⟨role, a⟩ (by simp)) (ih ⟨role', b⟩ (by simp)))
    case h_2 => exact .fold placed (.refl _)

section Body

variable {v : Binding} {b' : Expr}

theorem agree_setSlot (hslot : ∀ w ∈ b'.references, w.slot ≠ v.slot) (xs : Sequence) :
    (c.setSlot v.slot xs).Agree b' c := by
  refine ⟨rfl, fun w hw => ?_, fun _ => rfl, fun _ => rfl, fun _ => rfl, fun _ => rfl⟩
  rw [Context.slot_setSlot, if_neg (hslot w hw).symm]

/-- What is not referred to has a slot that nothing else has. -/
theorem slot_ne_of_not_refersTo (hv : v.Allocated) (hreferences : ∀ w ∈ b'.references, w.Allocated)
    (hdead : b'.refersTo v.id = false) : ∀ w ∈ b'.references, w.slot ≠ v.slot := by
  intro w hw hslot
  have hid : w.id = v.id := by rw [(hreferences w hw).id_eq_slot, hv.id_eq_slot, hslot]
  rw [refersTo, List.any_eq_false] at hdead
  exact hdead w hw (by rw [hid, beq_self_eq_true])

variable (hd : d.IsLocal) (placed : d.Placed) (old : Expr) (hb' : Throughout Consistent b')
  (hslot : ∀ w ∈ b'.references, w.slot ≠ v.slot)
include hd placed hb' hslot

/-- A variable that is not referred to need not be computed. -/
theorem letIn_extendsTo_body
    (hb : ∀ c', Second d a b c (.letIn v) c' → (b.expr.run d c').ExtendsTo (b'.run d c')) :
    ((binary (.letIn v) a b i).run d c).ExtendsTo ((old.replacing b').run d c) := by
  rw [run_replacing placed, run_letIn]
  cases hxs : (a.expr.run d c).result with
  | error cause => exact .of_failed _ _
  | ok xs =>
    rw [← run_eq_of_agree hd hb' (agree_setSlot hslot xs)]
    exact hb _ (.letBody (Trace.result_eq_ok_iff.mp hxs))

theorem openingExtends_body
    (hb : ∀ c', Second d a b c (.letIn v) c' → (b.expr.opening d c').ExtendsTo (b'.opening d c')) :
    ((binary (.letIn v) a b i).opening d c).ExtendsTo ((old.replacing b').opening d c) := by
  rw [opening_replacing placed, opening_letIn]
  cases hxs : (a.expr.run d c).result with
  | error cause => exact .of_failed _ _
  | ok xs =>
    rw [← opening_eq_of_agree hd hb' (agree_setSlot hslot xs)]
    exact hb _ (.letBody (Trace.result_eq_ok_iff.mp hxs))

end Body

theorem items_filter_sublist : ((binary .filter a b i).run d c).items.Sublist (a.expr.run d c).items := by
  rw [run_filter]
  exact (Trace.items_filter_sublist _ _).trans (Trace.items_wholeIf_sublist _ _)

theorem describes_itemAt {e : Expr} (h : e.Describes d a.expr c) (n : Int64) (l : Location) :
    (e.itemAt n l).Describes d (binary .filter a b i) c := by
  rw [itemAt, ofVariadic]
  refine .of_computed (.sublist (.weaken h.items ?_ ?_ ?_) items_filter_sublist) rfl
  · exact Nat.le_of_eq (Cardinality.greatest_union_empty _).symm
  · simp [computed, Properties.ofCall, Special.withOrderOf, Properties.effectsOf, special,
      Properties.ofCall.special, Operand.expr]
  · simp [computed, Properties.ofCall, Special.withOrderOf, Properties.effectsOf, special,
      Properties.ofCall.special, Operand.expr]

/-- The choice in place of a filter is as long as the base at most. -/
theorem describes_hoisted (x : Expr) (l : Location) {e : Expr} (h : e.Describes d a.expr c) :
    (ofChoice ⟨.atomic, x⟩ ⟨.navigate, e⟩ ⟨.navigate, empty⟩ l).Describes d (binary .filter a b i) c := by
  rw [ofChoice]
  refine .of_computed (.of_silent ?_ rfl rfl) rfl
  have hlength := items_filter_sublist (d := d) (c := c) (a := a) (b := b) (i := i) |>.length_le
  have hbase := h.items.length
  have heither : e.cardinality.greatest ≤ (e.cardinality.either .empty).greatest :=
    Cardinality.greatest_le_either_empty _
  exact Nat.le_trans (Nat.le_trans (by omega) hbase) heither

section Simplified

variable {e r : Expr} {g : Operand → Operand} {level : Optimization}

/-- What comes out of a simplification comes to what the expression comes to or further, if a choice in place of a
filter does. -/
theorem Simplifies.extendsTo (hr : Simplifies level (e.mapOperands g).refresh r) (hd : d.IsLocal) (placed : d.Placed)
    (fitting : Fitting False d g e c)
    (further : ∀ a ∈ e.operands, ∀ c', Evaluates d e c a.expr c' →
      (a.expr.run d c').ExtendsTo ((g a).expr.run d c'))
    (mapped : (e.run d c).ExtendsTo ((e.mapOperands g).refresh.run d c))
    (short : ∀ a ∈ e.operands, Evaluates d e c a.expr c → (a.expr.run d c).items.length < 2 ^ 52)
    (unread : ∀ v a b i, e = binary (.letIn v) a b i → (g b).expr.refersTo v.id = false →
      ∀ w ∈ (g b).expr.references, w.slot ≠ v.slot)
    (hoisted : level = .full → ∀ a b i, e = binary .filter a b i → (g b).expr.isUniform = true → ∀ j,
      (e.run d c).ExtendsTo ((choice ⟨.atomic, (g b).expr⟩ ⟨.navigate, (g a).expr⟩ ⟨.navigate, empty⟩ j).run d c)) :
    (e.run d c).ExtendsTo (r.run d c) := by
  cases e with
  | leaf op i | unary op a i | choice x y n i =>
    cases hr
    exact mapped
  | binary op a b i =>
    have ha := further a (by simp) c .first
    have hb' := fitting.consistent b (by simp)
    have hb (c' : Context) (second : Second d a b c op c') := further b (by simp) c' second.evaluates
    have needs (hop : op = .filter) := (fitting.needs _ a b i rfl (.inr hop)).1
    have hlength := short a (by simp) .first
    cases hr with
    | stays => exact mapped
    | position hliteral hposition =>
      exact filter_extendsTo_itemAt hd hb' (needs rfl) hb _ ha hliteral hposition hlength
    | nowhere hliteral hposition =>
      exact filter_extendsTo_replacing_empty hd placed hb' (needs rfl) hb _ hliteral (.inr hposition) hlength
    | always hliteral => exact filter_extendsTo_replacing_base hd placed hb' (needs rfl) hb _ ha hliteral
    | never hliteral =>
      exact filter_extendsTo_replacing_empty hd placed hb' (needs rfl) hb _ hliteral (.inl rfl) hlength
    | hoist hlevel _ huniform => exact hoisted hlevel a b i rfl huniform _
    | dead hdead => exact letIn_extendsTo_body hd placed _ hb' (unread _ a b i rfl hdead) hb
  | variadic op args i =>
    generalize hm : (mapOperands g (variadic op args i)).refresh = m at hr mapped
    cases hr with
    | stays => exact mapped
    | split htest =>
      refine mapped.trans ?_
      exact (standsFor_connective htest _ (standsFor_tested htest placed _) (standsFor_tested htest placed _)).run
    | _ => cases hm

/-- What comes out of a simplification may take the place of the expression. -/
theorem Simplifies.standsFor (hr : Simplifies .basic (e.mapOperands g).refresh r) (hd : d.IsLocal) (placed : d.Placed)
    (fitting : Fitting False d g e c)
    (stands : ∀ a ∈ e.operands, ∀ c', Evaluates d e c a.expr c' → (g a).expr.StandsFor d a.expr c')
    (mapped : (e.mapOperands g).refresh.StandsFor d e c)
    (short : ∀ a ∈ e.operands, Evaluates d e c a.expr c → (a.expr.run d c).items.length < 2 ^ 52)
    (unread : ∀ v a b i, e = binary (.letIn v) a b i → (g b).expr.refersTo v.id = false →
      ∀ w ∈ (g b).expr.references, w.slot ≠ v.slot) : r.StandsFor d e c where
  run := hr.extendsTo hd placed fitting (fun a ha c' evaluates => (stands a ha c' evaluates).run) mapped.run short
    unread fun hlevel => Optimization.noConfusion hlevel
  -- What is opened without being read is compared on its own, simplification by simplification.
  opening := by
    cases e with
    | leaf op i | unary op a i | choice x y n i =>
      cases hr
      exact mapped.opening
    | binary op a b i =>
      have ha := stands a (by simp) c .first
      cases hr with
      | stays => exact mapped.opening
      | position => exact openingExtends_itemAt ha _ _
      | nowhere | never => exact openingExtends_replacing_empty placed _ _
      | always =>
        rw [opening_replacing placed]
        exact openingExtends_base ha
      | hoist hlevel => cases hlevel
      | dead hdead =>
        exact openingExtends_body hd placed _ (fitting.consistent b (by simp)) (unread _ a b i rfl hdead)
          fun c' second => (stands b (by simp) c' second.evaluates).opening
    | variadic op args i =>
      generalize hm : (mapOperands g (variadic op args i)).refresh = m at hr mapped
      cases hr with
      | stays => exact mapped.opening
      | split htest =>
        refine mapped.opening.trans ?_
        exact (standsFor_connective htest _ (standsFor_tested htest placed _)
          (standsFor_tested htest placed _)).opening
      | _ => cases hm

/-- What comes out of a simplification describes the expression. -/
theorem Simplifies.describes (hr : Simplifies level (e.mapOperands g).refresh r)
    (further : (e.run d c).ExtendsTo (r.run d c)) (placed : d.Placed)
    (mapped : (e.mapOperands g).refresh.Describes d e c)
    (operands : e.opensGuards = false → ∀ a ∈ e.operands, ∀ c', Evaluates d e c a.expr c' →
      (g a).expr.Describes d a.expr c') : r.Describes d e c := by
  -- An expression that is replaced by nothing came to nothing, or failed before it came to an item.
  have nothing (old : Expr) (h : r = old.replacing empty) : r.Describes d e c := by
    refine .of_nil (List.prefix_nil.mp ?_)
    have hempty : r.run d c = .ofList [] := by rw [h, run_replacing placed]; exact run_literal []
    have := further.starts
    rwa [hempty] at this
  cases e with
  | leaf op i | unary op a i | choice x y n i =>
    cases hr
    exact mapped
  | binary op a b i =>
    cases hr with
    | stays => exact mapped
    | nowhere | never => exact nothing _ rfl
    | hoist => exact describes_hoisted _ _ (operands rfl a (by simp) c .first)
    | position => exact describes_itemAt (operands rfl a (by simp) c .first) _ _
    | always =>
      have ha := operands rfl a (by simp) c .first
      exact (ha.sublist rfl rfl items_filter_sublist).replacing _
    | @dead v _ _ _ hdead =>
      cases hxs : (a.expr.run d c).result with
      | error cause =>
        refine .of_nil ?_
        rw [run_letIn, hxs]
        rfl
      | ok xs =>
        have hb := operands rfl b (by simp) _ (.letBody (Trace.result_eq_ok_iff.mp hxs))
        have items : ((binary (.letIn v) a b i).run d c).items.Sublist
            (b.expr.run d (c.setSlot v.slot xs)).items := by
          rw [run_letIn, hxs]
          exact List.Sublist.refl _
        have whole : (g b).expr.Describes d (binary (.letIn v) a b i) c := hb.sublist rfl rfl items
        exact whole.replacing _
  | variadic op args i =>
    generalize hm : (mapOperands g (variadic op args i)).refresh = m at hr mapped
    cases hr with
    | stays => exact mapped
    | @split connective function role a b i' j htest =>
      simp only [mapOperands, refresh, withInfo, variadic.injEq] at hm
      obtain ⟨rfl, hargs, -⟩ := hm
      obtain ⟨x, rfl, -⟩ := List.map_eq_singleton_iff.mp hargs
      obtain ⟨tells, hrun, -⟩ := exists_tells htest
      rw [ofBinary]
      refine .of_computed ?_ rfl
      rw [hrun]
      exact .of_ofItem _ rfl
    | _ => cases hm

end Simplified

/-! ### Optimized expressions -/

section Possible

variable {e r : Expr} {g : Operand → Operand} {s : StaticContext} {scope : Scope} {level : Optimization}

theorem possible_fold (h : e.cardinality ≠ .impossible) : e.fold.cardinality ≠ .impossible := by
  unfold fold
  split
  · rw [cardinality_replacing]
    exact possible_literal _ _
  · exact h

/-- What comes out of a simplification has some length. -/
theorem Simplifies.possible (hr : Simplifies level e r) (h : e.cardinality ≠ .impossible)
    (operands : e.opensGuards = false → ∀ a ∈ e.operands, a.expr.cardinality ≠ .impossible) :
    r.cardinality ≠ .impossible := by
  cases hr with
  | stays => exact h
  | split =>
    rw [ofBinary, cardinality, props_refresh]
    rintro ⟨⟩
  | position =>
    rw [itemAt, ofVariadic, cardinality, props_refresh]
    exact Cardinality.union_empty_ne_impossible _
  | nowhere | never =>
    rw [cardinality_replacing]
    exact possible_literal _ _
  | always =>
    rw [cardinality_replacing]
    exact operands rfl _ (by simp)
  | hoist =>
    rw [ofChoice, cardinality, props_refresh]
    exact Cardinality.between_ne_impossible _ _
  | dead =>
    rw [cardinality_replacing]
    exact operands rfl _ (by simp)

theorem isGuard_mapOperands (g : Operand → Operand) (e : Expr) : (e.mapOperands g).isGuard = e.isGuard := by
  rcases e with _ | ⟨op, _, _⟩ | _ | _ | _
  case unary => cases op <;> rfl
  all_goals rfl

theorem opensGuards_mapOperands (g : Operand → Operand) (e : Expr) :
    (e.mapOperands g).opensGuards = e.opensGuards := by
  rcases e with _ | ⟨op, _, _⟩ | ⟨op, _, _, _⟩ | _ | _
  case unary => cases op <;> rfl
  case binary => cases op <;> rfl
  all_goals rfl

/-- An optimized expression has some length if the expression has. -/
theorem possible_optimized (h : Everywhere (Annotated false s) scope e) (hs : s.GlobalsPossible)
    (hscope : scope.Possible) (bare : e.isGuard = false) : (e.optimized level).cardinality ≠ .impossible := by
  induction e using inductOperands generalizing scope with
  | h e ih =>
    have settled := h.here.settled
    have scopes := possible_scope hscope fun a ha hmem opens =>
      possible_of_annotated (h.operand hmem) hs hscope ((settled opens a ha).bare rfl)
    have operands (opens : e.opensGuards = false) (a : Operand) (ha : a ∈ e.operands) :
        (optimizedOperand level a).expr.cardinality ≠ .impossible := by
      obtain ⟨scope', hmem⟩ := mem_operandsIn_of_operand scope ha
      rw [expr_optimizedOperand]
      exact ih a ha (h.operand hmem) (scopes _ hmem) ((settled opens a ha).bare rfl)
    have mapped (opens : (e.mapOperands (optimizedOperand level)).opensGuards = false) (a : Operand)
        (ha : a ∈ (e.mapOperands (optimizedOperand level)).operands) : a.expr.cardinality ≠ .impossible := by
      rw [opensGuards_mapOperands] at opens
      rw [operands_mapOperands] at ha
      obtain ⟨x, hx, rfl⟩ := List.mem_map.mp ha
      exact operands opens x hx
    obtain ⟨r, hr, heq⟩ := exists_optimized level e
    rw [heq]
    refine possible_fold (hr.possible (possible_refresh ?_ ?_ mapped) (by simpa using mapped))
    · rwa [isGuard_mapOperands]
    · intro op i he
      cases e <;> cases he
      exact possible_leaf h.here.typed hs hscope

end Possible

theorem allocated_of_annotated {s : StaticContext} {scope : Scope} {e : Expr}
    (h : Everywhere (Annotated false s) scope e) : ∀ v ∈ e.references, v.Allocated := by
  induction e using inductOperands generalizing scope with
  | h e ih =>
    intro v hv
    rcases mem_references_iff.mp hv with ⟨type, i, rfl⟩ | ⟨a, ha, hv⟩
    · exact h.here.typed.1
    · obtain ⟨scope', hmem⟩ := mem_operandsIn_of_operand scope ha
      exact ih a ha (h.operand hmem) v hv

/-- What a body that is optimized does not refer to has a slot of its own. -/
theorem slot_ne_optimizedOperand {s : StaticContext} {scope : Scope} {level : Optimization} {v : Binding}
    (h : Everywhere (Annotated false s) scope (binary (.letIn v) a b i))
    (hdead : (optimizedOperand level b).expr.refersTo v.id = false) :
    ∀ w ∈ (optimizedOperand level b).expr.references, w.slot ≠ v.slot := by
  have consistent : Throughout Consistent b.expr :=
    (h.throughout fun _ _ h => ⟨h.fresh, h.roles⟩).operand (by simp)
  refine slot_ne_of_not_refersTo h.here.typed (fun w hw => ?_) hdead
  rw [expr_optimizedOperand] at hw
  exact allocated_of_annotated h w
    (mem_references_of_operand (a := b) (by simp) ((lighter_optimized consistent).references w hw))

/-- A value describes what comes to a part of it. -/
theorem describes_fold {e r : Expr} (hc : c.forest.Proper) (further : (e.run d c).ExtendsTo (r.run d c))
    (h : r.Describes d e c) : r.fold.Describes d e c := by
  unfold fold
  split
  case h_1 vs hconstant =>
    have literal : (literal vs .unknown).Describes d (Expr.literal vs .unknown) c :=
      describes_leaf hc (fun _ _ h => Leaf.noConfusion h) fun _ _ h => Leaf.noConfusion h
    refine .replacing (literal.sublist rfl rfl ?_) _
    have hrun := run_of_constant? hconstant d c
    rw [show (Expr.literal vs .unknown).run d c = _ from run_literal vs, ← hrun]
    exact further.starts.sublist
  case h_2 => exact h

section Situated

variable {s : StaticContext} {scope : Scope} {e r : Expr} {level : Optimization}

theorem Situated.consistent (h : Situated s scope e c) : Throughout Consistent e :=
  h.annotated.throughout fun _ _ h => ⟨h.fresh, h.roles⟩

/-- Optimized operands fit if their properties describe what the operands come to. -/
theorem Situated.fitting_optimized (h : Situated s scope e c) (undisturbed : Undisturbed (optimized level) d e c)
    (described : ∀ a ∈ e.operands, ∀ c', Evaluates d e c a.expr c' →
      a.expr.isGuard = false → (optimizedOperand level a).expr.Describes d a.expr c') :
    Fitting False d (optimizedOperand level) e c := by
  refine undisturbed.fitting h.proper expr_optimizedOperand h.annotated.here.fresh (fun a ha => ?_)
    (fun a ha => ?_) nofun (fun opens a ha c' evaluates => ?_) fun opens a ha c' evaluates => ?_
  · rw [expr_optimizedOperand]
    exact consistent_optimized (h.consistent.operand ha)
  · rw [expr_optimizedOperand]
    exact (lighter_optimized (h.consistent.operand ha)).toReadsWithin
  · obtain ⟨scope', -, h'⟩ := h.of_evaluates evaluates
    exact h'.describes d (h.operand opens ha)
  · exact described a ha c' evaluates (h.operand opens ha)

/-- What optimization leaves describes the expression if optimized operands describe the operands. -/
theorem Situated.describes_optimized (h : Situated s scope e c) (placed : d.Placed) (bare : e.isGuard = false)
    (described : ∀ a ∈ e.operands, ∀ c', Evaluates d e c a.expr c' →
      a.expr.isGuard = false → (optimizedOperand level a).expr.Describes d a.expr c')
    (hr : Simplifies level (e.mapOperands (optimizedOperand level)).refresh r)
    (further : (e.run d c).ExtendsTo (r.run d c)) : r.fold.Describes d e c := by
  have operands (opens : e.opensGuards = false) (a : Operand) (ha : a ∈ e.operands) (c' : Context)
      (evaluates : Evaluates d e c a.expr c') := described a ha c' evaluates (h.operand opens ha)
  refine describes_fold h.proper further (hr.describes further placed ?_ operands)
  refine describes_mapOperands h.proper bare h.annotated.here.typed.hasArguments ?_ (fun opens a ha => ?_) operands
  · rintro op i rfl
    exact h.describes_leaf
  · obtain ⟨scope', hmem⟩ := mem_operandsIn_of_operand scope ha
    have scopes := possible_scope h.scopes fun a ha hmem opens =>
      possible_of_annotated (h.annotated.operand hmem) h.possible h.scopes (h.operand opens ha)
    rw [expr_optimizedOperand]
    exact possible_optimized (h.annotated.operand hmem) h.possible (scopes _ hmem) (h.operand opens ha)

end Situated

/-- An optimized expression may take the place of the expression wherever it is evaluated. -/
theorem standsFor_optimized {s : StaticContext} {scope : Scope} {e : Expr} (hd : d.IsLocal) (placed : d.Placed)
    (h : Situated s scope e c)
    (short : ∀ e' c', Reaches d e c e' c' → (e'.run d c').items.length < 2 ^ 52)
    (undisturbed : ∀ e' c', Reaches d e c e' c' → Undisturbed (optimized .basic) d e' c') :
    (e.optimized .basic).StandsFor d e c ∧ (e.isGuard = false → (e.optimized .basic).Describes d e c) := by
  induction e using inductOperands generalizing scope c with
  | h e ih =>
    have operands (a : Operand) (ha : a ∈ e.operands) (c' : Context) (evaluates : Evaluates d e c a.expr c') :
        (optimizedOperand .basic a).expr.StandsFor d a.expr c' ∧
          (a.expr.isGuard = false → (optimizedOperand .basic a).expr.Describes d a.expr c') := by
      obtain ⟨scope', -, h'⟩ := h.of_evaluates evaluates
      rw [expr_optimizedOperand]
      exact ih a ha h' (fun e' c'' reaches => short e' c'' (.operand evaluates reaches))
        fun e' c'' reaches => undisturbed e' c'' (.operand evaluates reaches)
    have stands (a : Operand) (ha : a ∈ e.operands) (c' : Context) (evaluates : Evaluates d e c a.expr c') :=
      (operands a ha c' evaluates).1
    have described (a : Operand) (ha : a ∈ e.operands) (c' : Context) (evaluates : Evaluates d e c a.expr c') :=
      (operands a ha c' evaluates).2
    have fitting := h.fitting_optimized (undisturbed e c .here) described
    have mapped := StandsFor.of_operands hd fitting stands
    obtain ⟨r, hr, heq⟩ := exists_optimized .basic e
    have simplified := hr.standsFor hd placed fitting stands mapped
      (fun a ha evaluates => short a.expr c (.operand evaluates .here)) fun v a b i he hdead => by
        subst he
        exact slot_ne_optimizedOperand h.annotated hdead
    rw [heq]
    exact ⟨.fold placed simplified, fun bare => h.describes_optimized placed bare described hr simplified.run⟩

/-- **Optimization preserves results.**  Take a typed expression, a context over proper trees in which global
variables conform to their declared types, and sequences of fewer than `2 ^ 52` items.  If optimization of its
operands decides nowhere that steps are read in another order than before they fail, then what the expression comes
to without an error, the optimized expression comes to as well. -/
theorem optimize_preserves {s : StaticContext} {root t : Expr} {xs : Sequence} {depth : Nat}
    (built : root.Built false) (typed : root.typed s = .ok t) (proper : c.forest.Proper)
    (globals : c.GlobalsConform s) (possible : s.GlobalsPossible)
    (short : ∀ e' c', Reaches (dispatcherWithin depth) t c e' c' →
      (e'.run (dispatcherWithin depth) c').items.length < 2 ^ 52)
    (undisturbed : ∀ e' c', Reaches (dispatcherWithin depth) t c e' c' →
      Undisturbed (optimize .basic) (dispatcherWithin depth) e' c')
    (hxs : ((t.behaviour (dispatcherWithin depth)).collect c).outcome = .ok xs) :
    (((t.optimize .basic).behaviour (dispatcherWithin depth)).collect c).outcome = .ok xs := by
  have basic : Optimization.basic ≠ .none := nofun
  have annotated := (wellTyped_of_built built [] t typed).1
  have situated : Situated s [] t c := ⟨annotated, proper, possible, globals, .nil, .nil _ c⟩
  -- both forms of the pass are the same on the operands of what evaluation leads to
  have stands := (standsFor_optimized (dispatcherWithin_isLocal depth) (dispatcherWithin_placed depth) situated
    short fun e' c' reaches => (undisturbed e' c' reaches).congr fun a ha =>
      (optimize_eq a.expr basic).symm).1
  rw [collect_eq_ok_iff] at hxs ⊢
  rw [optimize_eq t basic]
  exact stands.run.eq_ofList hxs

/-- The second of two numbers. -/
def secondOfTwo : Expr :=
  Binary.filter.on (literal [.integer 7, .integer 8] .unknown) (literal [.integer 2] .unknown) .unknown

/-- A number that is found by its position is found as well by the subsequence that optimization leaves. -/
theorem optimize_preserves_secondOfTwo :
    let c := Context.initial .empty
    ∃ t, secondOfTwo.Built false ∧ secondOfTwo.typed .initial = .ok t ∧ c.forest.Proper ∧
      c.GlobalsConform .initial ∧ StaticContext.initial.GlobalsPossible ∧
      (∀ e' c', Reaches (dispatcherWithin 0) t c e' c' →
        (e'.run (dispatcherWithin 0) c').items.length < 2 ^ 52 ∧
          Undisturbed (optimize .basic) (dispatcherWithin 0) e' c') ∧
      ((t.behaviour (dispatcherWithin 0)).collect c).outcome = .ok [.atomic (.integer 8)] ∧
      (((t.optimize .basic).behaviour (dispatcherWithin 0)).collect c).outcome = .ok [.atomic (.integer 8)] := by
  intro c
  have built : secondOfTwo.Built false := .filter _ (.literal _ _) (.literal _ _)
  have proper : c.forest.Proper := by decide
  have globals : c.GlobalsConform .initial := by
    intro name type xs htype
    simp [StaticContext.globalType?, StaticContext.initial] at htype
  have possible : StaticContext.initial.GlobalsPossible := by
    intro name type htype
    simp [StaticContext.globalType?, StaticContext.initial] at htype
  -- Nothing but itself is reached from a literal.
  have literals (vs : List Value) (hvs : vs.length ≤ 2) (e' : Expr) (c₀ c' : Context)
      (reaches : Reaches (dispatcherWithin 0) (literal vs .unknown) c₀ e' c') :
      (e'.run (dispatcherWithin 0) c').items.length < 2 ^ 52 ∧
        Undisturbed (optimize .basic) (dispatcherWithin 0) e' c' := by
    cases reaches with
    | here =>
      refine ⟨?_, fun _ _ _ h => Expr.noConfusion h, fun _ _ _ _ h => Expr.noConfusion h⟩
      have items : ((literal vs .unknown).run (dispatcherWithin 0) c₀).items = vs.map .atomic :=
        congrArg Trace.items (run_literal vs)
      rw [items, List.length_map]
      omega
    | operand evaluates =>
      obtain ⟨a, ha, -⟩ := evaluates.exists_operand
      exact absurd ha (by simp [literal, ofLeaf])
  have reached : ∀ e' c', Reaches (dispatcherWithin 0) secondOfTwo c e' c' →
      (e'.run (dispatcherWithin 0) c').items.length < 2 ^ 52 ∧
        Undisturbed (optimize .basic) (dispatcherWithin 0) e' c' := by
    intro e' c' reaches
    cases reaches with
    | here =>
      refine ⟨by decide, fun a b i he => ?_, fun op a b i he _ hnext => ?_⟩
      · exact Binary.noConfusion (Expr.binary.inj he).1
      · obtain ⟨rfl, rfl, rfl, rfl⟩ := Expr.binary.inj he
        rfl
    | operand evaluates reaches =>
      obtain ⟨a, ha, rfl⟩ := evaluates.exists_operand
      obtain rfl | rfl : a = ⟨Binary.filter.roles.1, _⟩ ∨ a = ⟨Binary.filter.roles.2, _⟩ := by
        simpa [secondOfTwo, Binary.on, ofBinary] using ha
      · exact literals _ (by decide) e' _ c' reaches
      · exact literals _ (by decide) e' _ c' reaches
  exact ⟨_, built, rfl, proper, globals, possible, reached, rfl, optimize_preserves built rfl proper globals possible
    (fun e' c' reaches => (reached e' c' reaches).1) (fun e' c' reaches => (reached e' c' reaches).2) rfl⟩

/-- An expression, or else values of which it is known before optimization, but not after, that there is one at
most.  A union tells that they are nodes. -/
def orValues (e : Expr) : Expr :=
  Binary.union.on (choose (call .truth item) e (call .data one) .unknown) (literal [] .unknown) .unknown
where
  /-- A function called on one argument. -/
  call (function : BuiltIn) (e : Expr) : Expr := ofVariadic (.call function) [⟨.navigate, e⟩] .unknown
  /-- The context item. -/
  item : Expr := ofLeaf .contextItem .unknown
  /-- One number for the context item, in a way that tells its kind only. -/
  one : Expr :=
    (Binary.forIn ⟨0, .plain "v", 0⟩).on item
      (Binary.filter.on (literal [.integer 1] .unknown) (literal [.boolean false] .unknown) .unknown) .unknown

theorem built_call {checks : Bool} (function : BuiltIn) {e : Expr} (he : e.Built checks)
    (harity : function.arity = (1, 1)) : (orValues.call function e).Built checks := by
  have arguments : ∀ a ∈ [e], a.Built checks := by simpa using he
  have called : Expr.call function [e] .unknown = .ok (orValues.call function e) := by
    rw [Expr.call, harity]
    rfl
  exact .call arguments called

theorem built_orValues {e : Expr} (he : e.Built false) : (orValues e).Built false := by
  have item : orValues.item.Built false := .contextItem _
  have one : orValues.one.Built false :=
    .forIn _ ⟨.initial, _, .initial, rfl⟩ item (.filter _ (.literal _ _) (.literal _ _))
  exact .union _ (.choose _ (built_call _ item rfl) he (built_call _ one rfl)) (.literal _ _)

/-- The children of nodes that stand before the second, where an error is met. -/
def failingBehindFirst : Expr :=
  Binary.filter.on (ofLeaf (.step .child .anyNode) .unknown)
    ((Binary.arithmetic .idiv .generic).on (literal [.integer 1] .unknown)
      ((Binary.arithmetic .sub .generic).on (literal [.integer 2] .unknown) (ofLeaf .position .unknown) .unknown)
      .unknown) .unknown

theorem built_failingBehindFirst (checks : Bool) : failingBehindFirst.Built checks :=
  .filter _ (.step _ _ _) (.arithmetic _ _ (.literal _ _)
    (.arithmetic _ _ (.literal _ _) (.position _)))

/-- A root with an element `a`, in which there is an element `b`, and an element `c`. -/
def longBranch : Forest :=
  (((Forest.empty.add (twoBranches.element "b" [])).add (twoBranches.element "a" [0])).add
    (twoBranches.element "c" [])).add (twoBranches.element "r" [1, 2])

/-- Steps are sorted where nothing tells that they start from one node at most, and only sorting meets an error
behind what is asked for.  And where a variable has more nodes than it is declared with, the steps come unsorted
before optimization, and sorted after it. -/
theorem optimize_changes_orValues :
    let first := orValues.call .existence
      (Binary.path.on (orValues (ofLeaf .contextItem .unknown)) failingBehindFirst .unknown)
    let second := Binary.path.on (orValues (ofLeaf (.global (.plain "g") none) .unknown))
      (ofLeaf (.step .child .anyNode) .unknown) .unknown
    let c := (Context.initial longBranch).withFocus (.node 3) 1 none
    let declared : StaticContext := { StaticContext.initial with globals := [(.plain "g", ⟨.any, .exactlyOne⟩)] }
    let assigned : Context := { c with globals := [(.plain "g", [.node 3, .node 1])] }
    longBranch.Proper ∧
    (first.Built false ∧ ∃ t, first.typed .initial = .ok t ∧
      ((t.behaviour .none).collect c).outcome = .ok [.atomic (.boolean true)] ∧
      (((t.optimize .basic).behaviour .none).collect c).outcome.isOk = false) ∧
    (second.Built false ∧ ∃ t, second.typed declared = .ok t ∧
      ((t.behaviour .none).collect assigned).outcome = .ok [.node 1, .node 2, .node 0] ∧
      (((t.optimize .basic).behaviour .none).collect assigned).outcome = .ok [.node 1, .node 0, .node 2]) := by
  intro first second c declared assigned
  have start {a b : Expr} {ra rb : Role} {i : Info} (ha : a.run .none assigned = .ofList [.node 3, .node 1])
      (hb : b.run .none assigned = .ofList []) :
      (binary .union ⟨ra, a⟩ ⟨rb, b⟩ i).run .none assigned = .ofList [.node 3, .node 1] := by
    have union : unionOf assigned.forest [.node 3, .node 1] [] = .ok [.node 3, .node 1] := by cbv
    rw [run_union, Operand.expr, Operand.expr, ha, hb]
    simp only [Trace.result_ofList, Except.bind, union]
    rfl
  have children {a : Expr} {j : Info} (hlast : (leaf (.step .child .anyNode) j).dependencies.last = false)
      (ha : a.run .none assigned = .ofList [.node 3, .node 1]) :
      found .none a (leaf (.step .child .anyNode) j) assigned = .ofList [.node 1, .node 2, .node 0] := by
    rw [found, ha, hlast]
    rfl
  have inOrder : sortPath longBranch [.node 1, .node 2, .node 0] = .ok [.node 1, .node 0, .node 2] := by cbv
  refine ⟨by decide, ⟨built_call _ (.path _ (built_orValues (.contextItem _)) (built_failingBehindFirst _)) rfl,
    _, rfl, ?_, ?_⟩, .path _ (built_orValues (.global _ _)) (.step _ _ _), _, rfl, ?_, ?_⟩
  · refine collect_eq_ok_iff.mpr ((run_existence _).trans
      (congrArg Trace.ofTruth (?_ : _ = Except.ok true)))
    decide +kernel
  · decide +kernel
  -- the global variable counts as one node, and so the path as ordered
  · refine collect_eq_ok_iff.mpr (run_path.trans ((if_pos rfl).trans ?_))
    exact children rfl (start (run_choice.trans rfl) (run_literal _))
  -- nothing is known of the values, and so the path is sorted
  · refine collect_eq_ok_iff.mpr (run_path.trans ((if_neg Bool.false_ne_true).trans ?_))
    refine (congrArg (Trace.sorted longBranch)
      (children rfl (start (run_choice.trans rfl) (run_literal _)))).trans ?_
    rw [Trace.sorted, Trace.result_ofList]
    simp only [Except.bind, inOrder]
    rfl

end Expr

end TreeQuery
