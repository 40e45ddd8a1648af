/-
Constants.

An operator applied to literals comes to the same in every context and whatever rules there are
(`Expr.exists_run_of_isConstant`), so that the literal that takes its place comes to the same as well
(`Expr.run_fold`).
-/
import TreeQuery.Expr.Constant
import TreeQuery.Proofs.FocusDependencies
import TreeQuery.Proofs.StaticProperties

namespace TreeQuery

/-- Whether all items are values. -/
def Trace.IsAtomic (t : Trace) : Prop := ∀ a ∈ t.items, ∃ v, a = .atomic v

namespace Trace

variable {t : Trace} {vs : List Value}

theorem isAtomic_values (vs : List Value) : (ofList (vs.map .atomic)).IsAtomic := fun a ha => by
  obtain ⟨v, -, rfl⟩ := List.mem_map.mp ha
  exact ⟨v, rfl⟩

theorem isAtomic_failed (e : Cause) : (failed e).IsAtomic := fun _ ha => absurd ha List.not_mem_nil

theorem isAtomic_ofItem {x : Except Cause (Option Item)} (h : ∀ a, x = .ok (some a) → ∃ v, a = .atomic v) :
    (ofItem x).IsAtomic := fun a ha => h a (mem_items_ofItem ha)

theorem isAtomic_ofTruth (x : Except Cause Bool) : (ofTruth x).IsAtomic :=
  isAtomic_ofItem fun a ha => by
    obtain ⟨b, -, hb⟩ := map_eq_ok_iff.mp ha
    exact ⟨.boolean b, (Option.some.inj hb).symm⟩

theorem isAtomic_ofResult {x : Except Cause Trace} (h : ∀ t, x = .ok t → t.IsAtomic) :
    (ofResult x).IsAtomic := by
  cases x with
  | error e => exact isAtomic_failed e
  | ok t => exact h t rfl

theorem IsAtomic.of_subset {u : Trace} (h : t.IsAtomic) (hs : u.items ⊆ t.items) : u.IsAtomic :=
  fun a ha => h a (hs ha)

/-- Values stand for themselves, in whatever forest. -/
theorem atomize_values (f : Forest) (vs : List Value) :
    (ofList (vs.map .atomic)).atomize f = ofList (vs.map .atomic) := by
  simp [atomize, ofList, Function.comp_def, Item.value]

theorem single_values (f : Forest) (vs : List Value) :
    (ofList (vs.map .atomic)).single f = (ofList (vs.map .atomic)).single .empty := by
  rcases vs with _ | ⟨v, _ | ⟨w, vs⟩⟩ <;> rfl

theorem number_values (f : Forest) (vs : List Value) :
    (ofList (vs.map .atomic)).number f = (ofList (vs.map .atomic)).number .empty := by
  rw [number, single_values, number]

end Trace

namespace Expr

variable {d : Dispatcher} {e : Expr} {c : Context}

/-- What comes to an end has begun without a failure. -/
theorem opening_of_run {xs : Sequence} (h : e.run d c = .ofList xs) : e.opening d c = .ofList [] := by
  rcases (e.behaviour d).iterate_cases c with ⟨cause, -, ht, -⟩ | ⟨s, -, -, ho, -⟩
  · have := ht.symm.trans h
    cases this
  · exact ho

/-- A literal comes to its values in every context. -/
theorem exists_run_of_isLiteral (h : e.isLiteral = true) :
    ∃ vs : List Value, ∀ d c, e.run d c = .ofList (vs.map .atomic) := by
  obtain ⟨vs, he⟩ := exists_literal h
  rw [he]
  exact ⟨vs, fun d c => run_literal vs⟩

section Operators

variable {a b : Operand} {i : Info} {vs ws : List Value}

private theorem exists_run_unary {op : Unary} (h : (unary op a i).isOperation = true)
    (ha : ∀ d c, a.expr.run d c = .ofList (vs.map .atomic)) :
    ∃ t : Trace, (∀ d c, (unary op a i).run d c = t) ∧ t.IsAtomic := by
  cases op with
  | atomize =>
    refine ⟨_, fun d c => ?_, Trace.isAtomic_values vs⟩
    rw [run_atomize, ha, Trace.atomize_values]
  | convert target conversion =>
    refine ⟨_, fun d c => (run_convert ..).trans (by rw [ha]), fun x hx => ?_⟩
    obtain ⟨k, y, hy, hx⟩ := Trace.mem_items_expand hx
    obtain ⟨v, rfl⟩ := Trace.isAtomic_values vs y (List.mem_of_getElem? hy)
    obtain ⟨w, -, hw⟩ := map_eq_ok_iff.mp (Trace.mem_items_ofItem hx)
    exact ⟨w, (Option.some.inj hw).symm⟩
  | cast target allowsEmpty =>
    refine ⟨_, fun d c => (run_cast ..).trans (by rw [ha, Trace.single_values]),
      Trace.isAtomic_ofItem fun x hx => ?_⟩
    obtain ⟨v?, -, hx⟩ := bind_eq_ok_iff.mp hx
    cases v? with
    | none => cases allowsEmpty <;> simp [Behaviour.castOne] at hx
    | some v =>
      obtain ⟨w, -, hw⟩ := map_eq_ok_iff.mp hx
      exact ⟨w, (Option.some.inj hw).symm⟩
  | check required =>
    exact ⟨_, fun d c => (run_check ..).trans (by rw [ha]),
      (Trace.isAtomic_values vs).of_subset (Trace.items_check_prefix _ _).subset⟩
  | applyRules mode => exact absurd h Bool.false_ne_true

private theorem isAtomic_pair {op : Value → Value → Except Error Value} (x y : Except Cause (Option Value)) :
    (Trace.ofItem (x.bind fun v => y.bind (Behaviour.pairOne op v))).IsAtomic :=
  Trace.isAtomic_ofItem fun item hitem => by
    obtain ⟨v?, -, hitem⟩ := bind_eq_ok_iff.mp hitem
    obtain ⟨w?, -, hitem⟩ := bind_eq_ok_iff.mp hitem
    rcases v? with _ | v <;> rcases w? with _ | w <;> simp only [Behaviour.pairOne] at hitem <;>
      try exact absurd hitem (by simp)
    obtain ⟨u, -, hu⟩ := map_eq_ok_iff.mp hitem
    exact ⟨u, (Option.some.inj hu).symm⟩

private theorem exists_run_binary {op : Binary} (h : (binary op a b i).isOperation = true)
    (ha : ∀ d c, a.expr.run d c = .ofList (vs.map .atomic))
    (hb : ∀ d c, b.expr.run d c = .ofList (ws.map .atomic)) :
    ∃ t : Trace, (∀ d c, (binary op a b i).run d c = t) ∧ t.IsAtomic := by
  cases op with
  | arithmetic op calculator =>
    exact ⟨_, fun d c => (run_arithmetic ..).trans
      (by rw [ha, hb, Trace.single_values, Trace.single_values _ ws]), isAtomic_pair _ _⟩
  | compare op =>
    exact ⟨_, fun d c => (run_compare ..).trans
      (by rw [ha, hb, Trace.single_values, Trace.single_values _ ws]), isAtomic_pair _ _⟩
  | logical op =>
    exact ⟨_, fun d c => (run_logical ..).trans (by rw [ha, hb]), Trace.isAtomic_ofTruth _⟩
  | letIn _ | forIn _ | range | path | filter | union => exact absurd h Bool.false_ne_true

private theorem exists_run_subsequence {rest : List Operand}
    (ha : ∀ d c, a.expr.run d c = .ofList (vs.map .atomic))
    (hrest : ∀ x ∈ rest, ∃ vs : List Value, ∀ d c, x.expr.run d c = .ofList (vs.map .atomic)) :
    ∃ t : Trace, (∀ d c, (variadic (.call .subsequence) (a :: rest) i).run d c = t) ∧ t.IsAtomic := by
  rcases rest with _ | ⟨b, more⟩
  · exact ⟨_, fun d c => run_call [] .subsequence, Trace.isAtomic_failed _⟩
  · obtain ⟨ws, hb⟩ := hrest b List.mem_cons_self
    obtain ⟨n?, hn⟩ : ∃ n?, ∀ d c, numberIf d more.head? c = n? := by
      cases hmore : more.head? with
      | none => exact ⟨_, fun d c => rfl⟩
      | some x =>
        obtain ⟨us, hx⟩ := hrest x (List.mem_cons_of_mem b (List.mem_of_head? hmore))
        exact ⟨_, fun d c => by rw [numberIf, hx, Trace.number_values]⟩
    -- What is cut out of a literal does not depend on where it is evaluated, and there is nothing to open.
    have cut (d d' : Dispatcher) (c c' : Context) (bounds? : Option (Int × Int)) :
        a.expr.cut d c bounds? = a.expr.cut d' c' bounds? := by
      rcases bounds? with _ | ⟨low, high⟩
      · rfl
      · show (if 0 < high then (a.expr.run d c).between low high else a.expr.opening d c) =
          if 0 < high then (a.expr.run d' c').between low high else a.expr.opening d' c'
        rw [opening_of_run (ha d c), opening_of_run (ha d' c'), ha, ha]
    refine ⟨(variadic (.call .subsequence) (a :: b :: more) i).run .none (.initial .empty),
      fun d c => ?_, ?_⟩
    · rw [run_subsequence, run_subsequence, hb, hb, hn, hn, Trace.number_values c.forest]
      simp only [cut d .none c (.initial .empty)]
      rfl
    · rw [run_subsequence]
      refine Trace.isAtomic_ofResult fun t ht => ?_
      obtain ⟨x, -, ht⟩ := bind_eq_ok_iff.mp ht
      obtain ⟨n?, -, rfl⟩ := map_eq_ok_iff.mp ht
      refine (Trace.isAtomic_values vs).of_subset ?_
      have sub := (items_cut_sublist .none a.expr (.initial .empty) (subsequenceBounds? x n?)).subset
      rwa [ha] at sub

private theorem exists_run_call {function : BuiltIn} {args : List Operand}
    (h : ∀ a ∈ args, ∃ vs : List Value, ∀ d c, a.expr.run d c = .ofList (vs.map .atomic)) :
    ∃ t : Trace, (∀ d c, (variadic (.call function) args i).run d c = t) ∧ t.IsAtomic := by
  rcases args with _ | ⟨a, rest⟩
  · cases function <;>
      exact ⟨_, fun d c => run_variadic _ _, fun x hx => absurd hx List.not_mem_nil⟩
  obtain ⟨vs, ha⟩ := h a List.mem_cons_self
  cases function with
  | negation =>
    exact ⟨_, fun d c => (run_negation rest).trans (by rw [ha]), Trace.isAtomic_ofTruth _⟩
  | existence =>
    exact ⟨_, fun d c => (run_existence rest).trans (by rw [ha]), Trace.isAtomic_ofTruth _⟩
  | emptiness =>
    exact ⟨_, fun d c => (run_emptiness rest).trans (by rw [ha]), Trace.isAtomic_ofTruth _⟩
  | truth => exact ⟨_, fun d c => (run_truth rest).trans (by rw [ha]), Trace.isAtomic_ofTruth _⟩
  | count =>
    refine ⟨_, fun d c => (run_count rest).trans (by rw [ha]), Trace.isAtomic_ofItem fun x hx => ?_⟩
    obtain ⟨xs, -, hxs⟩ := map_eq_ok_iff.mp hx
    exact ⟨_, (Option.some.inj hxs).symm⟩
  | exactlyOne =>
    refine ⟨_, fun d c => (run_exactlyOne rest).trans (by rw [ha]),
      Trace.isAtomic_ofItem fun x hx => ?_⟩
    obtain ⟨item?, honly, hx⟩ := bind_eq_ok_iff.mp hx
    cases item? with
    | none => simp [Behaviour.required] at hx
    | some y =>
      obtain rfl : y = x := by simpa [Behaviour.required] using hx
      exact Trace.isAtomic_values vs y (Trace.mem_of_only honly)
  | zeroOrOne =>
    exact ⟨_, fun d c => (run_zeroOrOne rest).trans (by rw [ha]),
      Trace.isAtomic_ofItem fun x hx => Trace.isAtomic_values vs x (Trace.mem_of_only hx)⟩
  | data =>
    exact ⟨_, fun d c => (run_data rest).trans (by rw [ha, Trace.atomize_values]),
      Trace.isAtomic_values vs⟩
  | subsequence =>
    exact exists_run_subsequence ha fun x hx => h x (List.mem_cons_of_mem a hx)

end Operators

/-- An operator applied to literals comes to the same everywhere, and that are values. -/
theorem exists_run_of_isConstant (h : e.isConstant = true) :
    ∃ t : Trace, (∀ d c, e.run d c = t) ∧ t.IsAtomic := by
  rw [isConstant, Bool.and_eq_true] at h
  obtain ⟨hoperation, hoperands⟩ := h
  have literal {a : Operand} (ha : a ∈ e.operands) :=
    exists_run_of_isLiteral (List.all_eq_true.mp hoperands a ha)
  cases e with
  | leaf op i => exact absurd hoperation Bool.false_ne_true
  | unary op a i =>
    obtain ⟨vs, ha⟩ := literal (a := a) (by simp)
    exact exists_run_unary hoperation ha
  | binary op a b i =>
    obtain ⟨vs, ha⟩ := literal (a := a) (by simp)
    obtain ⟨ws, hb⟩ := literal (a := b) (by simp)
    exact exists_run_binary hoperation ha hb
  | choice x y n i =>
    obtain ⟨vs, hx⟩ := literal (a := x) (by simp)
    obtain ⟨ws, hy⟩ := literal (a := y) (by simp)
    obtain ⟨us, hn⟩ := literal (a := n) (by simp)
    refine ⟨_, fun d c => run_choice.trans (by rw [hx, hy, hn]), Trace.isAtomic_ofResult fun t ht => ?_⟩
    obtain ⟨decision, -, rfl⟩ := map_eq_ok_iff.mp ht
    split
    · exact Trace.isAtomic_values ws
    · exact Trace.isAtomic_values us
  | variadic op args i =>
    cases op with
    | block => exact absurd hoperation Bool.false_ne_true
    | call function => exact exists_run_call fun a ha => literal ha

/-- The values of a constant are what it comes to. -/
theorem run_of_constant? {vs : List Value} (h : e.constant? = some vs) (d : Dispatcher) (c : Context) :
    e.run d c = .ofList (vs.map .atomic) := by
  unfold constant? at h
  split at h
  case isFalse => simp at h
  case isTrue hconstant =>
    obtain ⟨t, hrun, hatomic⟩ := exists_run_of_isConstant hconstant
    split at h
    case h_2 => simp at h
    case h_1 xs hxs =>
      have ht := (hrun _ _).symm.trans (collect_eq_ok_iff.mp hxs)
      obtain rfl := Option.some.inj h
      rw [hrun, ht]
      rw [ht] at hatomic
      have values (xs : Sequence) (hxs : ∀ a ∈ xs, ∃ v, a = .atomic v) :
          (xs.filterMap Item.atomic?).map .atomic = xs := by
        induction xs with
        | nil => rfl
        | cons x xs ih =>
          obtain ⟨v, rfl⟩ := hxs x List.mem_cons_self
          exact congrArg (Item.atomic v :: ·) (ih fun a ha => hxs a (List.mem_cons_of_mem _ ha))
      rw [values xs hatomic]

/-- A value in the place of a constant changes nothing. -/
theorem run_fold (hd : d.Placed) (e : Expr) (c : Context) : e.fold.run d c = e.run d c := by
  unfold fold
  cases h : e.constant? with
  | none => rfl
  | some vs =>
    rw [run_replacing hd, run_of_constant? h]
    exact run_literal vs

theorem opening_fold (hd : d.Placed) (e : Expr) (c : Context) :
    e.fold.opening d c = e.opening d c := by
  unfold fold
  cases h : e.constant? with
  | none => rfl
  | some vs =>
    rw [opening_replacing hd, opening_of_run (run_of_constant? h d c)]
    exact opening_of_run (run_literal vs)

end Expr

end TreeQuery
