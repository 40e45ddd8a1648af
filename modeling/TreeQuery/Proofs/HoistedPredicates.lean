/-
Predicates that are moved out of filters.

Full optimization makes a choice of a filter by a predicate that is one truth value and does not depend on the item.
Where there are no items, the filter does not ask for the predicate, and the choice does.  Nothing else can go wrong:

* `Expr.filter_extendsTo_hoisted` — the choice comes to what the filter comes to, if the predicate has a truth value
  where there are no items;
* `Expr.compile_full_preserves` — so what an expression comes to as it is, without an error, it comes to after full
  optimization as well, if no predicate is moved to where it fails (`Expr.Harmless`).

Design notes: that a predicate is a truth value is known from its type, after optimization.  So the types that
optimization leaves have to be right (`Expr.Simplifies.classifies`), and they are about what the expression came to
before.  What happens before the first item is asked for is not the same, because a choice asks for its condition at
once.  This is why only the results are compared here, and why no subsequence may leave its first argument unread.
-/
import TreeQuery.Proofs.ItemTypes
import TreeQuery.Proofs.NormalForms
import TreeQuery.Proofs.OptimizedResults
import TreeQuery.Program

namespace TreeQuery

namespace Trace

variable {t : Trace}

/-- Where there is no number, a predicate holds at all positions or at none. -/
theorem holdsAt_eq_truth (h : ∀ z ∈ t.items, z.atomic?.bind (·.number?) = none) (position : Nat) :
    t.holdsAt position = t.truth := by
  obtain ⟨_ | ⟨z, rest⟩, failure?⟩ := t
  · cases failure? <;> rfl
  · have hz := h z List.mem_cons_self
    simp only [holdsAt, first?, ok_bind, hz]
    rfl

/-- A filter fails at once, or there is nothing to filter, or it has decided about the first item. -/
theorem filter_cases (t : Trace) (keep : Nat → Item → Except Cause Bool) :
    (∃ cause, t.filter keep = failed cause) ∨ t = ofList [] ∨
      ∃ x decision, t.items[0]? = some x ∧ keep 0 x = .ok decision := by
  obtain ⟨_ | ⟨x, rest⟩, failure?⟩ := t
  · cases failure? with
    | none => exact .inr (.inl rfl)
    | some cause => exact .inl ⟨cause, rfl⟩
  · cases hkeep : keep 0 x with
    | ok decision => exact .inr (.inr ⟨x, decision, rfl, hkeep⟩)
    | error cause =>
      refine .inl ⟨cause, ?_⟩
      simp only [filter, expand, expandFrom, hkeep, keeping]
      exact append_failed _ _

theorem wholeIf_eq_ofList {needed : Bool} {xs : Sequence} (h : t.wholeIf needed = ofList xs) : t = ofList xs := by
  cases needed with
  | false => exact h
  | true =>
    obtain ⟨ys, failure?⟩ := t
    cases failure? with
    | none => exact h
    | some cause => cases h

/-- A filter that decides the same about all items. -/
theorem filter_const (t : Trace) (decision : Bool) : t.filter (fun _ _ => .ok decision) =
    if decision then t else ⟨[], t.failure?⟩ := by
  cases decision with
  | true => exact filter_of_true t
  | false => exact filter_at none fun i a _ => by simp

end Trace

namespace Expr

variable {d : Dispatcher} {c : Context} {e r : Expr} {a b a' b' : Operand} {i j : Info} {g : Operand → Operand}
  {level : Optimization} {s : StaticContext} {scope : Scope}

/-! ### Types after optimization -/

@[simp] theorem itemType_replacing (old : Expr) : (old.replacing e).itemType = e.itemType := by
  unfold replacing
  split
  · rw [itemType, props_withLocation, itemType]
  · rfl

/-- A value has a type for what comes to a part of it. -/
theorem classifies_fold (further : (e.run d c).ExtendsTo (r.run d c)) (h : r.Classifies d e c) :
    r.fold.Classifies d e c := by
  unfold fold
  split
  case h_1 vs hconstant =>
    intro z hz
    have hmem : z ∈ (r.run d c).items := further.starts.subset hz
    rw [run_of_constant? hconstant] at hmem
    obtain ⟨v, hv, rfl⟩ := List.mem_map.mp hmem
    rw [itemType_replacing]
    exact accepts_literal hv .unknown c.forest
  case h_2 => exact h

theorem classifies_hoisted {x e' : Expr} (h : e'.Classifies d e c) (l : Location) :
    (ofChoice ⟨.atomic, x⟩ ⟨.navigate, e'⟩ ⟨.navigate, empty⟩ l).Classifies d e c := by
  intro z hz
  have hempty : empty.cardinality.isEmptyOnly = true := rfl
  rw [itemType, ofChoice, props_refresh, computed]
  simp only [Properties.ofChoice, Operand.expr, hempty]
  cases e'.cardinality.isEmptyOnly with
  | true => exact ItemType.accepts_common_left _ (h z hz)
  | false => exact h z hz

/-- What comes out of a simplification has a type for what the expression comes to. -/
theorem Simplifies.classifies (hr : Simplifies level (e.mapOperands g).refresh r)
    (further : (e.run d c).ExtendsTo (r.run d c)) (placed : d.Placed)
    (mapped : (e.mapOperands g).refresh.Classifies d e c)
    (operands : ∀ a ∈ e.operands, ∀ c', Evaluates d e c a.expr c' →
      ∀ z ∈ (a.expr.run d c').items, (g a).expr.itemType.accepts c.forest z = true) : r.Classifies d e c := by
  -- Where nothing takes the place of the expression there is no item to classify.
  have nothing (old : Expr) (h : r = old.replacing empty) : r.Classifies d e c := by
    have hempty : r.run d c = .ofList [] := by rw [h, run_replacing placed]; exact run_literal []
    intro z hz
    have hmem : z ∈ (r.run d c).items := further.starts.subset hz
    rw [hempty] at hmem
    exact absurd hmem List.not_mem_nil
  cases e with
  | leaf op i | unary op a i | choice x y n i =>
    cases hr
    exact mapped
  | binary op a b i =>
    have base (hop : op = .filter) : (g a).expr.Classifies d (binary op a b i) c := by
      subst hop
      exact fun z hz => operands a (by simp) c .first z (items_filter_sublist.subset hz)
    cases hr with
    | stays => exact mapped
    | nowhere | never => exact nothing _ rfl
    | position =>
      intro z hz
      rw [itemType, itemAt, ofVariadic, props_refresh]
      exact base rfl z hz
    | always =>
      intro z hz
      rw [itemType_replacing]
      exact base rfl z hz
    | hoist => exact classifies_hoisted (base rfl) _
    | @dead v =>
      intro z hz
      rw [itemType_replacing]
      rw [run_letIn] at hz
      obtain ⟨t, ht, hz⟩ := Trace.mem_items_ofResult hz
      obtain ⟨xs, hxs, rfl⟩ := map_eq_ok_iff.mp ht
      exact operands b (by simp) _ (.letBody (Trace.result_eq_ok_iff.mp hxs)) z hz
  | variadic op args i =>
    generalize hm : (mapOperands g (variadic op args i)).refresh = m at hr mapped
    cases hr with
    | stays => exact mapped
    | @split connective function role a b i' j htest =>
      simp only [mapOperands, refresh, withInfo, variadic.injEq] at hm
      obtain ⟨rfl, hargs, -⟩ := hm
      obtain ⟨x, rfl, -⟩ := List.map_eq_singleton_iff.mp hargs
      obtain ⟨tells, hrun, -⟩ := exists_tells htest
      intro z hz
      rw [hrun] at hz
      exact accepts_truth hz
    | _ => cases hm

/-! ### Filters by what does not depend on the item -/

section Uniform

variable (hd : d.IsLocal) (hb' : Throughout Consistent b'.expr) (huniform : b'.expr.isUniform = true)

include huniform in
theorem last_of_isUniform : b'.expr.dependencies.last = false := by
  simp only [isUniform, Dependencies.onFocus, Bool.and_eq_true, Bool.not_eq_true', Bool.or_eq_false_iff] at huniform
  exact huniform.1.1.2

include huniform in
theorem itemType_of_isUniform : b'.expr.itemType = .atomic .boolean := by
  simp only [isUniform, Bool.and_eq_true] at huniform
  exact eq_of_beq huniform.1.2

include huniform in
/-- What has decided about an item is a truth value, no position, and decides the same about all items. -/
theorem decides_of_holdsAt {c' : Context} {position : Nat} {decision : Bool}
    (types : b'.expr.Classifies d b.expr c') (further : (b.expr.run d c').ExtendsTo (b'.expr.run d c))
    (hholds : (b.expr.run d c').holdsAt position = .ok decision) :
    (b'.expr.run d c).truth = .ok decision ∧ ∀ position, (b'.expr.run d c).holdsAt position = .ok decision := by
  have boolean (z : Item) (hz : z ∈ (b.expr.run d c').items) : z.atomic?.bind (·.number?) = none := by
    have haccepts := types z hz
    rw [itemType_of_isUniform huniform] at haccepts
    cases z with
    | node n => rfl
    | atomic v => cases v <;> first | rfl | cases haccepts
  rw [Trace.holdsAt_eq_truth boolean] at hholds
  refine ⟨further.truth _ hholds, fun position => further.holdsAt position _ ?_⟩
  rw [Trace.holdsAt_eq_truth boolean]
  exact hholds

include hd hb' huniform

/-- What is moved out of a filter comes to the same outside. -/
theorem runAt_of_isUniform (size? : Option Nat) (before : Nat) (item : Item) :
    b'.expr.runAt d c size? before item = b'.expr.run d c := by
  simp only [isUniform, Dependencies.onFocus, Bool.and_eq_true, Bool.not_eq_true', Bool.or_eq_false_iff] at huniform
  obtain ⟨⟨⟨⟨hitem, hposition⟩, hlast⟩, -⟩, -⟩ := huniform
  have agree : c.Agree b'.expr (c.withFocus item (before + 1) size?) := by
    refine ⟨rfl, fun _ _ => rfl, fun h => ?_, fun h => ?_, fun h => ?_, fun h => ?_⟩
    · exact absurd (h.symm.trans hitem) Bool.false_ne_true.symm
    · exact absurd (h.symm.trans hposition) Bool.false_ne_true.symm
    · exact absurd (h.symm.trans hlast) Bool.false_ne_true.symm
    · exact absurd ((h.item hb').symm.trans hitem) Bool.false_ne_true.symm
  exact (run_eq_of_agree hd hb' agree).symm

/-- A filter by what decides the same everywhere comes to what a choice comes to. -/
theorem filter_extendsTo_choice {decision : Bool} (ha : (a.expr.run d c).ExtendsTo (a'.expr.run d c))
    (htruth : (b'.expr.run d c).truth = .ok decision)
    (hdecision : a.expr.run d c = .ofList [] ∨ ∀ position, (b'.expr.run d c).holdsAt position = .ok decision) :
    ((binary .filter a b' i).run d c).ExtendsTo
      ((choice ⟨.atomic, b'.expr⟩ ⟨.navigate, a'.expr⟩ ⟨.navigate, empty⟩ j).run d c) := by
  have hfilter : (binary .filter a b' i).run d c =
      if decision then a.expr.run d c else ⟨[], (a.expr.run d c).failure?⟩ := by
    rw [run_filter, last_of_isUniform huniform, Trace.wholeIf_false, ← Trace.filter_const]
    rcases hdecision with hempty | hdecision
    · rw [hempty]
      rfl
    · simp only [runAt_of_isUniform hd hb' huniform, hdecision]
  have hchoice : (choice ⟨.atomic, b'.expr⟩ ⟨.navigate, a'.expr⟩ ⟨.navigate, empty⟩ j).run d c =
      if decision then a'.expr.run d c else .ofList [] := by
    rw [run_choice, show (Operand.expr ⟨.atomic, b'.expr⟩).run d c = b'.expr.run d c from rfl, htruth]
    cases decision with
    | true => rfl
    | false => exact (run_literal [] : empty.run d c = _)
  rw [hfilter, hchoice]
  cases decision with
  | true => exact ha
  | false =>
    cases hfailure : (a.expr.run d c).failure? with
    | none => exact .refl _
    | some cause => exact .of_failed _ _

/-- **A predicate is moved out of a filter** where it has a truth value or the filter asks for it.  What the filter
comes to, the choice comes to as well. -/
theorem filter_extendsTo_hoisted (needs : NeedsNoMore b.expr b'.expr)
    (hb : ∀ c', Second d a b c .filter c' → (b.expr.run d c').ExtendsTo (b'.expr.run d c'))
    (ha : (a.expr.run d c).ExtendsTo (a'.expr.run d c))
    (types : ∀ c', Second d a b c .filter c' → b'.expr.Classifies d b.expr c')
    (spared : a.expr.run d c = .ofList [] → ∃ decision, (b'.expr.run d c).truth = .ok decision) :
    ((binary .filter a b i).run d c).ExtendsTo
      ((choice ⟨.atomic, b'.expr⟩ ⟨.navigate, a'.expr⟩ ⟨.navigate, empty⟩ j).run d c) := by
  have predicate := filter_extendsTo_predicate (i := i) hd hb' needs hb
  rcases Trace.filter_cases ((a.expr.run d c).wholeIf b.expr.dependencies.last) fun before item =>
      (b.expr.runAt d c (a.expr.sizeIf d b.expr.dependencies.last c) before item).holdsAt (before + 1) with
    ⟨cause, hfails⟩ | hempty | ⟨x, decision, hx, hholds⟩
  · rw [run_filter, hfails]
    exact .of_failed _ _
  · have hempty := Trace.wholeIf_eq_ofList hempty
    obtain ⟨decision, htruth⟩ := spared hempty
    exact predicate.trans (filter_extendsTo_choice hd hb' huniform ha htruth (.inl hempty))
  · have second := Second.predicate (d := d) (a := a) (b := b) (c := c) hx
    have further := hb _ second
    rw [show b'.expr.run d _ = b'.expr.run d c from runAt_of_isUniform hd hb' huniform _ 0 x] at further
    obtain ⟨htruth, hdecision⟩ := decides_of_holdsAt huniform (types _ second) further hholds
    exact predicate.trans (filter_extendsTo_choice hd hb' huniform ha htruth (.inr hdecision))

end Uniform

/-! ### Full optimization -/

/-- Whether full optimization of the operands does no harm to an expression.  A path is put into document order as
before, or its steps find what they find without an error.  A predicate that is moved out of a filter has a truth
value where there is nothing to filter.  And there is no subsequence with an infinite start and an infinite
length, which would leave its first argument unread. -/
structure Harmless (d : Dispatcher) (e : Expr) (c : Context) : Prop extends Undisturbed (optimize .full) d e c where
  truth : ∀ a b i, e = binary .filter a b i → (b.expr.optimize .full).isUniform = true →
    a.expr.run d c = .ofList [] → ∃ decision, ((b.expr.optimize .full).run d c).truth = .ok decision
  bounded : Bounded d e c

/-- Whether one expression may replace another: what the other comes to, up to an error, it comes to as well, and its
properties and its type are right about that. -/
structure Replaces (e' : Expr) (d : Dispatcher) (e : Expr) (c : Context) : Prop where
  further : (e.run d c).ExtendsTo (e'.run d c)
  described : e.isGuard = false → e'.Describes d e c
  classified : e'.Classifies d e c

/-- Full optimization of an expression whose operands are optimized. -/
theorem replaces_of_operands {scope' : Scope} (hd : d.IsLocal) (placed : d.Placed) (h : Situated s scope e c)
    (h' : Typesafe s scope' e c) (here : Harmless d e c)
    (short : ∀ a ∈ e.operands, Evaluates d e c a.expr c → (a.expr.run d c).items.length < 2 ^ 52)
    (operands : ∀ a ∈ e.operands, ∀ c', Evaluates d e c a.expr c' →
      (optimizedOperand .full a).expr.Replaces d a.expr c') : (e.optimized .full).Replaces d e c := by
  have full (e : Expr) : e.optimized .full = e.optimize .full :=
    (optimize_eq e fun h => Optimization.noConfusion h).symm
  have further (a : Operand) (ha : a ∈ e.operands) (c' : Context) (evaluates : Evaluates d e c a.expr c') :=
    (operands a ha c' evaluates).further
  have described (a : Operand) (ha : a ∈ e.operands) (c' : Context) (evaluates : Evaluates d e c a.expr c') :=
    (operands a ha c' evaluates).described
  have types (a : Operand) (ha : a ∈ e.operands) (c' : Context) (evaluates : Evaluates d e c a.expr c') (z : Item)
      (hz : z ∈ (a.expr.run d c').items) : (optimizedOperand .full a).expr.itemType.accepts c.forest z = true := by
    rw [← evaluates.forest]
    exact (operands a ha c' evaluates).classified z hz
  -- First the operands are replaced, and then the expression over them is simplified.
  have fitting := h.fitting_optimized (here.toUndisturbed.congr fun a _ => full a.expr) described
  have mapped := (follows_mapOperands hd fitting
    (fun a ha c' evaluates => ⟨further a ha c' evaluates, nofun⟩) ?cut).forth
  case cut =>
    rintro a b rest i rfl f n? hf hn
    exact follows_cut ⟨further a (by simp) c (.argument (by simp)), nofun⟩ fun low high =>
      here.bounded.positive hf hn
  obtain ⟨r, hr, heq⟩ := exists_optimized .full e
  have simplified := hr.extendsTo hd placed fitting further mapped short
    (fun v a b i he hdead => by
      subst he
      exact slot_ne_optimizedOperand h.annotated hdead) ?hoisted
  case hoisted =>
    rintro - a b i rfl huniform j
    have needs := (fitting.needs _ a b i rfl (.inr rfl)).1
    refine filter_extendsTo_hoisted hd (fitting.consistent b (by simp)) huniform needs
      (fun c' second => further b (by simp) c' second.evaluates) (further a (by simp) c .first)
      (fun c' second => (operands b (by simp) c' second.evaluates).classified) ?_
    rw [expr_optimizedOperand, full] at huniform ⊢
    exact here.truth a b i rfl huniform
  have classified : r.Classifies d e c := by
    refine hr.classifies simplified placed
      (h'.classifies_mapOperands (fun a ha c' evaluates z hz => ?_) ⟨types, ?_⟩) types
    · obtain ⟨_, typesafe⟩ := h'.of_evaluates evaluates fun _ _ _ _ typesafe => typesafe.accepting
      rw [← evaluates.forest]
      exact typesafe.accepting z hz
    · intro opens a ha c' evaluates z hz
      refine Bool.eq_false_iff.mpr fun hempty => ?_
      have hnil := (described a ha c' evaluates (h.operand opens ha)).items.nil_of_isEmptyOnly hempty
      rw [hnil] at hz
      cases hz
  rw [heq]
  refine ⟨?_, fun bare => h.describes_optimized placed bare described hr simplified,
    classifies_fold simplified classified⟩
  rw [run_fold placed]
  exact simplified

/-- What optimization leaves may replace the expression. -/
theorem replaces_optimized {scope' : Scope} (hd : d.IsLocal) (placed : d.Placed) (h : Situated s scope e c)
    (h' : Typesafe s scope' e c)
    (short : ∀ e' c', Reaches d e c e' c' → (e'.run d c').items.length < 2 ^ 52)
    (harmless : ∀ e' c', Reaches d e c e' c' → Harmless d e' c') : (e.optimized .full).Replaces d e c := by
  -- On the tree, for all contexts at once, because operands are evaluated in others.
  induction e using inductOperands generalizing scope scope' c with
  | h e ih =>
    refine replaces_of_operands hd placed h h' (harmless e c .here)
      (fun a _ evaluates => short a.expr c (.operand evaluates .here)) fun a ha c' evaluates => ?_
    obtain ⟨_, -, situated⟩ := h.of_evaluates evaluates
    obtain ⟨_, typesafe⟩ := h'.of_evaluates evaluates fun _ _ _ _ typesafe => typesafe.accepting
    rw [expr_optimizedOperand]
    exact ih a ha situated typesafe (fun e' c'' reaches => short e' c'' (.operand evaluates reaches))
      fun e' c'' reaches => harmless e' c'' (.operand evaluates reaches)

/-! ### Compilation -/

/-- Typing has nothing to do with the level of optimization. -/
theorem typedIn_withOptimization (s : StaticContext) (level : Optimization) (scope : Scope) (e : Expr) :
    typedIn { s with optimization := level } scope e = typedIn s scope e := by
  have settled (e : Expr) : settle { s with optimization := level } e = settle s e := rfl
  induction e using inductOperands generalizing scope with
  | h e ih =>
    have operand (a : Operand) (ha : a ∈ e.operands) (scope : Scope) :
        typedOperand { s with optimization := level } scope a = typedOperand s scope a := by
      have typed := ih a ha scope
      obtain ⟨role, x⟩ := a
      rw [Operand.expr] at typed
      rw [typedOperand, typedOperand, typed]
    have operands (args : List Operand) (hargs : ∀ a ∈ args, a ∈ e.operands) :
        typedOperands { s with optimization := level } scope args = typedOperands s scope args := by
      induction args with
      | nil => rw [typedOperands, typedOperands]
      | cons a rest ihr =>
        rw [typedOperands, typedOperands, operand a (hargs a List.mem_cons_self),
          ihr fun b hb => hargs b (List.mem_cons_of_mem a hb)]
    cases e with
    | leaf op i => rw [typedIn, typedIn, settled]
    | unary op a i => simp only [typedIn, operand a (by simp), settled]
    | binary op a b i => simp only [typedIn, operand a (by simp), operand b (by simp), settled]
    | choice x y n i =>
      simp only [typedIn, operand x (by simp), operand y (by simp), operand n (by simp), settled]
    | variadic op args i => simp only [typedIn, operands args (by simp), settled]

/-- The levels of optimization leave the same typed expression to be optimized. -/
theorem compile_withOptimization {t : Expr} (compiled : e.compile { s with optimization := .none } = .ok t)
    (level : Optimization) :
    e.simplify.typed s = .ok t ∧ e.compile { s with optimization := level } = .ok (t.optimize level) := by
  obtain ⟨x, hx, rest⟩ := bind_eq_ok_iff.mp compiled
  obtain rfl : x = t := Except.ok.inj rest
  rw [typed, typedIn_withOptimization] at hx
  refine ⟨hx, bind_eq_ok_iff.mpr ⟨x, ?_, rfl⟩⟩
  rw [typed, typedIn_withOptimization]
  exact hx

/-- What is known of a typed expression without guards is known of it in any case. -/
theorem checked_of_annotated (h : Everywhere (Annotated false s) scope e) (operated : Throughout Operated e) :
    Everywhere (Checked s) scope e := by
  refine Everywhere.and ?_ operated
  induction e using inductOperands generalizing scope with
  | h e ih =>
    have here := h.here
    have ready (opens : e.opensGuards = false) (a : Operand) (ha : a ∈ e.operands) :=
      (here.settled opens a ha).nonempty
    refine .mk ⟨here.fresh, here.roles, fun opens a ha => ⟨ready opens a ha, nofun⟩, here.typed⟩ fun p hp => ?_
    obtain ⟨a, ha, hexpr⟩ := exists_operand_of_mem_operandsIn hp
    rw [← hexpr]
    exact ih a ha (hexpr ▸ h.operand hp) (operated.operand ha)

/-- **Full optimization preserves results** where it does no harm.  Take an expression that construction gives and that
can be compiled, a context over proper trees in which global variables have values of their declared types, and
sequences of fewer than `2 ^ 52` items.  Wherever evaluation leads, let full optimization do no harm (`Expr.Harmless`):
above all, let no predicate be moved out of a filter with nothing to filter to where it fails.  Then what the
expression comes to without optimization and without an error, it comes to with full optimization as well. -/
theorem compile_full_preserves {root t : Expr} {xs : Sequence} {depth : Nat} (built : root.Built false)
    (compiled : root.compile { s with optimization := .none } = .ok t) (proper : c.forest.Proper)
    (globals : c.GlobalsConform s) (matching : c.GlobalsMatch s) (possible : s.GlobalsPossible)
    (short : ∀ e' c', Reaches (dispatcherWithin depth) t c e' c' →
      (e'.run (dispatcherWithin depth) c').items.length < 2 ^ 52)
    (harmless : ∀ e' c', Reaches (dispatcherWithin depth) t c e' c' → Harmless (dispatcherWithin depth) e' c')
    (hxs : ((t.behaviour (dispatcherWithin depth)).collect c).outcome = .ok xs) :
    ∃ t', root.compile { s with optimization := .full } = .ok t' ∧
      ((t'.behaviour (dispatcherWithin depth)).collect c).outcome = .ok xs := by
  obtain ⟨typed, hfull⟩ := compile_withOptimization compiled .full
  have normal := built_simplify built
  have annotated := (wellTyped_of_built normal [] t typed).1
  have situated : Situated s [] t c := ⟨annotated, proper, possible, globals, .nil, .nil _ c⟩
  have typesafe : Typesafe s [] t c :=
    ⟨checked_of_annotated annotated (operated_typedIn (unconverted_of_built normal) typed), matching, .nil _ c⟩
  have further := (replaces_optimized (dispatcherWithin_isLocal depth) (dispatcherWithin_placed depth) situated
    typesafe short harmless).further
  refine ⟨_, hfull, ?_⟩
  rw [collect_eq_ok_iff] at hxs ⊢
  rw [optimize_eq t fun h => Optimization.noConfusion h]
  exact further.eq_ofList hxs

/-- Without the condition on what is moved out of a filter this is wrong.  Two numbers have no truth value, and a
filter of no numbers by it does not notice before it is optimized. -/
example :
    let filter := Binary.filter.on
      (Binary.range.on (literal [.integer 1] .unknown) (literal [.integer 0] .unknown) .unknown)
      (orValues.call .truth (literal [.integer 1, .integer 2] .unknown)) .unknown
    let outcome (level : Optimization) := do
      let e ← (filter.compile { StaticContext.initial with optimization := level }).mapError Error.cause
      ((e.behaviour (dispatcherWithin 0)).collect (.initial .empty)).outcome.mapError Error.cause
    outcome .none = .ok [] ∧ outcome .full = .error .truthOfSeveral :=
  ⟨rfl, rfl⟩

/-- What looks at nothing but the results of its operands comes to no harm. -/
theorem harmless_of_indifferent (h : e.Indifferent) : Harmless d e c where
  toUndisturbed := by
    have unaffected : e.Unaffected d c := unaffected_of_indifferent h
    refine ⟨?_, unaffected.next⟩
    rintro a b i rfl
    exact absurd rfl h.1
  truth := by
    rintro a b i rfl
    exact absurd rfl h.2
  bounded := (unaffected_of_indifferent h : e.Unaffected d c).bounded

/-- The numbers of a list, if there is a number from one to two. -/
def askedOnce : Expr := Binary.filter.on numbers asked .unknown
where
  /-- The numbers. -/
  numbers : Expr := literal [.integer 7, .integer 8] .unknown
  /-- Whether there is a number. -/
  asked : Expr := orValues.call .existence range
  /-- The numbers from one to two. -/
  range : Expr := Binary.range.on (literal [.integer 1] .unknown) (literal [.integer 2] .unknown) .unknown

/-- Evaluation of a literal leads nowhere else. -/
theorem eq_of_reaches_literal {vs : List Value} {l : Location} {c' : Context}
    (reaches : Reaches d (literal vs l) c e c') : e = literal vs l := by
  cases reaches with
  | here => rfl
  | operand evaluates =>
    obtain ⟨a, ha, -⟩ := evaluates.exists_operand
    exact absurd ha List.not_mem_nil

/-- A literal is as long as it says, wherever it is evaluated. -/
theorem harmless_literal {vs : List Value} {l : Location} {c' : Context} (hvs : vs.length < 2 ^ 52)
    (reaches : Reaches d (literal vs l) c e c') : (e.run d c').items.length < 2 ^ 52 ∧ Harmless d e c' := by
  obtain rfl := eq_of_reaches_literal reaches
  refine ⟨?_, harmless_of_indifferent trivial⟩
  rw [show (literal vs l).run d c' = _ from run_literal vs, Trace.items_ofList, List.length_map]
  exact hvs

theorem harmless_askedOnce_range {c' : Context} (reaches : Reaches d askedOnce.range c e c') :
    (e.run d c').items.length < 2 ^ 52 ∧ Harmless d e c' := by
  cases reaches with
  | here =>
    rw [show askedOnce.range.run d c = .ofList [.atomic (.integer 1), .atomic (.integer 2)] from rfl]
    exact ⟨by decide, harmless_of_indifferent ⟨nofun, nofun⟩⟩
  | operand evaluates reaches =>
    obtain ⟨a, ha, rfl⟩ := evaluates.exists_operand
    obtain rfl | rfl : a = ⟨Binary.range.roles.1, literal [.integer 1] .unknown⟩ ∨
        a = ⟨Binary.range.roles.2, literal [.integer 2] .unknown⟩ := by
      simpa [askedOnce.range, Binary.on, ofBinary] using ha
    · exact harmless_literal (by decide) reaches
    · exact harmless_literal (by decide) reaches

theorem harmless_askedOnce_asked {c' : Context} (reaches : Reaches d askedOnce.asked c e c') :
    (e.run d c').items.length < 2 ^ 52 ∧ Harmless d e c' := by
  cases reaches with
  | here =>
    rw [show askedOnce.asked.run d c = .ofList [.atomic (.boolean true)] from rfl]
    exact ⟨by decide, harmless_of_indifferent nofun⟩
  | operand evaluates reaches =>
    obtain ⟨a, ha, rfl⟩ := evaluates.exists_operand
    obtain rfl := List.mem_singleton.mp ha
    exact harmless_askedOnce_range reaches

/-- Where there are numbers to be asked for, it makes no difference that it is asked once instead of for each. -/
theorem compile_full_preserves_askedOnce :
    askedOnce.Built false ∧ askedOnce.compile { StaticContext.initial with optimization := .none } = .ok askedOnce ∧
      (askedOnce.asked.optimize .full).isUniform = true ∧ Forest.empty.Proper ∧
      (Context.initial .empty).GlobalsConform .initial ∧ (Context.initial .empty).GlobalsMatch .initial ∧
      StaticContext.initial.GlobalsPossible ∧
      (∀ e' c', Reaches (dispatcherWithin 0) askedOnce (.initial .empty) e' c' →
        (e'.run (dispatcherWithin 0) c').items.length < 2 ^ 52 ∧ Harmless (dispatcherWithin 0) e' c') ∧
      ((askedOnce.behaviour (dispatcherWithin 0)).collect (.initial .empty)).outcome =
        .ok [.atomic (.integer 7), .atomic (.integer 8)] ∧
      ∃ t', askedOnce.compile { StaticContext.initial with optimization := .full } = .ok t' ∧
        ((t'.behaviour (dispatcherWithin 0)).collect (.initial .empty)).outcome =
          .ok [.atomic (.integer 7), .atomic (.integer 8)] := by
  have range : askedOnce.range.Built false := .range _ (.literal _ _) (.literal _ _)
  have built : askedOnce.Built false := .filter _ (.literal _ _) (built_call _ range rfl)
  have compiled : askedOnce.compile { StaticContext.initial with optimization := .none } = .ok askedOnce := rfl
  have proper : Forest.empty.Proper := by decide
  have undeclared (name : Name) : StaticContext.initial.globalType? name = none := rfl
  have globals : (Context.initial .empty).GlobalsConform .initial := fun name type xs htype => by
    cases (undeclared name).symm.trans htype
  have matching : (Context.initial .empty).GlobalsMatch .initial := Context.globalsMatch_initial _
  have possible : StaticContext.initial.GlobalsPossible := fun name type htype => by
    cases (undeclared name).symm.trans htype
  have numbers (d : Dispatcher) (c : Context) : askedOnce.numbers.run d c =
      .ofList [.atomic (.integer 7), .atomic (.integer 8)] := run_literal _
  have reached : ∀ e' c', Reaches (dispatcherWithin 0) askedOnce (.initial .empty) e' c' →
      (e'.run (dispatcherWithin 0) c').items.length < 2 ^ 52 ∧ Harmless (dispatcherWithin 0) e' c' := by
    intro e' c' reaches
    cases reaches with
    | here =>
      have operands (op a b i) (he : askedOnce = binary op a b i) :
          op = .filter ∧ a.expr = askedOnce.numbers ∧ b.expr = askedOnce.asked := by
        obtain ⟨rfl, rfl, rfl, -⟩ := Expr.binary.inj he
        exact ⟨rfl, rfl, rfl⟩
      refine ⟨by decide, ⟨fun a b i he => ?_, fun op a b i he _ _ => ?_⟩, fun a b i he _ hempty => ?_,
        fun a b n rest i he => by cases he⟩
      · cases (operands _ a b i he).1
      · rw [(operands op a b i he).2.2]
        rfl
      · rw [(operands _ a b i he).2.1, numbers] at hempty
        cases hempty
    | operand evaluates reaches =>
      obtain ⟨a, ha, rfl⟩ := evaluates.exists_operand
      rcases List.mem_cons.mp ha with rfl | ha
      · exact harmless_literal (by decide) reaches
      · obtain rfl := List.mem_singleton.mp ha
        exact harmless_askedOnce_asked reaches
  have before : ((askedOnce.behaviour (dispatcherWithin 0)).collect (.initial .empty)).outcome =
      .ok [.atomic (.integer 7), .atomic (.integer 8)] := rfl
  exact ⟨built, compiled, rfl, proper, globals, matching, possible, reached, before,
    compile_full_preserves built compiled proper globals matching possible
      (fun e' c' reaches => (reached e' c' reaches).1) (fun e' c' reaches => (reached e' c' reaches).2) before⟩

end Expr

end TreeQuery
