/-
Well-scoped programs never contradict themselves.

An internal error says that evaluation met what should not be: a variable without a value, a call without its
arguments, a mode that is not ranked or a rule that is not there.  None of these comes about if expressions refer to
variables inside their declarations only, and if tables of rules are made of such expressions and ranked.  What has
to be carried along is that all variables that an expression may refer to have values (`Expr.Runnable`), and that the
rules of the context are in order (`Context.RulesInOrder`).  Both are handed down to operands, to actions and to
predicates, the latter with a frame without values: rules refer to no variables from outside.

Main statements:

* `Expr.Runnable.delegates` — what has to be carried along is handed down to operands;
* `Context.RulesInOrder.actionContext` — a rule that is run is a rule of its mode, so that the next one can be found;
* `RuleSet.WellScoped.over` — tables of rules hold scoped expressions only;
* `Expr.never_internal` — the only internal error of a well-scoped program is that rules are applied more deeply inside
  each other than the evaluator was told to go.

Design notes: arithmetic adds nothing to the list of internal errors, because promoted operands are pairs of numbers
of one kind by their type.  That an error is internal is decided by its cause (`Error.Within`); the depth of
application is a bound of evaluation itself, and the statement holds of every bound.
-/
import TreeQuery.Proofs.ConfinedRules
import TreeQuery.Proofs.ModeConstruction
import TreeQuery.Proofs.ScopedTrees

namespace TreeQuery

/-! ### Contexts -/

namespace Context

variable {c : Context}

/-- Whether a slot has a value. -/
def Assigned (c : Context) (n : Nat) : Prop := ∃ xs, c.slot n = .ok xs

theorem assigned_setSlot {op : Binary} {v : Binding} (hop : op.declared? = some v) (hv : v.id = v.slot) (xs : Sequence)
    {n : Nat} (hn : op.visible c.Assigned n) : (c.setSlot v.slot xs).Assigned n := by
  unfold Assigned
  rw [slot_setSlot]
  split
  · exact ⟨xs, rfl⟩
  next hne =>
    rcases hn with hn | ⟨w, hw, rfl⟩
    · exact hn
    · obtain rfl : w = v := Option.some.inj (hw.symm.trans hop)
      exact absurd hv.symm hne

/-- Whether the rule that is being executed, if there is one, is a rule of the tables. -/
def HasCurrentRule (c : Context) : Prop :=
  ∀ current, c.currentRule? = some current → ∃ rules m r, c.rules? = some rules ∧
    rules.mode? current.mode = some m ∧ m.rule? current.index = some r

/-- Whether the rules of a context are ranked and refer to no variables from outside, and the current one is among
them. -/
structure RulesInOrder (c : Context) : Prop where
  closed : ∀ rules, c.rules? = some rules → rules.Over (Expr.Scoped fun _ => False)
  ranked : ∀ rules, c.rules? = some rules → ∀ m ∈ rules.modes, m.ranked = true
  current : c.HasCurrentRule

theorem RulesInOrder.withOutput (h : c.RulesInOrder) : c.withOutput.RulesInOrder := ⟨h.closed, h.ranked, h.current⟩

/-- A rule that is run is a rule of its mode. -/
theorem RulesInOrder.actionContext (h : c.RulesInOrder) {rules : RuleSet} {m : Mode} {index : Nat} {r : Rule}
    (hrules : c.rules? = some rules) (hm : rules.mode? m.name = some m) (hr : m.rule? index = some r) (a : Item)
    (position size : Nat) : (m.actionContext rules.frameSize index a position size c).RulesInOrder where
  closed := h.closed
  ranked := h.ranked
  current := by
    rintro _ ⟨⟩
    exact ⟨rules, m, r, hrules, hm, hr⟩

end Context

/-! ### Expressions -/

/-- Whether a cause is none that is internal, except that rules are applied too deeply. -/
def Cause.IsExplained (e : Cause) : Prop := e.code? = some .QRIN0001 → e = .tooDeep

namespace Cause

variable {e : Cause}

theorem isExplained_of_ordinary (e : Cause) (h : e.isOrdinary = true) : e.IsExplained := by
  intro hcode
  cases e <;> simp_all [isOrdinary, code?]

end Cause

/-- Whether a step ends in no internal error, except that rules are applied too deeply inside each other. -/
def Eval.NeverInternal {α : Type} (x : Eval α) : Prop :=
  ∀ e, x.outcome = .error e → e.kind = .internal → e.cause = .tooDeep

/-- An error is internal only for a cause that is. -/
theorem Eval.Confined.neverInternal {α : Type} {x : Eval α} (h : x.Confined Cause.IsExplained) : x.NeverInternal := by
  intro e he internal
  have within := Eval.confined_iff.mp h e he
  refine within.cause ?_
  have kind := within.kind.symm.trans internal
  simp only [Error.of] at kind
  cases hcode : e.cause.code? with
  | none => simp [hcode] at kind
  | some k => cases k <;> simp_all [ErrorCode.defaultKind]

open Cause (isExplained_of_ordinary)

namespace Expr

variable {d : Dispatcher} {e e' : Expr} {a : Operand} {c c' : Context}

/-- Whether the variables that an expression may refer to have values, and the rules of the context are in order. -/
structure Runnable (e : Expr) (c : Context) : Prop where
  inScope : e.Scoped c.Assigned
  rules : c.RulesInOrder

namespace Runnable

/-- What has to be carried along is handed down to operands. -/
theorem delegates (h : Runnable e c) (delegates : Delegates e c e' c') : Runnable e' c' := by
  obtain ⟨inScope, closed, ranked, current⟩ := h
  cases delegates with
  | unary | selection => cases inScope with
    | unary ha => exact ⟨ha, closed, ranked, current⟩
  | first => cases inScope with
    | binary _ ha _ => exact ⟨ha, closed, ranked, current⟩
  | letBody xs | forBody xs => cases inScope with
    | binary hdeclared _ hb =>
      exact ⟨hb.mono fun n hn => Context.assigned_setSlot rfl (hdeclared _ rfl) xs hn, closed, ranked, current⟩
  | step | predicate | connective => exact ⟨(inScope.of_plain rfl).2, closed, ranked, current⟩
  | @second op _ _ _ _ hop =>
    have undeclared : op.declared? = none := by cases op <;> first | rfl | cases hop
    exact ⟨(inScope.of_plain undeclared).2, closed, ranked, current⟩
  | branch ha => cases inScope with
    | choice hx hy hn =>
      simp only [List.mem_cons, List.not_mem_nil, or_false] at ha
      rcases ha with rfl | rfl | rfl
      · exact ⟨hx, closed, ranked, current⟩
      · exact ⟨hy, closed, ranked, current⟩
      · exact ⟨hn, closed, ranked, current⟩
  | argument ha => exact ⟨inScope.argument ha, closed, ranked, current⟩

/-- Variables have values, calls have their arguments, and the lack of a focus is no internal error. -/
theorem own (hd : d.Confined Cause.IsExplained Context.RulesInOrder) (h : Runnable e c) :
    e.OwnConfined Cause.IsExplained d c := by
  have item : (Eval.ofExcept c.item).Confined Cause.IsExplained := by
    refine .ofExcept fun e he => ?_
    unfold Context.item at he
    split at he <;> cases he
    exact .of fun h => by cases h
  cases e with
  | leaf op i =>
    cases op with
    | literal values => exact .literal isExplained_of_ordinary values
    | contextItem => exact .contextItem isExplained_of_ordinary item
    | position =>
      refine .position isExplained_of_ordinary (.ofExcept fun e he => ?_)
      unfold Context.position at he
      split at he <;> cases he
      exact .of fun h => by cases h
    | last =>
      refine .last isExplained_of_ordinary (.ofExcept fun e he => ?_)
      unfold Context.size at he
      split at he <;> cases he
      exact .of fun h => by cases h
    -- The slot has a value because the variable is in scope.
    | «variable» v type =>
      obtain ⟨hslot, xs, hxs⟩ : v.id = v.slot ∧ c.Assigned v.id := by
        cases h.inScope with
        | leaf hv => exact hv v type rfl
      refine .variable isExplained_of_ordinary ?_
      rw [← hslot, hxs]
      exact .pure xs
    | global name type => exact .global isExplained_of_ordinary name
    | step axis test => exact .step isExplained_of_ordinary item axis test
    | nextMatch => exact .ofProcess (hd.next _ c h.rules) (hd.next _ c.withOutput h.rules.withOutput)
  | unary op a i =>
    cases op with
    | applyRules mode => exact fun xs => ⟨hd.apply xs mode _ c h.rules, hd.apply xs mode _ c.withOutput h.rules.withOutput⟩
    | _ => trivial
  | binary op a b i => trivial
  | choice x y n i => trivial
  | variadic op args i =>
    cases op with
    | block => trivial
    | call function =>
      intro few
      cases h.inScope with
      | variadic harity _ => exact absurd (harity function rfl) (Nat.not_le.mpr few)

theorem confined (hd : d.Confined Cause.IsExplained Context.RulesInOrder) (h : Runnable e c) :
    (e.behaviour d).Confined Cause.IsExplained c :=
  confined_of_invariant isExplained_of_ordinary delegates (own hd) h

/-- Actions and predicates refer to no variables from outside, and rules that are in order have nothing to complain
of. -/
theorem rulesConfined (hd : d.Confined Cause.IsExplained Context.RulesInOrder) (hc : c.RulesInOrder) :
    c.RulesConfined Cause.IsExplained d where
  action := by
    intro rules m index r hrules hm hr a position size
    have rule := hc.closed rules hrules m (List.mem_of_find?_eq_some hm) r (List.mem_of_getElem? hr)
    have runnable : r.action.Runnable (m.actionContext rules.frameSize index a position size c) :=
      ⟨rule.action.mono fun _ => False.elim, hc.actionContext hrules hm hr a position size⟩
    exact runnable.confined hd
  condition := by
    intro rules m r hrules hm hr e he a
    have rule := hc.closed rules hrules m (List.mem_of_find?_eq_some hm) r hr
    have runnable : e.Runnable ((c.child rules.frameSize).withFocus a 1 (some 1)) :=
      ⟨(rule.conditions e he).mono fun _ => False.elim, hc.closed, hc.ranked, hc.current⟩
    exact runnable.confined hd
  complaint := by
    intro e complains
    cases complains with
    | tables hcurrent hrules =>
      obtain ⟨_, _, _, hrules', -⟩ := hc.current _ hcurrent
      exact absurd (hrules.symm.trans hrules') nofun
    | mode hcurrent hrules hm =>
      obtain ⟨_, _, _, hrules', hm', -⟩ := hc.current _ hcurrent
      obtain rfl := Option.some.inj (hrules.symm.trans hrules')
      exact absurd (hm.symm.trans hm') nofun
    | rule hcurrent hrules hm hr =>
      obtain ⟨_, _, _, hrules', hm', hr'⟩ := hc.current _ hcurrent
      obtain rfl := Option.some.inj (hrules.symm.trans hrules')
      obtain rfl := Option.some.inj (hm.symm.trans hm')
      exact absurd (hr.symm.trans hr') nofun
    | item => exact nofun
    | rank hrules hm unranked =>
      have ranked := hc.ranked _ hrules _ (List.mem_of_find?_eq_some hm)
      exact absurd (ranked.symm.trans unranked) nofun

theorem dispatcher_confined (depth : Nat) :
    (dispatcherWithin depth).Confined Cause.IsExplained Context.RulesInOrder :=
  dispatcherWithin_confined isExplained_of_ordinary (fun _ => rfl) rulesConfined depth

end Runnable

/-! ### Well-scoped programs -/

/-- Whether an expression comes from construction, and every reference to a variable stands inside a declaration of
it. -/
structure WellScoped (e : Expr) : Prop where
  built : e.Built true
  closed : e.free = []

/-- Whether an expression comes from a well-scoped one, by compilation or as it is. -/
def OfWellScoped (t : Expr) : Prop := ∃ e : Expr, e.WellScoped ∧ (t = e ∨ ∃ s, e.compile s = .ok t)

theorem OfWellScoped.scoped {t : Expr} (h : t.OfWellScoped) : t.Scoped fun _ => False := by
  obtain ⟨e, he, h⟩ := h
  have closed : e.Scoped fun _ => False :=
    scoped_of_free (constructed_of_built he.built) fun v hv => by simp [he.closed] at hv
  rcases h with rfl | ⟨s, compiled⟩
  · exact closed
  · exact closed.compile compiled

end Expr

/-- Whether an operation on a mode brings in well-scoped expressions only. -/
def Mode.Operation.WellScoped : Mode.Operation → Prop
  | .add p action _ _ => action.OfWellScoped ∧ ∀ e ∈ p.conditions, e.OfWellScoped
  | _ => True

namespace RuleSet

/-- Tables of rules as they come about: well-scoped rules are compiled and added, and modes are changed by operations
that bring in well-scoped rules only. -/
inductive WellScoped : RuleSet → Prop
  | empty : WellScoped .empty
  | addRule {r r' : RuleSet} {s : StaticContext} {mode : ModeName} {p : Pattern} {action : Expr} {precedence : Int}
      {priority : Option Float} {numbers : List Nat} :
      WellScoped r → (∀ e ∈ p.conditions, e.WellScoped) → action.WellScoped →
        r.addRule s mode p action precedence priority = .ok (numbers, r') → WellScoped r'
  | configure {r : RuleSet} (name : ModeName) {op : Mode.Operation} :
      WellScoped r → op.WellScoped → WellScoped (r.modify name (·.perform op))

/-- Tables of rules hold scoped expressions only. -/
theorem WellScoped.over {r : RuleSet} (h : r.WellScoped) : r.Over (Expr.Scoped fun _ => False) := by
  induction h with
  | empty => simp [RuleSet.Over, RuleSet.empty]
  | configure name _ hop ih =>
    refine ih.modify (fun m hm => ?_) name
    rename_i op _
    cases op with
    | add p action precedence priority =>
      exact hm.add (fun e he => (hop.2 e he).scoped) hop.1.scoped precedence priority
    | rank => exact hm.rank
    | setNoMatch noMatch => exact hm
    | setDetectConflicts detectConflicts => exact hm
  | addRule _ hp ha hadded ih =>
    rename_i r r' s mode p action precedence priority numbers _
    obtain ⟨pattern, hpattern, rest⟩ := bind_eq_ok_iff.mp hadded
    obtain ⟨compiled, hcompiled, rest⟩ := bind_eq_ok_iff.mp rest
    obtain rfl : _ = r' := congrArg Prod.snd (Except.ok.inj rest)
    refine ih.modify (fun m hm => hm.add (fun t ht => ?_) ?_ precedence priority) mode
    · obtain ⟨e, he, compiledCondition⟩ := Pattern.exists_condition_of_compile hpattern t ht
      exact Expr.OfWellScoped.scoped ⟨e, hp e he, .inr ⟨s, compiledCondition⟩⟩
    · exact Expr.OfWellScoped.scoped ⟨action, ha, .inr ⟨s, hcompiled⟩⟩

end RuleSet

/-- Tables of rules that were built are in order. -/
theorem Context.rulesInOrder_of_build {c : Context} (current : c.HasCurrentRule)
    (rules : ∀ rules, c.rules? = some rules → ∃ r frameSize, RuleSet.WellScoped r ∧ rules = r.build frameSize) :
    c.RulesInOrder where
  closed := by
    intro table htable
    obtain ⟨r, frameSize, wellScoped, rfl⟩ := rules table htable
    exact wellScoped.over.build frameSize
  ranked := by
    intro table htable m hm
    obtain ⟨r, frameSize, -, rfl⟩ := rules table htable
    obtain ⟨m, -, rfl⟩ := List.mem_map.mp hm
    rfl
  current := current

namespace Expr

/-- **Well-scoped programs never contradict themselves.**  Take an expression as construction gives it, in which every
reference to a variable stands inside a declaration of it, compiled at any level, and any context whose rules, if it
has any, were built of such expressions, where the current rule, if there is one, is one of them.  Then no evaluation
ends in an internal error, except that rules may be applied more deeply inside each other than evaluation was told to
go: the expression may be pulled to the end, asked for an item or put out, or any sequence may be processed with the
rules of any mode, or the context item with the next rule, all with an output that is not in use elsewhere. -/
theorem never_internal {s : StaticContext} {e t : Expr} (wellScoped : e.WellScoped) (compiled : e.compile s = .ok t)
    {c : Context} (current : c.HasCurrentRule)
    (rules : ∀ rules, c.rules? = some rules → ∃ r frameSize, RuleSet.WellScoped r ∧ rules = r.build frameSize)
    (depth : Nat) {o : Output} (idle : o.inUse = false) :
    ((t.behaviour (dispatcherWithin depth)).collect c).NeverInternal ∧
    ((t.behaviour (dispatcherWithin depth)).item c).NeverInternal ∧
    ((t.behaviour (dispatcherWithin depth)).process c o).2.NeverInternal ∧
    (∀ xs mode l, ((dispatcherWithin depth).apply xs mode l c o).2.NeverInternal) ∧
    ∀ l, ((dispatcherWithin depth).next l c o).2.NeverInternal := by
  have inOrder := c.rulesInOrder_of_build current rules
  have closed : t.Scoped fun _ => False := OfWellScoped.scoped ⟨e, wellScoped, .inr ⟨s, compiled⟩⟩
  have runnable : t.Runnable c := ⟨closed.mono fun _ => False.elim, inOrder⟩
  have dispatches := Runnable.dispatcher_confined depth
  have confined := runnable.confined dispatches
  have within : o.Within Cause.IsExplained := fun inUse => absurd (idle.symm.trans inUse) Bool.false_ne_true
  refine ⟨confined.collect.neverInternal, confined.item.neverInternal, (confined.process o within).2.neverInternal, ?_, ?_⟩
  · exact fun xs mode l => (dispatches.apply xs mode l c inOrder o within).2.neverInternal
  · exact fun l => (dispatches.next l c inOrder o within).2.neverInternal

/-- A variable. -/
def heldItem : Binding := ⟨0, ⟨none, "x"⟩, 0⟩

/-- The number 1 in a variable, processed by the rules. -/
def processedNumber : Expr :=
  (Binary.letIn heldItem).on (literal [.integer 1] .unknown)
    ((Unary.applyRules .unnamed).on (.ofLeaf (.variable heldItem none) .unknown) .unknown) .unknown

/-- The item twice, through a variable and by the next rule. -/
def itemAndNext : Expr :=
  block [(Binary.letIn heldItem).on (.ofLeaf .contextItem .unknown) (.ofLeaf (.variable heldItem none) .unknown)
    .unknown, .ofLeaf .nextMatch .unknown] .unknown

/-- A rule with an action that uses a variable and the next rule, and below it one that gives the item. -/
theorem never_internal_processedNumber :
    ∃ t numbers numbers' r r', processedNumber.compile .initial = .ok t ∧
      RuleSet.empty.addRule .initial .unnamed .anyItem itemAndNext 1 none = .ok (numbers, r) ∧
      r.addRule .initial .unnamed .anyItem (.ofLeaf .contextItem .unknown) 0 none = .ok (numbers', r') ∧
      ((t.behaviour (dispatcherWithin 2)).collect ((Context.initial .empty).withRules (r'.build 1))).outcome =
        .ok [.atomic (.integer 1), .atomic (.integer 1)] ∧
      ((t.behaviour (dispatcherWithin 2)).collect ((Context.initial .empty).withRules (r'.build 1))).NeverInternal := by
  obtain ⟨t, numbers, numbers', r, r', compiled, added, added', result⟩ :
      ∃ t numbers numbers' r r', processedNumber.compile .initial = .ok t ∧
        RuleSet.empty.addRule .initial .unnamed .anyItem itemAndNext 1 none = .ok (numbers, r) ∧
        r.addRule .initial .unnamed .anyItem (.ofLeaf .contextItem .unknown) 0 none = .ok (numbers', r') ∧
        ((t.behaviour (dispatcherWithin 2)).collect ((Context.initial .empty).withRules (r'.build 1))).outcome =
          .ok [.atomic (.integer 1), .atomic (.integer 1)] :=
    ⟨_, _, _, _, _, rfl, rfl, rfl, by rfl⟩
  have allocated : heldItem.Allocated := ⟨.initial, _, .initial, rfl⟩
  have action : itemAndNext.WellScoped := by
    refine ⟨.block _ fun e he => ?_, rfl⟩
    simp only [List.mem_cons, List.not_mem_nil, or_false] at he
    rcases he with rfl | rfl
    · exact .letIn _ allocated (.contextItem _) (.reference _ allocated)
    · exact .nextMatch _
  have table : r'.WellScoped := by
    refine .addRule (.addRule .empty ?_ action added) ?_ ⟨.contextItem _, rfl⟩ added'
    · simp [Pattern.conditions]
    · simp [Pattern.conditions]
  have program : processedNumber.WellScoped :=
    ⟨.letIn _ allocated (.literal _ _) (.applyRules _ _ (.reference _ allocated)), rfl⟩
  obtain ⟨collected, -⟩ := never_internal program compiled (c := (Context.initial .empty).withRules (r'.build 1))
    nofun (fun rules h => ⟨r', 1, table, (Option.some.inj h).symm⟩) 2 (o := .initial) rfl
  exact ⟨t, numbers, numbers', r, r', compiled, added, added', result, collected⟩

end Expr

end TreeQuery
