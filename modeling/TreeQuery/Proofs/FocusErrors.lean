/-
Once there is a focus with a size, nothing fails for want of one.

A path and a filter put a focus without a size around their second operand unless its dependencies say that it
reads the size.  So what has to be carried along is that there is a focus, and that it has a size if the
expression may read it (`Expr.Focused`).  It is handed down to operands because the stored dependencies of
compiled expressions are computed ones, and to the actions and predicates of rules because these get a focus with
a size in any case.

Main statements:

* `Expr.Focused.delegates` — what is needed of the focus is handed down to operands;
* `Expr.Focused.dispatcher_confined` — rules do not fail for want of a focus, if there is one where they are run;
* `Expr.focus_never_missing` — no evaluation of a compiled expression in a context whose focus has a size fails for
  want of a focus, and wherever it comes to read the size there is one.

Design notes: the causes that are left out are those of one code, so the statements are about any class of causes
that holds all ordinary ones and all internal ones.  Where evaluation comes to (`Expr.Comes`) goes beyond the
expression: through the rules of the context, whichever of them may be looked up.
-/
import TreeQuery.Proofs.CompiledTrees
import TreeQuery.Proofs.ConfinedRules
import TreeQuery.Proofs.StaticProperties

namespace TreeQuery

/-! ### The invariant -/

/-- Whether the rules of a context hold consistent expressions only. -/
def Context.RulesConsistent (c : Context) : Prop :=
  ∀ rules, c.rules? = some rules → rules.Over (Expr.Throughout Expr.Consistent)

/-- Whether the rules of a context hold consistent expressions only, and there is a focus to run them with. -/
def Context.RulesFocused (c : Context) : Prop := c.RulesConsistent ∧ c.focus?.isSome = true

/-- Whether there is all of a focus that an expression may read, and the same for the rules of the context. -/
structure Expr.Focused (e : Expr) (c : Context) : Prop where
  consistent : Throughout Consistent e
  focus : ∃ f, c.focus? = some f ∧ (e.dependencies.last = true → f.size?.isSome = true)
  rules : c.RulesConsistent

namespace Expr.Focused

variable {e e' : Expr} {a : Operand} {c c' : Context}

theorem inherited (h : Focused e c) (ha : a ∈ e.inheritors) : Focused a.expr c where
  consistent := h.consistent.operand (mem_operands_of_mem_inheritors ha)
  focus :=
    have ⟨f, hf, hsize⟩ := h.focus
    ⟨f, hf, fun hlast => hsize ((h.consistent.here.focusWithin ha).last hlast)⟩
  rules := h.rules

theorem setSlot (h : Focused e c) (slot : Nat) (xs : Sequence) : Focused e (c.setSlot slot xs) :=
  ⟨h.consistent, h.focus, h.rules⟩

theorem withOutput (h : Focused e c) : Focused e c.withOutput := ⟨h.consistent, h.focus, h.rules⟩

theorem withFocus (h : Throughout Consistent e) (rules : c.RulesConsistent) (item : Item) (position : Nat)
    {size? : Option Nat} (hsize : e.dependencies.last = true → size?.isSome = true) :
    Focused e (c.withFocus item position size?) :=
  ⟨h, ⟨_, rfl, hsize⟩, rules⟩

/-- What is needed of the focus is handed down to operands. -/
theorem delegates (h : Focused e c) (delegates : Delegates e c e' c') : Focused e' c' := by
  cases delegates with
  | unary => exact h.inherited (by simp [inheritors])
  | selection => exact (h.inherited (by simp [inheritors])).withOutput
  | @first op =>
    cases op with
    | path | filter => exact h.inherited (List.mem_singleton_self _)
    | _ => exact h.inherited (by simp [inheritors])
  | letBody xs | forBody xs => exact (h.inherited (by simp [inheritors])).setSlot _ xs
  | step hsize | predicate hsize => exact withFocus (h.consistent.operand (by simp)) h.rules _ _ hsize
  | @second op _ _ _ _ hop =>
    cases op with
    | path | filter => simp [Binary.isPlain] at hop
    | _ => exact h.inherited (by simp [inheritors])
  | connective => exact h.inherited (by simp [inheritors])
  | branch ha => exact h.inherited (by simpa [inheritors] using ha)
  | argument ha => exact h.inherited (by simpa [inheritors] using ha)

/-- Where the size is read there is one. -/
theorem size_eq {i : Info} (h : Focused (leaf .last i) c) : ∃ n, c.size = .ok n := by
  obtain ⟨f, hf, hsize⟩ := h.focus
  have reads : (leaf .last i).dependencies.last = true := by
    rw [dependencies, h.consistent.here.fresh]
    rfl
  obtain ⟨n, hn⟩ := Option.isSome_iff_exists.mp (hsize reads)
  exact ⟨n, by simp [Context.size, hf, hn]⟩

end Expr.Focused

/-! ### Expressions -/

variable {P : Cause → Prop} (ordinary : ∀ e : Cause, e.isOrdinary = true → P e)
  (internal : ∀ e : Cause, e.code? = some .QRIN0001 → P e) {d : Dispatcher} {c : Context}

include ordinary internal

namespace Expr

/-- Operators without operands find in the focus what they read. -/
theorem Focused.own {e : Expr} (hd : d.Confined P Context.RulesFocused) (h : Focused e c) : e.OwnConfined P d c := by
  obtain ⟨f, hf, -⟩ := h.focus
  have ready : c.RulesFocused := ⟨h.rules, by rw [hf]; rfl⟩
  have item : (Eval.ofExcept c.item).Confined P := by
    rw [Context.item, hf]
    exact .pure f.item
  cases e with
  | leaf op i =>
    cases op with
    | literal values => exact .literal ordinary values
    | contextItem => exact .contextItem ordinary item
    | position =>
      refine .position ordinary ?_
      rw [Context.position, hf]
      exact .pure f.position
    -- The size is known to an expression that depends on it.
    | last =>
      obtain ⟨n, hn⟩ := h.size_eq
      refine .last ordinary ?_
      rw [hn]
      exact .pure n
    | «variable» v type =>
      refine .variable ordinary (.ofExcept fun e he => ?_)
      unfold Context.slot at he
      split at he
      · cases he
      · obtain rfl := Except.error.inj he
        exact .of (internal _ rfl)
    | global name type => exact .global ordinary name
    | step axis test => exact .step ordinary item axis test
    | nextMatch => exact .ofProcess (hd.next _ c ready) (hd.next _ c.withOutput ready)
  | unary op a i =>
    cases op with
    | applyRules mode => exact fun xs => ⟨hd.apply xs mode _ c ready, hd.apply xs mode _ c.withOutput ready⟩
    | _ => trivial
  | binary op a b i => trivial
  | choice x y n i => trivial
  | variadic op args i =>
    cases op with
    | block => trivial
    | call function => exact fun _ => ⟨internal _ rfl, internal _ rfl⟩

theorem Focused.confined {e : Expr} (hd : d.Confined P Context.RulesFocused) (h : Focused e c) : (e.behaviour d).Confined P c :=
  confined_of_invariant ordinary Focused.delegates (Focused.own ordinary internal hd) h

/-- The actions and predicates of rules get a focus with a size. -/
theorem Focused.rulesConfined (hd : d.Confined P Context.RulesFocused) (hc : c.RulesFocused) :
    c.RulesConfined P d where
  action := by
    intro rules m index r hrules hm hr a position size
    have focused : r.action.Focused (m.actionContext rules.frameSize index a position size c) :=
      ⟨(hc.1 rules hrules m (List.mem_of_find?_eq_some hm) r (List.mem_of_getElem? hr)).action, ⟨_, rfl, fun _ => rfl⟩, hc.1⟩
    exact focused.confined ordinary internal hd
  condition := by
    intro rules m r hrules hm hr e he a
    have focused : e.Focused ((c.child rules.frameSize).withFocus a 1 (some 1)) :=
      ⟨(hc.1 rules hrules m (List.mem_of_find?_eq_some hm) r hr).conditions e he, ⟨_, rfl, fun _ => rfl⟩, hc.1⟩
    exact focused.confined ordinary internal hd
  complaint := by
    intro e complains
    cases complains with
    | item hf => simp [Context.RulesFocused, hf] at hc
    | _ => exact internal _ rfl

theorem Focused.dispatcher_confined (depth : Nat) : (dispatcherWithin depth).Confined P Context.RulesFocused :=
  dispatcherWithin_confined ordinary (internal _ rfl) (Focused.rulesConfined ordinary internal) depth

end Expr

omit ordinary internal

/-! ### The causes of one code -/

/-- No other code has the name of the one for a focus that is missing. -/
theorem ErrorCode.name_ne {k : ErrorCode} (h : k ≠ .XPDY0002) : k.name ≠ ErrorCode.XPDY0002.name := by
  cases k with
  | XPDY0002 => exact absurd rfl h
  | _ => decide

namespace Cause

variable {e : Cause}

theorem eq_raised_or_code? (e : Cause) : (∃ code message, e = raised code message) ∨ ∃ k, e.code? = some k := by
  cases e with
  | raised code message => exact .inl ⟨code, message, rfl⟩
  | _ => exact .inr ⟨_, rfl⟩

theorem code_eq {k : ErrorCode} (h : e.code? = some k) : e.code = k.name := by
  unfold Cause.code
  split
  · cases h
  · rw [h]
    rfl

theorem code_ne_of_internal (h : e.code? = some .QRIN0001) : e.code ≠ ErrorCode.XPDY0002.name := by
  rw [code_eq h]
  exact ErrorCode.name_ne (by decide)

theorem code_ne_of_ordinary (h : e.isOrdinary = true) : e.code ≠ ErrorCode.XPDY0002.name := by
  rcases e.eq_raised_or_code? with ⟨code, message, rfl⟩ | ⟨k, hk⟩
  · obtain rfl : code = ErrorCode.FOER0000.name := beq_iff_eq.mp h
    exact ErrorCode.name_ne (by decide)
  · rw [code_eq hk]
    refine ErrorCode.name_ne ?_
    rintro rfl
    unfold isOrdinary at h
    split at h
    · cases hk
    · simp [hk] at h

end Cause

/-! ### Where evaluation comes to -/

namespace Expr

/-- Evaluation of one expression in one context comes to evaluate another in another: an operand, however deep rules
may be applied there, or the action or a predicate of a rule, with whatever item and whatever size. -/
inductive Comes : Expr → Context → Expr → Context → Prop
  | here {e : Expr} {c : Context} : Comes e c e c
  | operand {depth : Nat} {e e' e'' : Expr} {c c' c'' : Context} :
      Evaluates (dispatcherWithin depth) e c e' c' → Comes e' c' e'' c'' → Comes e c e'' c''
  | action {rules : RuleSet} {m : Mode} {index : Nat} {r : Rule} {a : Item} {position size : Nat} {e e' : Expr}
      {c c' : Context} :
      c.rules? = some rules → m ∈ rules.modes → m.rule? index = some r →
        Comes r.action { (c.child rules.frameSize).withFocus a position (some size) with
          currentRule? := some ⟨m.name, index⟩ } e' c' → Comes e c e' c'
  | condition {rules : RuleSet} {m : Mode} {r : Rule} {a : Item} {e e' e'' : Expr} {c c' : Context} :
      c.rules? = some rules → m ∈ rules.modes → r ∈ m.rules → e' ∈ r.pattern.conditions →
        Comes e' ((c.child rules.frameSize).withFocus a 1 (some 1)) e'' c' → Comes e c e'' c'

variable {d : Dispatcher} {e e' : Expr} {c c' : Context}

theorem Evaluates.delegates (h : Evaluates d e c e' c') : Delegates e c e' c' := by
  have known {needed : Bool} {a : Expr} (h : needed = true) : (a.sizeIf d needed c).isSome = true := by
    rw [sizeIf, Behaviour.sizeIf, if_pos h]
    rfl
  cases h with
  | unary => exact .unary
  | selection => exact .selection
  | first => exact .first
  | letBody => exact .letBody _
  | forBody => exact .forBody _
  | step => exact .step known
  | predicate => exact .predicate known
  | second hop => exact .second hop
  | connective => exact .connective
  | condition | yes | no => exact .branch (by simp)
  | argument ha => exact .argument ha

/-- What is needed of the focus is there wherever evaluation comes to. -/
theorem Focused.comes (comes : Comes e c e' c') (h : Focused e c) : Focused e' c' := by
  induction comes with
  | here => exact h
  | operand evaluates _ ih => exact ih (h.delegates evaluates.delegates)
  | action hrules hm hr _ ih =>
    exact ih ⟨(h.rules _ hrules _ hm _ (List.mem_of_getElem? hr)).action, ⟨_, rfl, fun _ => rfl⟩, h.rules⟩
  | condition hrules hm hr he' _ ih =>
    exact ih ⟨(h.rules _ hrules _ hm _ hr).conditions _ he', ⟨_, rfl, fun _ => rfl⟩, h.rules⟩

/-! ### Compiled expressions -/

theorem Compiled.consistent (h : e.Compiled) : Throughout Consistent e := by
  obtain ⟨s, e₀, built, compiled⟩ := h
  exact consistent_compile ((constructed_of_built built).mono fun _ h => h.toConsistent) compiled

/-- **A focus with a size is enough.**  Take an expression as construction and compilation at any level give it, and
a context with a focus whose size is known and, if it has rules, with a table of rules made of such expressions.
Then evaluation never fails for want of a focus, whether it is pulled to the end, asked for an item or put
out, whatever the output and however deep rules may be applied.  And wherever it comes to read the size, in a
path, a filter, an action or a predicate of a rule, there is one. -/
theorem focus_never_missing {s : StaticContext} {e t : Expr} (built : e.Built true) (compiled : e.compile s = .ok t)
    {c : Context} {f : Focus} {n : Nat} (focus : c.focus? = some f) (size : f.size? = some n)
    (rules : ∀ rules, c.rules? = some rules → ∃ r frameSize, RuleSet.Assembled r ∧ rules = r.build frameSize)
    (depth : Nat) :
    (∀ err, ((t.behaviour (dispatcherWithin depth)).collect c).outcome = .error err →
      err.code ≠ ErrorCode.XPDY0002.name) ∧
    (∀ err, ((t.behaviour (dispatcherWithin depth)).item c).outcome = .error err →
      err.code ≠ ErrorCode.XPDY0002.name) ∧
    (∀ o err, ((t.behaviour (dispatcherWithin depth)).process c o).2.outcome = .error err →
      err.code ≠ ErrorCode.XPDY0002.name) ∧
    ∀ i c', t.Comes c (leaf .last i) c' → ∃ k, c'.size = .ok k := by
  have ready : c.RulesConsistent := by
    intro table htable
    obtain ⟨r, frameSize, assembled, rfl⟩ := rules table htable
    exact (assembled.over.mono fun _ h => h.consistent).build frameSize
  have focused : Focused t c :=
    ⟨Compiled.consistent ⟨s, e, built, compiled⟩, ⟨f, focus, fun _ => by rw [size]; rfl⟩, ready⟩
  have ordinary (e : Cause) := Cause.code_ne_of_ordinary (e := e)
  have internal (e : Cause) := Cause.code_ne_of_internal (e := e)
  have confined := focused.confined ordinary internal (Focused.dispatcher_confined ordinary internal depth)
  refine ⟨fun err h => (Eval.confined_iff.mp confined.collect err h).cause,
    fun err h => (Eval.confined_iff.mp confined.item err h).cause, fun o err h => ?_, fun i c' comes => ?_⟩
  · exact (Eval.confined_iff.mp (confined.process o fun _ => internal _ rfl).2 err h).cause
  · exact (focused.comes comes).size_eq

/-- The last child of a node, processed by the rules. -/
def selectLast : Expr :=
  (Unary.applyRules .unnamed).on
    (Binary.filter.on (.ofLeaf (.step .child .anyNode) .unknown) (.ofLeaf .last .unknown) .unknown) .unknown

/-- A node with two children, and a table of rules. -/
def parentOfTwo (rules : RuleSet) : Context :=
  { Context.initial (((Forest.empty.add ⟨.text, none, some "x", [], []⟩).add
      ⟨.text, none, some "y", [], []⟩).add ⟨.element, some ⟨none, .plain "a"⟩, none, [], [0, 1]⟩) with
    focus? := some ⟨.node 2, 1, some 1⟩, rules? := some rules }

/-- The last child is found, and processed by a rule that has the size in its predicate and in its action. -/
theorem focus_never_missing_selectLast :
    ∃ t numbers r, selectLast.compile .initial = .ok t ∧
      RuleSet.empty.addRule .initial .unnamed (.predicate .anyItem (.ofLeaf .last .unknown))
        (.ofLeaf .last .unknown) 0 none = .ok (numbers, r) ∧
      ((t.behaviour (dispatcherWithin 1)).collect (parentOfTwo (r.build 0))).outcome = .ok [.atomic (.integer 1)] ∧
      (∀ o err, ((t.behaviour (dispatcherWithin 1)).process (parentOfTwo (r.build 0)) o).2.outcome = .error err →
        err.code ≠ ErrorCode.XPDY0002.name) ∧
      ∀ i c', t.Comes (parentOfTwo (r.build 0)) (leaf .last i) c' → ∃ k, c'.size = .ok k := by
  obtain ⟨t, numbers, r, compiled, added, result⟩ : ∃ t numbers r, selectLast.compile .initial = .ok t ∧
      RuleSet.empty.addRule .initial .unnamed (.predicate .anyItem (.ofLeaf .last .unknown))
        (.ofLeaf .last .unknown) 0 none = .ok (numbers, r) ∧
      ((t.behaviour (dispatcherWithin 1)).collect (parentOfTwo (r.build 0))).outcome = .ok [.atomic (.integer 1)] :=
    ⟨_, _, _, rfl, rfl, by rfl⟩
  have built : selectLast.Built true := .applyRules _ _ (.filter _ (.step _ _ _) (.last _))
  have assembled : r.Assembled := by
    refine .addRule .empty (fun e he => ?_) (.last _) added
    obtain rfl : e = .ofLeaf .last .unknown := by simpa [Pattern.conditions] using he
    exact .last _
  obtain ⟨-, -, processed, sizes⟩ := focus_never_missing built compiled (c := parentOfTwo (r.build 0))
    (f := ⟨.node 2, 1, some 1⟩) (n := 1) rfl rfl
    (fun rules h => ⟨r, 0, assembled, (Option.some.inj h).symm⟩) 1
  exact ⟨t, numbers, r, compiled, added, result, processed, sizes⟩

end Expr

end TreeQuery
