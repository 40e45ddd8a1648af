/-
What rules are made of.

A rule evaluates its action and the predicates of its pattern (`Pattern.conditions`).  What holds of all these
expressions in the rules of a mode, or of all modes, is kept by the operations on them: compilation of a pattern
compiles its predicates, a union that is taken apart has those of its branches, and ranking changes no expression.

Main statements:

* `Pattern.exists_condition_of_compile` — the predicates of a compiled pattern are compiled predicates;
* `Mode.Over.add`, `Mode.Over.rank` — what holds of the expressions in a mode, and of those in a rule, holds after
  the rule is added, and after ranking;
* `RuleSet.Assembled.over` — tables of rules hold compiled expressions only.

Design notes: rules are added to a table by `RuleSet.addRule`, which compiles them, but a mode may also be changed
at will.  `RuleSet.Assembled` allows every change that brings in nothing but compiled expressions.
-/
import TreeQuery.Program
import TreeQuery.Proofs.Ranking
import TreeQuery.Proofs.Structure

namespace TreeQuery

variable {s : StaticContext} {Q Q' : Expr → Prop}

/-! ### Patterns -/

namespace Pattern

mutual

/-- The predicates in a pattern. -/
def conditions : Pattern → List Expr
  | underParent _ parent => conditions parent
  | predicate base condition => conditions base ++ [condition]
  | union ps => conditionsOf ps
  | _ => []

/-- The predicates in a list of patterns. -/
def conditionsOf : List Pattern → List Expr
  | [] => []
  | p :: rest => conditions p ++ conditionsOf rest

end

mutual

/-- The predicates of a compiled pattern are compiled predicates. -/
theorem exists_condition_of_compile : ∀ {p q : Pattern}, p.compile s = .ok q →
    ∀ t ∈ q.conditions, ∃ e ∈ p.conditions, e.compile s = .ok t
  | anyItem, _, h | node _, _, h | atomic _, _, h => by
    obtain rfl := Except.ok.inj h
    simp [conditions]
  | underParent _ parent, _, h => by
    rw [compile] at h
    obtain ⟨parent', hparent, rest⟩ := bind_eq_ok_iff.mp h
    obtain rfl := Except.ok.inj rest
    simpa [conditions] using exists_condition_of_compile hparent
  | predicate base condition, _, h => by
    rw [compile] at h
    obtain ⟨base', hbase, rest⟩ := bind_eq_ok_iff.mp h
    obtain ⟨condition', hcondition, rest⟩ := bind_eq_ok_iff.mp rest
    obtain rfl := Except.ok.inj rest
    intro t ht
    rw [conditions, List.mem_append, List.mem_singleton] at ht
    rcases ht with ht | rfl
    · obtain ⟨e, he, compiled⟩ := exists_condition_of_compile hbase t ht
      exact ⟨e, by simp [conditions, he], compiled⟩
    · exact ⟨condition, by simp [conditions], hcondition⟩
  | union ps, _, h => by
    rw [compile] at h
    obtain ⟨ps', hps, rest⟩ := bind_eq_ok_iff.mp h
    obtain rfl := Except.ok.inj rest
    simpa [conditions] using exists_condition_of_compileAll hps

theorem exists_condition_of_compileAll : ∀ {ps qs : List Pattern}, compileAll s ps = .ok qs →
    ∀ t ∈ conditionsOf qs, ∃ e ∈ conditionsOf ps, e.compile s = .ok t
  | [], _, h => by
    obtain rfl := Except.ok.inj h
    simp [conditionsOf]
  | p :: rest, _, h => by
    rw [compileAll] at h
    obtain ⟨p', hp, more⟩ := bind_eq_ok_iff.mp h
    obtain ⟨rest', hrest, more⟩ := bind_eq_ok_iff.mp more
    obtain rfl := Except.ok.inj more
    intro t ht
    rw [conditionsOf, List.mem_append] at ht
    rcases ht with ht | ht
    · obtain ⟨e, he, compiled⟩ := exists_condition_of_compile hp t ht
      exact ⟨e, by simp [conditionsOf, he], compiled⟩
    · obtain ⟨e, he, compiled⟩ := exists_condition_of_compileAll hrest t ht
      exact ⟨e, by simp [conditionsOf, he], compiled⟩

end

mutual

theorem mem_conditions_of_branch : ∀ {p q : Pattern}, q ∈ p.branches → ∀ e ∈ q.conditions, e ∈ p.conditions
  | union ps, q, h => by
    rw [branches] at h
    rw [conditions]
    exact mem_conditionsOf_of_branch h
  | anyItem, _, h | node _, _, h | atomic _, _, h | underParent _ _, _, h | predicate _ _, _, h => by
    simp only [branches, List.mem_singleton] at h
    subst h
    exact fun _ he => he

theorem mem_conditionsOf_of_branch : ∀ {ps : List Pattern} {q : Pattern}, q ∈ branchesOf ps →
    ∀ e ∈ q.conditions, e ∈ conditionsOf ps
  | [], _, h => by simp [branchesOf] at h
  | p :: rest, q, h => by
    rw [branchesOf, List.mem_append] at h
    intro e he
    rw [conditionsOf, List.mem_append]
    rcases h with h | h
    · exact .inl (mem_conditions_of_branch h e he)
    · exact .inr (mem_conditionsOf_of_branch h e he)

end

end Pattern

/-! ### Modes and tables -/

/-- Whether everything that a rule evaluates has a property: its action and the predicates of its pattern. -/
structure Rule.Over (Q : Expr → Prop) (r : Rule) : Prop where
  action : Q r.action
  conditions : ∀ e ∈ r.pattern.conditions, Q e

/-- Whether all that the rules of a mode evaluate has a property. -/
def Mode.Over (Q : Expr → Prop) (m : Mode) : Prop := ∀ r ∈ m.rules, r.Over Q

/-- Whether all that the rules of a table evaluate has a property. -/
def RuleSet.Over (Q : Expr → Prop) (r : RuleSet) : Prop := ∀ m ∈ r.modes, m.Over Q

namespace Mode.Over

variable {m : Mode}

theorem initial (name : ModeName) : (Mode.initial name).Over Q := by simp [Mode.Over, Mode.initial]

theorem declare (h : m.Over Q) {p : Pattern} (hp : ∀ e ∈ p.conditions, Q e) {action : Expr} (ha : Q action)
    (precedence : Int) (priority : Float) : (m.declare action precedence priority p).Over Q := by
  intro r hr
  simp only [Mode.declare, rules_push, List.mem_append, List.mem_singleton] at hr
  rcases hr with hr | rfl
  · exact h r hr
  · exact ⟨ha, hp⟩

theorem add (h : m.Over Q) {p : Pattern} (hp : ∀ e ∈ p.conditions, Q e) {action : Expr} (ha : Q action)
    (precedence : Int) (priority : Option Float) : (m.add p action precedence priority).2.Over Q := by
  suffices fold : ∀ (parts : List Pattern) {m : Mode}, m.Over Q → (∀ q ∈ parts, ∀ e ∈ q.conditions, Q e) →
      (parts.foldl (fun m q => m.declare action precedence (priority.getD q.defaultPriority) q) m).Over Q by
    refine fold _ h ?_
    cases priority with
    | some x => simpa using hp
    | none => exact fun q hq e he => hp e (Pattern.mem_conditions_of_branch hq e he)
  intro parts
  induction parts with
  | nil => exact fun h _ => h
  | cons q parts ih =>
    intro m h hparts
    rw [List.forall_mem_cons] at hparts
    exact ih (h.declare hparts.1 ha precedence _) hparts.2

theorem rank (h : m.Over Q) : m.rank.Over Q := by
  intro r hr
  obtain ⟨r', hr', rfl⟩ := List.mem_map.mp hr
  exact ⟨(h r' hr').action, (h r' hr').conditions⟩

end Mode.Over

namespace RuleSet

variable {r : RuleSet}

namespace Over

theorem mono (h : r.Over Q) (hQ : ∀ e, Q e → Q' e) : r.Over Q' := fun m hm s hs =>
  ⟨hQ _ (h m hm s hs).action, fun e he => hQ e ((h m hm s hs).conditions e he)⟩

theorem modify (h : r.Over Q) {change : Mode → Mode} (hchange : ∀ m : Mode, m.Over Q → (change m).Over Q)
    (name : ModeName) : (r.modify name change).Over Q := by
  unfold RuleSet.modify
  split <;> intro m hm
  · obtain ⟨m', hm', rfl⟩ := List.mem_map.mp hm
    split
    · exact hchange m' (h m' hm')
    · exact h m' hm'
  · rcases List.mem_append.mp hm with hm | hm
    · exact h m hm
    · obtain rfl := List.mem_singleton.mp hm
      exact hchange _ (.initial name)

theorem build (h : r.Over Q) (frameSize : Nat) : (r.build frameSize).Over Q := by
  intro m hm
  obtain ⟨m', hm', rfl⟩ := List.mem_map.mp hm
  exact (h m' hm').rank

end Over

end RuleSet

/-- Whether an expression comes from construction and compilation, at any level of optimization. -/
def Expr.Compiled (t : Expr) : Prop := ∃ (s : StaticContext) (e : Expr), e.Built true ∧ e.compile s = .ok t

namespace RuleSet

/-- Tables of rules as they come about: rules are compiled and added, and modes are changed in any way that puts
only compiled expressions into them. -/
inductive Assembled : RuleSet → Prop
  | empty : Assembled .empty
  | addRule {r r' : RuleSet} {s : StaticContext} {mode : ModeName} {p : Pattern} {action : Expr} {precedence : Int}
      {priority : Option Float} {numbers : List Nat} :
      Assembled r → (∀ e ∈ p.conditions, e.Built true) → action.Built true →
        r.addRule s mode p action precedence priority = .ok (numbers, r') → Assembled r'
  | configure {r : RuleSet} {change : Mode → Mode} (name : ModeName) :
      Assembled r → (∀ m : Mode, m.Over Expr.Compiled → (change m).Over Expr.Compiled) →
        Assembled (r.modify name change)

theorem Assembled.over {r : RuleSet} (h : r.Assembled) : r.Over Expr.Compiled := by
  induction h with
  | empty => simp [RuleSet.Over, RuleSet.empty]
  | configure name _ hchange ih => exact ih.modify hchange name
  | @addRule r r' s mode p action precedence priority numbers _ hp ha hadded ih =>
    obtain ⟨pattern, hpattern, rest⟩ := bind_eq_ok_iff.mp hadded
    obtain ⟨compiled, hcompiled, rest⟩ := bind_eq_ok_iff.mp rest
    obtain rfl : _ = r' := congrArg Prod.snd (Except.ok.inj rest)
    refine ih.modify (fun m hm => hm.add (fun t ht => ?_) ⟨s, action, ha, hcompiled⟩ precedence priority) mode
    obtain ⟨e, he, compiledCondition⟩ := Pattern.exists_condition_of_compile hpattern t ht
    exact ⟨s, e, hp e he, compiledCondition⟩

end RuleSet

end TreeQuery
