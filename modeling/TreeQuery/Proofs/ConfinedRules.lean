/-
Rules that fail for causes of a class only.

Application of rules adds to what actions and predicates complain of a few causes of its own: there may be no rules,
modes may be missing or not ranked, there may be no item to look for the next rule with, and an item may have no
rule or no output to go to.  The last two are ordinary causes, and of the others (`Context.RulesComplain`) there is
none where the rules of a context are in order.  So running rules is confined to a class of causes if the actions and
predicates of the rules are, and if the class holds what the rules of the context may complain of.

Main statements:

* `applyWithin_confined`, `nextMatch_confined` — one application of rules, given what actions and predicates do;
* `dispatcherWithin_confined` — rules that apply rules, by induction on the depth.

Design notes: what contexts rules are run in is a parameter, a condition that a user chooses.  A number that a search
gives is the number of a rule, so that only the number of the current rule may be one of no rule.
-/
import TreeQuery.Proofs.BestRule
import TreeQuery.Proofs.ConfinedEvaluation
import TreeQuery.Proofs.RuleContents
import TreeQuery.Proofs.SearchFailures

namespace TreeQuery

/-- What running rules complains of by itself: rules, modes, ranks or an item that a context does not have. -/
inductive Context.RulesComplain (c : Context) : Cause → Prop
  | tables {current : CurrentRule} :
      c.currentRule? = some current → c.rules? = none → RulesComplain c .noRuleTables
  | mode {current : CurrentRule} {rules : RuleSet} :
      c.currentRule? = some current → c.rules? = some rules → rules.mode? current.mode = none →
        RulesComplain c (.undefinedMode current.mode)
  | rule {current : CurrentRule} {rules : RuleSet} {m : Mode} :
      c.currentRule? = some current → c.rules? = some rules → rules.mode? current.mode = some m →
        m.rule? current.index = none → RulesComplain c (.noSuchRule current.index m.name)
  | item : c.focus? = none → RulesComplain c .nextMatchWithoutItem
  | rank {rules : RuleSet} {m : Mode} :
      c.rules? = some rules → rules.mode? m.name = some m → m.ranked = false → RulesComplain c (.unranked m.name)

/-- The context in which the action of a rule is run. -/
def Mode.actionContext (m : Mode) (frameSize index : Nat) (a : Item) (position size : Nat) (c : Context) : Context :=
  { (c.child frameSize).withFocus a position (some size) with currentRule? := some ⟨m.name, index⟩ }

/-- Whether running rules fails for causes of a class only, in contexts of a kind. -/
structure Dispatcher.Confined (P : Cause → Prop) (R : Context → Prop) (d : Dispatcher) : Prop where
  apply : ∀ xs mode l (c : Context), R c → (d.apply xs mode l c).Confined P
  next : ∀ l (c : Context), R c → (d.next l c).Confined P

/-- Whether the rules of a context fail for causes of a class only: their actions, the predicates of their patterns,
and what they complain of by themselves. -/
structure Context.RulesConfined (P : Cause → Prop) (d : Dispatcher) (c : Context) : Prop where
  action : ∀ {rules : RuleSet} {m : Mode} {index : Nat} {r : Rule}, c.rules? = some rules →
    rules.mode? m.name = some m → m.rule? index = some r → ∀ (a : Item) (position size : Nat),
      (r.action.behaviour d).Confined P (m.actionContext rules.frameSize index a position size c)
  condition : ∀ {rules : RuleSet} {m : Mode} {r : Rule}, c.rules? = some rules → rules.mode? m.name = some m →
    r ∈ m.rules → ∀ e ∈ r.pattern.conditions, ∀ a : Item,
      (e.behaviour d).Confined P ((c.child rules.frameSize).withFocus a 1 (some 1))
  complaint : ∀ e : Cause, c.RulesComplain e → P e

theorem RuleSet.name_of_mode? {rules : RuleSet} {name : ModeName} {m : Mode} (h : rules.mode? name = some m) :
    m.name = name := by
  simpa using List.find?_some h

variable {P : Cause → Prop} {R : Context → Prop} {d : Dispatcher} {c : Context}

/-! ### Patterns -/

mutual

/-- A pattern is tested by its predicates, each with the item alone in the focus. -/
theorem Pattern.accepts_confined : ∀ {p : Pattern},
    (∀ e ∈ p.conditions, ∀ a, ((e.behaviour d).holdsAt (c.withFocus a 1 (some 1)) 1).Confined P) →
      ∀ a : Item, (p.accepts d c a).Confined P
  | .anyItem, _, _ | .node _, _, _ | .atomic _, _, _ | .underParent _ _, _, .atomic _ => by
    rw [accepts]
    trivial
  | .underParent step parent, h, .node n => by
    rw [conditions] at h
    rw [accepts]
    split
    · split
      · exact Pattern.accepts_confined h _
      · trivial
    · trivial
  | .predicate base condition, h, a => by
    rw [conditions, List.forall_mem_append] at h
    rw [accepts]
    refine (Pattern.accepts_confined h.1 a).bind fun matched => ?_
    split
    · exact h.2 condition (List.mem_singleton_self _) a
    · trivial
  | .union branches, h, a => by
    rw [conditions] at h
    rw [accepts]
    exact Pattern.acceptsAny_confined h a

theorem Pattern.acceptsAny_confined : ∀ {ps : List Pattern},
    (∀ e ∈ conditionsOf ps, ∀ a, ((e.behaviour d).holdsAt (c.withFocus a 1 (some 1)) 1).Confined P) →
      ∀ a : Item, (acceptsAny d c ps a).Confined P
  | [], _, _ => by
    rw [acceptsAny]
    trivial
  | p :: rest, h, a => by
    rw [conditionsOf, List.forall_mem_append] at h
    rw [acceptsAny]
    refine (Pattern.accepts_confined h.1 a).bind fun matched => ?_
    split
    · trivial
    · exact Pattern.acceptsAny_confined h.2 a

end

/-! ### Searches -/

namespace Mode

variable {m : Mode}

/-- A search fails only where a test does, or because the rules are not ranked, and what it finds is a rule. -/
theorem search_ends {chains : List (List Nat)} {test : Rule → Eval Bool} {limit? : Option Rule}
    (unranked : m.ranked = false → P (.unranked m.name))
    (h : ∀ i r, m.rule? i = some r → (test r).Confined P) :
    (m.search chains test limit?).Ends P fun found? => ∀ i, found? = some i → ∃ r, m.rule? i = some r := by
  cases hranked : m.ranked with
  | false =>
    rw [search, if_neg (by simp [hranked])]
    exact .fail (.of (unranked hranked))
  | true =>
    unfold Eval.Ends
    cases hsearch : (m.search chains test limit?).outcome with
    | error e =>
      obtain ⟨i, -, r, hr, hfails⟩ := failsIn_of_search hranked hsearch
      exact Eval.confined_iff.mp (h i r hr) e hfails
    | ok found? =>
      rintro i rfl
      exact exists_rule_of_search hsearch

end Mode

section Rules

variable {m : Mode} {rules : RuleSet} (hrules : c.rules? = some rules) (hm : rules.mode? m.name = some m)
  (confined : c.RulesConfined P d)

namespace Mode

section

variable (ordinary : ∀ e : Cause, e.isOrdinary = true → P e)
include ordinary hrules hm confined

theorem test_confined {i : Nat} {r : Rule} (hr : m.rule? i = some r) (a b : Item) (position : Nat)
    (size? : Option Nat) :
    (r.pattern.accepts d ((c.child rules.frameSize).withFocus a position size?) b).Confined P := by
  refine Pattern.accepts_confined (fun e he item => ?_) b
  exact (confined.condition hrules hm (List.mem_of_getElem? hr) e he item).holdsAt ordinary 1

theorem bestRule_ends (a b : Item) (position : Nat) (size? : Option Nat) :
    (m.bestRule d b ((c.child rules.frameSize).withFocus a position size?)).Ends P
      fun found? => ∀ i, found? = some i → ∃ r, m.rule? i = some r :=
  search_ends (fun hranked => confined.complaint _ (.rank hrules hm hranked)) fun _ _ hr =>
    test_confined hrules hm confined ordinary hr a b position size?

theorem nextRule_ends {current : Nat} (missing : m.rule? current = none → P (.noSuchRule current m.name))
    (a b : Item) (position : Nat) (size? : Option Nat) :
    (m.nextRule d current b ((c.child rules.frameSize).withFocus a position size?)).Ends P
      fun found? => ∀ i, found? = some i → ∃ r, m.rule? i = some r := by
  unfold nextRule
  cases hlimit : m.rule? current with
  | none => exact .fail (.of (missing hlimit))
  | some limit =>
    exact search_ends (fun hranked => confined.complaint _ (.rank hrules hm hranked)) fun _ _ hr =>
      test_confined hrules hm confined ordinary hr a b position size?

end

include hrules hm confined in
theorem invoke_confined {index : Nat} {r : Rule} (hr : m.rule? index = some r) (a : Item) (position size : Nat) :
    (m.invoke d rules.frameSize index a position size c).Confined P := by
  unfold invoke
  rw [hr]
  exact (confined.action hrules hm hr a position size).process

end Mode

/-! ### Application -/

variable {l : Location} (ordinary : ∀ e : Cause, e.isOrdinary = true → P e)
include ordinary

theorem NoMatch.process_confined {below : List Nat → Push Unit} (h : ∀ ns, (below ns).Confined P) (n : NoMatch)
    (mode : ModeName) (a : Item) : (n.process below mode l c a).Confined P := by
  have delivered (a : Item) : (Push.deliver c.hasOutput l a).Confined P := .deliver ordinary _ l a
  cases n with
  | deepSkip => exact .pure ()
  | deepCopy => exact delivered a
  | fail => exact .fail (.of (ordinary _ rfl))
  | shallowSkip =>
    cases a with
    | atomic v => exact .pure ()
    | node n =>
      simp only [NoMatch.process]
      split
      · exact h _
      · exact .pure ()
  | textOnlyCopy =>
    cases a with
    | atomic v => exact delivered _
    | node n =>
      simp only [NoMatch.process]
      cases c.forest.kind n with
      | document | element => exact h _
      | text | «attribute» => exact delivered _
      | comment | processingInstruction => exact .pure ()

include confined

/-- The walk through the tree, by induction on the levels that it may still go down. -/
theorem applyWithin_confined (mode : ModeName) (levels : Nat) (xs : Sequence) :
    (applyWithin d mode l c levels xs).Confined P := by
  induction levels generalizing xs with
  | zero => exact .pure ()
  | succ levels ih =>
    simp only [applyWithin]
    refine .forEach (.ofList xs) fun before a => ?_
    cases hm : (c.rules?.getD .empty).mode? mode with
    | none => exact NoMatch.process_confined ordinary (fun ns => ih _) _ mode a
    | some m =>
      obtain rfl : m.name = mode := RuleSet.name_of_mode? hm
      -- Without rules there is no mode.
      obtain ⟨rules, hrules⟩ : ∃ rules, c.rules? = some rules := by
        cases hrules : c.rules? with
        | none => simp [hrules, RuleSet.mode?, RuleSet.empty] at hm
        | some rules => exact ⟨rules, rfl⟩
      simp only [hrules, Option.getD_some] at hm ⊢
      refine .bindLift (Mode.bestRule_ends hrules hm confined ordinary a a _ _) fun i? hi => ?_
      cases i? with
      | none => exact NoMatch.process_confined ordinary (fun ns => ih _) _ m.name a
      | some i =>
        obtain ⟨r, hr⟩ := hi i rfl
        exact Mode.invoke_confined hrules hm confined hr a _ _

theorem nextMatch_confined : (nextMatch d l c).Confined P := by
  unfold nextMatch
  cases hcurrent : c.currentRule? with
  | none => exact .fail (.of (ordinary _ rfl))
  | some current =>
    cases hrules : c.rules? with
    | none => exact .fail (.of (confined.complaint _ (.tables hcurrent hrules)))
    | some rules =>
      simp only
      cases hm : rules.mode? current.mode with
      | none => exact .fail (.of (confined.complaint _ (.mode hcurrent hrules hm)))
      | some m =>
        have here : rules.mode? m.name = some m := RuleSet.name_of_mode? hm ▸ hm
        cases hf : c.focus? with
        | none => exact .fail (.of (confined.complaint _ (.item hf)))
        | some f =>
          have missing (h : m.rule? current.index = none) : P (.noSuchRule current.index m.name) :=
            confined.complaint _ (.rule hcurrent hrules hm h)
          refine .bindLift (Mode.nextRule_ends hrules here confined ordinary missing f.item f.item _ _) fun i? hi => ?_
          cases i? with
          | none =>
            exact NoMatch.process_confined ordinary
              (fun ns => applyWithin_confined confined ordinary current.mode _ _) _ _ _
          | some i =>
            obtain ⟨r, hr⟩ := hi i rfl
            exact Mode.invoke_confined hrules here confined hr _ _ _

end Rules

/-- Rules fail for causes of a class only if the rules of contexts do, by induction on the depth of their
application. -/
theorem dispatcherWithin_confined (ordinary : ∀ e : Cause, e.isOrdinary = true → P e) (deep : P .tooDeep)
    (ready : ∀ {d : Dispatcher} {c : Context}, d.Confined P R → R c → c.RulesConfined P d) (depth : Nat) :
    (dispatcherWithin depth).Confined P R := by
  induction depth with
  | zero => exact ⟨fun _ _ _ _ _ => .fail (.of deep), fun _ _ _ => .fail (.of deep)⟩
  | succ depth ih =>
    exact ⟨fun xs mode _ _ hc => applyWithin_confined (ready ih hc) ordinary mode _ xs,
      fun _ _ hc => nextMatch_confined (ready ih hc) ordinary⟩

end TreeQuery
