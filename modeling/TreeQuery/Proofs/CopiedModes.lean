/-
Copies of modes.

The predicates in the patterns of a copy have variables of their own, and all else in the table stays as it is.  If
nothing in a rule refers to a variable from outside (`Expr.SelfContained`), then every rule can be copied, the copy
of its pattern accepts what the pattern accepts (`Pattern.exists_copy`), and a search that tests the copies goes the
same way as one that tests the originals (`Mode.search_sameCode`):

* `Mode.copy_dispatches` — a copy of a mode has the same table and finds the same rules, or fails with the same code.

Design notes: searches are compared for any two modes with the same table and any two tests that agree, since the
search for the next rule is the same search with a limit, and the report of conflicts tests rules once more.
-/
import TreeQuery.Proofs.CopiedResults
import TreeQuery.Proofs.RuleContents
import TreeQuery.Proofs.ScopedTrees

namespace TreeQuery

/-! ### Copies of expressions without free variables -/

namespace Expr

variable {e : Expr}

/-- Whether an expression has no free variables and declares no variable twice.  Its variables have slots of their own,
as they have wherever construction and compilation lead to (`Scoped.selfContained`). -/
structure SelfContained (e : Expr) : Prop where
  closed : e.free = []
  distinct : (e.declared.map (·.id)).Nodup
  slots : HaveOwnSlots (e.declared ++ e.references)

/-- The slots are no matter for what construction gives (`scoped_of_free`) and for what is compiled from it
(`Scoped.compile`). -/
theorem Scoped.selfContained {vs : Nat → Prop} (h : Scoped vs e) (closed : e.free = [])
    (distinct : (e.declared.map (·.id)).Nodup) : e.SelfContained :=
  ⟨closed, distinct, haveOwnSlots_of_id_eq_slot h.id_eq_slot⟩

/-- Whether two expressions come to the same in every context, or fail with the same code. -/
def EvaluatesLike (e e' : Expr) : Prop :=
  ∀ depth c, (e.run (dispatcherWithin depth) c).SameCode (e'.run (dispatcherWithin depth) c)

/-- There is a copy whatever has been copied before, and it evaluates like the original. -/
theorem SelfContained.exists_copy (h : e.SelfContained) (m : Rebinding) :
    ∃ e' m', e.copy.run.run m = (.ok e', m') ∧ e.EvaluatesLike e' := by
  have redirects : Redirects (m.target e.declared) m e.free e.declared := by
    refine .target ?_ h.distinct ?_ <;> simp [h.closed]
  refine ⟨_, _, run_copy redirects, fun depth c => ?_⟩
  have separates : Separates (m.target e.declared) e :=
    separates_of_redirects redirects h.slots (by simp [h.closed])
  have renamed : Context.Renamed (m.target e.declared) e.free c c := ⟨rfl, by simp [h.closed]⟩
  exact (resembles_rename (dispatcherWithin_isLocal depth) (dispatcherWithin_overlooks depth) separates renamed).run

end Expr

/-! ### Copies of patterns -/

namespace Pattern

/-- Whether two patterns accept the same items in every context, or fail with the same code. -/
def AcceptsLike (p p' : Pattern) : Prop :=
  ∀ depth c a,
    SameCode (p.accepts (dispatcherWithin depth) c a).result (p'.accepts (dispatcherWithin depth) c a).result

/-- The same of lists of patterns, one of which has to accept an item. -/
def AnyAcceptsLike (ps ps' : List Pattern) : Prop :=
  ∀ depth c a,
    SameCode (acceptsAny (dispatcherWithin depth) c ps a).result (acceptsAny (dispatcherWithin depth) c ps' a).result

variable {p p' parent parent' : Pattern} {ps ps' : List Pattern} {e e' : Expr}

theorem AcceptsLike.refl (p : Pattern) : p.AcceptsLike p := fun _ _ _ => .refl _

theorem AcceptsLike.underParent (h : parent.AcceptsLike parent') (step : NodeTest) :
    (underParent step parent).AcceptsLike (.underParent step parent') := by
  intro depth c a
  cases a with
  | atomic v => exact .refl _
  | node n =>
    rw [accepts, accepts]
    split
    · split
      · exact h depth c _
      · exact .refl _
    · exact .refl _

theorem AcceptsLike.predicate (h : p.AcceptsLike p') (he : e.EvaluatesLike e') :
    (predicate p e).AcceptsLike (.predicate p' e') := by
  intro depth c a
  rw [accepts, accepts, Eval.result_bind, Eval.result_bind]
  refine (h depth c a).bind fun matched _ => ?_
  split
  · rw [Behaviour.result_holdsAt, Behaviour.result_holdsAt]
    exact (he depth _).holdsAt 1
  · exact .refl _

theorem AcceptsLike.union (h : AnyAcceptsLike ps ps') : (union ps).AcceptsLike (.union ps') := by
  intro depth c a
  rw [accepts, accepts]
  exact h depth c a

theorem AnyAcceptsLike.cons (h : p.AcceptsLike p') (hps : AnyAcceptsLike ps ps') :
    AnyAcceptsLike (p :: ps) (p' :: ps') := by
  intro depth c a
  rw [acceptsAny, acceptsAny, Eval.result_bind, Eval.result_bind]
  refine (h depth c a).bind fun matched _ => ?_
  split
  · exact .refl _
  · exact hps depth c a

mutual

/-- A pattern can be copied if its predicates can, and its copy accepts the same. -/
theorem exists_copy : ∀ {p : Pattern}, (∀ e ∈ p.conditions, e.SelfContained) → ∀ m : Rebinding,
    ∃ p' m', p.copy.run.run m = (.ok p', m') ∧ p.AcceptsLike p'
  | .anyItem, _, m | .node _, _, m | .atomic _, _, m => by
    refine ⟨_, m, ?_, .refl _⟩
    simp only [copy]
    rfl
  | .underParent step parent, h, m => by
    rw [conditions] at h
    obtain ⟨parent', m', hparent, alike⟩ := exists_copy h m
    refine ⟨_, m', ?_, alike.underParent step⟩
    rw [copy, run_bind_of_ok hparent]
    rfl
  | .predicate base condition, h, m => by
    rw [conditions, List.forall_mem_append] at h
    obtain ⟨base', m', hbase, alike⟩ := exists_copy h.1 m
    obtain ⟨condition', m'', hcondition, evaluates⟩ := (h.2 condition (List.mem_singleton_self _)).exists_copy m'
    refine ⟨_, m'', ?_, alike.predicate evaluates⟩
    rw [copy, run_bind_of_ok hbase, run_bind_of_ok hcondition]
    rfl
  | .union branches, h, m => by
    rw [conditions] at h
    obtain ⟨branches', m', hbranches, alike⟩ := exists_copyAll h m
    refine ⟨_, m', ?_, .union alike⟩
    rw [copy, run_bind_of_ok hbranches]
    rfl

theorem exists_copyAll : ∀ {ps : List Pattern}, (∀ e ∈ conditionsOf ps, e.SelfContained) → ∀ m : Rebinding,
    ∃ ps' m', (copyAll ps).run.run m = (.ok ps', m') ∧ AnyAcceptsLike ps ps'
  | [], _, m => by
    refine ⟨[], m, ?_, fun _ _ _ => .refl _⟩
    rw [copyAll]
    rfl
  | p :: rest, h, m => by
    rw [conditionsOf, List.forall_mem_append] at h
    obtain ⟨p', m', hp, alike⟩ := exists_copy h.1 m
    obtain ⟨rest', m'', hrest, alikeRest⟩ := exists_copyAll h.2 m'
    refine ⟨_, m'', ?_, .cons alike alikeRest⟩
    rw [copyAll, run_bind_of_ok hp, run_bind_of_ok hrest]
    rfl

end

end Pattern

/-! ### Copies of rules -/

/-- Whether a rule refers to no variable from outside, in the predicates of its pattern and, if its action is not
shared with its copy, in its action. -/
structure Rule.SelfContained (shareAction : Bool) (r : Rule) : Prop where
  conditions : ∀ e ∈ r.pattern.conditions, e.SelfContained
  action : shareAction = false → r.action.SelfContained

/-- Whether two rules have the same place in their tables and accept the same items. -/
structure Rule.DispatchesLike (r r' : Rule) : Prop extends r.Alike r' where
  accepts : r.pattern.AcceptsLike r'.pattern

theorem Rule.Alike.isBelow {r r' s s' : Rule} (hr : r.Alike r') (hs : s.Alike s') : r'.isBelow s' = r.isBelow s := by
  unfold Rule.isBelow
  rw [hr.rank, hs.rank, hr.sequence, hs.sequence]

namespace Mode

theorem exists_copyRule {r : Rule} {shareAction : Bool} (h : r.SelfContained shareAction) (m : Rebinding) :
    ∃ r' m', (copyRule r shareAction).run.run m = (.ok r', m') ∧ r.DispatchesLike r' := by
  -- Whether the action is copied or shared, what remains is to copy the pattern.
  obtain ⟨action, m', haction⟩ : ∃ action m', (copyRule r shareAction).run.run m =
      (do return { r with pattern := ← r.pattern.copy, action } : Copying Rule).run.run m' := by
    rw [copyRule]
    split
    case isTrue => exact ⟨r.action, m, rfl⟩
    case isFalse hshare =>
      obtain ⟨action, m', haction, -⟩ := (h.action (by simpa using hshare)).exists_copy m
      exact ⟨action, m', run_bind_of_ok haction⟩
  obtain ⟨pattern, m'', hpattern, accepts⟩ := Pattern.exists_copy h.conditions m'
  have run : (copyRule r shareAction).run.run m = (.ok { r with pattern, action }, m'') := by
    rw [haction, run_bind_of_ok hpattern]
    rfl
  exact ⟨_, m'', run, alike_of_copyRule ⟨m, m'', run⟩, accepts⟩

theorem exists_copyRules {rules : List Rule} {shareActions : Bool}
    (h : ∀ r ∈ rules, r.SelfContained shareActions) (a : Allocator) :
    ∃ rules' a', (copyRules shareActions rules).run.run a = (.ok rules', a') ∧
      List.Forall₂ Rule.DispatchesLike rules rules' := by
  induction rules generalizing a with
  | nil => exact ⟨[], a, rfl, .nil⟩
  | cons r rest ih =>
    obtain ⟨hr, hrest⟩ := List.forall_mem_cons.mp h
    obtain ⟨r', m, hcopy, like⟩ := exists_copyRule hr (.initial a)
    obtain ⟨rest', a', hcopies, likes⟩ := ih hrest m.allocator
    refine ⟨r' :: rest', a', ?_, .cons like likes⟩
    replace hcopy : (copyRule r shareActions).run (.initial a) = (.ok r', m) := hcopy
    rw [copyRules]
    refine (run_bind_of_ok rfl).trans ?_
    simp only [hcopy]
    refine (run_bind_of_ok rfl).trans ?_
    refine (run_bind_of_ok hcopies).trans ?_
    rfl

/-! ### Searches side by side -/

section Searches

variable {m m' : Mode} {test test' : Rule → Eval Bool} {limit? limit'? : Option Rule}

/-- The rules with a number, if there are any. -/
theorem Alike.rule_cases (h : m.Alike m') (i : Nat) :
    (m.rule? i = none ∧ m'.rule? i = none) ∨
      ∃ r r', m.rule? i = some r ∧ m'.rule? i = some r' ∧ r.Alike r' := by
  cases hr : m.rule? i with
  | none =>
    refine .inl ⟨rfl, Option.eq_none_iff_forall_ne_some.mpr fun r' hr' => ?_⟩
    obtain ⟨r, hsome, -⟩ := h.exists_rule' hr'
    cases hr.symm.trans hsome
  | some r =>
    obtain ⟨r', hr', alike⟩ := h.exists_rule hr
    exact .inr ⟨r, r', rfl, hr', alike⟩

theorem Alike.rel_bind (h : m.Alike m') (best? : Option Nat) :
    Option.Rel Rule.Alike (best?.bind m.rule?) (best?.bind m'.rule?) := by
  cases best? with
  | none => exact .none
  | some i =>
    rcases h.rule_cases i with ⟨hr, hr'⟩ | ⟨r, r', hr, hr', alike⟩
    · rw [Option.bind_some, Option.bind_some, hr, hr']
      exact .none
    · rw [Option.bind_some, Option.bind_some, hr, hr']
      exact .some alike

/-- A comparison with a rule that may be missing. -/
theorem any_eq_of_rel {p p' : Rule → Bool} {r? r'? : Option Rule} (h : Option.Rel Rule.Alike r? r'?)
    (hp : ∀ r r', r.Alike r' → p' r' = p r) : r'?.any p' = r?.any p := by
  cases h with
  | none => rfl
  | some alike => exact hp _ _ alike

/-- Whether two modes have the same table and options, and tests agree on the rules with the same numbers. -/
structure SearchesLike (test test' : Rule → Eval Bool) (m m' : Mode) : Prop extends m.Alike m' where
  ranked : m'.ranked = m.ranked
  detectConflicts : m'.detectConflicts = m.detectConflicts
  tests : ∀ i r r', m.rule? i = some r → m'.rule? i = some r' → SameCode (test r).result (test' r').result

variable (h : SearchesLike test test' m m') (hlimit : Option.Rel Rule.Alike limit? limit'?)
include h

section

include hlimit

theorem searchChain_sameCode (best? : Option Nat) (chain : List Nat) :
    SameCode (m.searchChain test limit? best? chain).result (m'.searchChain test' limit'? best? chain).result := by
  induction chain with
  | nil => exact .refl _
  | cons i rest ih =>
    rw [searchChain, searchChain]
    rcases h.rule_cases i with ⟨hr, hr'⟩ | ⟨r, r', hr, hr', alike⟩
    · rw [hr, hr']
      exact ih
    · simp only [hr, hr', any_eq_of_rel hlimit fun s s' hs => congrArg not (alike.isBelow hs),
        any_eq_of_rel (h.rel_bind best?) fun b b' hb => congrArg not (hb.isBelow alike), alike.alwaysMatches]
      split
      · exact ih
      split
      · exact .refl _
      split
      · exact .refl _
      rw [Eval.result_bind, Eval.result_bind]
      refine (h.tests i r r' hr hr').bind fun matched _ => ?_
      split
      · exact .refl _
      · exact ih

theorem searchChains_sameCode (best? : Option Nat) (chains : List (List Nat)) :
    SameCode (m.searchChains test limit? best? chains).result (m'.searchChains test' limit'? best? chains).result := by
  induction chains generalizing best? with
  | nil => exact .refl _
  | cons chain rest ih =>
    rw [searchChains, searchChains, Eval.result_bind, Eval.result_bind]
    exact (searchChain_sameCode h hlimit best? chain).bind fun better? _ => ih better?

end

theorem reportChain_sameCode {chosen chosen' : Rule} (hchosen : chosen.Alike chosen') (index : Nat) (chain : List Nat) :
    SameCode (m.reportChain test index chosen chain).result (m'.reportChain test' index chosen' chain).result := by
  induction chain with
  | nil => exact .refl _
  | cons i rest ih =>
    rw [reportChain, reportChain]
    rcases h.rule_cases i with ⟨hr, hr'⟩ | ⟨r, r', hr, hr', alike⟩
    · rw [hr, hr']
      exact ih
    · simp only [hr, hr', alike.rank, hchosen.rank]
      split
      · exact .refl _
      split
      · rw [Eval.result_bind, Eval.result_bind]
        refine (h.tests i r r' hr hr').bind fun matched _ => ?_
        -- The warnings differ, but they do not end anything.
        split
        · rw [Eval.result_bind, Eval.result_bind]
          exact TreeQuery.SameCode.bind (.refl _) fun _ _ => ih
        · exact ih
      · exact ih

theorem reportChains_sameCode {chosen chosen' : Rule} (hchosen : chosen.Alike chosen') (index : Nat)
    (chains : List (List Nat)) :
    SameCode (m.reportChains test index chosen chains).result (m'.reportChains test' index chosen' chains).result := by
  induction chains with
  | nil => exact .refl _
  | cons chain rest ih =>
    rw [reportChains, reportChains, Eval.result_bind, Eval.result_bind]
    exact (reportChain_sameCode h hchosen index chain).bind fun _ _ => ih

include hlimit

/-- A search finds the same, or fails with the same code. -/
theorem search_sameCode (chains : List (List Nat)) :
    SameCode (m.search chains test limit?).result (m'.search chains test' limit'?).result := by
  rw [search, search, h.ranked, h.detectConflicts]
  split
  case isFalse => exact .failed rfl
  case isTrue =>
    rw [Eval.result_bind, Eval.result_bind]
    refine (searchChains_sameCode h hlimit none chains).bind fun best? _ => ?_
    cases best? with
    | none => exact .refl _
    | some i =>
      simp only
      split
      case isFalse => exact .refl _
      case isTrue =>
        rcases h.rule_cases i with ⟨hr, hr'⟩ | ⟨r, r', hr, hr', alike⟩
        · rw [hr, hr']
          exact .refl _
        · simp only [hr, hr']
          rw [Eval.result_bind, Eval.result_bind]
          exact (reportChains_sameCode h alike i chains).bind fun _ _ => .refl _

end Searches

/-! ### Copies of modes -/

theorem Alike.chainsFor {m m' : Mode} (h : m.Alike m') (f : Forest) (a : Item) :
    m'.chainsFor f a = m.chainsFor f a := by
  have chainOf : m'.chainOf = m.chainOf := funext h.chainOf
  rw [Mode.chainsFor, Mode.chainsFor, chainOf, h.general]

/-- What a search comes to, seen from the codes. -/
theorem mapError_code_of_sameCode {x y : Eval (Option Nat)} (h : SameCode x.result y.result) :
    y.outcome.mapError Error.code = x.outcome.mapError Error.code := by
  have code (z : Eval (Option Nat)) : z.result.mapError Cause.code = z.outcome.mapError Error.code := by
    unfold Eval.result
    cases z.outcome <;> rfl
  rw [← code, ← code]
  exact h.mapError_code.symm

/-- **A copy of a mode dispatches like the mode.**  Suppose that no predicate of a pattern has free variables or
declares a variable twice, and no action either, unless actions are shared.  Then there is a copy, whatever was
handed out before.  It differs from the mode in its rules only, all of which have the places of their originals, and in
every context it finds the same rules for an item, the best one and the next one below any given one, or fails with
the same code. -/
theorem copy_dispatches (m : Mode) (shareActions : Bool) (a : Allocator)
    (h : ∀ r ∈ m.rules, r.SelfContained shareActions) :
    ∃ m' a', (m.copy shareActions).run.run a = (.ok m', a') ∧ m' = { m with rules := m'.rules } ∧ m.Alike m' ∧
      ∀ depth item c,
        (m'.bestRule (dispatcherWithin depth) item c).outcome.mapError Error.code =
          (m.bestRule (dispatcherWithin depth) item c).outcome.mapError Error.code ∧
        ∀ index, (m'.nextRule (dispatcherWithin depth) index item c).outcome.mapError Error.code =
          (m.nextRule (dispatcherWithin depth) index item c).outcome.mapError Error.code := by
  obtain ⟨rules, a', hcopy, like⟩ := exists_copyRules h a
  have alike : m.Alike { m with rules } := ⟨like.imp fun _ _ h => h.toAlike, rfl, rfl, rfl⟩
  refine ⟨{ m with rules }, a', run_bind_of_ok hcopy, rfl, alike, fun depth item c => ?_⟩
  have searches : SearchesLike (fun r => r.pattern.accepts (dispatcherWithin depth) c item)
      (fun r => r.pattern.accepts (dispatcherWithin depth) c item) m { m with rules } := by
    refine ⟨alike, rfl, rfl, fun i r r' hr hr' => ?_⟩
    obtain ⟨hi, rfl⟩ := List.getElem?_eq_some_iff.mp hr
    obtain ⟨hi', rfl⟩ := List.getElem?_eq_some_iff.mp hr'
    exact (like.get hi hi').accepts depth c item
  refine ⟨mapError_code_of_sameCode ?_, fun index => mapError_code_of_sameCode ?_⟩
  · rw [bestRule, bestRule, alike.chainsFor]
    exact search_sameCode searches .none _
  · rw [nextRule, nextRule, alike.chainsFor]
    rcases alike.rule_cases index with ⟨hr, hr'⟩ | ⟨r, r', hr, hr', hlimit⟩
    · rw [hr, hr']
      exact .failed rfl
    · rw [hr, hr']
      exact search_sameCode searches (.some hlimit) _

/-- A predicate that declares a variable and holds. -/
def boundTruth : Expr :=
  let x : Binding := ⟨0, ⟨none, "x"⟩, 0⟩
  (Binary.letIn x).on (.literal [.boolean true] .unknown) (.ofLeaf (.variable x none) .unknown) .unknown

/-- In the copy of a rule with such a predicate and a rule for all items, the first of them is found and then the
second. -/
theorem copy_dispatches_boundTruth :
    let m := (((Mode.initial .unnamed).add (.predicate .anyItem boundTruth) .empty 1 none).2.add
      .anyItem .empty 1 none).2.rank
    m.ranked = true ∧ (∀ r ∈ m.rules, r.SelfContained false) ∧
      ∃ m' a', (m.copy false).run.run ⟨1, 1⟩ = (.ok m', a') ∧ ∀ depth forest,
        (m'.bestRule (dispatcherWithin depth) (.atomic (.integer 5)) (.initial forest)).outcome.mapError Error.code =
          .ok (some 0) ∧
        (m'.nextRule (dispatcherWithin depth) 0 (.atomic (.integer 5)) (.initial forest)).outcome.mapError Error.code =
          .ok (some 1) := by
  intro m
  have empty : Expr.empty.SelfContained := ⟨rfl, .nil, fun v hv => by cases hv⟩
  have bound : boundTruth.SelfContained := by
    have allocated : Binding.Allocated ⟨0, ⟨none, "x"⟩, 0⟩ := ⟨.initial, _, .initial, rfl⟩
    have built : boundTruth.Built false := .letIn _ allocated (.literal _ _) (.reference _ allocated)
    have standsInScope : boundTruth.Scoped fun _ => False :=
      Expr.scoped_of_free (Expr.constructed_of_built built) fun v hv => by cases hv
    exact standsInScope.selfContained rfl (by decide)
  have h : ∀ r ∈ m.rules, r.SelfContained false := by
    intro r hr
    have contents : m.rules.map (fun r => (r.pattern.conditions, r.action)) = [([boundTruth], .empty), ([], .empty)] :=
      rfl
    have hmem : (r.pattern.conditions, r.action) ∈ m.rules.map fun r => (r.pattern.conditions, r.action) :=
      List.mem_map_of_mem hr
    rw [contents, List.mem_pair, Prod.mk.injEq, Prod.mk.injEq] at hmem
    rcases hmem with ⟨hconditions, haction⟩ | ⟨hconditions, haction⟩
    · exact ⟨by simpa [hconditions] using bound, fun _ => haction ▸ empty⟩
    · exact ⟨by simp [hconditions], fun _ => haction ▸ empty⟩
  refine ⟨rfl, h, ?_⟩
  obtain ⟨m', a', hcopy, -, -, same⟩ := copy_dispatches m false ⟨1, 1⟩ h
  refine ⟨m', a', hcopy, fun depth forest => ?_⟩
  obtain ⟨best, next⟩ := same depth (.atomic (.integer 5)) (.initial forest)
  exact ⟨best.trans rfl, (next 0).trans rfl⟩

end Mode

end TreeQuery
