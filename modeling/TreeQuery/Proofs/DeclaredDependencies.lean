/-
The declared dependencies on the focus.

An expression declares which parts of the focus it reads: the item, the position, the length of the sequence.
What it does not declare makes no difference to its result (`Expr.collect_eq_of_declared`), with one exception.
An expression that runs the next rule for the item it is evaluated for (`Expr.RunsNext`) declares only the
item, while the rule is given the position and the length as well; `Expr.not_collect_eq_of_declared` has
two contexts in which this can be seen.

Design notes: that running the next rule for another item, below a path or a filter, does not count is part of
`Expr.RunsNext`, which goes through the operands that inherit the focus only.
-/
import TreeQuery.Proofs.StaticProperties

namespace TreeQuery.Expr

variable {e : Expr}

theorem RunsNext.exists_inheritor (h : e.RunsNext) (he : e.operands ≠ []) :
    ∃ a ∈ e.inheritors, a.expr.RunsNext := by
  cases h with
  | nextMatch i => exact absurd rfl he
  | operand ha h => exact ⟨_, ha, h⟩

theorem RunsNext.eq_nextMatch {op : Leaf} {i : Info} (h : (leaf op i).RunsNext) : op = .nextMatch := by
  cases h with
  | nextMatch i => rfl
  | operand ha => cases ha

/-- Contexts whose focus differs in undeclared parts only agree, if no next rule is run. -/
theorem agree_of_declared (h : Throughout Consistent e) {c : Context} {f f' : Focus} (hc : c.focus? = some f)
    (item : e.dependencies.item = true → f.item = f'.item)
    (position : e.dependencies.position = true → f.position = f'.position)
    (size : e.dependencies.last = true → f.size? = f'.size?)
    (next : e.RunsNext → f.position = f'.position ∧ f.size? = f'.size?) :
    c.Agree e { c with focus? := some f' } where
  rest := rfl
  slots _ _ := rfl
  item hitem := by simp [Context.item, hc, item hitem]
  position hposition := by simp [Context.position, hc, position hposition]
  size hsize := by simp [Context.size, hc, size hsize]
  next hnext := by
    have hitem : f.item = f'.item := item (hnext.item h)
    obtain ⟨hposition, hsize⟩ := next hnext
    rw [hc]
    cases f
    cases f'
    simp_all

/-- **What an expression does not declare makes no difference.**  Take an expression as construction gives it,
and two contexts with a focus that differ in parts of the focus only, and only in parts that the dependencies of
the expression do not name.  Then evaluation to the end gives the same items, or the same error, in both, with
any tables of rules; but if the expression runs the next rule for the item of this focus, the position and
the length have to be the same even though they are not named. -/
theorem collect_eq_of_declared (built : e.Built true) (depth : Nat) (c c' : Context) (f f' : Focus)
    (hc : c.focus? = some f) (hc' : c' = { c with focus? := some f' })
    (item : e.dependencies.item = true → f.item = f'.item)
    (position : e.dependencies.position = true → f.position = f'.position)
    (size : e.dependencies.last = true → f.size? = f'.size?)
    (next : e.RunsNext → f.position = f'.position ∧ f.size? = f'.size?) :
    (e.behaviour (dispatcherWithin depth)).collect c = (e.behaviour (dispatcherWithin depth)).collect c' := by
  subst hc'
  have consistent : Throughout Consistent e := (constructed_of_built built).mono fun _ h => h.toConsistent
  have agree := agree_of_declared consistent hc item position size next
  rw [Behaviour.collect, Behaviour.collect, iterate_eq_of_agree (dispatcherWithin_isLocal depth) consistent agree]

/-- The last child of a node: the position of the node and the number of its siblings do not matter, though
the expression reads the number of children. -/
theorem collect_eq_of_declared_lastChild :
    let e := Binary.filter.on (.ofLeaf (.step .child .anyNode) .unknown) (.ofLeaf .last .unknown) .unknown
    let c := { Context.initial (((Forest.empty.add ⟨.text, none, some "x", [], []⟩).add
      ⟨.text, none, some "y", [], []⟩).add ⟨.element, some ⟨none, .plain "a"⟩, none, [], [0, 1]⟩) with
        focus? := some ⟨.node 2, 1, some 1⟩ }
    let c' := { c with focus? := some ⟨.node 2, 3, none⟩ }
    e.Built true ∧ e.dependencies.position = false ∧ e.dependencies.last = false ∧ ¬ e.RunsNext ∧
      (e.behaviour (dispatcherWithin 1)).collect c = (e.behaviour (dispatcherWithin 1)).collect c' ∧
      ((e.behaviour (dispatcherWithin 1)).collect c').outcome = .ok [.node 1] := by
  intro e c c'
  have built : e.Built true := .filter _ (.step _ _ _) (.last _)
  have quiet : ¬ e.RunsNext := by
    intro h
    obtain ⟨a, ha, h⟩ := h.exists_inheritor (List.cons_ne_nil _ _)
    obtain rfl := List.mem_singleton.mp ha
    exact Leaf.noConfusion (RunsNext.eq_nextMatch h)
  have position : e.dependencies.position = false := rfl
  have size : e.dependencies.last = false := rfl
  have same := collect_eq_of_declared built 1 c c' ⟨.node 2, 1, some 1⟩ ⟨.node 2, 3, none⟩ rfl rfl (fun _ => rfl)
    (by simp [position]) (by simp [size]) fun h => absurd h quiet
  exact ⟨built, position, size, quiet, same, by rfl⟩

/-- Two rules for all items: the lower one gives the position, the upper one nothing. -/
def positionBelow : RuleSet :=
  let m := ((Mode.initial .unnamed).add .anyItem (.ofLeaf .position .unknown) 0 none).2.add .anyItem .empty 1 none
  ⟨[m.2.rank], 0⟩

/-- The upper rule is running. -/
def underPositionBelow (f : Focus) : Context :=
  { Context.initial .empty with
    focus? := some f, rules? := some positionBelow, currentRule? := some ⟨.unnamed, 1⟩ }

/-- What runs the next rule does not declare the position. -/
theorem not_collect_eq_of_declared :
    ¬ ∀ (e : Expr), e.Built true → ∀ (depth : Nat) (c c' : Context) (f f' : Focus), c.focus? = some f →
      c' = { c with focus? := some f' } →
      (e.dependencies.item = true → f.item = f'.item) →
      (e.dependencies.position = true → f.position = f'.position) →
      (e.dependencies.last = true → f.size? = f'.size?) →
      (e.behaviour (dispatcherWithin depth)).collect c = (e.behaviour (dispatcherWithin depth)).collect c' := by
  intro h
  let first : Focus := ⟨.atomic (.integer 5), 1, some 2⟩
  let second : Focus := ⟨.atomic (.integer 5), 2, some 2⟩
  have same := h _ (.nextMatch .unknown) 2 (underPositionBelow first) (underPositionBelow second) first second rfl
    rfl (fun _ => rfl) (by decide) (by decide)
  have one : (((Expr.ofLeaf .nextMatch .unknown).behaviour (dispatcherWithin 2)).collect
      (underPositionBelow first)).outcome = .ok [.atomic (.integer 1)] := by rfl
  have two : (((Expr.ofLeaf .nextMatch .unknown).behaviour (dispatcherWithin 2)).collect
      (underPositionBelow second)).outcome = .ok [.atomic (.integer 2)] := by rfl
  rw [same, two] at one
  cases one

end TreeQuery.Expr
