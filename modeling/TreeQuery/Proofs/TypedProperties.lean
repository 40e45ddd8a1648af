/-
Properties before and after typing.

What can be typed has some length (`Expr.possible_of_typedIn`), and so has what typing leaves of it
(`Expr.possible_typedIn`), if what is declared has.  What typing leaves reads no more of the focus than what it is made
of (`Expr.focusWithin_typedIn`).

A context suits what is declared (`Context.Suits`) if global and local variables have values of their types.  What
typing leaves belongs to its type there (`Context.Suits.accepting`), and has no more items than its cardinality allows
(`Context.Suits.le_greatest`).  If trees are proper besides (`Context.Conforms`), all its properties describe what it
comes to (`Context.Conforms.describes`).
-/
import TreeQuery.Proofs.ItemTypes

namespace TreeQuery

namespace Expr

variable {s : StaticContext} {d : Dispatcher} {scope : Scope} {e e' r t x : Expr} {a b : Operand} {i : Info}
  {c c' : Context} {checks : Bool}

/-! ### Expressions that have some length -/

/-- A check of which it is not known that it fails asks for some length. -/
theorem possible_check {required : Cardinality} {b : Operand} {j : Info}
    (ht : typedHere s (unary (.check required) b j) = .ok r) :
    (unary (.check required) a i).computed.cardinality ≠ .impossible := by
  have hrequired : required ≠ .impossible := by
    rintro rfl
    change typedCheck .impossible _ b.expr = .ok r at ht
    have hinter : b.expr.cardinality.inter .impossible = .impossible := by
      simp [Cardinality.inter, Cardinality.impossible]
    unfold typedCheck at ht
    simp only [hinter, if_true] at ht
    split at ht <;> simp at ht
  simp only [computed, Properties.ofUnary]
  split
  · exact hrequired
  · assumption

/-- The only guards that construction puts in are checks. -/
theorem Constructed.exists_check (h : e.Constructed checks) (guard : e.isGuard = true) :
    ∃ required a i, e = unary (.check required) a i := by
  have raw := h.raw
  rcases e with _ | ⟨op, a, i⟩ | _ | _ | _
  case unary =>
    cases op with
    | check required => exact ⟨required, a, i, rfl⟩
    | convert _ _ => exact raw.elim
    | _ => cases guard
  all_goals cases guard

/-- What can be typed has some length. -/
theorem possible_of_typedIn (h : Throughout (Constructed checks) e) (ht : typedIn s scope e = .ok t) :
    e.cardinality ≠ .impossible := by
  induction e using inductOperands generalizing scope t with
  | h e ih =>
    obtain ⟨e', r, operands, hr, -⟩ := exists_typedHere ht
    rw [← refresh_eq_self h.here.fresh]
    cases guard : e.isGuard with
    | false =>
      refine possible_refresh guard ?_ fun _ a ha => ?_
      · rintro op i rfl
        exact possible_untyped h.here.isUntyped
      · obtain ⟨scope', t', ha'⟩ := operands.exists_typed ha
        exact ih a ha (h.operand ha) ha'
    | true =>
      obtain ⟨required, a, i, rfl⟩ := h.here.exists_check guard
      cases operands
      rw [cardinality, props_refresh]
      exact possible_check hr

theorem possible_collapseEmpty (h : r.cardinality ≠ .impossible) : r.collapseEmpty.cardinality ≠ .impossible := by
  refine collapseEmpty_induction (P := fun e => e.cardinality ≠ .impossible) h ?_
  rw [cardinality_replacing]
  exact possible_literal _ _

theorem possible_typedLeaf {op : Leaf} (h : op.IsUntyped) (hscope : scope.Possible) :
    (Properties.ofLeaf (op.typed scope)).cardinality ≠ .impossible := by
  cases op with
  | «variable» v type =>
    obtain rfl : type = none := h
    show (((scope.type? v.id).or none).getD .any).cardinality ≠ .impossible
    cases htype : scope.type? v.id with
    | none => nofun
    | some type => exact hscope v.id type htype
  | _ => exact possible_untyped h

/-- Typed operands have some length, if what typing leaves of an operand has wherever the scope allows for it. -/
theorem OperandsTyped.possible (operands : OperandsTyped s scope e e') (hscope : scope.Possible)
    (value : ∀ a ∈ e.operands, ∀ scope' t, scope'.Possible → typedIn s scope' a.expr = .ok t →
      t.cardinality ≠ .impossible) : ∀ a' ∈ e'.operands, a'.expr.cardinality ≠ .impossible := by
  have scopes := possible_scope (e := e') hscope fun a' _ hmem _ => by
    obtain ⟨a, ha, htyped⟩ := operands.exists_typedIn_of_mem hmem
    exact value a ha scope _ hscope htyped
  intro a' ha'
  obtain ⟨scope', hmem⟩ := mem_operandsIn_of_operand scope ha'
  obtain ⟨a, ha, htyped⟩ := operands.exists_typedIn_of_mem hmem
  exact value a ha _ _ (scopes _ hmem) htyped

/-- What typing leaves has some length, if what is declared has. -/
theorem possible_typedIn (h : Throughout (Constructed checks) e) (hs : s.GlobalsPossible) (hscope : scope.Possible)
    (ht : typedIn s scope e = .ok t) : t.cardinality ≠ .impossible := by
  induction e using inductOperands generalizing scope t with
  | h e ih =>
    obtain ⟨e', r, operands, hr, rfl⟩ := exists_typedHere ht
    refine possible_collapseEmpty ?_
    have parts := operands.possible hscope fun a ha _ _ hscope' htyped => ih a ha (h.operand ha) hscope' htyped
    have here : e'.refresh.cardinality ≠ .impossible := by
      cases guard : e.isGuard with
      | false =>
        refine possible_refresh (operands.isGuard_eq.trans guard) ?_ fun _ => parts
        rintro op i rfl
        cases operands
        exact possible_typedLeaf h.here.isUntyped hscope
      | true =>
        obtain ⟨required, a, i, rfl⟩ := h.here.exists_check guard
        cases operands
        rw [cardinality, props_refresh]
        exact possible_check hr
    generalize hm : e'.refresh = m at hr here
    -- A change puts in an operand, a value, or an operator whose lengths are always possible.
    cases types_of_typedHere hr with
    | stays => exact here
    | nothing | value =>
      rw [cardinality_replacing]
      exact possible_literal _ _
    | holds hholds =>
      rw [cardinality_replacing]
      refine parts _ ?_
      have := hholds.mem_operands
      rwa [← hm, operands_refresh] at this
    | global htype =>
      rw [cardinality, props_refresh]
      exact hs _ _ htype
    | arithmetic | compare =>
      rw [cardinality, props_refresh]
      exact possible_pair _ _
    | cast =>
      rw [cardinality, props_refresh]
      simp only [computed, Properties.ofUnary]
      split <;> rintro ⟨⟩

/-! ### What is read of the focus -/

theorem focusWithin_wrapped (e : Expr) (op : Unary) : (e.wrapped op).dependencies.FocusWithin e.dependencies := by
  rw [dependencies, wrapped, ofUnary, props_refresh]
  refine computed_focusWithin (fun a ha => ?_) fun h => by cases h
  obtain rfl := List.mem_singleton.mp ha
  exact .refl _

theorem focusWithin_atomized (e : Expr) : e.atomized.dependencies.FocusWithin e.dependencies :=
  atomized_induction (P := fun x => x.dependencies.FocusWithin e.dependencies) (.refl _) (focusWithin_wrapped e _)

theorem focusWithin_prepared (e : Expr) (target : AtomicType) (conversion : Conversion) :
    (e.prepared target conversion).dependencies.FocusWithin e.dependencies :=
  prepared_induction (P := fun x => x.dependencies.FocusWithin e.dependencies) (.refl _)
    (fun x op h => (focusWithin_wrapped x op).trans h) target conversion

/-- Operands that read no more of the focus make an operator that reads no more of it. -/
theorem focusWithin_refresh {m : Expr} (fresh : m.Fresh)
    (operands : ∀ a ∈ e.operands, ∃ b ∈ m.operands,
      a.role = b.role ∧ a.expr.dependencies.FocusWithin b.expr.dependencies)
    (leaf : e.operands = [] → e.computed.dependencies.FocusWithin m.computed.dependencies) :
    e.refresh.dependencies.FocusWithin m.dependencies := by
  rw [dependencies, props_refresh, dependencies, fresh]
  refine computed_focusWithin (fun a ha => ?_) leaf
  obtain ⟨b, hb, hrole, hwithin⟩ := operands a ha
  refine .trans ?_ (focusWithin_computed hb)
  unfold Properties.dependenciesFrom
  rw [hrole]
  split
  · exact .withoutFocus _ _
  · exact hwithin

theorem KnownToHold.mem_inheritors (h : KnownToHold e a) : a ∈ e.inheritors := by
  cases h <;> simp [inheritors]

theorem Types.focusWithin (h : Types s e r) (consistent : e.Consistent) :
    r.dependencies.FocusWithin e.dependencies := by
  have pair {op op' : Binary} {a b : Operand} {x y : Expr} {i j : Info}
      (hx : x.dependencies.FocusWithin a.expr.dependencies)
      (hy : y.dependencies.FocusWithin b.expr.dependencies) (fresh : (binary op a b j).Fresh) :
      (binary op' ⟨a.role, x⟩ ⟨b.role, y⟩ i).refresh.dependencies.FocusWithin (binary op a b j).dependencies := by
    refine focusWithin_refresh fresh (fun z hz => ?_) fun h => by cases h
    simp only [operands_binary, List.mem_cons, List.not_mem_nil, or_false] at hz
    rcases hz with rfl | rfl
    · exact ⟨a, by simp, rfl, hx⟩
    · exact ⟨b, by simp, rfl, hy⟩
  cases h with
  | stays => exact .refl _
  | global => exact focusWithin_refresh consistent.fresh (by simp) fun _ => .refl _
  | nothing | value => exact ((ReadsWithin.literal _ _ _).replacing _).focus
  | holds h => exact ((ReadsWithin.refl _).replacing _).focus.trans (consistent.focusWithin h.mem_inheritors)
  | arithmetic _ _ hx hy =>
    subst hx hy
    exact pair (focusWithin_prepared _ _ _) (focusWithin_prepared _ _ _) consistent.fresh
  | compare => exact pair (focusWithin_prepared _ _ _) (focusWithin_prepared _ _ _) consistent.fresh
  | @cast target allowsEmpty a i =>
    refine focusWithin_refresh consistent.fresh (fun z hz => ?_) fun h => by cases h
    obtain rfl := List.mem_singleton.mp hz
    exact ⟨a, by simp, rfl, focusWithin_atomized _⟩

theorem OperandsTyped.consistent (h : OperandsTyped s scope e e') (he : e.Consistent) : e'.refresh.Consistent where
  fresh := by simp
  roles := by simpa using h.roles he.roles

/-- What typing leaves reads no more of the focus. -/
theorem focusWithin_typedIn (h : Throughout Consistent e) (ht : typedIn s scope e = .ok t) :
    t.dependencies.FocusWithin e.dependencies := by
  induction e using inductOperands generalizing scope t with
  | h e ih =>
    obtain ⟨e', r, operands, types, rfl⟩ := exists_types ht
    have here : e'.refresh.dependencies.FocusWithin e.dependencies := by
      refine focusWithin_refresh h.here.fresh (fun a' ha' => ?_) fun hnil => ?_
      · obtain ⟨a, ha, hrole, scope', htyped⟩ := operands.exists_typedIn ha'
        exact ⟨a, ha, hrole, ih a ha (h.operand ha) htyped⟩
      · cases operands with
        | leaf op i => cases op <;> exact .refl _
        | variadic hargs =>
          obtain rfl := hnil
          cases hargs
          exact .refl _
        | _ => cases hnil
    exact collapseEmpty_induction (P := fun t => t.dependencies.FocusWithin e.dependencies)
      ((types.focusWithin (operands.consistent h.here)).trans here) ((ReadsWithin.literal _ _ _).replacing _).focus

end Expr

/-! ### Contexts that conform -/

/-- Whether global variables have values of their declared types, and local variables have values of the types in
scope. -/
structure Context.Suits (s : StaticContext) (scope : Scope) (c : Context) : Prop where
  globals : c.GlobalsConform s
  matching : c.GlobalsMatch s
  locals : c.LocalsFit False scope
  localsMatch : c.LocalsMatch c.forest scope

namespace Context.Suits

variable {s : StaticContext} {d : Dispatcher} {scope : Scope} {t : Expr} {c : Context}

open TreeQuery.Expr

/-- What typing leaves belongs to its type where it is evaluated. -/
theorem accepting (h : c.Suits s scope) (parts : Everywhere (Checked s) scope t) : Accepting d t c :=
  Typesafe.accepting ⟨parts, h.matching, h.localsMatch⟩

theorem sound (h : c.Suits s scope) (parts : Everywhere (Annotated true s) scope t) : Sound False s d scope t c :=
  ⟨parts, h.globals, h.locals, False.elim⟩

/-- The number of items that it comes to is not too great for its cardinality. -/
theorem le_greatest (h : c.Suits s scope) (welltyped : WellTyped true s scope t) :
    min (t.run d c).items.length 2 ≤ t.cardinality.greatest :=
  welltyped.2.le_greatest welltyped.1.here.fresh (h.sound welltyped.1).fits

end Context.Suits

/-- Whether global variables have values of their declared types, and local variables have values of the types in
scope, over proper trees. -/
structure Context.Conforms (s : StaticContext) (scope : Scope) (c : Context) : Prop where
  proper : c.forest.Proper
  globals : c.GlobalsConform s
  matching : c.GlobalsMatch s
  locals : c.LocalsFit False scope
  localsMatch : c.LocalsMatch c.forest scope

namespace Context.Conforms

variable {s : StaticContext} {d : Dispatcher} {scope : Scope} {e t : Expr} {c c' : Context} {checks : Bool}

theorem of_sameVariables (h : c.Conforms s scope) (same : c'.SameVariables c) : c'.Conforms s scope where
  proper := by
    rw [same.forest]
    exact h.proper
  globals := by
    unfold Context.GlobalsConform Context.global
    rw [same.globals]
    exact h.globals
  matching := by
    unfold Context.GlobalsMatch Context.global
    rw [same.globals, same.forest]
    exact h.matching
  locals := Context.LocalsHold.of_sameVariables h.locals same
  localsMatch := by
    rw [same.forest]
    exact Context.LocalsHold.of_sameVariables h.localsMatch same

/-- A value of the declared type for a variable. -/
theorem setSlot (h : c.Conforms s scope) {v : Binding} (hv : v.Allocated) {type : SequenceType} {xs : Sequence}
    (hlength : min xs.length 2 ≤ type.cardinality.greatest) (hpossible : type.cardinality ≠ .impossible)
    (hitems : ∀ x ∈ xs, type.item.accepts c.forest x = true) :
    (c.setSlot v.slot xs).Conforms s ((v.id, type) :: scope) where
  proper := h.proper
  globals := h.globals
  matching := h.matching
  locals := Context.LocalsHold.setSlot h.locals hv ⟨False.elim, hlength, hpossible⟩
  localsMatch := Context.LocalsHold.setSlot h.localsMatch hv hitems

open TreeQuery.Expr

theorem suits (h : c.Conforms s scope) : c.Suits s scope := ⟨h.globals, h.matching, h.locals, h.localsMatch⟩

/-- The properties of what typing leaves describe what it comes to. -/
theorem describes (h : c.Conforms s scope) (welltyped : WellTyped true s scope t) : t.Describes d t c where
  items := ⟨h.suits.le_greatest welltyped, (h.suits.sound welltyped.1).ordered h.proper⟩
  axis axis n haxis hn := by
    obtain ⟨test, i, rfl⟩ := exists_step haxis
    rw [run_step, hn]
    exact List.filter_sublist.map _

end Context.Conforms

end TreeQuery
