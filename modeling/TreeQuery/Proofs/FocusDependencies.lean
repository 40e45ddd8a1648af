/-
What an evaluation depends on.

Two contexts agree for an expression (`Context.Agree`) if they differ at most in slots that it does not
refer to and in those parts of the focus that its dependencies do not name; two lengths of which only the
value of the largest integer can be seen count as one.  An expression that runs the next
rule for the item it is evaluated for (`Expr.RunsNext`) depends on the whole focus, whatever its dependencies
say.

Main statements:

* `Expr.iterate_eq_of_agree` — evaluation is the same in contexts that agree;
* `Expr.run_withLocation` — the place of an expression changes nothing that is computed.
-/
import TreeQuery.Proofs.Opening
import TreeQuery.Proofs.Placement
import TreeQuery.Proofs.TypedTrees

namespace TreeQuery

/-! ### Rules -/

/-- Whether rules do not depend on the variables of the expression that runs them and, if they are applied to
given items, not on its focus. -/
structure Dispatcher.IsLocal (d : Dispatcher) : Prop where
  apply : ∀ xs mode l (c : Context) focus? frame,
    d.apply xs mode l { c with focus?, frame } = d.apply xs mode l c
  next : ∀ l (c : Context) frame, d.next l { c with frame } = d.next l c

/-- Rules that are applied to given items depend neither on the focus nor on variables. -/
theorem applyWithin_withFocus (d : Dispatcher) (mode : ModeName) (l : Location) (c : Context)
    (focus? : Option Focus) (frame : List (Option Sequence)) (levels : Nat) (xs : Sequence) :
    applyWithin d mode l { c with focus?, frame } levels xs = applyWithin d mode l c levels xs := by
  induction levels generalizing xs with
  | zero => rfl
  | succ levels ih =>
    simp only [applyWithin, ih]
    congr 1

theorem dispatcherWithin_isLocal (depth : Nat) : (dispatcherWithin depth).IsLocal := by
  cases depth with
  | zero => exact ⟨fun _ _ _ _ _ _ => rfl, fun _ _ _ => rfl⟩
  | succ depth =>
    refine ⟨fun xs mode l c focus? frame => applyWithin_withFocus _ mode l c focus? frame _ xs,
      fun l c frame => ?_⟩
    simp only [dispatcherWithin, nextMatch, applyAll]
    simp only [applyWithin_withFocus _ _ l c c.focus? frame]
    rfl

/-! ### Dependencies -/

/-- Whether the parts of the focus that are read are among others. -/
structure Dependencies.FocusWithin (a b : Dependencies) : Prop where
  item : a.item = true → b.item = true
  position : a.position = true → b.position = true
  last : a.last = true → b.last = true

namespace Dependencies.FocusWithin

variable {a b c : Dependencies}

theorem refl (a : Dependencies) : a.FocusWithin a := ⟨id, id, id⟩

theorem trans (h : a.FocusWithin b) (h' : b.FocusWithin c) : a.FocusWithin c :=
  ⟨h'.item ∘ h.item, h'.position ∘ h.position, h'.last ∘ h.last⟩

theorem none (b : Dependencies) : Dependencies.none.FocusWithin b :=
  ⟨fun h => Bool.noConfusion h, fun h => Bool.noConfusion h, fun h => Bool.noConfusion h⟩

theorem withoutFocus (a b : Dependencies) : a.withoutFocus.FocusWithin b :=
  ⟨fun h => Bool.noConfusion h, fun h => Bool.noConfusion h, fun h => Bool.noConfusion h⟩

end Dependencies.FocusWithin

namespace Properties

/-- What an operand adds to the dependencies of an expression. -/
def dependenciesFrom (a : Operand) : Dependencies :=
  if a.role = .controlled then a.expr.dependencies.withoutFocus else a.expr.dependencies

theorem dependenciesOf_eq (part : Dependencies → Bool) (hnone : part .none = false)
    (hunion : ∀ a b, part (a.union b) = (part a || part b)) (ops : List Operand) :
    part (dependenciesOf ops) = ops.any fun a => part (dependenciesFrom a) := by
  suffices fold : ∀ acc, part (ops.foldl (fun acc op => acc.union (dependenciesFrom op)) acc) =
      (part acc || ops.any fun a => part (dependenciesFrom a)) by
    have := fold .none
    rwa [hnone, Bool.false_or] at this
  induction ops with
  | nil => simp
  | cons a rest ih =>
    intro acc
    rw [List.foldl_cons, ih, hunion, List.any_cons, Bool.or_assoc]

theorem focusWithin_dependenciesOf {ops : List Operand} {a : Operand} (ha : a ∈ ops) :
    (dependenciesFrom a).FocusWithin (dependenciesOf ops) := by
  constructor <;> intro h
  · rw [dependenciesOf_eq (·.item) rfl fun _ _ => rfl]
    exact List.any_eq_true.mpr ⟨a, ha, h⟩
  · rw [dependenciesOf_eq (·.position) rfl fun _ _ => rfl]
    exact List.any_eq_true.mpr ⟨a, ha, h⟩
  · rw [dependenciesOf_eq (·.last) rfl fun _ _ => rfl]
    exact List.any_eq_true.mpr ⟨a, ha, h⟩

theorem dependenciesOf_focusWithin {ops : List Operand} {b : Dependencies}
    (h : ∀ a ∈ ops, (dependenciesFrom a).FocusWithin b) : (dependenciesOf ops).FocusWithin b := by
  constructor <;> intro hpart
  · rw [dependenciesOf_eq (·.item) rfl fun _ _ => rfl] at hpart
    obtain ⟨a, ha, hpart⟩ := List.any_eq_true.mp hpart
    exact (h a ha).item hpart
  · rw [dependenciesOf_eq (·.position) rfl fun _ _ => rfl] at hpart
    obtain ⟨a, ha, hpart⟩ := List.any_eq_true.mp hpart
    exact (h a ha).position hpart
  · rw [dependenciesOf_eq (·.last) rfl fun _ _ => rfl] at hpart
    obtain ⟨a, ha, hpart⟩ := List.any_eq_true.mp hpart
    exact (h a ha).last hpart

end Properties

namespace Expr

variable {d : Dispatcher} {e : Expr} {a : Operand} {c c' : Context}

/-- Apart from what rules are run, an expression with operands depends on what they depend on. -/
theorem focusWithin_computed (h : a ∈ e.operands) :
    (Properties.dependenciesFrom a).FocusWithin e.computed.dependencies := by
  have parts := Properties.focusWithin_dependenciesOf h
  rcases e with op | ⟨op, b, i⟩ | ⟨op, b, b', i⟩ | _ | ⟨_ | f, args, i⟩
  case leaf => simp [operands] at h
  case unary => cases op <;> exact ⟨parts.item, parts.position, parts.last⟩
  case binary => cases op <;> exact parts
  case choice => exact parts
  case variadic.block => exact parts
  case variadic.call => cases f <;> exact parts

theorem computed_focusWithin {b : Dependencies}
    (h : ∀ a ∈ e.operands, (Properties.dependenciesFrom a).FocusWithin b)
    (hleaf : e.operands = [] → e.computed.dependencies.FocusWithin b) :
    e.computed.dependencies.FocusWithin b := by
  have parts := Properties.dependenciesOf_focusWithin h
  rcases e with op | ⟨op, b, i⟩ | ⟨op, b, b', i⟩ | _ | ⟨_ | f, args, i⟩
  case leaf => exact hleaf rfl
  case unary => cases op <;> exact ⟨parts.item, parts.position, parts.last⟩
  case binary => cases op <;> exact parts
  case choice => exact parts
  case variadic.block => exact parts
  case variadic.call => cases f <;> exact parts

theorem Consistent.focusWithin (h : e.Consistent) (ha : a ∈ e.inheritors) :
    a.expr.dependencies.FocusWithin e.dependencies := by
  have parts := focusWithin_computed (mem_operands_of_mem_inheritors ha)
  rw [Properties.dependenciesFrom, if_neg (h.roles a ha), ← h.fresh] at parts
  exact parts

/-- The expressions that run the next rule for the item they are evaluated for. -/
inductive RunsNext : Expr → Prop
  | nextMatch (i : Info) : RunsNext (leaf .nextMatch i)
  | operand {e : Expr} {a : Operand} : a ∈ e.inheritors → RunsNext a.expr → RunsNext e

/-- What runs the next rule reads the item. -/
theorem RunsNext.item (h : e.RunsNext) (he : Throughout Consistent e) : e.dependencies.item = true := by
  induction h with
  | nextMatch i =>
    rw [dependencies, he.here.fresh]
    rfl
  | operand ha _ ih => exact (he.here.focusWithin ha).item (ih (he.operand (mem_operands_of_mem_inheritors ha)))

/-! ### Expressions that read less -/

variable {e' : Expr} {g : Operand → Operand}

theorem runsNext_withInfo {i : Info} (h : (e.withInfo i).RunsNext) : e.RunsNext := by
  generalize he : e.withInfo i = e' at h
  cases h with
  | nextMatch j =>
    cases e <;> cases he
    exact .nextMatch _
  | operand ha hnext =>
    subst he
    exact .operand (by simpa using ha) hnext

theorem inheritors_mapOperands (g : Operand → Operand) (e : Expr) :
    (e.mapOperands g).inheritors = e.inheritors.map g := by
  rcases e with _ | _ | ⟨op, _, _, _⟩ | _ | _
  case binary => cases op <;> rfl
  all_goals rfl

/-- Whether an expression reads no more of the focus than another. -/
structure ReadsWithin (e' e : Expr) : Prop where
  focus : e'.dependencies.FocusWithin e.dependencies
  next : e'.RunsNext → e.RunsNext

namespace ReadsWithin

theorem refl (e : Expr) : ReadsWithin e e := ⟨.refl _, id⟩

theorem trans {e₁ e₂ e₃ : Expr} (h : ReadsWithin e₁ e₂) (h' : ReadsWithin e₂ e₃) :
    ReadsWithin e₁ e₃ :=
  ⟨h.focus.trans h'.focus, h'.next ∘ h.next⟩

theorem literal (vs : List Value) (l : Location) (e : Expr) : ReadsWithin (literal vs l) e where
  focus := .none _
  next h := by
    rcases runsNext_withInfo (e := leaf (.literal vs) (fresh l)) h with _ | ⟨ha, _⟩
    simp [inheritors] at ha

theorem withLocation (e : Expr) (l : Location) : ReadsWithin (e.withLocation l) e where
  focus := by
    rw [dependencies, props_withLocation]
    exact .refl _
  next := runsNext_withInfo

theorem replacing (h : ReadsWithin e' e) (old : Expr) : ReadsWithin (old.replacing e') e := by
  unfold Expr.replacing
  split
  · exact (withLocation e' _).trans h
  · exact h

theorem of_inheritor (he : e.Consistent) (ha : a ∈ e.inheritors) : ReadsWithin a.expr e where
  focus := he.focusWithin ha
  next := .operand ha

/-- A new expression over operands that read no more than another expression. -/
theorem refresh (h : ∀ a ∈ e'.operands, ReadsWithin a.expr e) (hoperands : e'.operands ≠ []) :
    ReadsWithin e'.refresh e where
  focus := by
    rw [dependencies, props_refresh]
    refine computed_focusWithin (fun a ha => ?_) fun hnil => absurd hnil hoperands
    unfold Properties.dependenciesFrom
    split
    · exact .withoutFocus _ _
    · exact (h a ha).focus
  next hnext := by
    rcases runsNext_withInfo hnext with _ | ⟨ha, hnext⟩
    · exact absurd rfl hoperands
    · exact (h _ (mem_operands_of_mem_inheritors ha)).next hnext

/-- Operands that read no more make an expression that reads no more. -/
theorem mapOperands (he : e.props = e.computed)
    (hg : ∀ a ∈ e.operands, ReadsWithin (g a).expr a.expr ∧ (g a).role = a.role) :
    ReadsWithin (e.mapOperands g).refresh e where
  focus := by
    rw [dependencies, props_refresh, dependencies, he]
    -- An operand that is evaluated in another focus counts without it, in the new expression as in the old.
    refine computed_focusWithin (fun z hz => ?_) fun hnil => ?_
    · rw [operands_mapOperands] at hz
      obtain ⟨a, ha, rfl⟩ := List.mem_map.mp hz
      refine Dependencies.FocusWithin.trans ?_ (focusWithin_computed ha)
      unfold Properties.dependenciesFrom
      rw [(hg a ha).2]
      split
      · exact .withoutFocus _ _
      · exact (hg a ha).1.focus
    · cases e with
      | leaf op i => exact .refl _
      | variadic op args i =>
        obtain rfl : args = [] := by simpa using hnil
        exact .refl _
      | _ => simp at hnil
  next hnext := by
    generalize he' : e.mapOperands g = e' at hnext
    rcases runsNext_withInfo hnext with _ | ⟨ha, hnext⟩
    · cases e <;> cases he'
      exact .nextMatch _
    · subst he'
      rw [inheritors_mapOperands] at ha
      obtain ⟨a, hmem, rfl⟩ := List.mem_map.mp ha
      exact .operand hmem ((hg a (mem_operands_of_mem_inheritors hmem)).1.next hnext)

end ReadsWithin

end Expr

/-! ### Contexts that agree -/

namespace Context

variable {e : Expr} {a : Operand} {c c' : Context}

/-- Whether two contexts differ at most in what an expression does not depend on. -/
structure Agree (e : Expr) (c c' : Context) : Prop where
  rest : c' = { c with focus? := c'.focus?, frame := c'.frame }
  slots : ∀ v ∈ e.references, c.slot v.slot = c'.slot v.slot
  item : e.dependencies.item = true → c.item = c'.item
  position : e.dependencies.position = true → c.position = c'.position
  size : e.dependencies.last = true → c.size.map lengthValue = c'.size.map lengthValue
  next : e.RunsNext → c.focus? = c'.focus?

namespace Agree

theorem forest (h : Agree e c c') : c'.forest = c.forest := by
  rw [h.rest]

theorem globals (h : Agree e c c') : c'.globals = c.globals := by
  rw [h.rest]

theorem inherited (h : Agree e c c') (he : e.Consistent) (ha : a ∈ e.inheritors) :
    Agree a.expr c c' where
  rest := h.rest
  slots v hv := h.slots v (Expr.mem_references_of_operand (Expr.mem_operands_of_mem_inheritors ha) hv)
  item hitem := h.item ((he.focusWithin ha).item hitem)
  position hposition := h.position ((he.focusWithin ha).position hposition)
  size hsize := h.size ((he.focusWithin ha).last hsize)
  next hnext := h.next (.operand ha hnext)

theorem withFocus (h : Agree e c c') (ha : a ∈ e.operands) (item : Item) (position : Nat)
    (size? : Option Nat) :
    Agree a.expr (c.withFocus item position size?) (c'.withFocus item position size?) where
  rest := by
    rw [h.rest]
    rfl
  slots v hv := h.slots v (Expr.mem_references_of_operand ha hv)
  item _ := rfl
  position _ := rfl
  size _ := rfl
  next _ := rfl

theorem setSlot (h : Agree e c c') (index : Nat) (value : Sequence) :
    Agree e (c.setSlot index value) (c'.setSlot index value) where
  rest := by
    rw [h.rest]
    rfl
  slots v hv := by
    rw [slot_setSlot, slot_setSlot, h.slots v hv]
  item := h.item
  position := h.position
  size := h.size
  next := h.next

theorem withOutput (h : Agree e c c') : Agree e c.withOutput c'.withOutput where
  rest := by
    rw [h.rest]
    rfl
  slots := h.slots
  item := h.item
  position := h.position
  size := h.size
  next := h.next

end Agree

end Context

namespace Expr

variable {d : Dispatcher} {e : Expr} {c c' : Context}

/-! ### Operators in two contexts -/

section Congruence

variable {A B : Behaviour} (l : Location)

private theorem iterate_unary_congr (op : Unary) (x : Expr) (hforest : c'.forest = c.forest)
    (ha : A.iterate c = A.iterate c') (output : A.iterate c.withOutput = A.iterate c'.withOutput)
    (apply : ∀ xs mode l, d.apply xs mode l c.withOutput = d.apply xs mode l c'.withOutput) :
    (op.behaviour d l x A).iterate c = (op.behaviour d l x A).iterate c' := by
  cases op with
  | atomize => simp only [Unary.behaviour, Behaviour.atomize, Behaviour.ofSource, ha, hforest]
  | convert target conversion =>
    simp only [Unary.behaviour, Behaviour.convert]
    split <;> simp only [Behaviour.ofSource, ha]
  | cast target allowsEmpty =>
    simp only [Unary.behaviour, Behaviour.cast, Behaviour.ofItem, Behaviour.single, Behaviour.stream, ha, hforest]
  | check required => simp only [Unary.behaviour, Behaviour.check, Behaviour.ofSource, ha]
  | applyRules mode => simp only [Unary.behaviour, Behaviour.ofProcess, Behaviour.collect, output, apply]

/-- A path may need the length of what it starts from, and sort what it finds. -/
private theorem iterate_path_congr (ordered : Bool) (x y : Expr) (hforest : c'.forest = c.forest)
    (ha : A.iterate c = A.iterate c')
    (hb : ∀ item position size?, B.iterate (c.withFocus item position size?) =
      B.iterate (c'.withFocus item position size?)) :
    (Binary.path.behaviour l ordered x y A B).iterate c = (Binary.path.behaviour l ordered x y A B).iterate c' := by
  have steps (size? : Option Nat) :
      Behaviour.pathStream l size? B c = Behaviour.pathStream l size? B c' := by
    funext s
    simp only [Behaviour.pathStream, Behaviour.stream, hb]
  simp only [Binary.behaviour, Behaviour.path, Behaviour.ofSource, ha, hforest, steps]

/-- The second operand of a path or a filter is evaluated for items only, that of a binding with a value. -/
private theorem iterate_binary_congr (op : Binary) (ordered : Bool) (x y : Expr) (hforest : c'.forest = c.forest)
    (ha : A.iterate c = A.iterate c') (hb : op ≠ .path → op ≠ .filter → B.iterate c = B.iterate c')
    (bound : op ≠ .path → op ≠ .filter → ∀ index value,
      B.iterate (c.setSlot index value) = B.iterate (c'.setSlot index value))
    (focused : ∀ item position size?, B.iterate (c.withFocus item position size?) =
      B.iterate (c'.withFocus item position size?)) :
    (op.behaviour l ordered x y A B).iterate c = (op.behaviour l ordered x y A B).iterate c' := by
  cases op with
  | letIn v =>
    have bound := bound (by simp) (by simp)
    simp only [Binary.behaviour, Behaviour.letIn, Behaviour.ofSource, Behaviour.collect, ha, bound]
  | forIn v =>
    have bound := bound (by simp) (by simp)
    simp only [Binary.behaviour, Behaviour.forIn, Behaviour.ofSource, Behaviour.stream, ha, bound]
  | path => exact iterate_path_congr l ordered x y hforest ha focused
  | filter =>
    simp only [Binary.behaviour, Behaviour.filter, Behaviour.ofSource, Behaviour.holdsAt, Behaviour.stream, ha,
      focused]
  | arithmetic op calculator =>
    have hb := hb (by simp) (by simp)
    simp only [Binary.behaviour, Behaviour.arithmetic, Behaviour.ofItem, Behaviour.single, Behaviour.stream, ha, hb,
      hforest]
  | compare op =>
    have hb := hb (by simp) (by simp)
    simp only [Binary.behaviour, Behaviour.compare, Behaviour.ofItem, Behaviour.single, Behaviour.stream, ha, hb,
      hforest]
  | logical op =>
    have hb := hb (by simp) (by simp)
    simp only [Binary.behaviour, Behaviour.logical, Behaviour.ofValue, Behaviour.ofItem, Behaviour.truth,
      Behaviour.stream, ha, hb]
  | range =>
    have hb := hb (by simp) (by simp)
    simp only [Binary.behaviour, Behaviour.range, Behaviour.ofSource, Behaviour.integer?, Behaviour.single,
      Behaviour.stream, ha, hb, hforest]
  | union =>
    have hb := hb (by simp) (by simp)
    simp only [Binary.behaviour, Behaviour.union, Behaviour.ofSource, Behaviour.collect, ha, hb, hforest]

private theorem iterate_call_congr (function : BuiltIn) (args : List Operand) (hforest : c'.forest = c.forest)
    (h : ∀ a ∈ args, (a.expr.behaviour d).iterate c = (a.expr.behaviour d).iterate c') :
    (Behaviour.call l function (args.map fun a => (a.expr.behaviour d, a.expr.location))).iterate c =
      (Behaviour.call l function (args.map fun a => (a.expr.behaviour d, a.expr.location))).iterate c' := by
  have number {a : Operand} (ha : a ∈ args) (place : Location) :
      (a.expr.behaviour d).number place c = (a.expr.behaviour d).number place c' := by
    simp only [Behaviour.number, Behaviour.single, Behaviour.stream, h a ha, hforest]
  cases args with
  | nil => cases function <;> rfl
  | cons a rest =>
    have ha := h a List.mem_cons_self
    cases function with
    | subsequence =>
      rcases rest with _ | ⟨b, _ | ⟨b', rest⟩⟩
      · rfl
      · have hb := number (a := b) (by simp) b.expr.location
        simp [Behaviour.call, Behaviour.ofSource, Behaviour.subsequence, ha, hb]
      · have hb := number (a := b) (by simp) b.expr.location
        have hb' := number (a := b') (by simp) b'.expr.location
        simp [Behaviour.call, Behaviour.ofSource, Behaviour.subsequence, ha, hb, hb']
    | _ =>
      simp [Behaviour.call, Behaviour.ofValue, Behaviour.ofItem, Behaviour.atomize,
        Behaviour.ofSource, Behaviour.truth, Behaviour.stream, ha, hforest]

private theorem concatStream_congr {parts : List Operand}
    (h : ∀ a ∈ parts, (a.expr.behaviour d).iterate c = (a.expr.behaviour d).iterate c') :
    Behaviour.concatStream c (parts.map (·.expr.behaviour d)) =
      Behaviour.concatStream c' (parts.map (·.expr.behaviour d)) := by
  induction parts with
  | nil => rfl
  | cons a rest ih =>
    have hrest := ih fun b hb => h b (List.mem_cons_of_mem a hb)
    simp only [List.map_cons, Behaviour.concatStream, Behaviour.stream, h a List.mem_cons_self, hrest]

end Congruence

/-- Two contexts give the same result if they do so for the operands and for what the operator itself
reads.  Which operands are evaluated in which context made from the two is what the hypotheses list. -/
theorem iterate_congr (hforest : c'.forest = c.forest)
    (leaf : ∀ op i, e = .leaf op i →
      (op.behaviour d i.location).iterate c = (op.behaviour d i.location).iterate c')
    (operand : ∀ {a}, a ∈ e.inheritors →
      (a.expr.behaviour d).iterate c = (a.expr.behaviour d).iterate c')
    (bound : ∀ {a}, a ∈ e.inheritors → ∀ index value,
      (a.expr.behaviour d).iterate (c.setSlot index value) =
        (a.expr.behaviour d).iterate (c'.setSlot index value))
    (focused : ∀ {a}, a ∈ e.operands → ∀ item position size?,
      (a.expr.behaviour d).iterate (c.withFocus item position size?) =
        (a.expr.behaviour d).iterate (c'.withFocus item position size?))
    (output : ∀ {a}, a ∈ e.inheritors →
      (a.expr.behaviour d).iterate c.withOutput = (a.expr.behaviour d).iterate c'.withOutput)
    (apply : ∀ xs mode l, d.apply xs mode l c.withOutput = d.apply xs mode l c'.withOutput) :
    (e.behaviour d).iterate c = (e.behaviour d).iterate c' := by
  cases e with
  | leaf op i =>
    rw [behaviour_leaf]
    exact congrArg (Eval.located i.location) (leaf op i rfl)
  | unary op a i =>
    have ha : a ∈ (unary op a i).inheritors := by simp [inheritors]
    rw [behaviour_unary]
    exact congrArg (Eval.located i.location)
      (iterate_unary_congr i.location op a.expr hforest (operand ha) (output ha) apply)
  | binary op a b i =>
    have ha : a ∈ (binary op a b i).inheritors := by cases op <;> simp [inheritors]
    have hb (hpath : op ≠ .path) (hfilter : op ≠ .filter) : b ∈ (binary op a b i).inheritors := by
      cases op <;> simp_all [inheritors]
    rw [behaviour_binary]
    exact congrArg (Eval.located i.location)
      (iterate_binary_congr i.location op _ a.expr b.expr hforest (operand ha)
        (fun hpath hfilter => operand (hb hpath hfilter)) (fun hpath hfilter => bound (hb hpath hfilter))
        (focused (by simp)))
  | choice x y n i =>
    have hx := operand (a := x) (by simp [inheritors])
    have hy := operand (a := y) (by simp [inheritors])
    have hn := operand (a := n) (by simp [inheritors])
    rw [behaviour_choice]
    refine congrArg (Eval.located i.location) ?_
    simp only [Behaviour.choice, Behaviour.truth, Behaviour.stream, hx, hy, hn]
  | variadic op args i =>
    have hargs (a : Operand) (ha : a ∈ args) := operand (a := a) (by simpa [inheritors] using ha)
    rw [behaviour_variadic]
    refine congrArg (Eval.located i.location) ?_
    cases op with
    | call function => exact iterate_call_congr i.location function args hforest hargs
    | block =>
      simp only [Variadic.behaviour, Behaviour.block, Behaviour.ofSource, List.map_map, Function.comp_def,
        concatStream_congr hargs]

/-- Evaluation is the same in contexts that agree. -/
theorem iterate_eq_of_agree (hd : d.IsLocal) (h : Throughout Consistent e) (agree : c.Agree e c') :
    (e.behaviour d).iterate c = (e.behaviour d).iterate c' := by
  -- On the tree.  Agreement is handed down to an operand by what it may depend on, which is part of what the
  -- whole depends on.
  induction e using inductOperands generalizing c c' with
  | h e ih =>
    have operand {a : Operand} (ha : a ∈ e.inheritors) :
        (a.expr.behaviour d).iterate c = (a.expr.behaviour d).iterate c' :=
      have hmem := mem_operands_of_mem_inheritors ha
      ih a hmem (h.operand hmem) (agree.inherited h.here ha)
    have focused {a : Operand} (ha : a ∈ e.operands) (item : Item) (position : Nat)
        (size? : Option Nat) :
        (a.expr.behaviour d).iterate (c.withFocus item position size?) =
          (a.expr.behaviour d).iterate (c'.withFocus item position size?) :=
      ih a ha (h.operand ha) (agree.withFocus ha item position size?)
    have bound {a : Operand} (ha : a ∈ e.inheritors) (index : Nat) (value : Sequence) :
        (a.expr.behaviour d).iterate (c.setSlot index value) =
          (a.expr.behaviour d).iterate (c'.setSlot index value) :=
      have hmem := mem_operands_of_mem_inheritors ha
      ih a hmem (h.operand hmem) ((agree.inherited h.here ha).setSlot index value)
    have fresh : e.dependencies = e.computed.dependencies := congrArg _ h.here.fresh
    have forest := agree.forest
    refine iterate_congr forest ?_ operand bound focused
      (fun ha => ih _ (mem_operands_of_mem_inheritors ha)
        (h.operand (mem_operands_of_mem_inheritors ha)) (agree.inherited h.here ha).withOutput)
      (fun xs mode l => ?_)
    · rintro op i rfl
      cases op with
      | literal vs => rfl
      | contextItem =>
        simp only [Leaf.behaviour, Behaviour.contextItem, Behaviour.ofItem,
          agree.item (congrArg Dependencies.item fresh)]
      | position =>
        simp only [Leaf.behaviour, Behaviour.position, Behaviour.ofValue, Behaviour.ofItem,
          agree.position (congrArg Dependencies.position fresh)]
      | last =>
        have hsize := agree.size (congrArg Dependencies.last fresh)
        simp only [Leaf.behaviour, Behaviour.last, Behaviour.ofValue, Behaviour.ofItem]
        cases hc : c.size <;> cases hc' : c'.size <;> simp_all [Except.map, Eval.ofExcept]
      | «variable» v type =>
        simp only [Leaf.behaviour, Behaviour.variable, Behaviour.ofSource,
          agree.slots v (by simp [references])]
      | global name type =>
        simp only [Leaf.behaviour, Behaviour.global, Behaviour.ofSource, Context.global,
          agree.globals]
      | step axis test =>
        simp only [Leaf.behaviour, Behaviour.step, Behaviour.ofSource, forest,
          agree.item (congrArg Dependencies.item fresh)]
      | nextMatch =>
        have hfocus := agree.next (.nextMatch i)
        have hnext : d.next i.location c'.withOutput = d.next i.location c.withOutput := by
          rw [agree.rest, ← hfocus]
          exact hd.next i.location c.withOutput c'.frame
        simp only [Leaf.behaviour, Behaviour.ofProcess, hnext]
    · rw [agree.rest]
      exact (hd.apply xs mode l c.withOutput c'.focus? c'.frame).symm

theorem run_eq_of_agree (hd : d.IsLocal) (h : Throughout Consistent e) (agree : c.Agree e c') :
    e.run d c = e.run d c' := by
  simp only [run, Behaviour.trace, iterate_eq_of_agree hd h agree]

theorem opening_eq_of_agree (hd : d.IsLocal) (h : Throughout Consistent e) (agree : c.Agree e c') :
    e.opening d c = e.opening d c' := by
  simp only [opening, Behaviour.opening, iterate_eq_of_agree hd h agree]

/-! ### Places -/

/-- A call by itself looks at its place only to put it into errors. -/
private theorem call_eq (l l' : Location) (function : BuiltIn)
    (args : List (Behaviour × Location)) :
    (Behaviour.call l function args).iterate = (Behaviour.call l' function args).iterate := by
  cases args with
  | nil => cases function <;> rfl
  | cons a rest =>
    cases function with
    | subsequence => cases rest <;> rfl
    | _ => rfl

/-- The place of an expression changes nothing that is computed. -/
theorem run_withLocation (hd : d.Placed) (e : Expr) (l : Location) (c : Context) :
    (e.withLocation l).run d c = e.run d c := by
  cases e with
  | leaf op i =>
    cases op with
    -- Rules are told the place, which shows in the places of errors only.
    | nextMatch =>
      simp only [withLocation, withInfo, run_nextMatch]
      rw [(hd.next l i.location c.withOutput).collected]
    | _ =>
      simp only [withLocation, withInfo, run_leaf]
      rfl
  | unary op a i =>
    cases op with
    | atomize => simp only [withLocation, withInfo, run_atomize]
    | convert target conversion => simp only [withLocation, withInfo, run_convert]
    | cast target allowsEmpty => simp only [withLocation, withInfo, run_cast]
    | check required => simp only [withLocation, withInfo, run_check]
    | applyRules mode =>
      simp only [withLocation, withInfo, run_applyRules]
      simp only [fun xs => ((hd.apply xs mode l i.location c.withOutput).collected)]
  | binary op a b i =>
    cases op with
    | path =>
      simp only [withLocation, withInfo, run_path]
      rfl
    | filter => simp only [withLocation, withInfo, run_filter]
    | letIn v => simp only [withLocation, withInfo, run_letIn]
    | forIn v => simp only [withLocation, withInfo, run_forIn]
    | _ =>
      simp only [withLocation, withInfo, run_binary]
      rfl
  | choice x y n i => simp only [withLocation, withInfo, run_choice]
  | variadic op args i =>
    cases op with
    | block => simp only [withLocation, withInfo, run_block]
    | call function =>
      simp only [withLocation, withInfo, run_variadic, Variadic.behaviour, Behaviour.trace]
      rw [call_eq]

theorem opening_withLocation (hd : d.Placed) (e : Expr) (l : Location) (c : Context) :
    (e.withLocation l).opening d c = e.opening d c := by
  have run := run_withLocation hd e l c
  cases e with
  | leaf op i =>
    rw [opening_leaf, ← run]
    exact opening_leaf op
  | unary op a i =>
    cases op with
    | atomize => exact opening_atomize.trans opening_atomize.symm
    | convert target conversion => exact (opening_convert ..).trans (opening_convert ..).symm
    | cast target allowsEmpty =>
      rw [opening_cast, ← run]
      exact opening_cast ..
    | check required => exact (opening_check ..).trans (opening_check ..).symm
    | applyRules mode =>
      rw [opening_applyRules, ← run]
      exact opening_applyRules ..
  | binary op a b i =>
    cases op with
    | path =>
      simp only [withLocation, withInfo, opening_path] at run ⊢
      rw [← run]
      rfl
    | filter => simp only [withLocation, withInfo, opening_filter]
    | letIn v => simp only [withLocation, withInfo, opening_letIn]
    | forIn v => simp only [withLocation, withInfo, opening_forIn]
    | _ =>
      simp only [withLocation, withInfo, opening_binary]
      rfl
  | choice x y n i => simp only [withLocation, withInfo, opening_choice]
  | variadic op args i =>
    cases op with
    | block => rfl
    | call function =>
      simp only [withLocation, withInfo, opening_variadic, Variadic.behaviour, Behaviour.opening]
      rw [call_eq]

theorem run_replacing (hd : d.Placed) (old e : Expr) (c : Context) :
    (old.replacing e).run d c = e.run d c := by
  unfold replacing
  split
  · exact run_withLocation hd e _ c
  · rfl

theorem opening_replacing (hd : d.Placed) (old e : Expr) (c : Context) :
    (old.replacing e).opening d c = e.opening d c := by
  unfold replacing
  split
  · exact opening_withLocation hd e _ c
  · rfl

end Expr

end TreeQuery
