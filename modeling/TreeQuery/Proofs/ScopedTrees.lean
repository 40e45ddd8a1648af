/-
Scopes are kept by compilation.

An expression is scoped if every reference stands where its variable has a value, if the variables are numbered like
their slots, and if every call has the arguments that its function needs (`Expr.Scoped`).  Expressions that
construction gives are scoped where their free variables have values (`Expr.scoped_of_free`), and no phase of
compilation takes a reference out of the scope that it stands in (`Expr.Scoped.compile`).

Design notes: a scope is the set of numbers of the variables that have values.  Where a declaration is dropped, its
body has to be scoped in a smaller scope, and it is because nothing in it refers to the variable
(`Expr.Scoped.of_references`).  A predicate may move out of its filter, which declares nothing.
-/
import TreeQuery.Program
import TreeQuery.Proofs.CopiedVariables
import TreeQuery.Proofs.NormalForms
import TreeQuery.Proofs.TypingSteps

namespace TreeQuery

/-- The variables that have values in the second operand. -/
def Binary.visible (op : Binary) (vs : Nat → Prop) : Nat → Prop :=
  fun n => vs n ∨ ∃ v, op.declared? = some v ∧ v.id = n

namespace Expr

/-- Whether an expression can do without an internal error where certain variables have values. -/
inductive Scoped : (Nat → Prop) → Expr → Prop
  | leaf {vs : Nat → Prop} {op : Leaf} {i : Info} :
      (∀ v type, op = .variable v type → v.id = v.slot ∧ vs v.id) → Scoped vs (leaf op i)
  | unary {vs : Nat → Prop} {op : Unary} {a : Operand} {i : Info} : Scoped vs a.expr → Scoped vs (unary op a i)
  | binary {vs : Nat → Prop} {op : Binary} {a b : Operand} {i : Info} :
      (∀ v, op.declared? = some v → v.id = v.slot) → Scoped vs a.expr → Scoped (op.visible vs) b.expr →
        Scoped vs (binary op a b i)
  | choice {vs : Nat → Prop} {x y n : Operand} {i : Info} :
      Scoped vs x.expr → Scoped vs y.expr → Scoped vs n.expr → Scoped vs (choice x y n i)
  | variadic {vs : Nat → Prop} {op : Variadic} {args : List Operand} {i : Info} :
      (∀ function, op = .call function → function.arity.1 ≤ args.length) → (∀ a ∈ args, Scoped vs a.expr) →
        Scoped vs (variadic op args i)

variable {vs us : Nat → Prop} {e e' r t : Expr} {a b : Operand} {s : StaticContext} {scope : Scope}
  {level : Optimization}

/-- Expressions that construction gives are scoped where their free variables have values. -/
theorem scoped_of_free {checks : Bool} (h : Throughout (Constructed checks) e) (hvs : ∀ v ∈ e.free, vs v.id) :
    Scoped vs e := by
  induction e using inductOperands generalizing vs with
  | h e ih =>
    have operand {a : Operand} {us : Nat → Prop} (ha : a ∈ e.operands) (hus : ∀ v ∈ a.expr.free, us v.id) :
        Scoped us a.expr := ih a ha (h.operand ha) hus
    have typed := h.here.typed
    cases e with
    | leaf op i =>
      refine .leaf ?_
      rintro v type rfl
      exact ⟨typed.1.id_eq_slot, hvs v (by simp [free])⟩
    | unary op a i => exact .unary (operand (by simp) (by simpa [free] using hvs))
    | binary op a b i =>
      simp only [free, operandFree_eq, List.mem_append, mem_unbound_iff] at hvs
      refine .binary ?_ (operand (by simp) fun v hv => hvs v (.inl hv)) (operand (by simp) fun w hw => ?_)
      · intro v hv
        cases op <;> simp only [Binary.declared?, reduceCtorEq, Option.some.injEq] at hv
        all_goals exact hv ▸ typed.id_eq_slot
      -- A variable that is free in the body is declared here, or it is free in the whole.
      · by_cases hdeclared : ∃ v, op.declared? = some v ∧ v.id = w.id
        · exact .inr hdeclared
        · exact .inl (hvs w (.inr ⟨hw, fun v hv heq => hdeclared ⟨v, hv, heq⟩⟩))
    | choice x y n i =>
      simp only [free, operandFree_eq, List.mem_append] at hvs
      exact .choice (operand (by simp) fun v hv => hvs v (.inl hv))
        (operand (by simp) fun v hv => hvs v (.inr (.inl hv)))
        (operand (by simp) fun v hv => hvs v (.inr (.inr hv)))
    | variadic op args i =>
      refine .variadic ?_ fun a ha => operand ha fun v hv => hvs v (mem_argumentFree_iff.mpr ⟨a, ha, hv⟩)
      rintro function rfl
      exact typed

namespace Scoped

/-! ### Expressions and their parts -/

/-- Only variables that are referred to have to have values. -/
theorem of_references (h : Scoped vs e) (hus : ∀ w ∈ e.references, vs w.id → us w.id) : Scoped us e := by
  induction h generalizing us with
  | leaf hv =>
    refine .leaf ?_
    rintro v type rfl
    obtain ⟨hslot, hvs⟩ := hv v type rfl
    exact ⟨hslot, hus v (by simp [references]) hvs⟩
  | @unary _ _ a _ _ ih => exact .unary (ih fun w hw => hus w (mem_references_of_operand (a := a) (by simp) hw))
  | @binary _ _ a b _ hdeclared _ _ iha ihb =>
    refine .binary hdeclared (iha fun w hw => hus w (mem_references_of_operand (a := a) (by simp) hw)) ?_
    exact ihb fun w hw hvs => hvs.imp_left (hus w (mem_references_of_operand (a := b) (by simp) hw))
  | @choice _ x y n _ _ _ _ ihx ihy ihn =>
    exact .choice (ihx fun w hw => hus w (mem_references_of_operand (a := x) (by simp) hw))
      (ihy fun w hw => hus w (mem_references_of_operand (a := y) (by simp) hw))
      (ihn fun w hw => hus w (mem_references_of_operand (a := n) (by simp) hw))
  | variadic harity _ ih =>
    exact .variadic harity fun a ha => ih a ha fun w hw => hus w (mem_references_of_operand ha hw)

theorem mono (h : Scoped vs e) (hus : ∀ n, vs n → us n) : Scoped us e := h.of_references fun w _ => hus w.id

theorem withInfo (h : Scoped vs e) (i : Info) : Scoped vs (e.withInfo i) := by
  cases h with
  | leaf hv => exact .leaf hv
  | unary ha => exact .unary ha
  | binary hdeclared ha hb => exact .binary hdeclared ha hb
  | choice hx hy hn => exact .choice hx hy hn
  | variadic harity hargs => exact .variadic harity hargs

theorem refresh (h : Scoped vs e) : Scoped vs e.refresh := h.withInfo _

theorem literal (values : List Value) (l : Location) : Scoped vs (literal values l) :=
  .refresh (e := Expr.leaf (.literal values) (fresh l)) (.leaf (by simp))

theorem replacing (h : Scoped vs e) (old : Expr) : Scoped vs (old.replacing e) := by
  unfold Expr.replacing
  split
  · exact h.withInfo _
  · exact h

theorem fold (h : Scoped vs e) : Scoped vs e.fold := by
  unfold Expr.fold
  split
  · exact (literal _ _).replacing e
  · exact h

theorem wrapped (h : Scoped vs e) (op : Unary) : Scoped vs (e.wrapped op) :=
  .refresh (e := Expr.unary op ⟨.navigate, e⟩ (fresh e.location)) (.unary h)

/-- Operands that declare nothing for each other. -/
theorem plain {op : Binary} {i : Info} (hop : op.declared? = none) (ha : Scoped vs a.expr) (hb : Scoped vs b.expr) :
    Scoped vs (Expr.binary op a b i) :=
  .binary (fun _ hv => absurd (hop.symm.trans hv) nofun) ha (hb.mono fun _ => .inl)

theorem of_plain {op : Binary} {i : Info} (hop : op.declared? = none) (h : Scoped vs (Expr.binary op a b i)) :
    Scoped vs a.expr ∧ Scoped vs b.expr := by
  cases h with
  | binary _ ha hb =>
    refine ⟨ha, hb.mono fun n hn => ?_⟩
    rcases hn with hn | ⟨v, hv, -⟩
    · exact hn
    · exact absurd (hop.symm.trans hv) nofun

theorem argument {op : Variadic} {args : List Operand} {i : Info} (h : Scoped vs (Expr.variadic op args i))
    (ha : a ∈ args) : Scoped vs a.expr := by
  cases h with
  | variadic _ hargs => exact hargs a ha

theorem exists_operand (h : Scoped vs e) (ha : a ∈ e.operands) : ∃ us, Scoped us a.expr := by
  cases h with
  | leaf => exact absurd ha List.not_mem_nil
  | unary hx =>
    obtain rfl := List.mem_singleton.mp ha
    exact ⟨_, hx⟩
  | binary _ hx hy =>
    simp only [operands_binary, List.mem_cons, List.not_mem_nil, or_false] at ha
    rcases ha with rfl | rfl
    · exact ⟨_, hx⟩
    · exact ⟨_, hy⟩
  | choice hx hy hn =>
    simp only [operands_choice, List.mem_cons, List.not_mem_nil, or_false] at ha
    rcases ha with rfl | rfl | rfl
    · exact ⟨_, hx⟩
    · exact ⟨_, hy⟩
    · exact ⟨_, hn⟩
  | variadic _ hargs => exact ⟨_, hargs a ha⟩

/-- Variables are numbered like their slots where they are declared and where they are referred to. -/
theorem id_eq_slot (h : Scoped vs e) : ∀ v ∈ e.declared ++ e.references, v.id = v.slot := by
  induction e using inductOperands generalizing vs with
  | h e ih =>
    intro v hv
    have operand {a : Operand} (ha : a ∈ e.operands) (hv : v ∈ a.expr.declared ++ a.expr.references) :
        v.id = v.slot := by
      obtain ⟨us, h⟩ := h.exists_operand ha
      exact ih a ha h v hv
    rcases List.mem_append.mp hv with hv | hv
    · rcases mem_declared_iff.mp hv with ⟨op, a, b, i, rfl, hop⟩ | ⟨a, ha, hv⟩
      · cases h with
        | binary hdeclared _ _ => exact hdeclared v hop
      · exact operand ha (List.mem_append_left _ hv)
    · rcases mem_references_iff.mp hv with ⟨type, i, rfl⟩ | ⟨a, ha, hv⟩
      · cases h with
        | leaf hreference => exact (hreference v type rfl).1
      · exact operand ha (List.mem_append_right _ hv)

theorem mapOperands {g : Operand → Operand} (h : Scoped vs e)
    (hg : ∀ a ∈ e.operands, ∀ us, Scoped us a.expr → Scoped us (g a).expr) : Scoped vs (e.mapOperands g) := by
  cases h with
  | leaf hv => exact .leaf hv
  | unary ha => exact .unary (hg _ (by simp) _ ha)
  | binary hdeclared ha hb => exact .binary hdeclared (hg _ (by simp) _ ha) (hg _ (by simp) _ hb)
  | choice hx hy hn => exact .choice (hg _ (by simp) _ hx) (hg _ (by simp) _ hy) (hg _ (by simp) _ hn)
  | variadic harity hargs =>
    refine .variadic (by simpa using harity) fun a' ha' => ?_
    obtain ⟨a, ha, rfl⟩ := List.mem_map.mp ha'
    exact hg a ha _ (hargs a ha)

/-! ### Normal forms -/

theorem rewrites (rewrites : Rewrites e r) (h : Scoped vs e) : Scoped vs r := by
  cases rewrites with
  | stays => exact h
  | fold => exact h.fold
  | block parts i =>
    have kept : ∀ part ∈ flatParts parts, Scoped vs part.expr :=
      forall_flatParts (fun _ values _ => literal values _) (fun _ _ _ h q hq => h.argument hq)
        fun part hpart => h.argument hpart
    rcases simplifyBlock_cases parts i.location with ⟨-, heq⟩ | ⟨part, hflat, heq⟩ | ⟨-, heq⟩
    · exact heq ▸ literal [] _
    · exact heq ▸ kept part (by simp [hflat])
    · exact heq ▸ .refresh (e := Expr.variadic .block (flatParts parts) (fresh i.location)) (.variadic nofun kept)
  | yes => cases h with
    | choice _ hy _ => exact hy.replacing _
  | no => cases h with
    | choice _ _ hn => exact hn.replacing _
  | @negation role inner i j =>
    have negation : Scoped vs (Expr.variadic (.call .negation) inner j) :=
      h.argument (a := ⟨role, Expr.variadic (.call .negation) inner j⟩) (by simp)
    cases negation with
    | variadic harity hargs =>
      refine .refresh (e := Expr.variadic (.call .truth) inner (fresh i.location)) (.variadic ?_ hargs)
      rintro _ ⟨⟩
      exact harity .negation rfl
  | start => exact (h.of_plain rfl).2.replacing _

theorem simplify (h : Scoped vs e) : Scoped vs e.simplify := by
  induction e using inductOperands generalizing vs with
  | h e ih =>
    rw [simplify_eq]
    refine rewrites (rewrites_simplifyHere _) (.refresh (h.mapOperands fun a ha us hus => ?_))
    rw [expr_simplifyOperand]
    exact ih a ha hus

/-! ### Typing -/

theorem atomized (h : Scoped vs e) : Scoped vs e.atomized :=
  atomized_induction h (h.wrapped _)

theorem prepared (h : Scoped vs e) (target : AtomicType) (conversion : Conversion) :
    Scoped vs (e.prepared target conversion) :=
  prepared_induction h (fun _ op h => h.wrapped op) target conversion

theorem types (types : Types s e r) (h : Scoped vs e) : Scoped vs r := by
  cases types with
  | stays => exact h
  | global => exact .refresh (.leaf (by simp))
  | nothing | value => exact (literal _ _).replacing _
  | holds known =>
    refine .replacing ?_ _
    cases known with
    | check => cases h with
      | unary ha => exact ha
    | exactlyOne | zeroOrOne => exact h.argument List.mem_cons_self
  | arithmetic _ _ hx hy =>
    subst hx hy
    obtain ⟨ha, hb⟩ := h.of_plain rfl
    exact .refresh (.plain rfl (ha.prepared _ _) (hb.prepared _ _))
  | compare =>
    obtain ⟨ha, hb⟩ := h.of_plain rfl
    exact .refresh (.plain rfl (ha.prepared _ _) (hb.prepared _ _))
  | cast => cases h with
    | unary ha => exact .refresh (.unary ha.atomized)

theorem operandsTyped (operands : OperandsTyped s scope e e') (h : Scoped vs e)
    (typed : ∀ a ∈ e.operands, ∀ {us scope t}, Scoped us a.expr → typedIn s scope a.expr = .ok t → Scoped us t) :
    Scoped vs e' := by
  cases operands with
  | leaf op i =>
    cases h with
    | leaf hv =>
      refine .leaf fun v type heq => ?_
      cases op with
      | «variable» w old =>
        obtain rfl : w = v := (Leaf.variable.inj heq).1
        exact hv w old rfl
      | _ => cases heq
  | unary _ ha' => cases h with
    | unary ha => exact .unary (typed _ (by simp) ha ha')
  | binary _ _ ha' hb' => cases h with
    | binary hdeclared ha hb => exact .binary hdeclared (typed _ (by simp) ha ha') (typed _ (by simp) hb hb')
  | choice _ _ _ hx' hy' hn' => cases h with
    | choice hx hy hn => exact .choice (typed _ (by simp) hx hx') (typed _ (by simp) hy hy') (typed _ (by simp) hn hn')
  | variadic hargs' => cases h with
    | variadic harity hargs =>
      refine .variadic (fun function hop => hargs'.length_eq ▸ harity function hop) fun a' ha' => ?_
      obtain ⟨k, hk, rfl⟩ := List.getElem_of_mem ha'
      have hk' := Nat.lt_of_lt_of_eq hk hargs'.length_eq.symm
      have ha := List.getElem_mem hk'
      exact typed _ ha (hargs _ ha) (hargs'.get hk' hk).2

theorem typedIn (h : Scoped vs e) (ht : typedIn s scope e = .ok t) : Scoped vs t := by
  induction e using inductOperands generalizing vs scope t with
  | h e ih =>
    obtain ⟨e', r, operands, changes, rfl⟩ := exists_types ht
    have typed : Scoped vs r :=
      types changes (.refresh (operandsTyped operands h fun a ha _ _ _ hus ht => ih a ha hus ht))
    exact collapseEmpty_induction typed ((literal [] _).replacing _)

/-! ### Optimization -/

theorem tested (h : Scoped vs e) {op : LogicalOp} {function : BuiltIn} (htest : IsTest op function) :
    Scoped vs (tested op function e) := by
  induction e using inductOperands with
  | h e ih =>
    unfold Expr.tested
    split
    case h_1 role a role' b i =>
      obtain ⟨ha, hb⟩ := h.of_plain rfl
      refine .fold (.refresh (e := Expr.binary (.logical op) _ _ (fresh i.location)) (.plain rfl ?_ ?_))
      · exact ih ⟨role, a⟩ (by simp) ha
      · exact ih ⟨role', b⟩ (by simp) hb
    case h_2 =>
      refine .fold (.refresh (e := Expr.variadic (.call function) [⟨.navigate, _⟩] (fresh _)) (.variadic ?_ ?_))
      · rintro _ ⟨⟩
        rcases htest with ⟨-, rfl⟩ | ⟨-, rfl⟩ <;> exact Nat.le_refl 1
      · intro a ha
        obtain rfl := List.mem_singleton.mp ha
        exact h

theorem simplifies (simplifies : Simplifies level e r) (h : Scoped vs e) : Scoped vs r := by
  cases simplifies with
  | stays => exact h
  | @split op function role a b i j htest =>
    have union : Scoped vs (Expr.binary .union a b j) := h.argument (a := ⟨role, _⟩) (by simp)
    obtain ⟨ha, hb⟩ := union.of_plain rfl
    exact .refresh (e := Expr.binary (.logical op) _ _ (fresh i.location))
      (.plain rfl (ha.tested htest) (hb.tested htest))
  | @position a b i value n =>
    refine .refresh (e := Expr.variadic (.call .subsequence) _ (fresh i.location)) (.variadic ?_ ?_)
    · rintro _ ⟨⟩
      exact (by decide : 2 ≤ 3)
    · simp only [List.forall_mem_cons]
      exact ⟨(h.of_plain rfl).1, literal _ _, literal _ _, fun _ ha => absurd ha List.not_mem_nil⟩
  | nowhere | never => exact (literal [] _).replacing _
  | always => exact (h.of_plain rfl).1.replacing _
  | @hoist a b i =>
    obtain ⟨ha, hb⟩ := h.of_plain rfl
    exact .refresh (e := Expr.choice _ _ _ (fresh i.location)) (.choice hb ha (literal [] _))
  | @dead v a b i unused => cases h with
    | binary _ _ hb =>
      refine .replacing (hb.of_references fun w hw hvisible => ?_) _
      rcases hvisible with hvs | ⟨u, hu, heq⟩
      · exact hvs
      -- The variable that is dropped is referred to nowhere in the body.
      · obtain rfl : v = u := Option.some.inj hu
        have : b.expr.refersTo v.id = true := List.any_eq_true.mpr ⟨w, hw, by simp [heq]⟩
        exact absurd (unused.symm.trans this) Bool.false_ne_true

theorem optimized (h : Scoped vs e) : Scoped vs (e.optimized level) := by
  induction e using inductOperands generalizing vs with
  | h e ih =>
    obtain ⟨r, changes, heq⟩ := exists_optimized level e
    rw [heq]
    refine .fold (simplifies changes (.refresh (h.mapOperands fun a ha us hus => ?_)))
    rw [expr_optimizedOperand]
    exact ih a ha hus

theorem optimize (h : Scoped vs e) (level : Optimization) : Scoped vs (e.optimize level) := by
  by_cases hlevel : level = .none
  · rwa [Expr.optimize, if_pos hlevel]
  · rw [optimize_eq e hlevel]
    exact h.optimized

/-! ### Compilation -/

/-- No phase of compilation takes a reference out of its scope. -/
theorem compile (h : Scoped vs e) (compiled : e.compile s = .ok t) : Scoped vs t := by
  obtain ⟨x, hx, rest⟩ := bind_eq_ok_iff.mp compiled
  obtain rfl := Except.ok.inj rest
  exact (h.simplify.typedIn hx).optimize s.optimization

end Scoped

end Expr

end TreeQuery
