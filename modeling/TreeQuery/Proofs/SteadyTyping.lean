/-
Where typing leaves the course of an evaluation alone.

Typing looks at types and lengths only, but what it puts in and what it leaves out can be noticed where an evaluation
is lazy, and it trusts lengths that are not always right.  `Expr.Steady` says that at one place this does not happen:

* a path that was known to be in order still is, or its steps find what they find without an error;
* what runs the next rule as a second operand still asks for the length of the first, if it did;
* an operand of an arithmetic operation can be converted also where the other one gives nothing, and the calculator
  for decimals comes to what integers come to;
* a check that lets nothing pass, as far as lengths are known, has nothing to let pass.

It is asked for wherever the evaluation of an expression leads (`Expr.LeadsTo`), in the scopes in which typing sees the
parts.  Then the properties of an expression describe what it comes to although it has no types yet
(`Expr.describes_of_typedIn`), and `Expr.TypableAt` says all that is known of a part.
-/
import TreeQuery.Proofs.Lengths
import TreeQuery.Proofs.PreparedOperands
import TreeQuery.Proofs.Replacement

namespace TreeQuery

namespace Expr

variable {s : StaticContext} {d : Dispatcher} {scope scope' : Scope} {e e' e₁ t x y : Expr} {a b a' b' : Operand}
  {i i' : Info} {c c' : Context} {checks : Bool}

/-! ### Typing and evaluation of operands -/

/-- In a scope and a context the evaluation of an expression comes to evaluate an operand, in another context, and
typing sees this operand in another scope. -/
inductive Enters (s : StaticContext) (d : Dispatcher) (scope : Scope) :
    Expr → Context → Scope → Expr → Context → Prop
  | first {op : Binary} {a b : Operand} {i : Info} {c : Context} : Enters s d scope (binary op a b i) c scope a.expr c
  | second {op : Binary} {a b : Operand} {i : Info} {x : Expr} {c c' : Context} : typedIn s scope a.expr = .ok x →
      Second d a b c op c' → Enters s d scope (binary op a b i) c (op.scope x scope) b.expr c'
  | other {e e' : Expr} {c c' : Context} : (∀ op a b i, e ≠ binary op a b i) → Evaluates d e c e' c' →
      Enters s d scope e c scope e' c'

/-- In a scope and a context the evaluation of an expression leads to another expression, in another context, and
typing sees that one in another scope. -/
inductive LeadsTo (s : StaticContext) (d : Dispatcher) : Scope → Expr → Context → Scope → Expr → Context → Prop
  | here {scope : Scope} {e : Expr} {c : Context} : LeadsTo s d scope e c scope e c
  | operand {scope scope' scope'' : Scope} {e e' e'' : Expr} {c c' c'' : Context} :
      Enters s d scope e c scope' e' c' → LeadsTo s d scope' e' c' scope'' e'' c'' →
        LeadsTo s d scope e c scope'' e'' c''

theorem Enters.evaluates (enters : Enters s d scope e c scope' e₁ c') : Evaluates d e c e₁ c' := by
  cases enters with
  | first => exact .first
  | second _ second => exact second.evaluates
  | other _ evaluates => exact evaluates

/-- An operator with two operands evaluates the first one as it stands. -/
theorem Evaluates.of_binary {op : Binary} (evaluates : Evaluates d (binary op a b i) c e₁ c') :
    e₁ = a.expr ∧ c' = c ∨ e₁ = b.expr ∧ Second d a b c op c' := by
  cases evaluates with
  | first => exact .inl ⟨rfl, rfl⟩
  | letBody hxs => exact .inr ⟨rfl, .letBody hxs⟩
  | forBody hitem => exact .inr ⟨rfl, .forBody hitem⟩
  | step hitem => exact .inr ⟨rfl, .step hitem⟩
  | predicate hitem => exact .inr ⟨rfl, .predicate hitem⟩
  | second hop => exact .inr ⟨rfl, .plain hop⟩
  | connective ht hop => exact .inr ⟨rfl, .connective ht hop⟩

/-- Only an operator with two operands gives values to variables. -/
theorem Evaluates.sameVariables (evaluates : Evaluates d e c e₁ c') (h : ∀ op a b i, e ≠ binary op a b i) :
    c'.SameVariables c := by
  cases evaluates with
  | unary | selection | condition | yes | no | argument => exact ⟨rfl, rfl, fun _ => rfl⟩
  | _ => exact absurd rfl (h _ _ _ _)

/-- What has been typed is entered in the scope in which it has been typed. -/
theorem OperandsTyped.exists_enters (operands : OperandsTyped s scope e e') (evaluates : Evaluates d e c e₁ c') :
    ∃ scope' t, Enters s d scope e c scope' e₁ c' ∧ typedIn s scope' e₁ = .ok t := by
  obtain ⟨z, hz, rfl⟩ := evaluates.exists_operand
  cases operands with
  | leaf op i => exact absurd hz List.not_mem_nil
  | unary _ ha =>
    obtain rfl := List.mem_singleton.mp hz
    exact ⟨scope, _, .other (by simp) evaluates, ha⟩
  | binary _ _ ha hb =>
    rcases evaluates.of_binary with ⟨heq, rfl⟩ | ⟨heq, second⟩
    · exact ⟨scope, _, heq ▸ .first, heq ▸ ha⟩
    · exact ⟨_, _, heq ▸ .second ha second, heq ▸ hb⟩
  | choice _ _ _ hx hy hn =>
    have entered : Enters s d scope (Expr.choice _ _ _ _) c scope z.expr c' := .other (by simp) evaluates
    simp only [operands_choice, List.mem_cons, List.not_mem_nil, or_false] at hz
    rcases hz with rfl | rfl | rfl
    · exact ⟨scope, _, entered, hx⟩
    · exact ⟨scope, _, entered, hy⟩
    · exact ⟨scope, _, entered, hn⟩
  | variadic hargs =>
    obtain ⟨k, hk, rfl⟩ := List.getElem_of_mem (show z ∈ _ from hz)
    exact ⟨scope, _, .other (by simp) evaluates, (hargs.get hk (Nat.lt_of_lt_of_eq hk hargs.length_eq)).2⟩

/-- Where an operator with two operands leads to. -/
theorem LeadsTo.of_binary {op : Binary} (leads : LeadsTo s d scope (binary op a b i) c scope' e' c') :
    (scope' = scope ∧ e' = binary op a b i ∧ c' = c) ∨ LeadsTo s d scope a.expr c scope' e' c' ∨
      ∃ x c₁, typedIn s scope a.expr = .ok x ∧ Second d a b c op c₁ ∧
        LeadsTo s d (op.scope x scope) b.expr c₁ scope' e' c' := by
  cases leads with
  | here => exact .inl ⟨rfl, rfl, rfl⟩
  | operand enters leads =>
    cases enters with
    | first => exact .inr (.inl leads)
    | second hx hb => exact .inr (.inr ⟨_, _, hx, hb, leads⟩)
    | other hother _ => exact absurd rfl (hother _ _ _ _)

theorem Throughout.of_leadsTo {P : Expr → Prop} (leads : LeadsTo s d scope e c scope' e' c') (h : Throughout P e) :
    Throughout P e' := by
  induction leads with
  | here => exact h
  | operand enters _ ih =>
    obtain ⟨a, ha, rfl⟩ := enters.evaluates.exists_operand
    exact ih (h.operand ha)

/-! ### Steady places -/

/-- Whether typing of the operands changes nothing that an evaluation notices besides their results.

* A path that is known to be in order is known to be after typing, or its steps find what they find without an error.
* What runs the next rule, as the second operand of a path or a filter, asks for the length after typing if it did.
* If one operand of an arithmetic operation has a value and the other one nothing, then the value can be converted.
* The calculator that is chosen for the types of the operands suits their values, if both have one.
* A check gives nothing if the lengths that it requires, among those known of the operand, are none but zero. -/
structure Steady (s : StaticContext) (d : Dispatcher) (scope : Scope) (e : Expr) (c : Context) : Prop where
  order : ∀ a b i x y, e = binary .path a b i → typedIn s scope a.expr = .ok x → typedIn s scope b.expr = .ok y →
    (Properties.pathOrder a.expr b.expr).ordered = true →
      (Properties.pathOrder x y).ordered = true ∨ (found d a.expr b.expr c).failure? = none
  next : ∀ op a b i y, e = binary op a b i → op = .path ∨ op = .filter → typedIn s scope b.expr = .ok y →
    y.RunsNext → b.expr.dependencies.last = true → y.dependencies.last = true
  conversions : ∀ op calculator a b i x y, e = binary (.arithmetic op calculator) a b i →
    typedIn s scope a.expr = .ok x → typedIn s scope b.expr = .ok y →
      x.cardinality.isEmptyOnly = false → y.cardinality.isEmptyOnly = false →
        ConvertsAlone .double s.conversion c.forest (a.expr.run d c) (b.expr.run d c) ∧
        ConvertsAlone .double s.conversion c.forest (b.expr.run d c) (a.expr.run d c)
  decimals : ∀ op calculator a b i x y v w, e = binary (.arithmetic op calculator) a b i →
    typedIn s scope a.expr = .ok x → typedIn s scope b.expr = .ok y →
      (a.expr.run d c).single c.forest = .ok (some v) → (b.expr.run d c).single c.forest = .ok (some w) →
        Value.DecimalsSuit op (.select op (x.prepared .double s.conversion).itemType.atomized
          (y.prepared .double s.conversion).itemType.atomized) v w
  checks : ∀ required a i x, e = unary (.check required) a i → typedIn s scope a.expr = .ok x →
    e.cardinality.isEmptyOnly = true ∨ (x.cardinality.inter required).isEmptyOnly = true → (e.run d c).items = []

/-- Whether an operator notices nothing of its operands but their results. -/
def Unnoticing : Expr → Prop
  | unary (.check _) _ _ => False
  | binary op _ _ _ => op ≠ .path ∧ op ≠ .filter ∧ ∀ operation calculator, op ≠ .arithmetic operation calculator
  | _ => True

theorem steady_of_unnoticing (h : e.Unnoticing) : Steady s d scope e c where
  order := by
    rintro a b i x y rfl
    exact absurd rfl h.1
  next := by
    rintro op a b i y rfl hop
    exact absurd hop (not_or.mpr ⟨h.1, h.2.1⟩)
  conversions := by
    rintro op calculator a b i x y rfl
    exact absurd rfl (h.2.2 op calculator)
  decimals := by
    rintro op calculator a b i x y v w rfl
    exact absurd rfl (h.2.2 op calculator)
  checks := by
    rintro required a i x rfl
    exact h.elim

/-! ### Checks -/

/-- A check of which it is not known that it fails lets the lengths pass that are known and required. -/
theorem isEmptyOnly_check {required : Cardinality} {j : Info}
    (ht : typedHere s (unary (.check required) a j) = .ok t)
    (hempty : (unary (.check required) a i).computed.cardinality.isEmptyOnly = true) :
    (a.expr.cardinality.inter required).isEmptyOnly = true := by
  change typedCheck required _ a.expr = .ok t at ht
  unfold typedCheck at ht
  simp only at ht
  split at ht
  · simp at ht
  · split at ht
    · simp at ht
    · simpa only [computed, Properties.ofUnary, if_neg ‹¬ a.expr.cardinality.inter required = .impossible›] using hempty

/-- A check lets a beginning pass, of a length that is known of the operand and required. -/
theorem describes_check {required : Cardinality} (h : a.expr.Describes d a.expr c)
    (possible : (unary (.check required) a i).computed.cardinality ≠ .impossible)
    (nothing : (unary (.check required) a i).computed.cardinality.isEmptyOnly = true →
      ((unary (.check required) a i).run d c).items = []) :
    (unary (.check required) a i).refresh.Describes d (unary (.check required) a i) c := by
  have hprefix := Trace.items_check_prefix (a.expr.run d c) required
  refine .of_computed ⟨?_, ?_⟩ rfl
  · generalize hcard : (unary (.check required) a i).computed.cardinality = card at *
    rw [run_check] at nothing ⊢
    -- What is known is that there is none, one at most, or nothing, so that it is enough to count to two.
    rcases hlength : ((a.expr.run d c).check required).items.length with _ | _ | n
    · exact Nat.zero_le _
    · refine Cardinality.one_le_greatest_iff.mpr ?_
      by_contra hnone
      have hempty : card.isEmptyOnly = true := by
        rcases card with ⟨_ | _, _ | _, _ | _⟩ <;> first | rfl | exact absurd rfl possible | simp at hnone
      rw [nothing hempty] at hlength
      cases hlength
    · have hrequired : required.many = true :=
        (Trace.admits_of_checkFrom (show 1 < ((a.expr.run d c).check required).items.length by omega)).2
      have hknown : a.expr.cardinality.many = true := by
        have hle := h.items.length
        have hmore := hprefix.length_le
        by_contra hnot
        have hone : a.expr.props.cardinality.greatest ≤ 1 :=
          Cardinality.greatest_le_one (by simpa [Cardinality.atMostOne, cardinality] using hnot)
        omega
      have hmany : card.many = true := by
        rw [← hcard]
        simp only [computed, Properties.ofUnary]
        split
        · exact hrequired
        · simp [Cardinality.inter, hrequired, hknown]
      rw [Cardinality.greatest_of_many hmany]
      exact Nat.min_le_right _ _
  · rw [run_check]
    have weaker := h.items.order.weaken (q := (unary (.check required) a i).computed.special)
    exact (weaker id id).sublist hprefix.sublist

/-- The properties of an expression that can be typed describe what it comes to. -/
theorem describes_of_typedIn (h : Throughout (Constructed checks) e) (hc : c.forest.Proper)
    (ht : typedIn s scope e = .ok t)
    (steady : ∀ scope' e' c', LeadsTo s d scope e c scope' e' c' → Steady s d scope' e' c') : e.Describes d e c := by
  induction e using inductOperands generalizing scope c t with
  | h e ih =>
    obtain ⟨e', operands, -⟩ := exists_operandsTyped ht
    -- That an operand can be typed tells that its lengths are possible, although it is not typed yet.
    have possible (a : Operand) (ha : a ∈ e.operands) : a.expr.cardinality ≠ .impossible := by
      obtain ⟨scope', t', ht'⟩ := operands.exists_typed ha
      exact possible_of_typedIn (h.operand ha) ht'
    have described (a : Operand) (ha : a ∈ e.operands) (c' : Context) (evaluates : Evaluates d e c a.expr c') :
        a.expr.Describes d a.expr c' := by
      obtain ⟨scope', t', enters, ht'⟩ := operands.exists_enters evaluates
      exact ih a ha (h.operand ha) (evaluates.forest ▸ hc) ht' fun _ _ _ leads => steady _ _ _ (.operand enters leads)
    cases guard : e.isGuard with
    | false => exact (h.here.untyped guard).describes_of_operands hc possible described
    -- The lengths known of a check are those of its operand and the required ones; `Steady.checks` is what
    -- makes them right.
    | true =>
      have whole := possible_of_typedIn h ht
      obtain ⟨required, a, i, rfl⟩ := h.here.exists_check guard
      have fresh := h.here.fresh
      cases operands with
      | unary _ hx =>
        suffices checked : (unary (.check required) a i).refresh.Describes d (unary (.check required) a i) c by
          rwa [refresh_eq_self fresh] at checked
        refine describes_check (described a (by simp) c (.unary (by simp))) ?_ fun hempty => ?_
        · rw [← fresh]
          exact whole
        · refine (steady scope _ c .here).checks required a i _ rfl hx (.inl ?_)
          rw [cardinality, fresh]
          exact hempty

/-! ### What is known of a part -/

/-- What is known where a part of an expression is typed and evaluated. -/
structure TypableAt (s : StaticContext) (d : Dispatcher) (scope : Scope) (e : Expr) (c : Context) : Prop where
  built : e.Built true
  scopes : scope.Possible
  conforms : c.Conforms s scope
  steady : ∀ scope' e' c', LeadsTo s d scope e c scope' e' c' → Steady s d scope' e' c'

namespace TypableAt

theorem describes (h : TypableAt s d scope e c) (ht : typedIn s scope e = .ok t) : e.Describes d e c :=
  describes_of_typedIn (constructed_of_built h.built) h.conforms.proper ht h.steady

theorem describes_typed (h : TypableAt s d scope e c) (ht : typedIn s scope e = .ok t) : t.Describes d t c :=
  h.conforms.describes (wellTyped_of_built h.built scope t ht)

theorem accepting_typed (h : TypableAt s d scope e c) (ht : typedIn s scope e = .ok t) : Accepting d t c :=
  h.conforms.suits.accepting (checked_typedIn h.built ht)

theorem possible_typed (h : TypableAt s d scope e c) (hs : s.GlobalsPossible) (ht : typedIn s scope e = .ok t) :
    t.cardinality ≠ .impossible :=
  possible_typedIn (constructed_of_built h.built) hs h.scopes ht

/-- What typing leaves of an operand can be prepared. -/
theorem preparable (h : TypableAt s d scope e c) (ht : typedIn s scope e = .ok t) (target : AtomicType)
    (conversion : Conversion) : t.Preparable d target conversion c :=
  preparable_typedIn h.built ht h.conforms.suits target conversion

/-- The operands of an expression that is ready. -/
theorem of_evaluates (h : TypableAt s d scope e c) (enters : Enters s d scope e c scope' e₁ c')
    (scopes : scope'.Possible) (conforms : c'.Conforms s scope') : TypableAt s d scope' e₁ c' where
  built := by
    obtain ⟨z, hz, rfl⟩ := enters.evaluates.exists_operand
    exact h.built.operand hz
  scopes := scopes
  conforms := conforms
  steady _ _ _ leads := h.steady _ _ _ (.operand enters leads)

theorem first {op : Binary} (h : TypableAt s d scope (binary op a b i) c) : TypableAt s d scope a.expr c :=
  h.of_evaluates .first h.scopes h.conforms

/-- Bindings give values of the types that typing hands down, if the first operand is what it was. -/
theorem second {op : Binary} (h : TypableAt s d scope (binary op a b i) c) (hs : s.GlobalsPossible)
    (ht : typedIn s scope a.expr = .ok x) (stands : x.StandsFor d a.expr c) (hb : Second d a b c op c') :
    TypableAt s d (op.scope x scope) b.expr c' := by
  have typed := (constructed_of_built h.built).here.typed
  have possible := h.first.possible_typed hs ht
  have accepting := h.first.accepting_typed ht
  have describes := h.first.describes_typed ht
  have plain (hscope : op.scope x scope = scope) (same : c'.SameVariables c) :
      TypableAt s d (op.scope x scope) b.expr c' := by
    refine h.of_evaluates (.second ht hb) ?_ ?_
    · rw [hscope]
      exact h.scopes
    · rw [hscope]
      exact h.conforms.of_sameVariables same
  cases hb with
  -- The value is that of the untyped operand, the type is that of the typed one, which stands for it.
  | @letBody v xs hxs =>
    have hrun := stands.run.eq_ofList hxs
    refine h.of_evaluates (.second ht (.letBody hxs)) (h.scopes.cons v.id possible) ?_
    refine h.conforms.setSlot typed ?_ possible fun z hz => accepting z (by rw [hrun]; exact hz)
    have length := describes.items.length
    rwa [hrun] at length
  | @forBody v item hitem =>
    refine h.of_evaluates (.second ht (.forBody hitem)) (h.scopes.cons v.id nofun) ?_
    refine h.conforms.setSlot typed (Nat.le_refl 1) nofun fun z hz => ?_
    rw [List.mem_singleton.mp hz]
    exact accepting item (stands.run.starts.subset hitem)
  | step | predicate | connective => exact plain rfl ⟨rfl, rfl, fun _ => rfl⟩
  | plain hop =>
    refine plain ?_ ⟨rfl, rfl, fun _ => rfl⟩
    cases op <;> first | rfl | exact absurd hop Bool.false_ne_true

end TypableAt

end Expr

end TreeQuery
