/-
What typing leaves comes to what the expression came to.

Typing of an expression types its operands first, and then makes one change at most.  The operator with typed operands
stands for the expression (`Expr.standsFor_refresh`), and so does what a change puts in its place
(`Expr.Types.standsFor`): one of the operands where a test of the number of items holds, a value where there is
nothing to test, nothing where an operand gives nothing, or the operator over prepared operands.  What is then known
never to give an item gives none (`Expr.Types.items_eq_nil`), so that the empty literal may replace it.  By induction
over the expression, what typing leaves stands for it (`Expr.standsFor_typedIn`), and the results of the whole are the
same (`Expr.typed_preserves`) at all places that are steady.  Elsewhere they need not be
(`Expr.typed_changes_decimalSum`).

Design notes: bindings hand down the types of what they declare, and conformance of the local variables to these types
rests on the induction itself, because a variable gets the value of an operand that has not been typed.
-/
import TreeQuery.Proofs.OptimizedResults
import TreeQuery.Proofs.SteadyTyping

namespace TreeQuery

namespace Expr

variable {s : StaticContext} {d : Dispatcher} {scope scope' : Scope} {e e' e₁ m r t x y : Expr} {a b a' b' : Operand}
  {i i' : Info} {c c' : Context}

/-! ### Operands that are typed -/

/-- What is known of the operands of an expression, wherever it comes to evaluate them: they are ready, and may be
replaced by what typing leaves of them. -/
structure OperandsStand (s : StaticContext) (d : Dispatcher) (scope : Scope) (e : Expr) (c : Context) : Prop where
  typable : ∀ {scope' e₁ c'}, Enters s d scope e c scope' e₁ c' → TypableAt s d scope' e₁ c'
  stands : ∀ {scope' e₁ c' x}, Enters s d scope e c scope' e₁ c' → typedIn s scope' e₁ = .ok x →
    x.StandsFor d e₁ c'

theorem OperandsStand.describes (h : OperandsStand s d scope e c) (enters : Enters s d scope e c scope' e₁ c')
    (hx : typedIn s scope' e₁ = .ok x) : x.Describes d e₁ c' :=
  (h.stands enters hx).describes ((h.typable enters).describes_typed hx)

/-- The new second operand of a path or a filter sees the length as the old one does, or does not see it. -/
theorem seesAlike_of_within (hd : d.IsLocal) (next : d.Overlooks)
    (within : b'.expr.dependencies.FocusWithin b.expr.dependencies) (consistent : Throughout Consistent b'.expr)
    (runs : b'.expr.RunsNext → b.expr.dependencies.last = true → b'.expr.dependencies.last = true)
    (h : (a.expr.run d c).ExtendsTo (a'.expr.run d c)) : SeesAlike d a.expr a'.expr b.expr b'.expr c := by
  by_cases hlast : b'.expr.dependencies.last = b.expr.dependencies.last
  · refine ⟨within.last, fun {k item} hk => run_eq_of_looksLike hd next _ (.withFocus _ _ _ ?_)⟩
    rw [hlast]
    cases hneeded : b.expr.dependencies.last with
    | false => rfl
    | true =>
      rw [hneeded] at hk
      exact congrArg some (lengthValue_size_congr (run_eq_of_needed rfl h hk))
  · refine NeedsNoMore.seesAlike ⟨within.last, fun hnext => ?_⟩ hd consistent h
    cases hneeded : b.expr.dependencies.last with
    | false => rfl
    | true => exact absurd ((runs hnext hneeded).trans hneeded.symm) hlast

/-- A path may be replaced by one with new operands, which is put into document order as the old one is or need not
be. -/
theorem standsFor_path (here : TypableAt s d scope (binary .path a b i) c)
    (stand : OperandsStand s d scope (binary .path a b i) c) (ha : typedIn s scope a.expr = .ok a'.expr)
    (hb : typedIn s scope b.expr = .ok b'.expr) (sees : SeesAlike d a.expr a'.expr b.expr b'.expr c) :
    (binary .path a' b' i).refresh.StandsFor d (binary .path a b i) c := by
  have hc := here.conforms.proper
  have first : a'.expr.StandsFor d a.expr c := stand.stands .first ha
  have second (c' : Context) (hc' : Second d a b c .path c') : b'.expr.StandsFor d b.expr c' :=
    stand.stands (.second ha hc') hb
  have sorting (h : (binary .path a' b' i).computed.special.ordered = i.props.special.ordered ∨
      ∃ xs, found d a.expr b.expr c = .ofList xs ∧ sortPath c.forest xs = .ok xs) :
      (binary .path a' b' i).refresh.StandsFor d (binary .path a b i) c := .path sees h first second
  rw [ordered_computed_path, show i.props = (binary .path a b i).computed from
    (constructed_of_built here.built).here.fresh, ordered_computed_path] at sorting
  cases hold : (Properties.pathOrder a.expr b.expr).ordered with
  | true =>
    -- The old path is not sorted.  It is in order, unless a failure ends it.
    rcases (here.steady scope _ c .here).order a b i _ _ rfl ha hb hold with hnew | hfound
    · exact sorting (.inl (hnew.trans hold.symm))
    · refine sorting (.inr (exists_sorted hc ((stand.typable .first).describes ha) (fun c' hc' => ?_) hold hfound))
      exact (stand.typable (.second ha hc')).describes hb
  | false =>
    cases hnew : (Properties.pathOrder a'.expr b'.expr).ordered with
    | false => exact sorting (.inl (hnew.trans hold.symm))
    | true =>
      have hunordered : i.props.special.ordered = false := by
        rw [show i.props = (binary .path a b i).computed from (constructed_of_built here.built).here.fresh,
          ordered_computed_path]
        exact hold
      cases hfailure : (found d a.expr b.expr c).failure? with
      | none =>
        refine sorting (.inr (exists_sorted hc (stand.describes .first ha) (fun c' hc' => ?_) hnew hfailure))
        exact stand.describes (.second ha hc') hb
      | some cause =>
        -- The old path is sorted, and so fails before it gives an item.
        refine .of_run ?_ ?_
        · rw [run_path, if_neg (by simp [hunordered]), Trace.sorted, Trace.result_eq_error_iff.mpr hfailure]
          exact .of_failed _ _
        · rw [opening_path, if_neg (by simp [hunordered])]

theorem forall₂_of_mem {R Q : Operand → Operand → Prop} {args args' : List Operand} (h : args.Forall₂ R args')
    (hR : ∀ a ∈ args, ∀ a', R a a' → Q a a') : args.Forall₂ Q args' :=
  List.forall₂_iff_zip.mpr ⟨h.length_eq, fun hmem => hR _ (List.of_mem_zip hmem).1 _ (List.forall₂_zip h hmem)⟩

/-- The types of variables do not matter where they are evaluated. -/
theorem run_typedLeaf (op : Leaf) : (leaf (op.typed scope) i).refresh.run d c = (leaf op i).run d c := by
  cases op with
  | «variable» v type => exact (run_variable v _).trans (run_variable v type).symm
  | _ => exact (run_leaf _).trans (run_leaf _).symm

/-- Typed operands may take the place of the operands. -/
theorem standsFor_refresh (hd : d.IsLocal) (next : d.Overlooks) (here : TypableAt s d scope e c)
    (stand : OperandsStand s d scope e c) (operands : OperandsTyped s scope e e') : e'.refresh.StandsFor d e c := by
  cases operands with
  | leaf op i =>
    refine .of_run ?_ (opening_leaf op)
    rw [run_typedLeaf]
    exact .refl _
  | unary _ ha => exact .unary rfl fun c' evaluates => stand.stands (.other (by simp) evaluates) ha
  | @binary op a b a' b' i _ _ ha hb =>
    have first : a'.expr.StandsFor d a.expr c := stand.stands .first ha
    have second (c' : Context) (hc' : Second d a b c op c') : b'.expr.StandsFor d b.expr c' :=
      stand.stands (.second ha hc') hb
    -- Only steps and predicates see the length of the first operand.
    have sees (hop : op = .path ∨ op = .filter) (hscope : op.scope a'.expr scope = scope) :
        SeesAlike d a.expr a'.expr b.expr b'.expr c := by
      have built : b.expr.Built true := here.built.operand (by simp)
      refine seesAlike_of_within hd next (focusWithin_typedIn ((constructed_of_built built).mono fun _ h =>
        h.toConsistent) hb) ?_ ?_ first.run
      · exact (wellTyped_of_built built _ _ hb).1.throughout fun _ _ h => ⟨h.fresh, h.roles⟩
      · exact (here.steady scope _ c .here).next op a b i _ rfl hop (hscope ▸ hb)
    by_cases hpath : op = .path
    · subst hpath
      exact standsFor_path here stand ha hb (sees (.inl rfl) rfl)
    by_cases hfilter : op = .filter
    · subst hfilter
      exact .filter (sees (.inr rfl) rfl) first second
    exact .binary hpath hfilter first second
  | choice _ _ _ hx hy hn =>
    exact .choice (stand.stands (.other (by simp) .condition) hx)
      (fun ht => stand.stands (.other (by simp) (.yes ht)) hy) fun ht => stand.stands (.other (by simp) (.no ht)) hn
  | @variadic op args args' i hargs =>
    have arguments : args.Forall₂ (fun a a' => a'.expr.StandsFor d a.expr c) args' :=
      forall₂_of_mem hargs fun a ha a' htyped => stand.stands (.other (by simp) (.argument ha)) htyped.2
    cases op with
    | block => exact .block arguments
    | call function => exact .call rfl arguments

/-- What is known of the value of a typed variable. -/
theorem measures_typedLeaf {op : Leaf} (here : TypableAt s d scope (leaf op i) c) :
    (∀ v type, op.typed scope = .variable v type → (type.getD .any).Measures (c.slot v.slot)) ∧
      ∀ name type, op.typed scope = .global name type → (type.getD .any).Measures (c.global name) := by
  have typed := (constructed_of_built here.built).here.typed
  refine ⟨fun v type hop => ?_, fun name type hop => ?_⟩
  · cases op <;> cases hop
    obtain ⟨allocated, rfl⟩ := typed
    rw [show (scope.type? v.id).or (Scope.type? [] v.id) = scope.type? v.id from Option.or_none]
    cases htype : scope.type? v.id with
    | none => exact SequenceType.measures_any _
    | some type =>
      exact ⟨here.scopes v.id type htype, fun xs hxs => (here.conforms.locals v type xs allocated htype hxs).2.1⟩
  · cases op <;> cases hop
    obtain rfl := typed
    exact SequenceType.measures_any _

/-- The properties of an operator with typed operands describe what the expression comes to. -/
theorem describes_refresh (hs : s.GlobalsPossible) (here : TypableAt s d scope e c)
    (stand : OperandsStand s d scope e c) (operands : OperandsTyped s scope e e') (bare : e.isGuard = false) :
    e'.refresh.Describes d e c := by
  have hc := here.conforms.proper
  have constructed := constructed_of_built here.built
  have possible := operands.possible here.scopes fun a ha _ _ hscope ht =>
    possible_typedIn (constructed.operand ha) hs hscope ht
  cases operands with
  | leaf op i =>
    -- Typing writes the type of a variable into its leaf, and by that type the value of the variable is measured.
    have described : (leaf (op.typed scope) i).refresh.Describes d (leaf (op.typed scope) i) c := by
      obtain ⟨hvariable, hglobal⟩ := measures_typedLeaf here
      exact describes_leaf hc hvariable hglobal
    refine described.sublist rfl rfl ?_
    rw [← run_typedLeaf op]
    exact List.Sublist.refl _
  | unary _ ha => exact describes_unary bare fun hop => stand.describes (.other (by simp) (.unary hop)) ha
  | binary _ _ ha hb =>
    exact describes_binary hc (fun _ => possible _ (by simp)) (fun _ => possible _ (by simp))
      (fun _ => stand.describes .first ha) fun _ c' second => stand.describes (.second ha second) hb
  | choice _ _ _ hx hy hn =>
    exact describes_choice (possible _ (by simp)) (possible _ (by simp))
      (fun ht => stand.describes (.other (by simp) (.yes ht)) hy)
      fun ht => stand.describes (.other (by simp) (.no ht)) hn
  | @variadic op args args' i hargs =>
    have arguments : args.Forall₂ (fun a a' => a'.expr.Describes d a.expr c) args' :=
      forall₂_of_mem hargs fun a ha a' htyped => stand.describes (.other (by simp) (.argument ha)) htyped.2
    cases op with
    | block =>
      refine describes_block (List.forall₂_iff_zip.mpr ⟨arguments.length_eq, fun {a a'} hmem => ?_⟩)
      exact ⟨possible a' (List.of_mem_zip hmem).2, List.forall₂_zip arguments hmem⟩
    | call function => exact describes_call constructed.here.typed.hasArguments arguments

/-! ### Changes -/

/-- An operand of which it is known that it never gives an item gives none. -/
theorem OperandsStand.items_eq_nil (h : OperandsStand s d scope e c) (enters : Enters s d scope e c scope' e₁ c')
    (hx : typedIn s scope' e₁ = .ok x) (hempty : x.cardinality.isEmptyOnly = true) : (e₁.run d c').items = [] :=
  (h.describes enters hx).items.nil_of_isEmptyOnly hempty

/-- No value comes of nothing. -/
theorem not_single_of_nil {t : Trace} {f : Forest} {v : Value} (h : t.items = []) : t.single f ≠ .ok (some v) := by
  intro hv
  obtain ⟨z, hz, -⟩ := Trace.exists_of_single hv
  rw [h] at hz
  exact absurd hz List.not_mem_nil

/-- An operator that takes nothing for nothing gives nothing. -/
theorem items_eq_nil_of_takesNothing (stand : OperandsStand s d scope e c) (operands : OperandsTyped s scope e e')
    (hm : e'.refresh = m) (takes : m.TakesNothing) (ha : a' ∈ m.operands)
    (hempty : a'.expr.cardinality.isEmptyOnly = true) : (e.run d c).items = [] := by
  -- Of two operands one that gives nothing is enough.
  have pair {op : Value → Value → Except Error Value} {x y : Operand} {t u : Trace}
      (hx : x.expr.cardinality.isEmptyOnly = true → t.items = [])
      (hy : y.expr.cardinality.isEmptyOnly = true → u.items = []) (hmem : a' = x ∨ a' = y) :
      (Trace.ofItem ((t.single c.forest).bind fun v => (u.single c.forest).bind (Behaviour.pairOne op v))).items
        = [] := by
    refine List.eq_nil_iff_forall_not_mem.mpr fun z hz => ?_
    obtain ⟨v, w, -, hv, hw, -⟩ := exists_of_pair hz
    rcases hmem with rfl | rfl
    · exact not_single_of_nil (hx hempty) hv
    · exact not_single_of_nil (hy hempty) hw
  unfold TakesNothing at takes
  split at takes
  · obtain rfl := List.mem_singleton.mp ha
    obtain ⟨a, i, rfl, hx⟩ := operands.exists_unary hm
    have hnil := stand.items_eq_nil (.other (by simp) (.unary (by simp))) hx hempty
    rw [run_cast]
    refine List.eq_nil_iff_forall_not_mem.mpr fun z hz => ?_
    obtain ⟨v?, hv, hcast⟩ := bind_eq_ok_iff.mp (Trace.mem_items_ofItem hz)
    cases v? with
    | some v => exact not_single_of_nil hnil hv
    | none => simp [Behaviour.castOne, takes] at hcast
  · obtain ⟨a, b, i, rfl, hx, hy⟩ := operands.exists_binary hm
    rw [run_arithmetic]
    exact pair (stand.items_eq_nil .first hx) (stand.items_eq_nil (.second hx (.plain rfl)) hy) (by simpa using ha)
  · obtain ⟨a, b, i, rfl, hx, hy⟩ := operands.exists_binary hm
    rw [run_compare]
    exact pair (stand.items_eq_nil .first hx) (stand.items_eq_nil (.second hx (.plain rfl)) hy) (by simpa using ha)
  · exact takes.elim

/-- A test of the number of items that is known for no items. -/
theorem standsFor_value {function : BuiltIn} {rest : List Operand} {v : Value} (hvalue : ValueOfNothing function v)
    (hnil : (a.expr.run d c).items = []) (l : Location) :
    (literal [v] l).StandsFor d (variadic (.call function) (a :: rest) i) c := by
  refine .of_run ?_ (opening_call rest function (by rintro rfl; cases hvalue) (by rintro rfl; cases hvalue))
  rw [show (literal [v] l).run d c = .ofList [.atomic v] from run_literal [v]]
  -- An operand without items may still fail, and so may the test; the value stands for that as well.
  cases hfailure : (a.expr.run d c).failure? with
  | none =>
    have hrun : a.expr.run d c = .ofList [] := Trace.ext hnil hfailure
    cases hvalue with
    | existence =>
      rw [run_existence, hrun]
      exact .refl _
    | emptiness =>
      rw [run_emptiness, hrun]
      exact .refl _
    | count =>
      rw [run_count, hrun]
      exact .refl _
  | some cause =>
    have hrun : a.expr.run d c = .failed cause := Trace.ext hnil hfailure
    cases hvalue with
    | existence =>
      rw [run_existence, hrun]
      exact .of_failed cause _
    | emptiness =>
      rw [run_emptiness, hrun]
      exact .of_failed cause _
    | count =>
      rw [run_count, hrun]
      exact .of_failed cause _

/-- What passes a test of the number of items is what is tested. -/
theorem standsFor_known (stand : OperandsStand s d scope e c) (operands : OperandsTyped s scope e e')
    (hm : e'.refresh = m) (holds : KnownToHold m a') : a'.expr.StandsFor d e c := by
  cases holds with
  | @check required _ _ _ =>
    obtain ⟨a, i, rfl, hx⟩ := operands.exists_unary hm
    have stands := stand.stands (.other (by simp) (.unary (by simp))) hx
    refine ⟨?_, ?_⟩
    · rw [run_check]
      -- A check that does not fail gives all of its operand, and one that fails gives a beginning of it.
      refine ⟨fun hnone => ?_, (Trace.items_check_prefix _ required).trans stands.run.starts⟩
      obtain ⟨hfailure, hitems, -⟩ := Trace.checkFrom_of_ok hnone
      rw [stands.run.same hfailure]
      exact Trace.ext hitems.symm (hfailure.trans hnone.symm)
    · rw [opening_check]
      exact stands.opening
  | exactlyOne =>
    obtain ⟨a, rest, i, rfl, hx⟩ := operands.exists_call hm
    have stands := stand.stands (.other (by simp) (.argument List.mem_cons_self)) hx
    refine .of_run ?_ (opening_call rest _ (by simp) (by simp))
    rw [run_exactlyOne]
    cases hitem : (a.expr.run d c).only .notExactlyOne with
    | error cause => exact .of_failed cause _
    | ok item? =>
      cases item? with
      | none => exact .of_failed .notExactlyOne _
      | some item =>
        rw [stands.run.eq_ofList (Trace.eq_of_only hitem)]
        exact .refl _
  | zeroOrOne =>
    obtain ⟨a, rest, i, rfl, hx⟩ := operands.exists_call hm
    have stands := stand.stands (.other (by simp) (.argument List.mem_cons_self)) hx
    refine .of_run ?_ (opening_call rest _ (by simp) (by simp))
    rw [run_zeroOrOne]
    cases hitem : (a.expr.run d c).only .moreThanOne with
    | error cause => exact .of_failed cause _
    | ok item? =>
      rw [stands.run.eq_ofList (Trace.eq_of_only hitem)]
      cases item? <;> exact .refl _

/-- What is cast is atomized first. -/
theorem standsFor_cast {target : AtomicType} {allowsEmpty : Bool}
    (stand : OperandsStand s d scope (unary (.cast target allowsEmpty) a i) c)
    (hx : typedIn s scope a.expr = .ok a'.expr) :
    (unary (.cast target allowsEmpty) ⟨a'.role, a'.expr.atomized⟩ i').refresh.StandsFor d
      (unary (.cast target allowsEmpty) a i) c := by
  have enters : Enters s d scope (unary (.cast target allowsEmpty) a i) c scope a.expr c :=
    .other (by simp) (.unary (by simp))
  have typable := stand.typable enters
  refine .of_run ?_ (opening_cast target allowsEmpty)
  rw [run_cast, refresh, withInfo, run_cast]
  refine .ofItem (.bind (fun v? hv => ?_) fun _ _ => .refl _)
  have fresh := (wellTyped_of_built typable.built _ _ hx).1.here.fresh
  exact single_atomized fresh (typable.accepting_typed hx) ((stand.stands enters hx).run.single _ v? hv)

/-- The operands of an arithmetic operation are prepared, and its calculator is chosen. -/
theorem standsFor_arithmetic {op : ArithmeticOp} {calculator : Calculator}
    (here : TypableAt s d scope (binary (.arithmetic op calculator) a b i) c)
    (stand : OperandsStand s d scope (binary (.arithmetic op calculator) a b i) c)
    (hx : typedIn s scope a.expr = .ok x) (hy : typedIn s scope b.expr = .ok y)
    (hfirst : x.cardinality.isEmptyOnly = false) (hsecond : y.cardinality.isEmptyOnly = false) {role role' : Role} :
    (binary (.arithmetic op (.select op (x.prepared .double s.conversion).itemType.atomized
      (y.prepared .double s.conversion).itemType.atomized)) ⟨role, x.prepared .double s.conversion⟩
      ⟨role', y.prepared .double s.conversion⟩ i').refresh.StandsFor d
        (binary (.arithmetic op calculator) a b i) c := by
  have second : Enters s d scope (binary (.arithmetic op calculator) a b i) c scope b.expr c := .second hx (.plain rfl)
  have steady := here.steady scope _ c .here
  obtain ⟨left, right⟩ := steady.conversions op calculator a b i x y rfl hx hy hfirst hsecond
  obtain rfl : calculator = .generic := (constructed_of_built here.built).here.raw
  refine .of_run ?_ (opening_arithmetic op .generic)
  rw [run_arithmetic, refresh, withInfo, run_arithmetic]
  exact .ofItem (kept_arithmetic ((stand.typable .first).preparable hx .double s.conversion)
    ((stand.typable second).preparable hy .double s.conversion) (stand.stands .first hx).run
    (stand.stands second hy).run left right fun v w => steady.decimals op .generic a b i x y v w rfl hx hy)

/-- The operands of a comparison are prepared. -/
theorem standsFor_compare {op : ComparisonOp} (stand : OperandsStand s d scope (binary (.compare op) a b i) c)
    (hx : typedIn s scope a.expr = .ok x) (hy : typedIn s scope b.expr = .ok y) {role role' : Role} :
    (binary (.compare op) ⟨role, x.prepared .string .strict⟩
      ⟨role', y.prepared .string .strict⟩ i').refresh.StandsFor d (binary (.compare op) a b i) c := by
  have second : Enters s d scope (binary (.compare op) a b i) c scope b.expr c := .second hx (.plain rfl)
  refine .of_run ?_ (opening_compare op)
  rw [run_compare, refresh, withInfo, run_compare]
  exact .ofItem (kept_compare ((stand.typable .first).preparable hx .string .strict)
    ((stand.typable second).preparable hy .string .strict) (stand.stands .first hx).run (stand.stands second hy).run)

/-- A change that typing makes gives an expression that stands for the old one. -/
theorem Types.standsFor (types : Types s m r) (hm : e'.refresh = m) (placed : d.Placed)
    (here : TypableAt s d scope e c) (stand : OperandsStand s d scope e c) (operands : OperandsTyped s scope e e')
    (typed : m.StandsFor d e c) : r.StandsFor d e c := by
  cases types with
  | stays => exact typed
  | global =>
    refine typed.trans (.of_run ?_ (opening_leaf _))
    rw [run_global, refresh, withInfo, run_global]
    exact .refl _
  | nothing takes ha hempty =>
    exact .replacing placed (.of_nil (items_eq_nil_of_takesNothing stand operands hm takes ha hempty)) _
  | value hvalue hempty =>
    obtain ⟨a, rest, i, rfl, hx⟩ := operands.exists_call hm
    have hnil := stand.items_eq_nil (.other (by simp) (.argument List.mem_cons_self)) hx hempty
    exact .replacing placed (standsFor_value hvalue hnil _) _
  | holds h => exact .replacing placed (standsFor_known stand operands hm h) _
  | arithmetic hfirst hsecond hx hy =>
    obtain ⟨a, b, i, rfl, ha, hb⟩ := operands.exists_binary hm
    subst hx hy
    exact standsFor_arithmetic here stand ha hb hfirst hsecond
  | compare =>
    obtain ⟨a, b, i, rfl, ha, hb⟩ := operands.exists_binary hm
    exact standsFor_compare stand ha hb
  | cast =>
    obtain ⟨a, i, rfl, ha⟩ := operands.exists_unary hm
    exact standsFor_cast stand ha

/-! ### Nothing -/

theorem KnownToHold.exists_enters (holds : KnownToHold m a') (operands : OperandsTyped s scope e e')
    (hm : e'.refresh = m) : ∃ e₁, Enters s d scope e c scope e₁ c ∧ typedIn s scope e₁ = .ok a'.expr := by
  cases holds with
  | check =>
    obtain ⟨a, i, rfl, hx⟩ := operands.exists_unary hm
    exact ⟨a.expr, .other (by simp) (.unary (by simp)), hx⟩
  | exactlyOne | zeroOrOne =>
    obtain ⟨a, rest, i, rfl, hx⟩ := operands.exists_call hm
    exact ⟨a.expr, .other (by simp) (.argument List.mem_cons_self), hx⟩

/-- What is replaced because it never gives an item gives none. -/
theorem Types.items_eq_nil (types : Types s m r) (hm : e'.refresh = m) (hs : s.GlobalsPossible) (placed : d.Placed)
    (here : TypableAt s d scope e c) (stand : OperandsStand s d scope e c) (operands : OperandsTyped s scope e e')
    (hr : typedHere s m = .ok r) (stands : r.StandsFor d e c) (hempty : r.cardinality.isEmptyOnly = true) :
    (e.run d c).items = [] := by
  have none_of (described : r.Describes d r c) : (e.run d c).items = [] :=
    (stands.describes described).items.nil_of_isEmptyOnly hempty
  -- What may be one item is not known to be none, which settles most changes.
  have allowed (hone : r.cardinality.one = true) : (e.run d c).items = [] := by
    have := Cardinality.one_le_greatest hone
    have := Cardinality.greatest_eq_zero hempty
    omega
  cases types with
  | stays =>
    subst hm
    cases guard : e.isGuard with
    | false => exact (describes_refresh hs here stand operands guard).items.nil_of_isEmptyOnly hempty
    | true =>
      -- Nothing else is known of a check than what is asked for in `Steady`.
      obtain ⟨required, a, i, rfl⟩ := (constructed_of_built here.built).here.exists_check guard
      cases operands with
      | unary _ hx =>
        rw [cardinality, props_refresh] at hempty
        exact (here.steady scope _ c .here).checks required a i _ rfl hx (.inr (isEmptyOnly_check hr hempty))
  | global htype =>
    refine none_of (describes_leaf here.conforms.proper (fun _ _ hop => by cases hop) fun name type hop => ?_)
    obtain ⟨rfl, rfl⟩ := Leaf.global.inj hop
    exact ⟨hs _ _ htype, fun xs hxs => Cardinality.le_greatest_of_admits (here.conforms.globals _ _ xs htype hxs)⟩
  | nothing =>
    have hrun := stands.run.starts
    rw [run_replacing placed, show empty.run d c = .ofList [] from run_literal []] at hrun
    exact List.prefix_nil.mp hrun
  | value =>
    refine allowed ?_
    rw [cardinality_replacing]
    rfl
  | holds h =>
    obtain ⟨e₁, enters, hx⟩ := h.exists_enters operands hm
    refine none_of ((((stand.typable enters).describes_typed hx).replacing _).sublist rfl rfl ?_)
    rw [run_replacing placed]
  | arithmetic | compare =>
    refine allowed ?_
    rw [cardinality, props_refresh]
    exact pairCardinality_one _ _
  | cast =>
    refine allowed ?_
    rw [cardinality, props_refresh]
    simp only [computed, Properties.ofUnary]
    split <;> rfl

/-! ### Whole expressions -/

/-- What typing leaves may take the place of the expression wherever it is evaluated. -/
theorem standsFor_typedIn (hd : d.IsLocal) (next : d.Overlooks) (placed : d.Placed) (hs : s.GlobalsPossible)
    (here : TypableAt s d scope e c) (ht : typedIn s scope e = .ok t) : t.StandsFor d e c := by
  -- On the tree, for all scopes and contexts at once: the body of a binding is reached in a larger scope,
  -- with a value in the slot of the variable.
  induction e using inductOperands generalizing scope c t with
  | h e ih =>
    obtain ⟨e', r, operands, hr, rfl⟩ := exists_typedHere ht
    have typable {scope' : Scope} {e₁ : Expr} {c' : Context} (enters : Enters s d scope e c scope' e₁ c') :
        TypableAt s d scope' e₁ c' := by
      cases enters with
      | first => exact here.first
      -- That the value conforms to the type of the typed operand is the induction hypothesis for it.
      | second ha hb => exact here.second hs ha (ih _ (by simp) here.first ha) hb
      | other hother evaluates =>
        exact here.of_evaluates (.other hother evaluates) here.scopes
          (here.conforms.of_sameVariables (evaluates.sameVariables hother))
    have stand : OperandsStand s d scope e c := by
      refine ⟨typable, fun enters hx => ?_⟩
      obtain ⟨a, ha, rfl⟩ := enters.evaluates.exists_operand
      exact ih a ha (typable enters) hx
    have types := types_of_typedHere hr
    have stands := types.standsFor rfl placed here stand operands (standsFor_refresh hd next here stand operands)
    unfold collapseEmpty
    split
    case isTrue => exact stands
    case isFalse h =>
      simp only [Bool.or_eq_true, Bool.not_eq_true', not_or, Bool.not_eq_false] at h
      exact .replacing placed (.of_nil (types.items_eq_nil rfl hs placed here stand operands hr stands h.2)) r

/-- **Typing preserves results.**  Take an expression that construction gives and that can be typed, and a context over
proper trees in which global variables have values of their declared types, each of which has values.  Wherever
evaluation leads, let typing of the operands change nothing that the evaluation notices besides their results
(`Expr.Steady`).  Then what the expression comes to without an error, the typed expression comes to as well: the same
items, of the same types. -/
theorem typed_preserves {xs : Sequence} {depth : Nat} (built : e.Built true) (typed : e.typed s = .ok t)
    (proper : c.forest.Proper) (globals : c.GlobalsConform s) (matching : c.GlobalsMatch s)
    (possible : s.GlobalsPossible)
    (steady : ∀ scope e' c', LeadsTo s (dispatcherWithin depth) [] e c scope e' c' →
      Steady s (dispatcherWithin depth) scope e' c')
    (hxs : ((e.behaviour (dispatcherWithin depth)).collect c).outcome = .ok xs) :
    ((t.behaviour (dispatcherWithin depth)).collect c).outcome = .ok xs := by
  have here : TypableAt s (dispatcherWithin depth) [] e c :=
    ⟨built, .nil, ⟨proper, globals, matching, .nil _ c, .nil _ c⟩, steady⟩
  have stands := standsFor_typedIn (dispatcherWithin_isLocal depth) (dispatcherWithin_overlooks depth)
    (dispatcherWithin_placed depth) possible here typed
  rw [collect_eq_ok_iff] at hxs ⊢
  exact stands.run.eq_ofList hxs

/-- The sum of a bound number, of which it is tested that it is one, and another. -/
def boundSum : Expr := (Binary.letIn bound).on (literal [.integer 1] .unknown) sum .unknown
where
  /-- The first variable. -/
  bound : Binding := ⟨0, .plain "v", 0⟩
  /-- The first of the two numbers. -/
  tested : Expr := orValues.call .exactlyOne (ofLeaf (.variable bound none) .unknown)
  /-- The sum itself. -/
  sum : Expr := (Binary.arithmetic .add .generic).on tested (literal [.integer 2] .unknown) .unknown

/-- Where the variable is a number both operands are, so that nothing has to be converted, and integers are added. -/
theorem steady_boundSum (d : Dispatcher) : Steady .initial d [(0, ⟨.atomic .integer, .exactlyOne⟩)] boundSum.sum
    ((Context.initial .empty).setSlot 0 [.atomic (.integer 1)]) := by
  have operands {op : Binary} {a b : Operand} {i : Info} (h : boundSum.sum = binary op a b i) :
      op = .arithmetic .add .generic ∧ a.expr = boundSum.tested ∧ b.expr = literal [.integer 2] .unknown := by
    obtain ⟨rfl, rfl, rfl, -⟩ := Expr.binary.inj h
    exact ⟨rfl, rfl, rfl⟩
  refine ⟨?_, ?_, ?_, ?_, fun _ _ _ _ he => by cases he⟩
  · intro a b i x y he
    cases (operands he).1
  · intro op a b i y he hop
    obtain ⟨rfl, -⟩ := operands he
    simp at hop
  · intro op calculator a b i x y he _ _ _ _
    obtain ⟨-, ha, hb⟩ := operands he
    rw [ha, hb]
    exact ⟨fun _ _ hnone => (nomatch hnone), fun _ _ hnone => (nomatch hnone)⟩
  · intro op calculator a b i x y v w he hx hy _ _
    obtain ⟨hop, ha, hb⟩ := operands he
    obtain ⟨rfl, -⟩ := Binary.arithmetic.inj hop
    rw [ha] at hx
    rw [hb] at hy
    obtain rfl := Except.ok.inj hx
    obtain rfl := Except.ok.inj hy
    exact nofun

/-- Typing takes the test away and adds integers, which comes to the same. -/
theorem typed_preserves_boundSum :
    let c := Context.initial .empty
    ∃ t, boundSum.Built true ∧ boundSum.typed .initial = .ok t ∧ c.forest.Proper ∧ c.GlobalsConform .initial ∧
      c.GlobalsMatch .initial ∧ StaticContext.initial.GlobalsPossible ∧
      (∀ scope e' c', LeadsTo .initial (dispatcherWithin 0) [] boundSum c scope e' c' →
        Steady .initial (dispatcherWithin 0) scope e' c') ∧
      ((boundSum.behaviour (dispatcherWithin 0)).collect c).outcome = .ok [.atomic (.integer 3)] ∧
      ((t.behaviour (dispatcherWithin 0)).collect c).outcome = .ok [.atomic (.integer 3)] := by
  intro c
  have allocated : boundSum.bound.Allocated := ⟨.initial, _, .initial, rfl⟩
  have built : boundSum.Built true := .letIn _ allocated (.literal _ _)
    (.arithmetic _ _ (built_call _ (.reference _ allocated) rfl) (.literal _ _))
  have proper : c.forest.Proper := by decide
  have undeclared (name : Name) : StaticContext.initial.globalType? name = none := rfl
  have globals : c.GlobalsConform .initial := fun name type xs htype => by cases (undeclared name).symm.trans htype
  have matching : c.GlobalsMatch .initial := fun name type xs htype => by cases (undeclared name).symm.trans htype
  have possible : StaticContext.initial.GlobalsPossible := fun name type htype => by
    cases (undeclared name).symm.trans htype
  have number (n : Int64) : Throughout Unnoticing (literal [.integer n] .unknown) :=
    .mk trivial (by simp [literal, ofLeaf])
  have tested : Throughout Unnoticing boundSum.tested :=
    .mk trivial fun a ha => by
      obtain rfl := List.mem_singleton.mp ha
      exact .mk trivial (by simp [Operand.expr, ofLeaf])
  have steady : ∀ scope e' c', LeadsTo .initial (dispatcherWithin 0) [] boundSum c scope e' c' →
      Steady .initial (dispatcherWithin 0) scope e' c' := by
    intro scope e' c' leads
    rcases LeadsTo.of_binary leads with ⟨rfl, rfl, rfl⟩ | leads | ⟨x, c₁, hx, second, leads⟩
    · exact steady_of_unnoticing ⟨by simp, by simp, by simp⟩
    · exact steady_of_unnoticing ((number 1).of_leadsTo leads).here
    obtain rfl := Except.ok.inj hx
    cases second with
    | @letBody _ xs hxs =>
      obtain rfl : [Item.atomic (.integer 1)] = xs := congrArg Trace.items hxs
      rcases LeadsTo.of_binary leads with ⟨rfl, rfl, rfl⟩ | leads | ⟨y, c₂, -, -, leads⟩
      · exact steady_boundSum _
      · exact steady_of_unnoticing (tested.of_leadsTo leads).here
      · exact steady_of_unnoticing ((number 2).of_leadsTo leads).here
    | plain hop => cases hop
  exact ⟨_, built, rfl, proper, globals, matching, possible, steady, rfl,
    typed_preserves built rfl proper globals matching possible steady rfl⟩

/-- Whether typing of an expression that construction gives changes what the expression comes to: after typing it is
something else, or there is a failure. -/
def TypingChanges (s : StaticContext) (d : Dispatcher) (e : Expr) (c : Context) (before : Sequence)
    (after? : Option Sequence) : Prop :=
  e.Built true ∧ ∃ t, e.typed s = .ok t ∧ ((e.behaviour d).collect c).outcome = .ok before ∧
    ((t.behaviour d).collect c).outcome.toOption = after? ∧ after? ≠ some before

/-- The sum of a bound integer that is cast to a decimal, which it is, and another. -/
def decimalSum : Expr :=
  (Binary.letIn boundSum.bound).on (literal [.integer 1] .unknown) ((Binary.arithmetic .add .generic).on
    ((Unary.cast .decimal false).on (ofLeaf (.variable boundSum.bound none) .unknown) .unknown)
    (literal [.integer 1] .unknown) .unknown) .unknown

/-- The sum of something that is no number, and of nothing. -/
def unneededSum : Expr :=
  (Binary.arithmetic .add .generic).on
    ((Unary.cast .untypedAtomic false).on (literal [.string "abc"] .unknown) .unknown)
    (Binary.filter.on (literal [.integer 1] .unknown) (literal [.boolean false] .unknown) .unknown) .unknown

/-- Whether steps from the context item, and from what is nothing after typing only, find anything. -/
def foundFirst : Expr :=
  orValues.call .existence (Binary.path.on (Binary.union.on (block [ofLeaf .contextItem .unknown, nothing] .unknown)
    (literal [] .unknown) .unknown) failingBehindFirst .unknown)
where
  /-- The values of nothing. -/
  nothing : Expr := orValues.call .data
    ((Binary.forIn boundSum.bound).on (literal [] .unknown) (literal [.integer 1] .unknown) .unknown)

/-- The numbers for which the next rule gives their position, where the length is asked for before typing only. -/
def askedLength : Expr :=
  Binary.filter.on (literal [.integer 7, .integer 8] .unknown) (block [ofLeaf .nextMatch .unknown,
    (Binary.arithmetic .add .generic).on (literal [] .unknown) (ofLeaf .last .unknown) .unknown] .unknown) .unknown
where
  /-- A rule for any item that gives the length. -/
  rule (rank : Nat) : Rule := ⟨.anyItem, ofLeaf .last .unknown, 0, 0, rank, rank, true⟩
  /-- Where the second of two such rules is executed. -/
  context : Context :=
    let mode := { Mode.initial .unnamed with rules := [rule 0, rule 1], general := [1, 0], ranked := true }
    { Context.initial .empty with rules? := some ⟨[mode], 0⟩, currentRule? := some ⟨.unnamed, 1⟩ }

/-- Whether there is an item in a number and a global variable. -/
def orGlobal : Expr := orValues.call .existence
  (block [literal [.integer 1] .unknown, ofLeaf (.global (.plain "g") none) .unknown] .unknown)

/-- The children of the context item, and of what is nothing after typing only. -/
def childrenOfOne : Expr :=
  (Binary.letIn boundSum.bound).on (literal [] .unknown)
    (Binary.path.on (Binary.union.on (ofLeaf (.variable boundSum.bound none) .unknown)
      (ofLeaf .contextItem .unknown) .unknown) (ofLeaf (.step .child .anyNode) .unknown) .unknown) .unknown

/-- An element that lists the only element in it twice. -/
def listedTwice : Forest :=
  (Forest.empty.add (twoBranches.element "b" [])).add (twoBranches.element "a" [0, 0])

/-- Integers are added as decimals where one of them has been cast to a decimal.  What is no number fails to be
converted where it is not needed.  Steps are sorted that were not, and so fail before the first item.  The next rule
does not see a length that nothing asks for.  A global variable that cannot have a value counts as empty, although it
would never be asked for.  And the steps of a path come unsorted, and twice from trees that list a node twice. -/
theorem typed_changes_decimalSum :
    let impossible : StaticContext := { StaticContext.initial with globals := [(.plain "g", ⟨.any, .impossible⟩)] }
    TypingChanges .initial .none decimalSum (.initial .empty)
      [.atomic (.integer 2)] (some [.atomic (.decimal (doubleOfInt 2))]) ∧
    TypingChanges .initial .none unneededSum (.initial .empty) [] none ∧
    TypingChanges .initial .none foundFirst ((Context.initial longBranch).withFocus (.node 3) 1 none)
      [.atomic (.boolean true)] none ∧
    TypingChanges .initial (dispatcherWithin 1) askedLength askedLength.context
      [.atomic (.integer 8)] (some [.atomic (.integer 7), .atomic (.integer 8)]) ∧
    TypingChanges impossible .none orGlobal (.initial .empty)
      [.atomic (.boolean true)] (some [.atomic (.boolean false)]) ∧
    TypingChanges .initial .none childrenOfOne ((Context.initial listedTwice).withFocus (.node 1) 1 none)
      [.node 0] (some [.node 0, .node 0]) := by
  have allocated : boundSum.bound.Allocated := ⟨.initial, _, .initial, rfl⟩
  refine ⟨⟨?_, _, rfl, rfl, rfl, by simp⟩, ⟨?_, _, rfl, rfl, rfl, by simp⟩, ⟨?_, _, rfl, ?_, ?_, by simp⟩,
    ⟨?_, _, rfl, rfl, rfl, by simp⟩, ⟨?_, _, rfl, rfl, rfl, by simp⟩,
    ⟨?_, _, rfl, by cbv, by cbv, by simp⟩⟩
  · exact .letIn _ allocated (.literal _ _) (.arithmetic _ _ (.cast _ _ _ (.reference _ allocated)) (.literal _ _))
  · exact .arithmetic _ _ (.cast _ _ _ (.literal _ _)) (.filter _ (.literal _ _) (.literal _ _))
  · have nothing : foundFirst.nothing.Built true :=
      built_call _ (.forIn _ allocated (.literal _ _) (.literal _ _)) rfl
    have start : (block [ofLeaf .contextItem .unknown, foundFirst.nothing] .unknown).Built true :=
      .block _ (by simpa using ⟨.contextItem _, nothing⟩)
    exact built_call _ (.path _ (.union _ start (.literal _ _)) (built_failingBehindFirst _)) rfl
  · refine collect_eq_ok_iff.mpr ((run_existence _).trans (congrArg Trace.ofTruth (?_ : _ = Except.ok true)))
    decide +kernel
  · refine Option.isNone_iff_eq_none.mp ?_
    decide +kernel
  · exact .filter _ (.literal _ _) (.block _ (by
      simpa using ⟨.nextMatch _, .arithmetic _ _ (.literal _ _) (.last _)⟩))
  · exact built_call _ (.block _ (by simpa using ⟨.literal _ _, .global _ _⟩)) rfl
  · exact .letIn _ allocated (.literal _ _)
      (.path _ (.union _ (.reference _ allocated) (.contextItem _)) (.step _ _ _))

end Expr

end TreeQuery
