/-
Types of the items of results.

The item type of a part of a typed expression is right: wherever the part is evaluated, with global variables of their
declared types and local variables that have the values that the bindings around it give them, every item that comes
belongs to the type, also where a failure follows it (`Expr.accepts_of_bound`).

Two things are known of a typed expression besides that its properties are up to date and that its references carry the
types of what they stand for: the calculator of an arithmetic operation is the one that is chosen for the types of its
operands, and conversion is applied to atomic values only (`Expr.Operated`).

Design notes: the type of a choice or of a block does not take into account what is known to be always empty.  This is
right because no part of a choice or of a block but a literal is known to be always empty once it is typed.
-/
import TreeQuery.Proofs.OrderedResults
import TreeQuery.Proofs.TypedOperators
import TreeQuery.Proofs.ValueTypes

namespace TreeQuery

/-! ### Items of results -/

/-- Sorting adds nothing. -/
theorem mem_of_mem_sortPath {f : Forest} {xs ys : Sequence} {x : Item} (h : sortPath f xs = .ok ys) (hx : x ∈ ys) :
    x ∈ xs := by
  unfold sortPath at h
  simp only at h
  split at h
  · obtain rfl := Except.ok.inj h
    exact hx
  · split at h
    · simp at h
    · obtain ⟨ms, hms, rfl⟩ := map_eq_ok_iff.mp h
      obtain ⟨n, hn, rfl⟩ := List.mem_map.mp hx
      obtain ⟨y, hy, hnode⟩ := List.mem_filterMap.mp ((Forest.mem_sortNodes hms).mp hn)
      cases y <;> simp [Item.node?] at hnode
      rwa [← hnode]

/-- A union has the items of its parts. -/
theorem mem_of_mem_unionOf {f : Forest} {xs ys zs : Sequence} {x : Item} (h : unionOf f xs ys = .ok zs) (hx : x ∈ zs) :
    x ∈ xs ∨ x ∈ ys := by
  unfold unionOf at h
  split at h
  · obtain ⟨ms, hms, rfl⟩ := map_eq_ok_iff.mp h
    obtain ⟨n, hn, rfl⟩ := List.mem_map.mp hx
    obtain ⟨y, hy, hnode⟩ := List.mem_filterMap.mp ((Forest.mem_sortNodes hms).mp hn)
    cases y <;> simp [Item.node?] at hnode
    rw [← hnode]
    exact List.mem_append.mp hy
  · simp at h

namespace Trace

variable {t : Trace} {x : Item} {f : Forest}

theorem mem_items_sorted (h : x ∈ (t.sorted f).items) : x ∈ t.items := by
  obtain ⟨u, hu, hx⟩ := mem_items_ofResult h
  obtain ⟨xs, hxs, hu⟩ := bind_eq_ok_iff.mp hu
  obtain ⟨ys, hys, rfl⟩ := map_eq_ok_iff.mp hu
  rw [result_eq_ok_iff.mp hxs]
  exact mem_of_mem_sortPath (mapError_eq_ok_iff.mp hys) hx

theorem mem_items_concat {ts : List Trace} (h : x ∈ (concat ts).items) : ∃ t ∈ ts, x ∈ t.items := by
  induction ts with
  | nil => exact absurd h List.not_mem_nil
  | cons t rest ih =>
    rw [concat] at h
    cases hfailure : t.failure? with
    | some e =>
      rw [append_of_failure (by simp [hfailure])] at h
      exact ⟨t, List.mem_cons_self, h⟩
    | none =>
      rw [items_append_of_ok hfailure] at h
      rcases List.mem_append.mp h with h | h
      · exact ⟨t, List.mem_cons_self, h⟩
      · obtain ⟨u, hu, hx⟩ := ih h
        exact ⟨u, List.mem_cons_of_mem t hu, hx⟩

/-- A single value is what an item stands for. -/
theorem exists_of_single {v : Value} (h : t.single f = .ok (some v)) : ∃ x ∈ t.items, v = x.value f := by
  obtain ⟨x?, hx, hv⟩ := map_eq_ok_iff.mp h
  cases x? with
  | none => simp at hv
  | some x => exact ⟨x, mem_of_only hx, (Option.some.inj hv).symm⟩

end Trace

namespace Context

/-- Whether every item of a declared global variable belongs to its type. -/
def GlobalsMatch (s : StaticContext) (c : Context) : Prop :=
  ∀ name type xs, s.globalType? name = some type → c.global name = .ok xs →
    ∀ x ∈ xs, type.item.accepts c.forest x = true

theorem globalsMatch_initial (c : Context) : c.GlobalsMatch .initial := by
  intro name type xs htype
  cases htype

/-- A variable that is declared may be given a value of its type. -/
theorem GlobalsMatch.setGlobal {s : StaticContext} {c : Context} (h : c.GlobalsMatch s) (name : Name)
    {type : SequenceType} {xs : Sequence} (hxs : ∀ x ∈ xs, type.item.accepts c.forest x = true) :
    (c.setGlobal name xs).GlobalsMatch (s.declareGlobal name type) := by
  intro name' type' xs' htype hvalue
  unfold StaticContext.globalType? StaticContext.declareGlobal at htype
  unfold Context.global Context.setGlobal at hvalue
  rw [List.find?_cons] at htype hvalue
  by_cases hname : (name == name') = true
  · simp only [hname] at htype hvalue
    obtain rfl := Option.some.inj htype
    obtain rfl := Except.ok.inj hvalue
    exact hxs
  · have other : (s.globals.filter (·.1 != name)).find? (·.1 == name') = s.globals.find? (·.1 == name') := by
      rw [List.find?_filter]
      congr 1
      funext declared
      have hne : name' ≠ name := fun h => hname (by simp [h])
      by_cases hdeclared : declared.1 = name'
      · simp [hdeclared, hne]
      · simp [hdeclared]
    simp only [hname, other] at htype hvalue
    exact h name' type' xs' htype hvalue

/-- Whether every item of a local variable in scope belongs to its type. -/
def LocalsMatch (f : Forest) (scope : Scope) (c : Context) : Prop :=
  c.LocalsHold (fun type xs => ∀ x ∈ xs, type.item.accepts f x = true) scope

end Context

namespace Expr

variable {s : StaticContext} {d : Dispatcher} {scope : Scope} {e e' : Expr} {a b x y n : Operand} {i : Info}
  {c c' : Context} {z : Item} {g : Operand → Operand}

/-- What is known of every part of a typed expression. -/
def Checked (s : StaticContext) (scope : Scope) (e : Expr) : Prop := Annotated true s scope e ∧ e.Operated

/-- What is known where a part of a typed expression is evaluated. -/
structure Typesafe (s : StaticContext) (scope : Scope) (e : Expr) (c : Context) : Prop where
  parts : Everywhere (Checked s) scope e
  globals : c.GlobalsMatch s
  locals : c.LocalsMatch c.forest scope

/-- Whether every item that an expression comes to belongs to its type. -/
def Accepting (d : Dispatcher) (e : Expr) (c : Context) : Prop :=
  ∀ z ∈ (e.run d c).items, e.itemType.accepts c.forest z = true

theorem Typesafe.of_evaluates (h : Typesafe s scope e c) (evaluates : Evaluates d e c e' c')
    (operands : ∀ a ∈ e.operands, ∀ scope c, Typesafe s scope a.expr c → Accepting d a.expr c) :
    ∃ scope', Typesafe s scope' e' c' := by
  obtain ⟨hglobals, hforest, scope', hmem, locals⟩ := evaluates.locals h.parts.here.1.typed h.locals
    fun a ha hmem _ _ => by
      have accepting := operands a ha scope c ⟨h.parts.operand hmem, h.globals, h.locals⟩
      refine ⟨fun xs hxs z hz => accepting z (by rw [hxs]; exact hz), fun z hz z' hz' => ?_⟩
      rw [List.mem_singleton.mp hz']
      exact accepting z hz
  refine ⟨scope', h.parts.operand hmem, ?_, by rw [hforest]; exact locals⟩
  unfold Context.GlobalsMatch Context.global
  rw [hglobals, hforest]
  exact h.globals

/-! ### Operators -/

/-- What the operands of an expression come to, wherever they are evaluated in the course of it. -/
def OperandsAccepting (d : Dispatcher) (e : Expr) (c : Context) : Prop :=
  ∀ a ∈ e.operands, ∀ c', Evaluates d e c a.expr c' →
    ∀ z ∈ (a.expr.run d c').items, a.expr.itemType.accepts c.forest z = true

/-- Whether every item that an expression comes to belongs to the type of another. -/
def Classifies (e' : Expr) (d : Dispatcher) (e : Expr) (c : Context) : Prop :=
  ∀ z ∈ (e.run d c).items, e'.itemType.accepts c.forest z = true

/-- Whether new operands may say of which types the items are that the operands come to.  None of them is known to be
always empty where there is an item, unless it may be a guard. -/
structure OperandsClassified (g : Operand → Operand) (d : Dispatcher) (e : Expr) (c : Context) : Prop where
  types : ∀ a ∈ e.operands, ∀ c', Evaluates d e c a.expr c' →
    ∀ z ∈ (a.expr.run d c').items, (g a).expr.itemType.accepts c.forest z = true
  nonempty : e.opensGuards = false → ∀ a ∈ e.operands, ∀ c', Evaluates d e c a.expr c' →
    ∀ z ∈ (a.expr.run d c').items, (g a).expr.cardinality.isEmptyOnly = false

/-- A literal has a type for each of its values. -/
theorem accepts_literal {vs : List Value} {v : Value} (hv : v ∈ vs) (l : Location) (f : Forest) :
    (literal vs l).itemType.accepts f (.atomic v) = true :=
  ItemType.accepts_commonOf (List.mem_map_of_mem hv) (AtomicType.isSubtypeOf_refl v.type)

/-- The value that an operand comes to belongs to its atomized type. -/
theorem isSubtypeOf_single {v : Value} (h : Accepting d e c) (hv : (e.run d c).single c.forest = .ok (some v)) :
    v.type.isSubtypeOf e.itemType.atomized = true := by
  obtain ⟨z, hz, rfl⟩ := Trace.exists_of_single hv
  exact ItemType.isSubtypeOf_atomized (h z hz)

theorem accepts_atomize (h : e'.Classifies d e c) (hz : z ∈ ((e.run d c).atomize c.forest).items) :
    (ItemType.atomic e'.itemType.atomized).accepts c.forest z = true := by
  obtain ⟨w, hw, rfl⟩ := List.mem_map.mp hz
  exact ItemType.isSubtypeOf_atomized (h w hw)

theorem accepts_truth {t : Except Cause Bool} (hz : z ∈ (Trace.ofTruth t).items) :
    (ItemType.atomic .boolean).accepts c.forest z = true := by
  cases t with
  | error e => exact absurd hz List.not_mem_nil
  | ok b =>
    rw [List.mem_singleton.mp hz]
    rfl

theorem accepts_length {α : Type} {t : Except Cause α} {g : α → Nat}
    (hz : z ∈ (Trace.ofItem (t.map fun n => some (.atomic (lengthValue (g n))))).items) :
    (ItemType.atomic .integer).accepts c.forest z = true := by
  obtain ⟨n, -, h⟩ := map_eq_ok_iff.mp (Trace.mem_items_ofItem hz)
  rw [← Option.some.inj h]
  rfl

/-- The result of an operation on two single values. -/
theorem exists_of_pair {v? w? : Except Cause (Option Value)} {op : Value → Value → Except Error Value}
    (hz : z ∈ (Trace.ofItem (v?.bind fun v => w?.bind (Behaviour.pairOne op v))).items) :
    ∃ v w u, v? = .ok (some v) ∧ w? = .ok (some w) ∧ op v w = .ok u ∧ z = .atomic u := by
  obtain ⟨v?, hv, hz⟩ := bind_eq_ok_iff.mp (Trace.mem_items_ofItem hz)
  obtain ⟨w?, hw, hz⟩ := bind_eq_ok_iff.mp hz
  rcases v? with _ | v
  · simp [Behaviour.pairOne] at hz
  · rcases w? with _ | w
    · simp [Behaviour.pairOne] at hz
    · obtain ⟨u, hu, heq⟩ := map_eq_ok_iff.mp hz
      exact ⟨v, w, u, hv, hw, mapError_eq_ok_iff.mp hu, (Option.some.inj heq).symm⟩

/-- There are only integers in a range. -/
theorem accepts_range (hz : z ∈ ((binary .range a b i).run d c).items) :
    (ItemType.atomic .integer).accepts c.forest z = true := by
  have integers {low high : Int64} (hz : z ∈ (Source.range low high).trace.items) :
      (ItemType.atomic .integer).accepts c.forest z = true := by
    rw [Source.trace_range] at hz
    obtain ⟨k, -, rfl⟩ := List.mem_map.mp hz
    rfl
  rw [run_range] at hz
  obtain ⟨t, ht, hz⟩ := Trace.mem_items_ofResult hz
  obtain ⟨low?, -, ht⟩ := bind_eq_ok_iff.mp ht
  obtain ⟨high?, -, rfl⟩ := map_eq_ok_iff.mp ht
  split at hz
  · split at hz
    · exact integers hz
    · exact absurd hz List.not_mem_nil
  · exact absurd hz List.not_mem_nil

/-- The items of a path are what the steps come to. -/
theorem exists_step_of_mem_path (hz : z ∈ ((binary .path a b i).run d c).items) :
    ∃ c', Evaluates d (binary .path a b i) c b.expr c' ∧ z ∈ (b.expr.run d c').items := by
  have hz : z ∈ (found d a.expr b.expr c).items := by
    rw [run_path] at hz
    split at hz
    · exact hz
    · exact Trace.mem_items_sorted hz
  obtain ⟨before, item, hitem, hz⟩ := Trace.mem_items_expand hz
  cases item with
  -- Values are no place to step from, and the failure that they give has no items.
  | atomic v => exact absurd hz List.not_mem_nil
  | node m => exact ⟨_, .step hitem, hz⟩

/-- The items of a union are those of its operands. -/
theorem mem_or_mem_of_mem_union (hz : z ∈ ((binary .union a b i).run d c).items) :
    z ∈ (a.expr.run d c).items ∨ z ∈ (b.expr.run d c).items := by
  rw [run_union] at hz
  obtain ⟨t, ht, hz⟩ := Trace.mem_items_ofResult hz
  obtain ⟨xs, hxs, ht⟩ := bind_eq_ok_iff.mp ht
  obtain ⟨ys, hys, ht⟩ := bind_eq_ok_iff.mp ht
  obtain ⟨zs, hzs, rfl⟩ := map_eq_ok_iff.mp ht
  rw [Trace.result_eq_ok_iff.mp hxs, Trace.result_eq_ok_iff.mp hys]
  exact mem_of_mem_unionOf (mapError_eq_ok_iff.mp hzs) hz

theorem classifies_leaf {op : Leaf} (h : Typesafe s scope (leaf op i) c) :
    (leaf op i).refresh.Classifies d (leaf op i) c := by
  have typed : OperatorTyped s scope (leaf op i) := h.parts.here.1.typed
  intro z hz
  rw [itemType, props_refresh, computed]
  cases op with
  | literal vs =>
    rw [run_literal] at hz
    obtain ⟨v, hv, rfl⟩ := List.mem_map.mp hz
    exact accepts_literal hv .unknown c.forest
  | contextItem | nextMatch => rfl
  | position =>
    rw [run_position] at hz
    exact accepts_length (g := id) hz
  | last =>
    rw [run_last] at hz
    exact accepts_length (g := id) hz
  | «variable» v type =>
    obtain ⟨hv, rfl⟩ := typed
    rw [run_variable] at hz
    obtain ⟨t, ht, hz⟩ := Trace.mem_items_ofResult hz
    obtain ⟨xs, hxs, rfl⟩ := map_eq_ok_iff.mp ht
    cases htype : scope.type? v.id with
    | none => rfl
    | some type => exact h.locals v type xs hv htype (mapError_eq_ok_iff.mp hxs) z hz
  | global name type =>
    obtain rfl := typed
    rw [run_global] at hz
    obtain ⟨t, ht, hz⟩ := Trace.mem_items_ofResult hz
    obtain ⟨xs, hxs, rfl⟩ := map_eq_ok_iff.mp ht
    cases htype : s.globalType? name with
    | none => rfl
    | some type => exact h.globals name type xs htype (mapError_eq_ok_iff.mp hxs) z hz
  | step axis test =>
    rw [run_step] at hz
    obtain ⟨t, ht, hz⟩ := Trace.mem_items_ofResult hz
    obtain ⟨item, -, rfl⟩ := map_eq_ok_iff.mp ht
    cases item with
    | atomic v => exact absurd hz List.not_mem_nil
    | node m =>
      obtain ⟨k, hk, rfl⟩ := List.mem_map.mp hz
      have haccepts := (List.mem_filter.mp hk).2
      -- A test that names a kind lets no other kind through.
      cases test with
      | anyNode => rfl
      | ofKind kind => exact haccepts
      | named kind name => exact (Bool.and_eq_true_iff.mp haccepts).1

theorem classifies_unary {op : Unary} (h : Typesafe s scope (unary op a i) c)
    (old : OperandsAccepting d (unary op a i) c) (new : OperandsClassified g d (unary op a i) c) :
    ((unary op a i).mapOperands g).refresh.Classifies d (unary op a i) c := by
  have operand (hop : ∀ mode, op ≠ .applyRules mode) : (g a).expr.Classifies d a.expr c :=
    new.types a (by simp) c (.unary hop)
  intro z hz
  rw [itemType, props_refresh, mapOperands, computed]
  cases op with
  | atomize =>
    rw [run_atomize] at hz
    exact accepts_atomize (operand (by simp)) hz
  | convert target conversion =>
    rw [run_convert] at hz
    -- What is converted is known to be a value, because typing atomizes it before.
    have hatomic : a.expr.itemType.isAtomic = true := h.parts.here.2
    obtain ⟨_, item, hitem, hz⟩ := Trace.mem_items_expand hz
    have hmem := List.mem_of_getElem? hitem
    obtain ⟨v, rfl⟩ := ItemType.exists_atomic hatomic (old a (by simp) c (.unary (by simp)) item hmem)
    obtain ⟨w, hw, heq⟩ := map_eq_ok_iff.mp (Trace.mem_items_ofItem hz)
    rw [← Option.some.inj heq]
    exact Value.accepts_convertedType (operand (by simp) _ hmem) (mapError_eq_ok_iff.mp hw)
  | cast target allowsEmpty =>
    rw [run_cast] at hz
    obtain ⟨v?, -, hcast⟩ := bind_eq_ok_iff.mp (Trace.mem_items_ofItem hz)
    cases v? with
    | none => cases allowsEmpty <;> simp [Behaviour.castOne] at hcast
    | some v =>
      obtain ⟨w, hw, heq⟩ := map_eq_ok_iff.mp hcast
      rw [← Option.some.inj heq]
      exact Value.isSubtypeOf_cast (mapError_eq_ok_iff.mp hw)
  | check required =>
    rw [run_check] at hz
    exact operand (by simp) z ((Trace.items_check_prefix _ _).subset hz)
  | applyRules mode => rfl

theorem classifies_binary {op : Binary} (h : Typesafe s scope (binary op a b i) c)
    (old : OperandsAccepting d (binary op a b i) c) (new : OperandsClassified g d (binary op a b i) c) :
    ((binary op a b i).mapOperands g).refresh.Classifies d (binary op a b i) c := by
  have first : (g a).expr.Classifies d a.expr c := new.types a (by simp) c .first
  have second {c' : Context} (evaluates : Evaluates d (binary op a b i) c b.expr c') :=
    new.types b (by simp) c' evaluates
  intro z hz
  rw [itemType, props_refresh, mapOperands, computed]
  -- Where an item comes from decides: from one of the operands, as it is, or from the operator.
  cases op with
  | letIn v =>
    rw [run_letIn] at hz
    obtain ⟨t, ht, hz⟩ := Trace.mem_items_ofResult hz
    obtain ⟨xs, hxs, rfl⟩ := map_eq_ok_iff.mp ht
    exact second (.letBody (Trace.result_eq_ok_iff.mp hxs)) z hz
  | forIn v =>
    rw [run_forIn] at hz
    obtain ⟨_, item, hitem, hz⟩ := Trace.mem_items_expand hz
    exact second (.forBody (List.mem_of_getElem? hitem)) z hz
  | arithmetic op calculator =>
    rw [run_arithmetic] at hz
    obtain ⟨v, w, u, hv, hw, hu, rfl⟩ := exists_of_pair hz
    -- The type that is known rests on the calculator, which is the one for the types of the old operands.
    have hselect : calculator = .select op a.expr.itemType.atomized b.expr.itemType.atomized := h.parts.here.2
    subst hselect
    exact Value.isSubtypeOf_compute (isSubtypeOf_single (old a (by simp) c .first) hv)
      (isSubtypeOf_single (old b (by simp) c (.second rfl)) hw) hu
  | compare op =>
    rw [run_compare] at hz
    obtain ⟨v, w, u, -, -, hu, rfl⟩ := exists_of_pair hz
    obtain ⟨t, -, rfl⟩ := map_eq_ok_iff.mp hu
    rfl
  | logical op =>
    rw [run_logical] at hz
    exact accepts_truth hz
  | range => exact accepts_range hz
  | path =>
    obtain ⟨c', evaluates, hz⟩ := exists_step_of_mem_path hz
    exact second evaluates z hz
  | filter =>
    rw [run_filter] at hz
    exact first z ((Trace.items_wholeIf_sublist _ _).subset ((Trace.items_filter_sublist _ _).subset hz))
  | union =>
    rcases mem_or_mem_of_mem_union hz with hz | hz
    · exact ItemType.accepts_common_left _ (first z hz)
    · exact ItemType.accepts_common_right _ (second (.second rfl) z hz)

/-- What is known to be always empty comes to nothing. -/
theorem Settled.not_isEmptyOnly {checks : Bool} (settled : e.Settled checks) (fresh : e.props = e.computed)
    (hz : z ∈ (e.run d c).items) : e.cardinality.isEmptyOnly = false := by
  rcases settled.nonempty with hliteral | hempty
  · obtain ⟨vs, he⟩ := exists_literal hliteral
    rw [he] at fresh hz ⊢
    rw [run_literal] at hz
    rw [cardinality, fresh]
    rcases vs with _ | ⟨v, _ | ⟨w, vs⟩⟩
    · exact absurd hz List.not_mem_nil
    · rfl
    · rfl
  · exact hempty

theorem Typesafe.not_isEmptyOnly (h : Typesafe s scope e c) (opens : e.opensGuards = false) (ha : a ∈ e.operands)
    (hz : z ∈ (a.expr.run d c').items) : a.expr.cardinality.isEmptyOnly = false := by
  obtain ⟨scope', hmem⟩ := mem_operandsIn_of_operand scope ha
  exact (h.parts.here.1.settled opens a ha).not_isEmptyOnly (h.parts.operand hmem).here.1.fresh hz

theorem classifies_choice (new : OperandsClassified g d (choice x y n i) c) :
    ((choice x y n i).mapOperands g).refresh.Classifies d (choice x y n i) c := by
  intro z hz
  rw [itemType, props_refresh, mapOperands, computed]
  rw [run_choice] at hz
  simp only [Properties.ofChoice]
  obtain ⟨t, ht, hz⟩ := Trace.mem_items_ofResult hz
  obtain ⟨decision, htruth, rfl⟩ := map_eq_ok_iff.mp ht
  cases decision with
  | true =>
    have hy := new.types y (by simp) c (.yes htruth) z hz
    have hnonempty := new.nonempty rfl y (by simp) c (.yes htruth) z hz
    rw [hnonempty]
    simp only [Bool.false_and, Bool.false_eq_true, if_false, Bool.not_false, Bool.and_true]
    split
    · exact hy
    · exact ItemType.accepts_common_left _ hy
  | false =>
    have hn := new.types n (by simp) c (.no htruth) z hz
    have hnonempty := new.nonempty rfl n (by simp) c (.no htruth) z hz
    rw [hnonempty]
    simp only [Bool.false_and, Bool.false_eq_true, if_false, Bool.not_false, Bool.and_true]
    split
    · exact hn
    · exact ItemType.accepts_common_right _ hn

theorem classifies_variadic {op : Variadic} {args : List Operand} (h : Typesafe s scope (variadic op args i) c)
    (new : OperandsClassified g d (variadic op args i) c) :
    ((variadic op args i).mapOperands g).refresh.Classifies d (variadic op args i) c := by
  have arity : OperatorTyped s scope (variadic op args i) := h.parts.here.1.typed
  intro z hz
  rw [itemType, props_refresh, mapOperands]
  cases op with
  | block =>
    rw [run_block] at hz
    obtain ⟨t, ht, hz⟩ := Trace.mem_items_concat hz
    obtain ⟨a, ha, rfl⟩ := List.mem_map.mp ht
    -- Parts that are known to be empty do not count for the type; no item comes from them.
    have hnonempty := new.nonempty rfl a ha c (.argument ha) z hz
    refine ItemType.accepts_commonOf (t := (g a).expr.itemType) ?_ (new.types a ha c (.argument ha) z hz)
    exact List.mem_map.mpr ⟨g a, List.mem_filter.mpr ⟨List.mem_map_of_mem ha, by simp [hnonempty]⟩, rfl⟩
  | call function =>
    rcases args with _ | ⟨a, rest⟩
    · cases function <;> exact absurd arity (by simp [OperatorTyped, BuiltIn.arity])
    have first : (g a).expr.Classifies d a.expr c := new.types a (by simp) c (.argument (by simp))
    cases function with
    | negation =>
      rw [run_negation] at hz
      exact accepts_truth hz
    | existence =>
      rw [run_existence] at hz
      exact accepts_truth hz
    | emptiness =>
      rw [run_emptiness] at hz
      exact accepts_truth hz
    | truth =>
      rw [run_truth] at hz
      exact accepts_truth hz
    | count =>
      rw [run_count] at hz
      exact accepts_length hz
    | exactlyOne =>
      rw [run_exactlyOne] at hz
      obtain ⟨a?, ha, hz⟩ := bind_eq_ok_iff.mp (Trace.mem_items_ofItem hz)
      cases a? with
      | none => simp [Behaviour.required] at hz
      | some x =>
        obtain rfl : x = z := by simpa [Behaviour.required] using hz
        exact first x (Trace.mem_of_only ha)
    | zeroOrOne =>
      rw [run_zeroOrOne] at hz
      exact first z (Trace.mem_of_only (Trace.mem_items_ofItem hz))
    | data =>
      rw [run_data] at hz
      exact accepts_atomize first hz
    | subsequence =>
      rcases rest with _ | ⟨b, rest⟩
      · exact absurd arity (by simp [OperatorTyped, BuiltIn.arity])
      rw [run_subsequence] at hz
      obtain ⟨t, ht, hz⟩ := Trace.mem_items_ofResult hz
      obtain ⟨x, -, ht⟩ := bind_eq_ok_iff.mp ht
      obtain ⟨n?, -, rfl⟩ := map_eq_ok_iff.mp ht
      exact first z ((items_cut_sublist d a.expr c _).subset hz)

/-! ### Whole expressions -/

/-- What a part of a typed expression comes to belongs to the type that it gets from new operands. -/
theorem Typesafe.classifies_mapOperands (h : Typesafe s scope e c) (old : OperandsAccepting d e c)
    (new : OperandsClassified g d e c) : (e.mapOperands g).refresh.Classifies d e c := by
  cases e with
  | leaf op i => exact classifies_leaf h
  | unary op a i => exact classifies_unary h old new
  | binary op a b i => exact classifies_binary h old new
  | choice x y n i => exact classifies_choice new
  | variadic op args i => exact classifies_variadic h new

/-- Every item that a part of a typed expression comes to belongs to its type. -/
theorem Typesafe.accepting (h : Typesafe s scope e c) : Accepting d e c := by
  induction e using inductOperands generalizing scope c with
  | h e ih =>
    have operands : OperandsAccepting d e c := by
      intro a ha c' evaluates z hz
      obtain ⟨scope', h'⟩ := h.of_evaluates evaluates fun a ha _ _ h' => ih a ha h'
      have haccepts := ih a ha h' z hz
      rwa [evaluates.forest] at haccepts
    have classified := h.classifies_mapOperands (g := id) operands
      ⟨operands, fun opens a ha _ _ z hz => h.not_isEmptyOnly opens ha hz⟩
    rwa [mapOperands_id, refresh_eq_self h.parts.here.1.fresh] at classified

theorem Everywhere.and {P : Scope → Expr → Prop} {Q : Expr → Prop} (h : Everywhere P scope e)
    (h' : Throughout Q e) : Everywhere (fun scope e => P scope e ∧ Q e) scope e := by
  induction e using inductOperands generalizing scope with
  | h e ih =>
    refine .mk ⟨h.here, h'.here⟩ fun p hp => ?_
    obtain ⟨a, ha, hexpr⟩ := exists_operand_of_mem_operandsIn hp
    rw [← hexpr]
    exact ih a ha (hexpr ▸ h.operand hp) (h'.operand ha)

theorem checked_typedIn (built : e.Built true) (ht : typedIn s scope e = .ok e') : Everywhere (Checked s) scope e' :=
  (wellTyped_of_built built scope e' ht).1.and (operated_typedIn (unconverted_of_built built) ht)

/-- Wherever the bindings around a part lead, the part is as safe as the whole. -/
theorem typesafe_of_bound {root t sub : Expr} (built : root.Built true) (typed : root.typed s = .ok t)
    (bound : Bound d t sub c) (globals : c.GlobalsMatch s) : ∃ scope, Typesafe s scope sub c := by
  have parts : Everywhere (Checked s) [] t := checked_typedIn built typed
  obtain ⟨scope, h, locals⟩ := bound.locals (fun h => h.1) parts
    fun {scope e c₁} h _ hglobals hforest (locals : c₁.LocalsMatch c.forest scope) => by
      have globals : c₁.GlobalsMatch s := by
        unfold Context.GlobalsMatch Context.global
        rw [hglobals, hforest]
        exact globals
      have accepting : Accepting d e c₁ := Typesafe.accepting ⟨h, globals, by rw [hforest]; exact locals⟩
      unfold Accepting at accepting
      rw [hforest] at accepting
      refine ⟨fun xs hxs z hz => accepting z (by rw [hxs]; exact hz), fun z hz z' hz' => ?_⟩
      rw [List.mem_singleton.mp hz']
      exact accepting z hz
  exact ⟨scope, h, globals, locals⟩

/-- **The item types of a typed expression are right.**  Take a part of it, and a context in which global variables
conform to their declared types and local variables have the values that the bindings around the part give them.
Every item that the part comes to there belongs to the type of the part, whether or not a failure follows. -/
theorem accepts_of_bound {root t sub : Expr} {source : Source} {z : Item} (built : root.Built true)
    (typed : root.typed s = .ok t) (bound : Bound d t sub c) (globals : c.GlobalsMatch s)
    (hsource : ((sub.behaviour d).iterate c).outcome = .ok source) (hz : z ∈ source.trace.items) :
    sub.itemType.accepts c.forest z = true := by
  obtain ⟨scope, h⟩ := typesafe_of_bound built typed bound globals
  refine h.accepting (d := d) z ?_
  rw [run, Behaviour.trace, Eval.result_eq_ok_iff.mpr hsource]
  exact hz

/-- The name of a global variable. -/
def numbersName : Name := ⟨none, "numbers"⟩

/-- The variable of a loop. -/
def loopVariable : Binding := ⟨0, ⟨none, "n"⟩, 0⟩

/-- The successors of the numbers that a global variable has. -/
def successors : Expr :=
  (Binary.forIn loopVariable).on (ofLeaf (.global numbersName none) .unknown)
    ((Binary.arithmetic .add .generic).on (ofLeaf (.variable loopVariable none) .unknown)
      (literal [.integer 1] .unknown) .unknown) .unknown

/-- Where integers are declared the body of the loop has the type of integers, and where the variable is bound to the
second of two integers it comes to one. -/
theorem accepts_of_bound_successors :
    let s := StaticContext.initial.declareGlobal numbersName ⟨.atomic .integer, .any⟩
    let c := (Context.initial .empty).setGlobal numbersName [.atomic (.integer 1), .atomic (.integer 2)]
    ∃ a b i source, successors.typed s = .ok (binary (.forIn loopVariable) a b i) ∧
      b.expr.itemType = .atomic .integer ∧
      ((b.expr.behaviour .none).iterate (c.setSlot 0 [.atomic (.integer 2)])).outcome = .ok source ∧
      source.trace.items = [.atomic (.integer 3)] ∧
      b.expr.itemType.accepts .empty (.atomic (.integer 3)) = true := by
  intro s c
  have allocated : loopVariable.Allocated := ⟨.initial, _, .initial, rfl⟩
  have built : successors.Built true :=
    .forIn _ allocated (.global _ _) (.arithmetic _ _ (.reference _ allocated) (.literal _ _))
  have globals : (c.setSlot 0 [.atomic (.integer 2)]).GlobalsMatch s :=
    (Context.globalsMatch_initial (.initial .empty)).setGlobal numbersName (by decide)
  obtain ⟨a, b, i, source, htyped, hinput, htype, hsource, hitems⟩ : ∃ a b i source,
      successors.typed s = .ok (binary (.forIn loopVariable) a b i) ∧
      (a.expr.run .none c).items = [.atomic (.integer 1), .atomic (.integer 2)] ∧
      b.expr.itemType = .atomic .integer ∧
      ((b.expr.behaviour .none).iterate (c.setSlot 0 [.atomic (.integer 2)])).outcome = .ok source ∧
      source.trace.items = [.atomic (.integer 3)] := ⟨_, _, _, _, rfl, rfl, rfl, rfl, rfl⟩
  refine ⟨a, b, i, source, htyped, htype, hsource, hitems, ?_⟩
  have input : Bound .none (binary (.forIn loopVariable) a b i) a.expr c :=
    .operand (.root c) List.mem_cons_self ⟨rfl, rfl, fun _ => rfl⟩
  have body : Bound .none (binary (.forIn loopVariable) a b i) b.expr (c.setSlot 0 [.atomic (.integer 2)]) := by
    refine .forBody (.root c) input rfl rfl ?_ ⟨rfl, rfl, fun _ => rfl⟩
    rw [hinput]
    exact List.mem_cons_of_mem _ List.mem_cons_self
  refine accepts_of_bound built htyped body globals hsource ?_
  rw [hitems]
  exact List.mem_cons_self

end Expr

end TreeQuery
