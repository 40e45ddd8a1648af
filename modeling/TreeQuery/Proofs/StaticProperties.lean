/-
What static properties say of a result.

`Properties.Describes` says that items can be those of a result with given properties, or some of them: there
are not too many, and they are in document order or apart where the properties say so.  Fewer items are
described as well (`Properties.Describes.sublist`), so that the items before a failure are no special case.

The properties of one expression may describe what another one comes to (`Expr.Describes`).  This is what is
needed when operands are replaced: the properties of the whole are then computed from those of the new
operands, while the old operands are what is known of the result.

Main statements:

* `Expr.describes_unary`, `Expr.describes_binary`, `Expr.describes_choice` and so on — an operator whose
  operands are described is described by the properties that it gets from them;
* `Expr.Situated.describes` — the properties of a typed expression describe what it comes to;
* `Expr.Untyped.describes` — so do those of an expression whose variables have no types.
-/
import Mathlib.Data.List.Forall2
import TreeQuery.Proofs.FocusDependencies
import TreeQuery.Proofs.OrderedResults

namespace TreeQuery

/-! ### Lengths -/

namespace Cardinality

variable {a b c : Cardinality} {lo hi m n : Nat}

theorem greatest_union_empty (c : Cardinality) : (c.union empty).greatest = c.greatest := by
  rcases c with ⟨_ | _, _ | _, _ | _⟩ <;> rfl

theorem greatest_le_union (a b : Cardinality) : a.greatest ≤ (a.union b).greatest := by
  rcases a with ⟨_ | _, _ | _, _ | _⟩ <;> rcases b with ⟨_ | _, _ | _, _ | _⟩ <;> decide

theorem greatest_le_either_empty (c : Cardinality) : c.greatest ≤ (c.either empty).greatest := by
  rcases c with ⟨_ | _, _ | _, _ | _⟩ <;> decide

theorem union_empty_ne_impossible (c : Cardinality) : c.union empty ≠ impossible := by
  rcases c with ⟨_ | _, _ | _, _ | _⟩ <;> decide

theorem one_le_greatest (h : c.one = true) : 1 ≤ c.greatest := one_le_greatest_iff.mpr (.inl h)

theorem greatest_le_one (h : c.atMostOne = true) : c.greatest ≤ 1 := by
  rcases c with ⟨_ | _, _ | _, _ | _⟩ <;> revert h <;> decide

theorem greatest_eq_zero (h : c.isEmptyOnly = true) : c.greatest = 0 := by
  rw [eq_of_beq h]
  rfl

theorem le_greatest_multiply (ha : a ≠ impossible) (hb : b ≠ impossible)
    (hn : min n 2 ≤ a.greatest * b.greatest) : min n 2 ≤ (a.multiply b).greatest := by
  rw [multiply, greatest_between (Nat.mul_le_mul (least_le_greatest ha) (least_le_greatest hb))]
  omega

theorem le_greatest_either_left (h : a ≠ impossible) : a.greatest ≤ (a.either b).greatest := by
  have := least_le_greatest h
  have := a.greatest_le_two
  rw [either, greatest_between (by omega)]
  omega

theorem le_greatest_either_right (h : b ≠ impossible) : b.greatest ≤ (a.either b).greatest := by
  have := least_le_greatest h
  have := b.greatest_le_two
  rw [either, greatest_between (by omega)]
  omega

end Cardinality

/-! ### Described items -/

/-- Whether items may be those of a result with these properties, or some of them. -/
structure Properties.Describes (p : Properties) (f : Forest) (xs : Sequence) : Prop where
  length : min xs.length 2 ≤ p.cardinality.greatest
  order : p.special.Describes f xs

namespace Properties.Describes

variable {p q : Properties} {f : Forest} {xs ys : Sequence}

theorem sublist (h : p.Describes f xs) (hs : ys.Sublist xs) : p.Describes f ys where
  length := Nat.le_trans (by have := hs.length_le; omega) h.length
  order := h.order.sublist hs

theorem nil (p : Properties) (f : Forest) : p.Describes f [] := ⟨Nat.zero_le _, .nil _ f⟩

/-- Properties that say less. -/
theorem weaken (h : p.Describes f xs) (hcard : p.cardinality.greatest ≤ q.cardinality.greatest)
    (hordered : q.special.ordered = true → p.special.ordered = true)
    (hpeer : q.special.peer = true → p.special.peer = true) : q.Describes f xs :=
  ⟨Nat.le_trans h.length hcard, h.order.weaken hordered hpeer⟩

theorem of_single (hlength : xs.length ≤ 1) (hcard : p.cardinality.one = true) : p.Describes f xs where
  length := by
    have := Cardinality.one_le_greatest hcard
    omega
  order := .of_length_le _ f hlength

/-- Nothing is said of the order. -/
theorem of_silent (hlength : min xs.length 2 ≤ p.cardinality.greatest)
    (hordered : p.special.ordered = false) (hpeer : p.special.peer = false) : p.Describes f xs :=
  ⟨hlength, .of_silent f xs hordered hpeer⟩

theorem of_ofItem (x : Except Cause (Option Item)) (hcard : p.cardinality.one = true) :
    p.Describes f (Trace.ofItem x).items := of_single (Trace.length_ofItem_le x) hcard

/-- Where something has to be computed first, a failure leaves no items. -/
theorem ofResult {r : Except Cause Trace} (h : ∀ t, r = .ok t → p.Describes f t.items) :
    p.Describes f (Trace.ofResult r).items := by
  cases r with
  | error e => exact nil p f
  | ok t => exact h t rfl

/-- Any number of items, in no particular order. -/
theorem of_any (hcard : p.cardinality = .any) (hordered : p.special.ordered = false)
    (hpeer : p.special.peer = false) : p.Describes f xs :=
  of_silent (by rw [hcard]; exact Nat.min_le_right _ _) hordered hpeer

/-- Where there is an item, the length is not that of an empty sequence. -/
theorem nil_of_isEmptyOnly (h : p.Describes f xs) (hempty : p.cardinality.isEmptyOnly = true) :
    xs = [] := by
  have := h.length
  rw [Cardinality.greatest_eq_zero hempty] at this
  exact List.eq_nil_of_length_eq_zero (by omega)

end Properties.Describes

namespace Trace

variable {t : Trace} {f : Nat → Item → Trace} {a : Item}

theorem items_atomize (f : Forest) (t : Trace) :
    (t.atomize f).items = t.items.map fun a => .atomic (a.value f) := rfl

/-- The number of items that the items of a sequence are replaced by. -/
theorem length_expand_le_multiply {m n : Cardinality} (hm : m ≠ .impossible) (hn : n ≠ .impossible)
    (ht : min t.items.length 2 ≤ m.greatest)
    (hf : ∀ i x, t.items[i]? = some x → min (f i x).items.length 2 ≤ n.greatest) :
    min (t.expand f).items.length 2 ≤ (m.multiply n).greatest :=
  Cardinality.le_greatest_multiply hm hn (length_expand_le_mul ht hf)

theorem length_concat_le {α β : Type} {run : α → Trace} {card : β → Cardinality} {parts : List α}
    {parts' : List β}
    (h : parts.Forall₂ (fun a b => card b ≠ .impossible ∧
      min (run a).items.length 2 ≤ (card b).greatest) parts')
    {start : Cardinality} {n : Nat} (hstart : start ≠ .impossible) (hn : min n 2 ≤ start.greatest) :
    min (n + (concat (parts.map run)).items.length) 2 ≤
      (parts'.foldl (fun c b => c.sum (card b)) start).greatest := by
  induction h generalizing start n with
  | nil => exact hn
  | @cons a b rest rest' hb _ ih =>
    have hsum : start.sum (card b) ≠ .impossible := Cardinality.between_ne_impossible _ _
    have hrest := ih hsum (Cardinality.le_greatest_sum hstart hb.1 hn hb.2)
    have := items_append_subset (run a) (concat (rest.map run))
    rw [List.map_cons, concat, List.foldl_cons]
    omega

end Trace

/-- Whether a length is known of a variable with this type: of every value that it may have, and that there
may be one. -/
structure SequenceType.Measures (type : SequenceType) (value : Except Error Sequence) : Prop where
  possible : type.cardinality ≠ .impossible
  length : ∀ xs, value = .ok xs → min xs.length 2 ≤ type.cardinality.greatest

theorem SequenceType.measures_any (value : Except Error Sequence) : any.Measures value :=
  ⟨(nomatch ·), fun _ _ => Nat.min_le_right _ _⟩

/-- Whether an operator says nothing of the type of a variable. -/
def Leaf.IsUntyped : Leaf → Prop
  | .variable _ type => type = none
  | .global _ type => type = none
  | _ => True

namespace Expr

/-- Whether the properties of an expression describe what another one comes to.  Those of a step along an axis
say in addition that there is nothing but nodes on that axis. -/
structure Describes (e' : Expr) (d : Dispatcher) (e : Expr) (c : Context) : Prop where
  items : e'.props.Describes c.forest (e.run d c).items
  axis : ∀ axis n, e'.stepAxis? = some axis → c.item = .ok (.node n) →
    (e.run d c).items.Sublist ((axis.nodes c.forest n).map .node)

variable {s : StaticContext} {d : Dispatcher} {e e' : Expr} {c c' : Context} {scope : Scope}

namespace Describes

/-- What gives no more than a described expression is described. -/
theorem sublist (h : e'.Describes d e c) {e₂ : Expr} {c₂ : Context} (hforest : c₂.forest = c.forest)
    (hitem : c₂.item = c.item) (hs : (e₂.run d c₂).items.Sublist (e.run d c).items) :
    e'.Describes d e₂ c₂ where
  items := hforest ▸ h.items.sublist hs
  axis axis n haxis hn := hforest ▸ hs.trans (h.axis axis n haxis (hitem ▸ hn))

theorem replacing (h : e'.Describes d e c) (old : Expr) : (old.replacing e').Describes d e c := by
  unfold Expr.replacing
  split
  · refine ⟨?_, fun axis n haxis => h.axis axis n ?_⟩
    · rw [props_withLocation]
      exact h.items
    · cases e' with
      | leaf op i => cases op <;> exact haxis
      | _ => exact haxis
  · exact h

/-- Everything is right about nothing. -/
theorem of_nil (h : (e.run d c).items = []) : e'.Describes d e c where
  items := h ▸ .nil _ _
  axis _ _ _ _ := h ▸ List.nil_sublist _

/-- An operator that is no step. -/
theorem of_computed (h : e'.computed.Describes c.forest (e.run d c).items)
    (hstep : e'.refresh.stepAxis? = none) : e'.refresh.Describes d e c where
  items := by
    rw [props_refresh]
    exact h
  axis axis n haxis := absurd (hstep.symm.trans haxis) (nomatch ·)

end Describes

/-! ### Operators -/

/-- Whether a call has the arguments that its function needs. -/
def HasArguments : Expr → Prop
  | variadic (.call function) args _ => function.arity.1 ≤ args.length
  | _ => True

theorem OperatorTyped.hasArguments (h : OperatorTyped s scope e) : e.HasArguments := by
  unfold HasArguments
  split
  · exact h
  · trivial

section Operators

variable {a a' b b' x x' y y' n n' : Operand} {i i' : Info}

theorem describes_leaf {op : Leaf} (hc : c.forest.Proper)
    (hvariable : ∀ v type, op = .variable v type → (type.getD .any).Measures (c.slot v.slot))
    (hglobal : ∀ name type, op = .global name type → (type.getD .any).Measures (c.global name)) :
    (leaf op i').refresh.Describes d (leaf op i) c := by
  -- Only a step says something of an axis; of all other leaves the items are all there is to describe.
  have of_silent (hstep : (leaf op i').refresh.stepAxis? = none)
      (items : (Properties.ofLeaf op).Describes c.forest ((leaf op i).run d c).items) :
      (leaf op i').refresh.Describes d (leaf op i) c :=
    ⟨items, fun axis n haxis => by rw [hstep] at haxis; cases haxis⟩
  cases op with
  | literal vs =>
    refine of_silent rfl ?_
    rw [run_literal]
    refine .of_silent ?_ rfl rfl
    rcases vs with _ | ⟨v, _ | ⟨w, vs⟩⟩
    · exact Nat.zero_le _
    · exact Nat.le_refl 1
    · exact Nat.min_le_right _ _
  | contextItem =>
    refine of_silent rfl ?_
    rw [run_contextItem]
    exact .of_ofItem _ rfl
  | position =>
    refine of_silent rfl ?_
    rw [run_position]
    exact .of_ofItem _ rfl
  | last =>
    refine of_silent rfl ?_
    rw [run_last]
    exact .of_ofItem _ rfl
  | «variable» v type =>
    refine of_silent rfl ?_
    rw [run_variable]
    refine .ofResult fun t ht => ?_
    obtain ⟨xs, hxs, rfl⟩ := map_eq_ok_iff.mp ht
    exact .of_silent ((hvariable v type rfl).length xs (mapError_eq_ok_iff.mp hxs)) rfl rfl
  | global name type =>
    refine of_silent rfl ?_
    rw [run_global]
    refine .ofResult fun t ht => ?_
    obtain ⟨xs, hxs, rfl⟩ := map_eq_ok_iff.mp ht
    exact .of_silent ((hglobal name type rfl).length xs (mapError_eq_ok_iff.mp hxs)) rfl rfl
  | step axis test =>
    refine ⟨?_, fun axis' n haxis hn => ?_⟩
    · rw [run_step]
      refine .ofResult fun t ht => ?_
      obtain ⟨item, -, rfl⟩ := map_eq_ok_iff.mp ht
      cases item with
      | atomic v => exact .nil _ _
      | node n =>
        exact Properties.Describes.sublist ⟨length_axis axis test c.forest n, .of_axis hc axis test n⟩
          (List.filter_sublist.map _)
    · obtain rfl : axis = axis' := by simpa [stepAxis?, refresh, withInfo] using haxis
      rw [run_step, hn]
      exact List.filter_sublist.map _
  | nextMatch => exact of_silent rfl (.of_any rfl rfl rfl)
where
  /-- A step to the node itself or to its parent finds one node at most. -/
  length_axis (axis : Axis) (test : NodeTest) (f : Forest) (n : Nat) :
      min ((axis.nodes f n).map Item.node).length 2 ≤
        (Properties.ofLeaf (.step axis test)).cardinality.greatest := by
    simp only [Properties.ofLeaf, List.length_map]
    split
    · rename_i haxis
      rcases haxis with rfl | rfl
      · exact Nat.le_refl 1
      · simp only [Axis.nodes]
        cases f.parent? n
        · exact Nat.zero_le _
        · exact Nat.le_refl 1
    · exact Nat.min_le_right _ _

/-- The values that items stand for. -/
theorem describes_values {p : Properties} {e' e : Expr} (h : e'.Describes d e c)
    (hcard : p.cardinality = if e'.itemType.isAtomic then e'.cardinality else .any)
    (hordered : p.special.ordered = false) (hpeer : p.special.peer = false) :
    p.Describes c.forest ((e.run d c).atomize c.forest).items := by
  refine .of_silent ?_ hordered hpeer
  rw [Trace.items_atomize, List.length_map, hcard]
  split
  · exact h.items.length
  · exact Nat.min_le_right _ _

theorem describes_unary {op : Unary} (bare : (unary op a i).isGuard = false)
    (h : (∀ mode, op ≠ .applyRules mode) → a'.expr.Describes d a.expr c) :
    (unary op a' i').refresh.Describes d (unary op a i) c := by
  refine .of_computed ?_ rfl
  cases op with
  | atomize =>
    rw [run_atomize]
    exact describes_values (h (by simp)) rfl rfl rfl
  | cast target allowsEmpty =>
    rw [run_cast]
    refine .of_ofItem _ ?_
    simp only [computed, Properties.ofUnary]
    split <;> rfl
  | applyRules mode => exact .of_any rfl rfl rfl
  | convert _ _ | check _ => exact absurd bare Bool.false_ne_true.symm

theorem pairCardinality_one (x y : Expr) : (Properties.pairCardinality x y).one = true := by
  unfold Properties.pairCardinality
  split <;> rfl

/-- What the steps of a path find is in order if the properties of the operands say so, whether it is put into
order or not. -/
theorem order_found (hc : c.forest.Proper) (ha : a'.expr.Describes d a.expr c)
    (hb : ∀ c', Second d a b c .path c' → b'.expr.Describes d b.expr c') :
    (Properties.pathOrder a'.expr b'.expr).Describes c.forest (found d a.expr b.expr c).items := by
  refine describes_found hc ha.items.order (fun hone => ?_) fun k n hitem => ?_
  · have hlength := ha.items.length
    have hgreatest := Cardinality.greatest_le_one hone
    simp only [cardinality] at hgreatest
    omega
  · have hstep := hb _ (.step hitem)
    exact ⟨hstep.items.order, fun axis haxis => hstep.axis axis n haxis rfl⟩

theorem describes_path (hc : c.forest.Proper) (pa : a'.expr.cardinality ≠ .impossible)
    (pb : b'.expr.cardinality ≠ .impossible) (ha : a'.expr.Describes d a.expr c)
    (hb : ∀ c', Second d a b c .path c' → b'.expr.Describes d b.expr c') :
    (binary .path a' b' i').refresh.Describes d (binary .path a b i) c := by
  have length : min (found d a.expr b.expr c).items.length 2 ≤
      (a'.expr.cardinality.multiply b'.expr.cardinality).greatest := by
    have hwhole := (a.expr.run d c).length_wholeIf_le b.expr.dependencies.last
    have hstart := ha.items.length
    refine Trace.length_expand_le_multiply pa pb (Nat.le_trans (by omega) hstart) fun k item hitem => ?_
    cases item with
    | atomic v => exact Nat.zero_le _
    | node n => exact (hb _ (.step hitem)).items.length
  refine .of_computed ⟨Nat.le_trans ?_ length, ?_⟩ rfl
  · rw [run_path]
    split
    · exact Nat.le_refl _
    · have := length_sorted_le c.forest (found d a.expr b.expr c)
      omega
  · exact (describes_path_of_found (i := i) (order_found hc ha hb) ordered_pathOrder).weaken
      (by simp [computed, Properties.ofBinary, Special.withOrderOf, Properties.effectsOf])
      (by simp [computed, Properties.ofBinary, Special.withOrderOf, Properties.effectsOf])
where
  /-- Sorting only drops items. -/
  length_sorted_le (f : Forest) (t : Trace) : (t.sorted f).items.length ≤ t.items.length := by
    rcases t with ⟨xs, _ | e⟩
    · rw [Trace.sorted]
      simp only [Trace.result, ok_bind]
      cases hys : sortPath f xs with
      | error e => exact Nat.zero_le _
      | ok ys => exact (length_sortPath hys).1
    · exact Nat.zero_le _

theorem describes_union (pa : a'.expr.cardinality ≠ .impossible)
    (pb : b'.expr.cardinality ≠ .impossible) (ha : a'.expr.Describes d a.expr c)
    (hb : b'.expr.Describes d b.expr c) :
    (binary .union a' b' i').refresh.Describes d (binary .union a b i) c := by
  refine .of_computed ?_ rfl
  rw [run_union]
  refine .ofResult fun t ht => ?_
  obtain ⟨xs, hxs, ht⟩ := bind_eq_ok_iff.mp ht
  obtain ⟨ys, hys, ht⟩ := bind_eq_ok_iff.mp ht
  obtain ⟨zs, hzs, rfl⟩ := map_eq_ok_iff.mp ht
  have hzs := mapError_eq_ok_iff.mp hzs
  refine ⟨?_, fun _ => inOrder_unionOf hzs, fun hpeer => absurd hpeer Bool.false_ne_true⟩
  have hx := ha.items.length
  have hy := hb.items.length
  rw [Trace.result_eq_ok_iff.mp hxs] at hx
  rw [Trace.result_eq_ok_iff.mp hys] at hy
  have hlength := (length_unionOf hzs).1
  have hsum := Cardinality.le_greatest_sum pa pb hx hy
  refine Nat.le_trans ?_ (Nat.le_trans hsum (Cardinality.greatest_le_union _ _))
  show min zs.length 2 ≤ min (xs.length + ys.length) 2
  omega

/-- What an operator with two operands comes to.  Operands that may be guards say nothing, and nothing needs
to be known of them. -/
theorem describes_binary {op : Binary} (hc : c.forest.Proper)
    (pa : (binary op a b i).opensGuards = false → a'.expr.cardinality ≠ .impossible)
    (pb : (binary op a b i).opensGuards = false → b'.expr.cardinality ≠ .impossible)
    (ha : (binary op a b i).opensGuards = false → a'.expr.Describes d a.expr c)
    (hb : (binary op a b i).opensGuards = false → ∀ c', Second d a b c op c' →
      b'.expr.Describes d b.expr c') :
    (binary op a' b' i').refresh.Describes d (binary op a b i) c := by
  cases op with
  | path => exact describes_path hc (pa rfl) (pb rfl) (ha rfl) (hb rfl)
  | union => exact describes_union (pa rfl) (pb rfl) (ha rfl) (hb rfl c (.plain rfl))
  | letIn v =>
    refine .of_computed ?_ rfl
    rw [run_letIn]
    refine .ofResult fun t ht => ?_
    obtain ⟨xs, hxs, rfl⟩ := map_eq_ok_iff.mp ht
    have hbody := hb rfl _ (.letBody (Trace.result_eq_ok_iff.mp hxs))
    exact hbody.items.weaken (Nat.le_refl _)
      (by simp [computed, Properties.ofBinary, Special.withOrderOf, Properties.effectsOf, special])
      (by simp [computed, Properties.ofBinary, Special.withOrderOf, Properties.effectsOf, special])
  | forIn v =>
    refine .of_computed (.of_silent ?_ rfl rfl) rfl
    rw [run_forIn]
    exact Trace.length_expand_le_multiply (pa rfl) (pb rfl) (ha rfl).items.length fun k item hitem =>
      (hb rfl _ (.forBody (List.mem_of_getElem? hitem))).items.length
  | arithmetic op calculator =>
    refine .of_computed ?_ rfl
    rw [run_arithmetic]
    exact .of_ofItem _ (pairCardinality_one _ _)
  | compare op =>
    refine .of_computed ?_ rfl
    rw [run_compare]
    exact .of_ofItem _ (pairCardinality_one _ _)
  | logical op =>
    refine .of_computed ?_ rfl
    rw [run_logical]
    exact .of_ofItem _ rfl
  | range => exact .of_computed (.of_any rfl rfl rfl) rfl
  | filter =>
    refine .of_computed ?_ rfl
    rw [run_filter]
    -- What is left of the items keeps their order.
    have weaker := (ha rfl).items.weaken (q := Properties.ofBinary .filter a' b')
      (Nat.le_of_eq (Cardinality.greatest_union_empty _).symm)
      (by simp [Properties.ofBinary, Special.withOrderOf, Properties.effectsOf, special])
      (by simp [Properties.ofBinary, Special.withOrderOf, Properties.effectsOf, special])
    exact weaker.sublist ((Trace.items_filter_sublist _ _).trans (Trace.items_wholeIf_sublist _ _))

theorem describes_choice (py : y'.expr.cardinality ≠ .impossible)
    (pn : n'.expr.cardinality ≠ .impossible)
    (hy : (x.expr.run d c).truth = .ok true → y'.expr.Describes d y.expr c)
    (hn : (x.expr.run d c).truth = .ok false → n'.expr.Describes d n.expr c) :
    (choice x' y' n' i').refresh.Describes d (choice x y n i) c := by
  refine .of_computed (.of_silent ?_ rfl rfl) rfl
  rw [run_choice]
  cases ht : (x.expr.run d c).truth with
  | error e => exact Nat.zero_le _
  | ok t =>
    cases t with
    | true => exact Nat.le_trans (hy ht).items.length (Cardinality.le_greatest_either_left py)
    | false => exact Nat.le_trans (hn ht).items.length (Cardinality.le_greatest_either_right pn)

theorem describes_block {args args' : List Operand}
    (h : args.Forall₂ (fun a a' => a'.expr.cardinality ≠ .impossible ∧ a'.expr.Describes d a.expr c) args') :
    (variadic .block args' i').refresh.Describes d (variadic .block args i) c := by
  refine .of_computed (.of_silent ?_ rfl rfl) rfl
  rw [run_block]
  have parts : args.Forall₂ (fun a a' => a'.expr.cardinality ≠ .impossible ∧
      min (a.expr.run d c).items.length 2 ≤ a'.expr.cardinality.greatest) args' :=
    h.imp fun a a' ha => ⟨ha.1, ha.2.items.length⟩
  have length := Trace.length_concat_le parts (show Cardinality.empty ≠ .impossible from nofun)
    (show min 0 2 ≤ Cardinality.empty.greatest from Nat.zero_le _)
  rwa [Nat.zero_add] at length

theorem describes_call {function : BuiltIn} {args args' : List Operand}
    (arity : (variadic (.call function) args i).HasArguments)
    (h : args.Forall₂ (fun a a' => a'.expr.Describes d a.expr c) args') :
    (variadic (.call function) args' i').refresh.Describes d (variadic (.call function) args i) c := by
  have arity : function.arity.1 ≤ args.length := arity
  cases h with
  | nil => cases function <;> exact absurd arity (by simp [BuiltIn.arity])
  | @cons a a' rest rest' ha hrest =>
    refine .of_computed ?_ rfl
    cases function with
    | negation =>
      rw [run_negation]
      exact .of_ofItem _ rfl
    | existence =>
      rw [run_existence]
      exact .of_ofItem _ rfl
    | emptiness =>
      rw [run_emptiness]
      exact .of_ofItem _ rfl
    | truth =>
      rw [run_truth]
      exact .of_ofItem _ rfl
    | count =>
      rw [run_count]
      exact .of_ofItem _ rfl
    | exactlyOne =>
      rw [run_exactlyOne]
      exact .of_ofItem _ rfl
    | zeroOrOne =>
      rw [run_zeroOrOne]
      exact .of_ofItem _ rfl
    | data =>
      rw [run_data]
      exact describes_values ha rfl rfl rfl
    -- A part of a sequence keeps its order and is no longer than the whole.
    | subsequence =>
      cases hrest with
      | nil => exact absurd arity (by simp [BuiltIn.arity])
      | @cons b b' rest rest' hb hrest =>
        have weaker := ha.items.weaken (q := Properties.ofCall .subsequence (a' :: b' :: rest'))
          (Nat.le_of_eq (Cardinality.greatest_union_empty _).symm)
          (by simp [Properties.ofCall, Special.withOrderOf, Properties.effectsOf, special, Properties.ofCall.special])
          (by simp [Properties.ofCall, Special.withOrderOf, Properties.effectsOf, special, Properties.ofCall.special])
        rw [run_subsequence]
        refine .ofResult fun t ht => ?_
        obtain ⟨x, -, ht⟩ := bind_eq_ok_iff.mp ht
        obtain ⟨n?, -, rfl⟩ := map_eq_ok_iff.mp ht
        exact weaker.sublist (items_cut_sublist d a.expr c _)

end Operators

/-! ### Whole expressions -/

theorem possible_literal (vs : List Value) (l : Location) : (literal vs l).cardinality ≠ .impossible := by
  rcases vs with _ | ⟨v, _ | ⟨w, vs⟩⟩ <;> nofun

theorem possible_pair (x y : Expr) : Properties.pairCardinality x y ≠ .impossible := by
  unfold Properties.pairCardinality
  split <;> nofun

/-- An expression has some length if its operands have. -/
theorem possible_refresh (bare : e.isGuard = false)
    (leaf : ∀ op i, e = .leaf op i → (Properties.ofLeaf op).cardinality ≠ .impossible)
    (operands : e.opensGuards = false → ∀ a ∈ e.operands, a.expr.cardinality ≠ .impossible) :
    e.refresh.cardinality ≠ .impossible := by
  rw [cardinality, props_refresh]
  -- Most operators say of themselves that some length is possible; the others pass on what an operand says.
  cases e with
  | leaf op i => exact leaf op i rfl
  | unary op a i =>
    cases op with
    | atomize =>
      simp only [computed, Properties.ofUnary]
      split
      · exact operands rfl a (by simp)
      · rintro ⟨⟩
    | cast target allowsEmpty =>
      simp only [computed, Properties.ofUnary]
      split <;> rintro ⟨⟩
    | applyRules mode => rintro ⟨⟩
    | convert _ _ | check _ => exact absurd bare Bool.false_ne_true.symm
  | binary op a b i =>
    cases op with
    | letIn v => exact operands rfl b (by simp)
    | forIn _ | path => exact Cardinality.between_ne_impossible _ _
    | arithmetic _ _ | compare _ => exact possible_pair a.expr b.expr
    | logical _ | range => rintro ⟨⟩
    | filter => exact Cardinality.union_empty_ne_impossible _
    | union => exact Cardinality.union_ne_impossible (Cardinality.between_ne_impossible _ _) _
  | choice x y n i => exact Cardinality.between_ne_impossible _ _
  | variadic op args i =>
    cases op with
    | block =>
      suffices fold : ∀ c : Cardinality, c ≠ .impossible →
          args.foldl (fun c p => c.sum p.expr.cardinality) c ≠ .impossible from fold .empty (by rintro ⟨⟩)
      clear operands bare leaf
      induction args with
      | nil => exact fun c h => h
      | cons a rest ih => exact fun c _ => ih _ (Cardinality.between_ne_impossible _ _)
    | call function =>
      cases function with
      | subsequence => exact Cardinality.union_empty_ne_impossible _
      | data =>
        simp only [computed, Properties.ofCall]
        cases args with
        | nil => rintro ⟨⟩
        | cons a rest =>
          split
          · exact operands rfl a (by simp)
          · rintro ⟨⟩
      | _ => rintro ⟨⟩

/-- An expression is described after its operands are replaced if they are described by what replaces them,
wherever they are evaluated. -/
theorem describes_mapOperands {g : Operand → Operand} (hc : c.forest.Proper) (bare : e.isGuard = false)
    (arguments : e.HasArguments) (leaf : ∀ op i, e = .leaf op i → e.refresh.Describes d e c)
    (possible : e.opensGuards = false → ∀ a ∈ e.operands, (g a).expr.cardinality ≠ .impossible)
    (operands : e.opensGuards = false → ∀ a ∈ e.operands, ∀ c', Evaluates d e c a.expr c' →
      (g a).expr.Describes d a.expr c') :
    (e.mapOperands g).refresh.Describes d e c := by
  cases e with
  | leaf op i => exact leaf op i rfl
  | unary op a i =>
    refine describes_unary bare fun hop => operands ?_ a (by simp) c (.unary hop)
    cases op <;> first | rfl | exact absurd bare Bool.false_ne_true.symm
  | binary op a b i =>
    exact describes_binary hc (fun opens => possible opens a (by simp))
      (fun opens => possible opens b (by simp)) (fun opens => operands opens a (by simp) c .first)
      fun opens c' second => operands opens b (by simp) c' second.evaluates
  | choice x y n i =>
    exact describes_choice (possible rfl y (by simp)) (possible rfl n (by simp))
      (fun ht => operands rfl y (by simp) c (.yes ht)) fun ht => operands rfl n (by simp) c (.no ht)
  | variadic op args i =>
    cases op with
    | block =>
      refine describes_block (List.forall₂_map_right_iff.mpr (List.forall₂_same.mpr fun a ha => ?_))
      exact ⟨possible rfl a ha, operands rfl a ha c (.argument ha)⟩
    | call function =>
      refine describes_call arguments (List.forall₂_map_right_iff.mpr (List.forall₂_same.mpr fun a ha => ?_))
      exact operands rfl a ha c (.argument ha)

/-! ### Expressions without types -/

/-- Whether variables have no types and calls have their arguments, and nothing checks a length or converts
values. -/
structure Untyped (e : Expr) : Prop extends Consistent e where
  bare : e.isGuard = false
  arguments : e.HasArguments
  leaf : ∀ op i, e = .leaf op i → op.IsUntyped

theorem Constructed.isUntyped {checks : Bool} {op : Leaf} {i : Info} (h : (leaf op i).Constructed checks) :
    op.IsUntyped := by
  have typed := h.typed
  cases op with
  | «variable» v type => exact typed.2
  | global name type => exact typed
  | _ => trivial

theorem Constructed.untyped {checks : Bool} (h : e.Constructed checks) (bare : e.isGuard = false) : e.Untyped where
  toConsistent := h.toConsistent
  bare := bare
  arguments := h.typed.hasArguments
  leaf := by
    rintro op i rfl
    exact h.isUntyped

/-- What construction gives has no types and, without checks, no guards. -/
theorem untyped_of_built (built : e.Built false) : Throughout Untyped e :=
  (constructed_of_built built).mono fun _ h => h.untyped (h.bare rfl)

/-- What may be any sequence may be some sequence. -/
theorem possible_untyped {op : Leaf} (h : op.IsUntyped) : (Properties.ofLeaf op).cardinality ≠ .impossible := by
  cases op with
  | literal vs => exact possible_literal vs .unknown
  | «variable» v type =>
    obtain rfl : type = none := h
    rintro ⟨⟩
  | global name type =>
    obtain rfl : type = none := h
    rintro ⟨⟩
  | step axis test =>
    simp only [Properties.ofLeaf]
    split <;> rintro ⟨⟩
  | _ => rintro ⟨⟩

theorem Untyped.possible (h : Throughout Untyped e) : e.cardinality ≠ .impossible := by
  induction e using inductOperands with
  | h e ih =>
    rw [← refresh_eq_self h.here.fresh]
    refine possible_refresh h.here.bare ?_ fun _ a ha => ih a ha (h.operand ha)
    rintro op i rfl
    exact possible_untyped (h.here.leaf op i rfl)

/-- Whatever values variables have, the properties describe the result if those of the operands do. -/
theorem Untyped.describes_of_operands (h : e.Untyped) (hc : c.forest.Proper)
    (possible : ∀ a ∈ e.operands, a.expr.cardinality ≠ .impossible)
    (operands : ∀ a ∈ e.operands, ∀ c', Evaluates d e c a.expr c' → a.expr.Describes d a.expr c') :
    e.Describes d e c := by
  have described := describes_mapOperands (d := d) (g := id) hc h.bare h.arguments ?leaf (fun _ => possible)
    fun _ => operands
  · rwa [mapOperands_id, refresh_eq_self h.fresh] at described
  case leaf =>
    rintro op i rfl
    refine describes_leaf hc ?_ ?_
    · rintro v type rfl
      obtain rfl : type = none := h.leaf _ i rfl
      exact SequenceType.measures_any _
    · rintro name type rfl
      obtain rfl : type = none := h.leaf _ i rfl
      exact SequenceType.measures_any _

theorem Untyped.describes (h : Throughout Untyped e) (hc : c.forest.Proper) : e.Describes d e c := by
  induction e using inductOperands generalizing c with
  | h e ih =>
    exact h.here.describes_of_operands hc (fun a ha => Untyped.possible (h.operand ha))
      fun a ha c' evaluates => ih a ha (h.operand ha) (evaluates.forest ▸ hc)

/-! ### Typed expressions -/

end Expr

/-- Whether every type in scope is that of some sequence. -/
def Scope.Possible (scope : Scope) : Prop :=
  ∀ id type, scope.type? id = some type → type.cardinality ≠ .impossible

theorem Scope.Possible.nil : Scope.Possible [] := by
  intro id type htype
  exact absurd htype (by simp [Scope.type?])

theorem Scope.Possible.cons {scope : Scope} (h : scope.Possible) (id : Nat) {type : SequenceType}
    (htype : type.cardinality ≠ .impossible) : Scope.Possible ((id, type) :: scope) := by
  intro id' type' h'
  rw [Scope.type?, List.find?_cons] at h'
  split at h'
  · obtain rfl := Option.some.inj h'
    exact htype
  · exact h id' type' h'

/-- Whether every type that a global variable is declared with is that of some sequence. -/
def StaticContext.GlobalsPossible (s : StaticContext) : Prop :=
  ∀ name type, s.globalType? name = some type → type.cardinality ≠ .impossible

namespace Expr

variable {s : StaticContext} {d : Dispatcher} {e e' : Expr} {c c' : Context} {scope : Scope}

/-- What is known where a part of a typed expression is evaluated. -/
structure Situated (s : StaticContext) (scope : Scope) (e : Expr) (c : Context) : Prop where
  annotated : Everywhere (Annotated false s) scope e
  proper : c.forest.Proper
  possible : s.GlobalsPossible
  globals : c.GlobalsConform s
  scopes : scope.Possible
  locals : c.LocalsHold (fun type xs => min xs.length 2 ≤ type.cardinality.greatest) scope

theorem Situated.operand (h : Situated s scope e c) (opens : e.opensGuards = false) {a : Operand}
    (ha : a ∈ e.operands) : a.expr.isGuard = false :=
  (h.annotated.here.settled opens a ha).bare rfl

/-- The types of the variables that a typed expression refers to are those of some sequence. -/
theorem possible_leaf {op : Leaf} {i : Info} (typed : OperatorTyped s scope (leaf op i))
    (hs : s.GlobalsPossible) (hscope : scope.Possible) :
    (Properties.ofLeaf op).cardinality ≠ .impossible := by
  cases op with
  | literal vs => exact possible_literal vs .unknown
  | «variable» v type =>
    obtain ⟨-, rfl⟩ := typed
    cases htype : scope.type? v.id with
    | none => rintro ⟨⟩
    | some type => exact hscope v.id type htype
  | global name type =>
    obtain rfl := typed
    cases htype : s.globalType? name with
    | none => rintro ⟨⟩
    | some type => exact hs name type htype
  | step axis test =>
    simp only [Properties.ofLeaf]
    split <;> rintro ⟨⟩
  | _ => rintro ⟨⟩

theorem Situated.describes_leaf {op : Leaf} {i : Info} (h : Situated s scope (leaf op i) c) :
    (leaf op i).refresh.Describes d (leaf op i) c := by
  have typed := h.annotated.here.typed
  refine Expr.describes_leaf h.proper ?_ ?_
  · rintro v type rfl
    obtain ⟨hv, rfl⟩ := typed
    cases htype : scope.type? v.id with
    | none => exact SequenceType.measures_any _
    | some type => exact ⟨h.scopes v.id type htype, fun xs hxs => h.locals v type xs hv htype hxs⟩
  · rintro name type rfl
    obtain rfl := typed
    cases htype : s.globalType? name with
    | none => exact SequenceType.measures_any _
    | some type =>
      exact ⟨h.possible name type htype, fun xs hxs =>
        Cardinality.le_greatest_of_admits (h.globals name type xs htype hxs)⟩

/-- Every type in the scope of an operand is that of some sequence, if declarations are made of such. -/
theorem possible_scope (hscope : scope.Possible)
    (value : ∀ a ∈ e.operands, (scope, a.expr) ∈ e.operandsIn scope → e.opensGuards = false →
      a.expr.cardinality ≠ .impossible) : ∀ p ∈ e.operandsIn scope, p.1.Possible := by
  intro p hp
  cases e with
  | leaf op i => exact absurd hp List.not_mem_nil
  | unary op a i =>
    obtain rfl := List.mem_singleton.mp hp
    exact hscope
  | binary op a b i =>
    rcases List.mem_cons.mp hp with rfl | hp
    · exact hscope
    · obtain rfl := List.mem_singleton.mp hp
      cases op with
      | letIn v => exact hscope.cons v.id (value a (by simp) List.mem_cons_self rfl)
      | forIn v => exact hscope.cons v.id nofun
      | _ => exact hscope
  | choice x y n i =>
    simp only [operandsIn, List.mem_cons, List.not_mem_nil, or_false] at hp
    rcases hp with rfl | rfl | rfl <;> exact hscope
  | variadic op args i =>
    obtain ⟨a, -, rfl⟩ := List.mem_map.mp hp
    exact hscope

/-- A typed expression has some length. -/
theorem possible_of_annotated (h : Everywhere (Annotated false s) scope e) (hs : s.GlobalsPossible)
    (hscope : scope.Possible) (bare : e.isGuard = false) : e.cardinality ≠ .impossible := by
  induction e using inductOperands generalizing scope with
  | h e ih =>
    have settled := h.here.settled
    have scopes := possible_scope hscope fun a ha hmem opens =>
      ih a ha (h.operand hmem) hscope ((settled opens a ha).bare rfl)
    rw [← refresh_eq_self h.here.fresh]
    refine possible_refresh bare ?_ fun opens a ha => ?_
    · rintro op i rfl
      exact possible_leaf h.here.typed hs hscope
    · obtain ⟨scope', hmem⟩ := mem_operandsIn_of_operand scope ha
      exact ih a ha (h.operand hmem) (scopes _ hmem) ((settled opens a ha).bare rfl)

/-- Where the operands of a part are evaluated, the same is known of them. -/
theorem Situated.of_described (h : Situated s scope e c) (evaluates : Evaluates d e c e' c')
    (operands : ∀ a ∈ e.operands, a.expr.isGuard = false → Situated s scope a.expr c →
      a.expr.Describes d a.expr c) :
    ∃ scope', (scope', e') ∈ e.operandsIn scope ∧ Situated s scope' e' c' := by
  have typed := h.annotated.here.typed
  obtain ⟨hglobals, hforest, scope', hmem, locals⟩ := evaluates.locals typed h.locals
    fun a ha hmem opens hevaluates => by
      have described := operands a ha (h.operand opens ha)
        ⟨h.annotated.operand hmem, h.proper, h.possible, h.globals, h.scopes, h.locals⟩
      refine ⟨fun xs hxs => ?_, fun x _ => Nat.le_refl 1⟩
      have length := described.items.length
      rwa [hxs] at length
  have scopes := possible_scope h.scopes fun a ha hmem opens =>
    possible_of_annotated (h.annotated.operand hmem) h.possible h.scopes (h.operand opens ha)
  refine ⟨scope', hmem, h.annotated.operand hmem, hforest ▸ h.proper, h.possible, ?_,
    scopes _ hmem, locals⟩
  unfold Context.GlobalsConform Context.global
  rw [hglobals]
  exact h.globals

/-- The properties of a typed expression describe what it comes to. -/
theorem Situated.describes (h : Situated s scope e c) (d : Dispatcher) (bare : e.isGuard = false) :
    e.Describes d e c := by
  induction e using inductOperands generalizing scope c with
  | h e ih =>
    have described := describes_mapOperands (d := d) (g := id) h.proper bare
      h.annotated.here.typed.hasArguments ?leaf (fun opens a ha => ?_) fun opens a ha c' evaluates => ?_
    · rwa [mapOperands_id, refresh_eq_self h.annotated.here.fresh] at described
    case leaf =>
      rintro op i rfl
      exact h.describes_leaf
    · obtain ⟨scope', hmem⟩ := mem_operandsIn_of_operand scope ha
      have scopes := possible_scope h.scopes fun a ha hmem opens =>
        possible_of_annotated (h.annotated.operand hmem) h.possible h.scopes (h.operand opens ha)
      exact possible_of_annotated (h.annotated.operand hmem) h.possible (scopes _ hmem)
        (h.operand opens ha)
    · obtain ⟨scope', -, h'⟩ := h.of_described evaluates fun b hb bare' hb' => ih b hb hb' bare'
      exact ih a ha h' (h.operand opens ha)

theorem Situated.of_evaluates (h : Situated s scope e c) (evaluates : Evaluates d e c e' c') :
    ∃ scope', (scope', e') ∈ e.operandsIn scope ∧ Situated s scope' e' c' :=
  h.of_described evaluates fun _ _ bare h' => h'.describes d bare

end Expr

end TreeQuery
