/-
Results that are in document order.

The special properties of an expression may say that its result is in document order, and that no node of
it lies inside another.  Where the first holds a path is not sorted.  This module shows that the properties
of a typed expression are right about this: wherever a part of it is evaluated, with local variables that
have the values that the bindings around it give them.

Main statements:

* `Expr.describes_found` — what the steps of a path find is in order if the properties of the two
  operands say so: the steps start from one node at most, or stay inside nodes that lie apart;
* `Expr.Sound.ordered` — the order properties of every part of a typed expression are right;
* `Expr.ordered_of_bound` — the same for contexts, trees and results as a caller sees them.

Design notes: the properties rest on two different things.  That there is one node at most to start from is
a matter of cardinality, and all that is used of it is that two items are never excluded where there are
two; this holds although cardinalities are not right about single items.  Everything else is a matter of
trees, and holds of any list that the operands come to.
-/
import TreeQuery.Proofs.CardinalitySoundness

namespace TreeQuery

/-! ### Order properties -/

/-- Whether items are in order and apart, as far as order properties say so. -/
structure Special.Describes (p : Special) (f : Forest) (xs : Sequence) : Prop where
  ordered : p.ordered = true → xs.InOrder f
  apart : p.peer = true → f.Apart xs.nodes

namespace Special.Describes

variable {p q : Special} {f : Forest} {xs ys : Sequence}

theorem sublist (h : p.Describes f xs) (hs : ys.Sublist xs) : p.Describes f ys where
  ordered hp := (h.ordered hp).sublist hs
  apart hp := (h.apart hp).sublist (Sequence.nodes_sublist hs)

theorem weaken (h : p.Describes f xs) (hordered : q.ordered = true → p.ordered = true)
    (hpeer : q.peer = true → p.peer = true) : q.Describes f xs where
  ordered hq := h.ordered (hordered hq)
  apart hq := h.apart (hpeer hq)

/-- At most one item is in order and apart from all others. -/
theorem of_length_le (p : Special) (f : Forest) (h : xs.length ≤ 1) : p.Describes f xs where
  ordered _ := Sequence.inOrder_of_length_le f h
  apart _ := Sequence.apart_of_length_le f h

theorem nil (p : Special) (f : Forest) : p.Describes f [] := of_length_le p f (Nat.zero_le 1)

/-- Nothing is said. -/
theorem of_silent (f : Forest) (xs : Sequence) (hordered : p.ordered = false)
    (hpeer : p.peer = false) : p.Describes f xs where
  ordered hp := absurd (hp.symm.trans hordered) Bool.false_ne_true.symm
  apart hp := absurd (hp.symm.trans hpeer) Bool.false_ne_true.symm

/-- Where something has to be computed first, a failure leaves no items. -/
theorem ofResult {r : Except Cause Trace} (h : ∀ t, r = .ok t → p.Describes f t.items) :
    p.Describes f (Trace.ofResult r).items := by
  cases r with
  | error e => exact nil p f
  | ok t => exact h t rfl

/-- The nodes on an axis. -/
theorem of_axis (hf : f.Proper) (axis : Axis) (test : NodeTest) (n : Nat) :
    (Properties.ofLeaf (.step axis test)).special.Describes f ((axis.nodes f n).map .node) := by
  refine ⟨fun _ => Sequence.inOrder_map_node (Axis.inOrder_nodes hf axis n), fun hpeer => ?_⟩
  rw [Sequence.nodes_map_node]
  refine Axis.apart_nodes hf n ?_
  simpa [Properties.ofLeaf, or_assoc] using hpeer

end Special.Describes

/-! ### Parts of a result -/

namespace Trace

variable {t u : Trace} {f : Nat → Item → Trace} {a : Item}

theorem length_ofItem_le (x : Except Cause (Option Item)) : (ofItem x).items.length ≤ 1 := by
  rcases x with e | _ | b <;> simp [ofItem]

theorem mem_items_ofItem {x : Except Cause (Option Item)} (h : a ∈ (ofItem x).items) :
    x = .ok (some a) := by
  rcases x with e | _ | b
  · exact absurd h List.not_mem_nil
  · exact absurd h List.not_mem_nil
  · rw [List.mem_singleton.mp h]

/-- A failure in the middle only takes items away. -/
theorem items_expand_sublist {g : Item → Sequence}
    (h : ∀ i a, t.items[i]? = some a → (f i a).items.Sublist (g a)) :
    (t.expand f).items.Sublist (t.items.flatMap g) := by
  obtain ⟨xs, failure?⟩ := t
  suffices fold : ∀ before, (∀ i a, xs[i]? = some a → (f (before + i) a).items.Sublist (g a)) →
      (expandFrom f failure? before xs).items.Sublist (xs.flatMap g) from fold 0 (by simpa using h)
  clear h
  induction xs with
  | nil => exact fun _ _ => .slnil
  | cons x xs ih =>
    intro before h
    have hx : (f before x).items.Sublist (g x) := h 0 x rfl
    have hxs := ih (before + 1) fun i a ha => by
      simpa [Nat.add_assoc, Nat.add_comm 1] using h (i + 1) a (by simpa using ha)
    rw [expandFrom, List.flatMap_cons]
    cases hfailure : (f before x).failure? with
    | none =>
      rw [items_append_of_ok hfailure]
      exact hx.append hxs
    | some e =>
      rw [append_of_failure (by simp [hfailure])]
      exact hx.trans (List.sublist_append_left _ _)

theorem mem_items_expand (h : a ∈ (t.expand f).items) :
    ∃ i x, t.items[i]? = some x ∧ a ∈ (f i x).items := by
  obtain ⟨xs, failure?⟩ := t
  suffices fold : ∀ before, a ∈ (expandFrom f failure? before xs).items →
      ∃ i x, xs[i]? = some x ∧ a ∈ (f (before + i) x).items by
    simpa using fold 0 h
  clear h
  induction xs with
  | nil => exact fun _ h => absurd h List.not_mem_nil
  | cons x xs ih =>
    intro before h
    have split : a ∈ (f before x).items ∨ a ∈ (expandFrom f failure? (before + 1) xs).items := by
      rw [expandFrom] at h
      cases hfailure : (f before x).failure? with
      | none => rwa [items_append_of_ok hfailure, List.mem_append] at h
      | some e => exact .inl (by rwa [append_of_failure (by simp [hfailure])] at h)
    rcases split with h | h
    · exact ⟨0, x, rfl, h⟩
    · obtain ⟨i, y, hy, ha⟩ := ih (before + 1) h
      exact ⟨i + 1, y, by simpa using hy, by simpa [Nat.add_assoc, Nat.add_comm 1] using ha⟩

/-- Of a single item nothing but what replaces it is left. -/
theorem items_expand_of_length (h : t.items.length ≤ 1) :
    (t.expand f).items = [] ∨ ∃ x, t.items[0]? = some x ∧ (t.expand f).items = (f 0 x).items := by
  rcases t with ⟨_ | ⟨x, _ | ⟨y, xs⟩⟩, failure?⟩
  · exact .inl rfl
  · refine .inr ⟨x, rfl, ?_⟩
    simp only [expand, expandFrom]
    cases hfailure : (f 0 x).failure? with
    | none => simp [items_append_of_ok hfailure]
    | some e => rw [append_of_failure (by simp [hfailure])]
  · simp at h

theorem items_wholeIf (t : Trace) (needed : Bool) :
    (t.wholeIf needed).items = [] ∨ (t.wholeIf needed).items = t.items := by
  rcases t with ⟨xs, _ | e⟩ <;> cases needed <;> first | exact .inr rfl | exact .inl rfl

theorem items_wholeIf_sublist (t : Trace) (needed : Bool) :
    (t.wholeIf needed).items.Sublist t.items := by
  rcases t.items_wholeIf needed with h | h
  · exact h.symm ▸ List.nil_sublist _
  · exact h.symm ▸ List.Sublist.refl _

theorem items_filter_sublist (t : Trace) (keep : Nat → Item → Except Cause Bool) :
    (t.filter keep).items.Sublist t.items := by
  have kept := items_expand_sublist (t := t) (g := fun a => [a])
    (f := fun before a => keeping (keep before a) a) fun i a _ => by
      rcases keep i a with _ | _ | _ <;> simp [keeping]
  rwa [List.flatMap_singleton'] at kept

theorem mem_of_only {several : Cause} (h : t.only several = .ok (some a)) : a ∈ t.items := by
  rcases t with ⟨_ | ⟨x, _ | ⟨y, xs⟩⟩, _ | e⟩ <;> simp [only, first?] at h
  simp [h]

theorem items_check_prefix (t : Trace) (required : Cardinality) :
    (t.check required).items <+: t.items := by
  obtain ⟨xs, failure?⟩ := t
  suffices h : ∀ count, (checkFrom required failure? count xs).items <+: xs from h 0
  induction xs with
  | nil =>
    intro count
    rw [checkFrom]
    split <;> exact List.prefix_refl []
  | cons x xs ih =>
    intro count
    rw [checkFrom]
    split
    · exact (List.prefix_cons_inj x).mpr (ih (count + 1))
    · exact List.nil_prefix

/-- What is in order already is sorted to itself. -/
theorem items_sorted_sublist {f : Forest} (h : t.items.InOrder f) :
    (t.sorted f).items.Sublist t.items := by
  rcases t with ⟨xs, _ | e⟩
  · simp [Trace.sorted, Trace.result, sortPath_of_inOrder h, Except.map]
  · exact List.nil_sublist _

end Trace

namespace Expr

variable {s : StaticContext} {d : Dispatcher} {e e' : Expr} {c c' : Context} {scope : Scope}

theorem items_cut_sublist (d : Dispatcher) (e : Expr) (c : Context) (bounds? : Option (Int × Int)) :
    (e.cut d c bounds?).items.Sublist (e.run d c).items := by
  rcases bounds? with _ | ⟨low, high⟩
  · exact List.nil_sublist _
  · simp only [cut, Behaviour.cut]
    split
    · rw [Trace.items_between, slice]
      exact (List.take_sublist _ _).trans (List.drop_sublist _ _)
    · rw [Behaviour.opening]
      cases ((e.behaviour d).iterate c).result <;> exact List.nil_sublist _

/-! ### Paths -/

theorem exists_step {axis : Axis} (h : e.stepAxis? = some axis) :
    ∃ test i, e = leaf (.step axis test) i := by
  unfold stepAxis? at h
  split at h
  · rename_i axis' test i
    obtain rfl := Option.some.inj h
    exact ⟨test, i, rfl⟩
  · simp at h

theorem ordered_pathOrder {x y : Expr} (h : (Properties.pathOrder x y).peer = true) :
    (Properties.pathOrder x y).ordered = true := by
  unfold Properties.pathOrder at *
  repeat' split at h
  all_goals simp_all [Special.none]

/-- What a step finds from a node is on its axis. -/
theorem items_step_sublist {axis : Axis} {test : NodeTest} {i : Info} {n position : Nat}
    {size? : Option Nat} :
    ((leaf (.step axis test) i).run d (c.withFocus (.node n) position size?)).items.Sublist
      ((axis.nodes c.forest n).map .node) := by
  rw [run_step]
  simpa [Context.item, Context.withFocus, Except.map, Behaviour.stepFrom] using
    List.filter_sublist.map Item.node

section Path

variable {a b : Operand}

/-- What `b` finds at the node `n`, the one with the number `k` in the result of `a`. -/
abbrev foundAt (d : Dispatcher) (a b : Expr) (c : Context) (k n : Nat) : Sequence :=
  (b.runAt d c (a.sizeIf d b.dependencies.last c) k (.node n)).items

/-- All that the steps find is on the axis from the nodes they start from. -/
theorem found_sublist {axis : Axis}
    (haxis : ∀ k n, ((a.expr.run d c).wholeIf b.expr.dependencies.last).items[k]? = some (.node n) →
      (foundAt d a.expr b.expr c k n).Sublist ((axis.nodes c.forest n).map .node)) :
    (found d a.expr b.expr c).items.Sublist
      (((a.expr.run d c).items.nodes.flatMap (axis.nodes c.forest)).map .node) := by
  have steps := Trace.items_expand_sublist
    (t := (a.expr.run d c).wholeIf b.expr.dependencies.last)
    (f := b.expr.stepAt d c (a.expr.sizeIf d b.expr.dependencies.last c))
    (g := fun x => (x.node?.toList.flatMap (axis.nodes c.forest)).map .node) fun k x hx => by
      cases x with
      | atomic v => exact List.nil_sublist _
      | node n => simpa [Item.node?, stepAt] using haxis k n hx
  refine steps.trans ?_
  -- An item that is no node has nothing on its axis.
  have flat (xs : Sequence) :
      (xs.flatMap fun x => (x.node?.toList.flatMap (axis.nodes c.forest)).map Item.node) =
        (xs.nodes.flatMap (axis.nodes c.forest)).map .node := by
    induction xs with
    | nil => rfl
    | cons x xs ih =>
      rw [List.flatMap_cons, ih]
      cases x with
      | atomic v => rfl
      | node n =>
        rw [show Sequence.nodes (.node n :: xs) = n :: Sequence.nodes xs from rfl, List.flatMap_cons,
          List.map_append]
        simp [Item.node?]
  rw [flat]
  rcases (a.expr.run d c).items_wholeIf b.expr.dependencies.last with h | h
  · exact h.symm ▸ List.nil_sublist _
  · exact h.symm ▸ List.Sublist.refl _

/-- Where the order properties of a path say so, what its steps find is in document order and apart.  The
properties are those of `x` and `y`, and it is enough that they are right about what `a` and `b` come to. -/
theorem describes_found {x y : Expr} (hc : c.forest.Proper)
    (hx : x.special.Describes c.forest (a.expr.run d c).items)
    (hone : x.cardinality.atMostOne = true → (a.expr.run d c).items.length ≤ 1)
    (hy : ∀ k n, ((a.expr.run d c).wholeIf b.expr.dependencies.last).items[k]? = some (.node n) →
      y.special.Describes c.forest (foundAt d a.expr b.expr c k n) ∧
        ∀ axis, y.stepAxis? = some axis →
          (foundAt d a.expr b.expr c k n).Sublist ((axis.nodes c.forest n).map .node)) :
    (Properties.pathOrder x y).Describes c.forest (found d a.expr b.expr c).items := by
  by_cases hordered : (Properties.pathOrder x y).ordered = true
  case neg =>
    have hpeer : (Properties.pathOrder x y).peer = false :=
      Bool.eq_false_iff.mpr fun hpeer => hordered (ordered_pathOrder hpeer)
    exact .of_silent _ _ (Bool.eq_false_iff.mpr hordered) hpeer
  unfold Properties.pathOrder at hordered ⊢
  split at hordered
  case isFalse => exact absurd hordered Bool.false_ne_true
  case isTrue hboth =>
    rw [Bool.and_eq_true] at hboth
    simp only [hboth.1, hboth.2, Bool.and_self, if_true]
    split at hordered
    case isTrue hsingle =>
      -- There is one item to start from at most, and what the step finds from it is in order.
      have hlength : ((a.expr.run d c).wholeIf b.expr.dependencies.last).items.length ≤ 1 :=
        Nat.le_trans (Trace.items_wholeIf_sublist _ _).length_le (hone hsingle)
      rw [if_pos hsingle]
      unfold found
      rcases Trace.items_expand_of_length (f := b.expr.stepAt d c _) hlength with hnil | ⟨x, hx, hitems⟩
      · rw [hnil]
        exact .nil _ _
      · rw [hitems]
        cases x with
        | atomic v => exact .nil _ _
        | node n => exact (hy 0 n hx).1.weaken (fun _ => hboth.2) id
    case isFalse hseveral =>
      rw [if_neg hseveral]
      split at hordered
      case isFalse => exact absurd hordered Bool.false_ne_true
      case isTrue hpeer =>
        rw [if_pos hpeer]
        cases haxis : y.stepAxis? with
        | none => simp [haxis, Special.none] at hordered
        | some axis =>
          simp only [haxis] at hordered ⊢
          split at hordered
          case isFalse => exact absurd hordered Bool.false_ne_true
          case isTrue hkeeps =>
            -- The nodes to start from lie apart, and every step stays inside its own.
            rw [if_pos hkeeps]
            have sub := found_sublist fun k n hk => (hy k n hk).2 axis haxis
            have inOrder := (hx.ordered hboth.1).nodes
            have apart := hx.apart hpeer
            refine Special.Describes.sublist ⟨fun _ => ?_, fun hpeers => ?_⟩ sub
            · exact Sequence.inOrder_map_node (Forest.inOrder_flatMap inOrder apart
                (fun n _ => Axis.inOrder_nodes hc axis n) fun n _ m hm => Axis.above_nodes hc hkeeps hm)
            · rw [Sequence.nodes_map_node]
              refine Forest.apart_flatMap inOrder apart (fun n _ => Axis.apart_nodes hc n ?_)
                fun n _ m hm => Axis.above_nodes hc hkeeps hm
              cases axis <;> simp [Properties.keepsPeers] at hpeers ⊢

/-- Whether it is sorted or not, the path comes to what the steps find, or to nothing. -/
theorem describes_path_of_found {p : Special} {i : Info}
    (h : p.Describes c.forest (found d a.expr b.expr c).items)
    (hpeer : p.peer = true → p.ordered = true) :
    p.Describes c.forest ((binary .path a b i).run d c).items := by
  by_cases hordered : p.ordered = true
  · refine h.sublist ?_
    rw [run_path]
    split
    · exact List.Sublist.refl _
    · exact Trace.items_sorted_sublist (h.ordered hordered)
  · exact .of_silent _ _ (Bool.eq_false_iff.mpr hordered)
      (Bool.eq_false_iff.mpr fun hp => hordered (hpeer hp))

end Path

/-! ### Typed expressions -/

theorem Evaluates.forest (evaluates : Evaluates d e c e' c') : c'.forest = c.forest := by
  cases evaluates <;> rfl

/-- What the induction supposes of the operands: their order properties describe what they come to wherever they are
evaluated. -/
def OperandsOrdered (d : Dispatcher) (e : Expr) (c : Context) : Prop :=
  ∀ a ∈ e.operands, ∀ c', Evaluates d e c a.expr c' → a.expr.special.Describes c.forest (a.expr.run d c').items

theorem order_leaf (op : Leaf) (i : Info) (hc : c.forest.Proper) :
    (leaf op i).computed.special.Describes c.forest ((leaf op i).run d c).items := by
  cases op with
  | contextItem =>
    rw [run_contextItem]
    exact .of_length_le _ _ (Trace.length_ofItem_le _)
  | step axis test =>
    rw [run_step]
    refine .ofResult fun t ht => ?_
    obtain ⟨item, -, rfl⟩ := map_eq_ok_iff.mp ht
    cases item with
    | atomic v => exact .nil _ _
    | node n => exact (Special.Describes.of_axis hc axis test n).sublist (List.filter_sublist.map _)
  | _ => exact .of_silent _ _ rfl rfl

theorem order_unary {op : Unary} {a : Operand} {i : Info} (operands : OperandsOrdered d (unary op a i) c) :
    (unary op a i).computed.special.Describes c.forest ((unary op a i).run d c).items := by
  cases op with
  | check required =>
    have hx := operands a (by simp) c (.unary (by simp))
    rw [run_check]
    exact hx.sublist (Trace.items_check_prefix _ _).sublist
  | _ => exact .of_silent _ _ rfl rfl

theorem order_union (a b : Operand) (i : Info) :
    (binary .union a b i).computed.special.Describes c.forest ((binary .union a b i).run d c).items := by
  rw [run_union]
  refine .ofResult fun t ht => ?_
  obtain ⟨xs, -, ht⟩ := bind_eq_ok_iff.mp ht
  obtain ⟨ys, -, ht⟩ := bind_eq_ok_iff.mp ht
  obtain ⟨zs, hzs, rfl⟩ := map_eq_ok_iff.mp ht
  exact ⟨fun _ => inOrder_unionOf (mapError_eq_ok_iff.mp hzs), fun hpeer => absurd hpeer Bool.false_ne_true⟩

theorem order_binary {op : Binary} {a b : Operand} {i : Info} (hc : c.forest.Proper)
    (operands : OperandsOrdered d (binary op a b i) c)
    (hone : a.expr.cardinality.atMostOne = true → (a.expr.run d c).items.length ≤ 1) :
    (binary op a b i).computed.special.Describes c.forest ((binary op a b i).run d c).items := by
  have hx := operands a (by simp) c .first
  cases op with
  | letIn v =>
    rw [run_letIn]
    refine .ofResult fun t ht => ?_
    obtain ⟨xs, hxs, rfl⟩ := map_eq_ok_iff.mp ht
    exact (operands b (by simp) _ (.letBody (Trace.result_eq_ok_iff.mp hxs))).weaken id id
  | path =>
    have found := describes_found (b := b) (x := a.expr) (y := b.expr) hc hx hone fun k n hk =>
      ⟨operands b (by simp) _ (.step hk), fun axis haxis => by
        obtain ⟨test, j, heq⟩ := exists_step haxis
        unfold foundAt runAt
        rw [heq]
        exact items_step_sublist⟩
    exact describes_path_of_found (found.weaken id id) ordered_pathOrder
  | filter =>
    have weaker : (binary .filter a b i).computed.special.Describes c.forest (a.expr.run d c).items :=
      hx.weaken id id
    rw [run_filter]
    exact weaker.sublist ((Trace.items_filter_sublist _ _).trans (Trace.items_wholeIf_sublist _ _))
  | union => exact order_union a b i
  | _ => exact .of_silent _ _ rfl rfl

theorem order_call {function : BuiltIn} {args : List Operand} {i : Info}
    (arity : function.arity.1 ≤ args.length) (operands : OperandsOrdered d (variadic (.call function) args i) c) :
    (variadic (.call function) args i).computed.special.Describes c.forest
      ((variadic (.call function) args i).run d c).items := by
  rcases args with _ | ⟨a, rest⟩
  · cases function <;> exact .of_silent _ _ rfl rfl
  cases function with
  | exactlyOne =>
    rw [run_exactlyOne]
    exact .of_length_le _ _ (Trace.length_ofItem_le _)
  | zeroOrOne =>
    rw [run_zeroOrOne]
    exact .of_length_le _ _ (Trace.length_ofItem_le _)
  | subsequence =>
    have hx := operands a (by simp) c (.argument List.mem_cons_self)
    rcases rest with _ | ⟨b, rest⟩
    · exact absurd arity (by simp [BuiltIn.arity])
    have weaker : (variadic (.call .subsequence) (a :: b :: rest) i).computed.special.Describes c.forest
        (a.expr.run d c).items := hx.weaken id id
    rw [run_subsequence]
    refine .ofResult fun t ht => ?_
    obtain ⟨x, -, ht⟩ := bind_eq_ok_iff.mp ht
    obtain ⟨n?, -, rfl⟩ := map_eq_ok_iff.mp ht
    exact weaker.sublist (items_cut_sublist d a.expr c _)
  | _ => exact .of_silent _ _ rfl rfl

/-- The order properties of a part of a typed expression describe what it comes to. -/
theorem Sound.ordered (h : Sound False s d scope e c) (hc : c.forest.Proper) :
    e.special.Describes c.forest (e.run d c).items := by
  induction e using inductOperands generalizing scope c with
  | h e ih =>
    have operands : OperandsOrdered d e c := by
      intro a ha c' evaluates
      obtain ⟨scope', h'⟩ := h.of_evaluates evaluates fun _ _ _ _ => Sound.fits
      have hforest := evaluates.forest
      have describes := ih a ha h' (hforest.symm ▸ hc)
      rwa [hforest] at describes
    have fresh : e.special = e.computed.special := congrArg Properties.special h.annotated.here.fresh
    rw [fresh]
    cases e with
    | leaf op i => exact order_leaf op i hc
    | unary op a i => exact order_unary operands
    | binary op a b i =>
      -- Two items are never excluded where there are two, although one may be.
      refine order_binary hc operands fun hone => Nat.le_of_lt_succ (Nat.lt_of_not_le fun hmany => ?_)
      obtain ⟨scope', h'⟩ := h.of_evaluates .first fun _ _ _ _ => Sound.fits
      have := h'.fits.many hmany
      simp [Cardinality.atMostOne, this] at hone
    | choice x y n i => exact .of_silent _ _ rfl rfl
    | variadic op args i =>
      cases op with
      | block => exact .of_silent _ _ rfl rfl
      | call function => exact order_call h.annotated.here.typed operands

/-! ### Contexts that bindings make -/

end Expr

/-- Whether two contexts have the same trees, the same global variables and the same local variables. -/
structure Context.SameVariables (c c' : Context) : Prop where
  forest : c.forest = c'.forest
  globals : c.globals = c'.globals
  slots : ∀ index, c.slot index = c'.slot index

theorem Context.LocalsHold.of_sameVariables {Q : SequenceType → Sequence → Prop} {scope : Scope} {c c' : Context}
    (h : c.LocalsHold Q scope) (same : c'.SameVariables c) : c'.LocalsHold Q scope :=
  fun v type xs hv htype hxs => h v type xs hv htype (same.slots v.slot ▸ hxs)

namespace Expr

variable {s : StaticContext} {d : Dispatcher} {e e' : Expr} {c c' : Context} {scope : Scope}

/-- The operands that see the local variables of the expression and no others. -/
def sharing : Expr → List Operand
  | binary (.letIn _) a _ _ => [a]
  | binary (.forIn _) a _ _ => [a]
  | e => e.operands

theorem mem_operandsIn_of_sharing {a : Operand} (scope : Scope) (h : a ∈ e.sharing) :
    (scope, a.expr) ∈ e.operandsIn scope := by
  cases e with
  | leaf op i => exact absurd h List.not_mem_nil
  | unary op b i => exact List.mem_singleton.mpr (congrArg _ (congrArg _ (List.mem_singleton.mp h)))
  | binary op b b' i =>
    cases op with
    | letIn v | forIn v =>
      rw [List.mem_singleton.mp h]
      exact List.mem_cons_self
    | _ =>
      have h : a = b ∨ a = b' := by simpa [sharing] using h
      rcases h with rfl | rfl <;> simp [operandsIn, Binary.scope]
  | choice x y n i =>
    have h : a = x ∨ a = y ∨ a = n := by simpa [sharing] using h
    rcases h with rfl | rfl | rfl <;> simp [operandsIn]
  | variadic op args i => exact List.mem_map.mpr ⟨a, h, rfl⟩

/-- Whether a context is one for a part of an expression: the local variables have the values that the
bindings around the part give them, each in a context of the same kind.  Everything else, and in
particular the focus, is as it may be. -/
inductive Bound (d : Dispatcher) (root : Expr) : Expr → Context → Prop
  | root (c : Context) : Bound d root root c
  | operand {e : Expr} {a : Operand} {c c' : Context} : Bound d root e c → a ∈ e.sharing →
      c'.SameVariables c → Bound d root a.expr c'
  | letBody {v : Binding} {a b : Operand} {i : Info} {c c₁ c' : Context} {xs : Sequence} :
      Bound d root (binary (.letIn v) a b i) c → Bound d root a.expr c₁ →
      c₁.forest = c.forest → c₁.globals = c.globals →
      ((a.expr.behaviour d).collect c₁).outcome = .ok xs →
      c'.SameVariables (c.setSlot v.slot xs) → Bound d root b.expr c'
  | forBody {v : Binding} {a b : Operand} {i : Info} {c c₁ c' : Context} {item : Item} :
      Bound d root (binary (.forIn v) a b i) c → Bound d root a.expr c₁ →
      c₁.forest = c.forest → c₁.globals = c.globals →
      item ∈ (a.expr.run d c₁).items →
      c'.SameVariables (c.setSlot v.slot [item]) → Bound d root b.expr c'

theorem Throughout.of_bound {P : Expr → Prop} {root : Expr} (h : Throughout P root) (bound : Bound d root e c) :
    Throughout P e := by
  induction bound with
  | root => exact h
  | operand _ ha _ ih =>
    obtain ⟨b, hb, hexpr⟩ := exists_operand_of_mem_operandsIn (mem_operandsIn_of_sharing [] ha)
    have hparts := ih.operand hb
    rwa [hexpr] at hparts
  | letBody _ _ _ _ _ _ ih => exact ih.operand (by simp)
  | forBody _ _ _ _ _ _ ih => exact ih.operand (by simp)

/-- The contexts in which evaluation comes to the parts of an expression are those that its bindings make. -/
theorem Bound.of_evaluates {root : Expr} (bound : Bound d root e c) (evaluates : Evaluates d e c e' c') :
    Bound d root e' c' := by
  have same : c.SameVariables c := ⟨rfl, rfl, fun _ => rfl⟩
  cases evaluates with
  | unary | condition | yes | no => exact bound.operand (by simp [sharing]) same
  | argument ha => exact bound.operand (by simpa [sharing] using ha) same
  | selection => exact bound.operand (by simp [sharing]) ⟨rfl, rfl, fun _ => rfl⟩
  | @first op => exact bound.operand (by cases op <;> simp [sharing]) same
  | letBody hxs =>
    have input := bound.operand (a := _) List.mem_cons_self same
    exact .letBody bound input rfl rfl (collect_eq_ok_iff.mpr hxs) ⟨rfl, rfl, fun _ => rfl⟩
  | forBody hitem =>
    have input := bound.operand (a := _) List.mem_cons_self same
    exact .forBody bound input rfl rfl hitem ⟨rfl, rfl, fun _ => rfl⟩
  | step | predicate => exact bound.operand (by simp [sharing]) ⟨rfl, rfl, fun _ => rfl⟩
  | @second op _ _ _ _ hplain =>
    refine bound.operand ?_ same
    cases op <;> first | (simp [sharing]; done) | cases hplain
  | connective => exact bound.operand (by simp [sharing]) same

theorem Bound.of_reaches {root : Expr} (reaches : Reaches d e c e' c') (bound : Bound d root e c) :
    Bound d root e' c' := by
  induction reaches with
  | here => exact bound
  | operand evaluates _ ih => exact ih (bound.of_evaluates evaluates)

/-- In every context that the bindings make, local variables have values of the types that the scope says, if this is
so of what the declarations are made of. -/
theorem Bound.locals {P : Scope → Expr → Prop} {Q : SequenceType → Sequence → Prop} {root : Expr}
    (annotated : ∀ {scope e}, P scope e → Annotated true s scope e) (everywhere : Everywhere P [] root)
    (bound : Bound d root e c)
    (value : ∀ {scope e c₁}, Everywhere P scope e → e.Settled true → c₁.globals = c.globals →
      c₁.forest = c.forest → c₁.LocalsHold Q scope →
        (∀ xs, e.run d c₁ = .ofList xs → Q e.staticType xs) ∧
        ∀ x ∈ (e.run d c₁).items, Q ⟨e.itemType, .exactlyOne⟩ [x]) :
    ∃ scope, Everywhere P scope e ∧ c.LocalsHold Q scope := by
  -- On the way from the root.  A declaration adds a variable to the scope, with a value that was computed in a
  -- context with the same global variables.
  induction bound with
  | root c =>
    exact ⟨[], everywhere, .nil Q c⟩
  | operand _ ha same ih =>
    obtain ⟨scope, h, locals⟩ := ih fun h hs hglobals hforest =>
      value h hs (hglobals.trans same.globals.symm) (hforest.trans same.forest.symm)
    exact ⟨scope, h.operand (mem_operandsIn_of_sharing scope ha), locals.of_sameVariables same⟩
  | @letBody v a b i c c₁ c' xs _ _ hforest hglobals hxs same ih ih₁ =>
    have globals : c.globals = c'.globals := same.globals.symm
    have forest : c.forest = c'.forest := same.forest.symm
    obtain ⟨scope, h, locals⟩ := ih fun h hs hglobals' hforest' =>
      value h hs (hglobals'.trans globals) (hforest'.trans forest)
    obtain ⟨scope₁, h₁, locals₁⟩ := ih₁ fun h hs hglobals' hforest' =>
      value h hs (hglobals'.trans (hglobals.trans globals)) (hforest'.trans (hforest.trans forest))
    have settled : a.expr.Settled true := (annotated h.here).settled rfl a (by simp)
    have hvalue := value h₁ settled (hglobals.trans globals) (hforest.trans forest) locals₁
    refine ⟨(v.id, a.expr.staticType) :: scope, h.right, Context.LocalsHold.of_sameVariables ?_ same⟩
    exact locals.setSlot (annotated h.here).typed (hvalue.1 xs (collect_eq_ok_iff.mp hxs))
  | @forBody v a b i c c₁ c' item _ _ hforest hglobals hitem same ih ih₁ =>
    have globals : c.globals = c'.globals := same.globals.symm
    have forest : c.forest = c'.forest := same.forest.symm
    obtain ⟨scope, h, locals⟩ := ih fun h hs hglobals' hforest' =>
      value h hs (hglobals'.trans globals) (hforest'.trans forest)
    obtain ⟨scope₁, h₁, locals₁⟩ := ih₁ fun h hs hglobals' hforest' =>
      value h hs (hglobals'.trans (hglobals.trans globals)) (hforest'.trans (hforest.trans forest))
    have settled : a.expr.Settled true := (annotated h.here).settled rfl a (by simp)
    have hvalue := value h₁ settled (hglobals.trans globals) (hforest.trans forest) locals₁
    refine ⟨(v.id, ⟨a.expr.itemType, .exactlyOne⟩) :: scope, h.right, Context.LocalsHold.of_sameVariables ?_ same⟩
    exact locals.setSlot (annotated h.here).typed (hvalue.2 item hitem)

/-- The same is known of a part of a typed expression in every context that the bindings make. -/
theorem Sound.of_bound {root : Expr} (annotated : Everywhere (Annotated true s) [] root)
    (bound : Bound d root e c) (globals : c.GlobalsConform s) :
    ∃ scope, Sound False s d scope e c := by
  obtain ⟨scope, h, locals⟩ := bound.locals (s := s) id annotated
    fun {scope e c₁} h settled hglobals _ (locals : c₁.LocalsFit False scope) => by
      have globals : c₁.GlobalsConform s := by
        unfold Context.GlobalsConform Context.global at *
        rwa [hglobals]
      have sound : Sound False s d scope e c₁ := ⟨h, globals, locals, fun hfalse => hfalse.elim⟩
      have hgreatest := settled.le_greatest h.here.fresh sound.fits
      have fits := sound.fits
      refine ⟨fun xs hxs => ?_, fun _ _ => ⟨fun _ => rfl, Nat.le_refl 1, fun h => by cases h⟩⟩
      rw [hxs] at hgreatest fits
      exact ⟨fun hfalse => hfalse.elim, hgreatest, fits.ne_impossible rfl⟩
  exact ⟨scope, h, globals, locals, fun hfalse => hfalse.elim⟩

end Expr

/-! ### Order as it is seen from outside -/

namespace Forest

variable {f : Forest} {m n : Nat} {ns : List Nat}

/-- An ancestor comes first and lies above. -/
theorem before_of_mem_ancestors (h : m ∈ f.ancestors n) : f.Before m n ∧ f.Above m n := by
  obtain ⟨hinOrder, habove⟩ := f.inOrder_path n
  have hpath : f.path n = (f.ancestors n).reverse ++ [n] := List.reverse_cons
  rw [hpath] at hinOrder habove
  refine ⟨(List.pairwise_append.mp hinOrder).2.2 m (List.mem_reverse.mpr h) n List.mem_cons_self, ?_⟩
  exact habove m (List.mem_append_left _ (List.mem_reverse.mpr h))

/-- Of nodes in order that lie apart none is an ancestor of another. -/
theorem not_mem_ancestors (hinOrder : f.InOrder ns) (hapart : f.Apart ns) (hm : m ∈ ns) (hn : n ∈ ns) :
    m ∉ f.ancestors n := by
  intro hancestor
  obtain ⟨hbefore, habove⟩ := before_of_mem_ancestors hancestor
  obtain ⟨j, hj, rfl⟩ := List.mem_iff_getElem.mp hm
  obtain ⟨k, hk, rfl⟩ := List.mem_iff_getElem.mp hn
  rcases Nat.lt_trichotomy j k with hlt | rfl | hlt
  · exact List.pairwise_iff_getElem.mp hapart j k hj hk hlt habove
  · exact hbefore.ne rfl
  · exact (hbefore.trans (List.pairwise_iff_getElem.mp hinOrder k j hk hj hlt)).ne rfl

end Forest

namespace Expr

variable {s : StaticContext} {d : Dispatcher} {c : Context}

/-- **The order properties of a typed expression are right.**  Take a part of it, and a context over proper
trees in which global variables conform to their declared types and local variables have the values that
the bindings around the part give them.  If the properties of the part say that its result is in order,
then the result is one item at most or nodes of one tree that come strictly one after the other in
document order; if they say besides that its nodes are peers, then none is an ancestor of another; and if the
part is a path, then its steps find just what they would give after sorting. -/
theorem ordered_of_bound {root t sub : Expr} {xs : Sequence} (built : root.Built true)
    (typed : root.typed s = .ok t) (bound : Bound d t sub c) (proper : c.forest.Proper)
    (globals : c.GlobalsConform s) (hxs : ((sub.behaviour d).collect c).outcome = .ok xs)
    (hordered : sub.special.ordered = true) :
    (xs.length ≤ 1 ∨ ∃ ns : List Nat, xs = ns.map .node ∧
      ns.Pairwise fun m n => c.forest.order m n = .ok .lt) ∧
    (sub.special.peer = true → ∀ m n, .node m ∈ xs → .node n ∈ xs → m ∉ c.forest.ancestors n) ∧
    ∀ a b i, sub = binary .path a b i →
      found d a.expr b.expr c = .ofList xs ∧ sortPath c.forest xs = .ok xs := by
  obtain ⟨scope, sound⟩ := Sound.of_bound (wellTyped_of_built built [] t typed).1 bound globals
  have describes := sound.ordered proper
  have hrun := collect_eq_ok_iff.mp hxs
  rw [hrun] at describes
  have inOrder : Sequence.InOrder c.forest xs := describes.ordered hordered
  refine ⟨?_, fun hpeer m n hm hn => ?_, ?_⟩
  · rcases inOrder.pure with hlength | hnodes
    · exact .inl hlength
    · refine .inr ⟨Sequence.nodes xs, (Sequence.eq_map_node hnodes).symm, ?_⟩
      exact inOrder.nodes.imp Forest.Before.order_eq_lt
  · have mem {k : Nat} (hk : Item.node k ∈ xs) : k ∈ Sequence.nodes xs :=
      List.mem_filterMap.mpr ⟨.node k, hk, rfl⟩
    exact Forest.not_mem_ancestors inOrder.nodes (describes.apart hpeer) (mem hm) (mem hn)
  · rintro a b i rfl
    refine ⟨?_, sortPath_of_inOrder inOrder⟩
    rw [run_path, if_pos (show i.props.special.ordered = true from hordered)] at hrun
    exact hrun

/-- A root with two elements `a`, each with one element `b` inside. -/
def twoBranches : Forest :=
  ((((Forest.empty.add (element "b" [])).add (element "a" [0])).add (element "b" [])).add
    (element "a" [2])).add (element "r" [1, 3])
where
  /-- An element with children and nothing else. -/
  element (name : String) (children : List Nat) : NodeData :=
    ⟨.element, some ⟨none, .plain name⟩, none, [], children⟩

/-- The elements `b` inside the elements `a`. -/
def innerElements : Expr :=
  Binary.path.on (ofLeaf (.step .child (.elementNamed "a")) .unknown)
    (ofLeaf (.step .child (.elementNamed "b")) .unknown) .unknown

/-- From the root two of them are found, without sorting, in order and apart. -/
theorem ordered_of_bound_innerElements :
    let c := (Context.initial twoBranches).withFocus (.node 4) 1 none
    ∃ t, innerElements.typed .initial = .ok t ∧ twoBranches.Proper ∧
      ((t.behaviour .none).collect c).outcome = .ok [.node 0, .node 2] ∧
      t.special.ordered = true ∧ t.special.peer = true ∧
      twoBranches.order 0 2 = .ok .lt ∧ 0 ∉ twoBranches.ancestors 2 := by
  intro c
  have built : innerElements.Built true := .path _ (.step _ _ _) (.step _ _ _)
  have proper : c.forest.Proper := by decide
  have globals : c.GlobalsConform .initial := by
    intro name type xs htype
    simp [StaticContext.globalType?, StaticContext.initial] at htype
  obtain ⟨hnodes, hpeers, -⟩ := ordered_of_bound (d := .none) built rfl (.root c) proper globals rfl rfl
  refine ⟨_, rfl, proper, rfl, rfl, rfl, ?_, hpeers rfl 0 2 (by simp) (by simp)⟩
  rcases hnodes with hlength | ⟨ns, hns, hordered⟩
  · exact absurd hlength (by decide)
  · rcases ns with _ | ⟨m, _ | ⟨n, _ | ⟨k, ns⟩⟩⟩ <;> simp at hns
    obtain ⟨rfl, rfl⟩ := hns
    exact List.rel_of_pairwise_cons hordered List.mem_cons_self

end Expr

end TreeQuery
