/-
Lazy results as lists.

Everything that evaluation hands on one by one, and computes only when it is asked for, is what one gets by computing
all items of the operands first and working on the lists.  `Expr.drained?` is the list of all items of an
expression, if nothing fails.  Of loops, blocks, filters, paths and atomization it is an operation on the lists of
their operands, and there is such a list if and only if everything that the operation evaluates has one
(`Expr.drained?_eagerly`).

What it means to put a list into document order is said without sorting it (`Arranged`): the same nodes, each once and
before those that follow it.

Design notes: a filter and a path look ahead for the length of their first operand if their second operand asks for
it, and find it out in several ways.  It is the length of the list, or cannot be told apart from it.
-/
import TreeQuery.Proofs.CardinalitySoundness
import TreeQuery.Proofs.Lengths

namespace TreeQuery

/-! ### Document order -/

/-- Whether a sequence is another one put into document order: the nodes of one tree, each once and every
one before those that follow it, or the same values. -/
inductive Arranged (f : Forest) : Sequence → Sequence → Prop
  | nodes {ns ms : List Nat} (mem : ∀ n, n ∈ ms ↔ n ∈ ns)
    (before : ms.Pairwise fun m n => f.order m n = .ok .lt) :
    Arranged f (ns.map .node) (ms.map .node)
  | values (vs : List Value) : Arranged f (vs.map .atomic) (vs.map .atomic)

namespace Forest

variable {f : Forest} {ns ms : List Nat}

/-- Nodes in document order are determined by which they are. -/
theorem eq_of_inOrder (h : f.InOrder ns) (h' : f.InOrder ms) (mem : ∀ n, n ∈ ns ↔ n ∈ ms) : ns = ms := by
  have perm : ns.Perm ms :=
    (List.perm_ext_iff_of_nodup (h.imp Before.ne) (h'.imp Before.ne)).mpr mem
  refine perm.eq_of_pairwise (fun a b _ _ hab hba => ?_) h h'
  exact absurd rfl (hab.trans hba).ne

/-- Sorting nodes gives those nodes in document order, and fails where they have none. -/
theorem sortNodes_eq_ok_iff_inOrder : f.sortNodes ns = .ok ms ↔ f.InOrder ms ∧ ∀ n, n ∈ ms ↔ n ∈ ns := by
  refine ⟨fun h => ⟨inOrder_sortNodes h, fun n => mem_sortNodes h⟩, fun ⟨inOrder, mem⟩ => ?_⟩
  have sameRoot {a b : Nat} (ha : a ∈ ns) (hb : b ∈ ns) : f.root a = f.root b :=
    List.Pairwise.forall_of_forall_of_flip (R := fun a b => f.root a = f.root b) (fun _ _ => rfl)
      (inOrder.imp fun h => h.1) (inOrder.imp fun h => h.1.symm) ((mem a).mpr ha) ((mem b).mpr hb)
  have first : ∀ n ∈ ns, ns.headD n ∈ ns := fun n hn => by
    cases ns with
    | nil => exact hn
    | cons m rest => exact List.mem_cons_self
  have sorted := sortNodes_eq_ok_iff.mpr ⟨fun n hn => sameRoot (first n hn) hn, rfl⟩
  rw [sorted]
  refine congrArg Except.ok (eq_of_inOrder (inOrder_sortNodes sorted) inOrder fun n => ?_)
  rw [mem_sortNodes sorted, mem]

end Forest

theorem Sequence.eq_map_atomic {xs : Sequence} (h : xs.nodes = []) :
    ∃ vs : List Value, xs = vs.map .atomic := by
  induction xs with
  | nil => exact ⟨[], rfl⟩
  | cons x xs ih =>
    cases x with
    | node n => simp [nodes, Item.node?] at h
    | atomic v =>
      obtain ⟨vs, rfl⟩ := ih (by simpa [nodes, Item.node?] using h)
      exact ⟨v :: vs, rfl⟩

theorem Sequence.nodes_map_atomic (vs : List Value) : nodes (vs.map .atomic) = [] := by
  induction vs with
  | nil => rfl
  | cons v vs ih => exact ih

/-- The result of a path is what its steps find, put into document order; it is a failure if there are
values next to nodes, or nodes of several trees. -/
theorem sortPath_eq_ok_iff {f : Forest} {xs ys : Sequence} : sortPath f xs = .ok ys ↔ Arranged f xs ys := by
  have unfolded : sortPath f xs =
      if xs.nodes.isEmpty then .ok xs
      else if xs.nodes.length ≠ xs.length then .error (.of .mixedPath)
      else (f.sortNodes xs.nodes).map (·.map .node) := rfl
  rw [unfolded]
  constructor
  · intro h
    split at h
    · rename_i hnodes
      obtain rfl := Except.ok.inj h
      obtain ⟨vs, rfl⟩ := Sequence.eq_map_atomic (List.isEmpty_iff.mp hnodes)
      exact .values vs
    · split at h
      · simp at h
      -- As many nodes as items: no item is a value.
      · rename_i hlength
        have hall : xs.all Item.isNode = true := by
          have areNodes := List.filterMap_length_eq_length.mp (Decidable.not_not.mp hlength)
          refine List.all_eq_true.mpr fun x hx => ?_
          have hx := areNodes x hx
          cases x <;> simp_all [Item.node?, Item.isNode]
        obtain ⟨ms, hms, rfl⟩ := map_eq_ok_iff.mp h
        obtain ⟨inOrder, mem⟩ := Forest.sortNodes_eq_ok_iff_inOrder.mp hms
        have nodes := Arranged.nodes (f := f) mem (inOrder.imp Forest.Before.order_eq_lt)
        rwa [Sequence.eq_map_node hall] at nodes
  · rintro (⟨mem, before⟩ | vs)
    · rename_i ns ms
      have sorted := Forest.sortNodes_eq_ok_iff_inOrder.mpr
        ⟨before.imp fun h => Forest.order_eq_lt_iff.mp h, mem⟩
      simp only [Sequence.nodes_map_node, List.length_map, ne_eq, not_true, if_false, sorted]
      -- Without any nodes both descriptions agree.
      split
      · rename_i hnil
        obtain rfl := List.isEmpty_iff.mp hnil
        obtain rfl : ms = [] := List.eq_nil_iff_forall_not_mem.mpr fun n hn => by simpa using (mem n).mp hn
        rfl
      · rfl
    · rw [Sequence.nodes_map_atomic]
      rfl

/-! ### Lists -/

/-- Going through a list with the places of its items is going through the list. -/
theorem mapM_zipIdx {α β : Type} (g : α → Option β) (xs : List α) :
    (xs.zipIdx.mapM fun p => g p.1) = xs.mapM g := by
  conv => rhs; rw [← List.zipIdx_map_fst 0 xs, List.mapM_map]
  rfl

section Choosing

variable {α β : Type} (keep : α → Option Bool) (g : α → β)

private theorem filterAuxM_eq (xs kept : List α) : (xs.filterAuxM keep kept).map (List.map g) =
    (xs.mapM fun x => (keep x).map fun b => if b then [g x] else []).map
      fun parts => parts.flatten.reverse ++ kept.map g := by
  induction xs generalizing kept with
  | nil => rfl
  | cons x xs ih =>
    rw [List.filterAuxM, List.mapM_cons]
    cases keep x with
    | none => rfl
    | some b =>
      refine (ih (cond b (x :: kept) kept)).trans ?_
      generalize (xs.mapM fun x => (keep x).map fun b => if b then [g x] else []) = parts?
      cases b <;> cases parts? <;> simp

/-- Choosing from a list is replacing every item by a list of one item or none. -/
theorem map_filterM (xs : List α) : (xs.filterM keep).map (List.map g) =
    (xs.mapM fun x => (keep x).map fun b => if b then [g x] else []).map List.flatten := by
  calc (xs.filterM keep).map (List.map g)
      = ((xs.filterAuxM keep []).map (List.map g)).map List.reverse := by
        rw [List.filterM]
        cases xs.filterAuxM keep [] <;> simp
    _ = _ := by
        rw [filterAuxM_eq]
        cases xs.mapM fun x => (keep x).map fun b => if b then [g x] else [] <;> simp

end Choosing

namespace Trace

variable {t u : Trace}

/-- All items, if there is no failure. -/
def total? (t : Trace) : Option Sequence := t.result.toOption

theorem total?_append (t u : Trace) :
    (t.append u).total? = t.total?.bind fun xs => u.total?.map (xs ++ ·) := by
  rcases t with ⟨xs, _ | e⟩ <;> rcases u with ⟨ys, _ | e'⟩ <;> rfl

theorem total?_concat (ts : List Trace) : (concat ts).total? = (ts.mapM total?).map List.flatten := by
  induction ts with
  | nil => rfl
  | cons t rest ih =>
    rw [concat, total?_append, ih, List.mapM_cons]
    cases t.total? <;> cases rest.mapM total? <;> rfl

theorem expandFrom_eq_concat (f : Nat → Item → Trace) (before : Nat) (xs : Sequence) :
    expandFrom f none before xs = concat ((xs.zipIdx before).map fun p => f p.2 p.1) := by
  induction xs generalizing before with
  | nil => rfl
  | cons x xs ih => rw [expandFrom, ih, List.zipIdx_cons, List.map_cons, concat]

theorem total?_eq_some_iff {t : Trace} {xs : Sequence} : t.total? = some xs ↔ t = ofList xs := by
  rcases t with ⟨ys, _ | e⟩ <;> simp [total?, result, ofList, Except.toOption]

theorem total?_wholeIf (t : Trace) (needed : Bool) : (t.wholeIf needed).total? = t.total? := by
  rcases t with ⟨xs, _ | e⟩ <;> cases needed <;> rfl

theorem total?_sorted (t : Trace) (f : Forest) :
    (t.sorted f).total? = t.total?.bind fun xs => (sortPath f xs).toOption := by
  rcases t with ⟨xs, _ | e⟩
  · cases h : sortPath f xs <;>
      simp [sorted, total?, result, h, Except.map, Except.toOption]
  · rfl

/-- Replacing every item of a trace gives all items that they are replaced by, if nothing fails. -/
theorem total?_expand (t : Trace) (f : Nat → Item → Trace) :
    (t.expand f).total? = t.total?.bind fun xs =>
      (xs.zipIdx.mapM fun p => (f p.2 p.1).total?).map List.flatten := by
  rcases t with ⟨xs, _ | e⟩
  · rw [expand, expandFrom_eq_concat, total?_concat, List.mapM_map]
    rfl
  · have failed : (expandFrom f (some e) 0 xs).failure? ≠ none := fun h => by
      simpa using (failure?_expandFrom_eq_none h).1
    obtain ⟨e', he'⟩ := Option.ne_none_iff_exists'.mp failed
    simp [expand, total?, result, he', Except.toOption]

end Trace

/-! ### Expressions -/

theorem Eval.toOption_result {α : Type} (x : Eval α) : x.outcome.toOption = x.result.toOption := by
  rcases x with ⟨log, e | a⟩ <;> rfl

/-- The focus for each item of a sequence, with the length if it is needed. -/
def Sequence.focuses (xs : Sequence) (sized : Bool) : List Focus :=
  xs.zipIdx.map fun p => ⟨p.1, p.2 + 1, if sized then some xs.length else none⟩

/-- The same with the given focus. -/
def Context.focusedOn (c : Context) (focus : Focus) : Context := { c with focus? := some focus }

namespace Expr

variable {d : Dispatcher} {c : Context} {a b : Operand} {i : Info}

/-- All items that an expression gives, if nothing fails. -/
def drained? (d : Dispatcher) (e : Expr) (c : Context) : Option Sequence :=
  ((e.behaviour d).collect c).outcome.toOption

/-- Whether an expression holds as a predicate for the item that is in the focus, if nothing fails. -/
def holds? (d : Dispatcher) (e : Expr) (c : Context) (focus : Focus) : Option Bool :=
  ((e.behaviour d).holdsAt (c.focusedOn focus) focus.position).outcome.toOption

/-- All items that a step gives for the item that is in the focus, which has to be a node. -/
def stepped? (d : Dispatcher) (e : Expr) (c : Context) (focus : Focus) : Option Sequence :=
  if focus.item.isNode then e.drained? d (c.focusedOn focus) else none

theorem drained?_eq (d : Dispatcher) (e : Expr) (c : Context) : e.drained? d c = (e.run d c).total? := by
  rw [drained?, Eval.toOption_result, result_collect, Trace.total?]

/-- A loop gives what its body gives for each item, one after the other. -/
theorem drained?_forIn (v : Binding) : (binary (.forIn v) a b i).drained? d c = do
    let xs ← a.expr.drained? d c
    let parts ← xs.mapM fun x => b.expr.drained? d (c.setSlot v.slot [x])
    return parts.flatten := by
  simp only [drained?_eq, run_forIn, Trace.total?_expand]
  refine congrArg (Option.bind _) (funext fun xs => ?_)
  rw [mapM_zipIdx fun x => (b.expr.run d (c.setSlot v.slot [x])).total?]
  exact Option.map_eq_bind ..

/-- A block gives what its parts give, one after the other. -/
theorem drained?_block (args : List Operand) : (variadic .block args i).drained? d c = do
    let parts ← args.mapM fun a => a.expr.drained? d c
    return parts.flatten := by
  simp only [drained?_eq, run_block, Trace.total?_concat, List.mapM_map]
  exact Option.map_eq_bind ..

/-- Atomization gives the typed values of the items, one after the other. -/
theorem drained?_atomize : (unary .atomize a i).drained? d c = do
    let xs ← a.expr.drained? d c
    return xs.flatMap fun x => (x.typedValue c.forest).map .atomic := by
  have values (xs : Sequence) : (xs.flatMap fun x => (x.typedValue c.forest).map Item.atomic) =
      xs.map fun x => .atomic (x.value c.forest) := by
    simp [Item.typedValue_eq, List.map_eq_flatMap]
  simp only [drained?_eq, run_atomize, values]
  rcases a.expr.run d c with ⟨xs, _ | e⟩ <;> rfl

section Focus

variable (hd : d.IsLocal) (next : d.Overlooks)
include hd next

/-- What an operand gives for an item does not depend on how the length of the sequence is found out. -/
theorem runAt_sizeIf {xs : Sequence} (ha : a.expr.run d c = .ofList xs) (needed : Bool) (e : Expr) (before : Nat)
    (x : Item) : e.runAt d c (a.expr.sizeIf d needed c) before x =
      e.run d (c.focusedOn ⟨x, before + 1, if needed then some xs.length else none⟩) := by
  refine run_eq_of_looksLike hd next e (.withFocus c x (before + 1) ?_)
  cases needed with
  | false => rfl
  | true =>
    have size := Behaviour.lengthValue_size (a.expr.behaviour d) c
    rw [← run, ha] at size
    exact congrArg some size

/-- A filter gives the items for which its predicate holds. -/
theorem drained?_filter : (binary .filter a b i).drained? d c = do
    let xs ← a.expr.drained? d c
    let kept ← (xs.focuses b.expr.dependencies.last).filterM (b.expr.holds? d c)
    return kept.map (·.item) := by
  rw [drained?_eq, run_filter, Trace.filter, Trace.total?_expand, Trace.total?_wholeIf, ← drained?_eq]
  refine Option.bind_congr fun xs hxs => ?_
  rw [drained?_eq, Trace.total?_eq_some_iff] at hxs
  have keeping (focus : Focus) : (Trace.keeping ((b.expr.run d (c.focusedOn focus)).holdsAt focus.position)
      focus.item).total? = (b.expr.holds? d c focus).map fun t => if t then [focus.item] else [] := by
    rw [holds?, Eval.toOption_result, Behaviour.result_holdsAt, run]
    rcases ((b.expr.behaviour d).trace (c.focusedOn focus)).holdsAt focus.position with e | _ | _ <;> rfl
  simp only [runAt_sizeIf hd next hxs]
  refine Eq.trans ?_ (Option.map_eq_bind ..)
  rw [map_filterM, Sequence.focuses, List.mapM_map]
  exact congrArg (fun f => (xs.zipIdx.mapM f).map List.flatten) (funext fun p => keeping _)

/-- The steps of a path give what they give for each node, one after the other. -/
theorem total?_found : (found d a.expr b.expr c).total? = do
    let xs ← a.expr.drained? d c
    let parts ← (xs.focuses b.expr.dependencies.last).mapM (b.expr.stepped? d c)
    return parts.flatten := by
  rw [found, Trace.total?_expand, Trace.total?_wholeIf, ← drained?_eq]
  refine Option.bind_congr fun xs hxs => ?_
  rw [drained?_eq, Trace.total?_eq_some_iff] at hxs
  have step (before : Nat) (x : Item) : (b.expr.stepAt d c (a.expr.sizeIf d b.expr.dependencies.last c) before
      x).total? = b.expr.stepped? d c
        ⟨x, before + 1, if b.expr.dependencies.last then some xs.length else none⟩ := by
    cases x with
    | atomic v => rfl
    | node n =>
      rw [stepAt, runAt_sizeIf hd next hxs, ← drained?_eq]
      rfl
  simp only [step, Sequence.focuses, List.mapM_map]
  exact Option.map_eq_bind ..

/-- A path gives what its steps give, put into document order unless that is known to be so already. -/
theorem drained?_path {ys : Sequence} : (binary .path a b i).drained? d c = some ys ↔
    ∃ xs parts, a.expr.drained? d c = some xs ∧
      (xs.focuses b.expr.dependencies.last).mapM (b.expr.stepped? d c) = some parts ∧
      if i.props.special.ordered then ys = parts.flatten else Arranged c.forest parts.flatten ys := by
  have found : ∀ zs, (found d a.expr b.expr c).total? = some zs ↔ ∃ xs parts, a.expr.drained? d c = some xs ∧
      (xs.focuses b.expr.dependencies.last).mapM (b.expr.stepped? d c) = some parts ∧ zs = parts.flatten := by
    intro zs
    rw [total?_found hd next]
    simp [Option.bind_eq_some_iff, @eq_comm _ zs]
  rw [drained?_eq, run_path]
  cases i.props.special.ordered with
  | true => exact found ys
  | false =>
    simp only [Bool.false_eq_true, if_false, Trace.total?_sorted, Option.bind_eq_some_iff, found]
    constructor
    · rintro ⟨_, ⟨xs, parts, hxs, hparts, rfl⟩, hsorted⟩
      refine ⟨xs, parts, hxs, hparts, sortPath_eq_ok_iff.mp ?_⟩
      cases h : sortPath c.forest parts.flatten <;> simp_all [Except.toOption]
    · rintro ⟨xs, parts, hxs, hparts, harranged⟩
      refine ⟨_, ⟨xs, parts, hxs, hparts, rfl⟩, ?_⟩
      rw [sortPath_eq_ok_iff.mpr harranged]
      rfl

end Focus

/-- **Lazy evaluation computes the lists.**  In every context, and however deep rules may be applied inside each
other: a loop, a block, a filter, a path and atomization give what one gets from the lists of all items of their
operands, and they fail if and only if something fails that is evaluated for these lists.  The positions that a filter
and a path put into the focus count from 1, and the length is the length of the list. -/
theorem drained?_eagerly (depth : Nat) (c : Context) (a b : Operand) (i : Info) :
    let d := dispatcherWithin depth
    (∀ v, (binary (.forIn v) a b i).drained? d c = do
      let xs ← a.expr.drained? d c
      let parts ← xs.mapM fun x => b.expr.drained? d (c.setSlot v.slot [x])
      return parts.flatten) ∧
    (∀ args, (variadic .block args i).drained? d c = do
      let parts ← args.mapM fun a => a.expr.drained? d c
      return parts.flatten) ∧
    ((binary .filter a b i).drained? d c = do
      let xs ← a.expr.drained? d c
      let kept ← (xs.focuses b.expr.dependencies.last).filterM (b.expr.holds? d c)
      return kept.map (·.item)) ∧
    (∀ ys, (binary .path a b i).drained? d c = some ys ↔
      ∃ xs parts, a.expr.drained? d c = some xs ∧
        (xs.focuses b.expr.dependencies.last).mapM (b.expr.stepped? d c) = some parts ∧
        if i.props.special.ordered then ys = parts.flatten else Arranged c.forest parts.flatten ys) ∧
    (unary .atomize a i).drained? d c = do
      let xs ← a.expr.drained? d c
      return xs.flatMap fun x => (x.typedValue c.forest).map .atomic :=
  have hd := dispatcherWithin_isLocal depth
  have next := dispatcherWithin_overlooks depth
  ⟨fun _ => drained?_forIn _, fun _ => drained?_block _, drained?_filter hd next,
    fun _ => drained?_path hd next, drained?_atomize⟩

end Expr

end TreeQuery
