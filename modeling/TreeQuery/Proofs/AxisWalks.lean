/-
What walks along axes find.

A walk is a machine that is asked for one node after the other (`Walk.next?`).  In a proper tree it ends on
every axis, and until then it has handed out the nodes that stand in the relation of the axis to the start
(`Axis.Relates`), each once, in document order.

New infrastructure:

* `Walk.Yields` — the answers of a walk that is asked until it ends;
* `Walk.yields_iff` — these are the nodes that are left of it, and no other answers are possible;
* `Axis.mem_nodes_iff` — the nodes on an axis are those in its relation to the start, in every forest;
* `Axis.inOrder_nodes_of_properTree` — in a proper tree they are in document order.

Design notes: the relations are put together from the links alone, without the lists in which a walk finds
its nodes.  That there is an end, and that the machine gives these lists, does not need a proper tree; only
the order does, and that nothing comes twice.

**Main result**: `Axis.walk_complete_and_ordered`.
-/
import TreeQuery.Proofs.TreePositions

namespace TreeQuery

/-! ### Walks that are asked until they end -/

namespace Walk

variable {f : Forest} {w : Walk} {ns : List Nat}

/-- Whether a walk that is asked again and again hands out these nodes and then ends. -/
inductive Yields (f : Forest) : Walk → List Nat → Prop where
  | ended {w : Walk} (next : w.next? f = none) : Yields f w []
  | found {w w' : Walk} {n : Nat} {ns : List Nat} (next : w.next? f = some (n, w')) (rest : Yields f w' ns) :
    Yields f w (n :: ns)

/-- **Every walk ends**, and it has then handed out what was left of it. -/
theorem yields_left (f : Forest) (w : Walk) : Yields f w (w.left f) := by
  induction w using induct_next (f := f) with
  | ended w h =>
    rw [left_of_ended h]
    exact .ended h
  | step w n w' h ih =>
    rw [left_of_next? h]
    exact .found h ih

theorem yields_iff : Yields f w ns ↔ ns = w.left f := by
  constructor
  · intro h
    induction h with
    | ended next => exact (left_of_ended next).symm
    | found next rest ih => rw [left_of_next? next, ih]
  · rintro rfl
    exact yields_left f w

end Walk

/-! ### The relations of the axes -/

namespace Forest

variable {f : Forest} {n m r : Nat}

theorem mem_subtree_iff_reaches {fuel : Nat} (h : n < fuel) :
    m ∈ f.subtree fuel n ↔ Relation.ReflTransGen (fun p c => c ∈ f.children p) n m :=
  (spreads_subtree f).mem_iff f.children_lt h

theorem mem_descendants_iff :
    m ∈ f.descendants n ↔ Relation.TransGen (fun p c => c ∈ f.children p) n m := by
  rw [descendants, List.mem_flatMap, Relation.TransGen.head'_iff]
  constructor
  · rintro ⟨c, hc, hm⟩
    exact ⟨c, hc, (mem_subtree_iff_reaches (f.children_lt n c hc)).mp hm⟩
  · rintro ⟨c, hc, hm⟩
    exact ⟨c, hc, (mem_subtree_iff_reaches (f.children_lt n c hc)).mpr hm⟩

theorem mem_ancestors_iff :
    m ∈ f.ancestors n ↔ Relation.TransGen (fun c p => f.parent? c = some p) n m := by
  induction n using induct_parent f with
  | root n h =>
    rw [ancestors_of_root h]
    constructor
    · intro hm
      exact absurd hm List.not_mem_nil
    · intro hm
      obtain ⟨p, hp, -⟩ := Relation.TransGen.head'_iff.mp hm
      exact absurd (h.symm.trans hp) (Option.some_ne_none p).symm
  | step n p h ih =>
    rw [ancestors_of_parent h, List.mem_cons, ih]
    constructor
    · rintro (rfl | hm)
      · exact .single h
      · exact .head h hm
    · intro hm
      obtain ⟨q, hq, hm⟩ := Relation.TransGen.head'_iff.mp hm
      obtain rfl : p = q := Option.some.inj (h.symm.trans hq)
      exact Relation.reflTransGen_iff_eq_or_transGen.mp hm

/-- What is below a node of a tree is in the tree. -/
theorem mem_preorder_of_reaches (hn : n ∈ f.preorder r)
    (hm : Relation.ReflTransGen (fun p c => c ∈ f.children p) n m) : m ∈ f.preorder r := by
  refine mem_preorder_iff_reaches.mpr ((mem_preorder_iff_reaches.mp hn).trans ?_)
  exact Relation.ReflTransGen.mono (fun p c hc => (f.children_sublist p).subset hc) n m hm

/-- In a proper tree a child is nowhere an attribute. -/
theorem ProperTree.not_mem_attributes (tree : f.ProperTree r) {q : Nat} (hq : q ∈ f.preorder r)
    (hm : m ∈ f.children q) : ∀ p ∈ f.preorder r, m ∉ f.attributes p := by
  intro p hp hattribute
  have ofChild := (tree.owns q hq).parent ((f.children_sublist q).subset hm)
  have ofAttribute := (tree.owns p hp).parent ((f.attributes_sublist p).subset hattribute)
  obtain rfl : q = p := Option.some.inj (ofChild.symm.trans ofAttribute)
  exact (List.nodup_append.mp (tree.owns q hq).nodup).2.2 m hattribute m hm rfl

end Forest

namespace Axis

variable {f : Forest} {n m r : Nat}

/-- How a node on an axis stands to the node from which the axis starts. -/
def Relates (f : Forest) (axis : Axis) (n m : Nat) : Prop :=
  match axis with
  | .child => m ∈ f.children n
  | .attribute => m ∈ f.attributes n
  | .self => m = n
  | .parent => f.parent? n = some m
  | .descendant => Relation.TransGen (fun p c => c ∈ f.children p) n m
  | .descendantOrSelf => Relation.ReflTransGen (fun p c => c ∈ f.children p) n m
  | .ancestor => Relation.TransGen (fun c p => f.parent? c = some p) n m

theorem mem_nodes_iff (axis : Axis) : m ∈ axis.nodes f n ↔ axis.Relates f n m := by
  cases axis with
  | child => rfl
  | «attribute» => rfl
  | self => exact List.mem_singleton
  | parent => exact Option.mem_toList
  | descendant => exact Forest.mem_descendants_iff
  | descendantOrSelf => exact Forest.mem_subtree_iff_reaches (Nat.lt_succ_self n)
  | ancestor => exact List.mem_reverse.trans Forest.mem_ancestors_iff

/-- From a node of a proper tree the nodes on every axis come in document order. -/
theorem inOrder_nodes_of_properTree (tree : f.ProperTree r) (hn : n ∈ f.preorder r) (axis : Axis) :
    f.InOrder (axis.nodes f n) := by
  refine inOrder_nodes_of_owns (fun m hm => ?_) axis
  exact tree.owns m (Forest.mem_preorder_of_reaches hn (Forest.inside_iff_reaches.mp hm))

/-- **Walks along axes** from the nodes of a proper tree end.  They hand out the nodes in the relation of the
axis to the start, all of them and each once, in document order; and nothing below a node is an attribute. -/
theorem walk_complete_and_ordered (tree : f.ProperTree r) (hn : n ∈ f.preorder r) (axis : Axis) :
    ∃ ms, Walk.Yields f (axis.start f n) ms ∧
      (axis.walk f n).drain = ⟨[], .ok (ms.map .node)⟩ ∧
      (∀ m, m ∈ ms ↔ axis.Relates f n m) ∧ ms.Nodup ∧
      ms.Pairwise (fun x y => f.order x y = .ok .lt) ∧
      (axis = .descendant ∨ axis = .descendantOrSelf →
        ∀ m ∈ ms, m ≠ n → ∀ p ∈ f.preorder r, m ∉ f.attributes p) := by
  have inOrder := inOrder_nodes_of_properTree tree hn axis
  refine ⟨axis.nodes f n, Walk.yields_iff.mpr (axis.left_start f n).symm, axis.drain_walk f n,
    fun m => mem_nodes_iff axis, inOrder.nodup, inOrder.imp Forest.Before.order_eq_lt, ?_⟩
  intro hdown m hm hne
  have reaches : Relation.ReflTransGen (fun p c => c ∈ f.children p) n m := by
    obtain rfl | rfl := hdown
    · exact ((mem_nodes_iff .descendant).mp hm).to_reflTransGen
    · exact (mem_nodes_iff .descendantOrSelf).mp hm
  -- The last link on the way down is that of a child.
  obtain heq | ⟨q, hq, hlink⟩ := reaches.cases_tail
  · exact absurd heq hne
  · exact tree.not_mem_attributes (Forest.mem_preorder_of_reaches hn hq) hlink

/-- Below the root of the uneven tree there are no attributes, and a text has its ancestors from the root. -/
theorem walk_complete_and_ordered_unevenTree :
    Forest.unevenTree.ProperTree 5 ∧ 5 ∈ Forest.unevenTree.preorder 5 ∧
      1 ∈ Forest.unevenTree.preorder 5 ∧
      Walk.Yields Forest.unevenTree (Axis.descendant.start Forest.unevenTree 5) [2, 1, 4] ∧
      Walk.Yields Forest.unevenTree (Axis.ancestor.start Forest.unevenTree 1) [5, 2] := by
  have tree : Forest.unevenTree.ProperTree 5 := by decide
  have root : 5 ∈ Forest.unevenTree.preorder 5 := by decide
  have leaf : 1 ∈ Forest.unevenTree.preorder 5 := by decide
  obtain ⟨below, hbelow, -⟩ := walk_complete_and_ordered tree root .descendant
  obtain ⟨above, habove, -⟩ := walk_complete_and_ordered tree leaf .ancestor
  obtain rfl : below = [2, 1, 4] := (Walk.yields_iff.mp hbelow).trans (by decide)
  obtain rfl : above = [5, 2] := (Walk.yields_iff.mp habove).trans (by decide)
  exact ⟨tree, root, leaf, hbelow, habove⟩

end Axis

end TreeQuery
