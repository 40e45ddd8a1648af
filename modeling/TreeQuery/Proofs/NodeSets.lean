/-
Unions and sorted paths are sets of nodes.

A union, and a path that is put into order, sorts nodes by a comparison that fails between different trees, and
then drops neighbours that are equal.  Of nodes of one tree this makes a set (`Sequence.IsNodeSet`): what comes
out strictly increases in document order, and depends on which nodes there are and on nothing else
(`unionOf_congr`).  The laws of unions follow from that.

**Main result** (`sorts_to_nodeSets`): unions and sorted paths of nodes of one tree are the sets of the nodes in
them; with values among the nodes, or with nodes of several trees, they fail, and nothing is given.
-/
import TreeQuery.Proofs.EagerResults
import TreeQuery.Proofs.TreePositions

namespace TreeQuery

/-- Whether a sequence is a set of nodes: each stands before all that follow it in document order. -/
def Sequence.IsNodeSet (f : Forest) (xs : Sequence) : Prop :=
  ∃ ns : List Nat, xs = ns.map .node ∧ ns.Pairwise fun m n => f.order m n = .ok .lt

variable {f : Forest} {xs ys zs us vs : Sequence} {ms ns : List Nat} {r : Nat}

namespace Forest

/-- What is sorted depends only on which nodes there are. -/
theorem sortNodes_congr (same : ∀ n, n ∈ ms ↔ n ∈ ns) : f.sortNodes ms = f.sortNodes ns := by
  have related : (∀ a ∈ ms, ∀ b ∈ ms, f.root a = f.root b) ↔ ∀ a ∈ ns, ∀ b ∈ ns, f.root a = f.root b := by
    simp only [same]
  by_cases h : ∀ a ∈ ns, ∀ b ∈ ns, f.root a = f.root b
  · have sorted : f.sortNodes ms = .ok (dropRepeats (ms.mergeSort f.mayPrecede)) := by
      rw [sortNodes_eq, if_pos (related.mpr h)]
    rw [sorted]
    -- A list in document order is determined by its nodes.
    refine (sortNodes_eq_ok_iff_inOrder.mpr ⟨inOrder_sortNodes sorted, fun n => ?_⟩).symm
    rw [mem_sortNodes sorted, same]
  · rw [sortNodes_eq, sortNodes_eq, if_neg h, if_neg fun h' => h (related.mp h')]

/-- Nodes of one tree can be sorted. -/
theorem exists_sortNodes (h : ∀ n ∈ ns, f.root n = r) : ∃ ms, f.sortNodes ns = .ok ms := by
  rw [sortNodes_eq, if_pos fun a ha b hb => (h a ha).trans (h b hb).symm]
  exact ⟨_, rfl⟩

end Forest

/-! ### Sequences of nodes -/

theorem Sequence.mem_nodes {n : Nat} : n ∈ Sequence.nodes xs ↔ .node n ∈ xs := by
  rw [Sequence.nodes, List.mem_filterMap]
  constructor
  · rintro ⟨a, ha, hn⟩
    cases a with
    | node m => exact Option.some.inj hn ▸ ha
    | atomic v => cases hn
  · exact fun h => ⟨_, h, rfl⟩

theorem Sequence.isNodeSet_map_node : IsNodeSet f (ns.map .node) ↔ f.InOrder ns := by
  have inOrder : f.InOrder ns ↔ ns.Pairwise fun m n => f.order m n = .ok .lt := by
    simp only [Forest.InOrder, Forest.order_eq_lt_iff]
  rw [inOrder]
  constructor
  · rintro ⟨ms, hms, h⟩
    have := congrArg nodes hms
    rw [nodes_map_node, nodes_map_node] at this
    exact this ▸ h
  · exact fun h => ⟨ns, rfl, h⟩

/-! ### Unions -/

/-- A union depends only on which items there are in both sequences together. -/
theorem unionOf_congr (same : ∀ a, a ∈ xs ++ ys ↔ a ∈ us ++ vs) : unionOf f xs ys = unionOf f us vs := by
  have nodes : f.sortNodes (Sequence.nodes (xs ++ ys)) = f.sortNodes (Sequence.nodes (us ++ vs)) :=
    Forest.sortNodes_congr fun n => by rw [Sequence.mem_nodes, Sequence.mem_nodes, same]
  have pure : (xs ++ ys).all Item.isNode = (us ++ vs).all Item.isNode := by
    rw [Bool.eq_iff_iff, List.all_eq_true, List.all_eq_true]
    simp only [same]
  rw [unionOf, unionOf, pure]
  exact ite_congr rfl (fun _ => congrArg (Except.map _) nodes) fun _ => rfl

theorem unionOf_of_nodes (h : ∀ a ∈ xs ++ ys, a.isNode = true) :
    unionOf f xs ys = (f.sortNodes (Sequence.nodes (xs ++ ys))).map (·.map .node) := by
  rw [unionOf, if_pos (List.all_eq_true.mpr h)]
  rfl

theorem unionOf_of_not_nodes (h : ¬ ∀ a ∈ xs ++ ys, a.isNode = true) :
    unionOf f xs ys = .error (.of .unionOfAtomics) := by
  rw [unionOf, if_neg fun hall => h (List.all_eq_true.mp hall)]

/-- A union that succeeds is the set of the nodes in both sequences. -/
theorem isNodeSet_of_unionOf (h : unionOf f xs ys = .ok zs) :
    zs.IsNodeSet f ∧ ∀ a, a ∈ zs ↔ a ∈ xs ∨ a ∈ ys := by
  by_cases pure : ∀ a ∈ xs ++ ys, a.isNode = true
  · rw [unionOf_of_nodes pure] at h
    obtain ⟨ms, hms, rfl⟩ := map_eq_ok_iff.mp h
    refine ⟨Sequence.isNodeSet_map_node.mpr (Forest.inOrder_sortNodes hms), fun a => ?_⟩
    rw [← List.mem_append]
    cases a with
    | node n => simp [Forest.mem_sortNodes hms, Sequence.mem_nodes]
    | atomic v =>
      refine ⟨fun ha => by simp at ha, fun ha => ?_⟩
      cases pure _ ha
  · rw [unionOf_of_not_nodes pure] at h
    cases h

/-- Sets are their own unions with themselves. -/
theorem unionOf_self (h : xs.IsNodeSet f) : unionOf f xs xs = .ok xs := by
  obtain ⟨ns, rfl, -⟩ := id h
  have pure : ∀ a ∈ ns.map Item.node ++ [], a.isNode = true := by simp [Item.isNode]
  calc unionOf f (ns.map .node) (ns.map .node)
      = unionOf f (ns.map .node) [] := unionOf_congr (by simp)
    _ = (f.sortNodes ns).map (·.map .node) := by
      rw [unionOf_of_nodes pure, List.append_nil, Sequence.nodes_map_node]
    _ = .ok (ns.map .node) := by
      rw [Forest.sortNodes_of_inOrder (Sequence.isNodeSet_map_node.mp h)]
      rfl

section OneTree

variable (within : ∀ n, .node n ∈ xs ++ ys → f.root n = r)
include within

theorem exists_unionOf (h : ∀ a ∈ xs ++ ys, a.isNode = true) : ∃ zs, unionOf f xs ys = .ok zs := by
  obtain ⟨ms, hms⟩ := Forest.exists_sortNodes fun n hn => within n (Sequence.mem_nodes.mp hn)
  exact ⟨ms.map .node, by rw [unionOf_of_nodes h, hms]; rfl⟩

/-- The union of a union with a third sequence is the union of all three. -/
theorem unionOf_unionOf (zs : Sequence) :
    ((unionOf f xs ys).bind fun us => unionOf f us zs) = unionOf f (xs ++ ys) zs := by
  by_cases pure : ∀ a ∈ xs ++ ys, a.isNode = true
  · obtain ⟨us, hus⟩ := exists_unionOf within pure
    obtain ⟨-, mem⟩ := isNodeSet_of_unionOf hus
    rw [hus]
    exact unionOf_congr fun a => by simp only [List.mem_append, mem]
  · rw [unionOf_of_not_nodes pure, unionOf_of_not_nodes fun h => pure fun a ha =>
      h a (List.mem_append_left zs ha)]
    rfl

end OneTree

theorem unionOf_comm (f : Forest) (xs ys : Sequence) : unionOf f xs ys = unionOf f ys xs :=
  unionOf_congr fun a => by rw [List.mem_append, List.mem_append, or_comm]

theorem unionOf_assoc (within : ∀ n, .node n ∈ xs ++ ys → f.root n = r)
    (third : ∀ n, .node n ∈ zs → f.root n = r) :
    ((unionOf f xs ys).bind fun us => unionOf f us zs) = (unionOf f ys zs).bind fun us => unionOf f xs us := by
  have within' : ∀ n, .node n ∈ ys ++ zs → f.root n = r := fun n hn =>
    (List.mem_append.mp hn).elim (fun h => within n (List.mem_append_right xs h)) (third n)
  calc ((unionOf f xs ys).bind fun us => unionOf f us zs)
      = unionOf f (xs ++ ys) zs := unionOf_unionOf within zs
    _ = unionOf f (ys ++ zs) xs := unionOf_congr fun a => by
        simp only [List.mem_append, or_assoc, or_comm]
    _ = (unionOf f ys zs).bind fun us => unionOf f us xs := (unionOf_unionOf within' xs).symm
    _ = (unionOf f ys zs).bind fun us => unionOf f xs us := by simp only [unionOf_comm f _ xs]

/-- Nodes of different trees have no union. -/
theorem unionOf_of_unrelated (h : ∀ a ∈ xs ++ ys, a.isNode = true)
    (apart : ∃ m n, .node m ∈ xs ++ ys ∧ .node n ∈ xs ++ ys ∧ f.root m ≠ f.root n) :
    unionOf f xs ys = .error (.of .unrelatedNodes) := by
  obtain ⟨m, n, hm, hn, hmn⟩ := apart
  have unrelated : ¬ ∀ a ∈ Sequence.nodes (xs ++ ys), ∀ b ∈ Sequence.nodes (xs ++ ys), f.root a = f.root b :=
    fun related => hmn (related m (Sequence.mem_nodes.mpr hm) n (Sequence.mem_nodes.mpr hn))
  rw [unionOf_of_nodes h, Forest.sortNodes_eq, if_neg unrelated]
  rfl

/-! ### Paths -/

theorem sortPath_eq (f : Forest) (xs : Sequence) : sortPath f xs =
    if (Sequence.nodes xs).isEmpty then .ok xs
    else if (Sequence.nodes xs).length ≠ xs.length then .error (.of .mixedPath)
    else (f.sortNodes (Sequence.nodes xs)).map (·.map .node) := rfl

/-- The result of a path that gives nodes only is the union of the nodes with nothing. -/
theorem sortPath_of_nodes (h : ∀ a ∈ xs, a.isNode = true) : sortPath f xs = unionOf f xs [] := by
  have whole := Sequence.eq_map_node (List.all_eq_true.mpr h)
  have length : (Sequence.nodes xs).length = xs.length := by
    rw [← List.length_map (f := Item.node), whole]
  rw [sortPath_eq, unionOf_of_nodes (by simpa using h), List.append_nil]
  split
  case isTrue none =>
    rw [List.isEmpty_iff.mp none] at whole ⊢
    rw [← whole, Forest.sortNodes_of_inOrder List.Pairwise.nil]
    rfl
  case isFalse => rw [if_neg (not_not_intro length)]

theorem sortPath_of_values (h : ∀ a ∈ xs, a.isNode = false) : sortPath f xs = .ok xs := by
  have none : Sequence.nodes xs = [] := List.eq_nil_iff_forall_not_mem.mpr fun n hn => by
    cases h _ (Sequence.mem_nodes.mp hn)
  rw [sortPath_eq, none]
  rfl

theorem sortPath_of_mixed (node : ∃ a ∈ xs, a.isNode = true) (value : ∃ a ∈ xs, a.isNode = false) :
    sortPath f xs = .error (.of .mixedPath) := by
  obtain ⟨a, ha, hnode⟩ := node
  obtain ⟨b, hb, hvalue⟩ := value
  have some : (Sequence.nodes xs).isEmpty ≠ true := by
    cases a with
    | node n => exact fun hnil => List.ne_nil_of_mem (Sequence.mem_nodes.mpr ha) (List.isEmpty_iff.mp hnil)
    | atomic v => cases hnode
  have fewer : (Sequence.nodes xs).length ≠ xs.length := by
    intro hlength
    have := List.filterMap_length_eq_length.mp hlength b hb
    cases b with
    | node n => cases hvalue
    | atomic v => cases this
  rw [sortPath_eq, if_neg some, if_pos fewer]

/-! ### Sets of nodes -/

/-- **Unions and sorted paths are sets of nodes.**  Take sequences whose nodes belong to one tree.  Their union
succeeds if and only if all items are nodes; it is the set of the nodes in them, and so it does not matter in
which order unions are formed and how often.  A path that gives nodes gives the set of them, one that gives
values gives them as they are, and a mixture is an error.  Where all items are nodes but not of one tree, union
and path fail, since nodes of different trees have no order; no sequence in part of an order is ever given. -/
theorem sorts_to_nodeSets (f : Forest) (xs ys : Sequence) :
    (∀ r, (∀ n, .node n ∈ xs ++ ys → f.root n = r) →
      ((∃ zs, unionOf f xs ys = .ok zs) ↔ ∀ a ∈ xs ++ ys, a.isNode = true) ∧
      (∀ zs, unionOf f xs ys = .ok zs → zs.IsNodeSet f ∧ ∀ a, a ∈ zs ↔ a ∈ xs ∨ a ∈ ys) ∧
      unionOf f xs ys = unionOf f ys xs ∧
      (∀ zs, (∀ n, .node n ∈ zs → f.root n = r) →
        ((unionOf f xs ys).bind fun us => unionOf f us zs) =
          (unionOf f ys zs).bind fun us => unionOf f xs us) ∧
      (xs.IsNodeSet f → unionOf f xs xs = .ok xs) ∧
      ((∀ a ∈ xs, a.isNode = true) →
        ∃ zs, sortPath f xs = .ok zs ∧ zs.IsNodeSet f ∧ ∀ a, a ∈ zs ↔ a ∈ xs) ∧
      ((∀ a ∈ xs, a.isNode = false) → sortPath f xs = .ok xs) ∧
      ((∃ a ∈ xs, a.isNode = true) → (∃ a ∈ xs, a.isNode = false) →
        ∃ e, sortPath f xs = .error e ∧ e.code = ErrorCode.XPTY0018.name)) ∧
    ((∀ a ∈ xs ++ ys, a.isNode = true) →
      (∃ m n, .node m ∈ xs ++ ys ∧ .node n ∈ xs ++ ys ∧ f.root m ≠ f.root n) →
      ∃ e, unionOf f xs ys = .error e ∧ e.code = ErrorCode.FOER0000.name) ∧
    ((∀ a ∈ xs, a.isNode = true) →
      (∃ m n, .node m ∈ xs ∧ .node n ∈ xs ∧ f.root m ≠ f.root n) →
      ∃ e, sortPath f xs = .error e ∧ e.code = ErrorCode.FOER0000.name) := by
  refine ⟨fun r within => ⟨⟨?only, ?all⟩, fun zs => isNodeSet_of_unionOf, unionOf_comm f xs ys,
    fun zs => unionOf_assoc within, unionOf_self, ?path, sortPath_of_values, ?mixed⟩, ?several, ?severalPath⟩
  case only =>
    rintro ⟨zs, hzs⟩
    refine Classical.byContradiction fun impure => ?_
    rw [unionOf_of_not_nodes impure] at hzs
    cases hzs
  case all => exact exists_unionOf within
  case path =>
    intro pure
    have within' : ∀ n, .node n ∈ xs ++ [] → f.root n = r := fun n hn =>
      within n (List.mem_append_left ys (List.append_nil xs ▸ hn))
    obtain ⟨zs, hzs⟩ := exists_unionOf within' (by simpa using pure)
    obtain ⟨set, mem⟩ := isNodeSet_of_unionOf hzs
    exact ⟨zs, (sortPath_of_nodes pure).trans hzs, set, fun a => by simp [mem]⟩
  case mixed => exact fun node value => ⟨_, sortPath_of_mixed node value, rfl⟩
  case several => exact fun pure apart => ⟨_, unionOf_of_unrelated pure apart, rfl⟩
  case severalPath =>
    intro pure apart
    refine ⟨_, (sortPath_of_nodes pure).trans (unionOf_of_unrelated ?_ ?_), rfl⟩
    · simpa using pure
    · simpa using apart

/-- The text below the inner element comes before the element after it, whichever is asked for first. -/
theorem sorts_to_nodeSets_unevenTree :
    (∀ n ∈ [4, 1], Forest.unevenTree.root n = 5) ∧ Forest.unevenTree.root 6 ≠ 5 ∧
      unionOf Forest.unevenTree [.node 4] [.node 1] = unionOf Forest.unevenTree [.node 1] [.node 4] ∧
      (∃ zs, unionOf Forest.unevenTree [.node 4] [.node 1] = .ok zs ∧ .node 1 ∈ zs) ∧
      unionOf Forest.unevenTree [.node 1, .node 4] [.node 1, .node 4] = .ok [.node 1, .node 4] ∧
      ∃ e, unionOf Forest.unevenTree [.node 4] [.node 6] = .error e ∧ e.code = ErrorCode.FOER0000.name := by
  have roots : ∀ n ∈ [4, 1], Forest.unevenTree.root n = 5 := by decide
  have apart : Forest.unevenTree.root 6 ≠ 5 := by decide
  obtain ⟨each, mem, comm, -⟩ := (sorts_to_nodeSets Forest.unevenTree [.node 4] [.node 1]).1 5
    (by simpa using roots)
  obtain ⟨-, -, -, -, self, -⟩ := (sorts_to_nodeSets Forest.unevenTree [.node 1, .node 4] []).1 5
    (by simpa [and_comm] using roots)
  obtain ⟨zs, hzs⟩ := each.mpr (by simp [Item.isNode])
  refine ⟨roots, apart, comm, ⟨zs, hzs, ((mem zs hzs).2 _).mpr (by simp)⟩, self ⟨[1, 4], rfl, ?_⟩, ?_⟩
  · exact List.pairwise_pair.mpr (Forest.order_eq_lt_iff.mpr ⟨by decide, by decide⟩)
  · refine (sorts_to_nodeSets Forest.unevenTree [.node 4] [.node 6]).2.1 (by simp [Item.isNode]) ?_
    exact ⟨6, 4, by simp, by simp, by decide⟩

end TreeQuery
