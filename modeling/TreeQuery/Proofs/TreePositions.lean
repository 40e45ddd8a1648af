/-
Positions in a tree.

A tree is proper if every node in it is the parent of what it lists and lists nothing twice
(`Forest.ProperTree`).  The list `Forest.preorder` numbers the nodes of such a tree: a node, then its
attributes, then what its children hold.  Document order, which is found from the ways that lead down to two
nodes, is the order of these numbers.

New infrastructure:

* `Spreads.mem_iff` — a list that follows links down holds exactly what the links reach;
* `preorder_eq` — the list of a node is put together from the lists of what it lists;
* `InOrder.order_eq` — in a list that is in order, nodes are compared by their places.

**Main result** (`order_compares_positions`): within a proper tree document order is total and strict, and it
is the order of places; between different trees there is none.
-/
import TreeQuery.Proofs.DocumentOrder

namespace TreeQuery

namespace Forest

variable {f : Forest} {a b n m r : Nat} {ns : List Nat}

/-! ### Membership -/

/-- A list that follows links to earlier nodes holds exactly the nodes that the links reach. -/
theorem Spreads.mem_iff {g : Nat → List Nat} {t : Nat → Nat → List Nat} (h : Spreads g t)
    (earlier : ∀ n, ∀ c ∈ g n, c < n) {fuel : Nat} (hn : n < fuel) :
    m ∈ t fuel n ↔ Relation.ReflTransGen (fun p c => c ∈ g p) n m := by
  induction fuel generalizing n with
  | zero => omega
  | succ fuel ih =>
    rw [h.succ, List.mem_cons, List.mem_flatMap]
    constructor
    · rintro (rfl | ⟨c, hc, hm⟩)
      · exact .refl
      · have hlt := earlier n c hc
        exact .head hc ((ih (by omega)).mp hm)
    · intro hm
      obtain rfl | ⟨c, hc, hm⟩ := hm.cases_head
      · exact .inl rfl
      · have hlt := earlier n c hc
        exact .inr ⟨c, hc, (ih (by omega)).mpr hm⟩

theorem mem_preorder_iff_reaches :
    m ∈ f.preorder n ↔ Relation.ReflTransGen (fun p c => c ∈ f.listed p) n m :=
  (spreads_listing f).mem_iff (fun _ _ => listed_lt) (Nat.lt_succ_self n)

/-- A node comes first, then what its attributes and then what its children hold. -/
theorem preorder_eq (f : Forest) (n : Nat) :
    f.preorder n = n :: ((f.attributes n).flatMap f.preorder ++ (f.children n).flatMap f.preorder) := by
  have shorter : ∀ c ∈ f.listed n, f.listing n c = f.preorder c := by
    intro c hc
    exact (spreads_listing f).depth_eq (fun _ _ => listed_lt) (listed_lt hc) (Nat.lt_succ_self c)
  rw [preorder, (spreads_listing f).succ, List.flatMap_def, List.map_congr_left shorter, ← List.flatMap_def,
    ← List.flatMap_append]
  rfl

theorem reaches_of_root (f : Forest) (n : Nat) :
    Relation.ReflTransGen (fun p c => c ∈ f.listed p) (f.root n) n := by
  induction n using induct_parent f with
  | root n h => rw [(root_of_root h).1]
  | step n p h ih =>
    rw [(root_of_parent h).1]
    exact ih.tail (parent?_eq_some_iff.mp h).1

/-! ### Proper trees -/

instance (f : Forest) (n : Nat) : Decidable (f.Owns n) :=
  decidable_of_iff ((f.listed n).Nodup ∧ ∀ c ∈ f.listed n, f.parent? c = some n)
    ⟨fun h => ⟨h.1, h.2 _⟩, fun h => ⟨h.nodup, fun _ => h.parent⟩⟩

/-- Whether a node has no parent and all below it are listed once, by their parents. -/
structure ProperTree (f : Forest) (r : Nat) : Prop where
  root : f.parent? r = none
  owns : ∀ n ∈ f.preorder r, f.Owns n

instance (f : Forest) (r : Nat) : Decidable (f.ProperTree r) :=
  decidable_of_iff (f.parent? r = none ∧ ∀ n ∈ f.preorder r, f.Owns n)
    ⟨fun h => ⟨h.1, h.2⟩, fun h => ⟨h.root, h.owns⟩⟩

/-- A proper tree is listed in document order, and its root is above all of it. -/
theorem ProperTree.inOrder (h : f.ProperTree r) :
    f.InOrder (f.preorder r) ∧ ∀ m ∈ f.preorder r, f.Above r m :=
  (spreads_listing f).inOrder (fun _ => List.Sublist.refl _)
    (fun m hm => h.owns m (mem_preorder_iff_reaches.mpr hm)) (r + 1)

/-- The nodes of a proper tree are those from which one climbs to its root. -/
theorem ProperTree.mem_iff_root (h : f.ProperTree r) : n ∈ f.preorder r ↔ f.root n = r := by
  constructor
  · intro hn
    have habove := h.inOrder.2 n hn
    rw [← habove.1, (root_of_root h.root).1]
  · rintro rfl
    exact mem_preorder_iff_reaches.mpr (f.reaches_of_root n)

/-! ### Places in a list that is in order -/

theorem InOrder.nodup (h : f.InOrder ns) : ns.Nodup := h.imp Before.ne

theorem InOrder.before_of_idxOf_lt (h : f.InOrder ns) (ha : a ∈ ns) (hb : b ∈ ns)
    (hlt : ns.idxOf a < ns.idxOf b) : f.Before a b := by
  have places := List.pairwise_iff_getElem.mp h _ _ (List.idxOf_lt_length_of_mem ha)
    (List.idxOf_lt_length_of_mem hb) hlt
  rwa [List.getElem_idxOf, List.getElem_idxOf] at places

/-- In a list that is in order, nodes are compared by their places. -/
theorem InOrder.order_eq (h : f.InOrder ns) (ha : a ∈ ns) (hb : b ∈ ns) :
    f.order a b = .ok (compare (ns.idxOf a) (ns.idxOf b)) := by
  obtain hlt | heq | hgt := Nat.lt_trichotomy (ns.idxOf a) (ns.idxOf b)
  · rw [(h.before_of_idxOf_lt ha hb hlt).order_eq_lt, Nat.compare_eq_lt.mpr hlt]
  · obtain rfl := idxOf_inj ha hb heq
    rw [order, if_pos rfl, Nat.compare_eq_eq.mpr rfl]
  · rw [(h.before_of_idxOf_lt hb ha hgt).order_eq_gt, Nat.compare_eq_gt.mpr hgt]

/-- **Document order in a proper tree** is the strict and total order of the places in its list: a node, then
its attributes, then what its children hold.  Nodes of different trees are not compared. -/
theorem order_compares_positions (tree : f.ProperTree r) :
    (∀ n, f.preorder n =
      n :: ((f.attributes n).flatMap f.preorder ++ (f.children n).flatMap f.preorder)) ∧
    (∀ n, n ∈ f.preorder r ↔ f.root n = r) ∧ (f.preorder r).Nodup ∧
    (∀ a ∈ f.preorder r, ∀ b ∈ f.preorder r,
      f.order a b = .ok (compare ((f.preorder r).idxOf a) ((f.preorder r).idxOf b)) ∧
      (f.order a b = .ok .eq ↔ a = b) ∧
      (f.order a b = .ok .lt ↔ f.order b a = .ok .gt) ∧
      ∀ c ∈ f.preorder r, f.order a b = .ok .lt → f.order b c = .ok .lt → f.order a c = .ok .lt) ∧
    ∀ a b, f.root a ≠ f.root b →
      ∃ e, f.order a b = .error e ∧ e.code = ErrorCode.FOER0000.name := by
  have inOrder := tree.inOrder.1
  refine ⟨f.preorder_eq, fun n => tree.mem_iff_root, inOrder.nodup, ?_, ?_⟩
  · intro a ha b hb
    have hab := inOrder.order_eq ha hb
    have hba := inOrder.order_eq hb ha
    refine ⟨hab, ?_, ?_, ?_⟩
    · constructor
      · intro heq
        rw [hab, Except.ok.injEq, Nat.compare_eq_eq] at heq
        exact idxOf_inj ha hb heq
      · rintro rfl
        rw [order, if_pos rfl]
    · rw [hab, hba, Except.ok.injEq, Except.ok.injEq, Nat.compare_eq_lt, Nat.compare_eq_gt]
    · intro c _ hlt hlt'
      exact ((order_eq_lt_iff.mp hlt).trans (order_eq_lt_iff.mp hlt')).order_eq_lt
  · intro a b hne
    exact ⟨_, order_eq_error hne, rfl⟩

/-- A tree with attributes on two levels and leaves of unequal depth, and a node outside of it. -/
def unevenTree : Forest :=
  ((((((Forest.empty.add (named .attribute "x" [] [])).add ⟨.text, none, some "t", [], []⟩).add
    (named .element "b" [0] [1])).add (named .attribute "y" [] [])).add (named .element "c" [] [])).add
    (named .element "a" [3] [2, 4])).add (named .element "d" [] [])
where
  /-- A node with a name, with the attributes and children that it lists. -/
  named (kind : NodeKind) (name : String) (attributes children : List Nat) : NodeData :=
    ⟨kind, some ⟨none, .plain name⟩, none, attributes, children⟩

/-- The attribute of the inner element comes before its text and after the attribute of the root. -/
theorem order_compares_positions_unevenTree :
    unevenTree.ProperTree 5 ∧ unevenTree.preorder 5 = [5, 3, 2, 0, 1, 4] ∧
      unevenTree.order 0 1 = .ok .lt ∧ unevenTree.order 0 3 = .ok .gt ∧ unevenTree.order 4 1 = .ok .gt ∧
      ∃ e, unevenTree.order 4 6 = .error e ∧ e.code = ErrorCode.FOER0000.name := by
  have tree : unevenTree.ProperTree 5 := by decide
  obtain ⟨-, -, -, within, apart⟩ := order_compares_positions tree
  refine ⟨tree, by decide, ?_, ?_, ?_, apart 4 6 (by decide)⟩
  · exact (within 0 (by decide) 1 (by decide)).1
  · exact (within 0 (by decide) 3 (by decide)).1
  · exact (within 4 (by decide) 1 (by decide)).1

end Forest

end TreeQuery
