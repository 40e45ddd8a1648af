/-
Document order in proper forests.

A forest is proper if every node is listed at most once (`Forest.Proper`).  There the way from the root down
to a node can be read off as a list of numbers, the places where the way parts (`Forest.address`), and
document order is the lexicographic order of addresses:

* `Forest.order_eq` — comparing two nodes of one tree compares their addresses;
* `Spreads.inOrder` — a tree is in order wherever its nodes are listed by their parents only;
* `Axis.inOrder_nodes` — the nodes on every axis come in document order;
* `Forest.inOrder_flatMap` — steps from nodes in document order, none above another, keep to document order;
* `Forest.sortNodes_of_inOrder` — sorting changes nothing that is in order already;
* `Forest.inOrder_sortNodes` — what is sorted is in order.
-/
import Mathlib.Logic.Relation
import TreeQuery.Expr.Behaviour
import TreeQuery.Proofs.Sorting
import TreeQuery.Proofs.Trace

namespace TreeQuery

namespace Forest

variable {f : Forest} {a b c m n p : Nat}

/-- Whether every node is listed at most once. -/
structure Proper (f : Forest) : Prop where
  nodup : ∀ n, (f.listed n).Nodup
  parent : ∀ {n c}, c ∈ f.listed n → f.parent? c = some n

/-- It is enough to look at the nodes that are there. -/
theorem proper_iff : f.Proper ↔
    ∀ n < f.size, (f.listed n).Nodup ∧ ∀ c ∈ f.listed n, f.parent? c = some n := by
  refine ⟨fun h n _ => ⟨h.nodup n, fun c hc => h.parent hc⟩, fun h => ⟨fun n => ?_, fun hc => ?_⟩⟩
  · by_cases hn : n < f.size
    · exact (h n hn).1
    · have hnil : f.listed n = [] :=
        List.eq_nil_iff_forall_not_mem.mpr fun c hc => hn (lt_size_of_mem_listed hc)
      rw [hnil]
      exact List.nodup_nil
  · exact (h _ (lt_size_of_mem_listed hc)).2 _ hc

instance (f : Forest) : Decidable f.Proper := decidable_of_iff' _ proper_iff

theorem lt_of_parent? (h : f.parent? n = some p) : n < p ∧ p < f.size := by
  have hmem := (parent?_eq_some_iff.mp h).1
  exact ⟨listed_lt hmem, lt_size_of_mem_listed hmem⟩

/-! ### Ways from the root -/

/-- A climb that has enough fuel comes to the root. -/
theorem climb_eq {fuel fuel' : Nat} (h : f.size ≤ fuel + n) (h' : f.size ≤ fuel' + n) :
    f.climb fuel n = f.climb fuel' n := by
  induction fuel generalizing fuel' n with
  | zero =>
    cases fuel' with
    | zero => rfl
    | succ fuel' =>
      rw [climb, climb]
      cases hp : f.parent? n with
      | none => rfl
      | some p =>
        have := lt_of_parent? hp
        omega
  | succ fuel ih =>
    cases fuel' with
    | zero =>
      rw [climb, climb]
      cases hp : f.parent? n with
      | none => rfl
      | some p =>
        have := lt_of_parent? hp
        omega
    | succ fuel' =>
      rw [climb, climb]
      cases hp : f.parent? n with
      | none => rfl
      | some p =>
        have := lt_of_parent? hp
        simp only [@ih p fuel' (by omega) (by omega)]

theorem ancestors_of_root (h : f.parent? n = none) : f.ancestors n = [] := by
  rw [ancestors]
  cases hsize : f.size with
  | zero => rfl
  | succ size => rw [climb, h]

theorem ancestors_of_parent (h : f.parent? n = some p) : f.ancestors n = p :: f.ancestors p := by
  have hlt := lt_of_parent? h
  rw [ancestors, ancestors]
  obtain ⟨size, hsize⟩ : ∃ size, f.size = size + 1 := ⟨f.size - 1, by omega⟩
  rw [hsize, climb, h]
  exact congrArg (p :: ·) (climb_eq (by omega) (by omega))

theorem path_of_root (h : f.parent? n = none) : f.path n = [n] := by
  rw [path, ancestors_of_root h, List.reverse_singleton]

theorem path_of_parent (h : f.parent? n = some p) : f.path n = f.path p ++ [n] := by
  rw [path, ancestors_of_parent h, path, List.reverse_cons]

/-- What holds of a node if it holds of its parent holds of all nodes. -/
theorem induct_parent (f : Forest) {P : Nat → Prop} (root : ∀ n, f.parent? n = none → P n)
    (step : ∀ n p, f.parent? n = some p → P p → P n) (n : Nat) : P n := by
  cases h : f.parent? n with
  | none => exact root n h
  | some p =>
    have := lt_of_parent? h
    exact step n p h (induct_parent f root step p)
termination_by f.size - n

/-- The first node of the way from the root down to a node. -/
def root (f : Forest) (n : Nat) : Nat := (f.path n).headD n

/-- The way from the root down to a node, without the root. -/
def way (f : Forest) (n : Nat) : List Nat := (f.path n).tail

theorem path_eq_cons (f : Forest) (n : Nat) : f.path n = f.root n :: f.way n := by
  unfold root way
  cases hpath : f.path n with
  | nil => simp [path] at hpath
  | cons x xs => rfl

theorem root_of_root (h : f.parent? n = none) : f.root n = n ∧ f.way n = [] := by
  simp [root, way, path_of_root h]

theorem root_of_parent (h : f.parent? n = some p) :
    f.root n = f.root p ∧ f.way n = f.way p ++ [n] := by
  rw [root, way, path_of_parent h, path_eq_cons f p]
  exact ⟨rfl, rfl⟩

/-- Whether every node of a way is listed by the one before it. -/
def Leads (f : Forest) : Nat → List Nat → Prop
  | _, [] => True
  | p, x :: xs => x ∈ f.listed p ∧ Leads f x xs

/-- The last node of a way. -/
def target : Nat → List Nat → Nat
  | p, [] => p
  | _, x :: xs => target x xs

theorem target_append (p : Nat) (xs : List Nat) (n : Nat) : target p (xs ++ [n]) = n := by
  induction xs generalizing p with
  | nil => rfl
  | cons x xs ih => exact ih x

theorem leads_append {xs : List Nat} (h : f.Leads p xs) (hn : n ∈ f.listed (target p xs)) :
    f.Leads p (xs ++ [n]) := by
  induction xs generalizing p with
  | nil => exact ⟨hn, trivial⟩
  | cons x xs ih => exact ⟨h.1, ih h.2 hn⟩

theorem leads_way (f : Forest) (n : Nat) : f.Leads (f.root n) (f.way n) ∧
    target (f.root n) (f.way n) = n := by
  induction n using induct_parent f with
  | root n h =>
    obtain ⟨hroot, hway⟩ := root_of_root h
    rw [hroot, hway]
    exact ⟨trivial, rfl⟩
  | step n p h ih =>
    obtain ⟨hroot, hway⟩ := root_of_parent h
    rw [hroot, hway]
    refine ⟨leads_append ih.1 ?_, target_append ..⟩
    rw [ih.2]
    exact (parent?_eq_some_iff.mp h).1

/-! ### Addresses -/

/-- The places at which the nodes of a way are listed. -/
def branches (f : Forest) : Nat → List Nat → List Nat
  | _, [] => []
  | p, x :: xs => (f.listed p).idxOf x :: branches f x xs

/-- Where a node stands in its tree. -/
def address (f : Forest) (n : Nat) : List Nat := f.branches (f.root n) (f.way n)

theorem branches_append (p : Nat) (xs : List Nat) (n : Nat) :
    f.branches p (xs ++ [n]) = f.branches p xs ++ [(f.listed (target p xs)).idxOf n] := by
  induction xs generalizing p with
  | nil => rfl
  | cons x xs ih => exact congrArg (_ :: ·) (ih x)

theorem address_of_parent (h : f.parent? n = some p) :
    f.address n = f.address p ++ [(f.listed p).idxOf n] := by
  obtain ⟨hroot, hway⟩ := root_of_parent h
  rw [address, hroot, hway, branches_append, (leads_way f p).2, address]

theorem idxOf_inj {xs : List Nat} {x y : Nat} (hx : x ∈ xs) (hy : y ∈ xs)
    (h : xs.idxOf x = xs.idxOf y) : x = y := by
  have hx' := List.getElem_idxOf (List.idxOf_lt_length_of_mem hx)
  have hy' := List.getElem_idxOf (List.idxOf_lt_length_of_mem hy)
  rw [← hx', ← hy']
  simp only [h]

theorem branches_inj {xs ys : List Nat} (hx : f.Leads p xs) (hy : f.Leads p ys)
    (h : f.branches p xs = f.branches p ys) : xs = ys := by
  induction xs generalizing p ys with
  | nil =>
    cases ys with
    | nil => rfl
    | cons y ys => exact absurd h (by simp [branches])
  | cons x xs ih =>
    cases ys with
    | nil => exact absurd h (by simp [branches])
    | cons y ys =>
      obtain ⟨hhead, htail⟩ := List.cons.inj h
      obtain rfl := idxOf_inj hx.1 hy.1 hhead
      rw [ih hx.2 hy.2 htail]

/-- Two nodes of one tree with the same address are the same. -/
theorem eq_of_address (hroot : f.root a = f.root b) (h : f.address a = f.address b) : a = b := by
  have ha := leads_way f a
  have hb := leads_way f b
  rw [address, address, hroot] at h
  rw [hroot] at ha
  exact ha.2.symm.trans ((congrArg (target _) (branches_inj ha.1 hb.1 h)).trans hb.2)

/-! ### Order -/

/-- The lexicographic order of two addresses. -/
def compareAddresses (xs ys : List Nat) : Ordering :=
  if xs < ys then .lt else if ys < xs then .gt else .eq

theorem siblingOrder_eq (ha : a ∈ f.listed p) (hb : b ∈ f.listed p) :
    f.siblingOrder p a b = compare ((f.listed p).idxOf a) ((f.listed p).idxOf b) := by
  have index {x : Nat} (hx : x ∈ f.listed p) :
      (f.listed p).idxOf? x = some ((f.listed p).idxOf x) :=
    List.findIdx?_eq_some_of_exists ⟨x, hx, beq_self_eq_true x⟩
  rw [siblingOrder, index ha, index hb]

theorem comparePaths_eq {xs ys : List Nat} (hx : f.Leads p xs) (hy : f.Leads p ys) :
    f.comparePaths (some p) xs ys =
      .ok (compareAddresses (f.branches p xs) (f.branches p ys)) := by
  induction xs generalizing p ys with
  | nil =>
    cases ys with
    | nil => rfl
    | cons y ys => rfl
  | cons x xs ih =>
    cases ys with
    | nil => rfl
    | cons y ys =>
      rw [comparePaths, branches, branches]
      by_cases hxy : x = y
      · subst hxy
        rw [if_pos rfl, ih hx.2 hy.2]
        simp [compareAddresses]
      · rw [if_neg hxy, siblingOrder_eq hx.1 hy.1]
        have hne : (f.listed p).idxOf x ≠ (f.listed p).idxOf y :=
          fun h => hxy (idxOf_inj hx.1 hy.1 h)
        simp only [compareAddresses, List.cons_lt_cons_iff, Nat.compare_eq_ite_lt]
        split
        · simp [*]
        · rename_i hlt
          have : (f.listed p).idxOf y < (f.listed p).idxOf x := by omega
          simp [this, hlt, hne]

/-- Nodes of one tree are compared by their addresses. -/
theorem order_eq (h : f.root a = f.root b) :
    f.order a b = .ok (compareAddresses (f.address a) (f.address b)) := by
  unfold order
  split
  case isTrue heq =>
    subst heq
    rw [compareAddresses, if_neg (List.lt_irrefl _), if_neg (List.lt_irrefl _)]
  case isFalse =>
    rw [path_eq_cons f a, path_eq_cons f b, comparePaths, if_pos h, address, address, h]
    exact comparePaths_eq (h ▸ (leads_way f a).1) (leads_way f b).1

/-- Nodes of different trees are not compared. -/
theorem order_eq_error (h : f.root a ≠ f.root b) : f.order a b = .error (.of .unrelatedNodes) := by
  have hne : a ≠ b := fun heq => h (congrArg f.root heq)
  rw [order, if_neg hne, path_eq_cons f a, path_eq_cons f b, comparePaths, if_neg h]

theorem order_of_root_ne (h : f.root a ≠ f.root b) : ∃ e, f.order a b = .error e := ⟨_, order_eq_error h⟩

/-- Whether a node stands before another in document order. -/
def Before (f : Forest) (a b : Nat) : Prop := f.root a = f.root b ∧ f.address a < f.address b

/-- Whether a node is another one or an ancestor of it. -/
def Above (f : Forest) (a b : Nat) : Prop := f.root a = f.root b ∧ f.address a <+: f.address b

theorem Before.trans (h : f.Before a b) (h' : f.Before b c) : f.Before a c :=
  ⟨h.1.trans h'.1, List.lt_trans h.2 h'.2⟩

theorem Before.ne (h : f.Before a b) : a ≠ b := by
  rintro rfl
  exact List.lt_irrefl _ h.2

theorem Before.order_eq_lt (h : f.Before a b) : f.order a b = .ok .lt := by
  rw [order_eq h.1, compareAddresses, if_pos h.2]

theorem Before.order_eq_gt (h : f.Before a b) : f.order b a = .ok .gt := by
  rw [order_eq h.1.symm, compareAddresses, if_neg (List.lt_asymm h.2), if_pos h.2]

theorem order_eq_lt_iff : f.order a b = .ok .lt ↔ f.Before a b := by
  refine ⟨fun h => ?_, Before.order_eq_lt⟩
  have hroot : f.root a = f.root b := by
    refine Decidable.byContradiction fun hne => ?_
    obtain ⟨e, he⟩ := order_of_root_ne hne
    rw [he] at h
    simp at h
  refine ⟨hroot, ?_⟩
  rw [order_eq hroot, compareAddresses] at h
  split at h
  · assumption
  · split at h <;> simp at h

theorem Above.refl (f : Forest) (a : Nat) : f.Above a a := ⟨rfl, List.prefix_refl _⟩

theorem Above.trans (h : f.Above a b) (h' : f.Above b c) : f.Above a c :=
  ⟨h.1.trans h'.1, h.2.trans h'.2⟩

theorem above_of_parent (h : f.parent? n = some p) : f.Above p n :=
  ⟨(root_of_parent h).1.symm, address_of_parent h ▸ List.prefix_append _ _⟩

/-- A node that is above another and is not it stands before it. -/
theorem Above.before (h : f.Above a b) (hne : a ≠ b) : f.Before a b := by
  refine ⟨h.1, ?_⟩
  obtain ⟨rest, hrest⟩ := h.2
  rw [← hrest]
  cases rest with
  | nil => exact absurd (eq_of_address h.1 (by simpa using hrest)) hne
  | cons x xs =>
    have : f.address a ++ [] < f.address a ++ x :: xs := List.append_left_lt (List.nil_lt_cons x xs)
    rwa [List.append_nil] at this

theorem Before.not_above (h : f.Before a b) : ¬ f.Above b a := by
  intro h'
  have hne : b ≠ a := h.ne.symm
  exact (h.trans (h'.before hne)).ne rfl

/-- Where one node stands before another and is not above it, so does all that is below the one before all
that is below the other. -/
theorem Before.of_above (h : f.Before a b) (hapart : ¬ f.Above a b) {a' b' : Nat}
    (ha : f.Above a a') (hb : f.Above b b') : f.Before a' b' := by
  refine ⟨ha.1.symm.trans (h.1.trans hb.1), ?_⟩
  have hstart : ¬ f.address a <+: f.address b := fun hp => hapart ⟨h.1, hp⟩
  have lt {xs ys : List Nat} (hlt : List.Lex (· < ·) xs ys) (hstart : ¬ xs <+: ys) (us vs : List Nat) :
      xs ++ us < ys ++ vs := by
    induction hlt with
    | nil => exact absurd List.nil_prefix hstart
    | rel hrel => exact List.Lex.rel hrel
    | cons _ ih =>
      refine List.Lex.cons (ih fun hp => hstart ?_)
      exact List.cons_prefix_cons.mpr ⟨rfl, hp⟩
  obtain ⟨us, hus⟩ := ha.2
  obtain ⟨vs, hvs⟩ := hb.2
  rw [← hus, ← hvs]
  exact lt h.2 hstart us vs

/-- Nodes below two nodes of which none is above the other are not above each other. -/
theorem Before.apart_of_above (h : f.Before a b) (hapart : ¬ f.Above a b) {a' b' : Nat}
    (ha : f.Above a a') (hb : f.Above b b') : ¬ f.Above a' b' := by
  intro h'
  rcases List.prefix_or_prefix_of_prefix (ha.2.trans h'.2) hb.2 with hp | hp
  · exact hapart ⟨h.1, hp⟩
  · exact h.not_above ⟨h.1.symm, hp⟩

/-! ### Nodes in order -/

/-- Whether nodes come in document order, each once. -/
def InOrder (f : Forest) (ns : List Nat) : Prop := ns.Pairwise f.Before

/-- Whether no node is an ancestor of a later one. -/
def Apart (f : Forest) (ns : List Nat) : Prop := ns.Pairwise fun a b => ¬ f.Above a b

section Steps

variable {ns ms : List Nat} {g : Nat → List Nat}

theorem InOrder.sublist (h : f.InOrder ns) (hs : ms.Sublist ns) : f.InOrder ms :=
  List.Pairwise.sublist hs h

theorem Apart.sublist (h : f.Apart ns) (hs : ms.Sublist ns) : f.Apart ms := List.Pairwise.sublist hs h

theorem inOrder_singleton (f : Forest) (n : Nat) : f.InOrder [n] := List.pairwise_singleton _ _

theorem apart_singleton (f : Forest) (n : Nat) : f.Apart [n] := List.pairwise_singleton _ _

/-- Steps from nodes in order, none above another, to what is below them, lead to nodes in order. -/
theorem inOrder_flatMap (h : f.InOrder ns) (hapart : f.Apart ns) (hg : ∀ n ∈ ns, f.InOrder (g n))
    (hbelow : ∀ n ∈ ns, ∀ m ∈ g n, f.Above n m) : f.InOrder (ns.flatMap g) := by
  refine List.pairwise_flatMap.mpr ⟨hg, List.Pairwise.imp_of_mem ?_ (h.and hapart)⟩
  intro a b ha hb hab x hx y hy
  exact hab.1.of_above hab.2 (hbelow a ha x hx) (hbelow b hb y hy)

theorem apart_flatMap (h : f.InOrder ns) (hapart : f.Apart ns) (hg : ∀ n ∈ ns, f.Apart (g n))
    (hbelow : ∀ n ∈ ns, ∀ m ∈ g n, f.Above n m) : f.Apart (ns.flatMap g) := by
  refine List.pairwise_flatMap.mpr ⟨hg, List.Pairwise.imp_of_mem ?_ (h.and hapart)⟩
  intro a b ha hb hab x hx y hy
  exact hab.1.apart_of_above hab.2 (hbelow a ha x hx) (hbelow b hb y hy)

end Steps

/-- Whether a node is the parent of all that it lists, and lists nothing twice. -/
structure Owns (f : Forest) (n : Nat) : Prop where
  nodup : (f.listed n).Nodup
  parent : ∀ {c}, c ∈ f.listed n → f.parent? c = some n

theorem Proper.owns (hf : f.Proper) (n : Nat) : f.Owns n := ⟨hf.nodup n, hf.parent⟩

theorem Owns.before (h : f.Owns n) (hc : c ∈ f.listed n) : f.Before n c := by
  refine (above_of_parent (h.parent hc)).before fun heq => ?_
  have := listed_lt hc
  omega

/-- What a node lists is in order, and none of it is above another. -/
theorem Owns.inOrder (h : f.Owns n) : f.InOrder (f.listed n) ∧ f.Apart (f.listed n) := by
  have address {i : Nat} (hi : i < (f.listed n).length) :
      f.root (f.listed n)[i] = f.root n ∧ f.address (f.listed n)[i] = f.address n ++ [i] := by
    have hparent := h.parent (List.getElem_mem hi)
    rw [address_of_parent hparent, h.nodup.idxOf_getElem]
    exact ⟨(root_of_parent hparent).1, rfl⟩
  refine ⟨List.pairwise_iff_getElem.mpr ?_, List.pairwise_iff_getElem.mpr ?_⟩
  · intro i j hi hj hij
    refine ⟨(address hi).1.trans (address hj).1.symm, ?_⟩
    rw [(address hi).2, (address hj).2]
    exact List.append_left_lt (List.Lex.rel hij)
  · intro i j hi hj hij habove
    have hp := habove.2
    rw [(address hi).2, (address hj).2, List.prefix_append_right_inj] at hp
    simp only [List.cons_prefix_cons] at hp
    omega

theorem above_listed (hf : f.Proper) (h : c ∈ f.listed n) : f.Above n c := above_of_parent (hf.parent h)

theorem inOrder_listed (hf : f.Proper) (n : Nat) :
    f.InOrder (f.listed n) ∧ f.Apart (f.listed n) := (hf.owns n).inOrder

theorem children_sublist (f : Forest) (n : Nat) : (f.children n).Sublist (f.listed n) :=
  List.sublist_append_right _ _

theorem attributes_sublist (f : Forest) (n : Nat) : (f.attributes n).Sublist (f.listed n) :=
  List.sublist_append_left _ _

/-- Whether a node is another one or is reached from it from child to child. -/
inductive Inside (f : Forest) : Nat → Nat → Prop where
  | refl (n : Nat) : Inside f n n
  | child {n c m : Nat} (listed : c ∈ f.children n) (inside : Inside f c m) : Inside f n m

theorem inside_iff_reaches : f.Inside n m ↔ Relation.ReflTransGen (fun p c => c ∈ f.children p) n m := by
  constructor
  · intro h
    induction h with
    | refl n => exact .refl
    | child listed _ ih => exact .head listed ih
  · intro h
    induction h using Relation.ReflTransGen.head_induction_on with
    | refl => exact .refl m
    | head listed _ inside => exact .child listed inside

/-- A tree is in order wherever its nodes are the parents of what they list. -/
theorem Spreads.inOrder {g : Nat → List Nat} {t : Nat → Nat → List Nat} (h : Spreads g t)
    (hg : ∀ m, (g m).Sublist (f.listed m))
    (howns : ∀ m, Relation.ReflTransGen (fun p c => c ∈ g p) n m → f.Owns m) (fuel : Nat) :
    f.InOrder (t fuel n) ∧ ∀ m ∈ t fuel n, f.Above n m := by
  induction fuel generalizing n with
  | zero =>
    rw [h.zero]
    exact ⟨List.Pairwise.nil, fun m hm => absurd hm List.not_mem_nil⟩
  | succ fuel ih =>
    have owns := howns n .refl
    have tree {c : Nat} (hc : c ∈ g n) := ih fun m hm => howns m (.head hc hm)
    have below : ∀ m ∈ (g n).flatMap (t fuel), f.Before n m ∧ f.Above n m := by
      intro m hm
      obtain ⟨c, hc, hm⟩ := List.mem_flatMap.mp hm
      have hcm := (tree hc).2 m hm
      have hc := (hg n).subset hc
      refine ⟨?_, (above_of_parent (owns.parent hc)).trans hcm⟩
      by_cases heq : c = m
      · exact heq ▸ owns.before hc
      · exact (owns.before hc).trans (hcm.before heq)
    rw [h.succ]
    refine ⟨List.pairwise_cons.mpr ⟨fun m hm => (below m hm).1, ?_⟩, fun m hm => ?_⟩
    · exact inOrder_flatMap (owns.inOrder.1.sublist (hg n)) (owns.inOrder.2.sublist (hg n))
        (fun c hc => (tree hc).1) fun c hc m hm => (tree hc).2 m hm
    · rcases List.mem_cons.mp hm with rfl | hm
      · exact .refl f m
      · exact (below m hm).2

theorem inOrder_subtree_of_owns (h : ∀ m, f.Inside n m → f.Owns m) (fuel : Nat) :
    f.InOrder (f.subtree fuel n) ∧ ∀ m ∈ f.subtree fuel n, f.Above n m :=
  (spreads_subtree f).inOrder (children_sublist f) (fun m hm => h m (inside_iff_reaches.mpr hm)) fuel

theorem inOrder_subtree (hf : f.Proper) (fuel n : Nat) :
    f.InOrder (f.subtree fuel n) ∧ ∀ m ∈ f.subtree fuel n, f.Above n m :=
  inOrder_subtree_of_owns (fun m _ => hf.owns m) fuel

theorem inOrder_path (f : Forest) (n : Nat) :
    f.InOrder (f.path n) ∧ ∀ m ∈ f.path n, f.Above m n := by
  induction n using induct_parent f with
  | root n h =>
    rw [path_of_root h]
    refine ⟨inOrder_singleton f n, fun m hm => ?_⟩
    obtain rfl := List.mem_singleton.mp hm
    exact .refl f m
  | step n p h ih =>
    rw [path_of_parent h]
    have hp := above_of_parent h
    have hbefore : f.Before p n := hp.before fun heq => by
      have := lt_of_parent? h
      omega
    refine ⟨List.pairwise_append.mpr ⟨ih.1, inOrder_singleton f n, fun m hm x hx => ?_⟩,
      fun m hm => ?_⟩
    · obtain rfl := List.mem_singleton.mp hx
      by_cases heq : m = p
      · exact heq ▸ hbefore
      · exact ((ih.2 m hm).before heq).trans hbefore
    · rcases List.mem_append.mp hm with hm | hm
      · exact (ih.2 m hm).trans hp
      · obtain rfl := List.mem_singleton.mp hm
        exact .refl f m

end Forest

/-! ### Axes -/

namespace Axis

variable {f : Forest} {n : Nat}

/-- The nodes on an axis come in document order wherever those below the start are listed by their parents. -/
theorem inOrder_nodes_of_owns (h : ∀ m, f.Inside n m → f.Owns m) (axis : Axis) :
    f.InOrder (axis.nodes f n) := by
  have listed := (h n (.refl n)).inOrder.1
  have subtree := (Forest.inOrder_subtree_of_owns h (n + 1)).1
  cases axis with
  | child => exact listed.sublist (f.children_sublist n)
  | «attribute» => exact listed.sublist (f.attributes_sublist n)
  | self => exact Forest.inOrder_singleton f n
  | parent =>
    simp only [nodes]
    cases f.parent? n with
    | none => exact List.Pairwise.nil
    | some p => exact Forest.inOrder_singleton f p
  | descendant => exact subtree.sublist (List.sublist_cons_self _ _)
  | descendantOrSelf => exact subtree
  | ancestor =>
    have hpath := (Forest.inOrder_path f n).1
    rw [Forest.path, List.reverse_cons] at hpath
    exact hpath.sublist (List.sublist_append_left _ _)

theorem inOrder_nodes (hf : f.Proper) (axis : Axis) (n : Nat) : f.InOrder (axis.nodes f n) :=
  inOrder_nodes_of_owns (fun m _ => hf.owns m) axis

/-- The axes that lead down. -/
theorem above_nodes (hf : f.Proper) {axis : Axis} (h : Properties.keepsOrder axis = true) {m : Nat}
    (hm : m ∈ axis.nodes f n) : f.Above n m := by
  have subtree := (Forest.inOrder_subtree hf (n + 1) n).2
  cases axis with
  | child => exact Forest.above_listed hf ((f.children_sublist n).subset hm)
  | «attribute» => exact Forest.above_listed hf ((f.attributes_sublist n).subset hm)
  | self =>
    obtain rfl := List.mem_singleton.mp hm
    exact .refl f m
  | descendant => exact subtree m (List.mem_cons_of_mem n hm)
  | descendantOrSelf => exact subtree m hm
  | parent | ancestor => exact absurd h Bool.false_ne_true

/-- The axes that lead to one node or to nodes listed by one node. -/
theorem apart_nodes (hf : f.Proper) {axis : Axis} (n : Nat)
    (h : axis = .child ∨ axis = .attribute ∨ axis = .self ∨ axis = .parent) :
    f.Apart (axis.nodes f n) := by
  have listed := (Forest.inOrder_listed hf n).2
  rcases h with rfl | rfl | rfl | rfl
  · exact listed.sublist (f.children_sublist n)
  · exact listed.sublist (f.attributes_sublist n)
  · exact Forest.apart_singleton f n
  · simp only [nodes]
    cases f.parent? n with
    | none => exact List.Pairwise.nil
    | some p => exact Forest.apart_singleton f p

end Axis

/-! ### Sorting -/

namespace Forest

variable {f : Forest} {a b c n : Nat} {ns ms : List Nat}

theorem answers_compareKeeping (f : Forest) (a b : Nat) (s : Option Error) :
    ((f.compareKeeping a b).run s).1 = .gt ↔ f.mayPrecede a b = false := by
  rw [compareKeeping, mayPrecede]
  cases f.order a b with
  | error e =>
    change Ordering.eq = .gt ↔ _
    simp
  | ok o =>
    change o = .gt ↔ _
    cases o <;> simp

/-- Comparing nodes of one tree keeps what was kept before, and comparing others is a failure. -/
theorem kept_compareKeeping (f : Forest) (a b : Nat) (s : Option Error) :
    ((f.compareKeeping a b).run s).2 =
      if f.root a = f.root b then s else s.or (some (.of .unrelatedNodes)) := by
  by_cases h : f.root a = f.root b
  · rw [compareKeeping, order_eq h, if_pos h]
    rfl
  · rw [compareKeeping, order_eq_error h, if_neg h]
    rfl

/-- The failure that a sort ends with: there is one if and only if nodes of several trees were to be sorted. -/
theorem kept_sortBy (f : Forest) (ns : List Nat) :
    ((sortBy f.compareKeeping ns).run none).2 =
      if ∀ a ∈ ns, ∀ b ∈ ns, f.root a = f.root b then none else some (.of .unrelatedNodes) := by
  split
  case isTrue related =>
    refine keeps_sortBy (P := (· = none)) f.answers_compareKeeping (fun a ha b hb s hs => ?_) rfl
    rw [kept_compareKeeping, if_pos (related a ha b hb), hs]
  case isFalse unrelated =>
    cases hkept : ((sortBy f.compareKeeping ns).run none).2 with
    | none =>
      refine absurd (agree_of_sortBy f.answers_compareKeeping f.root (· = none) (fun a b s h => ?_)
        hkept).2 unrelated
      rw [kept_compareKeeping] at h
      split at h
      · exact ⟨h, ‹_›⟩
      · cases s <;> cases h
    | some e =>
      have kinds : ∀ e ∈ ((sortBy f.compareKeeping ns).run none).2, e = .of .unrelatedNodes := by
        refine keeps_sortBy (P := fun s => ∀ e ∈ s, e = .of .unrelatedNodes) f.answers_compareKeeping
          (fun a _ b _ s hs => ?_) (by simp)
        rw [kept_compareKeeping]
        split
        · exact hs
        · cases s <;> simp_all
      rw [kinds e hkept]

theorem sortNodes_eq (f : Forest) (ns : List Nat) :
    f.sortNodes ns = if ∀ a ∈ ns, ∀ b ∈ ns, f.root a = f.root b then
      .ok (dropRepeats (ns.mergeSort f.mayPrecede)) else .error (.of .unrelatedNodes) := by
  have run : (sortBy f.compareKeeping ns).run none = (ns.mergeSort f.mayPrecede,
      if ∀ a ∈ ns, ∀ b ∈ ns, f.root a = f.root b then none else some (.of .unrelatedNodes)) :=
    Prod.ext (answers_sortBy f.answers_compareKeeping ns none) (f.kept_sortBy ns)
  rw [sortNodes, run]
  by_cases related : ∀ a ∈ ns, ∀ b ∈ ns, f.root a = f.root b
  · rw [if_pos related, if_pos related]
  · rw [if_neg related, if_neg related]

/-- Nodes can be sorted if and only if they belong to one tree. -/
theorem sortNodes_eq_ok_iff : f.sortNodes ns = .ok ms ↔
    (∀ n ∈ ns, f.root (ns.headD n) = f.root n) ∧ dropRepeats (ns.mergeSort f.mayPrecede) = ms := by
  have related : (∀ a ∈ ns, ∀ b ∈ ns, f.root a = f.root b) ↔ ∀ n ∈ ns, f.root (ns.headD n) = f.root n := by
    cases ns with
    | nil => simp
    | cons m rest =>
      refine ⟨fun h n hn => h m List.mem_cons_self n hn, fun h a ha b hb => ?_⟩
      exact (h a ha).symm.trans (h b hb)
  rw [sortNodes_eq, ← related]
  by_cases h : ∀ a ∈ ns, ∀ b ∈ ns, f.root a = f.root b
  · rw [if_pos h, Except.ok.injEq, and_iff_right h]
  · rw [if_neg h]
    exact ⟨fun hok => (by cases hok), fun hand => absurd hand.1 h⟩

theorem dropRepeats_of_ne (h : ns.Pairwise (· ≠ ·)) : dropRepeats ns = ns := by
  fun_induction dropRepeats ns with
  | case1 => rfl
  | case2 => rfl
  | case3 n rest ih => exact absurd rfl ((List.pairwise_cons.mp h).1 n List.mem_cons_self)
  | case4 m n rest hne ih => rw [ih (List.pairwise_cons.mp h).2]

/-- Sorting changes nothing that is in order already. -/
theorem sortNodes_of_inOrder (h : f.InOrder ns) : f.sortNodes ns = .ok ns := by
  refine sortNodes_eq_ok_iff.mpr ⟨fun n hn => ?_, ?_⟩
  · cases ns with
    | nil => exact absurd hn List.not_mem_nil
    | cons m rest =>
      rcases List.mem_cons.mp hn with rfl | hn
      · rfl
      · exact ((List.pairwise_cons.mp h).1 n hn).1
  · rw [List.mergeSort_of_pairwise (h.imp fun hab => by simp [mayPrecede, hab.order_eq_lt])]
    exact dropRepeats_of_ne (h.imp Before.ne)

theorem mem_dropRepeats {x : Nat} : x ∈ dropRepeats ns ↔ x ∈ ns := by
  fun_induction dropRepeats ns with
  | case1 => rfl
  | case2 => rfl
  | case3 n rest ih => simp [ih]
  | case4 m n rest hne ih => rw [List.mem_cons, List.mem_cons, ih]

/-- Without repetitions, nodes of one tree whose addresses do not decrease are in order. -/
theorem inOrder_dropRepeats {r : Nat} (hroot : ∀ n ∈ ns, f.root n = r)
    (h : ns.Pairwise fun a b => ¬ f.address b < f.address a) : f.InOrder (dropRepeats ns) := by
  fun_induction dropRepeats ns with
  | case1 => exact List.Pairwise.nil
  | case2 n => exact inOrder_singleton f n
  | case3 n rest ih =>
    exact ih (fun m hm => hroot m (List.mem_cons_of_mem n hm)) (List.pairwise_cons.mp h).2
  | case4 m n rest hne ih =>
    obtain ⟨hm, hrest⟩ := List.pairwise_cons.mp h
    refine List.pairwise_cons.mpr
      ⟨fun x hx => ?_, ih (fun x hx => hroot x (List.mem_cons_of_mem m hx)) hrest⟩
    have hx := mem_dropRepeats.mp hx
    have sameRoot {x : Nat} (hx : x ∈ n :: rest) : f.root m = f.root x :=
      (hroot m List.mem_cons_self).trans (hroot x (List.mem_cons_of_mem m hx)).symm
    -- The node stands before its neighbour, and nothing that follows stands before the neighbour.
    have hmn : f.address m < f.address n := by
      refine Decidable.byContradiction fun hlt => hne ?_
      exact eq_of_address (sameRoot List.mem_cons_self)
        (List.le_antisymm (hm n List.mem_cons_self) hlt)
    refine ⟨sameRoot hx, ?_⟩
    rcases List.mem_cons.mp hx with rfl | hx
    · exact hmn
    · rcases List.le_iff_lt_or_eq.mp ((List.pairwise_cons.mp hrest).1 x hx) with hlt | heq
      · exact List.lt_trans hmn hlt
      · exact heq ▸ hmn

/-- What is sorted is in order. -/
theorem inOrder_sortNodes (h : f.sortNodes ns = .ok ms) : f.InOrder ms := by
  obtain ⟨hroots, rfl⟩ := sortNodes_eq_ok_iff.mp h
  obtain ⟨r, hroot⟩ : ∃ r, ∀ n ∈ ns, f.root n = r := by
    cases ns with
    | nil => exact ⟨0, fun n hn => absurd hn List.not_mem_nil⟩
    | cons m rest => exact ⟨f.root m, fun n hn => (hroots n hn).symm⟩
  refine inOrder_dropRepeats (fun n hn => hroot n (List.mem_mergeSort.mp hn)) ?_
  have agree : ∀ a ∈ ns, ∀ b ∈ ns, f.mayPrecede a b = decide (¬ f.address b < f.address a) := by
    intro a ha b hb
    rw [mayPrecede, order_eq ((hroot a ha).trans (hroot b hb).symm), compareAddresses]
    by_cases hab : f.address a < f.address b
    · simp [hab, List.lt_asymm hab]
    · by_cases hba : f.address b < f.address a <;> simp [hab, hba]
  have sorted := @List.pairwise_mergeSort (List Nat) (fun xs ys => decide (¬ ys < xs))
    (fun xs ys zs h h' => by
      simp only [decide_eq_true_eq] at *
      exact List.le_trans h h')
    (fun xs ys => by
      simp only [Bool.or_eq_true, decide_eq_true_eq]
      exact List.le_total xs ys) (ns.map f.address)
  rw [← List.map_mergeSort agree, List.pairwise_map] at sorted
  exact sorted.imp fun h => by simpa using h

/-- Sorting keeps all nodes and adds none. -/
theorem mem_sortNodes (h : f.sortNodes ns = .ok ms) : n ∈ ms ↔ n ∈ ns := by
  obtain ⟨_, rfl⟩ := sortNodes_eq_ok_iff.mp h
  rw [mem_dropRepeats, List.mem_mergeSort]

end Forest

theorem length_dropRepeats_le (ns : List Nat) : (dropRepeats ns).length ≤ ns.length := by
  fun_induction dropRepeats ns with
  | case1 => simp
  | case2 => simp
  | case3 n rest ih => exact Nat.le_trans ih (Nat.le_succ _)
  | case4 m n rest hne ih => simpa using ih

theorem dropRepeats_ne_nil {ns : List Nat} (h : ns ≠ []) : dropRepeats ns ≠ [] := by
  fun_induction dropRepeats ns with
  | case1 => exact h
  | case2 => simp
  | case3 n rest ih => exact ih (by simp)
  | case4 m n rest hne ih => simp

/-- Sorting may lose nodes, but not all of them. -/
theorem Forest.length_sortNodes {f : Forest} {ns ms : List Nat} (h : f.sortNodes ns = .ok ms) :
    ms.length ≤ ns.length ∧ (ms = [] → ns = []) := by
  obtain ⟨_, rfl⟩ := sortNodes_eq_ok_iff.mp h
  have hlength := length_dropRepeats_le (ns.mergeSort f.mayPrecede)
  rw [List.length_mergeSort] at hlength
  refine ⟨hlength, fun hnil => ?_⟩
  rcases ns with _ | ⟨n, ns⟩
  · rfl
  · refine absurd hnil (dropRepeats_ne_nil ?_)
    simp [← List.length_eq_zero_iff]

/-! ### Sequences -/

namespace Sequence

variable {f : Forest} {xs ys zs : Sequence}

/-- The nodes among the items. -/
def nodes (xs : Sequence) : List Nat := xs.filterMap Item.node?

/-- Whether a sequence is a list of nodes in document order, or has at most one item. -/
structure InOrder (f : Forest) (xs : Sequence) : Prop where
  nodes : f.InOrder (nodes xs)
  pure : xs.length ≤ 1 ∨ xs.all Item.isNode = true

theorem nodes_map_node (ns : List Nat) : nodes (ns.map .node) = ns := by
  induction ns with
  | nil => rfl
  | cons n ns ih => exact congrArg (n :: ·) ih

theorem eq_map_node (h : xs.all Item.isNode = true) : (nodes xs).map .node = xs := by
  induction xs with
  | nil => rfl
  | cons x xs ih =>
    rw [List.all_cons, Bool.and_eq_true] at h
    cases x with
    | atomic v => exact Bool.noConfusion h.1
    | node n => exact congrArg (Item.node n :: ·) (ih h.2)

theorem nodes_sublist (h : ys.Sublist xs) : (nodes ys).Sublist (nodes xs) := h.filterMap _

theorem InOrder.sublist (h : InOrder f xs) (hs : ys.Sublist xs) : InOrder f ys where
  nodes := h.nodes.sublist (nodes_sublist hs)
  pure := by
    rcases h.pure with hlength | hall
    · exact .inl (Nat.le_trans hs.length_le hlength)
    · exact .inr (List.all_eq_true.mpr fun x hx => List.all_eq_true.mp hall x (hs.subset hx))

theorem inOrder_map_node {ns : List Nat} (h : f.InOrder ns) : InOrder f (ns.map .node) where
  nodes := by rwa [nodes_map_node]
  pure := .inr (by simp [Item.isNode])

theorem inOrder_of_length_le (f : Forest) (h : xs.length ≤ 1) : InOrder f xs := by
  refine ⟨?_, .inl h⟩
  rcases xs with _ | ⟨_ | _, _ | _⟩
  · exact List.Pairwise.nil
  · exact Forest.inOrder_singleton f _
  · simp at h
  · exact List.Pairwise.nil
  · simp at h

theorem apart_of_length_le (f : Forest) (h : xs.length ≤ 1) : f.Apart (nodes xs) := by
  rcases xs with _ | ⟨_ | _, _ | _⟩
  · exact List.Pairwise.nil
  · exact Forest.apart_singleton f _
  · simp at h
  · exact List.Pairwise.nil
  · simp at h

end Sequence

section Results

variable {f : Forest} {xs ys zs : Sequence}

/-- Sorting the result of a path changes nothing that is in order already. -/
theorem sortPath_of_inOrder (h : xs.InOrder f) : sortPath f xs = .ok xs := by
  have sorted := Forest.sortNodes_of_inOrder h.nodes
  unfold Sequence.nodes at sorted
  unfold sortPath
  simp only
  split
  · rfl
  · rename_i hne
    have hall : xs.all Item.isNode = true := by
      rcases h.pure with hlength | hall
      · rcases xs with _ | ⟨n | v, _ | _⟩
        · exact absurd rfl hne
        · rfl
        · simp at hlength
        · exact absurd rfl hne
        · simp at hlength
      · exact hall
    have heq := Sequence.eq_map_node hall
    unfold Sequence.nodes at heq
    have hlength : (xs.filterMap Item.node?).length = xs.length := by
      simpa using congrArg List.length heq
    rw [if_neg (not_not_intro hlength), sorted]
    exact congrArg Except.ok heq

theorem inOrder_unionOf (h : unionOf f xs ys = .ok zs) : zs.InOrder f := by
  unfold unionOf at h
  split at h
  · obtain ⟨ms, hms, rfl⟩ := map_eq_ok_iff.mp h
    exact Sequence.inOrder_map_node (Forest.inOrder_sortNodes hms)
  · simp at h

theorem length_sortPath (h : sortPath f xs = .ok ys) :
    ys.length ≤ xs.length ∧ (ys = [] → xs = []) := by
  unfold sortPath at h
  simp only at h
  split at h
  · obtain rfl := Except.ok.inj h
    exact ⟨Nat.le_refl _, id⟩
  · split at h
    · simp at h
    · rename_i hnodes hall
      obtain ⟨ms, hms, rfl⟩ := map_eq_ok_iff.mp h
      obtain ⟨hlength, hnil⟩ := f.length_sortNodes hms
      rw [Decidable.not_not.mp hall] at hlength
      refine ⟨by simpa using hlength, fun hms => ?_⟩
      exact absurd (by simpa using hnil (by simpa using hms)) hnodes

theorem length_unionOf (h : unionOf f xs ys = .ok zs) :
    zs.length ≤ xs.length + ys.length ∧ (zs = [] → xs = [] ∧ ys = []) := by
  unfold unionOf at h
  split at h
  · rename_i hall
    obtain ⟨ms, hms, rfl⟩ := map_eq_ok_iff.mp h
    obtain ⟨hlength, hnil⟩ := f.length_sortNodes hms
    have hnodes : ((xs ++ ys).filterMap Item.node?).length = xs.length + ys.length := by
      simpa [Sequence.nodes] using congrArg List.length (Sequence.eq_map_node hall)
    rw [hnodes] at hlength
    refine ⟨by simpa using hlength, fun hms => ?_⟩
    rw [hnil (by simpa using hms)] at hnodes
    simpa [eq_comm] using hnodes
  · simp at h

/-- A union has nodes when one of its operands has. -/
theorem isEmpty_unionOf (h : unionOf f xs ys = .ok zs) : (!zs.isEmpty) = (!xs.isEmpty || !ys.isEmpty) := by
  obtain ⟨hlength, hnil⟩ := length_unionOf h
  cases zs with
  | nil =>
    obtain ⟨rfl, rfl⟩ := hnil rfl
    rfl
  | cons z zs =>
    rcases xs with _ | ⟨x, xs⟩
    · rcases ys with _ | ⟨y, ys⟩
      · simp at hlength
      · rfl
    · rfl

end Results

end TreeQuery
