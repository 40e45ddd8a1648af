/-
Import precedence follows the tree of imports.

A module is found at a place (`ModuleTree.Place`), the links that lead to it from the root.  Its group is named by
the place of the module that leads it, which one comes to by going back along includes (`Place.leader`).  The
groups of a tree, in the order in which they get their precedences, are `ModuleTree.heads`: what the group of a
module imports, import by import, and then the group itself.

* `precedences_eq_numbered`: precedences are the numbers of the groups in this list;
* `mem_heads_iff`, `mem_placedMembers_iff`: every group is met there, and with its group every module;
* `pairwise_heads`: the list goes by the first link in which two places differ, and what is below a group comes
  before it.

**Main result** (`precedences_respect_imports`): modules of one group have one precedence, imports rank below what
imports them and in the order in which they are declared, and the precedences are the numbers from 1 to that of
the root.

Design notes: the counter is one of 32 bits, and adding to it wraps; the numbering is therefore equal to the
assignment for trees of any size, and only the comparison of numbers needs that they are not too great.
-/
import Mathlib.Algebra.Ring.Nat
import Mathlib.Data.List.DropRight
import TreeQuery.Rule.Precedence

namespace TreeQuery

namespace ModuleTree

/-! ### Places -/

/-- How a module comes in: as an import or as an include of another one, by its index there. -/
inductive Link where
  | imported (index : Nat)
  | included (index : Nat)
  deriving DecidableEq, Repr

/-- Whether a module comes in as an include. -/
def Link.isIncluded : Link → Bool
  | imported _ => false
  | included _ => true

/-- Whether a link comes before another one of the same module: imports come before includes. -/
def Link.Before : Link → Link → Prop
  | imported i, imported j => i < j
  | imported _, included _ => True
  | included _, imported _ => False
  | included i, included j => i < j

/-- The links that lead from a module to one below it. -/
abbrev Place := List Link

/-- The module at a place. -/
def at? : ModuleTree → Place → Option ModuleTree
  | m, [] => some m
  | mk _ imports _, .imported i :: p => (imports[i]?).bind (at? · p)
  | mk _ _ includes, .included i :: p => (includes[i]?).bind (at? · p)

namespace Place

/-- The place of the module that leads the group of a module. -/
def leader (p : Place) : Place := p.rdropWhile Link.isIncluded

/-- Whether one place is declared before another one: the first links in which they differ are. -/
def Before : Place → Place → Prop
  | x :: p, y :: q => x.Before y ∨ x = y ∧ Before p q
  | _, _ => False

/-- Whether the group of one place gets its precedence before that of another one, if they lead groups: it is
declared before the other one, or is below it. -/
def Sooner : Place → Place → Prop
  | [], _ => False
  | _ :: _, [] => True
  | x :: p, y :: q => x.Before y ∨ x = y ∧ Sooner p q

end Place

theorem Link.Before.asymm {x y : Link} (h : x.Before y) : ¬ y.Before x := by
  cases x with
  | imported i =>
    cases y with
    | imported j => exact Nat.lt_asymm h
    | included j => exact id
  | included i =>
    cases y with
    | imported j => cases h
    | included j => exact Nat.lt_asymm h

theorem Link.before_or {x y : Link} (ne : x ≠ y) : x.Before y ∨ y.Before x := by
  cases x with
  | imported i =>
    cases y with
    | imported j => exact Nat.lt_or_gt_of_ne fun same => ne (congrArg _ same)
    | included j => exact .inl trivial
  | included i =>
    cases y with
    | imported j => exact .inr trivial
    | included j => exact Nat.lt_or_gt_of_ne fun same => ne (congrArg _ same)

theorem Link.Before.ne {x y : Link} (h : x.Before y) : x ≠ y := by
  rintro rfl
  exact h.asymm h

namespace Place

variable {p q u v : Place} {x y : Link}

/-! ### Leaders -/

theorem leader_append_imported (p : Place) (i : Nat) : leader (p ++ [.imported i]) = p ++ [.imported i] :=
  List.rdropWhile_concat_neg _ _ _ Bool.false_ne_true

theorem leader_append_included (p : Place) (i : Nat) : leader (p ++ [.included i]) = leader p :=
  List.rdropWhile_concat_pos _ _ _ rfl

theorem leader_leader (p : Place) : leader (leader p) = leader p :=
  List.rdropWhile_idempotent _ p

/-- Whether a place is that of an import. -/
def IsImport (p : Place) : Prop := ∃ q i, p = q ++ [.imported i]

/-- A place leads a group if it is that of the root or of an import. -/
theorem leader_eq_self_iff : leader p = p ↔ p = [] ∨ IsImport p := by
  constructor
  · intro h
    induction p using List.reverseRecOn with
    | nil => exact .inl rfl
    | append_singleton q x =>
      cases x with
      | imported i => exact .inr ⟨q, i, rfl⟩
      | included i =>
        rw [leader_append_included] at h
        have shorter := (List.rdropWhile_prefix Link.isIncluded q).length_le
        rw [show q.rdropWhile Link.isIncluded = q ++ [.included i] from h] at shorter
        rw [List.length_append, List.length_singleton] at shorter
        omega
  · rintro (rfl | ⟨q, i, rfl⟩)
    · rfl
    · exact leader_append_imported q i

theorem not_isImport_nil : ¬ IsImport [] := by
  rintro ⟨q, i, h⟩
  exact List.append_ne_nil_of_right_ne_nil q (List.cons_ne_nil _ _) h.symm

theorem isImport_cons_iff_of_ne_nil (ne : p ≠ []) : IsImport (x :: p) ↔ IsImport p := by
  constructor
  · rintro ⟨q, i, h⟩
    cases q with
    | nil => exact absurd (List.cons.inj h).2 ne
    | cons y q => exact ⟨q, i, (List.cons.inj h).2⟩
  · rintro ⟨q, i, rfl⟩
    exact ⟨x :: q, i, rfl⟩

theorem isImport_imported_cons_iff {i : Nat} : IsImport (.imported i :: p) ↔ leader p = p := by
  rw [leader_eq_self_iff]
  by_cases ne : p = []
  · exact iff_of_true ⟨[], i, by rw [ne]; rfl⟩ (.inl ne)
  · rw [isImport_cons_iff_of_ne_nil ne, or_iff_right ne]

theorem isImport_included_cons_iff {i : Nat} : IsImport (.included i :: p) ↔ IsImport p := by
  by_cases ne : p = []
  · refine iff_of_false ?_ (ne ▸ not_isImport_nil)
    rintro ⟨q, j, h⟩
    cases q with
    | nil => cases h
    | cons y q =>
      exact List.append_ne_nil_of_right_ne_nil q (List.cons_ne_nil _ _) ((List.cons.inj h).2.symm.trans ne)
  · exact isImport_cons_iff_of_ne_nil ne

/-- From the leader of a group includes lead to every module of it. -/
theorem exists_eq_leader_append (p : Place) : ∃ q, p = leader p ++ q ∧ ∀ x ∈ q, x.isIncluded = true :=
  ⟨p.rtakeWhile Link.isIncluded, List.rdropWhile_append_rtakeWhile.symm, fun _ => List.mem_rtakeWhile_imp⟩

theorem leader_append_of_included (p : Place) (h : ∀ x ∈ q, x.isIncluded = true) :
    leader (p ++ q) = leader p := by
  induction q using List.reverseRecOn with
  | nil => rw [List.append_nil]
  | append_singleton q x ih =>
    rw [← List.append_assoc, leader, List.rdropWhile_concat_pos _ _ _ (h x (by simp))]
    exact ih fun y hy => h y (by simp [hy])

/-- All that is below an import belongs to groups that are led by it or by something below it. -/
theorem imported_prefix_leader {i : Nat} (h : p ++ [.imported i] <+: q) : p ++ [.imported i] <+: leader q := by
  obtain ⟨r, rfl⟩ := h
  induction r using List.reverseRecOn with
  | nil => exact ⟨[], by rw [List.append_nil, leader_append_imported]⟩
  | append_singleton r x ih =>
    rw [← List.append_assoc]
    cases x with
    | imported i =>
      rw [leader_append_imported, List.append_assoc]
      exact List.prefix_append ..
    | included i => rwa [leader_append_included]

/-- An import lies strictly below the leader of the group that it belongs to. -/
theorem leader_prefix_of_imported {i : Nat} (h : p ++ [.imported i] <+: q) :
    leader p <+: leader q ∧ leader q ≠ leader p := by
  have above := imported_prefix_leader h
  have shorter := (List.rdropWhile_prefix Link.isIncluded p).length_le
  have longer := above.length_le
  refine ⟨(List.rdropWhile_prefix _ p).trans ((List.prefix_append _ _).trans above), fun same => ?_⟩
  rw [same, leader, List.length_append, List.length_singleton] at longer
  omega

/-! ### The order of groups -/

theorem Sooner.asymm (h : Sooner p q) : ¬ Sooner q p := by
  induction p generalizing q with
  | nil => cases h
  | cons x p ih =>
    cases q with
    | nil => exact fun h' => h'
    | cons y q =>
      rintro (hyx | ⟨hyx, hqp⟩) <;> rcases h with hxy | ⟨hxy, hpq⟩
      · exact hxy.asymm hyx
      · exact hyx.ne hxy.symm
      · exact hxy.ne hyx.symm
      · exact ih hpq hqp

theorem Sooner.ne (h : Sooner p q) : p ≠ q := by
  rintro rfl
  exact h.asymm h

/-- What is below another place comes before it. -/
theorem sooner_of_prefix (h : q <+: p) (ne : p ≠ q) : Sooner p q := by
  induction q generalizing p with
  | nil =>
    cases p with
    | nil => exact absurd rfl ne
    | cons x p => trivial
  | cons y q ih =>
    obtain ⟨r, rfl⟩ := h
    exact .inr ⟨rfl, ih (List.prefix_append q r) fun h => ne (congrArg _ h)⟩

/-- Of two places of which neither is below the other one is declared before the other. -/
theorem before_total_of_not_prefix (h : ¬ p <+: q) (h' : ¬ q <+: p) : Before p q ∨ Before q p := by
  induction p generalizing q with
  | nil => exact absurd List.nil_prefix h
  | cons x p ih =>
    cases q with
    | nil => exact absurd List.nil_prefix h'
    | cons y q =>
      by_cases same : x = y
      · subst same
        rw [List.prefix_cons_inj] at h h'
        exact (ih h h').imp (.inr ⟨rfl, ·⟩) (.inr ⟨rfl, ·⟩)
      · exact (Link.before_or same).imp .inl .inl

/-- No import of a group is below another import of it. -/
theorem not_prefix_of_leader_eq {i j : Nat} (same : leader p = leader q)
    (ne : p ++ [.imported i] ≠ q ++ [.imported j]) : ¬ p ++ [.imported i] <+: q ++ [.imported j] := by
  intro h
  have inside : p ++ [.imported i] <+: q := (List.prefix_concat_iff.mp h).resolve_left ne
  exact (leader_prefix_of_imported inside).2 same.symm

/-- Of two imports of one group one is declared before the other one. -/
theorem before_total {i j : Nat} (same : leader p = leader q) (ne : p ++ [.imported i] ≠ q ++ [.imported j]) :
    Before (p ++ [.imported i]) (q ++ [.imported j]) ∨ Before (q ++ [.imported j]) (p ++ [.imported i]) :=
  before_total_of_not_prefix (not_prefix_of_leader_eq same ne) (not_prefix_of_leader_eq same.symm ne.symm)

/-- What is below one place comes before what is below a place that is declared later. -/
theorem Before.sooner (h : Before p q) (hu : p <+: u) (hv : q <+: v) : Sooner u v := by
  obtain ⟨r, rfl⟩ := hu
  obtain ⟨s, rfl⟩ := hv
  induction p generalizing q with
  | nil => cases h
  | cons x p ih =>
    cases q with
    | nil => cases h
    | cons y q =>
      rcases h with h | ⟨rfl, h⟩
      · exact .inl h
      · exact .inr ⟨rfl, ih h⟩

end Place

/-! ### Groups and their modules -/

/-- What is found at a place below a module, at its place seen from there. -/
def under (x : Link) (e : Place × ModuleTree) : Place × ModuleTree := (x :: e.1, e.2)

mutual

/-- The groups that lie below the group of a module, in the order in which they get their precedences; each as
the module that leads it, with its place. -/
def groups : ModuleTree → List (Place × ModuleTree)
  | mk _ imports includes => groupsOfImports 0 imports ++ groupsOfIncludes 0 includes

/-- The groups that lie below or are led by imports, which are counted from an index. -/
def groupsOfImports (index : Nat) : List ModuleTree → List (Place × ModuleTree)
  | [] => []
  | m :: ms => (groups m ++ [([], m)]).map (under (.imported index)) ++ groupsOfImports (index + 1) ms

/-- The groups that lie below includes, which are counted from an index. -/
def groupsOfIncludes (index : Nat) : List ModuleTree → List (Place × ModuleTree)
  | [] => []
  | m :: ms => (groups m).map (under (.included index)) ++ groupsOfIncludes (index + 1) ms

end

/-- All groups of a tree. -/
def heads (m : ModuleTree) : List (Place × ModuleTree) := groups m ++ [([], m)]

mutual

/-- The modules of the group of a module, with their places. -/
def placedMembers : ModuleTree → List (Place × ModuleTree)
  | mk n imports includes => ([], mk n imports includes) :: placedMembersOf 0 includes

/-- The modules of the groups of includes, which are counted from an index. -/
def placedMembersOf (index : Nat) : List ModuleTree → List (Place × ModuleTree)
  | [] => []
  | m :: ms => (placedMembers m).map (under (.included index)) ++ placedMembersOf (index + 1) ms

end

/-- All modules of a tree with their places, in the order in which they get their precedences. -/
def modules (root : ModuleTree) : List (Place × ModuleTree) :=
  (heads root).flatMap fun e => (placedMembers e.2).map fun e' => (e.1 ++ e'.1, e'.2)

mutual

/-- The number of modules of a tree. -/
def size : ModuleTree → Nat
  | mk _ imports includes => sizes imports + sizes includes + 1

/-- The number of modules of several trees. -/
def sizes : List ModuleTree → Nat
  | [] => 0
  | m :: ms => size m + sizes ms

end

/-- What holds of a module if it holds of all it imports and includes holds of every module. -/
theorem induct {motive : ModuleTree → Prop}
    (h : ∀ n imports includes, (∀ m ∈ imports, motive m) → (∀ m ∈ includes, motive m) →
      motive (mk n imports includes)) (m : ModuleTree) : motive m := by
  obtain ⟨n, imports, includes⟩ := m
  refine h n imports includes (fun m hm => induct h m) fun m hm => induct h m
termination_by m
decreasing_by
  all_goals
    have := List.sizeOf_lt_of_mem hm
    simp only [mk.sizeOf_spec]
    omega

theorem groupsOfImports_eq (index : Nat) (ms : List ModuleTree) : groupsOfImports index ms =
    (ms.zipIdx index).flatMap fun e => (heads e.1).map (under (.imported e.2)) := by
  induction ms generalizing index with
  | nil => rfl
  | cons m ms ih => rw [groupsOfImports, ih, List.zipIdx_cons, List.flatMap_cons, heads]

theorem groupsOfIncludes_eq (index : Nat) (ms : List ModuleTree) : groupsOfIncludes index ms =
    (ms.zipIdx index).flatMap fun e => (groups e.1).map (under (.included e.2)) := by
  induction ms generalizing index with
  | nil => rfl
  | cons m ms ih => rw [groupsOfIncludes, ih, List.zipIdx_cons, List.flatMap_cons]

theorem placedMembersOf_eq (index : Nat) (ms : List ModuleTree) : placedMembersOf index ms =
    (ms.zipIdx index).flatMap fun e => (placedMembers e.1).map (under (.included e.2)) := by
  induction ms generalizing index with
  | nil => rfl
  | cons m ms ih => rw [placedMembersOf, ih, List.zipIdx_cons, List.flatMap_cons]

/-! ### Places and modules -/

section Places

variable {m x : ModuleTree} {p g : Place} {y : Link} {n : String} {ms imports includes : List ModuleTree}
  {f : ModuleTree → List (Place × ModuleTree)} {link : Nat → Link}

/-- What is found below the modules of a list, each of which comes in by a link of its own. -/
theorem cons_mem_flatMap_under :
    ((y :: g, x) ∈ ms.zipIdx.flatMap fun e => (f e.1).map (under (link e.2))) ↔
      ∃ i, y = link i ∧ ∃ m, ms[i]? = some m ∧ (g, x) ∈ f m := by
  rw [List.mem_flatMap]
  constructor
  · rintro ⟨⟨m, i⟩, hm, he⟩
    obtain ⟨⟨g', x'⟩, he', same⟩ := List.mem_map.mp he
    cases same
    exact ⟨i, rfl, m, List.mem_zipIdx_iff_getElem?.mp hm, he'⟩
  · rintro ⟨i, rfl, m, hm, he⟩
    exact ⟨(m, i), List.mem_zipIdx_iff_getElem?.mpr hm, List.mem_map_of_mem (f := under (link i)) he⟩

theorem nil_not_mem_flatMap_under :
    ([], x) ∉ ms.zipIdx.flatMap fun e => (f e.1).map (under (link e.2)) := by
  intro h
  obtain ⟨e, -, he⟩ := List.mem_flatMap.mp h
  obtain ⟨e', -, same⟩ := List.mem_map.mp he
  cases same

theorem nil_not_mem_groups : ([], x) ∉ groups m := by
  obtain ⟨n, imports, includes⟩ := m
  rw [groups, groupsOfImports_eq, groupsOfIncludes_eq, List.mem_append]
  exact fun h => h.elim nil_not_mem_flatMap_under nil_not_mem_flatMap_under

theorem imported_mem_groups {i : Nat} : (.imported i :: g, x) ∈ groups (mk n imports includes) ↔
    ∃ m, imports[i]? = some m ∧ (g, x) ∈ heads m := by
  rw [groups, groupsOfImports_eq, groupsOfIncludes_eq, List.mem_append, cons_mem_flatMap_under,
    cons_mem_flatMap_under]
  simp

theorem included_mem_groups {i : Nat} : (.included i :: g, x) ∈ groups (mk n imports includes) ↔
    ∃ m, includes[i]? = some m ∧ (g, x) ∈ groups m := by
  rw [groups, groupsOfImports_eq, groupsOfIncludes_eq, List.mem_append, cons_mem_flatMap_under,
    cons_mem_flatMap_under]
  simp

theorem at?_imported {i : Nat} : (mk n imports includes).at? (.imported i :: p) = some x ↔
    ∃ m, imports[i]? = some m ∧ m.at? p = some x := Option.bind_eq_some_iff

theorem at?_included {i : Nat} : (mk n imports includes).at? (.included i :: p) = some x ↔
    ∃ m, includes[i]? = some m ∧ m.at? p = some x := Option.bind_eq_some_iff

theorem mem_heads : (g, x) ∈ heads m ↔ (g, x) ∈ groups m ∨ g = [] ∧ x = m := by
  rw [heads, List.mem_append, List.mem_singleton, Prod.mk.injEq]

theorem mem_heads_of_mem_groups_iff (h : (g, x) ∈ groups m ↔ m.at? g = some x ∧ g.IsImport) :
    (g, x) ∈ heads m ↔ m.at? g = some x ∧ g.leader = g := by
  rw [mem_heads, h, Place.leader_eq_self_iff]
  constructor
  · rintro (⟨found, isImport⟩ | ⟨rfl, rfl⟩)
    · exact ⟨found, .inr isImport⟩
    · exact ⟨rfl, .inl rfl⟩
  · rintro ⟨found, rfl | isImport⟩
    · exact .inr ⟨rfl, (Option.some.inj found).symm⟩
    · exact .inl ⟨found, isImport⟩

/-- The groups below that of a module are those that imports lead. -/
theorem mem_groups_iff : (g, x) ∈ groups m ↔ m.at? g = some x ∧ g.IsImport := by
  induction m using induct generalizing g with
  | h n imports includes ihImports ihIncludes =>
    cases g with
    | nil => exact iff_of_false nil_not_mem_groups fun h => Place.not_isImport_nil h.2
    | cons y g =>
      cases y with
      | imported i =>
        have each : ∀ m, imports[i]? = some m → ((g, x) ∈ heads m ↔ m.at? g = some x ∧ Place.leader g = g) :=
          fun m hm => mem_heads_of_mem_groups_iff (ihImports m (List.mem_of_getElem? hm))
        rw [imported_mem_groups, at?_imported, Place.isImport_imported_cons_iff, ← exists_and_right]
        exact exists_congr fun m => by rw [and_assoc]; exact and_congr_right (each m)
      | included i =>
        rw [included_mem_groups, at?_included, Place.isImport_included_cons_iff, ← exists_and_right]
        exact exists_congr fun m => by
          rw [and_assoc]
          exact and_congr_right fun hm => ihIncludes m (List.mem_of_getElem? hm)

/-- Every group of a tree is met, under the place of its leader. -/
theorem mem_heads_iff : (g, x) ∈ heads m ↔ m.at? g = some x ∧ g.leader = g :=
  mem_heads_of_mem_groups_iff mem_groups_iff

/-- The modules of the group of a module are those to which includes lead. -/
theorem mem_placedMembers_iff :
    (p, x) ∈ placedMembers m ↔ m.at? p = some x ∧ ∀ y ∈ p, y.isIncluded = true := by
  induction m using induct generalizing p with
  | h n imports includes ihImports ihIncludes =>
    rw [placedMembers, placedMembersOf_eq, List.mem_cons, Prod.mk.injEq]
    cases p with
    | nil =>
      rw [or_iff_left nil_not_mem_flatMap_under]
      constructor
      · exact fun h => ⟨congrArg some h.2.symm, fun _ hy => by cases hy⟩
      · exact fun h => ⟨rfl, (Option.some.inj h.1).symm⟩
    | cons y p =>
      rw [cons_mem_flatMap_under, or_iff_right (by simp)]
      cases y with
      | imported i => simp [Link.isIncluded]
      | included i =>
        rw [at?_included, List.forall_mem_cons, ← exists_and_right]
        simp only [Link.included.injEq, Link.isIncluded, true_and, exists_eq_left']
        exact exists_congr fun m => by
          rw [and_assoc]
          exact and_congr_right fun hm => ihIncludes m (List.mem_of_getElem? hm)

theorem at?_append (m : ModuleTree) (p q : Place) : m.at? (p ++ q) = (m.at? p).bind (at? · q) := by
  induction p generalizing m with
  | nil => cases m; rfl
  | cons y p ih =>
    obtain ⟨n, imports, includes⟩ := m
    cases y with
    | imported i =>
      rw [List.cons_append, at?, at?, Option.bind_assoc]
      exact congrArg _ (funext ih)
    | included i =>
      rw [List.cons_append, at?, at?, Option.bind_assoc]
      exact congrArg _ (funext ih)

/-- Every module of a tree is met. -/
theorem mem_modules_iff : (p, x) ∈ modules m ↔ m.at? p = some x := by
  rw [modules, List.mem_flatMap]
  constructor
  · rintro ⟨⟨g, y⟩, hg, hp⟩
    obtain ⟨⟨a, x'⟩, ha, same⟩ := List.mem_map.mp hp
    cases same
    rw [at?_append, (mem_heads_iff.mp hg).1]
    exact (mem_placedMembers_iff.mp ha).1
  · intro h
    obtain ⟨a, same, included⟩ := p.exists_eq_leader_append
    rw [same, at?_append] at h
    obtain ⟨y, hy, hx⟩ := Option.bind_eq_some_iff.mp h
    refine ⟨(p.leader, y), mem_heads_iff.mpr ⟨hy, p.leader_leader⟩, List.mem_map.mpr ⟨(a, x), ?_, ?_⟩⟩
    · exact mem_placedMembers_iff.mpr ⟨hx, included⟩
    · rw [← same]

end Places

/-! ### The order of groups and modules -/

section Order

variable {m : ModuleTree} {ms : List ModuleTree} {f : ModuleTree → List (Place × ModuleTree)}
  {link : Nat → Link} {R : Place → Place → Prop}

/-- A relation between places that holds among what is below each module of a list, and between what is below a
module and below a later one, holds from each place to those after it. -/
theorem pairwise_flatMap_under (within : ∀ i p q, R p q → R (link i :: p) (link i :: q))
    (across : ∀ i j p q, i < j → R (link i :: p) (link j :: q))
    (h : ∀ m ∈ ms, (f m).Pairwise fun e e' => R e.1 e'.1) :
    (ms.zipIdx.flatMap fun e => (f e.1).map (under (link e.2))).Pairwise fun e e' => R e.1 e'.1 := by
  rw [List.pairwise_flatMap]
  constructor
  · intro e he
    exact List.pairwise_map.mpr ((h e.1 (List.fst_mem_of_mem_zipIdx he)).imp fun r => within _ _ _ r)
  · have increasing : ms.zipIdx.Pairwise fun e e' => e.2 < e'.2 := by
      rw [← List.pairwise_map (f := Prod.snd) (R := (· < ·)), List.zipIdx_map_snd]
      exact List.pairwise_lt_range'
    refine increasing.imp fun hlt x hx y hy => ?_
    obtain ⟨e, -, rfl⟩ := List.mem_map.mp hx
    obtain ⟨e', -, rfl⟩ := List.mem_map.mp hy
    exact across _ _ _ _ hlt

theorem pairwise_heads_of_pairwise_groups (h : (groups m).Pairwise fun e e' => Place.Sooner e.1 e'.1) :
    (heads m).Pairwise fun e e' => Place.Sooner e.1 e'.1 := by
  rw [heads, List.pairwise_append]
  refine ⟨h, List.pairwise_singleton _ _, fun e he e' he' => ?_⟩
  -- The group of the root is the last one, since every other place is below it.
  obtain rfl := List.mem_singleton.mp he'
  obtain ⟨g, x⟩ := e
  refine Place.sooner_of_prefix List.nil_prefix ?_
  rintro rfl
  exact nil_not_mem_groups he

/-- Groups are listed in the order in which they get their precedences. -/
theorem pairwise_groups (m : ModuleTree) : (groups m).Pairwise fun e e' => Place.Sooner e.1 e'.1 := by
  induction m using induct with
  | h n imports includes ihImports ihIncludes =>
    rw [groups, groupsOfImports_eq, groupsOfIncludes_eq, List.pairwise_append]
    refine ⟨?first, ?rest, ?across⟩
    -- An import leads a group that comes after all below it; an include leads none, and adds what is below it.
    case first =>
      exact pairwise_flatMap_under (fun i p q sooner => .inr ⟨rfl, sooner⟩) (fun i j p q hlt => .inl hlt)
        fun m hm => pairwise_heads_of_pairwise_groups (ihImports m hm)
    case rest =>
      exact pairwise_flatMap_under (fun i p q sooner => .inr ⟨rfl, sooner⟩) (fun i j p q hlt => .inl hlt)
        ihIncludes
    case across =>
      intro e he e' he'
      obtain ⟨a, -, ha⟩ := List.mem_flatMap.mp he
      obtain ⟨a', -, ha'⟩ := List.mem_flatMap.mp he'
      obtain ⟨d, -, rfl⟩ := List.mem_map.mp ha
      obtain ⟨d', -, rfl⟩ := List.mem_map.mp ha'
      exact .inl trivial

theorem pairwise_heads (m : ModuleTree) : (heads m).Pairwise fun e e' => Place.Sooner e.1 e'.1 :=
  pairwise_heads_of_pairwise_groups (pairwise_groups m)

/-- Every module of a group is listed once. -/
theorem pairwise_placedMembers (m : ModuleTree) : (placedMembers m).Pairwise fun e e' => e.1 ≠ e'.1 := by
  induction m using induct with
  | h n imports includes ihImports ihIncludes =>
    rw [placedMembers, placedMembersOf_eq, List.pairwise_cons]
    constructor
    · rintro ⟨p, x⟩ he rfl
      exact nil_not_mem_flatMap_under he
    · refine pairwise_flatMap_under (fun i p q ne same => ne (List.cons.inj same).2) ?_ ihIncludes
      rintro i j p q hlt same
      cases same
      exact Nat.lt_irrefl _ hlt

/-- A module of a group that is listed under its leader has this leader. -/
theorem leader_of_mem {g a : Place} {x y : ModuleTree} (hg : (g, y) ∈ heads m) (ha : (a, x) ∈ placedMembers y) :
    Place.leader (g ++ a) = g :=
  (Place.leader_append_of_included g (mem_placedMembers_iff.mp ha).2).trans (mem_heads_iff.mp hg).2

/-- Every module of a tree is listed once. -/
theorem nodup_modules (m : ModuleTree) : ((modules m).map (·.1)).Nodup := by
  rw [List.Nodup, List.pairwise_map, modules, List.pairwise_flatMap]
  constructor
  · rintro ⟨g, x⟩ -
    rw [List.pairwise_map]
    exact (pairwise_placedMembers x).imp fun ne same => ne (List.append_cancel_left same)
  · refine (pairwise_heads m).imp_of_mem fun {e e'} he he' sooner x hx y hy same => sooner.ne ?_
    obtain ⟨a, ha, rfl⟩ := List.mem_map.mp hx
    obtain ⟨a', ha', rfl⟩ := List.mem_map.mp hy
    rw [← leader_of_mem he ha, ← leader_of_mem he' ha']
    exact congrArg _ same

/-! ### How many groups there are -/

/-- Below the modules of a list there is not more than modules, if so below each. -/
theorem length_flatMap_under_le (index : Nat) (h : ∀ m ∈ ms, (f m).length ≤ size m) :
    ((ms.zipIdx index).flatMap fun e => (f e.1).map (under (link e.2))).length ≤ sizes ms := by
  induction ms generalizing index with
  | nil => exact Nat.le_refl 0
  | cons m ms ih =>
    have first := h m List.mem_cons_self
    have rest := ih (index + 1) fun m hm => h m (List.mem_cons_of_mem _ hm)
    rw [List.zipIdx_cons, List.flatMap_cons, List.length_append, List.length_map, sizes]
    exact Nat.add_le_add first rest

theorem length_heads (m : ModuleTree) : (heads m).length = (groups m).length + 1 := by
  rw [heads, List.length_append, List.length_singleton]

/-- There are not more groups than modules. -/
theorem length_heads_le (m : ModuleTree) : (heads m).length ≤ size m := by
  induction m using induct with
  | h n imports includes ihImports ihIncludes =>
    have below : ∀ m ∈ includes, (groups m).length ≤ size m := fun m hm =>
      (Nat.le_add_right _ 1).trans ((length_heads m).symm.trans_le (ihIncludes m hm))
    rw [length_heads, groups, groupsOfImports_eq, groupsOfIncludes_eq, List.length_append, size]
    exact Nat.succ_le_succ
      (Nat.add_le_add (length_flatMap_under_le 0 ihImports) (length_flatMap_under_le 0 below))

end Order

/-! ### The assignment numbers the groups -/

section Numbers

variable {m : ModuleTree} {ms : List ModuleTree}

/-- The names of the modules of groups, with precedences that are counted on from one to the next, and the last
precedence used. -/
def numbered (last : Int32) : List ModuleTree → List (String × Int32) × Int32
  | [] => ([], last)
  | m :: ms =>
    ((members m).map (fun n => (n, last + 1)) ++ (numbered (last + 1) ms).1, (numbered (last + 1) ms).2)

theorem numbered_append (last : Int32) (ms ms' : List ModuleTree) : numbered last (ms ++ ms') =
    ((numbered last ms).1 ++ (numbered (numbered last ms).2 ms').1, (numbered (numbered last ms).2 ms').2) := by
  induction ms generalizing last with
  | nil => rfl
  | cons m ms ih => simp only [List.cons_append, numbered, ih, List.append_assoc]

theorem under_snd (x : Link) (es : List (Place × ModuleTree)) :
    (es.map (under x)).map (·.2) = es.map (·.2) := by
  rw [List.map_map]
  rfl

theorem assignEach_eq_numbered (index : Nat)
    (h : ∀ m ∈ ms, ∀ last, assignImports last m = numbered last ((groups m).map (·.2))) (last : Int32) :
    assignEach last ms = numbered last ((groupsOfImports index ms).map (·.2)) := by
  induction ms generalizing index last with
  | nil => rfl
  | cons m ms ih =>
    have rest := ih (index + 1) fun m hm => h m (List.mem_cons_of_mem _ hm)
    simp only [assignEach, groupsOfImports, h m List.mem_cons_self, rest, List.map_append, under_snd,
      numbered_append, List.map_cons, List.map_nil, numbered, List.append_nil, List.append_assoc]
    rfl

theorem assignIncluded_eq_numbered (index : Nat)
    (h : ∀ m ∈ ms, ∀ last, assignImports last m = numbered last ((groups m).map (·.2))) (last : Int32) :
    assignIncluded last ms = numbered last ((groupsOfIncludes index ms).map (·.2)) := by
  induction ms generalizing index last with
  | nil => rfl
  | cons m ms ih =>
    have rest := ih (index + 1) fun m hm => h m (List.mem_cons_of_mem _ hm)
    simp only [assignIncluded, groupsOfIncludes, h m List.mem_cons_self, rest, List.map_append, under_snd,
      numbered_append]

theorem assignImports_eq_numbered (last : Int32) (m : ModuleTree) :
    assignImports last m = numbered last ((groups m).map (·.2)) := by
  induction m using induct generalizing last with
  | h n imports includes ihImports ihIncludes =>
    have each := assignEach_eq_numbered 0 (fun m hm last => ihImports m hm last)
    have included := assignIncluded_eq_numbered 0 (fun m hm last => ihIncludes m hm last)
    simp only [assignImports, groups, each, included, List.map_append, numbered_append]

/-- Precedences are the numbers of the groups, from 1. -/
theorem precedences_eq_numbered (root : ModuleTree) :
    root.precedences = (numbered 0 ((heads root).map (·.2))).1 := by
  simp only [precedences, assignEach, assignImports_eq_numbered, heads, List.map_append, numbered_append,
    List.map_cons, List.map_nil, numbered, List.append_nil]

theorem membersOf_eq (index : Nat) (h : ∀ m ∈ ms, members m = (placedMembers m).map (·.2.name)) :
    membersOf ms = (placedMembersOf index ms).map (·.2.name) := by
  induction ms generalizing index with
  | nil => rfl
  | cons m ms ih =>
    rw [membersOf, placedMembersOf, List.map_append, h m List.mem_cons_self,
      ih (index + 1) fun m hm => h m (List.mem_cons_of_mem _ hm), List.map_map]
    rfl

theorem members_eq (m : ModuleTree) : members m = (placedMembers m).map (·.2.name) := by
  induction m using induct with
  | h n imports includes ihImports ihIncludes =>
    rw [members, placedMembers, membersOf_eq 0 ihIncludes, List.map_cons]
    rfl

theorem numbered_eq_zipIdx (last : Nat) (ms : List ModuleTree) : (numbered (.ofNat last) ms).1 =
    (ms.zipIdx (last + 1)).flatMap fun e => (members e.1).map fun n => (n, .ofNat e.2) := by
  induction ms generalizing last with
  | nil => rfl
  | cons m ms ih =>
    rw [numbered, List.zipIdx_cons, List.flatMap_cons, ← ih, Int32.ofNat_add]
    rfl

/-- The precedence of a module: the number of its group. -/
def precedenceAt (root : ModuleTree) (p : Place) : Int32 :=
  .ofNat (((heads root).map (·.1)).idxOf (Place.leader p) + 1)

variable {root : ModuleTree} {p q : Place}

theorem nodup_heads (m : ModuleTree) : ((heads m).map (·.1)).Nodup := by
  rw [List.Nodup, List.pairwise_map]
  exact (pairwise_heads m).imp Place.Sooner.ne

/-- The modules of a group get its number. -/
theorem precedenceAt_of_mem_zipIdx {e : (Place × ModuleTree) × Nat} {a : Place} {x : ModuleTree}
    (he : e ∈ (heads root).zipIdx 1) (ha : (a, x) ∈ placedMembers e.1.2) :
    root.at? (e.1.1 ++ a) = some x ∧ root.precedenceAt (e.1.1 ++ a) = .ofNat e.2 := by
  obtain ⟨positive, found⟩ := List.mem_zipIdx_iff_le_and_getElem?_sub.mp he
  have he := List.mem_of_getElem? found
  refine ⟨?_, ?_⟩
  · rw [at?_append, (mem_heads_iff.mp he).1]
    exact (mem_placedMembers_iff.mp ha).1
  · obtain ⟨inside, at_index⟩ := List.getElem?_eq_some_iff.mp found
    have index := (nodup_heads root).idxOf_getElem (e.2 - 1) (by rwa [List.length_map])
    rw [List.getElem_map, at_index] at index
    rw [precedenceAt, leader_of_mem he ha, index, Nat.sub_add_cancel positive]

/-- Every module has one entry, with its name and its precedence. -/
theorem map_precedences (root : ModuleTree) : root.precedences.map some =
    ((modules root).map (·.1)).map fun p => (root.at? p).map fun m => (m.name, root.precedenceAt p) := by
  have whole : modules root = ((heads root).zipIdx 1).flatMap fun e =>
      (placedMembers e.1.2).map fun e' => (e.1.1 ++ e'.1, e'.2) := by
    rw [← List.flatMap_map Prod.fst fun e : Place × ModuleTree =>
      (placedMembers e.2).map fun e' => (e.1 ++ e'.1, e'.2), List.zipIdx_map_fst, modules]
  rw [precedences_eq_numbered, whole, show (0 : Int32) = .ofNat 0 from rfl, numbered_eq_zipIdx, List.zipIdx_map,
    List.flatMap_map, List.map_flatMap, List.map_flatMap, List.map_flatMap]
  refine List.flatMap_congr fun e he => ?_
  simp only [members_eq, List.map_map, Prod.map]
  refine List.map_congr_left fun e' he' => ?_
  obtain ⟨found, number⟩ := precedenceAt_of_mem_zipIdx he he'
  simp only [Function.comp_apply, found, number, Option.map_some]
  rfl

theorem leader_mem_heads (h : (root.at? p).isSome) : Place.leader p ∈ (heads root).map (·.1) := by
  obtain ⟨x, hx⟩ := Option.isSome_iff_exists.mp h
  obtain ⟨⟨g, y⟩, hg, hp⟩ := List.mem_flatMap.mp (mem_modules_iff.mpr hx)
  obtain ⟨⟨a, x'⟩, ha, same⟩ := List.mem_map.mp hp
  cases same
  rw [leader_of_mem hg ha]
  exact List.mem_map_of_mem (f := Prod.fst) hg

section Held

variable (held : root.size < 2 ^ 31)
include held

/-- In a tree that is not too large the number of a group is not changed by counting in 32 bits. -/
theorem toInt_precedenceAt (hp : (root.at? p).isSome) :
    (root.precedenceAt p).toInt = ((heads root).map (·.1)).idxOf (Place.leader p) + 1 := by
  have inside := List.idxOf_lt_length_of_mem (leader_mem_heads hp)
  have few := length_heads_le root
  rw [List.length_map] at inside
  rw [precedenceAt, Int32.toInt_ofNat_of_lt (by omega)]
  rfl

theorem precedenceAt_eq_iff (hp : (root.at? p).isSome) (hq : (root.at? q).isSome) :
    root.precedenceAt p = root.precedenceAt q ↔ Place.leader p = Place.leader q := by
  rw [← Int32.toInt_inj, toInt_precedenceAt held hp, toInt_precedenceAt held hq,
    ← List.idxOf_inj (leader_mem_heads hp)]
  omega

theorem precedenceAt_lt_of_sooner (hp : (root.at? p).isSome) (hq : (root.at? q).isSome)
    (sooner : Place.Sooner (Place.leader p) (Place.leader q)) : root.precedenceAt p < root.precedenceAt q := by
  have order : ((heads root).map (·.1)).Pairwise Place.Sooner := List.pairwise_map.mpr (pairwise_heads root)
  have hlt : ((heads root).map (·.1)).idxOf (Place.leader p) <
      ((heads root).map (·.1)).idxOf (Place.leader q) := by
    have hp' := List.idxOf_lt_length_of_mem (leader_mem_heads hp)
    have hq' := List.idxOf_lt_length_of_mem (leader_mem_heads hq)
    -- The list is in this order, so that a place which is sooner cannot stand later.
    obtain hlt | heq | hgt := Nat.lt_trichotomy (((heads root).map (·.1)).idxOf (Place.leader p))
      (((heads root).map (·.1)).idxOf (Place.leader q))
    · exact hlt
    · exact absurd ((List.idxOf_inj (leader_mem_heads hp)).mp heq) sooner.ne
    · have back := List.pairwise_iff_getElem.mp order _ _ hq' hp' hgt
      rw [List.getElem_idxOf, List.getElem_idxOf] at back
      exact absurd back sooner.asymm
  rw [Int32.lt_iff_toInt_lt, toInt_precedenceAt held hp, toInt_precedenceAt held hq]
  omega

/-- The numbers from 1 to that of the root are used. -/
theorem exists_precedenceAt_iff (n : Int32) :
    (∃ p, (root.at? p).isSome ∧ root.precedenceAt p = n) ↔ 1 ≤ n ∧ n ≤ root.precedenceAt [] := by
  have last : (root.precedenceAt []).toInt = ((heads root).map (·.1)).length := by
    rw [toInt_precedenceAt held rfl, show Place.leader [] = [] from rfl, heads, List.map_append,
      List.idxOf_append_of_notMem, List.length_append]
    · rfl
    · intro h
      obtain ⟨⟨g, x⟩, hg, rfl⟩ := List.mem_map.mp h
      exact nil_not_mem_groups hg
  rw [Int32.le_iff_toInt_le, Int32.le_iff_toInt_le, last, show (1 : Int32).toInt = 1 from rfl]
  constructor
  · rintro ⟨p, hp, rfl⟩
    have inside := List.idxOf_lt_length_of_mem (leader_mem_heads hp)
    rw [toInt_precedenceAt held hp]
    omega
  · rintro ⟨positive, bounded⟩
    have inside : n.toInt.toNat - 1 < ((heads root).map (·.1)).length := by omega
    obtain ⟨⟨g, x⟩, hg, same⟩ := List.mem_map.mp (List.getElem_mem inside)
    obtain ⟨found, leads⟩ := mem_heads_iff.mp hg
    have some : (root.at? g).isSome := by rw [found]; rfl
    refine ⟨g, some, ?_⟩
    rw [← Int32.toInt_inj, toInt_precedenceAt held some, leads, show g = _ from same,
      (nodup_heads root).idxOf_getElem]
    omega

end Held

end Numbers

/-! ### Import precedence -/

/-- **Import precedence respects the tree of imports.**  In a tree of fewer than `2 ^ 31` modules every module has
exactly one entry: entries and places of modules correspond, in their order.  Two modules have the same precedence
if and only if they belong to one group.  Whatever is below an import ranks below every module of the group that
imports it.  Of two imports of one group everything below the one that is declared first ranks below everything
that is below the other one; the imports of a module come before those of the modules that it includes, and
these one after the other.  The precedences in use are the numbers from 1 to that of the root. -/
theorem precedences_respect_imports (root : ModuleTree) (held : root.size < 2 ^ 31) :
    ∃ (places : List Place) (precedence : Place → Int32),
      places.Nodup ∧ (∀ p, p ∈ places ↔ (root.at? p).isSome) ∧
      root.precedences.map some = places.map (fun p => (root.at? p).map fun m => (m.name, precedence p)) ∧
      (∀ p ∈ places, ∀ q ∈ places, precedence p = precedence q ↔ Place.leader p = Place.leader q) ∧
      (∀ p ∈ places, ∀ p' ∈ places, ∀ i, ∀ q ∈ places, Place.leader p' = Place.leader p →
        p ++ [.imported i] <+: q → precedence q < precedence p') ∧
      (∀ p p' i j, Place.leader p = Place.leader p' → p ++ [.imported i] ≠ p' ++ [.imported j] →
        Place.Before (p ++ [.imported i]) (p' ++ [.imported j]) ∨
          Place.Before (p' ++ [.imported j]) (p ++ [.imported i])) ∧
      (∀ p p' i j, Place.Before (p ++ [.imported i]) (p' ++ [.imported j]) →
        ∀ q ∈ places, ∀ q' ∈ places, p ++ [.imported i] <+: q → p' ++ [.imported j] <+: q' →
          precedence q < precedence q') ∧
      ∀ n, (∃ p ∈ places, precedence p = n) ↔ 1 ≤ n ∧ n ≤ precedence [] := by
  have mem : ∀ p, p ∈ (modules root).map (·.1) ↔ (root.at? p).isSome := by
    intro p
    rw [List.mem_map, Option.isSome_iff_exists]
    constructor
    · rintro ⟨⟨p, x⟩, hx, rfl⟩
      exact ⟨x, mem_modules_iff.mp hx⟩
    · rintro ⟨x, hx⟩
      exact ⟨(p, x), mem_modules_iff.mpr hx, rfl⟩
  refine ⟨(modules root).map (·.1), root.precedenceAt, nodup_modules root, mem, map_precedences root, ?_⟩
  simp only [mem]
  refine ⟨fun p hp q hq => precedenceAt_eq_iff held hp hq, ?below, fun p p' i j => Place.before_total, ?declared,
    exists_precedenceAt_iff held⟩
  case below =>
    intro p hp p' hp' i q hq same inside
    obtain ⟨below, ne⟩ := Place.leader_prefix_of_imported inside
    exact precedenceAt_lt_of_sooner held hq hp' (Place.sooner_of_prefix (same ▸ below) (same ▸ ne))
  case declared =>
    intro p p' i j before q hq q' hq' inside inside'
    exact precedenceAt_lt_of_sooner held hq hq'
      (before.sooner (Place.imported_prefix_leader inside) (Place.imported_prefix_leader inside'))

/-- A module that imports another one, which imports a third, and includes a module with an import of its own. -/
def nestedImports : ModuleTree :=
  mk "main" [mk "a" [mk "deep" [] []] []] [mk "part" [mk "library" [] []] []]

/-- The import of the included module ranks below the module that includes it, and above all that this module
imports itself. -/
theorem precedences_respect_imports_nestedImports :
    nestedImports.size < 2 ^ 31 ∧
      nestedImports.precedences = [("deep", 1), ("a", 2), ("library", 3), ("main", 4), ("part", 4)] ∧
      ∃ precedence : Place → Int32, precedence [.included 0] = precedence [] ∧
        precedence [.included 0, .imported 0] < precedence [] ∧
        precedence [.imported 0, .imported 0] < precedence [.included 0, .imported 0] := by
  have held : nestedImports.size < 2 ^ 31 := by decide
  obtain ⟨places, precedence, -, mem, -, same, below, -, declared, -⟩ :=
    precedences_respect_imports nestedImports held
  have main := (mem []).mpr rfl
  have part := (mem [.included 0]).mpr rfl
  have deep := (mem [.imported 0, .imported 0]).mpr rfl
  have library := (mem [.included 0, .imported 0]).mpr rfl
  refine ⟨held, by decide, precedence, (same _ part _ main).mpr rfl, ?_, ?_⟩
  · exact below [.included 0] part [] main 0 _ library rfl List.prefix_rfl
  · exact declared [] [.included 0] 0 0 (.inl trivial) _ deep _ library ⟨[.imported 0], rfl⟩ List.prefix_rfl

end ModuleTree

end TreeQuery
