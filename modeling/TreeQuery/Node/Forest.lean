/-
Forests of nodes.

A forest holds nodes in the order in which they were made; a node is named by its place in that
order.  Nodes are made bottom-up: a node lists attributes and children that exist already, so
every link points to an earlier node (`Forest.links`).  The same node may be listed by several
others; its parent is the one that was made first.

Main statements:

* `Forest.listed_lt` — what a node lists was made before it;
* `Forest.parent?_eq_some_iff` — the parent of a node is the first node that lists it.

Design notes: nothing is cached, so that a forest is determined by what its nodes list.  Searches
through the tree take the number of a node, or the size of the forest, as their bound, which the
direction of the links makes large enough.
-/
import TreeQuery.Name
import TreeQuery.Node.Kind
import TreeQuery.Text.Quoted
import TreeQuery.Value.Basic

namespace TreeQuery

/-- The name of a node, with the abbreviation of its namespace that was used for it. -/
structure NodeName where
  alias? : Option String
  name : Name
  deriving DecidableEq, Repr

/-- What is known of one node. -/
structure NodeData where
  kind : NodeKind
  name? : Option NodeName
  content? : Option String
  attributes : List Nat
  children : List Nat
  deriving DecidableEq, Repr

namespace NodeData

/-- Everything that a node lists: its attributes, then its children. -/
def listed (d : NodeData) : List Nat := d.attributes ++ d.children

/-- Stands in for a node that a forest does not have. -/
def absent : NodeData := ⟨.text, none, none, [], []⟩

end NodeData

/-- Nodes in the order in which they were made. -/
structure Forest where
  nodes : Array NodeData
  links : ∀ (i : Nat) (h : i < nodes.size), ∀ c ∈ nodes[i].listed, c < i

namespace Forest

/-- No nodes. -/
def empty : Forest := ⟨#[], fun _ h => absurd h (Nat.not_lt_zero _)⟩

instance : Inhabited Forest := ⟨empty⟩

/-- How many nodes there are. -/
def size (f : Forest) : Nat := f.nodes.size

/-- The data of a node. -/
def data (f : Forest) (n : Nat) : NodeData := f.nodes.getD n .absent

/-- Keeps only links to nodes that exist. -/
def restrict (f : Forest) (d : NodeData) : NodeData :=
  { d with
    attributes := d.attributes.filter (· < f.size)
    children := d.children.filter (· < f.size) }

theorem lt_of_mem_restrict {f : Forest} {d : NodeData} {c : Nat}
    (h : c ∈ (f.restrict d).listed) : c < f.size := by
  simp only [NodeData.listed, restrict, List.mem_append, List.mem_filter, decide_eq_true_eq] at h
  rcases h with h | h <;> exact h.2

/-- Makes a new node; its number is the size of the forest before. -/
def add (f : Forest) (d : NodeData) : Forest where
  nodes := f.nodes.push (f.restrict d)
  links := by
    intro i h c hc
    simp only [Array.size_push] at h
    by_cases hi : i < f.nodes.size
    · rw [Array.getElem_push_lt hi] at hc
      exact f.links i hi c hc
    · obtain rfl : i = f.nodes.size := by omega
      rw [Array.getElem_push_eq] at hc
      exact lt_of_mem_restrict hc

/-- The kind of a node. -/
def kind (f : Forest) (n : Nat) : NodeKind := (f.data n).kind

/-- The name of a node, for the kinds that have one. -/
def name? (f : Forest) (n : Nat) : Option Name := (f.data n).name?.map (·.name)

/-- The attributes of a node. -/
def attributes (f : Forest) (n : Nat) : List Nat := (f.data n).attributes

/-- The children of a node. -/
def children (f : Forest) (n : Nat) : List Nat := (f.data n).children

/-- The attributes and then the children of a node. -/
def listed (f : Forest) (n : Nat) : List Nat := (f.data n).listed

theorem listed_lt {f : Forest} {n c : Nat} (h : c ∈ f.listed n) : c < n := by
  unfold listed data at h
  by_cases hn : n < f.nodes.size
  · rw [Array.getD_eq_getD_getElem?, Array.getElem?_eq_getElem hn] at h
    exact f.links n hn c h
  · rw [Array.getD_eq_getD_getElem?, Array.getElem?_eq_none (by omega)] at h
    simp [NodeData.listed, NodeData.absent] at h

/-- The first of `count` nodes from `start` on that lists the given node. -/
def findLister (f : Forest) (n : Nat) : Nat → Nat → Option Nat
  | 0, _ => none
  | count + 1, start =>
    if (f.listed start).contains n then some start else findLister f n count (start + 1)

/-- The parent of a node: the first node made that lists it. -/
def parent? (f : Forest) (n : Nat) : Option Nat :=
  f.findLister n (f.size - (n + 1)) (n + 1)

theorem findLister_eq_some_iff {f : Forest} {n p : Nat} {count start : Nat} :
    f.findLister n count start = some p ↔
      start ≤ p ∧ p < start + count ∧ n ∈ f.listed p ∧
        ∀ q, start ≤ q → q < p → n ∉ f.listed q := by
  induction count generalizing start with
  | zero =>
    simp only [findLister, Nat.add_zero]
    constructor
    · intro h; simp at h
    · rintro ⟨h1, h2, _⟩; omega
  | succ count ih =>
    simp only [findLister]
    by_cases hs : (f.listed start).contains n = true
    · rw [if_pos hs]
      have hmem : n ∈ f.listed start := by simpa using hs
      constructor
      · intro h
        obtain rfl := Option.some.inj h
        exact ⟨Nat.le_refl _, by omega, hmem, fun q h1 h2 => by omega⟩
      · rintro ⟨h1, _, _, h4⟩
        by_cases hp : start = p
        · rw [hp]
        · exact absurd hmem (h4 start (Nat.le_refl _) (by omega))
    · rw [if_neg hs, ih]
      have hmem : n ∉ f.listed start := by simpa using hs
      constructor
      · rintro ⟨h1, h2, h3, h4⟩
        refine ⟨by omega, by omega, h3, fun q hq1 hq2 => ?_⟩
        by_cases hq : q = start
        · rw [hq]; exact hmem
        · exact h4 q (by omega) hq2
      · rintro ⟨h1, h2, h3, h4⟩
        have hp : start ≠ p := fun h => hmem (h ▸ h3)
        exact ⟨by omega, by omega, h3, fun q hq1 hq2 => h4 q (by omega) hq2⟩

theorem lt_size_of_mem_listed {f : Forest} {n c : Nat} (h : c ∈ f.listed n) : n < f.size := by
  by_cases hn : n < f.nodes.size
  · exact hn
  · unfold listed data at h
    rw [Array.getD_eq_getD_getElem?, Array.getElem?_eq_none (by omega)] at h
    simp [NodeData.listed, NodeData.absent] at h

theorem parent?_eq_some_iff {f : Forest} {n p : Nat} :
    f.parent? n = some p ↔ n ∈ f.listed p ∧ ∀ q < p, n ∉ f.listed q := by
  unfold parent?
  rw [findLister_eq_some_iff]
  constructor
  · rintro ⟨_, _, h3, h4⟩
    refine ⟨h3, fun q hq hmem => ?_⟩
    exact h4 q (by have := listed_lt hmem; omega) hq hmem
  · rintro ⟨h1, h2⟩
    have hlt := listed_lt h1
    have hsize := lt_size_of_mem_listed h1
    exact ⟨by omega, by omega, h1, fun q _ hq => h2 q hq⟩

/-- The ancestors of a node, nearest first, at most `fuel` of them. -/
def climb (f : Forest) : Nat → Nat → List Nat
  | 0, _ => []
  | fuel + 1, n =>
    match f.parent? n with
    | none => []
    | some p => p :: climb f fuel p

/-- The ancestors of a node, nearest first. -/
def ancestors (f : Forest) (n : Nat) : List Nat := f.climb f.size n

/-- A node and everything below it that is no attribute, in document order, down to a depth. -/
def subtree (f : Forest) : Nat → Nat → List Nat
  | 0, _ => []
  | fuel + 1, n => n :: (f.children n).flatMap (subtree f fuel)

/-- The nodes below a node, in document order. -/
def descendants (f : Forest) (n : Nat) : List Nat := (f.children n).flatMap (f.subtree n)

/-- A node, its attributes and everything below it, in document order, down to a depth. -/
def listing (f : Forest) : Nat → Nat → List Nat
  | 0, _ => []
  | fuel + 1, n => n :: (f.listed n).flatMap (listing f fuel)

/-- A node with everything below it, attributes included, in document order. -/
def preorder (f : Forest) (n : Nat) : List Nat := f.listing (n + 1) n

/-- The nodes that a walk has met: for every node whether it is among them, and their list, the
latest first. -/
structure Visited where
  marks : Array Bool
  latestFirst : List Nat

/-- Walks on through a node, its attributes and everything below it, down to a depth.  A node that was
met before is passed over with all that is below it, since that was met then. -/
def visit (f : Forest) : Nat → Visited → Nat → Visited
  | 0, v, _ => v
  | fuel + 1, ⟨marks, met⟩, n =>
    if marks.getD n true then ⟨marks, met⟩
    else (f.listed n).foldl (visit f fuel) ⟨marks.set! n true, n :: met⟩

/-- The nodes of several trees in document order, tree after tree, each node once.  These are the nodes
of the trees' `preorder` lists, found without going through a part twice that is listed twice. -/
def documentOrder (f : Forest) (roots : List Nat) : List Nat :=
  (roots.foldl (f.visit f.size) ⟨Array.replicate f.size false, []⟩).latestFirst.reverse

/-- The texts directly below a node or inside the elements below it, down to a depth. -/
def textBelow (f : Forest) : Nat → Nat → String
  | 0, _ => ""
  | fuel + 1, n =>
    String.join ((f.children n).map fun c =>
      match f.kind c with
      | .text => (f.data c).content?.getD ""
      | .element => textBelow f fuel c
      | _ => "")

/-- The text of a node: its own content, or all texts inside it. -/
def stringValue (f : Forest) (n : Nat) : String :=
  if (f.kind n).hasContent then f.textBelow (n + 1) n else (f.data n).content?.getD ""

/-- The typed value of a node.  No schema is known, so it is untyped, except that comments and
processing instructions have plain text. -/
def typedValue (f : Forest) (n : Nat) : List Value :=
  match f.kind n with
  | .comment => [.string (f.stringValue n)]
  | .processingInstruction => [.string (f.stringValue n)]
  | _ => [.untyped (f.stringValue n)]

/-- How a node is shown in a message. -/
def describe (f : Forest) (n : Nat) : String :=
  let d := f.data n
  let name := match d.name? with
    | some q => ", name: " ++ quoted q.name.localPart
    | none => ""
  let content := match d.content? with
    | some c => ", value: " ++ quoted c
    | none => ""
  "SimpleNode \x7b kind: " ++ d.kind.label ++ name ++ content ++ " \x7d"

end Forest

end TreeQuery
