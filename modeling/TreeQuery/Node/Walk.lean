/-
Walks along axes.

`Axis.nodes` lists the nodes on an axis in document order.  A `Walk` hands out the same nodes one at a
time, by one machine for all axes: it keeps lists of nodes that it has begun, and on the descendant axes
it opens a node only when it has come to it.

Main statements:

* `Walk.left_of_next?` — a step hands out the first of the nodes that are left, and leaves the others;
* `Axis.left_start` — at the start of a walk the nodes on its axis are left;
* `Axis.drain_walk` — a walk that is drained gives exactly the listed nodes.

Design notes: what is left of a walk is a list (`Walk.left`), although the machine holds only those nodes
whose parents it has opened.  Every step makes the list shorter, and that is why a walk ends.
-/
import TreeQuery.Node.Test
import TreeQuery.Sequence.Stream

namespace TreeQuery

namespace Forest

/-- Whether `t` gives, down to a depth, a node and then what it gives for each of the nodes in a list of it. -/
structure Spreads (g : Nat → List Nat) (t : Nat → Nat → List Nat) : Prop where
  zero : ∀ n, t 0 n = []
  succ : ∀ fuel n, t (fuel + 1) n = n :: (g n).flatMap (t fuel)

/-- Every depth that is greater than the number of a node reaches all that is below it. -/
theorem Spreads.depth_eq {g : Nat → List Nat} {t : Nat → Nat → List Nat} (h : Spreads g t)
    (earlier : ∀ n, ∀ c ∈ g n, c < n) {fuel fuel' n : Nat} (hn : n < fuel) (hn' : n < fuel') :
    t fuel n = t fuel' n := by
  induction fuel generalizing fuel' n with
  | zero => omega
  | succ fuel ih =>
    obtain ⟨fuel', rfl⟩ : ∃ k, fuel' = k + 1 := ⟨fuel' - 1, by omega⟩
    have deeper : ∀ c ∈ g n, t fuel c = t fuel' c := by
      intro c hc
      have hlt : c < n := earlier n c hc
      exact ih (by omega) (by omega)
    rw [h.succ, h.succ, List.flatMap_def, List.flatMap_def, List.map_congr_left deeper]

theorem spreads_subtree (f : Forest) : Spreads f.children f.subtree := ⟨fun _ => rfl, fun _ _ => rfl⟩

theorem spreads_listing (f : Forest) : Spreads f.listed f.listing := ⟨fun _ => rfl, fun _ _ => rfl⟩

theorem children_lt (f : Forest) (n : Nat) : ∀ c ∈ f.children n, c < n :=
  fun _ hc => listed_lt (List.mem_append_right _ hc)

theorem subtree_eq (f : Forest) {fuel fuel' n : Nat} (h : n < fuel) (h' : n < fuel') :
    f.subtree fuel n = f.subtree fuel' n :=
  (spreads_subtree f).depth_eq f.children_lt h h'

end Forest

/-- A walk in progress. -/
structure Walk where
  /-- A node that comes before everything else. -/
  pending? : Option Nat
  /-- What is left of the lists that were begun, the latest first. -/
  levels : List (List Nat)
  /-- Whether every node is followed by its children. -/
  deep : Bool
  deriving DecidableEq, Repr

namespace Walk

variable {f : Forest} {w w' : Walk} {n : Nat}

/-- Hands out a node; a deep walk goes on with its children. -/
def visit (f : Forest) (w : Walk) (n : Nat) : Nat × Walk :=
  (n, if w.deep then { w with levels := f.children n :: w.levels } else w)

/-- The next node of the latest list, and the walk after it; a list that has come to its end is dropped. -/
def nextListed (f : Forest) (deep : Bool) : List (List Nat) → Option (Nat × Walk)
  | [] => none
  | [] :: levels => nextListed f deep levels
  | (n :: level) :: levels => some (visit f ⟨none, level :: levels, deep⟩ n)

/-- The next node, and the walk after it. -/
def next? (f : Forest) (w : Walk) : Option (Nat × Walk) :=
  match w.pending? with
  | some n => some (visit f { w with pending? := none } n)
  | none => nextListed f w.deep w.levels

/-- What comes of a node: the node itself, and in a deep walk everything below it. -/
def reach (f : Forest) (deep : Bool) (n : Nat) : List Nat := if deep then n :: f.descendants n else [n]

/-- The nodes that a walk has still to hand out, in their order. -/
def left (f : Forest) (w : Walk) : List Nat :=
  (w.pending?.toList ++ w.levels.flatten).flatMap (reach f w.deep)

theorem reach_children (f : Forest) (n : Nat) :
    (f.children n).flatMap (reach f true) = f.descendants n := by
  have opened : ∀ c ∈ f.children n, reach f true c = f.subtree n c := by
    intro c hc
    exact f.subtree_eq (Nat.lt_succ_self c) (f.children_lt n c hc)
  rw [Forest.descendants, List.flatMap_def, List.flatMap_def, List.map_congr_left opened]

/-- A node that is handed out, and what the walk then has left of it, are all that comes of it. -/
theorem left_visit (f : Forest) (levels : List (List Nat)) (deep : Bool) (n : Nat) :
    n :: left f (visit f ⟨none, levels, deep⟩ n).2 =
      reach f deep n ++ levels.flatten.flatMap (reach f deep) := by
  cases deep with
  | false => rfl
  | true =>
    simp only [visit, left, if_true, Option.toList_none, List.nil_append, List.flatten_cons,
      List.flatMap_append, reach_children, reach, List.cons_append]

theorem left_of_nextListed {deep : Bool} {levels : List (List Nat)}
    (h : nextListed f deep levels = some (n, w)) :
    levels.flatten.flatMap (reach f deep) = n :: w.left f := by
  induction levels with
  | nil => cases h
  | cons level levels ih =>
    cases level with
    | nil => exact ih h
    | cons m level =>
      obtain ⟨rfl, rfl⟩ := Prod.mk.inj (Option.some.inj h)
      exact (left_visit f (level :: levels) deep m).symm

theorem flatten_of_nextListed {deep : Bool} {levels : List (List Nat)}
    (h : nextListed f deep levels = none) : levels.flatten = [] := by
  induction levels with
  | nil => rfl
  | cons level levels ih =>
    cases level with
    | nil => exact ih h
    | cons m level => cases h

/-- **A step of a walk** hands out the first of the nodes that are left, and leaves the others. -/
theorem left_of_next? (h : w.next? f = some (n, w')) : w.left f = n :: w'.left f := by
  obtain ⟨pending?, levels, deep⟩ := w
  cases pending? with
  | none => exact left_of_nextListed h
  | some m =>
    obtain ⟨rfl, rfl⟩ := Prod.mk.inj (Option.some.inj h)
    exact (left_visit f levels deep m).symm

/-- A walk does not end before nothing is left. -/
theorem left_of_ended (h : w.next? f = none) : w.left f = [] := by
  obtain ⟨pending?, levels, deep⟩ := w
  cases pending? with
  | none =>
    have hnil : levels.flatten = [] := flatten_of_nextListed h
    rw [left, hnil]
    rfl
  | some m => cases h

theorem length_left_lt (h : w.next? f = some (n, w')) : (w'.left f).length < (w.left f).length := by
  rw [left_of_next? h]
  exact Nat.lt_succ_self _

/-- What holds of walks that have ended, and of a walk if it holds after its next step, holds of all. -/
theorem induct_next {P : Walk → Prop} (ended : ∀ w, w.next? f = none → P w)
    (step : ∀ w n w', w.next? f = some (n, w') → P w' → P w) (w : Walk) : P w := by
  cases h : w.next? f with
  | none => exact ended w h
  | some found =>
    have := length_left_lt h
    exact step w found.1 found.2 h (induct_next ended step found.2)
termination_by (w.left f).length

/-- The nodes that are left, one at a time. -/
@[semireducible]
def stream (f : Forest) (w : Walk) : ItemStream :=
  match h : w.next? f with
  | none => .done
  | some (n, w') =>
    have := length_left_lt h
    .item (.node n) fun _ => stream f w'
termination_by (w.left f).length

theorem stream_of_ended (h : w.next? f = none) : w.stream f = .done := by
  rw [stream]
  split
  · rfl
  · next found => cases h.symm.trans found

theorem stream_of_next? (h : w.next? f = some (n, w')) :
    w.stream f = .item (.node n) fun _ => w'.stream f := by
  rw [stream]
  split
  · next ended => cases h.symm.trans ended
  · next found =>
    cases h.symm.trans found
    rfl

theorem drain_stream (f : Forest) (w : Walk) :
    (w.stream f).drain = ⟨[], .ok ((w.left f).map .node)⟩ := by
  induction w using induct_next (f := f) with
  | ended w h =>
    rw [stream_of_ended h, left_of_ended h]
    rfl
  | step w n w' h ih =>
    rw [stream_of_next? h, left_of_next? h, ItemStream.drain_item, ih]
    rfl

end Walk

namespace Axis

/-- The nodes on an axis from a node, in document order. -/
def nodes (a : Axis) (f : Forest) (n : Nat) : List Nat :=
  match a with
  | .child => f.children n
  | .attribute => f.attributes n
  | .self => [n]
  | .parent => (f.parent? n).toList
  | .descendant => f.descendants n
  | .descendantOrSelf => n :: f.descendants n
  | .ancestor => (f.ancestors n).reverse

/-- A walk along an axis before its first step.  The way to the ancestors has to be gone to its end and
turned round; all other nodes are looked up when they are needed. -/
def start (a : Axis) (f : Forest) (n : Nat) : Walk :=
  match a with
  | .child => ⟨none, [f.children n], false⟩
  | .attribute => ⟨none, [f.attributes n], false⟩
  | .self => ⟨some n, [], false⟩
  | .parent => ⟨f.parent? n, [], false⟩
  | .descendant => ⟨none, [f.children n], true⟩
  | .descendantOrSelf => ⟨some n, [], true⟩
  | .ancestor => ⟨none, [(f.ancestors n).reverse], false⟩

/-- The nodes on an axis, one at a time. -/
def walk (a : Axis) (f : Forest) (n : Nat) : ItemStream := (a.start f n).stream f

theorem left_start (a : Axis) (f : Forest) (n : Nat) : (a.start f n).left f = a.nodes f n := by
  have shallow (ns : List Nat) : ns.flatMap (Walk.reach f false) = ns := List.flatMap_singleton' ns
  cases a with
  | descendant => simp [start, Walk.left, nodes, Walk.reach_children]
  | descendantOrSelf => simp [start, Walk.left, nodes, Walk.reach]
  | _ => simp [start, Walk.left, nodes, shallow]

theorem drain_walk (a : Axis) (f : Forest) (n : Nat) :
    (a.walk f n).drain = ⟨[], .ok ((a.nodes f n).map .node)⟩ := by
  rw [walk, Walk.drain_stream, left_start]

end Axis

end TreeQuery
