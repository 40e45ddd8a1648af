/-
The built-in rules of a mode that copies texts only.

Where no rule matches, a mode that copies texts only goes down the tree from children to children and puts
out the texts that it finds.  The text of a node is found by another walk, which does not look at rules.
This module shows that, without rules, the two walks meet the same texts in the same order.

Main statements:

* `Forest.stringValue_eq_join` — the text of a node is that of the texts among its descendants, joined;
* `applyWithin_eq_deliverEach` — to apply no rules to nodes is to put out the texts at or below them;
* `applyAll_copies_texts` — what is put out for a document or an element are the texts among its
  descendants, each once, in document order, and together they are its text.

Design notes: what is put out is compared as a step (`Push.deliverEach`), so that nothing need be known of
the output; that an output takes everything is used at the end only.  Both walks carry a bound, and neither
bound is the one with which descendants are found, so `Forest.textsWithin` is shown not to depend on it.
-/
import Mathlib.Data.List.Basic
import TreeQuery.Proofs.DocumentOrder
import TreeQuery.Rule.Application

namespace TreeQuery

/-! ### Texts of a tree -/

namespace Forest

variable {f : Forest} {n m c : Nat}

/-- Whether a node and all below it make a tree of the usual form: every node is listed in one place, nodes
without content have no children, and neither documents nor attributes are children. -/
structure IsTree (f : Forest) (n : Nat) : Prop where
  owns : ∀ m, f.Inside n m → f.Owns m
  leaf : ∀ m, f.Inside n m → (f.kind m).hasContent = false → f.children m = []
  child : ∀ m, f.Inside n m → ∀ c ∈ f.children m, f.kind c ≠ .document ∧ f.kind c ≠ .attribute

theorem IsTree.of_child (h : f.IsTree n) (hc : c ∈ f.children n) : f.IsTree c where
  owns m hm := h.owns m (.child hc hm)
  leaf m hm := h.leaf m (.child hc hm)
  child m hm := h.child m (.child hc hm)

/-- It is enough to look at all nodes of a forest. -/
theorem isTree_of_forall (hf : f.Proper)
    (h : ∀ m < f.size, ((f.kind m).hasContent = false → f.children m = []) ∧
      ∀ c ∈ f.children m, f.kind c ≠ .document ∧ f.kind c ≠ .attribute) (n : Nat) : f.IsTree n where
  owns m _ := hf.owns m
  leaf m _ hkind := by
    refine List.eq_nil_iff_forall_not_mem.mpr fun c hc => ?_
    have hm := lt_size_of_mem_listed ((f.children_sublist m).subset hc)
    exact absurd hc ((h m hm).1 hkind ▸ List.not_mem_nil)
  child m _ c hc := (h m (lt_size_of_mem_listed ((f.children_sublist m).subset hc))).2 c hc

/-- Only nodes that are there have content. -/
theorem lt_size_of_hasContent (h : (f.kind n).hasContent = true) : n < f.size := by
  refine Decidable.byContradiction fun hn => ?_
  have habsent : f.data n = .absent := Array.getD_eq_getD_getElem?.trans (by
    rw [Array.getElem?_eq_none (Nat.le_of_not_lt hn)]
    rfl)
  rw [kind, habsent] at h
  cases h

/-- The texts among the descendants of a node, in document order. -/
def texts (f : Forest) (n : Nat) : List Nat := (f.descendants n).filter fun m => f.kind m = .text

/-- The texts at or below a node, in document order, down to a depth. -/
def textsWithin (f : Forest) (fuel n : Nat) : List Nat :=
  (f.subtree fuel n).filter fun m => f.kind m = .text

theorem textsWithin_succ (f : Forest) (fuel n : Nat) : f.textsWithin (fuel + 1) n =
    if f.kind n = .text then n :: (f.children n).flatMap (f.textsWithin fuel)
    else (f.children n).flatMap (f.textsWithin fuel) := by
  simp only [textsWithin, subtree, List.filter_cons, List.filter_flatMap, decide_eq_true_eq]
  rfl

theorem texts_eq_flatMap (f : Forest) (n : Nat) : f.texts n = (f.children n).flatMap (f.textsWithin n) :=
  List.filter_flatMap

/-- A depth greater than the number of the node is enough. -/
theorem textsWithin_eq {fuel fuel' : Nat} (h : n < fuel) (h' : n < fuel') :
    f.textsWithin fuel n = f.textsWithin fuel' n := by
  rw [textsWithin, textsWithin, f.subtree_eq h h']

/-- The texts below a node are those of its children. -/
theorem flatMap_textsWithin {fuel : Nat} (h : n ≤ fuel) :
    (f.children n).flatMap (f.textsWithin fuel) = f.texts n := by
  rw [texts_eq_flatMap]
  refine List.flatMap_congr fun c hc => ?_
  have := f.children_lt n c hc
  exact textsWithin_eq (by omega) this

theorem IsTree.textsWithin_of_text {fuel : Nat} (h : f.IsTree n) (hn : f.kind n = .text) :
    f.textsWithin (fuel + 1) n = [n] := by
  have hleaf := h.leaf n (.refl n) (by rw [hn]; rfl)
  rw [textsWithin_succ, if_pos hn, hleaf, List.flatMap_nil]

theorem IsTree.textsWithin_of_leaf {fuel : Nat} (h : f.IsTree n) (hn : f.kind n ≠ .text)
    (hcontent : (f.kind n).hasContent = false) : f.textsWithin (fuel + 1) n = [] := by
  rw [textsWithin_succ, if_neg hn, h.leaf n (.refl n) hcontent, List.flatMap_nil]

theorem textsWithin_of_content {fuel : Nat} (h : n ≤ fuel) (hn : (f.kind n).hasContent = true) :
    f.textsWithin (fuel + 1) n = f.texts n := by
  have hkind : f.kind n ≠ .text := fun heq => by rw [heq] at hn; cases hn
  rw [textsWithin_succ, if_neg hkind, flatMap_textsWithin h]

theorem stringValue_of_text (hn : f.kind n = .text) : f.stringValue n = (f.data n).content?.getD "" := by
  rw [stringValue, hn]
  rfl

theorem join_flatMap {α : Type} (g : α → List String) (xs : List α) :
    String.join (xs.flatMap g) = String.join (xs.map fun x => String.join (g x)) := by
  induction xs with
  | nil => rfl
  | cons x xs ih => simp [ih]

/-- The walk that finds the text of a node meets the texts among its descendants, in their order. -/
theorem textBelow_eq_join {fuel : Nat} (h : f.IsTree n) (hfuel : n < fuel) :
    f.textBelow fuel n = String.join ((f.texts n).map f.stringValue) := by
  induction fuel generalizing n with
  | zero => omega
  | succ fuel ih =>
    rw [textBelow, ← flatMap_textsWithin (Nat.le_of_lt_succ hfuel), List.map_flatMap, join_flatMap]
    refine congrArg String.join (List.map_congr_left fun c hc => ?_)
    have hlt := f.children_lt n c hc
    have htree := h.of_child hc
    have hkind := h.child n (.refl n) c hc
    obtain ⟨fuel, rfl⟩ : ∃ k, fuel = k + 1 := ⟨fuel - 1, by omega⟩
    cases hc : f.kind c with
    | document => exact absurd hc hkind.1
    | «attribute» => exact absurd hc hkind.2
    | text =>
      rw [htree.textsWithin_of_text hc, List.map_singleton, stringValue_of_text hc]
      simp
    | element =>
      rw [textsWithin_of_content (by omega) (by rw [hc]; rfl)]
      exact ih htree (by omega)
    | comment | processingInstruction =>
      rw [htree.textsWithin_of_leaf (by simp [hc]) (by rw [hc]; rfl)]
      rfl

theorem stringValue_eq_join (h : f.IsTree n) (hn : (f.kind n).hasContent = true) :
    f.stringValue n = String.join ((f.texts n).map f.stringValue) := by
  rw [stringValue, if_pos hn, textBelow_eq_join h (Nat.lt_succ_self n)]

/-- The texts below a node come in document order. -/
theorem IsTree.inOrder_texts (h : f.IsTree n) : f.InOrder (f.texts n) := by
  have hsubtree := (inOrder_subtree_of_owns h.owns (n + 1)).1
  exact hsubtree.sublist (List.filter_sublist.trans (List.sublist_cons_self _ _))

end Forest

/-! ### Steps that put out items -/

namespace Push

/-- Adds items one after the other, as far as the output takes them. -/
def deliverEach (hasOutput : Bool) (l : Location) : Sequence → Push Unit
  | [] => pure ()
  | a :: rest => do
    deliver hasOutput l a
    deliverEach hasOutput l rest

variable {hasOutput : Bool} {l : Location}

theorem log_deliver (a : Item) (o : Output) : (deliver hasOutput l a o).2.log = [] := by
  rw [deliver]
  split
  · split <;> rfl
  · rfl

theorem deliverEach_cons (a : Item) (xs : Sequence) (o : Output) :
    deliverEach hasOutput l (a :: xs) o =
      match (deliver hasOutput l a o).2.outcome with
      | .ok _ => deliverEach hasOutput l xs (deliver hasOutput l a o).1
      | .error e => ((deliver hasOutput l a o).1, .fail e) := by
  have hlog : (deliver hasOutput l a o).2.log = [] := log_deliver a o
  rcases hdeliver : deliver hasOutput l a o with ⟨o', log, r⟩
  rw [hdeliver] at hlog
  obtain rfl : log = [] := hlog
  simp only [deliverEach, bind, hdeliver]
  cases r with
  | error e => rfl
  | ok _ => simp

theorem deliverEach_singleton (a : Item) : deliverEach hasOutput l [a] = deliver hasOutput l a := by
  funext o
  have hlog : (deliver hasOutput l a o).2.log = [] := log_deliver a o
  rcases hdeliver : deliver hasOutput l a o with ⟨o', log, r⟩
  rw [hdeliver] at hlog
  obtain rfl : log = [] := hlog
  rw [deliverEach_cons, hdeliver]
  cases r <;> rfl

/-- Nothing that is put out comes with a warning. -/
theorem log_deliverEach (xs : Sequence) (o : Output) : (deliverEach hasOutput l xs o).2.log = [] := by
  induction xs generalizing o with
  | nil => rfl
  | cons a xs ih =>
    rw [deliverEach_cons]
    split
    · exact ih _
    · rfl

theorem deliverEach_append (xs ys : Sequence) (o : Output) :
    deliverEach hasOutput l (xs ++ ys) o =
      match (deliverEach hasOutput l xs o).2.outcome with
      | .ok _ => deliverEach hasOutput l ys (deliverEach hasOutput l xs o).1
      | .error e => ((deliverEach hasOutput l xs o).1, .fail e) := by
  induction xs generalizing o with
  | nil => rfl
  | cons a xs ih =>
    rw [List.cons_append, deliverEach_cons, deliverEach_cons]
    cases (deliver hasOutput l a o).2.outcome with
    | error e => rfl
    | ok _ => exact ih _

/-- Items that are put out for each of several items are put out one after the other. -/
theorem forEachFrom_eq_deliverEach {α : Type} {step : Nat → Item → Push Unit} {item : α → Item}
    {g : α → Sequence} {xs : List α} (h : ∀ i, ∀ x ∈ xs, step i (item x) = deliverEach hasOutput l (g x))
    (before : Nat) :
    (ItemStream.ofList (xs.map item)).forEachFrom step before [] =
      deliverEach hasOutput l (xs.flatMap g) := by
  induction xs generalizing before with
  | nil => rfl
  | cons x xs ih =>
    funext o
    rw [List.flatMap_cons, deliverEach_append, List.map_cons, ItemStream.ofList, ItemStream.forEachFrom,
      h before x List.mem_cons_self]
    simp only [log_deliverEach]
    cases hout : (deliverEach hasOutput l (g x) o).2.outcome with
    | error e => rfl
    | ok _ => exact congrFun (ih (fun i y hy => h i y (List.mem_cons_of_mem x hy)) (before + 1)) _

end Push

/-- Whether an output takes so many more items. -/
structure Output.Takes (o : Output) (count : Nat) : Prop where
  free : o.inUse = false
  room : ∀ limit, o.limit? = some limit → o.entries.size + count ≤ limit

/-- An output that takes all of them holds them afterwards, and nothing else is new. -/
theorem Push.deliverEach_of_takes {l : Location} {xs : Sequence} {o : Output} (h : o.Takes xs.length) :
    deliverEach true l xs o =
      ({ o with entries := o.entries ++ (xs.map fun a => (a, l)).toArray }, pure ()) := by
  induction xs generalizing o with
  | nil => simp [deliverEach, pure]
  | cons a xs ih =>
    have hroom : o.limit? ≠ some o.entries.size := fun heq => by
      have := h.room _ heq
      simp only [List.length_cons] at this
      omega
    have hdeliver : deliver true l a o = ({ o with entries := o.entries.push (a, l) }, pure ()) := by
      simp [deliver, Output.append, h.free, hroom]
    have htakes : Output.Takes { o with entries := o.entries.push (a, l) } xs.length := by
      refine ⟨h.free, fun limit hlimit => ?_⟩
      have := h.room limit hlimit
      simp only [List.length_cons] at this
      simp only [Array.size_push]
      omega
    rw [deliverEach_cons, hdeliver]
    refine (ih htakes).trans ?_
    simp

/-! ### Modes without rules -/

/-- Whether a mode leaves every item to the copying of texts: if it is declared at all, it copies texts only
and was ranked without rules. -/
def RuleSet.CopiesTexts (rules : RuleSet) (mode : ModeName) : Prop :=
  ∀ m, rules.mode? mode = some m → m.rules = [] ∧ m.noMatch = .textOnlyCopy ∧ m.ranked = true

section Application

variable {d : Dispatcher} {mode : ModeName} {l : Location} {c : Context}

/-- Without rules none is found. -/
theorem Mode.bestRule_of_no_rules {m : Mode} (rules : m.rules = []) (ranked : m.ranked = true)
    (d : Dispatcher) (a : Item) (c : Context) : m.bestRule d a c = pure none := by
  have chain (test : Rule → Eval Bool) (is : List Nat) :
      m.searchChain test none none is = pure none := by
    induction is with
    | nil => rfl
    | cons i is ih => simpa [searchChain, rule?, rules] using ih
  have chains (test : Rule → Eval Bool) (iss : List (List Nat)) :
      m.searchChains test none none iss = pure none := by
    induction iss with
    | nil => rfl
    | cons is iss ih =>
      rw [searchChains, chain]
      exact ih
  rw [bestRule, search, if_pos ranked, chains]
  rfl

/-- Where there are no rules every item is left to the copying of texts. -/
theorem applyWithin_succ (h : (c.rules?.getD .empty).CopiesTexts mode) (levels : Nat) (xs : Sequence) :
    applyWithin d mode l c (levels + 1) xs =
      (ItemStream.ofList xs).forEach fun _ a =>
        NoMatch.textOnlyCopy.process (fun ns => applyWithin d mode l c levels (ns.map .node)) mode l c a := by
  rw [applyWithin]
  refine congrArg _ (funext fun before => funext fun a => ?_)
  cases hm : (c.rules?.getD .empty).mode? mode with
  | none => rfl
  | some m =>
    obtain ⟨rules, noMatch, ranked⟩ := h m hm
    simp only [Mode.bestRule_of_no_rules rules ranked, noMatch]
    rfl

/-- To apply no rules to nodes is to put out the texts at or below them, by induction on the levels: what a
node lists was made before it. -/
theorem applyWithin_eq_deliverEach (h : (c.rules?.getD .empty).CopiesTexts mode) {levels : Nat}
    {ns : List Nat} (htree : ∀ n ∈ ns, c.forest.IsTree n ∧ c.forest.kind n ≠ .attribute)
    (hlevels : ∀ n ∈ ns, n < levels) :
    applyWithin d mode l c levels (ns.map .node) =
      .deliverEach c.hasOutput l ((ns.flatMap (c.forest.textsWithin levels)).map .node) := by
  induction levels generalizing ns with
  | zero =>
    obtain rfl : ns = [] := List.eq_nil_iff_forall_not_mem.mpr fun n hn => by
      have := hlevels n hn
      omega
    rfl
  | succ levels ih =>
    have below {n : Nat} (hn : n ∈ ns) : applyWithin d mode l c levels ((c.forest.children n).map .node) =
        .deliverEach c.hasOutput l ((c.forest.texts n).map .node) := by
      have hlt := hlevels n hn
      rw [← Forest.flatMap_textsWithin (Nat.le_of_lt_succ hlt)]
      refine ih (fun m hm => ?_) fun m hm => ?_
      · exact ⟨(htree n hn).1.of_child hm, ((htree n hn).1.child n (.refl n) m hm).2⟩
      · have := c.forest.children_lt _ _ hm
        omega
    -- At a document or an element the walk goes on one level below; all other nodes are put out or skipped.
    have step (n : Nat) (hn : n ∈ ns) :
        NoMatch.textOnlyCopy.process (fun ms => applyWithin d mode l c levels (ms.map .node)) mode l c
            (.node n) =
          .deliverEach c.hasOutput l ((c.forest.textsWithin (levels + 1) n).map .node) := by
      obtain ⟨tree, hattribute⟩ := htree n hn
      have hlt := hlevels n hn
      cases hkind : c.forest.kind n with
      | document | element =>
        rw [Forest.textsWithin_of_content (by omega) (by rw [hkind]; rfl), ← below hn]
        simp only [NoMatch.process, hkind]
      | text =>
        rw [tree.textsWithin_of_text hkind, List.map_singleton, Push.deliverEach_singleton]
        simp only [NoMatch.process, hkind]
      | «attribute» => exact absurd hkind hattribute
      | comment | processingInstruction =>
        rw [tree.textsWithin_of_leaf (by simp [hkind]) (by rw [hkind]; rfl)]
        simp only [NoMatch.process, hkind]
        rfl
    rw [applyWithin_succ h, List.map_flatMap]
    exact Push.forEachFrom_eq_deliverEach (fun _ => step) 0

/-- **Texts are copied.**  Where a mode is not declared, or has no rules and copies texts only, to apply its
rules to a document or an element puts out the texts among its descendants: each once, in document order,
and together they are the text of the node. -/
theorem applyAll_copies_texts (d : Dispatcher) (mode : ModeName) (l : Location) (c : Context) (o : Output)
    (n : Nat) (hn : (c.forest.kind n).hasContent = true) (htree : c.forest.IsTree n)
    (hmode : (c.rules?.getD .empty).CopiesTexts mode) (houtput : c.hasOutput = true)
    (htakes : o.Takes (c.forest.texts n).length) :
    applyAll d [.node n] mode l c o =
      ({ o with entries := o.entries ++ ((c.forest.texts n).map fun m => (Item.node m, l)).toArray },
        pure ()) ∧
      (c.forest.texts n).Pairwise (fun a b => a ≠ b ∧ c.forest.order a b = .ok .lt) ∧
      String.join ((c.forest.texts n).map c.forest.stringValue) = c.forest.stringValue n := by
  refine ⟨?_, ?_, (Forest.stringValue_eq_join htree hn).symm⟩
  · have hsize : n < c.forest.size + 1 := Nat.lt_succ_of_lt (Forest.lt_size_of_hasContent hn)
    have hattribute : c.forest.kind n ≠ .attribute := fun heq => by rw [heq] at hn; cases hn
    have htrees : ∀ m ∈ [n], c.forest.IsTree m ∧ c.forest.kind m ≠ .attribute :=
      List.forall_mem_singleton.mpr ⟨htree, hattribute⟩
    have happly := applyWithin_eq_deliverEach (d := d) (l := l) hmode htrees (List.forall_mem_singleton.mpr hsize)
    rw [List.flatMap_singleton, Forest.textsWithin_of_content (Nat.le_of_lt_succ hsize) hn, houtput] at happly
    rw [applyAll, ← List.map_singleton (f := Item.node), happly,
      Push.deliverEach_of_takes (by rwa [List.length_map]), List.map_map]
    rfl
  · exact htree.inOrder_texts.imp fun h => ⟨h.ne, h.order_eq_lt⟩

/-- An element with a comment between two texts, one of them in an element, in a mode that is declared and
has no rules. -/
theorem applyAll_copies_texts_beside_comment :
    let f : Forest := ((((Forest.empty.add ⟨.text, none, some "x", [], []⟩).add
      ⟨.element, some ⟨none, .plain "a"⟩, none, [], [0]⟩).add ⟨.comment, none, some "z", [], []⟩).add
      ⟨.text, none, some "y", [], []⟩).add ⟨.element, some ⟨none, .plain "r"⟩, none, [], [1, 2, 3]⟩
    let c := ((Context.initial f).withOutput).withRules ⟨[(Mode.initial .unnamed).rank], 0⟩
    f.IsTree 4 ∧ applyAll .none [.node 4] .unnamed .unknown c .initial =
      (⟨#[(.node 0, .unknown), (.node 3, .unknown)], none, false⟩, pure ()) ∧ f.stringValue 4 = "xy" := by
  intro f c
  have htree : f.IsTree 4 := Forest.isTree_of_forall (by decide) (by decide) 4
  have hmode : (c.rules?.getD .empty).CopiesTexts .unnamed := by
    rintro m ⟨⟩
    exact ⟨rfl, rfl, rfl⟩
  have hcopied := applyAll_copies_texts .none .unnamed .unknown c .initial 4 rfl htree hmode rfl
    ⟨rfl, fun _ h => absurd h (by simp [Output.initial])⟩
  exact ⟨htree, hcopied.1, hcopied.2.2.symm⟩

end Application

end TreeQuery
