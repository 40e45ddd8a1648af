/-
The search for the next rule goes through all rules that match.

A search below a limit gives the best rule below it that matches, so that the rules which are found one
after the other, each below the one before, are those that match, from the best down to the worst
(`Mode.nextRule_enumerates`).

Design notes: the proof begins with the answer.  The rules that match, put in order, are a list that goes
strictly down, and a search with a limit finds the first element of such a list if the list holds exactly
the matching rules below the limit (`Mode.leads_of_descends`).
-/
import TreeQuery.Proofs.Ranking

namespace TreeQuery.Mode

variable {m : Mode} {d : Dispatcher} {a : Item} {c : Context}

/-- Whether a search, and then the search for the next rule below each rule that was found, gives the rules
of a list one after the other and then none. -/
inductive Leads (m : Mode) (d : Dispatcher) (a : Item) (c : Context) : Eval (Option Nat) → List Nat → Prop
  | none {x : Eval (Option Nat)} : x.outcome = .ok none → Leads m d a c x []
  | next {x : Eval (Option Nat)} {i : Nat} {rest : List Nat} :
      x.outcome = .ok (some i) → Leads m d a c (m.nextRule d i a c) rest → Leads m d a c x (i :: rest)

/-- There is only one list that a search leads through. -/
theorem Leads.unique {x : Eval (Option Nat)} {visited visited' : List Nat} (h : m.Leads d a c x visited)
    (h' : m.Leads d a c x visited') : visited = visited' := by
  induction h generalizing visited' with
  | none hx =>
    cases h' with
    | none => rfl
    | next hx' => simp [hx] at hx'
  | next hx _ ih =>
    cases h' with
    | none hx' => simp [hx] at hx'
    | next hx' rest' =>
      obtain rfl : _ = _ := by simpa [hx] using hx'
      rw [ih rest']

section

variable (made : m.Made) (ranked : m.ranked = true)
  (tested : ∀ r ∈ m.rules, ∀ e, (r.pattern.accepts d c a).outcome ≠ .error e)
include made ranked tested

/-- A search gives a rule below the limit that matches, and none that does is better. -/
theorem exists_search (limit? : Option Rule) :
    ∃ found, (m.search (m.chainsFor c.forest a) (fun r => r.pattern.accepts d c a) limit?).outcome =
        .ok found ∧
      (∀ i, found = some i → ∃ r, m.rule? i = some r ∧ Eligible limit? r ∧
        (r.pattern.accepts d c a).outcome = .ok true) ∧
      ∀ i r, m.rule? i = some r → Eligible limit? r → (r.pattern.accepts d c a).outcome = .ok true →
        m.Beaten found r := by
  obtain ⟨found, hfound⟩ : ∃ found, (m.search (m.chainsFor c.forest a)
      (fun r => r.pattern.accepts d c a) limit?).outcome = .ok found := by
    refine search_total ranked fun _ _ i _ r hr => ?_
    cases hout : (r.pattern.accepts d c a).outcome with
    | ok b => exact ⟨b, rfl⟩
    | error e => exact absurd hout (tested r (List.mem_of_getElem? hr) e)
  have filed : m.Filed := made.arranged.toFiled
  have settles := settles_of_search filed (made.wellRanked ranked).ordered hfound
  refine ⟨found, hfound, settles.accepted, fun i r hr heligible hmatch => ?_⟩
  rcases others_of_settles filed settles hr heligible with hnot | hbeaten
  · rw [hmatch] at hnot
    cases hnot
  · exact hbeaten

/-- A search below a limit leads through the matching rules below it, if they are given from the best down
to the worst. -/
theorem leads_of_descends {limit? : Option Rule} {visited : List Nat} (descends : m.Descends visited)
    (complete : ∀ i, i ∈ visited ↔ ∃ r, m.rule? i = some r ∧ Eligible limit? r ∧
      (r.pattern.accepts d c a).outcome = .ok true) :
    m.Leads d a c
      (m.search (m.chainsFor c.forest a) (fun r => r.pattern.accepts d c a) limit?) visited := by
  -- On the list.  What is left of it after the first rule holds the matching rules below that one.
  induction visited generalizing limit? with
  | nil =>
    obtain ⟨found, hfound, haccepted, -⟩ := exists_search made ranked tested limit?
    cases found with
    | none => exact .none hfound
    | some i => exact absurd ((complete i).mpr (haccepted i rfl)) List.not_mem_nil
  | cons i rest ih =>
    obtain ⟨first, descends⟩ := List.pairwise_cons.mp descends
    obtain ⟨r, hr, heligible, hmatch⟩ := (complete i).mp List.mem_cons_self
    have hfound : (m.search (m.chainsFor c.forest a) (fun r => r.pattern.accepts d c a)
        limit?).outcome = .ok (some i) := by
      obtain ⟨found, hfound, haccepted, hbest⟩ := exists_search made ranked tested limit?
      obtain ⟨j, s, rfl, hs, hnot⟩ := hbest i r hr heligible hmatch
      rcases List.mem_cons.mp ((complete j).mpr (haccepted j rfl)) with rfl | hj
      · exact hfound
      · rw [first j hj r s hr hs] at hnot
        cases hnot
    have next : m.nextRule d i a c =
        m.search (m.chainsFor c.forest a) (fun r => r.pattern.accepts d c a) (some r) := by
      rw [nextRule, hr]
    refine .next hfound (next ▸ ih descends fun j => ?_)
    constructor
    · intro hj
      obtain ⟨s, hs, -, hmatch⟩ := (complete j).mp (List.mem_cons_of_mem _ hj)
      refine ⟨s, hs, fun limit hlimit => ?_, hmatch⟩
      obtain rfl := Option.some.inj hlimit
      exact first j hj r s hr hs
    · rintro ⟨s, hs, hbelow, hmatch⟩
      have hbelow : s.isBelow r = true := hbelow r rfl
      have heligible : Eligible limit? s := fun limit hlimit =>
        Rule.isBelow_trans hbelow (heligible limit hlimit)
      rcases List.mem_cons.mp ((complete j).mpr ⟨s, hs, heligible, hmatch⟩) with rfl | hj
      · obtain rfl : r = s := Option.some.inj (hr.symm.trans hs)
        rw [Rule.not_isBelow_of_isBelow hbelow] at hbelow
        cases hbelow
      · exact hj

end

/-- **The search for the next rule goes through all rules that match.**  Let a mode be ranked and let no
pattern fail with an error when it is tested on the item.  The rules that are found one after the other,
first the best one and then each time the best one below the last, come to an end.  They are the rules whose
pattern accepts the item, each of them once, in strictly descending order, and so no more than the mode has
rules. -/
theorem nextRule_enumerates (made : m.Made) (ranked : m.ranked = true) (d : Dispatcher) (a : Item)
    (c : Context) (tested : ∀ r ∈ m.rules, ∀ e, (r.pattern.accepts d c a).outcome ≠ .error e) :
    (∃ visited, m.Leads d a c (m.bestRule d a c) visited) ∧
    ∀ visited, m.Leads d a c (m.bestRule d a c) visited →
      (∀ i, i ∈ visited ↔ ∃ r, m.rule? i = some r ∧ (r.pattern.accepts d c a).outcome = .ok true) ∧
      visited.Nodup ∧ m.Descends visited ∧ visited.length ≤ m.rules.length := by
  classical
  -- The rules that match, in the order of the chains, are a list in which each leads to the next.
  let matching : List Nat := (List.range m.rules.length).filter fun i =>
    ∃ r, m.rule? i = some r ∧ (r.pattern.accepts d c a).outcome = .ok true
  let all : List Nat := orderChain m.rules matching
  have mem (i : Nat) :
      i ∈ all ↔ ∃ r, m.rule? i = some r ∧ (r.pattern.accepts d c a).outcome = .ok true := by
    simp only [all, matching, mem_orderChain, List.mem_filter, List.mem_range, decide_eq_true_eq,
      and_iff_right_iff_imp]
    rintro ⟨r, hr, -⟩
    exact rule?_lt hr
  have perm : all.Perm matching := orderChain_perm _ _
  have nodup : all.Nodup := perm.nodup_iff.mpr (List.nodup_range.filter _)
  have descends : m.Descends all := made.arranged.descends nodup (bestFirst_orderChain _ _)
  have leads : m.Leads d a c (m.bestRule d a c) all := by
    refine leads_of_descends made ranked tested descends fun i => ?_
    simpa [Eligible] using mem i
  refine ⟨⟨all, leads⟩, fun visited hvisited => ?_⟩
  obtain rfl : visited = all := hvisited.unique leads
  refine ⟨mem, nodup, descends, ?_⟩
  calc all.length = matching.length := perm.length_eq
    _ ≤ (List.range m.rules.length).length := List.length_filter_le _ _
    _ = m.rules.length := List.length_range

/-- Of a rule for all elements and one for the elements of a name the second is found first for such an
element, then the other one, and then none. -/
theorem nextRule_enumerates_both :
    let m := (((Mode.initial .unnamed).add (.node (.ofKind .element)) .empty 1 none).2.add
      (.element "a") .empty 1 none).2.rank
    let c := Context.initial (Forest.empty.add ⟨.element, some ⟨none, .plain "a"⟩, none, [], []⟩)
    m.Made ∧ m.ranked = true ∧
      (∀ r ∈ m.rules, ∀ e, (r.pattern.accepts .none c (.node 0)).outcome ≠ .error e) ∧
      m.Leads .none (.node 0) c (m.bestRule .none (.node 0) c) [1, 0] ∧
      ∀ i, i ∈ [1, 0] ↔
        ∃ r, m.rule? i = some r ∧ (r.pattern.accepts .none c (.node 0)).outcome = .ok true := by
  intro m c
  have made : m.Made := .rank (.add _ _ _ _ (.add _ _ _ _ (.initial _)))
  have patterns : m.rules.map (·.pattern) = [.node (.ofKind .element), .element "a"] := rfl
  have tested : ∀ r ∈ m.rules, ∀ e, (r.pattern.accepts .none c (.node 0)).outcome ≠ .error e := by
    intro r hr e
    have hpattern : r.pattern ∈ m.rules.map (·.pattern) := List.mem_map_of_mem hr
    rw [patterns] at hpattern
    rcases List.mem_cons.mp hpattern with h | h
    · rw [h]
      rintro ⟨⟩
    · rw [List.mem_singleton.mp h]
      rintro ⟨⟩
  have leads : m.Leads .none (.node 0) c (m.bestRule .none (.node 0) c) [1, 0] :=
    .next rfl (.next rfl (.none rfl))
  exact ⟨made, rfl, tested, leads, ((nextRule_enumerates made rfl .none (.node 0) c tested).2 _ leads).1⟩

end TreeQuery.Mode
