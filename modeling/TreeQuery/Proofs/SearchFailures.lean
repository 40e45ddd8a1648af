/-
Searches that fail before they come to the best rule.

The chains of an item are searched one after the other, and each of them from its best rule down until a
rule matches or is no better than what an earlier chain gave.  So a rule of an earlier chain is tested
before a better one of a later chain, and if its test fails, the search fails (`Mode.Hinders`).  There is no
other way to miss the best rule:

* `Mode.bestRule_of_first` — where a rule matches and no better one does, a search gives this rule, unless
  rules hinder it; and then it fails with the error of one of them.

Design notes: a rule that hinders is described by the table and the tests alone, not by a run of the search.
That a search fails at such a rule follows from what a search that succeeds has settled; the other direction
looks at where a search fails (`Mode.exists_stop_of_searchChains`).
-/
import TreeQuery.Proofs.Ranking

namespace TreeQuery.Mode

variable {m : Mode} {test : Rule → Eval Bool} {limit? : Option Rule} {chains : List (List Nat)}

/-! ### What a search gives is in the chains -/

theorem mem_of_searchChain {best? : Option Nat} {chain : List Nat} {i : Nat}
    (h : (m.searchChain test limit? best? chain).outcome = .ok (some i)) :
    best? = some i ∨ i ∈ chain ∧ ∃ r, m.rule? i = some r := by
  induction chain with
  | nil => exact .inl (by simpa [searchChain] using h)
  | cons j rest ih =>
    have turn := m.turn_of_searchChain test limit? best? j rest
    rw [h] at turn
    generalize hfound : Except.ok (some i) = outcome at turn
    cases turn with
    | passes => exact (ih hfound.symm).imp_right (.imp_left (List.mem_cons_of_mem j))
    | stops => exact .inl (Except.ok.inj hfound).symm
    | @finds r hr =>
      obtain rfl : i = j := Option.some.inj (Except.ok.inj hfound)
      exact .inr ⟨List.mem_cons_self, r, hr⟩
    | fails => cases hfound

theorem mem_of_searchChains {best? : Option Nat} {i : Nat}
    (h : (m.searchChains test limit? best? chains).outcome = .ok (some i)) :
    best? = some i ∨ i ∈ chains.flatten ∧ ∃ r, m.rule? i = some r := by
  induction chains generalizing best? with
  | nil => exact .inl (by simpa [searchChains] using h)
  | cons chain rest ih =>
    obtain ⟨better?, hchain, h⟩ := Eval.outcome_bind_eq_ok_iff.mp h
    rcases ih h with rfl | ⟨hi, hr⟩
    · exact (mem_of_searchChain hchain).imp_right (.imp_left (List.mem_append_left _))
    · exact .inr ⟨List.mem_append_right _ hi, hr⟩

/-- What a search finds is a rule. -/
theorem exists_rule_of_search {i : Nat} (h : (m.search chains test limit?).outcome = .ok (some i)) :
    ∃ r, m.rule? i = some r := by
  rcases mem_of_searchChains (searchChains_of_search h) with hbest | ⟨-, hr⟩
  · cases hbest
  · exact hr

/-- A search that succeeds in some chains succeeds in the first of them, and goes on from what it finds
there. -/
theorem exists_of_searchChains_append {best? found : Option Nat} {before after : List (List Nat)}
    (h : (m.searchChains test limit? best? (before ++ after)).outcome = .ok found) :
    ∃ better?, (m.searchChains test limit? best? before).outcome = .ok better? ∧
      (m.searchChains test limit? better? after).outcome = .ok found := by
  induction before generalizing best? with
  | nil => exact ⟨best?, rfl, h⟩
  | cons chain rest ih =>
    obtain ⟨next?, hchain, h⟩ := Eval.outcome_bind_eq_ok_iff.mp h
    obtain ⟨better?, hrest, h⟩ := ih h
    exact ⟨better?, Eval.outcome_bind_eq_ok_iff.mpr ⟨next?, hchain, hrest⟩, h⟩

/-! ### Where a search fails -/

/-- A rule of a chain at which the search of the chain fails: its test does, it is better than what was found
before, and no better rule of the chain matches. -/
structure Stops (m : Mode) (test : Rule → Eval Bool) (limit? : Option Rule) (best? : Option Nat)
    (chain : List Nat) (e : Error) (j : Nat) (s : Rule) : Prop where
  mem : j ∈ chain
  rule : m.rule? j = some s
  eligible : Eligible limit? s
  fails : (test s).outcome = .error e
  better : ∀ k b, best? = some k → m.rule? k = some b → b.isBelow s = true
  above : ∀ k ∈ chain, ∀ t, m.rule? k = some t → Eligible limit? t → s.isBelow t = true →
    (test t).outcome = .ok false

theorem exists_stop_of_searchChain {best? : Option Nat} {chain : List Nat} {e : Error}
    (sorted : BestFirst m.rules chain)
    (h : (m.searchChain test limit? best? chain).outcome = .error e) :
    ∃ j s, m.Stops test limit? best? chain e j s := by
  induction chain with
  | nil => simp [searchChain] at h
  | cons i rest ih =>
    obtain ⟨first, sortedRest⟩ := List.pairwise_cons.mp sorted
    have turn := m.turn_of_searchChain test limit? best? i rest
    rw [h] at turn
    generalize hfails : Except.error e = outcome at turn
    cases turn with
    | passes hno =>
      obtain ⟨j, s, stops⟩ := ih sortedRest hfails.symm
      refine ⟨j, s, List.mem_cons_of_mem _ stops.mem, stops.rule, stops.eligible, stops.fails, stops.better,
        fun k hk t ht => ?_⟩
      rcases List.mem_cons.mp hk with rfl | hk
      · exact fun heligible _ => hno t ht heligible
      · exact stops.above k hk t ht
    | @fails r _ hr heligible hbetter htest =>
      obtain rfl := Except.error.inj hfails
      refine ⟨i, r, List.mem_cons_self, hr, heligible, htest, fun k b hk hb => ?_, fun k hk t ht _ habove => ?_⟩
      · exact Bool.of_not_eq_false fun hbelow => hbetter ⟨k, b, hk, hb, hbelow⟩
      -- In a chain that is ordered no better rule comes later.
      · rcases List.mem_cons.mp hk with rfl | hk
        · obtain rfl : r = t := Option.some.inj (hr.symm.trans ht)
          rw [Rule.not_isBelow_of_isBelow habove] at habove
          cases habove
        · rw [first k hk r t hr ht] at habove
          cases habove
    | stops | finds => cases hfails

theorem exists_stop_of_searchChains {best? : Option Nat} {e : Error}
    (sorted : ∀ chain ∈ chains, BestFirst m.rules chain)
    (h : (m.searchChains test limit? best? chains).outcome = .error e) :
    ∃ before chain after better? j s, chains = before ++ chain :: after ∧
      (m.searchChains test limit? best? before).outcome = .ok better? ∧
      m.Stops test limit? better? chain e j s := by
  induction chains generalizing best? with
  | nil => simp [searchChains] at h
  | cons chain rest ih =>
    rw [searchChains] at h
    rcases Eval.outcome_bind_eq_error_iff.mp h with h | ⟨better?, hchain, h⟩
    · obtain ⟨j, s, stops⟩ := exists_stop_of_searchChain (sorted chain List.mem_cons_self) h
      exact ⟨[], chain, rest, best?, j, s, rfl, rfl, stops⟩
    · obtain ⟨before, chain', after, better?, j, s, rfl, hbefore, stops⟩ :=
        ih (fun c hc => sorted c (List.mem_cons_of_mem _ hc)) h
      refine ⟨chain :: before, chain', after, better?, j, s, rfl, ?_, stops⟩
      exact Eval.outcome_bind_eq_ok_iff.mpr ⟨_, hchain, hbefore⟩

/-! ### What stands between an item and its best rule -/

variable {d : Dispatcher} {a : Item} {c : Context} {i : Nat} {r : Rule}

/-- A rule that matches an item while no better rule does: the first one that does if all rules are tested
from the best one down. -/
structure First (m : Mode) (d : Dispatcher) (a : Item) (c : Context) (i : Nat) (r : Rule) : Prop where
  rule : m.rule? i = some r
  accepts : (r.pattern.accepts d c a).outcome = .ok true
  above : ∀ j s, m.rule? j = some s → r.isBelow s = true → (s.pattern.accepts d c a).outcome = .ok false

theorem First.of_best (hr : m.rule? i = some r) (haccepts : (r.pattern.accepts d c a).outcome = .ok true)
    (best : ∀ s ∈ m.rules, r.isBelow s = false) : m.First d a c i r where
  rule := hr
  accepts := haccepts
  above := by
    intro j s hs habove
    rw [best s (List.mem_of_getElem? hs)] at habove
    cases habove

theorem First.mem_chainsFor (first : m.First d a c i r) (filed : m.Filed) :
    i ∈ (m.chainsFor c.forest a).flatten := by
  have : (r.pattern.accepts d c a).outcome ≠ .ok false := by simp [first.accepts]
  exact mem_chainsFor_of_ne filed first.rule this

/-- A rule whose test fails while it is searched for another one: it is in a chain that comes before the chain
of the other, and no better rule in the chains up to its own matches. -/
def Hinders (m : Mode) (d : Dispatcher) (a : Item) (c : Context) (i j : Nat) (e : Error) : Prop :=
  ∃ before chain after s, m.chainsFor c.forest a = before ++ chain :: after ∧
    j ∈ chain ∧ i ∈ after.flatten ∧ m.rule? j = some s ∧ (s.pattern.accepts d c a).outcome = .error e ∧
    ∀ k t, k ∈ before.flatten ++ chain → m.rule? k = some t → s.isBelow t = true →
      (t.pattern.accepts d c a).outcome ≠ .ok true

section

variable (made : m.Made) (ranked : m.ranked = true)
include made ranked

/-- What a search in the first chains of an item has settled. -/
theorem settles_of_searchChains {before after : List (List Nat)} {best? : Option Nat}
    (hchains : m.chainsFor c.forest a = before ++ after)
    (h : (m.searchChains (fun r => r.pattern.accepts d c a) none none before).outcome = .ok best?) :
    m.Settles (fun r => r.pattern.accepts d c a) none before.flatten best? := by
  have ordered : m.Ordered := (made.wellRanked ranked).ordered
  have mem {chain : List Nat} (h : chain ∈ before) : chain ∈ m.chainsFor c.forest a :=
    hchains ▸ List.mem_append_left _ h
  simpa using searchChains_settles (fun chain hchain => bestFirst_chainsFor ordered chain (mem hchain))
    (fun chain hchain => spared_chainsFor made.arranged.toFiled ordered chain (mem hchain)) settles_none h

/-- A search does not get past a rule that hinders it. -/
theorem Hinders.outcome_ne {j : Nat} {e : Error} (h : m.Hinders d a c i j e) (found : Option Nat) :
    (m.searchChains (fun r => r.pattern.accepts d c a) none none (m.chainsFor c.forest a)).outcome ≠
      .ok found := by
  obtain ⟨before, chain, after, s, hchains, hj, -, hs, hfails, above⟩ := h
  intro hfound
  rw [hchains, List.append_cons] at hfound
  obtain ⟨better?, hbetter, -⟩ := exists_of_searchChains_append hfound
  have settles := settles_of_searchChains made ranked (hchains.trans (List.append_cons ..)) hbetter
  have flatten : (before ++ [chain]).flatten = before.flatten ++ chain := by simp
  rcases settles.others j (flatten ▸ List.mem_append_right _ hj) s hs (by simp [Eligible]) with
    hno | ⟨k, b, rfl, hb, hnot⟩
  · rw [hfails] at hno
    cases hno
  -- The search would have found a rule that is no worse, and this one does not hinder it.
  · obtain ⟨_, hb', -, haccepts⟩ := settles.accepted k rfl
    obtain rfl : b = _ := Option.some.inj (hb.symm.trans hb')
    have hk : k ∈ before.flatten ++ chain :=
      flatten ▸ ((mem_of_searchChains hbetter).resolve_left (by simp)).1
    have hkj : k ≠ j := by
      rintro rfl
      obtain rfl : b = s := Option.some.inj (hb.symm.trans hs)
      rw [haccepts] at hfails
      cases hfails
    rcases made.arranged.isBelow_or hb hs hkj with hbelow | hbelow
    · rw [hnot] at hbelow
      cases hbelow
    · exact above k b hk hb hbelow haccepts

/-- A search that succeeds finds the first rule that matches. -/
theorem First.eq_of_searchChains (first : m.First d a c i r) {found : Option Nat}
    (h : (m.searchChains (fun r => r.pattern.accepts d c a) none none (m.chainsFor c.forest a)).outcome =
      .ok found) : found = some i := by
  have settles := settles_of_searchChains made ranked (List.append_nil _).symm h
  have hi := first.mem_chainsFor made.arranged.toFiled
  rcases settles.others i hi r first.rule (by simp [Eligible]) with hno | ⟨k, b, rfl, hb, hnot⟩
  · rw [first.accepts] at hno
    cases hno
  · obtain ⟨_, hb', -, haccepts⟩ := settles.accepted k rfl
    obtain rfl : b = _ := Option.some.inj (hb.symm.trans hb')
    by_contra hne
    rcases made.arranged.isBelow_or hb first.rule fun hki => hne (congrArg some hki) with hbelow | hbelow
    · rw [hnot] at hbelow
      cases hbelow
    · rw [first.above k b hb hbelow] at haccepts
      cases haccepts

/-- A search that fails on the way to the first rule that matches is hindered. -/
theorem First.exists_hinders (first : m.First d a c i r) {e : Error}
    (h : (m.searchChains (fun r => r.pattern.accepts d c a) none none (m.chainsFor c.forest a)).outcome =
      .error e) : ∃ j, m.Hinders d a c i j e := by
  obtain ⟨before, chain, after, better?, j, s, hchains, hbefore, stops⟩ :=
    exists_stop_of_searchChains (bestFirst_chainsFor (made.wellRanked ranked).ordered) h
  have settles := settles_of_searchChains made ranked hchains hbefore
  have above (k : Nat) (t : Rule) (hk : k ∈ before.flatten ++ chain) (ht : m.rule? k = some t)
      (habove : s.isBelow t = true) : (t.pattern.accepts d c a).outcome = .ok false := by
    rcases List.mem_append.mp hk with hk | hk
    · rcases settles.others k hk t ht (by simp [Eligible]) with hno | ⟨l, b, hbest, hb, hnot⟩
      · exact hno
      · rw [Rule.isBelow_trans (stops.better l b hbest hb) habove] at hnot
        cases hnot
    · exact stops.above k hk t ht (by simp [Eligible]) habove
  have hsr : s.isBelow r = true := by
    have hij : j ≠ i := by
      rintro rfl
      obtain rfl : s = r := Option.some.inj (stops.rule.symm.trans first.rule)
      have := stops.fails
      rw [first.accepts] at this
      cases this
    rcases made.arranged.isBelow_or stops.rule first.rule hij with hbelow | hbelow
    · exact hbelow
    · have := stops.fails
      rw [first.above j s stops.rule hbelow] at this
      cases this
  -- The chain of the first rule that matches has not been reached.
  have hi : i ∈ before.flatten ++ chain ++ after.flatten := by
    have := first.mem_chainsFor made.arranged.toFiled
    simpa [hchains] using this
  rcases List.mem_append.mp hi with hi | hi
  · have := above i r hi first.rule hsr
    rw [first.accepts] at this
    cases this
  · refine ⟨j, before, chain, after, s, hchains, stops.mem, hi, stops.rule, stops.fails,
      fun k t hk ht habove => ?_⟩
    rw [above k t hk ht habove]
    simp

end

/-- **Only rules of earlier chains come between an item and its best rule.**  Let a mode be ranked and not
detect conflicts, and let a rule match an item while no better rule does.  Then a search gives this rule if no
rule hinders it: no rule of an earlier chain whose test fails while no rule above it, of its own chain and
those before, matches.  If there are such rules, the search fails with the error of one of them. -/
theorem bestRule_of_first (made : m.Made) (ranked : m.ranked = true) (quiet : m.detectConflicts = false)
    (d : Dispatcher) (a : Item) (c : Context) (i : Nat) (r : Rule) (first : m.First d a c i r) :
    ((∀ j e, ¬ m.Hinders d a c i j e) → (m.bestRule d a c).outcome = .ok (some i)) ∧
    ((∃ j e, m.Hinders d a c i j e) →
      ∃ j e, m.Hinders d a c i j e ∧ (m.bestRule d a c).outcome = .error e) := by
  have search : (m.bestRule d a c).outcome =
      (m.searchChains (fun r => r.pattern.accepts d c a) none none (m.chainsFor c.forest a)).outcome :=
    outcome_search_of_not_detecting ranked quiet
  rw [search]
  cases h : (m.searchChains (fun r => r.pattern.accepts d c a) none none (m.chainsFor c.forest a)).outcome with
  | ok found =>
    obtain rfl : found = some i := first.eq_of_searchChains made ranked h
    exact ⟨fun _ => rfl, fun ⟨j, e, hinders⟩ => absurd h (hinders.outcome_ne made ranked _)⟩
  | error e =>
    obtain ⟨j, hinders⟩ := first.exists_hinders made ranked h
    exact ⟨fun none => absurd hinders (none j e), fun _ => ⟨j, e, hinders, rfl⟩⟩

/-- The tree of one element with the name `a`. -/
def loneElement : Context :=
  .initial (Forest.empty.add ⟨.element, some ⟨none, .plain "a"⟩, none, [], []⟩)

/-- A rule for all items, and below it one for the elements of a name under a predicate that fails. -/
def keyedBelow : Mode :=
  (((Mode.initial .unnamed).add (.predicate (.element "a") (.literal [.integer 1, .integer 2] .unknown)) .empty
    0 none).2.add .anyItem .empty 1 none).2.rank

/-- A rule for the elements of a name, and below it one for all items under a predicate that fails. -/
def keyedAbove : Mode :=
  (((Mode.initial .unnamed).add (.predicate .anyItem (.literal [.integer 1, .integer 2] .unknown)) .empty
    0 none).2.add (.element "a") .empty 1 none).2.rank

/-- The failing rule that is filed under a key is tested before the better one that is not. -/
theorem not_bestRule_of_first :
    ¬ ∀ m : Mode, m.Made → m.ranked = true → m.detectConflicts = false →
      ∀ (d : Dispatcher) (a : Item) (c : Context) (i : Nat) (r : Rule), m.First d a c i r →
        (m.bestRule d a c).outcome = .ok (some i) := by
  intro h
  have made : keyedBelow.Made := .rank (.add _ _ _ _ (.add _ _ _ _ (.initial _)))
  obtain ⟨r, hr⟩ : ∃ r, keyedBelow.rule? 1 = some r := ⟨_, rfl⟩
  have first : keyedBelow.First .none (.node 0) loneElement 1 r := by
    cases hr
    exact .of_best rfl rfl (by decide)
  have fails : (keyedBelow.bestRule .none (.node 0) loneElement).outcome =
      .error (.of .predicateOfSeveral) := by rfl
  have := h keyedBelow made rfl rfl .none (.node 0) loneElement 1 r first
  rw [fails] at this
  cases this

/-- The failing rule that is filed under no key does not come between an element and the rule for its name. -/
theorem bestRule_of_first_keyed :
    keyedAbove.Made ∧ keyedAbove.ranked = true ∧ keyedAbove.detectConflicts = false ∧
      ∃ r, keyedAbove.First .none (.node 0) loneElement 1 r ∧
        (∀ j e, ¬ keyedAbove.Hinders .none (.node 0) loneElement 1 j e) ∧
        (keyedAbove.bestRule .none (.node 0) loneElement).outcome = .ok (some 1) := by
  have made : keyedAbove.Made := .rank (.add _ _ _ _ (.add _ _ _ _ (.initial _)))
  obtain ⟨r, hr⟩ : ∃ r, keyedAbove.rule? 1 = some r := ⟨_, rfl⟩
  have first : keyedAbove.First .none (.node 0) loneElement 1 r := by
    cases hr
    exact .of_best rfl rfl (by decide)
  have unhindered (j : Nat) (e : Error) : ¬ keyedAbove.Hinders .none (.node 0) loneElement 1 j e := by
    rintro ⟨before, chain, after, s, hchains, -, hi, -⟩
    have hchains : [[1], [], [0]] = before ++ chain :: after := hchains
    -- The chain of the rule is the first one, so that it is no later one.
    cases before with
    | nil =>
      cases hchains
      simp at hi
    | cons first before =>
      have hrest : [[], [0]] = before ++ chain :: after := (List.cons.inj hchains).2
      have : 1 ∈ ([[], [0]] : List (List Nat)).flatten := by
        rw [hrest, List.flatten_append, List.flatten_cons]
        exact List.mem_append_right _ (List.mem_append_right _ hi)
      simp at this
  have found := bestRule_of_first made rfl rfl .none (.node 0) loneElement 1 r first
  exact ⟨made, rfl, rfl, r, first, unhindered, found.1 unhindered⟩

end TreeQuery.Mode
