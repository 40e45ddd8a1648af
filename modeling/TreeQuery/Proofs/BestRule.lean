/-
A search finds the best rule.

`Mode.Turn` lists what one turn of the search of a chain can do with the rule at hand: stop, pass it by, find it,
or fail (`Mode.turn_of_searchChain`).  What is said of searches here and of the failures of searches rests on this.

`Mode.Settles` is the invariant of a search: the rule found so far matches, and every rule that was
passed by either does not match or is no better.  The search of a chain keeps it
(`Mode.searchChain_settles`) and so does the search of several chains (`Mode.searchChains_settles`).
The chains that are not searched hold rules for other keys only, which `KeyedPatterns` shows not to
match, so that a rule found in the chains of an item is the best of all:

* `Mode.bestRule_dispatches` — the rule that `Mode.bestRule` gives matches and no better rule does; if
  it gives none, no rule matches; and it fails only if the test of some rule does.

Design notes: the statements about searches have a limit in them, below which rules are looked for,
since the search for the next rule is the same search.
-/
import TreeQuery.Proofs.RuleTable
import TreeQuery.Rule.Dispatch

namespace TreeQuery

namespace Mode

variable {m : Mode} {test : Rule → Eval Bool} {limit? : Option Rule}

/-- Whether a rule is below the limit of a search. -/
def Eligible (limit? : Option Rule) (r : Rule) : Prop :=
  ∀ limit, limit? = some limit → r.isBelow limit = true

/-- Whether a rule is no better than the best one found. -/
def Beaten (m : Mode) (best? : Option Nat) (s : Rule) : Prop :=
  ∃ i b, best? = some i ∧ m.rule? i = some b ∧ b.isBelow s = false

/-- The best rule found after a number of rules has been passed by. -/
structure Settles (m : Mode) (test : Rule → Eval Bool) (limit? : Option Rule) (passed : List Nat)
    (best? : Option Nat) : Prop where
  accepted : ∀ i, best? = some i →
    ∃ r, m.rule? i = some r ∧ Eligible limit? r ∧ (test r).outcome = .ok true
  others : ∀ j ∈ passed, ∀ s, m.rule? j = some s → Eligible limit? s →
    (test s).outcome = .ok false ∨ m.Beaten best? s

/-- Rules that need no test pass it. -/
def Spared (m : Mode) (test : Rule → Eval Bool) (chain : List Nat) : Prop :=
  ∀ i ∈ chain, ∀ r, m.rule? i = some r → r.alwaysMatches = true → (test r).outcome = .ok true

/-- The tests of the rules in a chain do not fail. -/
def Testable (m : Mode) (test : Rule → Eval Bool) (chain : List Nat) : Prop :=
  ∀ i ∈ chain, ∀ r, m.rule? i = some r → ∃ b, (test r).outcome = .ok b

theorem settles_none : m.Settles test limit? [] none := ⟨by simp, by simp⟩

/-- What has been passed by may grow by rules that do not match or are no better. -/
theorem Settles.pass {passed new : List Nat} {best? : Option Nat}
    (h : m.Settles test limit? passed best?)
    (hnew : ∀ j ∈ new, ∀ s, m.rule? j = some s → Eligible limit? s →
      (test s).outcome = .ok false ∨ m.Beaten best? s) :
    m.Settles test limit? (passed ++ new) best? := by
  refine ⟨h.accepted, fun j hj => ?_⟩
  rcases List.mem_append.mp hj with hj | hj
  · exact h.others j hj
  · exact hnew j hj

/-- A rule that matches and is better than the one before takes its place, and in a chain that is
ordered best first the rest of the chain need not be looked at. -/
theorem Settles.choose {passed rest : List Nat} {best? : Option Nat} {i : Nat} {r : Rule}
    (h : m.Settles test limit? passed best?) (sorted : BestFirst m.rules (i :: rest))
    (hr : m.rule? i = some r) (heligible : Eligible limit? r) (hbetter : ¬ m.Beaten best? r)
    (hmatch : (test r).outcome = .ok true) :
    m.Settles test limit? (passed ++ i :: rest) (some i) := by
  refine ⟨fun _ hi => ?_, fun j hj s hs hs' => ?_⟩
  · obtain rfl := Option.some.inj hi
    exact ⟨r, hr, heligible, hmatch⟩
  · rcases List.mem_append.mp hj with hj | hj
    · rcases h.others j hj s hs hs' with hs | ⟨k, b, rfl, hb, hbelow⟩
      · exact .inl hs
      · have hbr : b.isBelow r = true := Bool.of_not_eq_false fun h => hbetter ⟨k, b, rfl, hb, h⟩
        exact .inr ⟨i, r, rfl, hr, Rule.not_isBelow_trans hbelow hbr⟩
    · refine .inr ⟨i, r, rfl, hr, ?_⟩
      rcases List.mem_cons.mp hj with rfl | hj
      · obtain rfl : r = s := Option.some.inj (hr.symm.trans hs)
        exact Rule.isBelow_eq_false_iff.mpr (.inr ⟨rfl, Nat.le_refl _⟩)
      · exact (List.pairwise_cons.mp sorted).1 j hj r s hr hs

/-! ### The search of chains -/

/-- What the search of a chain comes to at the first rule that is left of it. -/
inductive Turn (m : Mode) (test : Rule → Eval Bool) (limit? : Option Rule) (best? : Option Nat) (i : Nat)
    (rest : List Nat) : Except Error (Option Nat) → Prop
  /-- A rule that is not below the limit or does not match is passed by. -/
  | passes : (∀ r, m.rule? i = some r → Eligible limit? r → (test r).outcome = .ok false) →
      Turn m test limit? best? i rest (m.searchChain test limit? best? rest).outcome
  /-- A rule that is no better than what was found is not even tested. -/
  | stops {r : Rule} : m.rule? i = some r → m.Beaten best? r → Turn m test limit? best? i rest (.ok best?)
  | finds {r : Rule} : m.rule? i = some r → Eligible limit? r → ¬ m.Beaten best? r →
      r.alwaysMatches = true ∨ (test r).outcome = .ok true → Turn m test limit? best? i rest (.ok (some i))
  | fails {r : Rule} {e : Error} : m.rule? i = some r → Eligible limit? r → ¬ m.Beaten best? r →
      (test r).outcome = .error e → Turn m test limit? best? i rest (.error e)

theorem eligible_iff {r : Rule} : Eligible limit? r ↔ (limit?.any fun s => !r.isBelow s) = false := by
  cases limit? <;> simp [Eligible]

theorem beaten_iff {best? : Option Nat} {r : Rule} :
    m.Beaten best? r ↔ ((best?.bind m.rule?).any fun b => !b.isBelow r) = true := by
  cases best? with
  | none => simp [Beaten]
  | some i => cases hb : m.rule? i <;> simp [Beaten, hb]

theorem turn_of_searchChain (m : Mode) (test : Rule → Eval Bool) (limit? : Option Rule) (best? : Option Nat)
    (i : Nat) (rest : List Nat) :
    m.Turn test limit? best? i rest (m.searchChain test limit? best? (i :: rest)).outcome := by
  -- The turn asks in this order: whether the limit excludes the rule, whether the best one so far beats it, and
  -- whether its pattern has to be tested at all.
  rw [searchChain]
  cases hr : m.rule? i with
  | none => exact .passes fun s hs => by simp [hr] at hs
  | some r =>
    have unique {s : Rule} (hs : m.rule? i = some s) : r = s := Option.some.inj (hr.symm.trans hs)
    simp only
    split
    case isTrue hlimit =>
      refine .passes fun s hs heligible => ?_
      rw [← unique hs, eligible_iff, hlimit] at heligible
      cases heligible
    case isFalse hlimit =>
      have heligible := eligible_iff.mpr (Bool.eq_false_iff.mpr hlimit)
      split
      case isTrue hbeaten => exact .stops hr (beaten_iff.mpr hbeaten)
      case isFalse hbetter =>
        have hbetter : ¬ m.Beaten best? r := fun hbeaten => hbetter (beaten_iff.mp hbeaten)
        split
        case isTrue halways => exact .finds hr heligible hbetter (.inl halways)
        case isFalse =>
          rw [Eval.outcome_bind]
          cases htest : (test r).outcome with
          | error e => exact .fails hr heligible hbetter htest
          | ok matched =>
            cases matched with
            | true => exact .finds hr heligible hbetter (.inr htest)
            | false =>
              refine .passes fun s hs _ => ?_
              rw [← unique hs]
              exact htest

theorem searchChain_settles {best? : Option Nat} {chain passed : List Nat} {found : Option Nat}
    (sorted : BestFirst m.rules chain) (spared : m.Spared test chain)
    (before : m.Settles test limit? passed best?)
    (h : (m.searchChain test limit? best? chain).outcome = .ok found) :
    m.Settles test limit? (passed ++ chain) found := by
  induction chain generalizing passed with
  | nil =>
    obtain rfl : best? = found := by simpa [searchChain] using h
    simpa using before
  | cons i rest ih =>
    obtain ⟨best, sortedRest⟩ := List.pairwise_cons.mp sorted
    have turn := m.turn_of_searchChain test limit? best? i rest
    rw [h] at turn
    generalize hfound : Except.ok found = outcome at turn
    cases turn with
    | passes hno =>
      -- What is left of the chain is searched with this rule among those passed by.
      have after : m.Settles test limit? (passed ++ [i]) best? := before.pass fun j hj s hs heligible => by
        obtain rfl := List.mem_singleton.mp hj
        exact .inl (hno s hs heligible)
      simpa using ih sortedRest (fun j hj => spared j (List.mem_cons_of_mem _ hj)) after hfound.symm
    | @stops r hr hbeaten =>
      obtain rfl : found = best? := Except.ok.inj hfound
      obtain ⟨k, b, rfl, hb, hbelow⟩ := hbeaten
      refine before.pass fun j hj s hs _ => .inr ⟨k, b, rfl, hb, ?_⟩
      rcases List.mem_cons.mp hj with rfl | hj
      · exact Option.some.inj (hr.symm.trans hs) ▸ hbelow
      · exact Rule.not_isBelow_of_le hbelow (best j hj r s hr hs)
    | @finds r hr heligible hbetter hmatch =>
      obtain rfl : found = some i := Except.ok.inj hfound
      exact before.choose sorted hr heligible hbetter (hmatch.elim (spared i List.mem_cons_self r hr) id)
    | fails => cases hfound

theorem searchChains_settles {best? : Option Nat} {chains : List (List Nat)} {passed : List Nat}
    {found : Option Nat} (sorted : ∀ chain ∈ chains, BestFirst m.rules chain)
    (spared : ∀ chain ∈ chains, m.Spared test chain)
    (before : m.Settles test limit? passed best?)
    (h : (m.searchChains test limit? best? chains).outcome = .ok found) :
    m.Settles test limit? (passed ++ chains.flatten) found := by
  induction chains generalizing best? passed with
  | nil =>
    obtain rfl : best? = found := by simpa [searchChains] using h
    simpa using before
  | cons chain rest ih =>
    obtain ⟨better?, hchain, h⟩ := Eval.outcome_bind_eq_ok_iff.mp h
    have after := searchChain_settles (sorted chain (by simp)) (spared chain (by simp)) before hchain
    have := ih (fun c hc => sorted c (List.mem_cons_of_mem _ hc))
      (fun c hc => spared c (List.mem_cons_of_mem _ hc)) after h
    simpa using this

/-! ### Searches that fail -/

/-- The error of a test in some chain. -/
def FailsIn (m : Mode) (test : Rule → Eval Bool) (chain : List Nat) (e : Error) : Prop :=
  ∃ i ∈ chain, ∃ r, m.rule? i = some r ∧ (test r).outcome = .error e

theorem FailsIn.cons {i : Nat} {rest : List Nat} {e : Error} (h : m.FailsIn test rest e) :
    m.FailsIn test (i :: rest) e := by
  obtain ⟨j, hj, h⟩ := h
  exact ⟨j, List.mem_cons_of_mem _ hj, h⟩

/-- The search of a chain has no errors of its own. -/
theorem failsIn_of_searchChain {best? : Option Nat} {chain : List Nat} {e : Error}
    (h : (m.searchChain test limit? best? chain).outcome = .error e) : m.FailsIn test chain e := by
  induction chain with
  | nil => simp [searchChain] at h
  | cons i rest ih =>
    have turn := m.turn_of_searchChain test limit? best? i rest
    rw [h] at turn
    generalize hfails : Except.error e = outcome at turn
    cases turn with
    | passes => exact (ih hfails.symm).cons
    | @fails r _ hr _ _ htest =>
      obtain rfl := Except.error.inj hfails
      exact ⟨i, List.mem_cons_self, r, hr, htest⟩
    | stops | finds => cases hfails

theorem failsIn_of_searchChains {best? : Option Nat} {chains : List (List Nat)} {e : Error}
    (h : (m.searchChains test limit? best? chains).outcome = .error e) :
    m.FailsIn test chains.flatten e := by
  induction chains generalizing best? with
  | nil => simp [searchChains] at h
  | cons chain rest ih =>
    rw [searchChains] at h
    rcases Eval.outcome_bind_eq_error_iff.mp h with h | ⟨better?, -, h⟩
    · obtain ⟨i, hi, h⟩ := failsIn_of_searchChain h
      exact ⟨i, List.mem_append_left _ hi, h⟩
    · obtain ⟨i, hi, h⟩ := ih h
      exact ⟨i, List.mem_append_right _ hi, h⟩

theorem failsIn_of_reportChain {index : Nat} {chosen : Rule} {chain : List Nat} {e : Error}
    (h : (m.reportChain test index chosen chain).outcome = .error e) : m.FailsIn test chain e := by
  induction chain with
  | nil => simp [reportChain] at h
  | cons i rest ih =>
    rw [reportChain] at h
    cases hr : m.rule? i with
    | none => exact (ih (by simpa [hr] using h)).cons
    | some r =>
      rw [hr] at h
      simp only at h
      split at h
      · simp at h
      · split at h
        · rcases Eval.outcome_bind_eq_error_iff.mp h with h | ⟨b, -, h⟩
          · exact ⟨i, List.mem_cons_self, r, hr, h⟩
          · cases b <;> exact (ih h).cons
        · exact (ih h).cons

theorem failsIn_of_reportChains {index : Nat} {chosen : Rule} {chains : List (List Nat)} {e : Error}
    (h : (m.reportChains test index chosen chains).outcome = .error e) :
    m.FailsIn test chains.flatten e := by
  induction chains with
  | nil => simp [reportChains] at h
  | cons chain rest ih =>
    rw [reportChains] at h
    rcases Eval.outcome_bind_eq_error_iff.mp h with h | ⟨_, -, h⟩
    · obtain ⟨i, hi, h⟩ := failsIn_of_reportChain h
      exact ⟨i, List.mem_append_left _ hi, h⟩
    · obtain ⟨i, hi, h⟩ := ih h
      exact ⟨i, List.mem_append_right _ hi, h⟩

/-! ### Whole searches -/

variable {chains : List (List Nat)}

/-- What a search finds is what it finds in the chains; the reports change nothing about it. -/
theorem searchChains_of_search {found : Option Nat}
    (h : (m.search chains test limit?).outcome = .ok found) :
    (m.searchChains test limit? none chains).outcome = .ok found := by
  rw [search] at h
  split at h
  case isFalse => simp [Eval.fail] at h
  case isTrue =>
    obtain ⟨best?, hbest, h⟩ := Eval.outcome_bind_eq_ok_iff.mp h
    rw [hbest]
    cases best? with
    | none => simpa using h
    | some i =>
      simp only at h
      split at h
      case isTrue =>
        cases hr : m.rule? i with
        | none => simpa [hr] using h
        | some r =>
          rw [hr] at h
          obtain ⟨_, _, h⟩ := Eval.outcome_bind_eq_ok_iff.mp h
          simpa using h
      case isFalse => simpa using h

/-- Without reports a search gives what it finds in the chains. -/
theorem outcome_search_of_not_detecting (ranked : m.ranked = true) (quiet : m.detectConflicts = false) :
    (m.search chains test limit?).outcome = (m.searchChains test limit? none chains).outcome := by
  rw [search, if_pos ranked, Eval.outcome_bind]
  cases (m.searchChains test limit? none chains).outcome with
  | error e => rfl
  | ok best? => cases best? <;> simp [Except.bind, quiet]

/-- In a ranked mode a search fails only where a test fails. -/
theorem failsIn_of_search {e : Error} (ranked : m.ranked = true)
    (h : (m.search chains test limit?).outcome = .error e) : m.FailsIn test chains.flatten e := by
  rw [search, if_pos ranked] at h
  rcases Eval.outcome_bind_eq_error_iff.mp h with h | ⟨best?, -, h⟩
  · exact failsIn_of_searchChains h
  · cases best? with
    | none => simp at h
    | some i =>
      simp only at h
      split at h
      case isTrue =>
        cases hr : m.rule? i with
        | none => simp [hr] at h
        | some r =>
          rw [hr] at h
          rcases Eval.outcome_bind_eq_error_iff.mp h with h | ⟨_, -, h⟩
          · exact failsIn_of_reportChains h
          · simp at h
      case isFalse => simp at h

theorem search_total (ranked : m.ranked = true) (h : ∀ chain ∈ chains, m.Testable test chain) :
    ∃ found, (m.search chains test limit?).outcome = .ok found := by
  cases hsearch : (m.search chains test limit?).outcome with
  | ok found => exact ⟨found, rfl⟩
  | error e =>
    obtain ⟨i, hi, r, hr, hfails⟩ := failsIn_of_search ranked hsearch
    obtain ⟨chain, hchain, hi⟩ := List.mem_flatten.mp hi
    obtain ⟨b, hb⟩ := h chain hchain i hi r hr
    rw [hb] at hfails
    cases hfails

/-! ### The chains of an item -/

theorem mem_chainsFor {f : Forest} {a : Item} {chain : List Nat}
    (h : chain ∈ m.chainsFor f a) :
    chain = [] ∨ chain = m.general ∨ ∃ k, Key.Answers f a k ∧ chain = m.chainOf k := by
  unfold chainsFor at h
  cases hkeys : Key.ofItem? f a with
  | none =>
    simp only [hkeys, List.mem_singleton] at h
    exact .inr (.inl h)
  | some keys =>
    obtain ⟨named?, kind⟩ := keys
    simp only [hkeys, List.mem_cons, List.not_mem_nil, or_false] at h
    rcases h with h | h | h
    · cases named? with
      | none => exact .inl h
      | some k => exact .inr (.inr ⟨k, ⟨_, _, hkeys, .inl rfl⟩, h⟩)
    · exact .inr (.inr ⟨kind, ⟨_, _, hkeys, .inr rfl⟩, h⟩)
    · exact .inr (.inl h)

/-- The chain of a rule is searched for every item that answers to the key of its pattern. -/
theorem chainFor_mem_chainsFor {f : Forest} {a : Item} {r : Rule}
    (h : ∀ k, r.pattern.key? = some k → Key.Answers f a k) :
    m.chainFor r ∈ m.chainsFor f a := by
  unfold chainFor
  cases hk : r.pattern.key? with
  | none =>
    simp only [chainsFor]
    split <;> simp
  | some k =>
    obtain ⟨named?, kind, hkeys, hk⟩ := h k hk
    simp only [chainsFor, hkeys]
    rcases hk with rfl | rfl <;> simp

theorem bestFirst_chainsFor (ordered : m.Ordered) {f : Forest} {a : Item} :
    ∀ chain ∈ m.chainsFor f a, BestFirst m.rules chain := by
  intro chain hchain
  rcases mem_chainsFor hchain with rfl | rfl | ⟨k, _, rfl⟩
  · exact List.Pairwise.nil
  · exact ordered.general
  · exact ordered.keyed k

variable {d : Dispatcher} {a : Item} {c : Context}

/-- A rule that needs no test for the items that are looked up under its key really matches them. -/
theorem spared_chainsFor (filed : m.Filed) (ordered : m.Ordered) :
    ∀ chain ∈ m.chainsFor c.forest a, m.Spared (fun r => r.pattern.accepts d c a) chain := by
  intro chain hchain i hi r hr halways
  have hwhole : r.pattern.matchesWholeKey = true := by rw [← ordered.alwaysMatches hr, halways]
  have hanswers : ∀ k, r.pattern.key? = some k → Key.Answers c.forest a k := by
    intro k hk
    rcases mem_chainsFor hchain with rfl | rfl | ⟨k', hk', rfl⟩
    · simp at hi
    · obtain ⟨s, hs, hnone⟩ := filed.general hi
      obtain rfl : r = s := Option.some.inj (hr.symm.trans hs)
      simp [hnone] at hk
    · obtain ⟨s, hs, hkey⟩ := filed.keyed hi
      obtain rfl : r = s := Option.some.inj (hr.symm.trans hs)
      obtain rfl : k' = k := Option.some.inj (hkey.symm.trans hk)
      exact hk'
  exact congrArg Eval.outcome (Pattern.accepts_of_matchesWholeKey hwhole hanswers)

/-- A rule that is in no chain of an item does not match it. -/
theorem mem_chainsFor_of_ne (filed : m.Filed) {j : Nat} {s : Rule} (hs : m.rule? j = some s)
    (h : (s.pattern.accepts d c a).outcome ≠ .ok false) : j ∈ (m.chainsFor c.forest a).flatten := by
  by_cases hanswers : ∀ k, s.pattern.key? = some k → Key.Answers c.forest a k
  · exact List.mem_flatten.mpr ⟨_, chainFor_mem_chainsFor hanswers, filed.mem_chainFor hs⟩
  · obtain ⟨k, hk, hnot⟩ : ∃ k, s.pattern.key? = some k ∧ ¬ Key.Answers c.forest a k := by
      simpa using hanswers
    exact absurd (congrArg Eval.outcome (Pattern.accepts_of_not_answers hk hnot)) h

/-- What a search in the chains of an item passes by holds of all rules of the mode. -/
theorem others_of_settles {best? : Option Nat} (filed : m.Filed)
    (h : m.Settles (fun r => r.pattern.accepts d c a) limit?
      (m.chainsFor c.forest a).flatten best?)
    {j : Nat} {s : Rule} (hs : m.rule? j = some s) (heligible : Eligible limit? s) :
    (s.pattern.accepts d c a).outcome = .ok false ∨ m.Beaten best? s := by
  by_cases hno : (s.pattern.accepts d c a).outcome = .ok false
  · exact .inl hno
  · exact h.others j (mem_chainsFor_of_ne filed hs hno) s hs heligible

theorem settles_of_search (filed : m.Filed) (ordered : m.Ordered) {found : Option Nat}
    (h : (m.search (m.chainsFor c.forest a) (fun r => r.pattern.accepts d c a) limit?).outcome =
      .ok found) :
    m.Settles (fun r => r.pattern.accepts d c a) limit? (m.chainsFor c.forest a).flatten found := by
  simpa using searchChains_settles (bestFirst_chainsFor ordered) (spared_chainsFor filed ordered) settles_none
    (searchChains_of_search h)

/-- **Dispatch finds the best rule.**  In a mode that is ranked the rule found for an item matches it,
and no better rule does; if none is found, no rule of the mode matches; and the search can fail only
where the pattern of some rule does. -/
theorem bestRule_dispatches (reachable : m.Reachable) (ranked : m.ranked = true) (d : Dispatcher)
    (a : Item) (c : Context) :
    (∀ i, (m.bestRule d a c).outcome = .ok (some i) →
      ∃ r, m.rule? i = some r ∧ (r.pattern.accepts d c a).outcome = .ok true ∧
        ∀ j s, m.rule? j = some s → r.isBelow s = true →
          (s.pattern.accepts d c a).outcome = .ok false) ∧
    ((m.bestRule d a c).outcome = .ok none →
      ∀ j s, m.rule? j = some s → (s.pattern.accepts d c a).outcome = .ok false) ∧
    ((∀ j s, m.rule? j = some s → ∃ b, (s.pattern.accepts d c a).outcome = .ok b) →
      ∃ found, (m.bestRule d a c).outcome = .ok found) := by
  have filed := reachable.filed
  have eligible (s : Rule) : Eligible none s := by simp [Eligible]
  refine ⟨fun i h => ?_, fun h j s hs => ?_, fun h => ?_⟩
  · have settles := settles_of_search filed (reachable.ordered ranked) h
    obtain ⟨r, hr, _, hmatch⟩ := settles.accepted i rfl
    refine ⟨r, hr, hmatch, fun j s hs hbetter => ?_⟩
    rcases others_of_settles filed settles hs (eligible s) with hs | ⟨k, b, hk, hb, hbelow⟩
    · exact hs
    · obtain rfl := Option.some.inj hk
      obtain rfl : r = b := Option.some.inj (hr.symm.trans hb)
      simp [hbetter] at hbelow
  · have settles := settles_of_search filed (reachable.ordered ranked) h
    rcases others_of_settles filed settles hs (eligible s) with hs | ⟨k, b, hk, _⟩
    · exact hs
    · simp at hk
  · exact search_total ranked fun _ _ j _ s hs => h j s hs

/-- Of a rule for all elements and one for the elements of a name the second is found for such an
element. -/
theorem bestRule_dispatches_by_name :
    let m := (((Mode.initial .unnamed).add (.node (.ofKind .element)) .empty 1 none).2.add
      (.element "a") .empty 1 none).2.rank
    let c := Context.initial (Forest.empty.add ⟨.element, some ⟨none, .plain "a"⟩, none, [], []⟩)
    m.Reachable ∧ m.ranked = true ∧ (m.bestRule .none (.node 0) c).outcome = .ok (some 1) ∧
      ∃ r, m.rule? 1 = some r ∧ (r.pattern.accepts .none c (.node 0)).outcome = .ok true ∧
        ∀ j s, m.rule? j = some s → r.isBelow s = true →
          (s.pattern.accepts .none c (.node 0)).outcome = .ok false := by
  intro m c
  have reachable : m.Reachable := .rank (.add _ _ _ _ (.add _ _ _ _ (.initial _)))
  have found : (m.bestRule .none (.node 0) c).outcome = .ok (some 1) := by rfl
  exact ⟨reachable, rfl, found,
    (bestRule_dispatches reachable rfl .none (.node 0) c).1 1 found⟩

end Mode

end TreeQuery
