/-
What the detection of conflicts does to a search.

A mode that detects conflicts tests, after a search, every other rule of the rank of the rule that was found,
its rivals, whether or not they were tested before (`Mode.failsWith_reportChains`).  It gives a
warning for those that match and changes nothing about what is found, but a test that fails makes the search
fail:

* `Mode.detecting_differs` — with and without detection a search has the same result, except where it finds a
  rule and the test of one of its rivals fails; then with detection it fails with the error of such a test.
-/
import TreeQuery.Proofs.Ranking

namespace TreeQuery.Mode

variable {m : Mode} {test : Rule → Eval Bool} {limit? : Option Rule} {chains : List (List Nat)}

/-! ### The tests of the rivals -/

/-- Another rule of the same rank. -/
def Rivals (m : Mode) (i : Nat) (r : Rule) (j : Nat) (s : Rule) : Prop :=
  m.rule? j = some s ∧ j ≠ i ∧ s.rank = r.rank

/-- The error of the test of some rival in a chain. -/
def RivalFails (m : Mode) (test : Rule → Eval Bool) (i : Nat) (r : Rule) (chain : List Nat) (e : Error) :
    Prop :=
  ∃ j ∈ chain, ∃ s, m.Rivals i r j s ∧ (test s).outcome = .error e

/-- Whether a step fails with one of the given errors, or succeeds as there are none. -/
def FailsWith (errors : Error → Prop) : Except Error Unit → Prop
  | .ok () => ∀ e, ¬ errors e
  | .error e => errors e

theorem FailsWith.of_iff {errors errors' : Error → Prop} {x : Except Error Unit} (h : FailsWith errors x)
    (hiff : ∀ e, errors e ↔ errors' e) : FailsWith errors' x := by
  obtain rfl : errors = errors' := funext fun e => propext (hiff e)
  exact h

/-- Of two steps one after the other. -/
theorem FailsWith.bind {first second : Error → Prop} {x y : Eval Unit} (hx : FailsWith first x.outcome)
    (hy : FailsWith second y.outcome) : FailsWith (fun e => first e ∨ second e) (x >>= fun _ => y).outcome := by
  rcases x with ⟨log, e | ⟨⟩⟩
  · exact .inl hx
  · rw [Eval.bind_ok]
    exact hy.of_iff fun e => ⟨.inr, fun h => h.resolve_left (hx e)⟩

variable {i : Nat} {r : Rule}

/-- Tests a rule if it is a rival. -/
def probe (m : Mode) (test : Rule → Eval Bool) (i : Nat) (r : Rule) (j : Nat) (s : Rule) : Eval Unit := do
  if j ≠ i ∧ s.rank = r.rank then
    if ← test s then Eval.warn ⟨m.name, r.sequence, s.sequence⟩

theorem outcome_reportChain_cons {j : Nat} {s : Rule} {rest : List Nat} (hs : m.rule? j = some s)
    (hrank : ¬ s.rank < r.rank) : (m.reportChain test i r (j :: rest)).outcome =
      (m.probe test i r j s >>= fun _ => m.reportChain test i r rest).outcome := by
  rw [reportChain, hs]
  simp only [if_neg hrank, probe]
  split
  · rcases test s with ⟨log, e | b⟩
    · rfl
    · cases b <;> rfl
  · rfl

theorem failsWith_probe {j : Nat} {s : Rule} (hs : m.rule? j = some s) :
    FailsWith (m.RivalFails test i r [j]) (m.probe test i r j s).outcome := by
  have rivalFails (e : Error) :
      m.RivalFails test i r [j] e ↔ (j ≠ i ∧ s.rank = r.rank) ∧ (test s).outcome = .error e := by
    simp [RivalFails, Rivals, hs]
  have : FailsWith (fun e => (j ≠ i ∧ s.rank = r.rank) ∧ (test s).outcome = .error e)
      (m.probe test i r j s).outcome := by
    rw [probe]
    split
    case isTrue hrival =>
      rcases test s with ⟨log, e | b⟩
      · exact ⟨hrival, rfl⟩
      · cases b <;> exact fun e => by simp
    case isFalse hno => exact fun e h => hno h.1
  exact this.of_iff fun e => (rivalFails e).symm

/-- The reports of a chain.  No rival is left out, since the rules of lower rank come last. -/
theorem failsWith_reportChain {chain : List Nat} (sorted : BestFirst m.rules chain) :
    FailsWith (m.RivalFails test i r chain) (m.reportChain test i r chain).outcome := by
  induction chain with
  | nil => exact fun e => by simp [RivalFails]
  | cons j rest ih =>
    obtain ⟨first, sortedRest⟩ := List.pairwise_cons.mp sorted
    cases hs : m.rule? j with
    | none =>
      rw [reportChain, hs]
      exact (ih sortedRest).of_iff fun e => by simp [RivalFails, Rivals, hs]
    | some s =>
      by_cases hrank : s.rank < r.rank
      · rw [reportChain, hs]
        simp only [if_pos hrank]
        rintro e ⟨k, hk, t, ⟨ht, -, hequal⟩, -⟩
        rcases List.mem_cons.mp hk with rfl | hk
        · obtain rfl : s = t := Option.some.inj (hs.symm.trans ht)
          omega
        · have := Rule.isBelow_eq_false_iff.mp (first k hk s t hs ht)
          omega
      · rw [outcome_reportChain_cons hs hrank]
        exact ((failsWith_probe hs).bind (ih sortedRest)).of_iff fun e => by simp [RivalFails]

theorem failsWith_reportChains (sorted : ∀ chain ∈ chains, BestFirst m.rules chain) :
    FailsWith (m.RivalFails test i r chains.flatten) (m.reportChains test i r chains).outcome := by
  induction chains with
  | nil => exact fun e => by simp [RivalFails]
  | cons chain rest ih =>
    have first : FailsWith (m.RivalFails test i r chain) (m.reportChain test i r chain).outcome :=
      failsWith_reportChain (sorted chain List.mem_cons_self)
    have others := ih fun c hc => sorted c (List.mem_cons_of_mem _ hc)
    exact (first.bind others).of_iff fun e => by simp [RivalFails, or_and_right, exists_or]

/-! ### Searches with and without detection -/

/-- The mode with detection of conflicts turned on or off. -/
def detecting (m : Mode) (on : Bool) : Mode := { m with detectConflicts := on }

theorem rule?_detecting (on : Bool) : (m.detecting on).rule? = m.rule? := rfl

theorem searchChain_detecting (on : Bool) (best? : Option Nat) (chain : List Nat) :
    (m.detecting on).searchChain test limit? best? chain = m.searchChain test limit? best? chain := by
  induction chain with
  | nil => rfl
  | cons i rest ih => simp only [searchChain, rule?_detecting, ih]

theorem searchChains_detecting (on : Bool) (best? : Option Nat) :
    (m.detecting on).searchChains test limit? best? chains = m.searchChains test limit? best? chains := by
  induction chains generalizing best? with
  | nil => rfl
  | cons chain rest ih => simp only [searchChains, searchChain_detecting, ih]

theorem reportChain_detecting (on : Bool) (chain : List Nat) :
    (m.detecting on).reportChain test i r chain = m.reportChain test i r chain := by
  induction chain with
  | nil => rfl
  | cons j rest ih =>
    have hname : (m.detecting on).name = m.name := rfl
    simp only [reportChain, rule?_detecting, hname, ih]

theorem reportChains_detecting (on : Bool) :
    (m.detecting on).reportChains test i r chains = m.reportChains test i r chains := by
  induction chains with
  | nil => rfl
  | cons chain rest ih => simp only [reportChains, reportChain_detecting, ih]

/-- With detection the reports follow after a rule has been found. -/
theorem outcome_search_detecting (ranked : m.ranked = true) :
    ((m.detecting true).search chains test limit?).outcome =
      ((m.detecting false).search chains test limit?).outcome.bind fun best? =>
        match best? with
        | none => .ok none
        | some i =>
          match m.rule? i with
          | none => .ok (some i)
          | some r => (m.reportChains test i r chains).outcome.map fun _ => some i := by
  rw [outcome_search_of_not_detecting (m := m.detecting false) ranked rfl, searchChains_detecting, search,
    if_pos (show (m.detecting true).ranked = true from ranked), searchChains_detecting, Eval.outcome_bind]
  cases (m.searchChains test limit? none chains).outcome with
  | error e => rfl
  | ok best? =>
    cases best? with
    | none => rfl
    | some i =>
      have detects : (m.detecting true).detectConflicts = true := rfl
      simp only [Except.bind, if_pos detects, rule?_detecting, reportChains_detecting]
      cases m.rule? i with
      | none => rfl
      | some r =>
        simp only [Eval.outcome_bind]
        cases (m.reportChains test i r chains).outcome <;> rfl

/-! ### Rivals of the rule that is found -/

variable {d : Dispatcher} {a : Item} {c : Context}

/-- The error of the test of some rival of a rule on an item. -/
def Disputes (m : Mode) (d : Dispatcher) (a : Item) (c : Context) (i : Nat) (e : Error) : Prop :=
  ∃ r j s, m.rule? i = some r ∧ m.Rivals i r j s ∧ (s.pattern.accepts d c a).outcome = .error e

/-- How the result of a search with detection of conflicts compares with that of the search without: it is the
same, unless a rule is found and the test of one of its rivals fails; and then it is the error of such a
test. -/
structure Compares (m : Mode) (d : Dispatcher) (a : Item) (c : Context)
    (without withDetection : Except Error (Option Nat)) : Prop where
  same : (∀ i, without = .ok (some i) → ∀ e, ¬ m.Disputes d a c i e) → withDetection = without
  fails : ∀ i, without = .ok (some i) → (∃ e, m.Disputes d a c i e) →
    ∃ e, m.Disputes d a c i e ∧ withDetection = .error e

/-- A rival whose test fails is in a chain of the item. -/
theorem rivalFails_iff (filed : m.Filed) (hr : m.rule? i = some r) (e : Error) :
    m.RivalFails (fun s => s.pattern.accepts d c a) i r (m.chainsFor c.forest a).flatten e ↔
      m.Disputes d a c i e := by
  constructor
  · rintro ⟨j, -, s, rivals, hfails⟩
    exact ⟨r, j, s, hr, rivals, hfails⟩
  · rintro ⟨_, j, s, hr', rivals, hfails⟩
    obtain rfl : r = _ := Option.some.inj (hr.symm.trans hr')
    have hne : (s.pattern.accepts d c a).outcome ≠ .ok false := by simp [hfails]
    exact ⟨j, mem_chainsFor_of_ne filed rivals.1 hne, s, rivals, hfails⟩

theorem compares_search (made : m.Made) (limit? : Option Rule) :
    m.Compares d a c
      ((m.detecting false).search (m.chainsFor c.forest a) (fun r => r.pattern.accepts d c a) limit?).outcome
      ((m.detecting true).search (m.chainsFor c.forest a) (fun r => r.pattern.accepts d c a)
        limit?).outcome := by
  cases ranked : m.ranked with
  | false => constructor <;> simp [search, detecting, ranked, Eval.fail]
  | true =>
    rw [outcome_search_detecting ranked]
    cases ((m.detecting false).search (m.chainsFor c.forest a) (fun r => r.pattern.accepts d c a)
        limit?).outcome with
    | error e => constructor <;> simp [Except.bind]
    | ok best? =>
      cases best? with
      | none => constructor <;> simp [Except.bind]
      | some i =>
        cases hr : m.rule? i with
        | none => constructor <;> simp [Except.bind, hr, Disputes]
        | some r =>
          -- With detection the search fails just where the report on the best rule does.
          have reports : FailsWith (m.Disputes d a c i) (m.reportChains (fun s => s.pattern.accepts d c a) i r
              (m.chainsFor c.forest a)).outcome :=
            (failsWith_reportChains (bestFirst_chainsFor (made.wellRanked ranked).ordered)).of_iff
              (rivalFails_iff made.arranged.toFiled hr)
          simp only [Except.bind, hr]
          cases hreports : (m.reportChains (fun s => s.pattern.accepts d c a) i r
              (m.chainsFor c.forest a)).outcome with
          | ok _ =>
            rw [hreports] at reports
            refine ⟨fun _ => rfl, fun _ hi h => ?_⟩
            obtain rfl := Option.some.inj (Except.ok.inj hi)
            obtain ⟨e, he⟩ := h
            exact absurd he (reports e)
          | error e =>
            rw [hreports] at reports
            refine ⟨fun h => absurd reports (h i rfl e), fun _ hi _ => ?_⟩
            obtain rfl := Option.some.inj (Except.ok.inj hi)
            exact ⟨e, reports, rfl⟩

/-- **Detection of conflicts can make a search fail, and changes nothing else.**  Take a mode once with
detection of conflicts and once without.  The search for the best rule for an item has the same result in
both, and so has the search for the next rule below any other, except where a rule is found and the test of
another rule of the same rank fails on the item.  Then the search with detection fails, with the error of such
a test, though the rule is found without it. -/
theorem detecting_differs (made : m.Made) (d : Dispatcher) (a : Item) (c : Context) :
    m.Compares d a c ((m.detecting false).bestRule d a c).outcome ((m.detecting true).bestRule d a c).outcome ∧
    ∀ current, m.Compares d a c ((m.detecting false).nextRule d current a c).outcome
      ((m.detecting true).nextRule d current a c).outcome := by
  refine ⟨compares_search made none, fun current => ?_⟩
  simp only [nextRule, rule?_detecting]
  cases m.rule? current with
  | none => constructor <;> simp [Eval.fail, detecting]
  | some limit => exact compares_search made (some limit)

/-- Of two rules of the same rank for the elements of a name the one with a predicate that fails was declared
first.  The other one is found for such an element, but not with detection of conflicts. -/
theorem detecting_differs_at_predicate :
    let m := (((Mode.initial .unnamed).add
      (.predicate (.element "a") (.literal [.integer 1, .integer 2] .unknown)) .empty 0 (some 1)).2.add
      (.element "a") .empty 0 (some 1)).2.rank
    let c := Context.initial (Forest.empty.add ⟨.element, some ⟨none, .plain "a"⟩, none, [], []⟩)
    m.Made ∧ ((m.detecting false).bestRule .none (.node 0) c).outcome = .ok (some 1) ∧
      ∃ e, m.Disputes .none (.node 0) c 1 e ∧
        ((m.detecting true).bestRule .none (.node 0) c).outcome = .error e := by
  intro m c
  have made : m.Made := .rank (.add _ _ _ _ (.add _ _ _ _ (.initial _)))
  have found : ((m.detecting false).bestRule .none (.node 0) c).outcome = .ok (some 1) := by rfl
  have disputed : m.Disputes .none (.node 0) c 1 (.of .predicateOfSeveral) :=
    ⟨_, 0, _, rfl, ⟨rfl, by decide, by rfl⟩, by rfl⟩
  exact ⟨made, found, (detecting_differs made .none (.node 0) c).1.fails 1 found ⟨_, disputed⟩⟩

end TreeQuery.Mode
