/-
Which warnings a search gives.

After a search that found a rule, a mode that detects conflicts goes through the chains of the item once more.  It
tests the rivals of the rule, those of the same rank, and gives a warning for each that matches
(`Mode.search_detecting`).  Every rule is in one chain only (`Mode.nodup_chainsFor`), so that nothing is reported
twice.

* `Mode.conflicts_reported`: the warnings of a search, which are those of the tests and one for each rival that
  matches.  The rivals of the best rule were all declared before it.  Those of a rule that was looked for below
  another one were declared before it if and only if they are below that other one; rules that the search had
  excluded are reported as well.
-/
import TreeQuery.Proofs.ConflictDetection

namespace TreeQuery.Mode

variable {m : Mode} {test : Rule → Eval Bool} {limit? : Option Rule} {chains : List (List Nat)} {i : Nat}
  {r : Rule}

/-! ### Chains -/

/-- A chain under one key has no rule in common with that under another key, or with the general one. -/
theorem Filed.disjoint_chainOf (filed : m.Filed) {k : Key} {j : Nat} (hj : j ∈ m.chainOf k) :
    j ∉ m.general ∧ ∀ k', j ∈ m.chainOf k' → k' = k := by
  obtain ⟨s, hs, hk⟩ := filed.keyed hj
  refine ⟨fun hj' => ?_, fun k' hj' => ?_⟩
  · obtain ⟨s', hs', hnone⟩ := filed.general hj'
    obtain rfl : s = s' := Option.some.inj (hs.symm.trans hs')
    rw [hk] at hnone
    cases hnone
  · obtain ⟨s', hs', hk'⟩ := filed.keyed hj'
    obtain rfl : s = s' := Option.some.inj (hs.symm.trans hs')
    exact Option.some.inj (hk'.symm.trans hk)

theorem Arranged.nodup_chainOf (arranged : m.Arranged) (k : Key) : (m.chainOf k).Nodup := by
  rw [chainOf]
  cases hentry : m.keyed.find? (·.1 == k) with
  | none => exact List.nodup_nil
  | some entry =>
    refine arranged.nodup_of_mem_chains (List.mem_cons_of_mem _ ?_)
    exact List.mem_map_of_mem (List.mem_of_find?_eq_some hentry)

theorem Arranged.nodup_general (arranged : m.Arranged) : m.general.Nodup :=
  arranged.nodup_of_mem_chains List.mem_cons_self

/-- The chains that are searched for an item have no rule in common, and none holds a rule twice. -/
theorem nodup_chainsFor (arranged : m.Arranged) (f : Forest) (a : Item) : (m.chainsFor f a).flatten.Nodup := by
  have two (k : Key) : (m.chainOf k ++ m.general).Nodup :=
    List.nodup_append'.mpr ⟨arranged.nodup_chainOf k, arranged.nodup_general, fun j hj =>
      (arranged.toFiled.disjoint_chainOf hj).1⟩
  cases a with
  | atomic v => simpa [chainsFor, Key.ofItem?] using arranged.nodup_general
  | node n =>
    have three (space : Option String) (localPart : String) :
        (m.chainOf (.named (f.kind n) space localPart) ++ (m.chainOf (.ofKind (f.kind n)) ++ m.general)).Nodup := by
      refine List.nodup_append'.mpr ⟨arranged.nodup_chainOf _, two _, fun j hj hj' => ?_⟩
      obtain ⟨apart, only⟩ := arranged.toFiled.disjoint_chainOf hj
      rcases List.mem_append.mp hj' with hj' | hj'
      · cases only _ hj'
      · exact apart hj'
    simp only [chainsFor, Key.ofItem?, Key.ofNode]
    cases f.name? n with
    | none => simpa using two (.ofKind (f.kind n))
    | some q => simpa using three q.space q.localPart

/-! ### Reports -/

/-- The rivals of a rule in a chain. -/
def ties (m : Mode) (i : Nat) (r : Rule) (chain : List Nat) : List (Nat × Rule) :=
  chain.filterMap fun j => (m.rule? j).bind fun s => if j ≠ i ∧ s.rank = r.rank then some (j, s) else none

/-- The warnings that the test of a rule gives, and one if the rule matches as the chosen one does. -/
def report (m : Mode) (test : Rule → Eval Bool) (chosen s : Rule) : List Warning :=
  (test s).log ++ if (test s).outcome.toOption = some true then [⟨m.name, chosen.sequence, s.sequence⟩] else []

theorem mem_ties {chain : List Nat} {j : Nat} {s : Rule} :
    (j, s) ∈ m.ties i r chain ↔ j ∈ chain ∧ m.Rivals i r j s := by
  simp only [ties, List.mem_filterMap, Option.bind_eq_some_iff, Option.ite_none_right_eq_some,
    Option.some.injEq, Prod.mk.injEq, Rivals]
  constructor
  · rintro ⟨_, hj, _, hs, rival, rfl, rfl⟩
    exact ⟨hj, hs, rival⟩
  · rintro ⟨hj, hs, rival⟩
    exact ⟨j, hj, s, hs, rival, rfl, rfl⟩

theorem ties_append (chain chain' : List Nat) :
    m.ties i r (chain ++ chain') = m.ties i r chain ++ m.ties i r chain' := List.filterMap_append

theorem nodup_ties {chain : List Nat} (nodup : chain.Nodup) : ((m.ties i r chain).map (·.1)).Nodup := by
  have sublist : ((m.ties i r chain).map (·.1)).Sublist chain := by
    clear nodup
    induction chain with
    | nil => exact .slnil
    | cons j rest ih =>
      rw [← List.singleton_append, ties_append, List.map_append]
      refine List.Sublist.append ?_ ih
      rw [ties, List.filterMap_cons, List.filterMap_nil]
      cases hs : m.rule? j with
      | none => simp
      | some s => by_cases rival : j ≠ i ∧ s.rank = r.rank <;> simp [rival]
  exact nodup.sublist sublist

theorem reportChain_cons {j : Nat} {s : Rule} {rest : List Nat} (hs : m.rule? j = some s)
    (hrank : ¬ s.rank < r.rank) : m.reportChain test i r (j :: rest) =
      m.probe test i r j s >>= fun _ => m.reportChain test i r rest := by
  rw [reportChain, hs]
  simp only [if_neg hrank, probe]
  split
  · rcases test s with ⟨log, e | b⟩
    · rfl
    · cases b <;> simp [Eval.warn]
  · simp

theorem probe_eq {j : Nat} {s : Rule} {b : Bool} (rival : j ≠ i ∧ s.rank = r.rank)
    (tested : (test s).outcome = .ok b) : m.probe test i r j s = ⟨m.report test r s, .ok ()⟩ := by
  rw [probe, if_pos rival, report]
  generalize test s = x at tested ⊢
  obtain ⟨log, outcome⟩ := x
  obtain rfl : outcome = .ok b := tested
  cases b <;> simp [Eval.warn, Except.toOption]

/-- The reports of a chain whose tests do not fail.  No rival is left out, since the rules of lower rank come
last. -/
theorem reportChain_eq {chain : List Nat} (sorted : BestFirst m.rules chain) (tested : m.Testable test chain) :
    m.reportChain test i r chain = ⟨(m.ties i r chain).flatMap fun t => m.report test r t.2, .ok ()⟩ := by
  induction chain with
  | nil => rfl
  | cons j rest ih =>
    obtain ⟨first, sortedRest⟩ := List.pairwise_cons.mp sorted
    have others := ih sortedRest fun k hk => tested k (List.mem_cons_of_mem _ hk)
    cases hs : m.rule? j with
    | none =>
      have same : m.ties i r (j :: rest) = m.ties i r rest := by simp [ties, hs]
      rw [reportChain, hs, same]
      exact others
    | some s =>
      by_cases hrank : s.rank < r.rank
      -- The report stops at this rule; nothing after it ranks higher, so that no rival is left.
      · have none : m.ties i r (j :: rest) = [] := by
          refine List.eq_nil_iff_forall_not_mem.mpr fun t ht => ?_
          obtain ⟨hk, ht, -, hequal⟩ := mem_ties.mp ht
          rcases List.mem_cons.mp hk with hk | hk
          · obtain rfl : s = t.2 := Option.some.inj (hs.symm.trans (hk ▸ ht))
            omega
          · have := Rule.isBelow_eq_false_iff.mp (first t.1 hk s t.2 hs ht)
            omega
        rw [reportChain, hs, none]
        simp only [if_pos hrank]
        rfl
      · rw [reportChain_cons hs hrank, others]
        by_cases rival : j ≠ i ∧ s.rank = r.rank
        · have more : m.ties i r (j :: rest) = (j, s) :: m.ties i r rest := by simp [ties, hs, rival]
          obtain ⟨b, hb⟩ := tested j List.mem_cons_self s hs
          rw [probe_eq rival hb, more]
          rfl
        · have same : m.ties i r (j :: rest) = m.ties i r rest := by simp [ties, hs, rival]
          rw [probe, if_neg rival, same]
          rfl

theorem reportChains_eq (sorted : ∀ chain ∈ chains, BestFirst m.rules chain)
    (tested : ∀ chain ∈ chains, m.Testable test chain) : m.reportChains test i r chains =
      ⟨(m.ties i r chains.flatten).flatMap fun t => m.report test r t.2, .ok ()⟩ := by
  induction chains with
  | nil => rfl
  | cons chain rest ih =>
    have others := ih (fun c hc => sorted c (List.mem_cons_of_mem _ hc)) fun c hc =>
      tested c (List.mem_cons_of_mem _ hc)
    rw [reportChains, reportChain_eq (sorted chain List.mem_cons_self) (tested chain List.mem_cons_self),
      others, List.flatten_cons, ties_append, List.flatMap_append]
    rfl

/-- With detection the warnings of a search are followed by the reports on the rule that is found. -/
theorem search_detecting (ranked : m.ranked = true) (detects : m.detectConflicts = true)
    (sorted : ∀ chain ∈ chains, BestFirst m.rules chain) (tested : ∀ chain ∈ chains, m.Testable test chain)
    (h : (m.search chains test limit?).outcome = .ok (some i)) (hr : m.rule? i = some r) :
    (m.search chains test limit?).log = ((m.detecting false).search chains test limit?).log ++
      (m.ties i r chains.flatten).flatMap fun t => m.report test r t.2 := by
  have found := searchChains_of_search h
  rw [search, search, if_pos ranked, if_pos (show (m.detecting false).ranked = true from ranked),
    searchChains_detecting]
  generalize m.searchChains test limit? none chains = x at found ⊢
  obtain ⟨log, outcome⟩ := x
  obtain rfl : outcome = .ok (some i) := found
  have quiet : (m.detecting false).detectConflicts = false := rfl
  simp only [Eval.bind_ok, if_pos detects, quiet, hr, reportChains_eq sorted tested]
  simp

/-! ### The warnings of a search -/

variable {d : Dispatcher} {a : Item} {c : Context}

/-- Whether the warnings given for a rule are those of the tests of rivals, each tested once, with one warning for
every rival that matches. -/
def Reports (m : Mode) (d : Dispatcher) (a : Item) (c : Context) (i : Nat) (r : Rule) (log : List Warning) :
    Prop :=
  ∃ tested : List (Nat × Rule), (tested.map (·.1)).Nodup ∧ (∀ j s, (j, s) ∈ tested → m.Rivals i r j s) ∧
    (∀ j s, m.Rivals i r j s → (s.pattern.accepts d c a).outcome = .ok true → (j, s) ∈ tested) ∧
    log = tested.flatMap fun t => m.report (fun s => s.pattern.accepts d c a) r t.2

section

variable (made : m.Made) (ranked : m.ranked = true)
include made ranked

/-- A search that finds a rule gives the warnings of its tests and then reports the rivals that match. -/
theorem exists_reports (detects : m.detectConflicts = true)
    (tested : ∀ r ∈ m.rules, ∀ e, (r.pattern.accepts d c a).outcome ≠ .error e)
    (h : (m.search (m.chainsFor c.forest a) (fun r => r.pattern.accepts d c a) limit?).outcome = .ok (some i)) :
    ∃ r log, m.rule? i = some r ∧ m.Reports d a c i r log ∧
      (m.search (m.chainsFor c.forest a) (fun r => r.pattern.accepts d c a) limit?).log =
        ((m.detecting false).search (m.chainsFor c.forest a) (fun r => r.pattern.accepts d c a) limit?).log ++
          log := by
  have filed : m.Filed := made.arranged.toFiled
  have ordered : m.Ordered := (made.wellRanked ranked).ordered
  obtain ⟨r, hr, -, -⟩ := (settles_of_search filed ordered h).accepted i rfl
  have testable : ∀ chain ∈ m.chainsFor c.forest a, m.Testable (fun r => r.pattern.accepts d c a) chain := by
    intro _ _ j _ s hs
    cases hout : (s.pattern.accepts d c a).outcome with
    | ok b => exact ⟨b, rfl⟩
    | error e => exact absurd hout (tested s (List.mem_of_getElem? hs) e)
  refine ⟨r, _, hr, ⟨m.ties i r (m.chainsFor c.forest a).flatten, nodup_ties (nodup_chainsFor made.arranged _ _),
    fun j s ht => (mem_ties.mp ht).2, fun j s rivals hmatch => mem_ties.mpr ⟨?_, rivals⟩, rfl⟩,
    search_detecting ranked detects (bestFirst_chainsFor ordered) testable h hr⟩
  exact mem_chainsFor_of_ne filed rivals.1 (by rw [hmatch]; simp)

/-- A rival of the rule that is found was declared before it if and only if it is below the limit. -/
theorem eligible_iff_of_rivals {j : Nat} {s : Rule}
    (h : (m.search (m.chainsFor c.forest a) (fun r => r.pattern.accepts d c a) limit?).outcome = .ok (some i))
    (hr : m.rule? i = some r) (rivals : m.Rivals i r j s)
    (hmatch : (s.pattern.accepts d c a).outcome = .ok true) :
    Eligible limit? s ↔ s.sequence < r.sequence := by
  have filed : m.Filed := made.arranged.toFiled
  have settles := settles_of_search filed (made.wellRanked ranked).ordered h
  obtain ⟨r', hr', heligible, -⟩ := settles.accepted i rfl
  obtain rfl : r = r' := Option.some.inj (hr.symm.trans hr')
  obtain ⟨hs, hne, hrank⟩ := rivals
  constructor
  · intro hs'
    rcases others_of_settles filed settles hs hs' with hno | ⟨_, b, hi, hb, hnot⟩
    · rw [hmatch] at hno
      cases hno
    · cases hi
      obtain rfl : r = b := Option.some.inj (hr.symm.trans hb)
      -- Rules are numbered as they were declared, so that no two have one number.
      rcases made.arranged.isBelow_or hs hr hne with hbelow | hbelow
      · have := Rule.isBelow_iff.mp hbelow
        omega
      · rw [hnot] at hbelow
        cases hbelow
  · intro hlt limit hlimit
    have hbelow : s.isBelow r = true := Rule.isBelow_iff.mpr (.inr ⟨hrank, hlt⟩)
    exact Rule.isBelow_trans hbelow (heligible limit hlimit)

end

/-- **The warnings of a search.**  Let a mode be ranked and detect conflicts, and let no test of a pattern on the
item fail.  When the best rule for an item is found, the warnings of the search are followed by one for each
other rule of the same rank that matches, once each and without any other but those of the tests; and the
rule that was found is the one declared last of them.  When a rule is found below another one, a warning is
given in the same way for each other rule of the same rank that matches, whether or not it is below that
other one.  The rule that was found was declared after those that are below it, and before those that the search
had excluded. -/
theorem conflicts_reported (made : m.Made) (ranked : m.ranked = true) (detects : m.detectConflicts = true)
    (d : Dispatcher) (a : Item) (c : Context)
    (tested : ∀ r ∈ m.rules, ∀ e, (r.pattern.accepts d c a).outcome ≠ .error e) :
    (∀ i, (m.bestRule d a c).outcome = .ok (some i) →
      ∃ r log, m.rule? i = some r ∧ m.Reports d a c i r log ∧
        (m.bestRule d a c).log = ((m.detecting false).bestRule d a c).log ++ log ∧
        ∀ j s, m.Rivals i r j s → (s.pattern.accepts d c a).outcome = .ok true → s.sequence < r.sequence) ∧
    ∀ current limit i, m.rule? current = some limit → (m.nextRule d current a c).outcome = .ok (some i) →
      ∃ r log, m.rule? i = some r ∧ m.Reports d a c i r log ∧
        (m.nextRule d current a c).log = ((m.detecting false).nextRule d current a c).log ++ log ∧
        ∀ j s, m.Rivals i r j s → (s.pattern.accepts d c a).outcome = .ok true →
          (s.isBelow limit = true ↔ s.sequence < r.sequence) := by
  constructor
  · intro i h
    obtain ⟨r, log, hr, reports, hlog⟩ := exists_reports made ranked detects tested h
    refine ⟨r, log, hr, reports, hlog, fun j s rivals hmatch => ?_⟩
    exact (eligible_iff_of_rivals made ranked h hr rivals hmatch).mp fun _ hnone => by cases hnone
  · intro current limit i hlimit h
    have next : m.nextRule d current a c =
        m.search (m.chainsFor c.forest a) (fun r => r.pattern.accepts d c a) (some limit) := by
      rw [nextRule, hlimit]
    have quiet : (m.detecting false).nextRule d current a c = (m.detecting false).search
        (m.chainsFor c.forest a) (fun r => r.pattern.accepts d c a) (some limit) := by
      rw [nextRule, rule?_detecting, hlimit]
      rfl
    rw [next] at h ⊢
    rw [quiet]
    obtain ⟨r, log, hr, reports, hlog⟩ := exists_reports made ranked detects tested h
    refine ⟨r, log, hr, reports, hlog, fun j s rivals hmatch => ?_⟩
    rw [← eligible_iff_of_rivals made ranked h hr rivals hmatch]
    exact ⟨fun hbelow _ hlimit => Option.some.inj hlimit ▸ hbelow, fun heligible => heligible limit rfl⟩

/-- Of two rules of the same rank the first one is found below the second one, which was declared last; and a
warning is given that names the second one, though it had been excluded. -/
theorem conflicts_reported_excluded :
    let m : Mode := { (((Mode.initial .unnamed).add (.element "a") .empty 0 (some 1)).2.add
      (.element "a") .empty 0 (some 1)).2.rank with detectConflicts := true }
    let c := Context.initial (Forest.empty.add ⟨.element, some ⟨none, .plain "a"⟩, none, [], []⟩)
    m.Made ∧ (∀ r ∈ m.rules, ∀ e, (r.pattern.accepts .none c (.node 0)).outcome ≠ .error e) ∧
      (m.nextRule .none 1 (.node 0) c).outcome = .ok (some 0) ∧
      (m.nextRule .none 1 (.node 0) c).log = [⟨.unnamed, 0, 1⟩] ∧
      ∃ r s, m.rule? 0 = some r ∧ m.Rivals 0 r 1 s ∧ (s.pattern.accepts .none c (.node 0)).outcome = .ok true ∧
        ¬ s.sequence < r.sequence := by
  intro m c
  have made : m.Made := .configure _ _ (.rank (.add _ _ _ _ (.add _ _ _ _ (.initial _))))
  have found : (m.nextRule .none 1 (.node 0) c).outcome = .ok (some 0) := by rfl
  have patterns : m.rules.map (·.pattern) = [.element "a", .element "a"] := rfl
  have tested : ∀ r ∈ m.rules, ∀ e, (r.pattern.accepts .none c (.node 0)).outcome ≠ .error e := by
    intro r hr e
    have hpattern : r.pattern ∈ m.rules.map (·.pattern) := List.mem_map_of_mem hr
    rw [patterns] at hpattern
    obtain h : r.pattern = .element "a" := by simpa using hpattern
    rw [h]
    rintro ⟨⟩
  obtain ⟨r, log, hr, -, -, excluded⟩ :=
    (conflicts_reported made rfl rfl .none (.node 0) c tested).2 1 _ 0 rfl found
  have rivals : m.Rivals 0 r 1 _ := ⟨rfl, by decide, by cases hr; rfl⟩
  refine ⟨made, tested, found, by rfl, r, _, hr, rivals, by rfl, fun hlt => ?_⟩
  have hbelow := (excluded 1 _ rivals (by rfl)).mpr hlt
  rw [Rule.isBelow_iff] at hbelow
  omega

end TreeQuery.Mode
