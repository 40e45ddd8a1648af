/-
Whole runs of construction.

`Mode.construct` performs operations on a new mode, in any order.  Whatever they are
(`Mode.construct_inOrder`), the table that they leave is arranged; a mode that was given a rule since the
last ranking, or was never ranked, refuses to search for rules; and any other mode is well ranked and has no
errors of its own.
-/
import TreeQuery.Proofs.Ranking

namespace TreeQuery.Mode

variable {m : Mode}

/-- What can be done to a mode. -/
inductive Operation where
  | add (p : Pattern) (action : Expr) (precedence : Int) (priority : Option Float)
  | rank
  | setNoMatch (noMatch : NoMatch)
  | setDetectConflicts (detectConflicts : Bool)

/-- Whether an operation adds a rule. -/
def Operation.Adds : Operation → Prop
  | .add .. => True
  | _ => False

/-- Does something to a mode. -/
def perform (m : Mode) : Operation → Mode
  | .add p action precedence priority => (m.add p action precedence priority).2
  | .rank => m.rank
  | .setNoMatch noMatch => { m with noMatch }
  | .setDetectConflicts detectConflicts => { m with detectConflicts }

/-- The mode that operations make of a new one. -/
def construct (name : ModeName) (ops : List Operation) : Mode := ops.foldl perform (.initial name)

/-- Whether rules were added since the last ranking, or there was no ranking. -/
def AwaitsRanking (ops : List Operation) : Prop :=
  ∀ before after, ops = before ++ .rank :: after → ∃ op ∈ after, op.Adds

theorem construct_concat (name : ModeName) (ops : List Operation) (op : Operation) :
    construct name (ops ++ [op]) = (construct name ops).perform op := by
  rw [construct, List.foldl_append]
  rfl

theorem made_construct (name : ModeName) (ops : List Operation) : (construct name ops).Made := by
  induction ops using List.reverseRecOn with
  | nil => exact .initial name
  | append_singleton ops op ih =>
    rw [construct_concat]
    cases op with
    | add p action precedence priority => exact ih.add p action precedence priority
    | rank => exact ih.rank
    | setNoMatch noMatch => exact ih.configure noMatch _
    | setDetectConflicts detectConflicts => exact ih.configure _ detectConflicts

theorem awaitsRanking_concat_rank (ops : List Operation) : ¬ AwaitsRanking (ops ++ [.rank]) := by
  intro h
  obtain ⟨op, hop, -⟩ := h ops [] rfl
  cases hop

theorem awaitsRanking_concat {ops : List Operation} {op : Operation} (h : op ≠ .rank) :
    AwaitsRanking (ops ++ [op]) ↔ op.Adds ∨ AwaitsRanking ops := by
  constructor
  · intro awaits
    by_cases hadds : op.Adds
    · exact .inl hadds
    · refine .inr fun before after heq => ?_
      obtain ⟨op', hop', hadds'⟩ := awaits before (after ++ [op]) (by simp [heq])
      rcases List.mem_append.mp hop' with hop' | hop'
      · exact ⟨op', hop', hadds'⟩
      · exact absurd (List.mem_singleton.mp hop' ▸ hadds') hadds
  · intro awaits before after heq
    -- The ranking is not the last operation, so that operation comes after it.
    rcases List.eq_nil_or_concat after with rfl | ⟨after, last, rfl⟩
    · exact absurd (List.append_inj_right' heq rfl) (by simpa using h)
    · have heq : ops ++ [op] = (before ++ .rank :: after) ++ [last] := by simpa using heq
      obtain ⟨hops, hlast⟩ := List.append_inj' heq rfl
      obtain rfl : op = last := by simpa using hlast
      rcases awaits with hadds | awaits
      · exact ⟨op, by simp, hadds⟩
      · obtain ⟨op', hop', hadds⟩ := awaits before after hops
        exact ⟨op', by simp [hop'], hadds⟩

theorem ranked_construct_eq_false_iff (name : ModeName) (ops : List Operation) :
    (construct name ops).ranked = false ↔ AwaitsRanking ops := by
  induction ops using List.reverseRecOn with
  | nil => simp [construct, Mode.initial, AwaitsRanking]
  | append_singleton ops op ih =>
    rw [construct_concat]
    cases op with
    | rank => simp [perform, Mode.rank, awaitsRanking_concat_rank]
    | add p action precedence priority =>
      simp [perform, Mode.add, awaitsRanking_concat, Operation.Adds]
    | setNoMatch noMatch => simpa [perform, awaitsRanking_concat, Operation.Adds] using ih
    | setDetectConflicts detectConflicts => simpa [perform, awaitsRanking_concat, Operation.Adds] using ih

/-- Whether a mode gives no answer to any search for a rule but an internal error, without a look at the
item. -/
def Refuses (m : Mode) : Prop :=
  ∃ e : Error, e.code = ErrorCode.QRIN0001.name ∧ e.kind = .internal ∧ ∀ d a c,
    m.bestRule d a c = .fail e ∧ ∀ i r, m.rule? i = some r → m.nextRule d i a c = .fail e

/-- Whether a mode answers every search for a rule, unless the test of some rule fails with an error, which
is the error of the search then. -/
def Answers (m : Mode) : Prop :=
  ∀ d a c e, ((m.bestRule d a c).outcome = .error e ∨
      ∃ i r, m.rule? i = some r ∧ (m.nextRule d i a c).outcome = .error e) →
    ∃ r ∈ m.rules, (r.pattern.accepts d c a).outcome = .error e

theorem refuses_of_not_ranked (h : m.ranked = false) : m.Refuses := by
  refine ⟨.of (.unranked m.name), rfl, rfl, fun d a c => ⟨?_, fun i r hr => ?_⟩⟩
  · simp [bestRule, search, h]
  · simp [nextRule, search, h, hr]

theorem FailsIn.exists_rule {test : Rule → Eval Bool} {chain : List Nat} {e : Error} (h : m.FailsIn test chain e) :
    ∃ r ∈ m.rules, (test r).outcome = .error e := by
  obtain ⟨i, -, r, hr, hfails⟩ := h
  exact ⟨r, List.mem_of_getElem? hr, hfails⟩

theorem answers_of_ranked (h : m.ranked = true) : m.Answers := by
  rintro d a c e (hfails | ⟨i, r, hr, hfails⟩)
  · exact (failsIn_of_search h hfails).exists_rule
  · rw [nextRule, hr] at hfails
    exact (failsIn_of_search h hfails).exists_rule

/-- **The table is in order after every run of construction.**  Whatever was done to a new mode, every rule is in
exactly one chain, the one of its own key, and rules are numbered as they were declared.  A mode to which rules
were added since the last ranking, or which was never ranked, refuses every search for a rule; any other one fails
only if a test of a pattern fails, and it is well ranked.  Ranking it now makes it so: ranks agree with
precedence and priority and leave no number out, and every chain goes strictly down. -/
theorem construct_inOrder (name : ModeName) (ops : List Operation) :
    (construct name ops).Arranged ∧
    (AwaitsRanking ops → (construct name ops).Refuses) ∧
    (¬ AwaitsRanking ops → (construct name ops).Answers ∧ (construct name ops).WellRanked) ∧
    (construct name ops).rank.WellRanked := by
  have made := made_construct name ops
  rw [← ranked_construct_eq_false_iff name, Bool.not_eq_false]
  refine ⟨made.arranged, refuses_of_not_ranked, fun ranked => ?_, made.arranged.wellRanked_rank⟩
  exact ⟨answers_of_ranked ranked, made.wellRanked ranked⟩

end TreeQuery.Mode
