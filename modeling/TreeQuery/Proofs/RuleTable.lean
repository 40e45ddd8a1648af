/-
The tables of rules that construction reaches.

`Mode.Reachable` are the modes that come about by adding rules, ranking them and setting the options
of a mode, in any order.  In all of them

* `Mode.Filed` — every rule is in the chain of its pattern's key, or in the general chain if it has
  none, and a chain holds no other rules;
* `Mode.Ordered` — while a mode is ranked, every chain is ordered best first, and the rules that need
  no test are those whose pattern matches its whole key.

Both are invariants of the operations (`Mode.Reachable.filed`, `Mode.Reachable.ordered`).

Design notes: `Mode.Ordered` says of two rules in a chain only that the later one is not better.  This
is all that a search needs to stop early, and it needs no knowledge about equal ranks.
-/
import TreeQuery.Proofs.KeyedPatterns
import TreeQuery.Rule.Mode

namespace TreeQuery

namespace Rule

variable {r s t : Rule}

theorem isBelow_iff :
    r.isBelow s = true ↔ r.rank < s.rank ∨ r.rank = s.rank ∧ r.sequence < s.sequence := by
  simp [isBelow]

theorem isBelow_eq_false_iff :
    r.isBelow s = false ↔ s.rank < r.rank ∨ s.rank = r.rank ∧ s.sequence ≤ r.sequence := by
  rw [← Bool.not_eq_true, isBelow_iff]
  omega

theorem not_isBelow_of_isBelow (h : r.isBelow s = true) : s.isBelow r = false := by
  rw [isBelow_iff] at h
  rw [isBelow_eq_false_iff]
  omega

theorem isBelow_trans (h : r.isBelow s = true) (h' : s.isBelow t = true) : r.isBelow t = true := by
  rw [isBelow_iff] at *
  omega

/-- What is not better than a rule is not better than a rule above it. -/
theorem not_isBelow_trans (h : s.isBelow t = false) (h' : s.isBelow r = true) :
    r.isBelow t = false := by
  rw [isBelow_iff] at h'
  rw [isBelow_eq_false_iff] at h ⊢
  omega

/-- What is not better than a rule is not better than a rule that is at least as good. -/
theorem not_isBelow_of_le (h : r.isBelow s = false) (h' : s.isBelow t = false) :
    r.isBelow t = false := by
  rw [isBelow_eq_false_iff] at *
  omega

end Rule

namespace Mode

variable {m : Mode}

/-- The modes that come about by adding and ranking rules and by setting options. -/
inductive Reachable : Mode → Prop
  | initial (name : ModeName) : Reachable (.initial name)
  | add {m : Mode} (p : Pattern) (action : Expr) (precedence : Int) (priority : Option Float) :
      Reachable m → Reachable (m.add p action precedence priority).2
  | rank {m : Mode} : Reachable m → Reachable m.rank
  | configure {m : Mode} (noMatch : NoMatch) (detectConflicts : Bool) :
      Reachable m → Reachable { m with noMatch, detectConflicts }

/-- The chain of a rule: the one under the key of its pattern, or the general one. -/
def chainFor (m : Mode) (r : Rule) : List Nat :=
  match r.pattern.key? with
  | some key => m.chainOf key
  | none => m.general

/-! ### Filing -/

/-- Every rule is in its own chain and every chain holds only rules of its own. -/
structure Filed (m : Mode) : Prop where
  mem_chainFor : ∀ {i : Nat} {r : Rule}, m.rule? i = some r → i ∈ m.chainFor r
  keyed : ∀ {key : Key} {i : Nat}, i ∈ m.chainOf key →
    ∃ r, m.rule? i = some r ∧ r.pattern.key? = some key
  general : ∀ {i : Nat}, i ∈ m.general → ∃ r, m.rule? i = some r ∧ r.pattern.key? = none

/-- The chain under a key in a table of chains. -/
private def chainIn (table : List (Key × List Nat)) (key : Key) : List Nat :=
  ((table.find? (·.1 == key)).map (·.2)).getD []

private theorem chainOf_eq (m : Mode) (key : Key) : m.chainOf key = chainIn m.keyed key := rfl

private theorem chainIn_cons (k : Key) (chain : List Nat) (rest : List (Key × List Nat))
    (key : Key) :
    chainIn ((k, chain) :: rest) key = if k = key then chain else chainIn rest key := by
  by_cases h : k = key
  · simp [chainIn, h]
  · simp [chainIn, h]

private theorem chainIn_fileUnder (key key' : Key) (i : Nat) (table : List (Key × List Nat)) :
    chainIn (fileUnder key i table) key' =
      chainIn table key' ++ if key = key' then [i] else [] := by
  induction table with
  | nil =>
    simp only [fileUnder, chainIn_cons]
    split <;> simp [chainIn]
  | cons entry rest ih =>
    obtain ⟨k, chain⟩ := entry
    simp only [fileUnder]
    by_cases hk : k = key
    · rw [if_pos hk, chainIn_cons, chainIn_cons]
      subst hk
      by_cases hk' : k = key' <;> simp [hk']
    · rw [if_neg hk, chainIn_cons, chainIn_cons, ih]
      by_cases hk' : k = key'
      · subst hk'
        simp [Ne.symm hk]
      · simp [hk']

private theorem chainIn_map (g : List Nat → List Nat) (hg : g [] = []) (key : Key)
    (table : List (Key × List Nat)) :
    chainIn (table.map fun (k, chain) => (k, g chain)) key = g (chainIn table key) := by
  induction table with
  | nil => simp [chainIn, hg]
  | cons entry rest ih =>
    obtain ⟨k, chain⟩ := entry
    rw [List.map_cons, chainIn_cons, chainIn_cons, ih]
    split <;> rfl

@[simp] theorem rule?_push (m : Mode) (r : Rule) (i : Nat) :
    (m.push r).rule? i = if i = m.rules.length then some r else m.rule? i := by
  have hrules : (m.push r).rules = m.rules ++ [r] := by
    unfold push
    cases r.pattern.key? <;> rfl
  rw [rule?, rule?, hrules]
  split
  case isTrue h => simp [h]
  case isFalse h =>
    rcases Nat.lt_or_gt_of_ne h with h | h
    · rw [List.getElem?_append_left h]
    · rw [List.getElem?_eq_none (by simp; omega), List.getElem?_eq_none (by omega)]

theorem chainOf_push (m : Mode) (r : Rule) (key : Key) :
    (m.push r).chainOf key =
      m.chainOf key ++ if r.pattern.key? = some key then [m.rules.length] else [] := by
  unfold push
  cases h : r.pattern.key? with
  | none => simp [chainOf_eq]
  | some k => simpa [chainOf_eq] using chainIn_fileUnder k key m.rules.length m.keyed

theorem general_push (m : Mode) (r : Rule) :
    (m.push r).general =
      m.general ++ if r.pattern.key? = none then [m.rules.length] else [] := by
  unfold push
  cases h : r.pattern.key? <;> simp

theorem rule?_lt {i : Nat} {r : Rule} (h : m.rule? i = some r) : i < m.rules.length :=
  (List.getElem?_eq_some_iff.mp h).1

theorem Filed.push (h : m.Filed) (r : Rule) : (m.push r).Filed where
  -- The new rule is at the end of its chain, and all others are where they were.
  mem_chainFor := by
    intro i s hs
    rw [rule?_push] at hs
    split at hs
    case isTrue hi =>
      obtain rfl := Option.some.inj hs
      cases hk : r.pattern.key? <;> simp [chainFor, hk, chainOf_push, general_push, hi]
    case isFalse =>
      have := h.mem_chainFor hs
      cases hk : s.pattern.key? <;> simp_all [chainFor, chainOf_push, general_push]
  keyed := by
    intro key i hi
    rw [chainOf_push, List.mem_append] at hi
    rcases hi with hi | hi
    · obtain ⟨s, hs, hkey⟩ := h.keyed hi
      exact ⟨s, by rw [rule?_push, if_neg (Nat.ne_of_lt (rule?_lt hs)), hs], hkey⟩
    · split at hi
      case isTrue hkey => exact ⟨r, by simp_all, hkey⟩
      case isFalse => simp at hi
  general := by
    intro i hi
    rw [general_push, List.mem_append] at hi
    rcases hi with hi | hi
    · obtain ⟨s, hs, hkey⟩ := h.general hi
      exact ⟨s, by rw [rule?_push, if_neg (Nat.ne_of_lt (rule?_lt hs)), hs], hkey⟩
    · split at hi
      case isTrue hkey => exact ⟨r, by simp_all, hkey⟩
      case isFalse => simp at hi

/-- Filing speaks of the rules and the chains of a mode only. -/
theorem Filed.of_eq {m' : Mode} (h : m.Filed) (hrules : m'.rules = m.rules)
    (hkeyed : m'.keyed = m.keyed) (hgeneral : m'.general = m.general) : m'.Filed := by
  obtain ⟨hmem, hkey, hgen⟩ := h
  constructor
  · intro i r
    simpa [rule?, chainFor, chainOf, hrules, hkeyed, hgeneral] using hmem (i := i) (r := r)
  · intro key i
    simpa [rule?, chainOf, hrules, hkeyed] using @hkey key i
  · intro i
    simpa [rule?, hrules, hgeneral] using hgen (i := i)

theorem Filed.declare (h : m.Filed) (action : Expr) (precedence : Int) (priority : Float)
    (p : Pattern) : (m.declare action precedence priority p).Filed :=
  (h.push _).of_eq rfl rfl rfl

theorem Filed.add (h : m.Filed) (p : Pattern) (action : Expr) (precedence : Int)
    (priority : Option Float) : (m.add p action precedence priority).2.Filed := by
  suffices fold : ∀ (parts : List Pattern) {m : Mode}, m.Filed →
      (parts.foldl (fun m q => m.declare action precedence (priority.getD q.defaultPriority) q)
        m).Filed by
    exact (fold _ h).of_eq rfl rfl rfl
  intro parts
  induction parts with
  | nil => exact fun h => h
  | cons q parts ih => exact fun h => ih (h.declare ..)

/-! ### The order of chains -/

/-- A chain in which no rule is better than one before it. -/
def BestFirst (rules : List Rule) (chain : List Nat) : Prop :=
  chain.Pairwise fun i j =>
    ∀ r s, rules[i]? = some r → rules[j]? = some s → r.isBelow s = false

/-- While a mode is ranked its chains are ordered, and the rules that need no test are known. -/
structure Ordered (m : Mode) : Prop where
  keyed : ∀ key, BestFirst m.rules (m.chainOf key)
  general : BestFirst m.rules m.general
  alwaysMatches : ∀ {i : Nat} {r : Rule}, m.rule? i = some r →
    r.alwaysMatches = r.pattern.matchesWholeKey

theorem insertBest_perm (rules : List Rule) (index : Nat) (chain : List Nat) :
    (insertBest rules index chain).Perm (index :: chain) := by
  fun_induction insertBest rules index chain with
  | case1 => exact .refl _
  | case2 => exact .refl _
  | case3 i rest r s hr hs hb ih => exact (ih.cons i).trans (.swap index i rest)
  | case4 i rest hne ih => exact (ih.cons i).trans (.swap index i rest)

theorem mem_insertBest {rules : List Rule} {index i : Nat} {chain : List Nat} :
    i ∈ insertBest rules index chain ↔ i = index ∨ i ∈ chain := by
  rw [(insertBest_perm rules index chain).mem_iff, List.mem_cons]

theorem bestFirst_insertBest {rules : List Rule} {index : Nat} {chain : List Nat}
    (h : BestFirst rules chain) : BestFirst rules (insertBest rules index chain) := by
  fun_induction insertBest rules index chain with
  | case1 => simp [BestFirst]
  | case2 i rest r s hs hr hbelow =>
    obtain ⟨hi, hrest⟩ := List.pairwise_cons.mp h
    refine List.pairwise_cons.mpr ⟨fun j hj r' t hr' ht => ?_, h⟩
    obtain rfl : r = r' := Option.some.inj (hr.symm.trans hr')
    rcases List.mem_cons.mp hj with rfl | hj
    · obtain rfl : s = t := Option.some.inj (hs.symm.trans ht)
      exact Rule.not_isBelow_of_isBelow hbelow
    · exact Rule.not_isBelow_trans (hi j hj s t hs ht) hbelow
  | case3 i rest r s hs hr hbelow ih =>
    obtain ⟨hi, hrest⟩ := List.pairwise_cons.mp h
    refine List.pairwise_cons.mpr ⟨fun j hj s' t hs' ht => ?_, ih hrest⟩
    rcases mem_insertBest.mp hj with rfl | hj
    · obtain rfl : s = s' := Option.some.inj (hs.symm.trans hs')
      obtain rfl : r = t := Option.some.inj (hr.symm.trans ht)
      simpa using hbelow
    · exact hi j hj s' t hs' ht
  | case4 i rest hnone ih =>
    obtain ⟨hi, hrest⟩ := List.pairwise_cons.mp h
    refine List.pairwise_cons.mpr ⟨fun j hj s t hs ht => ?_, ih hrest⟩
    rcases mem_insertBest.mp hj with rfl | hj
    · exact absurd hs (hnone t s ht)
    · exact hi j hj s t hs ht

/-- Ordering a chain loses no number and repeats none. -/
theorem orderChain_perm (rules : List Rule) (chain : List Nat) :
    (orderChain rules chain).Perm chain := by
  suffices fold : ∀ sorted : List Nat,
      (chain.foldl (fun sorted i => insertBest rules i sorted) sorted).Perm (chain ++ sorted) by
    simpa [orderChain] using fold []
  induction chain with
  | nil => exact fun _ => .refl _
  | cons j chain ih =>
    intro sorted
    have inserted : (chain ++ insertBest rules j sorted).Perm (chain ++ j :: sorted) :=
      (insertBest_perm rules j sorted).append_left chain
    exact (ih _).trans (inserted.trans List.perm_middle)

theorem mem_orderChain {rules : List Rule} {chain : List Nat} {i : Nat} :
    i ∈ orderChain rules chain ↔ i ∈ chain :=
  (orderChain_perm rules chain).mem_iff

theorem bestFirst_orderChain (rules : List Rule) (chain : List Nat) :
    BestFirst rules (orderChain rules chain) := by
  suffices fold : ∀ sorted : List Nat, BestFirst rules sorted →
      BestFirst rules (chain.foldl (fun sorted i => insertBest rules i sorted) sorted) from
    fold [] List.Pairwise.nil
  induction chain with
  | nil => exact fun _ h => h
  | cons j chain ih => exact fun _ h => ih _ (bestFirst_insertBest h)

/-! ### Ranking -/

@[simp] theorem rule?_rank (m : Mode) (i : Nat) :
    m.rank.rule? i = (m.rule? i).map fun r =>
      { r with rank := rankOf m.rules r, alwaysMatches := r.pattern.matchesWholeKey } := by
  simp [rank, rule?]

theorem chainOf_rank (m : Mode) (key : Key) :
    m.rank.chainOf key = orderChain m.rank.rules (m.chainOf key) := by
  simpa [chainOf_eq, rank] using chainIn_map (orderChain m.rank.rules) rfl key m.keyed

theorem general_rank (m : Mode) : m.rank.general = orderChain m.rank.rules m.general := rfl

theorem Filed.rank (h : m.Filed) : m.rank.Filed where
  mem_chainFor := by
    intro i r hr
    rw [rule?_rank] at hr
    obtain ⟨s, hs, rfl⟩ := Option.map_eq_some_iff.mp hr
    have := h.mem_chainFor hs
    cases hk : s.pattern.key? <;>
      simpa [chainFor, hk, chainOf_rank, general_rank, mem_orderChain] using this
  keyed := by
    intro key i hi
    rw [chainOf_rank, mem_orderChain] at hi
    obtain ⟨s, hs, hkey⟩ := h.keyed hi
    exact ⟨_, (rule?_rank m i).trans (congrArg (Option.map _) hs), hkey⟩
  general := by
    intro i hi
    rw [general_rank, mem_orderChain] at hi
    obtain ⟨s, hs, hkey⟩ := h.general hi
    exact ⟨_, (rule?_rank m i).trans (congrArg (Option.map _) hs), hkey⟩

theorem ordered_rank (m : Mode) : m.rank.Ordered where
  keyed key := by
    rw [chainOf_rank]
    exact bestFirst_orderChain ..
  general := bestFirst_orderChain ..
  alwaysMatches := by
    intro i r hr
    rw [rule?_rank] at hr
    obtain ⟨s, hs, rfl⟩ := Option.map_eq_some_iff.mp hr
    rfl

/-! ### The invariants -/

theorem Reachable.filed (h : m.Reachable) : m.Filed := by
  induction h with
  | initial name => constructor <;> simp [Mode.initial, rule?, chainOf]
  | add p action precedence priority _ ih => exact ih.add ..
  | rank _ ih => exact ih.rank
  | configure noMatch detectConflicts _ ih => exact ih.of_eq rfl rfl rfl

theorem Reachable.ordered (h : m.Reachable) (ranked : m.ranked = true) : m.Ordered := by
  induction h with
  | initial name => simp [Mode.initial] at ranked
  | add p action precedence priority _ _ => simp [Mode.add] at ranked
  | rank _ _ => exact ordered_rank _
  | configure noMatch detectConflicts _ ih =>
    obtain ⟨hkeyed, hgeneral, halways⟩ := ih ranked
    exact ⟨hkeyed, hgeneral, halways⟩

end Mode

end TreeQuery
