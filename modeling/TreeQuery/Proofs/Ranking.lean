/-
Ranked tables of rules.

The rank of a rule is the number of merits below its own (`Mode.rankOf_eq`), where a merit is a precedence
with a priority.  Such a count grows strictly with the merit and leaves no number out
(`strictMonoOn_countBelow`, `image_countBelow`).

* `Mode.Arranged` — every rule is in exactly one chain, the one of its own key, and the numbers that rules
  get in the order of declaration increase;
* `Mode.WellRanked` — ranks agree with merits and are all the numbers below some number, and every chain
  goes strictly down.

`Mode.Made` are all modes: those that come about by adding and ranking rules, setting options and copying.
Each of them is arranged (`Mode.Made.arranged`), and well ranked while it is ranked
(`Mode.Made.wellRanked`).

Design notes: neither property depends on predicates, actions or options, so that both are kept by what
leaves the table as it is (`Mode.Alike`), such as making a copy.
-/
import Mathlib.Data.Finset.Card
import Mathlib.Data.Prod.Lex
import Mathlib.Order.Compare
import TreeQuery.Proofs.BestRule
import TreeQuery.Proofs.CopySteps

namespace TreeQuery

/-! ### Counting what is below -/

/-- How many elements of a finite set are less than a given one. -/
def countBelow {α : Type} [LinearOrder α] (s : Finset α) (x : α) : Nat := (s.filter (· < x)).card

theorem strictMonoOn_countBelow {α : Type} [LinearOrder α] (s : Finset α) :
    StrictMonoOn (countBelow s) s := by
  intro x hx y _ hxy
  refine Finset.card_lt_card (Finset.ssubset_iff_of_subset ?_ |>.mpr ⟨x, ?_, ?_⟩)
  · intro z hz
    obtain ⟨hz, hzx⟩ := Finset.mem_filter.mp hz
    exact Finset.mem_filter.mpr ⟨hz, hzx.trans hxy⟩
  · exact Finset.mem_filter.mpr ⟨hx, hxy⟩
  · exact fun h => lt_irrefl x (Finset.mem_filter.mp h).2

/-- The numbers of elements below are all numbers up to the size of the set. -/
theorem image_countBelow {α : Type} [LinearOrder α] (s : Finset α) :
    s.image (countBelow s) = Finset.range s.card := by
  refine Finset.eq_of_subset_of_card_le ?_ ?_
  · intro n hn
    obtain ⟨x, hx, rfl⟩ := Finset.mem_image.mp hn
    refine Finset.mem_range.mpr (Finset.card_lt_card (Finset.filter_ssubset.mpr ⟨x, hx, lt_irrefl x⟩))
  · rw [Finset.card_range, Finset.card_image_of_injOn (strictMonoOn_countBelow s).injOn]

namespace Rule

/-- What a rule is ranked by: its precedence, and then the place of its priority. -/
def merit (r : Rule) : Int ×ₗ Int := toLex (r.precedence, totalOrderKey r.priority)

theorem compareMerit_eq (r s : Rule) : r.compareMerit s = cmp r.merit s.merit := by
  rw [cmp_eq_compare, Prod.Lex.compare_def]
  rfl

theorem compareMerit_eq_eq_iff {r s : Rule} : r.compareMerit s = .eq ↔ r.merit = s.merit := by
  rw [compareMerit_eq, cmp_eq_eq_iff]

theorem compareMerit_eq_lt_iff {r s : Rule} : r.compareMerit s = .lt ↔ r.merit < s.merit := by
  rw [compareMerit_eq, cmp_eq_lt_iff]

end Rule

/-- Whether two rules have the same place in a table of rules, as a rule and its copy do. -/
structure Rule.Alike (r r' : Rule) : Prop where
  key : r'.pattern.key? = r.pattern.key?
  matchesWholeKey : r'.pattern.matchesWholeKey = r.pattern.matchesWholeKey
  precedence : r'.precedence = r.precedence
  priority : r'.priority = r.priority
  sequence : r'.sequence = r.sequence
  rank : r'.rank = r.rank
  alwaysMatches : r'.alwaysMatches = r.alwaysMatches

theorem Rule.Alike.refl (r : Rule) : r.Alike r := ⟨rfl, rfl, rfl, rfl, rfl, rfl, rfl⟩

namespace Mode

variable {m m' : Mode}

/-! ### Ranks -/

/-- Rules are counted once for each merit. -/
private theorem length_foldl_merits (worse found : List Rule)
    (h : (found.map Rule.merit).Nodup) :
    (worse.foldl (fun merits s => if merits.any (·.compareMerit s == .eq) then merits else s :: merits)
      found).length = ((worse ++ found).map Rule.merit).toFinset.card := by
  induction worse generalizing found with
  | nil => rw [List.foldl_nil, List.nil_append, List.toFinset_card_of_nodup h, List.length_map]
  | cons s worse ih =>
    have known : (found.any (·.compareMerit s == .eq)) = true ↔ s.merit ∈ found.map Rule.merit := by
      simp [Rule.compareMerit_eq_eq_iff]
    rw [List.foldl_cons]
    split
    case isTrue hs =>
      have hs : s.merit ∈ (worse ++ found).map Rule.merit :=
        List.map_append ▸ List.mem_append_right _ (known.mp hs)
      rw [ih found h, List.cons_append, List.map_cons, List.toFinset_cons,
        Finset.insert_eq_of_mem (List.mem_toFinset.mpr hs)]
    case isFalse hs =>
      rw [ih (s :: found) (List.nodup_cons.mpr ⟨fun hmem => hs (known.mpr hmem), h⟩)]
      congr 1
      ext merit
      simp

theorem rankOf_eq (rules : List Rule) (r : Rule) :
    rankOf rules r = countBelow (rules.map Rule.merit).toFinset r.merit := by
  rw [rankOf, length_foldl_merits _ [] List.nodup_nil, countBelow]
  congr 1
  ext merit
  simp only [List.append_nil, List.mem_toFinset, List.mem_map, List.mem_filter, Finset.mem_filter,
    beq_iff_eq, Rule.compareMerit_eq_lt_iff]
  constructor
  · rintro ⟨s, ⟨hs, hlt⟩, rfl⟩
    exact ⟨⟨s, hs, rfl⟩, hlt⟩
  · rintro ⟨⟨s, hs, rfl⟩, hlt⟩
    exact ⟨s, ⟨hs, hlt⟩, rfl⟩

/-! ### Modes with the same table -/

/-- Whether two modes have the same table, up to the predicates and actions of the rules. -/
structure Alike (m m' : Mode) : Prop where
  rules : List.Forall₂ Rule.Alike m.rules m'.rules
  keyed : m'.keyed = m.keyed
  general : m'.general = m.general
  nextSequence : m'.nextSequence = m.nextSequence

/-- Options and flags are not part of the table. -/
theorem Alike.of_eq (rules : m'.rules = m.rules) (keyed : m'.keyed = m.keyed)
    (general : m'.general = m.general) (nextSequence : m'.nextSequence = m.nextSequence) :
    m.Alike m' where
  rules := by
    rw [rules]
    exact List.forall₂_same.mpr fun r _ => .refl r
  keyed
  general
  nextSequence

theorem Alike.exists_rule {i : Nat} {r : Rule} (h : m.Alike m') (hr : m.rule? i = some r) :
    ∃ r', m'.rule? i = some r' ∧ r.Alike r' := by
  obtain ⟨hi, rfl⟩ := List.getElem?_eq_some_iff.mp hr
  have hi' : i < m'.rules.length := Nat.lt_of_lt_of_eq hi h.rules.length_eq
  exact ⟨m'.rules[i], List.getElem?_eq_getElem hi', h.rules.get hi hi'⟩

theorem Alike.exists_rule' {i : Nat} {r' : Rule} (h : m.Alike m') (hr : m'.rule? i = some r') :
    ∃ r, m.rule? i = some r ∧ r.Alike r' := by
  obtain ⟨hi', rfl⟩ := List.getElem?_eq_some_iff.mp hr
  have hi : i < m.rules.length := Nat.lt_of_lt_of_eq hi' h.rules.length_eq.symm
  exact ⟨m.rules[i], List.getElem?_eq_getElem hi, h.rules.get hi hi'⟩

theorem Alike.chainOf (h : m.Alike m') (key : Key) : m'.chainOf key = m.chainOf key := by
  rw [Mode.chainOf, Mode.chainOf, h.keyed]

theorem Alike.mem_rules {r' : Rule} (h : m.Alike m') (hr : r' ∈ m'.rules) :
    ∃ r ∈ m.rules, r.Alike r' := by
  obtain ⟨i, hi⟩ := List.getElem?_of_mem hr
  obtain ⟨r, hr, alike⟩ := h.exists_rule' hi
  exact ⟨r, List.mem_of_getElem? hr, alike⟩

theorem Filed.of_alike (filed : m.Filed) (h : m.Alike m') : m'.Filed where
  mem_chainFor := by
    intro i r' hr'
    obtain ⟨r, hr, alike⟩ := h.exists_rule' hr'
    have := filed.mem_chainFor hr
    simpa [chainFor, alike.key, h.chainOf, h.general] using this
  keyed := by
    intro key i hi
    obtain ⟨r, hr, hkey⟩ := filed.keyed (h.chainOf key ▸ hi)
    obtain ⟨r', hr', alike⟩ := h.exists_rule hr
    exact ⟨r', hr', alike.key.trans hkey⟩
  general := by
    intro i hi
    obtain ⟨r, hr, hkey⟩ := filed.general (h.general ▸ hi)
    obtain ⟨r', hr', alike⟩ := h.exists_rule hr
    exact ⟨r', hr', alike.key.trans hkey⟩

/-! ### The arrangement of rules -/

/-- All chains. -/
def chains (m : Mode) : List (List Nat) := m.general :: m.keyed.map (·.2)

/-- Every rule is in exactly one chain, its own, and rules are numbered as they were declared. -/
structure Arranged (m : Mode) : Prop extends Filed m where
  once : m.chains.flatten.Perm (List.range m.rules.length)
  keys : (m.keyed.map (·.1)).Nodup
  numbered : m.rules.Pairwise fun r s => r.sequence < s.sequence
  next : ∀ r ∈ m.rules, r.sequence < m.nextSequence

theorem Alike.chains (h : m.Alike m') : m'.chains = m.chains := by
  rw [Mode.chains, Mode.chains, h.general, h.keyed]

theorem Arranged.of_alike (arranged : m.Arranged) (h : m.Alike m') : m'.Arranged where
  toFiled := arranged.toFiled.of_alike h
  once := by
    rw [h.chains, ← h.rules.length_eq]
    exact arranged.once
  keys := by
    rw [h.keyed]
    exact arranged.keys
  numbered := by
    refine List.pairwise_iff_getElem.mpr fun i j hi hj hij => ?_
    have hlength := h.rules.length_eq
    have hi' : m'.rules[i].sequence = m.rules[i].sequence := (h.rules.get (by omega) hi).sequence
    have hj' : m'.rules[j].sequence = m.rules[j].sequence := (h.rules.get (by omega) hj).sequence
    rw [hi', hj']
    exact List.pairwise_iff_getElem.mp arranged.numbered i j _ _ hij
  next := by
    intro r' hr'
    obtain ⟨r, hr, alike⟩ := h.mem_rules hr'
    rw [alike.sequence, h.nextSequence]
    exact arranged.next r hr

theorem Arranged.sequence_lt {i j : Nat} {r s : Rule} (h : m.Arranged) (hr : m.rule? i = some r)
    (hs : m.rule? j = some s) (hij : i < j) : r.sequence < s.sequence := by
  obtain ⟨hi, rfl⟩ := List.getElem?_eq_some_iff.mp hr
  obtain ⟨hj, rfl⟩ := List.getElem?_eq_some_iff.mp hs
  exact List.pairwise_iff_getElem.mp h.numbered i j hi hj hij

/-- Of two rules one goes after the other. -/
theorem Arranged.isBelow_or {i j : Nat} {r s : Rule} (h : m.Arranged) (hr : m.rule? i = some r)
    (hs : m.rule? j = some s) (hij : i ≠ j) : r.isBelow s = true ∨ s.isBelow r = true := by
  have hne : r.sequence ≠ s.sequence := by
    rcases Nat.lt_or_gt_of_ne hij with hij | hij
    · exact Nat.ne_of_lt (h.sequence_lt hr hs hij)
    · exact Nat.ne_of_gt (h.sequence_lt hs hr hij)
  rw [Rule.isBelow_iff, Rule.isBelow_iff]
  omega

theorem fileUnder_perm (key : Key) (i : Nat) (table : List (Key × List Nat)) :
    ((fileUnder key i table).map (·.2)).flatten.Perm (i :: (table.map (·.2)).flatten) := by
  induction table with
  | nil => exact .refl _
  | cons entry rest ih =>
    obtain ⟨k, chain⟩ := entry
    rw [fileUnder]
    split
    case isTrue =>
      simp only [List.map_cons, List.flatten_cons, List.append_assoc]
      exact List.perm_middle
    case isFalse =>
      exact (ih.append_left chain).trans List.perm_middle

theorem keys_fileUnder (key : Key) (i : Nat) (table : List (Key × List Nat)) :
    (fileUnder key i table).map (·.1) =
      table.map (·.1) ++ if key ∈ table.map (·.1) then [] else [key] := by
  induction table with
  | nil => rfl
  | cons entry rest ih =>
    obtain ⟨k, chain⟩ := entry
    rw [fileUnder]
    split
    case isTrue hk => simp [hk]
    case isFalse hk =>
      have hmem : key ∈ k :: rest.map (·.1) ↔ key ∈ rest.map (·.1) := by simp [Ne.symm hk]
      rw [List.map_cons, List.map_cons, ih, List.cons_append]
      simp only [hmem]

theorem chains_push_perm (m : Mode) (r : Rule) :
    (m.push r).chains.flatten.Perm (m.rules.length :: m.chains.flatten) := by
  unfold push chains
  cases r.pattern.key? with
  | none =>
    simp only [List.flatten_cons, List.append_assoc]
    exact List.perm_middle
  | some key =>
    exact ((fileUnder_perm key m.rules.length m.keyed).append_left m.general).trans List.perm_middle

theorem keys_push_nodup (h : (m.keyed.map (·.1)).Nodup) (r : Rule) :
    ((m.push r).keyed.map (·.1)).Nodup := by
  unfold push
  cases r.pattern.key? with
  | none => exact h
  | some key =>
    simp only [keys_fileUnder]
    split
    case isTrue => simpa using h
    case isFalse hk => exact List.nodup_append.mpr ⟨h, by simp, by grind⟩

@[simp] theorem rules_push (m : Mode) (r : Rule) : (m.push r).rules = m.rules ++ [r] := by
  unfold push
  cases r.pattern.key? <;> rfl

theorem Arranged.declare (h : m.Arranged) (action : Expr) (precedence : Int) (priority : Float)
    (p : Pattern) : (m.declare action precedence priority p).Arranged where
  toFiled := h.toFiled.declare action precedence priority p
  once := by
    have hlength : (m.declare action precedence priority p).rules.length = m.rules.length + 1 := by
      simp [Mode.declare]
    rw [hlength, List.range_succ]
    exact (chains_push_perm m _).trans ((h.once.cons _).trans (List.perm_append_singleton _ _).symm)
  keys := keys_push_nodup h.keys _
  numbered := by
    simp only [Mode.declare, rules_push]
    refine List.pairwise_append.mpr ⟨h.numbered, List.pairwise_singleton _ _, fun r hr s hs => ?_⟩
    obtain rfl := List.mem_singleton.mp hs
    exact h.next r hr
  next := by
    simp only [Mode.declare, rules_push, List.mem_append, List.mem_singleton]
    rintro r (hr | rfl)
    · exact Nat.lt_succ_of_lt (h.next r hr)
    · exact Nat.lt_succ_self _

theorem Arranged.add (h : m.Arranged) (p : Pattern) (action : Expr) (precedence : Int)
    (priority : Option Float) : (m.add p action precedence priority).2.Arranged := by
  suffices fold : ∀ (parts : List Pattern) {m : Mode}, m.Arranged →
      (parts.foldl (fun m q => m.declare action precedence (priority.getD q.defaultPriority) q)
        m).Arranged by
    exact (fold _ h).of_alike (.of_eq rfl rfl rfl rfl)
  intro parts
  induction parts with
  | nil => exact fun h => h
  | cons q parts ih => exact fun h => ih (h.declare ..)

theorem chains_rank (m : Mode) : m.rank.chains = m.chains.map (orderChain m.rank.rules) := by
  simp only [chains, List.map_cons, List.map_map]
  rw [general_rank]
  congr 1
  simp [rank]

theorem flatten_map_perm {g : List Nat → List Nat} (hg : ∀ chain, (g chain).Perm chain)
    (chains : List (List Nat)) : (chains.map g).flatten.Perm chains.flatten := by
  induction chains with
  | nil => exact .refl _
  | cons chain rest ih => exact (hg chain).append ih

theorem Arranged.rank (h : m.Arranged) : m.rank.Arranged where
  toFiled := h.toFiled.rank
  once := by
    have hlength : m.rank.rules.length = m.rules.length := by simp [Mode.rank]
    rw [chains_rank, hlength]
    exact (flatten_map_perm (orderChain_perm _) _).trans h.once
  keys := by
    have hkeys : m.rank.keyed.map (·.1) = m.keyed.map (·.1) := by simp [Mode.rank]
    rw [hkeys]
    exact h.keys
  numbered := List.pairwise_map.mpr h.numbered
  next := by
    intro r hr
    obtain ⟨s, hs, rfl⟩ := List.mem_map.mp hr
    exact h.next s hs

/-! ### Ranked modes -/

/-- A chain in which every rule goes after the ones before it, by rank and then by declaration. -/
def Descends (m : Mode) (chain : List Nat) : Prop :=
  chain.Pairwise fun i j => ∀ r s, m.rule? i = some r → m.rule? j = some s → s.isBelow r = true

/-- What ranking brings about: ranks follow precedence and priority and leave no number out, every chain
goes strictly down, and the rules that need no test are known. -/
structure WellRanked (m : Mode) : Prop where
  agrees : ∀ r ∈ m.rules, ∀ s ∈ m.rules, r.compareRank s = r.compareMerit s
  dense : ∃ k, ∀ n, (∃ r ∈ m.rules, r.rank = n) ↔ n < k
  descending : ∀ chain ∈ m.chains, m.Descends chain
  alwaysMatches : ∀ r ∈ m.rules, r.alwaysMatches = r.pattern.matchesWholeKey

theorem Arranged.nodup_of_mem_chains {chain : List Nat} (h : m.Arranged) (hchain : chain ∈ m.chains) :
    chain.Nodup := by
  have : m.chains.flatten.Nodup := h.once.nodup_iff.mpr List.nodup_range
  exact (List.nodup_flatten.mp this).1 chain hchain

/-- No two rules are in the same place, so that a chain without repetitions that is ordered best first goes
strictly down. -/
theorem Arranged.descends {chain : List Nat} (h : m.Arranged) (nodup : chain.Nodup)
    (sorted : BestFirst m.rules chain) : m.Descends chain := by
  refine (sorted.and nodup).imp ?_
  rintro i j ⟨hnot, hne⟩ r s hr hs
  rcases h.isBelow_or hr hs hne with hbelow | hbelow
  · rw [hnot r s hr hs] at hbelow
    cases hbelow
  · exact hbelow

theorem Arranged.wellRanked_rank (h : m.Arranged) : m.rank.WellRanked where
  agrees := by
    intro r' hr s' hs
    obtain ⟨r, hmemR, rfl⟩ := List.mem_map.mp hr
    obtain ⟨s, hmemS, rfl⟩ := List.mem_map.mp hs
    have mem {t : Rule} (ht : t ∈ m.rules) : t.merit ∈ (m.rules.map Rule.merit).toFinset :=
      List.mem_toFinset.mpr (List.mem_map_of_mem ht)
    calc compare (rankOf m.rules r) (rankOf m.rules s)
        = cmp (countBelow _ r.merit) (countBelow _ s.merit) := by
          rw [rankOf_eq, rankOf_eq, cmp_eq_compare]
      _ = cmp r.merit s.merit := (strictMonoOn_countBelow _).cmp_map_eq (mem hmemR) (mem hmemS)
      _ = r.compareMerit s := (r.compareMerit_eq s).symm
  dense := by
    refine ⟨(m.rules.map Rule.merit).toFinset.card, fun n => ?_⟩
    rw [← Finset.mem_range, ← image_countBelow]
    simp [Mode.rank, rankOf_eq]
  descending := by
    intro chain hchain
    rw [chains_rank] at hchain
    obtain ⟨unordered, hmem, rfl⟩ := List.mem_map.mp hchain
    exact h.rank.descends ((orderChain_perm _ _).nodup_iff.mpr (h.nodup_of_mem_chains hmem))
      (bestFirst_orderChain _ _)
  alwaysMatches := by
    intro r' hr
    obtain ⟨r, hr, rfl⟩ := List.mem_map.mp hr
    rfl

theorem WellRanked.of_alike (ranked : m.WellRanked) (h : m.Alike m') : m'.WellRanked where
  agrees := by
    intro r' hr s' hs
    obtain ⟨r, hr, alikeR⟩ := h.mem_rules hr
    obtain ⟨s, hs, alikeS⟩ := h.mem_rules hs
    have := ranked.agrees r hr s hs
    simpa [Rule.compareRank, Rule.compareMerit, alikeR.rank, alikeS.rank, alikeR.precedence,
      alikeS.precedence, alikeR.priority, alikeS.priority] using this
  dense := by
    obtain ⟨k, hk⟩ := ranked.dense
    refine ⟨k, fun n => (Iff.trans ?_ (hk n))⟩
    constructor
    · rintro ⟨r', hr, rfl⟩
      obtain ⟨r, hr, alike⟩ := h.mem_rules hr
      exact ⟨r, hr, alike.rank.symm⟩
    · rintro ⟨r, hr, rfl⟩
      obtain ⟨i, hi⟩ := List.getElem?_of_mem hr
      obtain ⟨r', hr', alike⟩ := h.exists_rule hi
      exact ⟨r', List.mem_of_getElem? hr', alike.rank⟩
  descending := by
    intro chain hchain
    rw [h.chains] at hchain
    refine (ranked.descending chain hchain).imp fun hbelow r' s' hr hs => ?_
    obtain ⟨r, hr, alikeR⟩ := h.exists_rule' hr
    obtain ⟨s, hs, alikeS⟩ := h.exists_rule' hs
    have := hbelow r s hr hs
    simpa [Rule.isBelow, alikeR.rank, alikeS.rank, alikeR.sequence, alikeS.sequence] using this
  alwaysMatches := by
    intro r' hr
    obtain ⟨r, hr, alike⟩ := h.mem_rules hr
    rw [alike.alwaysMatches, alike.matchesWholeKey]
    exact ranked.alwaysMatches r hr

/-- A chain that goes strictly down is ordered best first. -/
theorem WellRanked.ordered (ranked : m.WellRanked) : m.Ordered := by
  have bestFirst (chain : List Nat) (h : chain ∈ m.chains) : BestFirst m.rules chain :=
    (ranked.descending chain h).imp fun hbelow r s hr hs =>
      Rule.not_isBelow_of_isBelow (hbelow r s hr hs)
  refine ⟨fun key => ?_, bestFirst _ List.mem_cons_self, fun hr => ?_⟩
  · cases hentry : m.keyed.find? (·.1 == key) with
    | none =>
      rw [chainOf, hentry]
      exact List.Pairwise.nil
    | some entry =>
      rw [chainOf, hentry]
      exact bestFirst _ (List.mem_cons_of_mem _ (List.mem_map_of_mem (List.mem_of_find?_eq_some hentry)))
  · exact ranked.alwaysMatches _ (List.mem_of_getElem? hr)

/-! ### Copies -/

end Mode

theorem Pattern.alike_of_copy {p p' : Pattern} (h : Copying.Gives p.copy p') :
    p'.key? = p.key? ∧ p'.matchesWholeKey = p.matchesWholeKey := by
  cases p with
  | predicate base condition =>
    rw [copy] at h
    obtain ⟨base', hbase, h⟩ := h.bind
    obtain ⟨condition', -, h⟩ := h.bind
    obtain rfl := h.pure
    exact ⟨(alike_of_copy hbase).1, rfl⟩
  | underParent step parent =>
    rw [copy] at h
    obtain ⟨parent', -, h⟩ := h.bind
    obtain rfl := h.pure
    exact ⟨rfl, rfl⟩
  | union ps =>
    rw [copy] at h
    obtain ⟨ps', -, h⟩ := h.bind
    obtain rfl := h.pure
    exact ⟨rfl, rfl⟩
  | anyItem | node | atomic =>
    simp only [copy] at h
    obtain rfl := h.pure
    exact ⟨rfl, rfl⟩

namespace Mode

variable {m m' : Mode}

theorem alike_of_copyRule {r r' : Rule} {shareAction : Bool}
    (h : Copying.Gives (copyRule r shareAction) r') : r.Alike r' := by
  obtain ⟨action, h⟩ : ∃ action,
      Copying.Gives (do return { r with pattern := ← r.pattern.copy, action }) r' := by
    rw [copyRule] at h
    split at h
    · exact ⟨r.action, h⟩
    · obtain ⟨action, -, h⟩ := h.bind
      exact ⟨action, h⟩
  obtain ⟨pattern, hpattern, h⟩ := h.bind
  obtain rfl := h.pure
  obtain ⟨key, matchesWholeKey⟩ := Pattern.alike_of_copy hpattern
  exact ⟨key, matchesWholeKey, rfl, rfl, rfl, rfl, rfl⟩

theorem alike_of_copyRules {shareActions : Bool} {rules rules' : List Rule} {a a' : Allocator}
    (h : (copyRules shareActions rules).run.run a = (.ok rules', a')) :
    List.Forall₂ Rule.Alike rules rules' := by
  induction rules generalizing rules' a a' with
  | nil =>
    obtain rfl := Except.ok.inj (congrArg Prod.fst h)
    exact .nil
  | cons r rest ih =>
    rw [copyRules] at h
    obtain ⟨before, _, hget, h⟩ := exists_of_run_bind h
    cases hget
    rcases hcopied : (copyRule r shareActions).run (Rebinding.initial a) with ⟨e | r', m⟩
    all_goals rw [hcopied] at h
    · exact absurd (congrArg Prod.fst h) (by rintro ⟨⟩)
    · obtain ⟨rest', a'', hrest, h⟩ := exists_of_run_bind (x := copyRules shareActions rest) h
      obtain rfl := Except.ok.inj (congrArg Prod.fst h)
      exact .cons (alike_of_copyRule ⟨_, _, hcopied⟩) (ih hrest)

/-- A copy has the same table. -/
theorem alike_of_copy {shareActions : Bool} {a a' : Allocator}
    (h : (m.copy shareActions).run.run a = (.ok m', a')) : m.Alike m' ∧ m'.ranked = m.ranked := by
  obtain ⟨rules, a'', hrules, h⟩ := exists_of_run_bind h
  obtain rfl := Except.ok.inj (congrArg Prod.fst h)
  exact ⟨⟨alike_of_copyRules hrules, rfl, rfl, rfl⟩, rfl⟩

/-! ### All modes -/

/-- All modes: those that come about by adding and ranking rules, setting options and copying. -/
inductive Made : Mode → Prop
  | initial (name : ModeName) : Made (.initial name)
  | add {m : Mode} (p : Pattern) (action : Expr) (precedence : Int) (priority : Option Float) :
      Made m → Made (m.add p action precedence priority).2
  | rank {m : Mode} : Made m → Made m.rank
  | configure {m : Mode} (noMatch : NoMatch) (detectConflicts : Bool) :
      Made m → Made { m with noMatch, detectConflicts }
  | copy {m m' : Mode} {shareActions : Bool} {a a' : Allocator} :
      Made m → (m.copy shareActions).run.run a = (.ok m', a') → Made m'

theorem Made.arranged (h : m.Made) : m.Arranged := by
  induction h with
  | initial name =>
    refine ⟨⟨?_, ?_, ?_⟩, .refl _, List.nodup_nil, .nil, ?_⟩ <;> simp [Mode.initial, rule?, chainOf]
  | add p action precedence priority _ ih => exact ih.add p action precedence priority
  | rank _ ih => exact ih.rank
  | configure noMatch detectConflicts _ ih => exact ih.of_alike (.of_eq rfl rfl rfl rfl)
  | copy _ hcopy ih => exact ih.of_alike (alike_of_copy hcopy).1

theorem Made.wellRanked (h : m.Made) (ranked : m.ranked = true) : m.WellRanked := by
  induction h with
  | initial name => simp [Mode.initial] at ranked
  | add p action precedence priority _ _ => simp [Mode.add] at ranked
  | rank made _ => exact made.arranged.wellRanked_rank
  | configure noMatch detectConflicts _ ih => exact (ih ranked).of_alike (.of_eq rfl rfl rfl rfl)
  | copy _ hcopy ih =>
    obtain ⟨alike, hranked⟩ := alike_of_copy hcopy
    exact (ih (hranked ▸ ranked)).of_alike alike

end Mode

end TreeQuery
