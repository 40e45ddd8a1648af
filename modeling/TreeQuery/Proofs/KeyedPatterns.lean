/-
Patterns and the keys they are filed under.

An item answers to the keys that `Key.ofItem?` gives it.  A pattern that is filed under a key accepts
nothing that does not answer to it, and a pattern that need not be tested accepts everything that
does:

* `Pattern.accepts_of_not_answers` — an item that does not answer to the key of a pattern is
  rejected, and no predicate of the pattern is evaluated for that;
* `Pattern.accepts_of_matchesWholeKey` — an item that answers to the key of a pattern which matches
  all of them is accepted.
-/
import TreeQuery.Pattern.Matching

namespace TreeQuery

namespace Eval

theorem outcome_bind {α β : Type} (x : Eval α) (f : α → Eval β) :
    (x >>= f).outcome = x.outcome.bind fun a => (f a).outcome := by
  rcases x with ⟨log, _ | a⟩ <;> rfl

/-- When two steps succeed one after the other. -/
theorem outcome_bind_eq_ok_iff {α β : Type} {x : Eval α} {f : α → Eval β} {b : β} :
    (x >>= f).outcome = .ok b ↔ ∃ a, x.outcome = .ok a ∧ (f a).outcome = .ok b := by
  rw [outcome_bind]
  cases x.outcome <;> simp [Except.bind]

theorem outcome_bind_eq_error_iff {α β : Type} {x : Eval α} {f : α → Eval β} {e : Error} :
    (x >>= f).outcome = .error e ↔
      x.outcome = .error e ∨ ∃ a, x.outcome = .ok a ∧ (f a).outcome = .error e := by
  rw [outcome_bind]
  cases x.outcome <;> simp [Except.bind]

end Eval

/-- Whether an item is found under a key: under its name and kind, or under its kind. -/
def Key.Answers (f : Forest) (a : Item) (k : Key) : Prop :=
  ∃ named? kind, Key.ofItem? f a = some (named?, kind) ∧ (named? = some k ∨ kind = k)

namespace Key

theorem answers_ofKind_iff {f : Forest} {a : Item} {k : NodeKind} :
    Answers f a (.ofKind k) ↔ ∃ n, a = .node n ∧ f.kind n = k := by
  cases a with
  | atomic v => simp [Answers, ofItem?]
  | node n =>
    simp only [Answers, ofItem?, ofNode, Option.some.injEq, Prod.mk.injEq, Item.node.injEq,
      exists_eq_left']
    constructor
    · rintro ⟨named?, kind, ⟨rfl, rfl⟩, h | h⟩
      · simp at h
      · exact (ofKind.injEq _ _).mp h
    · intro h
      exact ⟨_, _, ⟨rfl, rfl⟩, .inr (by rw [h])⟩

theorem answers_named_iff {f : Forest} {a : Item} {k : NodeKind} {s : Option String}
    {l : String} :
    Answers f a (.named k s l) ↔ ∃ n, a = .node n ∧ f.kind n = k ∧ f.name? n = some ⟨s, l⟩ := by
  cases a with
  | atomic v => simp [Answers, ofItem?]
  | node n =>
    simp only [Answers, ofItem?, ofNode, Option.some.injEq, Prod.mk.injEq, Item.node.injEq,
      exists_eq_left']
    constructor
    · rintro ⟨named?, kind, ⟨rfl, rfl⟩, h | h⟩
      · obtain ⟨q, hq, h⟩ := Option.map_eq_some_iff.mp h
        simp only [named.injEq] at h
        obtain ⟨hk, rfl, rfl⟩ := h
        exact ⟨hk, hq⟩
      · simp at h
    · rintro ⟨hk, hname⟩
      exact ⟨_, _, ⟨rfl, rfl⟩, .inl (by simp [hname, hk])⟩

/-- What passes a node test answers to the key of the test. -/
theorem answers_of_accepts {f : Forest} {t : NodeTest} {n : Nat} {k : Key}
    (hk : ofTest? t = some k) (h : t.accepts f n = true) : Answers f (.node n) k := by
  match t with
  | .anyNode => simp [ofTest?] at hk
  | .ofKind kind =>
    obtain rfl : Key.ofKind kind = k := by simpa [ofTest?] using hk
    exact answers_ofKind_iff.mpr ⟨n, rfl, by simpa [NodeTest.accepts] using h⟩
  | .named kind test =>
    simp only [NodeTest.accepts, Bool.and_eq_true, beq_iff_eq] at h
    obtain ⟨hkind, hname⟩ := h
    cases test with
    | exact s l =>
      obtain rfl : Key.named kind s l = k := by simpa [ofTest?] using hk
      cases hq : f.name? n with
      | none => simp [hq] at hname
      | some q =>
        simp only [hq, Option.any_some, NameTest.accepts, Bool.and_eq_true, beq_iff_eq] at hname
        obtain ⟨rfl, rfl⟩ := hname
        exact answers_named_iff.mpr ⟨n, rfl, hkind, hq⟩
    | anyLocal _ | anySpace _ | any =>
      obtain rfl : Key.ofKind kind = k := by simpa [ofTest?] using hk
      exact answers_ofKind_iff.mpr ⟨n, rfl, hkind⟩

end Key

namespace Pattern

variable {d : Dispatcher} {c : Context} {a : Item}

/-- A pattern rejects what is not filed with it, and evaluates nothing to find out. -/
theorem accepts_of_not_answers {p : Pattern} {k : Key} (hk : p.key? = some k)
    (h : ¬ Key.Answers c.forest a k) : p.accepts d c a = pure false := by
  fun_induction key? p with
  | case1 t =>
    cases a with
    | atomic v => simp [accepts, Item.node?]
    | node n =>
      have : t.accepts c.forest n = false :=
        Bool.eq_false_iff.mpr fun ht => h (Key.answers_of_accepts hk ht)
      simp [accepts, Item.node?, this]
  | case2 t parent =>
    cases a with
    | atomic v => simp [accepts]
    | node n =>
      have : t.accepts c.forest n = false :=
        Bool.eq_false_iff.mpr fun ht => h (Key.answers_of_accepts hk ht)
      simp [accepts, this]
  | case3 base condition ih => simp [accepts, ih hk]
  | case4 => simp at hk

/-- A pattern that is not tested under its key accepts all that is found there. -/
theorem accepts_of_matchesWholeKey {p : Pattern} (hp : p.matchesWholeKey = true)
    (h : ∀ k, p.key? = some k → Key.Answers c.forest a k) : p.accepts d c a = pure true := by
  match p with
  | anyItem => rfl
  | node (.ofKind kind) =>
    obtain ⟨n, rfl, hkind⟩ := Key.answers_ofKind_iff.mp (h _ rfl)
    simp [accepts, Item.node?, NodeTest.accepts, hkind]
  | node (.named kind (.exact s l)) =>
    obtain ⟨n, rfl, hkind, hname⟩ := Key.answers_named_iff.mp (h _ rfl)
    simp [accepts, Item.node?, NodeTest.accepts, hkind, hname, NameTest.accepts]

end Pattern

end TreeQuery
