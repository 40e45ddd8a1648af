/-
What a traversal answers, turn by turn.

`Traversal.next` is what a bounded number of turns comes to.  Here it gets the equations of an unbounded
recursion: a machine that does not ask answers what its turn says in the end (`next_of_alone`), and one
that asks waits for what it asks (`next_of_asks`).

Design notes: more turns give no other answer (`nextWithin_stays`), so where a machine and what it asks
need different numbers of turns, the greater of the two is enough for both.
-/
import TreeQuery.Expr.Traversal

namespace TreeQuery

/-! ### What approximations come to -/

section Limit

variable {α : Type} {approximation : Nat → Option α} {a : α}

theorem exists_of_limit (h : limit approximation = some a) : ∃ n, approximation n = some a := by
  unfold limit at h
  split at h
  · next found =>
    cases h
    exact ⟨found.choose, found.choose_spec.choose_spec⟩
  · cases h

/-- Where a value that is there stays, it is what the approximations come to. -/
theorem limit_eq_some_iff
    (stays : ∀ n m a, n ≤ m → approximation n = some a → approximation m = some a) :
    limit approximation = some a ↔ ∃ n, approximation n = some a := by
  refine ⟨exists_of_limit, fun ⟨n, h⟩ => ?_⟩
  have found : ∃ n a, approximation n = some a := ⟨n, a, h⟩
  have chosen := found.choose_spec.choose_spec
  rw [limit, dif_pos found]
  -- The two approximations agree, since the later one has the value of the earlier.
  rcases Nat.le_total n found.choose with le | le
  · exact chosen.symm.trans (stays _ _ _ le h)
  · exact (stays _ _ _ le chosen).symm.trans h

end Limit

theorem Turn.finish_mono {read read' : Traversal → Workspace → Option (Pull × Traversal × Workspace)}
    (more : ∀ t q r, read t q = some r → read' t q = some r) {turn : Turn}
    {r : Pull × Traversal × Workspace} (h : turn.finish read = some r) :
    turn.finish read' = some r := by
  cases turn with
  | answer => exact h
  | onward t q => exact more t q r h

namespace Traversal

variable {d : Dispatcher} {t inner : Traversal} {q : Workspace} {r : Pull × Traversal × Workspace}

/-- What is answered within some turns is answered within more. -/
theorem nextWithin_stays {n m : Nat} (le : n ≤ m) (h : nextWithin d n t q = some r) :
    nextWithin d m t q = some r := by
  induction n generalizing m t q r with
  | zero => cases h
  | succ n ih =>
    obtain ⟨m, rfl⟩ : ∃ m', m = m' + 1 := Nat.exists_eq_add_of_le' (Nat.le_of_add_left_le le)
    have le : n ≤ m := Nat.le_of_succ_le_succ le
    rw [nextWithin] at h ⊢
    split at h
    · exact Turn.finish_mono (fun _ _ _ => ih le) h
    · obtain ⟨answer, pulled, h⟩ := Option.bind_eq_some_iff.mp h
      exact Option.bind_eq_some_iff.mpr
        ⟨answer, ih le pulled, Turn.finish_mono (fun _ _ _ => ih le) h⟩

theorem next_eq_some_iff : next d t q = some r ↔ ∃ turns, nextWithin d turns t q = some r :=
  limit_eq_some_iff fun _ _ _ => nextWithin_stays

/-- The last turn may be counted apart. -/
theorem next_eq_some_iff_succ :
    next d t q = some r ↔ ∃ turns, nextWithin d (turns + 1) t q = some r := by
  rw [next_eq_some_iff]
  exact ⟨fun ⟨n, h⟩ => ⟨n, nextWithin_stays (Nat.le_succ n) h⟩, fun ⟨n, h⟩ => ⟨n + 1, h⟩⟩

theorem finish_eq_some_iff {turn : Turn} :
    turn.finish (next d) = some r ↔ ∃ turns, turn.finish (nextWithin d turns) = some r := by
  cases turn with
  | answer x t q => exact ⟨fun h => ⟨0, h⟩, fun ⟨_, h⟩ => h⟩
  | onward t q => exact next_eq_some_iff

theorem next_of_alone (alone : t.asks? q = none) : next d t q = (act d q t).finish (next d) := by
  refine Option.ext fun r => ?_
  rw [next_eq_some_iff_succ, finish_eq_some_iff]
  simp only [nextWithin, alone]

theorem next_of_asks (asked : t.asks? q = some inner) :
    next d t q =
      (next d inner q).bind fun (x, inner', q') => (react d x inner' q' t).finish (next d) := by
  refine Option.ext fun r => ?_
  rw [next_eq_some_iff_succ, Option.bind_eq_some_iff]
  simp only [nextWithin, asked]
  constructor
  · rintro ⟨n, h⟩
    obtain ⟨answer, pulled, h⟩ := Option.bind_eq_some_iff.mp h
    exact ⟨answer, next_eq_some_iff.mpr ⟨n, pulled⟩, finish_eq_some_iff.mpr ⟨n, h⟩⟩
  · rintro ⟨answer, pulled, h⟩
    obtain ⟨n, pulled⟩ := next_eq_some_iff.mp pulled
    obtain ⟨m, h⟩ := finish_eq_some_iff.mp h
    refine ⟨max n m, Option.bind_eq_some_iff.mpr
      ⟨answer, nextWithin_stays (Nat.le_max_left n m) pulled, ?_⟩⟩
    exact Turn.finish_mono (fun _ _ _ => nextWithin_stays (Nat.le_max_right n m)) h

theorem next_reader (d : Dispatcher) (r : Reader) (q : Workspace) :
    next d (.reader r) q = some ((r.next q.pool).1, .reader (r.next q.pool).2.1,
      { q with pool := (r.next q.pool).2.2 }) := next_of_alone rfl

end Traversal

end TreeQuery
