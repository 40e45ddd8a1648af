/-
Cursors are released once.

`Cursor.Lawful` says how far a cursor is that was opened on a script: what was fetched from it, and that
it was released exactly if it is finished, which it is after the end and after an error.  It holds of
whatever becomes of the cursor (`Cursor.Evolves.lawful`).  That the cursor is finished when no reader
needs it any more is a fact about the readers: of a reader of the cursor itself, because it is spent
only then, and of the readers of a replay, because the last one that leaves closes the source.

Main statement: `Cursor.released_once`.
-/
import TreeQuery.Proofs.ReplayedItems

namespace TreeQuery

namespace Cursor

/-- How far a cursor is that was opened on a script. -/
structure Lawful (script : List Pull) (c : Cursor) : Prop where
  rest : c.script = script.drop c.fetched
  released : c.released = if c.finished then 1 else 0
  /-- Before it is finished, only items were fetched. -/
  items : c.finished = false → ∀ m < c.fetched, ¬ Pull.IsLast script[m]?.join

variable {script : List Pull} {c c' : Cursor}

theorem lawful_opened (script : List Pull) : Lawful script (opened script) :=
  ⟨rfl, rfl, fun _ _ h => absurd h (Nat.not_lt_zero _)⟩

theorem Lawful.finish (h : Lawful script c) : Lawful script c.finish := by
  unfold Cursor.finish
  split
  · exact h
  · next opened =>
    refine ⟨h.rest, ?_, nofun⟩
    have unreleased := h.released
    rw [if_neg opened] at unreleased
    simp [unreleased]

theorem Lawful.next (h : Lawful script c) : Lawful script c.next.2 := by
  cases opened : c.finished with
  | true => rw [next_of_finished opened]; exact h
  | false =>
    have unreleased := h.released
    rw [opened, if_neg Bool.false_ne_true] at unreleased
    have rest : c.script.tail = script.drop (c.fetched + 1) := by rw [h.rest, List.tail_drop]
    have fetched : c.script.head?.join = script[c.fetched]?.join := by rw [h.rest, List.head?_drop]
    -- After the end and after an error the cursor is finished, with one release.
    have last : Lawful script
        ({ c with script := c.script.tail, fetched := c.fetched + 1 } : Cursor).finish := by
      refine ⟨?_, ?_, ?_⟩ <;> simp [Cursor.finish, opened, unreleased, rest]
    unfold Cursor.next
    rw [if_neg (by simp [opened])]
    dsimp only
    split
    · next a item =>
      refine ⟨rest, by simp [opened, unreleased], fun _ m hm => ?_⟩
      rcases Nat.lt_succ_iff_lt_or_eq.mp hm with before | rfl
      · exact h.items opened m before
      · rw [← fetched, item]
        exact Reader.not_isLast_item a
    · exact last
    · exact last

theorem script_next_of_item {a : Item} (item : c.next.1 = some (.ok a)) :
    c.next.2.script = c.script.tail := by
  unfold Cursor.next at item ⊢
  split at item
  · cases item
  · next opened =>
    rw [if_neg opened]
    dsimp only at item ⊢
    split at item <;> simp_all

/-- Whatever becomes of a cursor that was opened on a script, it is lawful. -/
theorem Evolves.lawful (h : (opened script).Evolves c) : Lawful script c := by
  induction h with
  | refl => exact lawful_opened script
  | next _ ih => exact ih.next
  | finish _ ih => exact ih.finish

/-- A finished cursor is not used any more. -/
theorem Evolves.eq_of_finished (h : c.Evolves c') (finished : c.finished) : c' = c := by
  induction h with
  | refl => rfl
  | next before ih => rw [next_of_finished (before.finished finished)]; exact ih
  | finish before ih => rw [finish_of_finished (before.finished finished)]; exact ih

end Cursor

/-! ### Readers of a cursor -/

namespace Reader

theorem next_cursor {number : Nat} {p : Pool} {c : Cursor}
    (found : p.cursors[number]? = some c) :
    (Reader.cursor number).next p = (c.next.1, .cursor number, p.setCursor number c.next.2) := by
  simp [Reader.next, nextWith, found]

/-- A cursor gives some items and then an error or the end. -/
theorem exists_gives_cursor (number : Nat) (p : Pool) :
    ∃ xs e?, (Reader.cursor number).Gives p xs e? := by
  cases found : p.cursors[number]? with
  | none =>
    have last : (Reader.cursor number).next p = (none, .cursor number, p) := by
      simp [Reader.next, nextWith, found]
    exact ⟨[], none, .done last⟩
  | some c =>
    -- The rest of the script is shorter after every item.
    induction hscript : c.script generalizing p c with
    | nil =>
      have last : c.next.1 = none := by simp [Cursor.next, hscript]; split <;> rfl
      exact ⟨[], none, .done ((next_cursor found).trans (by rw [last]))⟩
    | cons x rest ih =>
      rcases outcome : c.next.1 with _ | e | a
      · exact ⟨[], none, .done ((next_cursor found).trans (by rw [outcome]))⟩
      · exact ⟨[], some e, .failed ((next_cursor found).trans (by rw [outcome]))⟩
      · have shorter : c.next.2.script = rest := by
          rw [Cursor.script_next_of_item outcome, hscript, List.tail_cons]
        have bound := (List.getElem?_eq_some_iff.mp found).1
        obtain ⟨xs, e?, gives⟩ :=
          ih (p.setCursor number c.next.2) c.next.2 (List.getElem?_set_self bound) shorter
        exact ⟨a :: xs, e?, .item ((next_cursor found).trans (by rw [outcome])) gives⟩

/-- However often a cursor is asked, its reader is the same, and its pool is later. -/
theorem asked_cursor (number count : Nat) (p : Pool) :
    ((Reader.cursor number).asked p count).1 = .cursor number ∧
      p.Later ((Reader.cursor number).asked p count).2 := by
  induction count generalizing p with
  | zero => exact ⟨rfl, .refl p⟩
  | succ count ih =>
    have same : ((Reader.cursor number).next p).2.1 = .cursor number := by
      unfold Reader.next nextWith
      split <;> rfl
    have later : p.Later ((Reader.cursor number).next p).2.2 :=
      later_nextWith (careful_access p) _ p
    obtain ⟨same', later'⟩ := ih ((Reader.cursor number).next p).2.2
    rw [asked, same]
    exact ⟨same', later.trans later'⟩

end Reader

/-- Reader `i` was closed, or has come to its end, in a run of these calls with these answers. -/
def Session.EndedIn (calls : List (Nat × Call)) (as : List Answer) (i : Nat) : Prop :=
  ∃ (n : Nat) (c : Call) (a : Answer), calls[n]? = some (i, c) ∧ as[n]? = some a ∧
    (a.IsLast ∨ a = .expects (some false))

namespace Audience

variable {number : Nat} {p : Pool} {xs : List Item} {e? : Option Error} {m m' : Audience}
  {i : Nat} {c : Call}

/-- A replay that has closed its source has released the cursor. -/
theorem spent_of_closed (h : m.Invariant (.cursor number) p xs e?)
    (closed : m.recording.replay.source? = none) : (Reader.cursor number).Spent m.session.pool := by
  obtain ⟨count, reads⟩ := h.reads
  have rest := reads.closed closed
  rw [(Reader.asked_cursor number count p).1] at rest
  generalize ((Reader.cursor number).asked p count).2 = q at rest
  have spent := (Reader.closeWith_lasting (Reader.access q) (r := .cursor number) (p := q) trivial).2.2
  have same : ((Reader.cursor number).closeWith (Reader.access q) q).1 = .cursor number := by
    unfold Reader.closeWith
    split <;> rfl
  rw [same] at spent
  intro c found
  rw [session, Recording.cursors_pool, rest] at found
  exact spent c found

/-- When a reader says that nothing comes next, it is done or the source is closed. -/
theorem closed_of_unexpected (gives : (Reader.cursor number).Gives p xs e?)
    (h : m.Invariant (.cursor number) p xs e?) (step : m.Step i c (.expects (some false)) m') :
    m'.recording.replay.source? = none ∨ ∃ index, m'.listeners[i]? = some ⟨index, true⟩ := by
  generalize answer : Answer.expects (some false) = a at step
  cases step with
  | hasNextDone reader => exact .inr ⟨_, reader⟩
  | @hasNext index reader =>
    obtain ⟨count, reads⟩ := h.reads
    refine .inl (Option.not_isSome_iff_eq_none.mp fun opened => ?_)
    have there := reads.lt_size_of_open gives opened
    simp [there] at answer
  | _ => cases answer

/-- Of a replay that reads a cursor: when all its readers were closed or have come to their ends, the
cursor was released. -/
theorem spent_of_ended {calls : List (Nat × Call)} {as : List Answer} {s : Session Reader Pool}
    (gives : (Reader.cursor number).Gives p xs e?) (h : m.Invariant (.cursor number) p xs e?)
    (ran : m.session.run Reader.protocol calls = some (as, s))
    (ended : ∀ i < s.readers.length, Session.EndedIn calls as i) :
    (Reader.cursor number).Spent s.pool := by
  have sound : m.session.AllSound Reader.Sound := by
    intro r hr
    obtain ⟨l, -, rfl⟩ := List.mem_map.mp hr
    trivial
  -- A reader that has ended is spent, or else the source is closed.
  have each : ∀ i < s.readers.length, (Reader.cursor number).Spent s.pool ∨
      s.SpentAt Reader.Spent i := fun i hi => by
    obtain ⟨n, c, a, called, answered, last⟩ := ended i hi
    refine Session.run_reaches
      (I := fun s => (∃ m : Audience, s = m.session ∧ m.Invariant (.cursor number) p xs e?) ∧
        s.AllSound Reader.Sound)
      (Q := fun s => (Reader.cursor number).Spent s.pool ∨ s.SpentAt Reader.Spent i)
      (E := fun a => a.IsLast ∨ a = .expects (some false)) ?_ ?_ ?_ ran ⟨⟨m, rfl, h⟩, sound⟩
      called answered last
    · rintro _ s' j c a ⟨⟨m, rfl, h⟩, sound⟩ called
      obtain ⟨m', step, rfl⟩ := step_of_call h.ordered called
      exact ⟨⟨m', rfl, (h.step gives step).1⟩, Session.allSound_call Reader.lasting sound called⟩
    · rintro s s' j c a ⟨-, sound⟩ spent called
      exact spent.imp (Reader.Spent.later (Session.later_call Reader.lasting sound called))
        (Session.spentAt_call Reader.lasting sound · called)
    · rintro _ s' c a ⟨⟨m, rfl, h⟩, sound⟩ called (last | rfl)
      · exact .inr (Session.spentAt_of_last Reader.lasting sound called last)
      · obtain ⟨m', step, rfl⟩ := step_of_call h.ordered called
        have h' := (h.step gives step).1
        rcases closed_of_unexpected gives h step with closed | ⟨index, reader⟩
        · exact .inl (spent_of_closed h' closed)
        · exact .inr ⟨_, getElem?_readers reader, rfl⟩
  obtain ⟨m', rfl, h'⟩ := invariant_run gives h ran
  by_contra unspent
  refine unspent (spent_of_closed h' (h'.closed_of_idle (spent_iff_idle.mp fun r hr => ?_)))
  obtain ⟨i, hi, rfl⟩ := List.getElem_of_mem hr
  obtain ⟨r, found, spent⟩ := (each i hi).resolve_left unspent
  obtain ⟨_, rfl⟩ := List.getElem?_eq_some_iff.mp found
  exact spent

end Audience

namespace Reader

/-- A reader of a cursor that is alone in its session stays alone, and does not look ahead. -/
theorem alone_call {number i : Nat} {c : Call} {a : Answer} {s s' : Session Reader Pool}
    (alone : s.readers = [.cursor number]) (called : s.call protocol i c = some (a, s')) :
    s'.readers = [.cursor number] ∧ a ≠ .expects (some false) := by
  -- There is no second reader to call.
  cases i with
  | succ i => rw [call_of_missing c (by simp [alone])] at called; cases called
  | zero =>
    have found : s.readers[0]? = some (.cursor number) := by simp [alone]
    cases c with
    | next =>
      have same : ((Reader.cursor number).next s.pool).2.1 = .cursor number := by
        unfold Reader.next nextWith
        split <;> rfl
      rw [call_next found, same, alone] at called
      cases called
      exact ⟨rfl, fun h => by cases h⟩
    | hasNext =>
      rw [call_hasNext found, alone] at called
      cases called
      exact ⟨rfl, fun h => by cases h⟩
    | fresh =>
      rw [call_fresh found, alone] at called
      cases called
      exact ⟨rfl, fun h => by cases h⟩
    | close =>
      have same : ((Reader.cursor number).close s.pool).1 = .cursor number := by
        unfold Reader.close closeWith
        split <;> rfl
      rw [call_close found, same, alone] at called
      cases called
      exact ⟨rfl, fun h => by cases h⟩

/-- When the only reader of a cursor was closed or has come to its end, the cursor was released. -/
theorem spent_of_ended_alone {number : Nat} {p : Pool} {calls : List (Nat × Call)}
    {as : List Answer} {s : Session Reader Pool}
    (ran : (Session.mk [.cursor number] p).run protocol calls = some (as, s))
    (ended : Session.EndedIn calls as 0) : (Reader.cursor number).Spent s.pool := by
  obtain ⟨n, c, a, called, answered, last⟩ := ended
  have sound : (Session.mk [.cursor number] p).AllSound Sound := by
    intro r hr
    cases List.mem_singleton.mp hr
    trivial
  refine Session.run_reaches
    (I := fun s => s.readers = [.cursor number] ∧ s.AllSound Sound)
    (Q := fun s => (Reader.cursor number).Spent s.pool)
    (E := fun a => a.IsLast ∨ a = .expects (some false)) ?_ ?_ ?_ ran ⟨rfl, sound⟩ called answered
    last
  · rintro s s' j c a ⟨alone, sound⟩ called
    exact ⟨(alone_call alone called).1, Session.allSound_call lasting sound called⟩
  · rintro s s' j c a ⟨-, sound⟩ spent called
    exact spent.later (Session.later_call lasting sound called)
  · rintro s s' c a ⟨alone, sound⟩ called (last | never)
    · obtain ⟨r, found, spent⟩ := Session.spentAt_of_last lasting sound called last
      rw [(alone_call alone called).1] at found
      cases found
      exact spent
    · exact absurd never (alone_call alone called).2

end Reader

/-- **Released once.**  Let a cursor be read by a reader, or by all readers of a replay.  Whatever these
are asked, in whatever order, the cursor is released at most once, and after that nothing is done with
it; and it has been released as soon as the end or an error was fetched from it, or every reader there
is has been closed or has come to its end. -/
theorem Cursor.released_once {p : Pool} {script : List Pull} {s₀ s : Session Reader Pool}
    {calls : List (Nat × Call)} {as : List Answer} (ordered : p.Ordered)
    (start : s₀ = ⟨[.cursor p.cursors.length], p.addCursor (.opened script)⟩ ∨
      s₀ = ⟨[.replay p.replays.length 0 false],
        (p.addCursor (.opened script)).addReplay (.cursor p.cursors.length)⟩)
    (ran : s₀.run Reader.protocol calls = some (as, s)) :
    ∃ c, s.pool.cursors[p.cursors.length]? = some c ∧ c.released ≤ 1 ∧
      (0 < c.released → ∀ more bs t, s.run Reader.protocol more = some (bs, t) →
        t.pool.cursors[p.cursors.length]? = some c) ∧
      ((∃ m < c.fetched, Pull.IsLast script[m]?.join) → c.released = 1) ∧
      ((∀ i < s.readers.length, Session.EndedIn calls as i) → c.released = 1) := by
  have sound : s₀.AllSound Reader.Sound := by
    rcases start with rfl | rfl <;> intro r hr <;> cases List.mem_singleton.mp hr <;> trivial
  have added : s₀.pool.cursors[p.cursors.length]? = some (.opened script) := by
    rcases start with rfl | rfl <;> simp [Pool.addCursor, Pool.addReplay]
  -- The cursor is found at the end, and has come about by using it.
  have later := Session.later_run Reader.lasting sound ran
  obtain ⟨c, found, used⟩ := later.find added
  have lawful := used.lawful
  have released : c.finished → c.released = 1 := fun finished => by
    rw [lawful.released, if_pos finished]
  refine ⟨c, found, ?_, fun once more bs t ranMore => ?_, fun ⟨m, hm, last⟩ => ?_, fun ended => ?_⟩
  · rw [lawful.released]
    split <;> omega
  · have finished : c.finished := by
      by_contra opened
      rw [lawful.released, if_neg opened] at once
      exact Nat.lt_irrefl 0 once
    have sound' := Session.allSound_run Reader.lasting sound ran
    obtain ⟨c', found', used'⟩ := (Session.later_run Reader.lasting sound' ranMore).find found
    rw [found', used'.eq_of_finished finished]
  · by_contra unreleased
    have opened : c.finished = false := Bool.not_eq_true _ ▸ mt released unreleased
    exact lawful.items opened m hm last
  · have spent : (Reader.cursor p.cursors.length).Spent s.pool := by
      rcases start with rfl | rfl
      · exact Reader.spent_of_ended_alone ran (ended 0 (Session.readers_of_run ran))
      · obtain ⟨xs, e?, gives⟩ :=
          Reader.exists_gives_cursor p.cursors.length (p.addCursor (.opened script))
        exact Audience.spent_of_ended gives
          (Audience.invariant_start (p := p.addCursor (.opened script)) ordered trivial) ran ended
    exact released (spent c found)

/-- The two readers of a replay of a cursor, of which one meets the end and the other is closed: the
cursor was released. -/
theorem Cursor.released_once_atEnd :
    let item := Item.atomic (.integer 1)
    let script : List Pull := [some (.ok item), none]
    let calls : List (Nat × Call) := [(0, .fresh), (1, .next), (0, .close), (1, .next)]
    ∃ as s, (Session.mk [.replay 0 0 false]
        ((Pool.empty.addCursor (.opened script)).addReplay (.cursor 0))).run Reader.protocol calls =
          some (as, s) ∧
      ∃ c, s.pool.cursors[0]? = some c ∧ c.released = 1 := by
  intro item script calls
  have ran : ∃ s, (Session.mk [.replay 0 0 false]
      ((Pool.empty.addCursor (.opened script)).addReplay (.cursor 0))).run Reader.protocol calls =
        some ([.restarted true, .pulled (some (.ok item)), .closed, .pulled none], s) ∧
        s.readers.length = 2 := ⟨_, rfl, rfl⟩
  obtain ⟨s, ran, two⟩ := ran
  have ordered : Pool.empty.Ordered := fun _ _ _ h => nomatch h
  obtain ⟨c, found, -, -, -, released⟩ := Cursor.released_once ordered (.inr rfl) ran
  refine ⟨_, s, ran, c, found, released fun i hi => ?_⟩
  rw [two] at hi
  rcases i with _ | _ | i
  · exact ⟨2, .close, .closed, rfl, rfl, .inl trivial⟩
  · exact ⟨3, .next, .pulled none, rfl, rfl, .inl Reader.isLast_none⟩
  · omega

end TreeQuery
