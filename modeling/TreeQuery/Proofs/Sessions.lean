/-
Sessions: readers that share a pool and are asked in any order.

A `Protocol` says how readers of one kind are used, and a `Session` has some of them together with the
pool they share.  `Session.call` asks one reader, `Session.run` asks many, one after the other; a
reader that is made on the way comes after all others.  The main statements are about a protocol that
is *lasting* (`Protocol.Lasting`), which one step of one reader decides:

* `Session.spentAt_run`: in whole runs, a reader that has come to its end stays there;
* `Session.call_close_of_spent`: closing it once more changes no answer of any reader;
* `Session.exhausted`: both, from the answer that was the last.

Design notes: readers do not know each other, but what one does may change the pool that another
looks at.  Therefore `Sound` and `Spent` are about a reader *in a pool*, and have to be kept whenever
the pool gets later.
-/
import Mathlib.Data.List.Forall2
import TreeQuery.Sequence.Reader

namespace TreeQuery

/-! ### Cursors and pools in time -/

namespace Cursor

/-- What fetching and releasing, as often as one likes, makes of a cursor. -/
inductive Evolves (c : Cursor) : Cursor → Prop
  | refl : Evolves c c
  | next {c' : Cursor} (before : Evolves c c') : Evolves c c'.next.2
  | finish {c' : Cursor} (before : Evolves c c') : Evolves c c'.finish

theorem Evolves.trans {c c' c'' : Cursor} (h : c.Evolves c') (h' : c'.Evolves c'') :
    c.Evolves c'' := by
  induction h' with
  | refl => exact h
  | next _ ih => exact .next ih
  | finish _ ih => exact .finish ih

theorem finish_of_finished {c : Cursor} (h : c.finished) : c.finish = c := by simp [finish, h]

@[simp] theorem finished_finish (c : Cursor) : c.finish.finished := by
  unfold finish
  split
  · assumption
  · rfl

theorem next_of_finished {c : Cursor} (h : c.finished) : c.next = (none, c) := by simp [next, h]

/-- After the end and after an error a cursor is finished. -/
theorem finished_next {c : Cursor} (h : ∀ a, c.next.1 ≠ some (.ok a)) : c.next.2.finished := by
  unfold next at h ⊢
  split
  · assumption
  · split
    · next a found => simp_all
    · exact finished_finish _
    · exact finished_finish _

theorem Evolves.finished {c c' : Cursor} (h : c.Evolves c') (hc : c.finished) : c'.finished := by
  induction h with
  | refl => exact hc
  | next _ ih => rw [next_of_finished ih]; exact ih
  | finish => exact finished_finish _

end Cursor

namespace Pool

/-- A pool that has the same cursors, each as it was or used. -/
def Later (p p' : Pool) : Prop := List.Forall₂ Cursor.Evolves p.cursors p'.cursors

variable {p p' p'' : Pool}

theorem Later.refl (p : Pool) : p.Later p := List.forall₂_same.mpr fun _ _ => .refl

theorem Later.of_cursors (h : p.cursors = p'.cursors) : p.Later p' := by
  unfold Later
  rw [← h]
  exact Later.refl p

theorem Later.trans (h : p.Later p') (h' : p'.Later p'') : p.Later p'' := by
  unfold Later at h h' ⊢
  generalize p.cursors = cs, p'.cursors = cs', p''.cursors = cs'' at h h' ⊢
  induction h generalizing cs'' with
  | nil => exact h'
  | cons used _ ih =>
    cases h' with
    | cons used' rest' => exact .cons (used.trans used') (ih _ rest')

/-- A cursor of the pool is found in a later one, used. -/
theorem Later.cursor {number : Nat} {c' : Cursor} (h : p.Later p')
    (h' : p'.cursors[number]? = some c') :
    ∃ c, p.cursors[number]? = some c ∧ c.Evolves c' := by
  unfold Later at h
  generalize p.cursors = cs, p'.cursors = cs' at h h' ⊢
  induction h generalizing number with
  | nil => cases h'
  | cons used _ ih =>
    cases number with
    | zero => cases h'; exact ⟨_, rfl, used⟩
    | succ number => exact ih h'

/-- A cursor of a pool is found, used, in a later one. -/
theorem Later.find {number : Nat} {c : Cursor} (h : p.Later p')
    (found : p.cursors[number]? = some c) :
    ∃ c', p'.cursors[number]? = some c' ∧ c.Evolves c' := by
  have bound : number < p'.cursors.length :=
    h.length_eq ▸ (List.getElem?_eq_some_iff.mp found).1
  obtain ⟨c₀, found₀, used⟩ := h.cursor (List.getElem?_eq_getElem bound)
  cases found.symm.trans found₀
  exact ⟨_, List.getElem?_eq_getElem bound, used⟩

theorem later_setCursor {number : Nat} {c c' : Cursor} (found : p.cursors[number]? = some c)
    (used : c.Evolves c') : p.Later (p.setCursor number c') := by
  show List.Forall₂ _ p.cursors (p.cursors.set number c')
  generalize p.cursors = cs at found ⊢
  induction cs generalizing number with
  | nil => exact .nil
  | cons d ds ih =>
    cases number with
    | zero => cases found; exact .cons used (List.forall₂_same.mpr fun _ _ => .refl)
    | succ number => exact .cons .refl (ih found)

end Pool

/-! ### Sessions -/

/-- How readers of one kind are used, which share a pool of type `π`.  There may be no answer to what
comes next, when nothing ever comes. -/
structure Protocol (ρ π : Type) where
  next : ρ → π → Option (Pull × ρ × π)
  hasNext : ρ → π → Option (Option Bool × ρ × π)
  fresh : ρ → π → Option ρ × π
  close : ρ → π → ρ × π

/-- What a reader can be asked for. -/
inductive Call where
  | next
  | hasNext
  | fresh
  | close
  deriving DecidableEq

/-- What it answers. -/
inductive Answer where
  | pulled (x : Pull)
  /-- Whether something comes next, if the reader can tell. -/
  | expects (b? : Option Bool)
  /-- Whether there is a new reader. -/
  | restarted (made : Bool)
  | closed

/-- What was given, if the question was for the next item. -/
def Answer.pull? : Answer → Option Pull
  | pulled x => some x
  | _ => none

/-- What comes after everything else: the end, or an error. -/
def Pull.IsLast (x : Pull) : Prop := ∀ a, x ≠ some (.ok a)

/-- An answer after which a reader has nothing more to give. -/
def Answer.IsLast : Answer → Prop
  | pulled x => x.IsLast
  | closed => True
  | _ => False

/-- Readers, and the pool they share. -/
structure Session (ρ π : Type) where
  readers : List ρ
  pool : π

namespace Session

variable {ρ π : Type}

/-- Asks the reader with the given number. -/
def call (P : Protocol ρ π) (s : Session ρ π) (i : Nat) (c : Call) : Option (Answer × Session ρ π) :=
  match s.readers[i]? with
  | none => none
  | some r =>
    match c with
    | .next =>
      (P.next r s.pool).map fun (x, r', p') => (.pulled x, ⟨s.readers.set i r', p'⟩)
    | .hasNext =>
      (P.hasNext r s.pool).map fun (b?, r', p') => (.expects b?, ⟨s.readers.set i r', p'⟩)
    | .fresh =>
      let (r'?, p') := P.fresh r s.pool
      some (.restarted r'?.isSome, ⟨s.readers ++ r'?.toList, p'⟩)
    | .close =>
      let (r', p') := P.close r s.pool
      some (.closed, ⟨s.readers.set i r', p'⟩)

/-- Asks readers one after the other. -/
def run (P : Protocol ρ π) (s : Session ρ π) : List (Nat × Call) → Option (List Answer × Session ρ π)
  | [] => some ([], s)
  | (i, c) :: rest =>
    match s.call P i c with
    | none => none
    | some (a, s') => (s'.run P rest).map fun (as, s'') => (a :: as, s'')

/-- What the reader with number `i` was given in a run of these calls with these answers. -/
def pulls (i : Nat) (calls : List (Nat × Call)) (as : List Answer) : List Pull :=
  (calls.zip as).filterMap fun (called, a) => if called.1 = i then a.pull? else none

variable {P : Protocol ρ π} {s s' s'' : Session ρ π}

@[simp] theorem run_nil : s.run P [] = some ([], s) := rfl

theorem run_cons_eq_some {i : Nat} {c : Call} {rest : List (Nat × Call)} {as : List Answer} :
    s.run P ((i, c) :: rest) = some (as, s'') ↔
      ∃ a s' as', s.call P i c = some (a, s') ∧ s'.run P rest = some (as', s'') ∧ as = a :: as' := by
  simp only [run]
  cases h : s.call P i c with
  | none => simp
  | some called =>
    obtain ⟨a, s'⟩ := called
    simp only [Option.map_eq_some_iff, Prod.exists, Prod.mk.injEq, Option.some.injEq]
    constructor
    · rintro ⟨as', t, h', rfl, rfl⟩
      exact ⟨a, s', as', ⟨rfl, rfl⟩, h', rfl⟩
    · rintro ⟨_, _, as', ⟨rfl, rfl⟩, h', rfl⟩
      exact ⟨as', s'', h', rfl, rfl⟩

/-- What every call keeps, every run keeps. -/
theorem run_induction {I : Session ρ π → Prop}
    (step : ∀ s s' i c a, I s → s.call P i c = some (a, s') → I s') {calls : List (Nat × Call)}
    {as : List Answer} (h : s.run P calls = some (as, s')) (start : I s) : I s' := by
  induction calls generalizing s as with
  | nil => cases h; exact start
  | cons called rest ih =>
    obtain ⟨i, c⟩ := called
    obtain ⟨a, t, as', hcall, hrest, rfl⟩ := run_cons_eq_some.mp h
    exact ih hrest (step s t i c a start hcall)

theorem pulls_cons (i j : Nat) (c : Call) (calls : List (Nat × Call)) (a : Answer)
    (as : List Answer) :
    pulls j ((i, c) :: calls) (a :: as) =
      (if i = j then a.pull?.toList else []) ++ pulls j calls as := by
  unfold pulls
  rw [List.zip_cons_cons, List.filterMap_cons]
  by_cases h : i = j
  · cases ha : a.pull? <;> simp [h, ha]
  · simp [h]

/-- What the answer to one call brings about and every call keeps, holds at the end of the run. -/
theorem run_reaches {I Q : Session ρ π → Prop} {E : Answer → Prop} {i : Nat}
    (step : ∀ s s' j c a, I s → s.call P j c = some (a, s') → I s')
    (keep : ∀ s s' j c a, I s → Q s → s.call P j c = some (a, s') → Q s')
    (reach : ∀ s s' c a, I s → s.call P i c = some (a, s') → E a → Q s')
    {calls : List (Nat × Call)} {as : List Answer} (ran : s.run P calls = some (as, s'))
    (start : I s) {n : Nat} {c : Call} {a : Answer} (called : calls[n]? = some (i, c))
    (answered : as[n]? = some a) (brings : E a) : Q s' := by
  induction calls generalizing s as n with
  | nil => cases called
  | cons first rest ih =>
    obtain ⟨j, d⟩ := first
    obtain ⟨b, t, bs, hcall, hrest, rfl⟩ := run_cons_eq_some.mp ran
    have next := step s t j d b start hcall
    cases n with
    | zero =>
      cases called
      cases answered
      exact (run_induction (I := fun s => I s ∧ Q s)
        (fun s s' j c a h called => ⟨step s s' j c a h.1 called, keep s s' j c a h.1 h.2 called⟩)
        hrest ⟨next, reach s t c a start hcall brings⟩).2
    | succ n => exact ih hrest next called answered

theorem length_of_run {calls : List (Nat × Call)} {as : List Answer}
    (ran : s.run P calls = some (as, s')) : as.length = calls.length := by
  induction calls generalizing s as with
  | nil => cases ran; rfl
  | cons called rest ih =>
    obtain ⟨i, c⟩ := called
    obtain ⟨a, t, as', -, hrest, rfl⟩ := run_cons_eq_some.mp ran
    simp [ih hrest]

theorem pulls_append (j : Nat) {first rest : List (Nat × Call)} {as bs : List Answer}
    (same : as.length = first.length) :
    pulls j (first ++ rest) (as ++ bs) = pulls j first as ++ pulls j rest bs := by
  unfold pulls
  rw [List.zip_append same.symm, List.filterMap_append]

/-- Only readers of the session are asked, and none is lost. -/
theorem readers_of_call {i : Nat} {c : Call} {a : Answer} (called : s.call P i c = some (a, s')) :
    i < s.readers.length ∧ s.readers.length ≤ s'.readers.length := by
  unfold call at called
  split at called
  · cases called
  · next r found =>
    refine ⟨(List.getElem?_eq_some_iff.mp found).1, ?_⟩
    cases c with
    | next | hasNext =>
      obtain ⟨_, _, heq⟩ := Option.map_eq_some_iff.mp called
      cases heq
      simp
    | fresh | close => cases called; simp

theorem readers_of_run {calls : List (Nat × Call)} {as : List Answer}
    (ran : s.run P calls = some (as, s')) : s.readers.length ≤ s'.readers.length :=
  run_induction (I := fun t => s.readers.length ≤ t.readers.length)
    (fun _ _ _ _ _ more called => Nat.le_trans more (readers_of_call called).2) ran (Nat.le_refl _)

/-- A reader that is not there yet is given nothing. -/
theorem pulls_of_unmade {j : Nat} {calls : List (Nat × Call)} {as : List Answer}
    (ran : s.run P calls = some (as, s')) (unmade : s'.readers.length ≤ j) :
    pulls j calls as = [] := by
  induction calls generalizing s as with
  | nil => cases ran; rfl
  | cons called rest ih =>
    obtain ⟨i, c⟩ := called
    obtain ⟨a, t, as', hcall, hrest, rfl⟩ := run_cons_eq_some.mp ran
    obtain ⟨asked, more⟩ := readers_of_call hcall
    have other : i ≠ j := by
      have := readers_of_run hrest
      omega
    rw [pulls_cons, if_neg other, List.nil_append, ih hrest]

theorem run_append_eq_some {first rest : List (Nat × Call)} {as : List Answer} :
    s.run P (first ++ rest) = some (as, s'') ↔
      ∃ bs s' cs, s.run P first = some (bs, s') ∧ s'.run P rest = some (cs, s'') ∧ as = bs ++ cs := by
  induction first generalizing s as with
  | nil =>
    constructor
    · intro h
      exact ⟨[], s, as, rfl, h, rfl⟩
    · rintro ⟨_, _, cs, h, h', rfl⟩
      cases h
      exact h'
  | cons called first ih =>
    obtain ⟨i, c⟩ := called
    simp only [List.cons_append, run_cons_eq_some, ih]
    constructor
    · rintro ⟨a, t, _, hcall, ⟨bs, s', cs, hfirst, hrest, rfl⟩, rfl⟩
      exact ⟨a :: bs, s', cs, ⟨a, t, bs, hcall, hfirst, rfl⟩, hrest, rfl⟩
    · rintro ⟨_, s', cs, ⟨a, t, bs, hcall, hfirst, rfl⟩, hrest, rfl⟩
      exact ⟨a, t, bs ++ cs, hcall, ⟨bs, s', cs, hfirst, hrest, rfl⟩, rfl⟩

end Session

/-! ### Protocols under which an end is final -/

namespace Protocol

variable {ρ π : Type}

/-- Two readers of which new ones are made alike, and that both look ahead or both do not. -/
def Alike (P : Protocol ρ π) (ahead : ρ → Bool) (r r' : ρ) : Prop :=
  (∀ p, P.fresh r p = P.fresh r' p) ∧ ahead r = ahead r'

theorem Alike.refl {P : Protocol ρ π} {ahead : ρ → Bool} (r : ρ) : P.Alike ahead r r :=
  ⟨fun _ => rfl, rfl⟩

theorem Alike.symm {P : Protocol ρ π} {ahead : ρ → Bool} {r r' : ρ} (h : P.Alike ahead r r') :
    P.Alike ahead r' r := ⟨fun p => (h.1 p).symm, h.2.symm⟩

theorem Alike.trans {P : Protocol ρ π} {ahead : ρ → Bool} {r r' r'' : ρ} (h : P.Alike ahead r r')
    (h' : P.Alike ahead r' r'') : P.Alike ahead r r'' :=
  ⟨fun p => (h.1 p).trans (h'.1 p), h.2.trans h'.2⟩

/-- The end of a reader is final: `Spent` is what holds after the end, after an error and after
closing, where readers are as `Sound` says.  `Later` says how the pool may change, and `ahead` which
readers look ahead. -/
structure Lasting (P : Protocol ρ π) (Later : π → π → Prop) (ahead : ρ → Bool)
    (Sound Spent : ρ → π → Prop) : Prop where
  later_refl : ∀ p, Later p p
  later_trans : ∀ {p p' p''}, Later p p' → Later p' p'' → Later p p''
  sound_later : ∀ {r p p'}, Later p p' → Sound r p → Sound r p'
  spent_later : ∀ {r p p'}, Later p p' → Spent r p → Spent r p'
  next : ∀ {r p x r' p'}, Sound r p → P.next r p = some (x, r', p') →
    Later p p' ∧ Sound r' p' ∧ P.Alike ahead r r' ∧ (x.IsLast → Spent r' p')
  hasNext : ∀ {r p b? r' p'}, Sound r p → P.hasNext r p = some (b?, r', p') →
    Later p p' ∧ Sound r' p' ∧ P.Alike ahead r r'
  fresh : ∀ {r p r'? p'}, Sound r p → P.fresh r p = (r'?, p') →
    Later p p' ∧ ∀ r' ∈ r'?, Sound r' p'
  close : ∀ {r p r' p'}, Sound r p → P.close r p = (r', p') →
    Later p p' ∧ Sound r' p' ∧ P.Alike ahead r r' ∧ Spent r' p'
  spent_next : ∀ {r p}, Sound r p → Spent r p → ∃ r', P.next r p = some (none, r', p)
  spent_hasNext : ∀ {r p}, Sound r p → Spent r p →
    ∃ r', P.hasNext r p = some (if ahead r then some false else none, r', p) ∧ Spent r' p
  spent_close : ∀ {r p}, Sound r p → Spent r p → ∃ r', P.close r p = (r', p)

end Protocol

namespace Session

variable {ρ π : Type} {P : Protocol ρ π} {Later : π → π → Prop} {ahead : ρ → Bool}
  {Sound Spent : ρ → π → Prop} {s s' t t' : Session ρ π} {i : Nat} {c : Call} {a : Answer}

/-- All readers are sound. -/
def AllSound (Sound : ρ → π → Prop) (s : Session ρ π) : Prop := ∀ r ∈ s.readers, Sound r s.pool

/-- The reader with a number is spent. -/
def SpentAt (Spent : ρ → π → Prop) (i : Nat) (s : Session ρ π) : Prop :=
  ∃ r, s.readers[i]? = some r ∧ Spent r s.pool

/-- What a call does to a session: it replaces the reader that was asked, or it adds readers. -/
theorem call_cases (law : P.Lasting Later ahead Sound Spent) (h : s.AllSound Sound)
    (called : s.call P i c = some (a, s')) :
    (∃ r r' p', s.readers[i]? = some r ∧ s' = ⟨s.readers.set i r', p'⟩ ∧ Later s.pool p' ∧
      Sound r' p' ∧ (a.IsLast → Spent r' p') ∧ (Spent r s.pool → Spent r' p')) ∨
    ∃ new p', s' = ⟨s.readers ++ new, p'⟩ ∧ Later s.pool p' ∧ (∀ r ∈ new, Sound r p') ∧
      ¬ a.IsLast := by
  unfold call at called
  split at called
  · cases called
  · next r found =>
    have hr := h r (List.mem_of_getElem? found)
    cases c with
    | next =>
      obtain ⟨⟨x, r', p'⟩, hnext, heq⟩ := Option.map_eq_some_iff.mp called
      cases heq
      obtain ⟨later, sound, -, last⟩ := law.next hr hnext
      refine .inl ⟨r, r', p', found, rfl, later, sound, last, fun spent => ?_⟩
      obtain ⟨r'', hnext'⟩ := law.spent_next hr spent
      cases hnext.symm.trans hnext'
      exact last nofun
    | hasNext =>
      obtain ⟨⟨b?, r', p'⟩, hnext, heq⟩ := Option.map_eq_some_iff.mp called
      cases heq
      obtain ⟨later, sound, -⟩ := law.hasNext hr hnext
      refine .inl ⟨r, r', p', found, rfl, later, sound, False.elim, fun spent => ?_⟩
      obtain ⟨r'', hnext', spent'⟩ := law.spent_hasNext hr spent
      cases hnext.symm.trans hnext'
      exact spent'
    | fresh =>
      obtain ⟨later, sound⟩ := law.fresh hr rfl
      cases called
      exact .inr ⟨_, _, rfl, later, fun q hq => sound q (Option.mem_toList.mp hq), id⟩
    | close =>
      obtain ⟨later, sound, -, spent⟩ := law.close hr rfl
      cases called
      exact .inl ⟨r, _, _, found, rfl, later, sound, fun _ => spent, fun _ => spent⟩

theorem allSound_call (law : P.Lasting Later ahead Sound Spent) (h : s.AllSound Sound)
    (called : s.call P i c = some (a, s')) : s'.AllSound Sound := by
  intro q hq
  obtain ⟨r, r', p', -, rfl, later, sound, -⟩ | ⟨new, p', rfl, later, sound, -⟩ :=
    call_cases law h called
  · rcases List.mem_or_eq_of_mem_set hq with hq | rfl
    · exact law.sound_later later (h q hq)
    · exact sound
  · rcases List.mem_append.mp hq with hq | hq
    · exact law.sound_later later (h q hq)
    · exact sound q hq

/-- A reader that is spent remains so, whichever reader is asked. -/
theorem spentAt_call (law : P.Lasting Later ahead Sound Spent) (h : s.AllSound Sound) {j : Nat}
    (spent : s.SpentAt Spent j) (called : s.call P i c = some (a, s')) : s'.SpentAt Spent j := by
  obtain ⟨q, hq, hspent⟩ := spent
  obtain ⟨r, r', p', found, rfl, later, -, -, kept⟩ | ⟨new, p', rfl, later, -⟩ :=
    call_cases law h called
  · by_cases hij : i = j
    · subst hij
      cases found.symm.trans hq
      have bound := (List.getElem?_eq_some_iff.mp found).1
      exact ⟨r', List.getElem?_set_self bound, kept hspent⟩
    · exact ⟨q, (List.getElem?_set_ne hij).trans hq, law.spent_later later hspent⟩
  · have bound := (List.getElem?_eq_some_iff.mp hq).1
    exact ⟨q, (List.getElem?_append_left bound).trans hq, law.spent_later later hspent⟩

/-- The answers after which nothing comes make a reader spent. -/
theorem spentAt_of_last (law : P.Lasting Later ahead Sound Spent) (h : s.AllSound Sound)
    (called : s.call P i c = some (a, s')) (last : a.IsLast) : s'.SpentAt Spent i := by
  obtain ⟨r, r', p', found, rfl, -, -, spent, -⟩ | ⟨new, p', rfl, -, -, more⟩ :=
    call_cases law h called
  · have bound := (List.getElem?_eq_some_iff.mp found).1
    exact ⟨r', List.getElem?_set_self bound, spent last⟩
  · exact absurd last more

theorem later_call (law : P.Lasting Later ahead Sound Spent) (h : s.AllSound Sound)
    (called : s.call P i c = some (a, s')) : Later s.pool s'.pool := by
  obtain ⟨r, r', p', -, rfl, later, -⟩ | ⟨new, p', rfl, later, -⟩ := call_cases law h called <;>
    exact later

theorem allSound_run (law : P.Lasting Later ahead Sound Spent) {calls : List (Nat × Call)}
    {as : List Answer} (h : s.AllSound Sound) (ran : s.run P calls = some (as, s')) :
    s'.AllSound Sound :=
  run_induction (fun _ _ _ _ _ => allSound_call law) ran h

theorem later_run (law : P.Lasting Later ahead Sound Spent) {calls : List (Nat × Call)}
    {as : List Answer} (h : s.AllSound Sound) (ran : s.run P calls = some (as, s')) :
    Later s.pool s'.pool :=
  (run_induction (I := fun t => t.AllSound Sound ∧ Later s.pool t.pool)
    (fun _ _ _ _ _ kept called =>
      ⟨allSound_call law kept.1 called, law.later_trans kept.2 (later_call law kept.1 called)⟩)
    ran ⟨h, law.later_refl _⟩).2

/-- **An end is final**: whatever the readers of a session are asked, one that is spent remains
so. -/
theorem spentAt_run (law : P.Lasting Later ahead Sound Spent) {calls : List (Nat × Call)}
    {as : List Answer} (h : s.AllSound Sound) (spent : s.SpentAt Spent i)
    (ran : s.run P calls = some (as, s')) : s'.SpentAt Spent i :=
  (run_induction (I := fun s => s.AllSound Sound ∧ s.SpentAt Spent i)
    (fun _ _ _ _ _ kept called =>
      ⟨allSound_call law kept.1 called, spentAt_call law kept.1 kept.2 called⟩)
    ran ⟨h, spent⟩).2

/-- A spent reader gives nothing. -/
theorem call_next_of_spent (law : P.Lasting Later ahead Sound Spent) (h : s.AllSound Sound)
    (spent : s.SpentAt Spent i) : ∃ s', s.call P i .next = some (.pulled none, s') := by
  obtain ⟨r, found, hspent⟩ := spent
  obtain ⟨r', hnext⟩ := law.spent_next (h r (List.mem_of_getElem? found)) hspent
  exact ⟨⟨s.readers.set i r', s.pool⟩, by simp [call, found, hnext]⟩

/-! #### Sessions that cannot be told apart -/

/-- Two sessions that are the same but for one reader, which is spent in both. -/
def TwinsAt (P : Protocol ρ π) (ahead : ρ → Bool) (Sound Spent : ρ → π → Prop) (i : Nat)
    (s t : Session ρ π) : Prop :=
  ∃ r q, s.readers[i]? = some r ∧ t = ⟨s.readers.set i q, s.pool⟩ ∧ P.Alike ahead r q ∧
    Spent r s.pool ∧ Sound q s.pool ∧ Spent q s.pool

/-- Asking the reader that is spent in both. -/
theorem twinsAt_call_self (law : P.Lasting Later ahead Sound Spent) (h : s.AllSound Sound)
    (twins : TwinsAt P ahead Sound Spent i s t) (called : s.call P i c = some (a, s')) :
    ∃ t', t.call P i c = some (a, t') ∧ TwinsAt P ahead Sound Spent i s' t' := by
  obtain ⟨r, q, found, rfl, alike, spent, sound, spent'⟩ := twins
  have bound := (List.getElem?_eq_some_iff.mp found).1
  -- Both readers are spent, so both answer that there is nothing; what may differ is what is left of them.
  have found' : (s.readers.set i q)[i]? = some q := List.getElem?_set_self bound
  have hr := h r (List.mem_of_getElem? found)
  simp only [call, found, found'] at called ⊢
  cases c with
  | next =>
    obtain ⟨r', hnext⟩ := law.spent_next hr spent
    obtain ⟨q', hnext'⟩ := law.spent_next sound spent'
    obtain ⟨-, -, alikeR, spentR⟩ := law.next hr hnext
    obtain ⟨-, soundQ, alikeQ, spentQ⟩ := law.next sound hnext'
    simp only [hnext, hnext', Option.map_some, Option.some.injEq, Prod.mk.injEq] at called ⊢
    obtain ⟨rfl, rfl⟩ := called
    exact ⟨_, ⟨rfl, rfl⟩, r', q', by simp [bound], by simp, (alikeR.symm.trans alike).trans alikeQ,
      spentR nofun, soundQ, spentQ nofun⟩
  | hasNext =>
    obtain ⟨r', hnext, spentR⟩ := law.spent_hasNext hr spent
    obtain ⟨q', hnext', spentQ⟩ := law.spent_hasNext sound spent'
    obtain ⟨-, -, alikeR⟩ := law.hasNext hr hnext
    obtain ⟨-, soundQ, alikeQ⟩ := law.hasNext sound hnext'
    simp only [hnext, hnext', alike.2, Option.map_some, Option.some.injEq, Prod.mk.injEq]
      at called ⊢
    obtain ⟨rfl, rfl⟩ := called
    exact ⟨_, ⟨rfl, rfl⟩, r', q', by simp [bound], by simp, (alikeR.symm.trans alike).trans alikeQ,
      spentR, soundQ, spentQ⟩
  | fresh =>
    obtain ⟨later, -⟩ := law.fresh sound rfl
    simp only [alike.1, Option.some.injEq, Prod.mk.injEq] at called ⊢
    obtain ⟨rfl, rfl⟩ := called
    refine ⟨_, ⟨rfl, rfl⟩, r, q, ?_, ?_, alike, law.spent_later later spent,
      law.sound_later later sound, law.spent_later later spent'⟩
    · exact (List.getElem?_append_left bound).trans found
    · simp [List.set_append_left, bound]
  | close =>
    obtain ⟨r', hclose⟩ := law.spent_close hr spent
    obtain ⟨q', hclose'⟩ := law.spent_close sound spent'
    obtain ⟨-, -, alikeR, spentR⟩ := law.close hr hclose
    obtain ⟨-, soundQ, alikeQ, spentQ⟩ := law.close sound hclose'
    simp only [hclose, hclose', Option.some.injEq, Prod.mk.injEq] at called ⊢
    obtain ⟨rfl, rfl⟩ := called
    exact ⟨_, ⟨rfl, rfl⟩, r', q', by simp [bound], by simp, (alikeR.symm.trans alike).trans alikeQ,
      spentR, soundQ, spentQ⟩

/-- Asking another reader. -/
theorem twinsAt_call_other (law : P.Lasting Later ahead Sound Spent) (h : s.AllSound Sound) {j : Nat}
    (other : i ≠ j) (twins : TwinsAt P ahead Sound Spent j s t)
    (called : s.call P i c = some (a, s')) :
    ∃ t', t.call P i c = some (a, t') ∧ TwinsAt P ahead Sound Spent j s' t' := by
  obtain ⟨r, q, found, rfl, alike, spent, sound, spent'⟩ := twins
  have bound := (List.getElem?_eq_some_iff.mp found).1
  have same : (s.readers.set j q)[i]? = s.readers[i]? := List.getElem?_set_ne (Ne.symm other)
  -- What the call leaves of the session is the same in both, but for the reader that is spent.
  have keeps : ∀ {r' p'}, Later s.pool p' → TwinsAt P ahead Sound Spent j
      ⟨s.readers.set i r', p'⟩ ⟨(s.readers.set j q).set i r', p'⟩ := fun later =>
    ⟨r, q, (List.getElem?_set_ne other).trans found, by rw [List.set_comm _ _ other], alike,
      law.spent_later later spent, law.sound_later later sound, law.spent_later later spent'⟩
  simp only [call, same] at called ⊢
  split at called
  · cases called
  · next r₀ found₀ =>
    have hr := h r₀ (List.mem_of_getElem? found₀)
    cases c with
    | next =>
      obtain ⟨⟨x, r', p'⟩, hnext, heq⟩ := Option.map_eq_some_iff.mp called
      cases heq
      exact ⟨_, by rw [hnext]; rfl, keeps (law.next hr hnext).1⟩
    | hasNext =>
      obtain ⟨⟨b?, r', p'⟩, hnext, heq⟩ := Option.map_eq_some_iff.mp called
      cases heq
      exact ⟨_, by rw [hnext]; rfl, keeps (law.hasNext hr hnext).1⟩
    | fresh =>
      have later := (law.fresh hr rfl).1
      cases called
      refine ⟨_, rfl, r, q, ?_, ?_, alike, law.spent_later later spent,
        law.sound_later later sound, law.spent_later later spent'⟩
      · exact (List.getElem?_append_left bound).trans found
      · simp [List.set_append_left, bound]
    | close =>
      have later := (law.close hr rfl).1
      cases called
      exact ⟨_, rfl, keeps later⟩

theorem twinsAt_call (law : P.Lasting Later ahead Sound Spent) (h : s.AllSound Sound) {j : Nat}
    (twins : TwinsAt P ahead Sound Spent j s t) (called : s.call P i c = some (a, s')) :
    ∃ t', t.call P i c = some (a, t') ∧ TwinsAt P ahead Sound Spent j s' t' := by
  by_cases hij : i = j
  · subst hij
    exact twinsAt_call_self law h twins called
  · exact twinsAt_call_other law h hij twins called

theorem TwinsAt.symm (h : s.AllSound Sound) (twins : TwinsAt P ahead Sound Spent i s t) :
    TwinsAt P ahead Sound Spent i t s := by
  obtain ⟨r, q, found, rfl, alike, spent, sound, spent'⟩ := twins
  obtain ⟨bound, rfl⟩ := List.getElem?_eq_some_iff.mp found
  exact ⟨q, s.readers[i], List.getElem?_set_self bound, by simp, alike.symm, spent',
    h _ (List.getElem_mem bound), spent⟩

theorem TwinsAt.allSound (h : s.AllSound Sound) (twins : TwinsAt P ahead Sound Spent i s t) :
    t.AllSound Sound := by
  obtain ⟨r, q, -, rfl, -, -, sound, -⟩ := twins
  intro r' hr'
  rcases List.mem_or_eq_of_mem_set hr' with hr' | rfl
  · exact h r' hr'
  · exact sound

theorem twinsAt_run (law : P.Lasting Later ahead Sound Spent) {calls : List (Nat × Call)}
    {as : List Answer} (h : s.AllSound Sound) (twins : TwinsAt P ahead Sound Spent i s t)
    (ran : s.run P calls = some (as, s')) :
    ∃ t', t.run P calls = some (as, t') ∧ TwinsAt P ahead Sound Spent i s' t' := by
  induction calls generalizing s t as with
  | nil => cases ran; exact ⟨t, rfl, twins⟩
  | cons called rest ih =>
    obtain ⟨j, c⟩ := called
    obtain ⟨a, s₁, as', hcall, hrest, rfl⟩ := run_cons_eq_some.mp ran
    obtain ⟨t₁, hcall', twins'⟩ := twinsAt_call law h twins hcall
    obtain ⟨t', hrest', twins''⟩ := ih (allSound_call law h hcall) twins' hrest
    exact ⟨t', run_cons_eq_some.mpr ⟨a, t₁, as', hcall', hrest', rfl⟩, twins''⟩

/-- No answer tells twins apart. -/
theorem answers_of_twinsAt (law : P.Lasting Later ahead Sound Spent) (h : s.AllSound Sound)
    (twins : TwinsAt P ahead Sound Spent i s t) (calls : List (Nat × Call)) :
    (t.run P calls).map (·.1) = (s.run P calls).map (·.1) := by
  ext as
  simp only [Option.map_eq_some_iff, Prod.exists, exists_and_right, exists_eq_right]
  constructor
  · rintro ⟨t', ran⟩
    obtain ⟨s', ran', -⟩ := twinsAt_run law (twins.allSound h) (twins.symm h) ran
    exact ⟨s', ran'⟩
  · rintro ⟨s', ran⟩
    obtain ⟨t', ran', -⟩ := twinsAt_run law h twins ran
    exact ⟨t', ran'⟩

/-- **Closing once more changes nothing**: a spent reader can be closed, and after that the pool and
all answers of all readers are what they would have been. -/
theorem call_close_of_spent (law : P.Lasting Later ahead Sound Spent) (h : s.AllSound Sound)
    (spent : s.SpentAt Spent i) :
    ∃ s', s.call P i .close = some (.closed, s') ∧ s'.pool = s.pool ∧
      ∀ calls, (s'.run P calls).map (·.1) = (s.run P calls).map (·.1) := by
  obtain ⟨r, found, hspent⟩ := spent
  have hr := h r (List.mem_of_getElem? found)
  obtain ⟨r', hclose⟩ := law.spent_close hr hspent
  obtain ⟨-, sound, alike, spent'⟩ := law.close hr hclose
  refine ⟨⟨s.readers.set i r', s.pool⟩, by simp [call, found, hclose], rfl, ?_⟩
  exact answers_of_twinsAt law h ⟨r, r', found, rfl, alike, hspent, sound, spent'⟩

/-- **Exhaustion is permanent.**  Once a reader has answered with the end or with an error, or was
closed, it answers every later question for the next item with the end, whatever the readers of the
session are asked in between, and closing it again changes nothing. -/
theorem exhausted (law : P.Lasting Later ahead Sound Spent) (h : s.AllSound Sound)
    {before after : List (Nat × Call)} {as bs : List Answer} {s₁ s₂ s₃ : Session ρ π}
    (ranBefore : s.run P before = some (as, s₁)) (called : s₁.call P i c = some (a, s₂))
    (last : a.IsLast) (ranAfter : s₂.run P after = some (bs, s₃)) :
    (∃ s₄, s₃.call P i .next = some (.pulled none, s₄)) ∧
      ∃ s₄, s₃.call P i .close = some (.closed, s₄) ∧ s₄.pool = s₃.pool ∧
        ∀ more, (s₄.run P more).map (·.1) = (s₃.run P more).map (·.1) := by
  have sound₁ := allSound_run law h ranBefore
  have sound₂ := allSound_call law sound₁ called
  have sound₃ := allSound_run law sound₂ ranAfter
  have spent := spentAt_run law sound₂ (spentAt_of_last law sound₁ called last) ranAfter
  exact ⟨call_next_of_spent law sound₃ spent, call_close_of_spent law sound₃ spent⟩

end Session

end TreeQuery
