/-
Replays do not see later replays.

The source of a replay reads only replays that were made before it (`Pool.Ordered`).  What reading and
closing a source does to a pool is therefore done within the earlier part of the pool, whatever comes
after it: `Pool.Frames` says so of a function of pools, and `Reader.framed_accessWithin` of the ways to
read and to close sources, at every depth.

Design notes: each of `Replay.release`, `fill`, `fillTo` and `leave`, and then `Reader.nextWith` and
`closeWith`, has one lemma, which follows what the function does with the entry of the replay; chains
of changes are put together by `Pool.Frames.comp`.
-/
import TreeQuery.Sequence.Reader

namespace TreeQuery

/-- Everything that a reader reads from replays, it reads from those before number `n`. -/
def Reader.Below (n : Nat) : Reader → Prop
  | lookahead inner _ => inner.Below n
  | replay number _ _ => number < n
  | _ => True

theorem Reader.Below.mono {m n : Nat} (h : m ≤ n) {r : Reader} (below : r.Below m) : r.Below n := by
  induction r with
  | lookahead inner peeked? ih => exact ih below
  | replay number index done => exact Nat.lt_of_lt_of_le below h
  | _ => trivial

namespace Pool

variable {p : Pool}

/-- The source of every replay reads replays before it only. -/
def Ordered (p : Pool) : Prop :=
  ∀ (number : Nat) (r : Replay Reader) (source : Reader),
    p.replays[number]? = some r → r.source? = some source → source.Below number

/-- The pool with more replays after its own. -/
def extended (p : Pool) (more : List (Replay Reader)) : Pool := { p with replays := p.replays ++ more }

@[simp] theorem cursors_extended (more : List (Replay Reader)) : (p.extended more).cursors = p.cursors := rfl

@[simp] theorem replays_setReplay_length (number : Nat) (r : Replay Reader) :
    (p.setReplay number r).replays.length = p.replays.length := by simp [setReplay]

@[simp] theorem replays_setCursor (number : Nat) (c : Cursor) :
    (p.setCursor number c).replays = p.replays := rfl

@[simp] theorem replays_warn (log : List Warning) : (p.warn log).replays = p.replays := rfl

theorem getElem?_extended {number : Nat} (more : List (Replay Reader)) (h : number < p.replays.length) :
    (p.extended more).replays[number]? = p.replays[number]? := List.getElem?_append_left h

theorem setReplay_extended {number : Nat} (more : List (Replay Reader)) (r : Replay Reader)
    (h : number < p.replays.length) :
    (p.extended more).setReplay number r = (p.setReplay number r).extended more := by
  simp [extended, setReplay, List.set_append_left, h]

theorem ordered_setReplay {number : Nat} {r : Replay Reader} (ordered : p.Ordered)
    (h : ∀ source, r.source? = some source → source.Below number) :
    (p.setReplay number r).Ordered := by
  intro k r' source found hsource
  by_cases hk : number = k
  · subst hk
    have bound : number < p.replays.length := by
      simpa using (List.getElem?_eq_some_iff.mp found).1
    cases (List.getElem?_set_self bound).symm.trans found
    exact h source hsource
  · exact ordered k r' source ((List.getElem?_set_ne hk).symm.trans found) hsource

/-- What `f` does to a pool keeps the number of replays and their order, and is the same with more
replays. -/
structure Frames (f : Pool → Pool) (p : Pool) : Prop where
  length : (f p).replays.length = p.replays.length
  ordered : (f p).Ordered
  extended : ∀ more, f (p.extended more) = (f p).extended more

theorem Frames.id (ordered : p.Ordered) : Frames (fun p => p) p := ⟨rfl, ordered, fun _ => rfl⟩

@[simp] theorem extended_nil (p : Pool) : p.extended [] = p := by simp [extended]

theorem Frames.of_eq {f g : Pool → Pool} (h : ∀ more, f (p.extended more) = g (p.extended more))
    (hg : Frames g p) : Frames f p := by
  have same : f p = g p := by simpa using h []
  exact ⟨by rw [same]; exact hg.length, by rw [same]; exact hg.ordered,
    fun more => by rw [h, hg.extended, same]⟩

theorem Frames.comp {f g : Pool → Pool} (hf : Frames f p) (hg : Frames g (f p)) :
    Frames (fun p => g (f p)) p where
  length := hg.length.trans hf.length
  ordered := hg.ordered
  extended more := by rw [hf.extended, hg.extended]

theorem frames_setReplay {number : Nat} {r : Replay Reader} (ordered : p.Ordered)
    (bound : number < p.replays.length)
    (h : ∀ source, r.source? = some source → source.Below number) :
    Frames (·.setReplay number r) p :=
  ⟨by simp, ordered_setReplay ordered h, fun more => setReplay_extended more r bound⟩

theorem frames_setCursor (number : Nat) (c : Cursor) (ordered : p.Ordered) :
    Frames (·.setCursor number c) p := ⟨rfl, ordered, fun _ => rfl⟩

theorem frames_warn (log : List Warning) (ordered : p.Ordered) : Frames (·.warn log) p :=
  ⟨rfl, ordered, fun _ => rfl⟩

end Pool

/-! ### Later replays make no difference -/

/-- Reading and closing a source is done within the replays it may read. -/
structure SourceAccess.Framed (access : SourceAccess) : Prop where
  below : ∀ {n : Nat} {r : Reader} (p : Pool), r.Below n → (access.next r p).2.1.Below n
  next : ∀ {r : Reader} {p : Pool}, p.Ordered → r.Below p.replays.length →
    Pool.Frames (fun p => (access.next r p).2.2) p ∧ ∀ more,
      (access.next r (p.extended more)).1 = (access.next r p).1 ∧
      (access.next r (p.extended more)).2.1 = (access.next r p).2.1
  close : ∀ {r : Reader} {p : Pool}, p.Ordered → r.Below p.replays.length →
    Pool.Frames (fun p => (access.close r p).2) p

namespace Replay

variable {access : SourceAccess} {number : Nat} {p : Pool} {r : Replay Reader} {source : Reader}

theorem release_of_open (found : p.replays[number]? = some r) (opened : r.source? = some source) :
    release access number p =
      (access.close source (p.setReplay number { r with source? := none })).2 := by
  simp only [release, found, opened]

theorem release_of_closed (found : p.replays[number]? = some r) (closed : r.source? = none) :
    release access number p = p := by
  simp only [release, found, closed]

theorem fill_of_closed (count : Nat) (found : p.replays[number]? = some r)
    (closed : r.source? = none) : fill access number count p = p := by
  cases count with
  | zero => rfl
  | succ count => simp only [fill, found, closed]

@[simp] theorem source_entered (r : Replay Reader) (source : Reader) (x : Pull) :
    (r.entered source x).source? = some source := by
  rcases x with _ | _ | _ <;> rfl

/-- Pulling once: the entry is changed, and then filling goes on or the source is closed. -/
theorem fill_succ_of_open (count : Nat) (found : p.replays[number]? = some r)
    (opened : r.source? = some source) :
    fill access number (count + 1) p =
      (if (access.next source p).1.elim false (·.isOk) then fill access number count
        else release access number)
        ((access.next source p).2.2.setReplay number
          (r.entered (access.next source p).2.1 (access.next source p).1)) := by
  rcases pulled : (access.next source p).1 with _ | e | a <;>
    simp [fill, found, opened, pulled, Except.isOk, Except.toBool]

theorem frames_release (framed : access.Framed) (ordered : p.Ordered)
    (bound : number < p.replays.length) : Pool.Frames (release access number) p := by
  have lookup := fun more => Pool.getElem?_extended more bound
  obtain ⟨r, found⟩ : ∃ r, p.replays[number]? = some r := ⟨_, List.getElem?_eq_getElem bound⟩
  cases hsource : r.source? with
  | none =>
    exact .of_eq (fun more => release_of_closed ((lookup more).trans found) hsource) (.id ordered)
  | some source =>
    have below := (ordered number r source found hsource).mono (Nat.le_of_lt bound)
    have closed := Pool.frames_setReplay (r := { r with source? := none }) ordered bound nofun
    exact .of_eq (fun more => release_of_open ((lookup more).trans found) hsource)
      (closed.comp (framed.close closed.ordered (closed.length.symm ▸ below)))

theorem frames_fill (framed : access.Framed) (count : Nat) (ordered : p.Ordered)
    (bound : number < p.replays.length) : Pool.Frames (fill access number count) p := by
  induction count generalizing p with
  | zero => exact .id ordered
  | succ count ih =>
    have lookup := fun more => Pool.getElem?_extended more bound
    obtain ⟨r, found⟩ : ∃ r, p.replays[number]? = some r := ⟨_, List.getElem?_eq_getElem bound⟩
    cases hsource : r.source? with
    | none =>
      exact .of_eq (fun more => fill_of_closed _ ((lookup more).trans found) hsource) (.id ordered)
    | some source =>
      have below := ordered number r source found hsource
      obtain ⟨pulled, same⟩ := framed.next ordered (below.mono (Nat.le_of_lt bound))
      have entered : Pool.Frames (fun p' => (access.next source p').2.2.setReplay number
          (r.entered (access.next source p).2.1 (access.next source p).1)) p := by
        refine pulled.comp (Pool.frames_setReplay pulled.ordered (pulled.length.symm ▸ bound) ?_)
        intro source' h'
        cases (source_entered _ _ _).symm.trans h'
        exact framed.below p below
      have bound' := entered.length.symm ▸ bound
      refine .of_eq (fun more => by
        rw [fill_succ_of_open count ((lookup more).trans found) hsource, (same more).1,
          (same more).2]) (entered.comp ?_)
      split
      · exact ih entered.ordered bound'
      · exact frames_release framed entered.ordered bound'

theorem frames_fillTo (framed : access.Framed) (index : Nat) (ordered : p.Ordered)
    (bound : number < p.replays.length) : Pool.Frames (fillTo access number index) p := by
  have lookup := fun more => Pool.getElem?_extended more bound
  obtain ⟨r, found⟩ : ∃ r, p.replays[number]? = some r := ⟨_, List.getElem?_eq_getElem bound⟩
  refine .of_eq (fun more => by simp only [fillTo, lookup, found]; rfl) ?_
  exact frames_fill framed (index + 1 - r.buffer.size) ordered bound

theorem frames_leave (framed : access.Framed) (ordered : p.Ordered)
    (bound : number < p.replays.length) : Pool.Frames (leave access number) p := by
  have lookup := fun more => Pool.getElem?_extended more bound
  obtain ⟨r, found⟩ : ∃ r, p.replays[number]? = some r := ⟨_, List.getElem?_eq_getElem bound⟩
  have fewer := Pool.frames_setReplay (r := { r with readers := r.readers - 1 }) ordered bound
    fun source h => ordered number r source found h
  by_cases last : r.readers - 1 = 0
  · exact .of_eq (fun more => by simp only [leave, lookup, found, if_pos last])
      (fewer.comp (frames_release framed fewer.ordered (fewer.length.symm ▸ bound)))
  · exact .of_eq (fun more => by simp only [leave, lookup, found, if_neg last]) fewer

end Replay

namespace Reader

variable {access : SourceAccess}

theorem below_nextWith (access : SourceAccess) {n : Nat} {r : Reader} (p : Pool)
    (below : r.Below n) : (r.nextWith access p).2.1.Below n := by
  induction r generalizing p with
  | window items start stop index =>
    unfold nextWith
    split
    · split <;> trivial
    · trivial
  | empty | stream => trivial
  | range low high next? => cases next? <;> trivial
  | cursor number =>
    unfold nextWith
    split <;> trivial
  | lookahead inner peeked? ih =>
    cases peeked? with
    | none => exact ih p below
    | some x => exact below
  | replay number index done =>
    cases done with
    | true => exact below
    | false =>
      unfold nextWith
      dsimp only
      split
      · exact below
      · split <;> exact below

theorem frames_nextWith (framed : access.Framed) {r : Reader} {p : Pool} (ordered : p.Ordered)
    (below : r.Below p.replays.length) :
    Pool.Frames (fun p => (r.nextWith access p).2.2) p ∧ ∀ more,
      (r.nextWith access (p.extended more)).1 = (r.nextWith access p).1 ∧
      (r.nextWith access (p.extended more)).2.1 = (r.nextWith access p).2.1 := by
  induction r generalizing p with
  | window items start stop index =>
    unfold nextWith
    split
    · split <;> exact ⟨.id ordered, fun _ => ⟨rfl, rfl⟩⟩
    · exact ⟨.id ordered, fun _ => ⟨rfl, rfl⟩⟩
  | empty => exact ⟨.id ordered, fun _ => ⟨rfl, rfl⟩⟩
  | range low high next? => cases next? <;> exact ⟨.id ordered, fun _ => ⟨rfl, rfl⟩⟩
  | stream rest => exact ⟨Pool.frames_warn _ ordered, fun _ => ⟨rfl, rfl⟩⟩
  | cursor number =>
    cases found : p.cursors[number]? with
    | some c =>
      refine ⟨.of_eq (fun more => ?_) (Pool.frames_setCursor number c.next.2 ordered),
        fun more => ?_⟩ <;> simp [nextWith, found]
    | none =>
      refine ⟨.of_eq (fun more => ?_) (.id ordered), fun more => ?_⟩ <;> simp [nextWith, found]
  | lookahead inner peeked? ih =>
    cases peeked? with
    | none =>
      obtain ⟨frames, same⟩ := ih ordered below
      exact ⟨frames, fun more => ⟨(same more).1, congrArg (lookahead · none) (same more).2⟩⟩
    | some x => exact ⟨.id ordered, fun _ => ⟨rfl, rfl⟩⟩
  | replay number index done =>
    cases done with
    | true => exact ⟨.id ordered, fun _ => ⟨rfl, rfl⟩⟩
    | false =>
      -- Recordings that are added come behind all others, so that the one that is read is found under its number.
      have filled := Replay.frames_fillTo framed index ordered below
      have bound := filled.length.symm ▸ below
      have lookup := fun more => Pool.getElem?_extended more bound
      obtain ⟨r, found⟩ : ∃ r, (Replay.fillTo access number index p).replays[number]? = some r :=
        ⟨_, List.getElem?_eq_getElem bound⟩
      cases hitem : r.buffer[index]? with
      | some a =>
        refine ⟨.of_eq (fun more => ?_) filled, fun more => ?_⟩ <;>
          simp [nextWith, filled.extended, lookup, found, hitem]
      | none =>
        have left := Replay.frames_leave framed filled.ordered bound
        refine ⟨.of_eq (fun more => ?_) (filled.comp left), fun more => ?_⟩ <;>
          simp [nextWith, filled.extended, lookup, found, hitem]

theorem frames_closeWith (framed : access.Framed) {r : Reader} {p : Pool} (ordered : p.Ordered)
    (below : r.Below p.replays.length) :
    Pool.Frames (fun p => (r.closeWith access p).2) p := by
  induction r generalizing p with
  | window | empty | range | stream => exact .id ordered
  | cursor number =>
    cases found : p.cursors[number]? with
    | some c =>
      exact .of_eq (fun more => by simp [closeWith, found])
        (Pool.frames_setCursor number c.finish ordered)
    | none => exact .of_eq (fun more => by simp [closeWith, found]) (.id ordered)
  | lookahead inner peeked? ih => exact ih ordered below
  | replay number index done =>
    cases done with
    | true => exact .id ordered
    | false => exact Replay.frames_leave framed ordered below

/-- At every depth, later replays make no difference. -/
theorem framed_accessWithin (depth : Nat) : (accessWithin depth).Framed := by
  induction depth with
  | zero =>
    exact ⟨fun _ below => below, fun ordered _ => ⟨.id ordered, fun _ => ⟨rfl, rfl⟩⟩,
      fun ordered _ => .id ordered⟩
  | succ depth ih =>
    exact ⟨below_nextWith _, frames_nextWith ih, frames_closeWith ih⟩

end Reader

end TreeQuery
