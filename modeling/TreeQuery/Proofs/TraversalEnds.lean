/-
The end of a traversal is final.

What `ReaderEnds` says of readers holds of all machines that hand out the results of expressions,
nested in any way, read ahead and replayed, over readers of any kind.  Every machine keeps its own
account of having finished, and `Traversal.Spent` says what that account is at the end: mostly a flag,
for a conversion the end of what it reads.  One step of one machine decides (`Traversal.Step`).

Main statements:

* `Traversal.lasting`: the protocol of traversals is lasting;
* `Session.traversals_exhausted`: after the end, an error or closing, nothing comes any more.

Design notes: what is said of a step is proved by induction on the number of turns that it takes: a
machine that asks another one, or goes on, may assume what is to be shown of the answer.
-/
import TreeQuery.Proofs.ReaderEnds
import TreeQuery.Proofs.TraversalTurns

namespace TreeQuery

namespace Workspace

/-- A workspace that has the same cursors, each as it was or used. -/
def Later (q q' : Workspace) : Prop := q.pool.Later q'.pool

variable {q q' q'' : Workspace}

theorem Later.refl (q : Workspace) : q.Later q := Pool.Later.refl q.pool

theorem Later.trans (h : q.Later q') (h' : q'.Later q'') : q.Later q'' := Pool.Later.trans h h'

@[simp] theorem later_setReplay {number : Nat} {r : Replay Traversal} :
    q.Later (q.setReplay number r) := Later.refl q

theorem later_warn (q : Workspace) (log : List Warning) : q.Later (q.warn log) := Pool.later_warn

end Workspace

namespace Traversal

/-! ### Closing -/

/-- Closing sources leaves cursors as they were, or used. -/
def Careful (closing : Traversal → Workspace → Workspace) : Prop :=
  ∀ (t : Traversal) (q : Workspace), q.Later (closing t q)

section Closing

variable {closing : Traversal → Workspace → Workspace}

theorem later_releaseWith (careful : Careful closing) (number : Nat) (q : Workspace) :
    q.Later (releaseWith closing number q) := by
  unfold releaseWith
  split
  · split
    · exact Workspace.later_setReplay.trans (careful _ _)
    · exact .refl q
  · exact .refl q

theorem later_leaveWith (careful : Careful closing) (number : Nat) (q : Workspace) :
    q.Later (leaveWith closing number q) := by
  unfold leaveWith
  split
  · dsimp only
    split
    · exact Workspace.later_setReplay.trans (later_releaseWith careful _ _)
    · exact Workspace.later_setReplay
  · exact .refl q

theorem later_closeWith (careful : Careful closing) (t : Traversal) (q : Workspace) :
    q.Later (closeWith closing t q).2 := by
  induction t generalizing q with
  | reader r => exact Reader.later_closeWith (Reader.careful_access q.pool) r q.pool
  | lookahead inner peeked? ih => exact ih q
  | replay number index done =>
    cases done with
    | true => exact .refl q
    | false => exact later_leaveWith careful _ _
  | axis | concat => exact .refl q
  | within how source position current ihSource ihCurrent =>
    exact (ihCurrent q).trans (ihSource _)
  | part parts c current ih => exact ih q
  | expand _ _ _ finished ih | filter _ _ _ _ _ _ finished ih | atomize _ _ _ finished ih
    | convert _ _ _ finished ih | check _ _ _ _ finished ih | between _ _ _ _ finished ih =>
    cases finished with
    | true => exact .refl q
    | false => exact ih q

theorem careful_closeWithin (depth : Nat) : Careful (closeWithin depth) := by
  induction depth with
  | zero => exact fun _ q => .refl q
  | succ depth ih => exact later_closeWith ih

theorem careful_closeSource : Careful closeSource := fun t q =>
  careful_closeWithin q.replays.length t q

theorem later_close (t : Traversal) (q : Workspace) : q.Later (t.close q).2 :=
  later_closeWith careful_closeSource t q

theorem later_receive (number : Nat) (x : Pull) (source : Traversal) (q : Workspace) :
    q.Later (receive number x source q) := by
  unfold receive
  split
  · dsimp only
    split
    · exact Workspace.later_setReplay
    · exact Workspace.later_setReplay.trans (later_releaseWith careful_closeSource _ _)
  · exact .refl q

end Closing

/-! ### Traversals at their end -/

/-- Nothing comes any more. -/
def Spent : Traversal → Workspace → Prop
  | reader r, q => r.Spent q.pool
  | lookahead inner peeked?, q => (∀ x, peeked? = some x → x = none) ∧ inner.Spent q
  | replay _ _ done, _ => done
  | axis _ _ walk?, _ => walk? = none
  | expand _ _ _ finished, _ => finished
  | concat _ _ finished, _ => finished
  | within .., _ => False
  | part .., _ => False
  | filter _ _ _ _ _ _ finished, _ => finished
  | atomize _ _ pending finished, _ => finished ∧ pending = []
  | convert _ _ inner finished, q => finished ∨ inner.Spent q
  | check _ _ _ _ finished, _ => finished
  | between _ _ _ _ finished, _ => finished

/-- What was read ahead is the last only if nothing comes after it, and no values are kept by a
machine that has finished; and so it is in what a look-ahead or a conversion reads. -/
def Sound : Traversal → Workspace → Prop
  | reader r, q => r.Sound q.pool
  | lookahead inner peeked?, q => inner.Sound q ∧ ∀ x, peeked? = some x → x.IsLast → inner.Spent q
  | atomize _ _ pending finished, _ => finished → pending = []
  | convert _ _ inner _, q => inner.Sound q
  | _, _ => True

theorem Spent.later {t : Traversal} {q q' : Workspace} (h : q.Later q') (spent : t.Spent q) :
    t.Spent q' := by
  induction t with
  | reader r => exact Reader.Spent.later h spent
  | lookahead inner peeked? ih => exact ⟨spent.1, ih spent.2⟩
  | convert target conversion inner finished ih => exact spent.imp_right ih
  | _ => exact spent

theorem Sound.later {t : Traversal} {q q' : Workspace} (h : q.Later q') (sound : t.Sound q) :
    t.Sound q' := by
  induction t with
  | reader r => exact Reader.Sound.later h sound
  | lookahead inner peeked? ih =>
    exact ⟨ih sound.1, fun x hx last => (sound.2 x hx last).later h⟩
  | convert target conversion inner finished ih => exact ih sound
  | atomize => exact sound
  | _ => trivial

/-- The protocol of traversals. -/
noncomputable def protocol (d : Dispatcher) : Protocol Traversal Workspace where
  next := next d
  hasNext := hasNext d
  fresh := fresh?
  close := close

/-- Traversals that differ only in how far they were read. -/
def Alike (t t' : Traversal) : Prop := (∀ q, t.fresh? q = t'.fresh? q) ∧ t.ahead = t'.ahead

theorem Alike.refl (t : Traversal) : t.Alike t := ⟨fun _ => rfl, rfl⟩

theorem Alike.trans {t t' t'' : Traversal} (h : t.Alike t') (h' : t'.Alike t'') : t.Alike t'' :=
  ⟨fun q => (h.1 q).trans (h'.1 q), h.2.trans h'.2⟩

/-- The machines that are sound in every state, and that neither look ahead nor can be read again. -/
def Plain : Traversal → Prop
  | axis .. | expand .. | within .. | concat .. | part .. | filter .. | check .. | between .. => True
  | _ => False

namespace Plain

variable {t t' : Traversal}

theorem sound (h : t.Plain) (q : Workspace) : t.Sound q := by
  cases t with
  | reader | lookahead | replay | atomize | convert => exact h.elim
  | _ => trivial

theorem alike (h : t.Plain) (h' : t'.Plain) : t.Alike t' := by
  have spec : ∀ {t : Traversal}, t.Plain → (∀ q, t.fresh? q = (none, q)) ∧ t.ahead = false :=
    fun {t} h => by
      cases t with
      | reader | lookahead | replay | atomize | convert => exact h.elim
      | _ => exact ⟨fun _ => rfl, rfl⟩
  exact ⟨fun q => ((spec h).1 q).trans ((spec h').1 q).symm, (spec h).2.trans (spec h').2.symm⟩

/-- In a turn of such a machine nothing can be lost. -/
theorem kept {q q' : Workspace} (h : t.Plain) (h' : t'.Plain) :
    t.Sound q → t'.Sound q' ∧ t.Alike t' := fun _ => ⟨h'.sound q', h.alike h'⟩

end Plain

theorem alike_reader {r r' : Reader} (h : r.Alike r') : (reader r).Alike (.reader r') :=
  ⟨fun q => by
    have same : r.fresh? q.pool = r'.fresh? q.pool := h.1 q.pool
    simp only [fresh?, same], h.2⟩

theorem Alike.lookahead {inner inner' : Traversal} (h : inner.Alike inner')
    (peeked? peeked?' : Option Pull) :
    (Traversal.lookahead inner peeked?).Alike (.lookahead inner' peeked?') := ⟨h.1, rfl⟩

theorem closeWith_lasting (closing : Traversal → Workspace → Workspace) {t : Traversal}
    {q : Workspace} (sound : t.Sound q) :
    (closeWith closing t q).1.Sound (closeWith closing t q).2 ∧ t.Alike (closeWith closing t q).1 ∧
      (closeWith closing t q).1.Spent (closeWith closing t q).2 := by
  induction t generalizing q with
  | reader r =>
    obtain ⟨sound', alike, spent⟩ := Reader.closeWith_lasting (Reader.access q.pool) sound
    exact ⟨sound', alike_reader alike, spent⟩
  | lookahead inner peeked? ih =>
    obtain ⟨sound', alike, spent⟩ := ih sound.1
    exact ⟨⟨sound', fun _ _ _ => spent⟩, alike.lookahead _ _,
      fun x hx => (Option.some.inj hx).symm, spent⟩
  | replay number index done => cases done <;> exact ⟨trivial, ⟨fun _ => rfl, rfl⟩, rfl⟩
  | axis | within | concat | part => exact ⟨trivial, ⟨fun _ => rfl, rfl⟩, rfl⟩
  | expand _ _ _ finished | filter _ _ _ _ _ _ finished | check _ _ _ _ finished
    | between _ _ _ _ finished => cases finished <;> exact ⟨trivial, ⟨fun _ => rfl, rfl⟩, rfl⟩
  | atomize f inner pending finished =>
    cases finished with
    | true => exact ⟨sound, .refl _, rfl, sound rfl⟩
    | false => exact ⟨fun _ => rfl, ⟨fun _ => rfl, rfl⟩, rfl, rfl⟩
  | convert target conversion inner finished ih =>
    cases finished with
    | true => exact ⟨sound, .refl _, .inl rfl⟩
    | false => exact ⟨(ih sound).1, ⟨fun _ => rfl, rfl⟩, .inl rfl⟩

/-- Closing a spent traversal does nothing. -/
theorem closeWith_of_spent (closing : Traversal → Workspace → Workspace) {t : Traversal}
    {q : Workspace} (spent : t.Spent q) : ∃ t', closeWith closing t q = (t', q) := by
  induction t with
  | reader r =>
    obtain ⟨r', h⟩ := Reader.closeWith_of_spent (Reader.access q.pool) spent
    exact ⟨.reader r', by simp [closeWith, Reader.close, h]⟩
  | lookahead inner peeked? ih =>
    obtain ⟨t', h⟩ := ih spent.2
    exact ⟨.lookahead t' (some none), by simp [closeWith, h]⟩
  | axis | concat => exact ⟨_, rfl⟩
  | within | part => exact spent.elim
  | atomize f inner pending finished =>
    obtain ⟨rfl, rfl⟩ := spent
    exact ⟨_, rfl⟩
  | convert target conversion inner finished ih =>
    cases finished with
    | true => exact ⟨_, rfl⟩
    | false =>
      obtain ⟨t', h⟩ := ih (spent.resolve_left Bool.false_ne_true)
      exact ⟨.convert target conversion t' true, by simp [closeWith, h]⟩
  | replay | expand | filter | check | between => cases spent; exact ⟨_, rfl⟩

/-! ### One step -/

/-- What a step of a traversal answers, and what it leaves. -/
structure Step (t : Traversal) (q : Workspace) (x : Pull) (t' : Traversal) (q' : Workspace) :
    Prop where
  later : q.Later q'
  kept : t.Sound q → t'.Sound q' ∧ t.Alike t' ∧ (x.IsLast → t'.Spent q')

namespace Step

variable {t t' t'' : Traversal} {q q' q'' : Workspace} {x : Pull} {a : Item}

/-- An answer with an item. -/
theorem item (later : q.Later q') (kept : t.Sound q → t'.Sound q' ∧ t.Alike t') :
    Step t q (some (.ok a)) t' q' :=
  ⟨later, fun sound => ⟨(kept sound).1, (kept sound).2, fun last => absurd rfl (last a)⟩⟩

/-- An answer after which the machine closes itself. -/
theorem closing (later : q.Later q') (kept : t.Sound q → t'.Sound q' ∧ t.Alike t') :
    Step t q x (t'.close q').1 (t'.close q').2 := by
  refine ⟨later.trans (later_close t' q'), fun sound => ?_⟩
  obtain ⟨sound', alike⟩ := kept sound
  obtain ⟨sound'', alike', spent⟩ := closeWith_lasting closeSource sound'
  exact ⟨sound'', alike.trans alike', fun _ => spent⟩

/-- A machine that has finished. -/
theorem ended (spent : t.Sound q → t.Spent q) : Step t q none t q :=
  ⟨.refl q, fun sound => ⟨sound, .refl t, fun _ => spent sound⟩⟩

/-- A step that goes on in another state. -/
theorem onward (step : Step t' q' x t'' q'') (later : q.Later q')
    (kept : t.Sound q → t'.Sound q' ∧ t.Alike t') : Step t q x t'' q'' := by
  refine ⟨later.trans step.later, fun sound => ?_⟩
  obtain ⟨sound', alike⟩ := kept sound
  obtain ⟨sound'', alike', last⟩ := step.kept sound'
  exact ⟨sound'', alike.trans alike', last⟩

theorem reader (r : Reader) (q : Workspace) :
    Step (.reader r) q (r.next q.pool).1 (.reader (r.next q.pool).2.1)
      { q with pool := (r.next q.pool).2.2 } where
  later := Reader.later_nextWith (Reader.careful_access q.pool) r q.pool
  kept sound := by
    obtain ⟨sound', alike, last⟩ := Reader.nextWith_lasting (Reader.access q.pool) sound
    exact ⟨sound', alike_reader alike, last⟩

theorem lookahead (step : Step t q x t' q') :
    Step (.lookahead t none) q x (.lookahead t' none) q' := by
  refine ⟨step.later, fun sound => ?_⟩
  obtain ⟨sound', alike, last⟩ := step.kept sound.1
  exact ⟨⟨sound', nofun⟩, alike.lookahead _ _, fun h => ⟨nofun, last h⟩⟩

end Step

/-- What holds of a turn in which a machine does not lose what it knows of its end. -/
def Lasts (t : Traversal) (q : Workspace) : Turn → Prop
  | .answer x t' q' => Step t q x t' q'
  | .onward t' q' => q.Later q' ∧ (t.Sound q → t'.Sound q' ∧ t.Alike t')

/-- A machine that does not ask, one turn. -/
theorem act_lasts (d : Dispatcher) {t : Traversal} {q : Workspace} (alone : t.asks? q = none) :
    Lasts t q (act d q t) := by
  -- A machine that has finished answers that there is nothing; one that has not closes itself before it says so.
  cases t with
  | reader r => exact .reader r q
  | lookahead inner peeked? =>
    cases peeked? with
    | none => cases alone
    | some x =>
      exact ⟨.refl q, fun sound => ⟨⟨sound.1, nofun⟩, Alike.lookahead (.refl _) _ _,
        fun last => ⟨nofun, sound.2 x rfl last⟩⟩⟩
  | replay number index done =>
    cases done with
    | true => exact .ended fun _ => rfl
    | false =>
      simp only [act]
      split
      · exact ⟨.refl q, fun _ => ⟨trivial, ⟨fun _ => rfl, rfl⟩, fun _ => rfl⟩⟩
      · split
        · exact .item (.refl q) fun _ => ⟨trivial, fun _ => rfl, rfl⟩
        · exact ⟨later_leaveWith careful_closeSource _ _,
            fun _ => ⟨trivial, ⟨fun _ => rfl, rfl⟩, fun _ => rfl⟩⟩
  | axis f test walk? =>
    cases walk? with
    | none => exact .ended fun _ => rfl
    | some walk =>
      simp only [act]
      split
      · exact .closing (.refl q) (Plain.kept trivial trivial)
      · exact .closing (.refl q) (Plain.kept trivial trivial)
      · split
        · exact .item (.refl q) (Plain.kept trivial trivial)
        · exact ⟨.refl q, Plain.kept trivial trivial⟩
      · exact ⟨Workspace.later_warn _ _, Plain.kept trivial trivial⟩
  | within | part => cases alone
  | concat parts c finished =>
    cases finished with
    | true => cases parts <;> exact .ended fun _ => rfl
    | false =>
      cases parts with
      | nil => exact .closing (.refl q) (Plain.kept trivial trivial)
      | cons e parts =>
        simp only [act]
        split
        · exact ⟨Workspace.later_warn _ _, Plain.kept trivial trivial⟩
        · exact .closing (Workspace.later_warn _ _) (Plain.kept trivial trivial)
  | atomize f inner pending finished =>
    cases pending with
    | cons v pending =>
      exact .item (.refl q) fun sound => ⟨fun done => (nomatch sound done), fun _ => rfl, rfl⟩
    | nil =>
      cases finished with
      | true => exact .ended fun _ => ⟨rfl, rfl⟩
      | false => cases alone
  | convert target conversion inner finished =>
    cases finished with
    | true => exact .ended fun _ => .inl rfl
    | false => cases alone
  | between low high inner position finished =>
    cases finished with
    | true => exact .ended fun _ => rfl
    | false => exact .closing (.refl q) (Plain.kept trivial trivial)
  | expand _ _ _ finished | filter _ _ _ _ _ _ finished | check _ _ _ _ finished =>
    cases finished with
    | true => exact .ended fun _ => rfl
    | false => cases alone

/-- A machine that was told what comes next in what it reads, one turn. -/
theorem react_lasts (d : Dispatcher) {t inner inner' : Traversal} {q q' : Workspace} {x : Pull}
    (asked : t.asks? q = some inner) (step : Step inner q x inner' q') :
    Lasts t q (react d x inner' q' t) := by
  have later := step.later
  cases t with
  | reader | concat => cases asked
  | replay number index done =>
    exact ⟨later.trans (later_receive _ _ _ _), fun _ => ⟨trivial, .refl _⟩⟩
  | axis f test walk? => cases walk? <;> cases asked
  | lookahead base peeked? =>
    cases peeked? <;> cases asked
    exact step.lookahead
  | expand how source position finished =>
    rcases x with _ | e | a
    · exact .closing later (Plain.kept trivial trivial)
    · exact .closing later (Plain.kept trivial trivial)
    · have later' := later.trans (Workspace.later_warn q' (how.start d position a).log)
      simp only [react]
      split
      · exact ⟨later', Plain.kept trivial trivial⟩
      · exact .closing later' (Plain.kept trivial trivial)
  | within how source position current =>
    rcases x with _ | e | a
    · exact ⟨later.trans (later_close _ _), Plain.kept trivial trivial⟩
    · exact .closing later (Plain.kept trivial trivial)
    · exact .item later (Plain.kept trivial trivial)
  | part parts c current =>
    rcases x with _ | e | a
    · exact ⟨later.trans (later_close _ _), Plain.kept trivial trivial⟩
    · exact .closing later (Plain.kept trivial trivial)
    · exact .item later (Plain.kept trivial trivial)
  | filter predicate c size? l base position finished =>
    rcases x with _ | e | a
    · exact .closing later (Plain.kept trivial trivial)
    · exact .closing later (Plain.kept trivial trivial)
    · simp only [react]
      split
      · exact .item (later.trans (Workspace.later_warn _ _)) (Plain.kept trivial trivial)
      · exact ⟨later.trans (Workspace.later_warn _ _), Plain.kept trivial trivial⟩
      · exact .closing (later.trans (Workspace.later_warn _ _)) (Plain.kept trivial trivial)
  | atomize f base pending finished =>
    rcases x with _ | e | n | v
    · exact .closing later fun _ => ⟨fun _ => rfl, fun _ => rfl, rfl⟩
    · exact .closing later fun _ => ⟨fun _ => rfl, fun _ => rfl, rfl⟩
    · exact ⟨later, fun _ => ⟨nofun, fun _ => rfl, rfl⟩⟩
    · exact .item later fun _ => ⟨fun _ => rfl, fun _ => rfl, rfl⟩
  -- A machine that converts does not close itself at the end; it is spent when what it reads is.
  | convert target conversion base finished =>
    cases finished <;> cases asked
    have kept : (convert target conversion inner false).Sound q →
        (convert target conversion inner' false).Sound q' ∧
          (convert target conversion inner false).Alike (.convert target conversion inner' false) :=
      fun sound => ⟨(step.kept sound).1, fun _ => rfl, rfl⟩
    rcases x with _ | e | n | v
    · exact ⟨later, fun sound =>
        ⟨(kept sound).1, (kept sound).2, fun _ => .inr ((step.kept sound).2.2 nofun)⟩⟩
    · exact .closing later kept
    · exact .item later kept
    · simp only [react]
      split
      · exact .item later kept
      · exact .closing later kept
  | check required l base count finished =>
    rcases x with _ | e | a
    · exact .closing later (Plain.kept trivial trivial)
    · exact .closing later (Plain.kept trivial trivial)
    · simp only [react]
      split
      · exact .item later (Plain.kept trivial trivial)
      · exact .closing later (Plain.kept trivial trivial)
  | between low high base position finished =>
    rcases x with _ | e | a
    · exact .closing later (Plain.kept trivial trivial)
    · exact .closing later (Plain.kept trivial trivial)
    · simp only [react]
      split
      · exact .item later (Plain.kept trivial trivial)
      · exact ⟨later, Plain.kept trivial trivial⟩

/-- What is answered in the end after such a turn. -/
theorem Lasts.step {t : Traversal} {q : Workspace} {turn : Turn} {r : Pull × Traversal × Workspace}
    {read : Traversal → Workspace → Option (Pull × Traversal × Workspace)} (h : Lasts t q turn)
    (ih : ∀ {t q r}, read t q = some r → Step t q r.1 r.2.1 r.2.2)
    (answered : turn.finish read = some r) : Step t q r.1 r.2.1 r.2.2 := by
  cases turn with
  | answer x t' q' => cases answered; exact h
  | onward t' q' => exact .onward (ih answered) h.1 h.2

theorem step_of_nextWithin {d : Dispatcher} {turns : Nat} {t : Traversal} {q : Workspace}
    {r : Pull × Traversal × Workspace} (h : nextWithin d turns t q = some r) :
    Step t q r.1 r.2.1 r.2.2 := by
  induction turns generalizing t q r with
  | zero => cases h
  | succ turns ih =>
    rw [nextWithin] at h
    split at h
    · next alone => exact (act_lasts d alone).step ih h
    · next inner asked =>
      obtain ⟨⟨x, inner', q'⟩, pulled, answered⟩ := Option.bind_eq_some_iff.mp h
      exact (react_lasts d asked (ih pulled)).step ih answered

/-- **One step.**  Whatever a traversal answers, it stays sound, and after the end and an error it is
spent. -/
theorem step_of_next {d : Dispatcher} {t t' : Traversal} {q q' : Workspace} {x : Pull}
    (h : next d t q = some (x, t', q')) : Step t q x t' q' := by
  obtain ⟨turns, h⟩ := next_eq_some_iff.mp h
  exact step_of_nextWithin h

theorem later_fillWithin {d : Dispatcher} {number index turns : Nat} {q q' : Workspace}
    (h : fillWithin d number index turns q = some q') : q.Later q' := by
  induction turns generalizing q with
  | zero => cases h
  | succ turns ih =>
    rw [fillWithin] at h
    split at h
    · cases h; exact .refl q'
    · obtain ⟨⟨x, source', q₁⟩, pulled, h⟩ := Option.bind_eq_some_iff.mp h
      exact ((step_of_nextWithin pulled).later.trans (later_receive _ _ _ _)).trans (ih h)

/-- Filling a buffer leaves cursors as they were, or used. -/
theorem later_fillTo {d : Dispatcher} {number index : Nat} {q q' : Workspace}
    (h : fillTo d number index q = some q') : q.Later q' := by
  obtain ⟨turns, h⟩ := exists_of_limit h
  exact later_fillWithin h

/-- A spent traversal gives nothing, and asking it does nothing. -/
theorem next_of_spent (d : Dispatcher) {t : Traversal} {q : Workspace} (spent : t.Spent q) :
    ∃ t', next d t q = some (none, t', q) := by
  induction t with
  | reader r =>
    obtain ⟨r', h⟩ := Reader.nextWith_of_spent (Reader.access q.pool) spent
    exact ⟨.reader r', by simp [next_reader, Reader.next, h]⟩
  | lookahead inner peeked? ih =>
    cases peeked? with
    | none =>
      obtain ⟨t', h⟩ := ih spent.2
      exact ⟨.lookahead t' none, by rw [next_of_asks rfl, h]; rfl⟩
    | some x =>
      cases spent.1 x rfl
      exact ⟨_, next_of_alone rfl⟩
  | convert target conversion inner finished ih =>
    cases finished with
    | true => exact ⟨_, next_of_alone rfl⟩
    | false =>
      obtain ⟨t', h⟩ := ih (spent.resolve_left Bool.false_ne_true)
      exact ⟨.convert target conversion t' false, by rw [next_of_asks rfl, h]; rfl⟩
  -- A machine in the middle of an item is never spent.
  | within | part => exact spent.elim
  | atomize f inner pending finished =>
    obtain ⟨rfl, rfl⟩ := spent
    exact ⟨_, next_of_alone rfl⟩
  | concat parts c finished =>
    cases spent
    have turn := next_of_alone (d := d) (t := .concat parts c true) (q := q) rfl
    exact ⟨.concat parts c true, turn.trans (by cases parts <;> rfl)⟩
  | replay | axis | expand | filter | check | between =>
    cases spent
    exact ⟨_, next_of_alone rfl⟩

/-! ### The law -/

theorem hasNext_lasting {d : Dispatcher} {t t' : Traversal} {q q' : Workspace} {b? : Option Bool}
    (h : hasNext d t q = some (b?, t', q')) :
    q.Later q' ∧ (t.Sound q → t'.Sound q' ∧ t.Alike t') := by
  unfold hasNext at h
  split at h
  · next r =>
    cases h
    refine ⟨Reader.later_hasNext r q.pool, fun sound => ?_⟩
    obtain ⟨sound', alike⟩ := Reader.hasNext_lasting (p := q.pool) sound
    exact ⟨sound', alike_reader alike⟩
  · cases h
    exact ⟨.refl q, fun sound => ⟨sound, .refl _⟩⟩
  · obtain ⟨⟨x, inner', q₁⟩, pulled, h⟩ := Option.bind_eq_some_iff.mp h
    cases h
    have step := step_of_next pulled
    refine ⟨step.later, fun sound => ?_⟩
    obtain ⟨sound', alike, last⟩ := step.kept sound.1
    refine ⟨⟨sound', fun y hy h => ?_⟩, alike.lookahead _ _⟩
    cases hy
    exact last h
  · cases h
    exact ⟨.refl q, fun sound => ⟨sound, .refl _⟩⟩
  · obtain ⟨q₁, filled, h⟩ := Option.bind_eq_some_iff.mp h
    cases h
    exact ⟨later_fillTo filled, fun _ => ⟨trivial, .refl _⟩⟩
  · cases h
    exact ⟨.refl q, fun sound => ⟨sound, .refl _⟩⟩

/-- A spent traversal that looks ahead sees nothing. -/
theorem hasNext_of_spent (d : Dispatcher) {t : Traversal} {q : Workspace} (sound : t.Sound q)
    (spent : t.Spent q) :
    ∃ t', hasNext d t q = some (if t.ahead then some false else none, t', q) ∧ t'.Spent q := by
  cases t with
  | reader r =>
    obtain ⟨r', h, spent'⟩ := Reader.hasNext_of_spent (p := q.pool) sound spent
    exact ⟨.reader r', by simp [hasNext, h]; rfl, spent'⟩
  | lookahead inner peeked? =>
    cases peeked? with
    | none =>
      obtain ⟨t', h⟩ := next_of_spent d spent.2
      have spent' := ((step_of_next h).kept sound.1).2.2 nofun
      exact ⟨.lookahead t' (some none), by simp [hasNext, h]; rfl,
        fun x hx => (Option.some.inj hx).symm, spent'⟩
    | some x =>
      cases spent.1 x rfl
      exact ⟨_, rfl, spent⟩
  | replay number index done => cases spent; exact ⟨_, rfl, rfl⟩
  | _ => exact ⟨_, rfl, spent⟩

theorem fresh_lasting {t : Traversal} {q : Workspace} (sound : t.Sound q) :
    q.Later (t.fresh? q).2 ∧ ∀ t' ∈ (t.fresh? q).1, t'.Sound (t.fresh? q).2 := by
  induction t with
  | reader r =>
    refine ⟨Reader.later_fresh r q.pool, fun t' made => ?_⟩
    obtain ⟨r', made', rfl⟩ := Option.map_eq_some_iff.mp made
    exact Reader.fresh_sound (p := q.pool) sound r' made'
  | lookahead inner peeked? ih => exact ih sound.1
  | replay number index done =>
    unfold fresh?
    split
    · refine ⟨Workspace.later_setReplay, ?_⟩
      rintro t' ⟨⟩
      trivial
    · exact ⟨.refl q, nofun⟩
  | _ => exact ⟨.refl q, nofun⟩

/-- The protocol of traversals makes every end final. -/
theorem lasting (d : Dispatcher) : (protocol d).Lasting Workspace.Later ahead Sound Spent where
  later_refl := Workspace.Later.refl
  later_trans := Workspace.Later.trans
  sound_later := Sound.later
  spent_later := Spent.later
  next sound h := ⟨(step_of_next h).later, (step_of_next h).kept sound⟩
  hasNext sound h := ⟨(hasNext_lasting h).1, (hasNext_lasting h).2 sound⟩
  fresh {t q t'? q'} sound h := by
    have spec := fresh_lasting sound
    rw [show t.fresh? q = (t'?, q') from h] at spec
    exact spec
  close {t q t' q'} sound h := by
    have later := later_close t q
    have spec := closeWith_lasting closeSource sound
    rw [show t.close q = (t', q') from h] at later
    rw [show closeWith closeSource t q = (t', q') from h] at spec
    exact ⟨later, spec⟩
  spent_next _ spent := next_of_spent d spent
  spent_hasNext sound spent := hasNext_of_spent d sound spent
  spent_close _ spent := closeWith_of_spent closeSource spent

/-! ### Traversals as they are made -/

/-- A traversal of which nothing was asked yet: a machine of any kind over another one, and a reader,
a reading ahead or a replay in the end. -/
inductive Opened : Traversal → Prop
  | reader {r : Reader} (opened : r.Opened) : Opened (.reader r)
  | lookahead {inner : Traversal} (base : Opened inner) : Opened (.lookahead inner none)
  | replay (number : Nat) : Opened (.replay number 0 false)
  | axis (f : Forest) (test : NodeTest) (walk : Unit → ItemStream) : Opened (.axis f test (some walk))
  | expand (how : Expansion) {source : Traversal} (base : Opened source) :
    Opened (.expand how source 0 false)
  | concat (parts : List Expr) (c : Context) : Opened (.concat parts c false)
  | filter (predicate : Expr) (c : Context) (size? : Option Nat) (l : Location) {inner : Traversal}
    (base : Opened inner) : Opened (.filter predicate c size? l inner 0 false)
  | atomize (f : Forest) {inner : Traversal} (base : Opened inner) :
    Opened (.atomize f inner [] false)
  | convert (target : AtomicType) (conversion : Conversion) {inner : Traversal}
    (base : Opened inner) : Opened (.convert target conversion inner false)
  | check (required : Cardinality) (l : Location) {inner : Traversal} (base : Opened inner) :
    Opened (.check required l inner 0 false)
  | between (low high : Int) {inner : Traversal} (base : Opened inner) :
    Opened (.between low high inner 0 false)

theorem Opened.sound {t : Traversal} (h : t.Opened) (q : Workspace) : t.Sound q := by
  induction h with
  | reader opened => exact opened.sound q.pool
  | lookahead base ih => exact ⟨ih, nofun⟩
  | convert target conversion base ih => exact ih
  | atomize f base ih => exact nofun
  | _ => trivial

end Traversal

/-- **Exhaustion is permanent.**  Once a traversal has answered with the end or with an error, or was
closed, it answers every later question for the next item with the end, whatever it and the other
traversals of the session are asked in between; and closing it again changes nothing. -/
theorem Session.traversals_exhausted {d : Dispatcher} {s s₁ s₂ s₃ : Session Traversal Workspace}
    {before after : List (Nat × Call)} {as bs : List Answer} {i : Nat} {c : Call} {a : Answer}
    (opened : ∀ t ∈ s.readers, t.Opened)
    (ranBefore : s.run (Traversal.protocol d) before = some (as, s₁))
    (called : s₁.call (Traversal.protocol d) i c = some (a, s₂)) (last : a.IsLast)
    (ranAfter : s₂.run (Traversal.protocol d) after = some (bs, s₃)) :
    (∃ s₄, s₃.call (Traversal.protocol d) i .next = some (.pulled none, s₄)) ∧
      ∃ s₄, s₃.call (Traversal.protocol d) i .close = some (.closed, s₄) ∧ s₄.pool = s₃.pool ∧
        ∀ more, (s₄.run (Traversal.protocol d) more).map (·.1) =
          (s₃.run (Traversal.protocol d) more).map (·.1) :=
  Session.exhausted (Traversal.lasting d) (fun t ht => (opened t ht).sound s.pool) ranBefore called
    last ranAfter

/-- A check that admits one item is read ahead, and closed when the error that a second item brings is
at hand already. -/
theorem Session.traversals_exhausted_pending :
    let script : List Pull :=
      [some (.ok (.atomic (.integer 1))), some (.ok (.atomic (.integer 2)))]
    let s : Session Traversal Workspace :=
      ⟨[.lookahead (.check .exactlyOne ⟨none, 1, 1⟩ (.reader (.cursor 0)) 0 false) none],
        .ofPool (Pool.empty.addCursor (.opened script))⟩
    ∃ s₃, s.run (Traversal.protocol .none) [(0, .next), (0, .hasNext), (0, .close)] =
        some ([.pulled (some (.ok (.atomic (.integer 1)))), .expects (some true), .closed], s₃) ∧
      ∃ s₄, s₃.call (Traversal.protocol .none) 0 .next = some (.pulled none, s₄) := by
  intro script s
  -- The workspace when `n` items were fetched, and the check when it has counted as many.
  let q n : Workspace := .ofPool ⟨[⟨script.drop n, false, n, 0⟩], [], []⟩
  let check n : Traversal := .check .exactlyOne ⟨none, 1, 1⟩ (.reader (.cursor 0)) n false
  have fetched₁ : Traversal.next .none (.reader (.cursor 0)) (q 0) = _ := Traversal.next_reader ..
  have fetched₂ : Traversal.next .none (.reader (.cursor 0)) (q 1) = _ := Traversal.next_reader ..
  have counted : Traversal.next .none (check 0) (q 0) =
      some (some (.ok (.atomic (.integer 1))), check 1, q 1) :=
    (Traversal.next_of_asks rfl).trans (by rw [fetched₁]; rfl)
  obtain ⟨e, t', q', failed⟩ : ∃ e t' q', Traversal.next .none (check 1) (q 1) =
      some (some (.error e), t', q') :=
    ⟨_, _, _, (Traversal.next_of_asks rfl).trans (by rw [fetched₂]; rfl)⟩
  have pulled : Traversal.next .none (.lookahead (check 0) none) (q 0) =
      some (some (.ok (.atomic (.integer 1))), .lookahead (check 1) none, q 1) :=
    (Traversal.next_of_asks rfl).trans (by rw [counted]; rfl)
  have peeked : Traversal.hasNext .none (.lookahead (check 1) none) (q 1) =
      some (some true, .lookahead t' (some (some (.error e))), q') := by
    simp [Traversal.hasNext, failed]
  have opened : ∀ t ∈ s.readers, t.Opened := fun t ht => by
    cases List.mem_singleton.mp ht
    exact .lookahead (.check _ _ (.reader (.cursor 0)))
  have ranBefore : s.run (Traversal.protocol .none) [(0, .next), (0, .hasNext)] =
      some ([.pulled (some (.ok (.atomic (.integer 1)))), .expects (some true)],
        ⟨[.lookahead t' (some (some (.error e)))], q'⟩) := by
    have first : s.call (Traversal.protocol .none) 0 .next = some (.pulled _, ⟨[_], q 1⟩) :=
      congrArg (Option.map _) pulled
    have second : Session.call (Traversal.protocol .none) ⟨[.lookahead (check 1) none], q 1⟩ 0
        .hasNext = some (.expects _, ⟨[_], q'⟩) := congrArg (Option.map _) peeked
    exact Session.run_cons_eq_some.mpr ⟨_, _, _, first,
      Session.run_cons_eq_some.mpr ⟨_, _, [], second, rfl, rfl⟩, rfl⟩
  obtain ⟨s₃, closed⟩ : ∃ s₃, Session.call (Traversal.protocol .none)
      ⟨[.lookahead t' (some (some (.error e)))], q'⟩ 0 .close = some (.closed, s₃) := ⟨_, rfl⟩
  refine ⟨s₃, ?_, (Session.traversals_exhausted opened ranBefore closed trivial Session.run_nil).1⟩
  exact Session.run_append_eq_some.mpr ⟨_, _, [.closed], ranBefore,
    Session.run_cons_eq_some.mpr ⟨_, s₃, [], closed, rfl, rfl⟩, rfl⟩

end TreeQuery
