/-
The end of a reader is final.

`Reader.Spent` says of a reader that nothing comes any more, and `Reader.lasting` that the end, an
error and closing each make it so for good: the protocol of readers is lasting, in the sense of
`Protocol.Lasting`.

Design notes: what a reader does to the pool depends on how the sources of replays are read.  All that
matters here is that doing so leaves the cursors of the pool as they were, or used
(`SourceAccess.Careful`), which holds at every depth.
-/
import TreeQuery.Proofs.Sessions

namespace TreeQuery

/-! ### The pool while readers are read -/

/-- Reading and closing sources leaves cursors as they were, or used. -/
structure SourceAccess.Careful (access : SourceAccess) : Prop where
  next : ∀ (r : Reader) (p : Pool), p.Later (access.next r p).2.2
  close : ∀ (r : Reader) (p : Pool), p.Later (access.close r p).2

namespace Pool

@[simp] theorem later_setReplay {p : Pool} {number : Nat} {r : Replay Reader} :
    p.Later (p.setReplay number r) := .of_cursors rfl

@[simp] theorem later_warn {p : Pool} {log : List Warning} : p.Later (p.warn log) :=
  .of_cursors rfl

end Pool

namespace Replay

variable {access : SourceAccess}

theorem later_release (careful : access.Careful) (number : Nat) (p : Pool) :
    p.Later (release access number p) := by
  unfold release
  split
  · split
    · exact Pool.later_setReplay.trans (careful.close _ _)
    · exact .refl p
  · exact .refl p

theorem later_fill (careful : access.Careful) (number count : Nat) (p : Pool) :
    p.Later (fill access number count p) := by
  induction count generalizing p with
  | zero => exact .refl p
  | succ count ih =>
    unfold fill
    split
    · exact .refl p
    · split
      · exact .refl p
      · next source _ =>
        have pulled := careful.next source p
        dsimp only
        split
        · exact (pulled.trans Pool.later_setReplay).trans (ih _)
        · exact (pulled.trans Pool.later_setReplay).trans (later_release careful _ _)

theorem later_fillTo (careful : access.Careful) (number index : Nat) (p : Pool) :
    p.Later (fillTo access number index p) := by
  unfold fillTo
  split
  · exact later_fill careful _ _ p
  · exact .refl p

theorem later_leave (careful : access.Careful) (number : Nat) (p : Pool) :
    p.Later (leave access number p) := by
  unfold leave
  split
  · dsimp only
    split
    · exact Pool.later_setReplay.trans (later_release careful _ _)
    · exact Pool.later_setReplay
  · exact .refl p

end Replay

namespace Reader

variable {access : SourceAccess}

theorem later_nextWith (careful : access.Careful) (r : Reader) (p : Pool) :
    p.Later (r.nextWith access p).2.2 := by
  induction r generalizing p with
  | window items start stop index =>
    unfold nextWith
    split
    · split <;> exact .refl p
    · exact .refl p
  | empty => exact .refl p
  | range low high next? => cases next? <;> exact .refl p
  | stream rest => exact Pool.later_warn
  | cursor number =>
    unfold nextWith
    split
    · next c found => exact Pool.later_setCursor found (.next .refl)
    · exact .refl p
  | lookahead inner peeked? ih =>
    cases peeked? with
    | none => exact ih p
    | some x => exact .refl p
  | replay number index done =>
    cases done with
    | true => exact .refl p
    | false =>
      unfold nextWith
      have filled := Replay.later_fillTo careful number index p
      dsimp only
      split
      · exact filled
      · split
        · exact filled
        · exact filled.trans (Replay.later_leave careful _ _)

theorem later_closeWith (careful : access.Careful) (r : Reader) (p : Pool) :
    p.Later (r.closeWith access p).2 := by
  induction r generalizing p with
  | window | empty | range | stream => exact .refl p
  | cursor number =>
    unfold closeWith
    split
    · next c found => exact Pool.later_setCursor found (.finish .refl)
    · exact .refl p
  | lookahead inner peeked? ih => exact ih p
  | replay number index done =>
    cases done with
    | true => exact .refl p
    | false => exact Replay.later_leave careful _ _

theorem careful_accessWithin (depth : Nat) : (accessWithin depth).Careful := by
  induction depth with
  | zero => exact ⟨fun _ p => .refl p, fun _ p => .refl p⟩
  | succ depth ih => exact ⟨later_nextWith ih, later_closeWith ih⟩

theorem careful_access (p : Pool) : (Reader.access p).Careful := careful_accessWithin p.replays.length

theorem later_hasNext (r : Reader) (p : Pool) : p.Later (r.hasNext? p).2.2 := by
  cases r with
  | window | empty | range | stream | cursor => exact .refl p
  | lookahead inner peeked? =>
    cases peeked? with
    | none => exact later_nextWith (careful_access p) inner p
    | some x => exact .refl p
  | replay number index done =>
    cases done with
    | true => exact .refl p
    | false => exact Replay.later_fillTo (careful_access p) _ _ p

theorem later_fresh (r : Reader) (p : Pool) : p.Later (r.fresh? p).2 := by
  induction r with
  | window | empty | range | stream | cursor => exact .refl p
  | lookahead inner peeked? ih => exact ih
  | replay number index done =>
    unfold fresh?
    split
    · exact Pool.later_setReplay
    · exact .refl p

/-! ### Readers at their end -/

/-- Nothing comes any more. -/
def Spent : Reader → Pool → Prop
  | window _ _ stop index, _ => stop ≤ index
  | empty, _ => True
  | range _ _ next?, _ => next? = none
  | stream rest, _ => rest () = .done
  | cursor number, p => ∀ c, p.cursors[number]? = some c → c.finished
  | lookahead inner peeked?, p => (∀ x, peeked? = some x → x = none) ∧ inner.Spent p
  | replay _ _ done, _ => done

/-- A window is within its items, and what was read ahead is the last only if nothing comes after
it. -/
def Sound : Reader → Pool → Prop
  | window items start stop _, _ => start ≤ stop ∧ stop ≤ items.size
  | lookahead inner peeked?, p => inner.Sound p ∧ ∀ x, peeked? = some x → x.IsLast → inner.Spent p
  | _, _ => True

theorem Spent.later {r : Reader} {p p' : Pool} (h : p.Later p') (spent : r.Spent p) :
    r.Spent p' := by
  induction r with
  | window | empty | range | stream | replay => exact spent
  | cursor number =>
    intro c' found'
    obtain ⟨c, found, used⟩ := h.cursor found'
    exact used.finished (spent c found)
  | lookahead inner peeked? ih => exact ⟨spent.1, ih spent.2⟩

theorem Sound.later {r : Reader} {p p' : Pool} (h : p.Later p') (sound : r.Sound p) :
    r.Sound p' := by
  induction r with
  | window | empty | range | stream | replay | cursor => exact sound
  | lookahead inner peeked? ih =>
    exact ⟨ih sound.1, fun x hx last => (sound.2 x hx last).later h⟩

/-- The protocol of readers. -/
def protocol : Protocol Reader Pool where
  next r p := some (r.next p)
  hasNext r p := some (r.hasNext? p)
  fresh := fresh?
  close := close

section Calls

variable {s : Session Reader Pool} {i : Nat} {r : Reader}

theorem call_next (found : s.readers[i]? = some r) :
    s.call protocol i .next = some (.pulled (r.next s.pool).1,
      ⟨s.readers.set i (r.next s.pool).2.1, (r.next s.pool).2.2⟩) := by
  simp [Session.call, found, protocol]

theorem call_hasNext (found : s.readers[i]? = some r) :
    s.call protocol i .hasNext = some (.expects (r.hasNext? s.pool).1,
      ⟨s.readers.set i (r.hasNext? s.pool).2.1, (r.hasNext? s.pool).2.2⟩) := by
  simp [Session.call, found, protocol]

theorem call_fresh (found : s.readers[i]? = some r) :
    s.call protocol i .fresh = some (.restarted (r.fresh? s.pool).1.isSome,
      ⟨s.readers ++ (r.fresh? s.pool).1.toList, (r.fresh? s.pool).2⟩) := by
  simp [Session.call, found, protocol]

theorem call_close (found : s.readers[i]? = some r) :
    s.call protocol i .close =
      some (.closed, ⟨s.readers.set i (r.close s.pool).1, (r.close s.pool).2⟩) := by
  simp [Session.call, found, protocol]

/-- Only readers of the session can be asked. -/
theorem call_of_missing (c : Call) (missing : s.readers[i]? = none) : s.call protocol i c = none := by
  simp [Session.call, missing]

end Calls

/-- Whether a reader can say that there is a next item. -/
def ahead (r : Reader) : Bool := r.abilities.looksAhead

/-- Readers that differ only in how far they were read. -/
abbrev Alike (r r' : Reader) : Prop := protocol.Alike ahead r r'

theorem Alike.lookahead {inner inner' : Reader} (h : inner.Alike inner')
    (peeked? peeked?' : Option Pull) :
    (Reader.lookahead inner peeked?).Alike (.lookahead inner' peeked?') := ⟨h.1, rfl⟩

theorem isLast_none : Pull.IsLast none := nofun

theorem not_isLast_item (a : Item) : ¬ Pull.IsLast (some (.ok a)) := fun h => h a rfl

/-- Of a reader that was asked for the next item: it is sound, and spent if there was none. -/
theorem nextWith_lasting (access : SourceAccess) {r : Reader} {p : Pool} (sound : r.Sound p) :
    (r.nextWith access p).2.1.Sound (r.nextWith access p).2.2 ∧
      r.Alike (r.nextWith access p).2.1 ∧
      ((r.nextWith access p).1.IsLast →
        (r.nextWith access p).2.1.Spent (r.nextWith access p).2.2) := by
  induction r generalizing p with
  | window items start stop index =>
    unfold nextWith
    split
    · next inside =>
      have bound : index < items.size := Nat.lt_of_lt_of_le inside sound.2
      rw [Array.getElem?_eq_getElem bound]
      exact ⟨sound, .refl _, fun last => absurd last (not_isLast_item _)⟩
    · next outside => exact ⟨sound, .refl _, fun _ => Nat.le_of_not_lt outside⟩
  | empty => exact ⟨trivial, .refl _, fun _ => trivial⟩
  | range low high next? =>
    cases next? with
    | none => exact ⟨trivial, .refl _, fun _ => rfl⟩
    | some n => exact ⟨trivial, .refl _, fun last => absurd last (not_isLast_item _)⟩
  | stream rest =>
    refine ⟨trivial, .refl _, ?_⟩
    simp only [nextWith, pulledFrom]
    split
    · exact fun _ => rfl
    · exact fun last => absurd last (not_isLast_item _)
    · exact fun _ => rfl
  | cursor number =>
    unfold nextWith
    split
    -- The cursor is put back where it was found, after it was asked.
    · next c found =>
      refine ⟨trivial, .refl _, fun last c' found' => ?_⟩
      have bound := (List.getElem?_eq_some_iff.mp found).1
      cases (List.getElem?_set_self bound).symm.trans found'
      exact Cursor.finished_next last
    · next missing =>
      refine ⟨trivial, .refl _, fun _ c' found' => ?_⟩
      cases missing.symm.trans found'
  | lookahead inner peeked? ih =>
    cases peeked? with
    | none =>
      obtain ⟨sound', alike, last⟩ := ih sound.1
      exact ⟨⟨sound', nofun⟩, alike.lookahead _ _, fun h => ⟨nofun, last h⟩⟩
    | some x =>
      exact ⟨⟨sound.1, nofun⟩, Alike.lookahead (.refl _) _ _,
        fun h => ⟨nofun, sound.2 x rfl h⟩⟩
  | replay number index done =>
    cases done with
    | true => exact ⟨trivial, .refl _, fun _ => rfl⟩
    | false =>
      unfold nextWith
      dsimp only
      split
      · exact ⟨trivial, .refl _, fun _ => rfl⟩
      · split
        · exact ⟨trivial, .refl _, fun last => absurd last (not_isLast_item _)⟩
        · exact ⟨trivial, .refl _, fun _ => rfl⟩

theorem closeWith_lasting (access : SourceAccess) {r : Reader} {p : Pool} (sound : r.Sound p) :
    (r.closeWith access p).1.Sound (r.closeWith access p).2 ∧ r.Alike (r.closeWith access p).1 ∧
      (r.closeWith access p).1.Spent (r.closeWith access p).2 := by
  induction r generalizing p with
  | window items start stop index => exact ⟨sound, .refl _, Nat.le_refl _⟩
  | empty => exact ⟨trivial, .refl _, trivial⟩
  | range | stream => exact ⟨trivial, .refl _, rfl⟩
  | cursor number =>
    unfold closeWith
    split
    · next c found =>
      refine ⟨trivial, .refl _, fun c' found' => ?_⟩
      have bound := (List.getElem?_eq_some_iff.mp found).1
      cases (List.getElem?_set_self bound).symm.trans found'
      exact Cursor.finished_finish c
    · next missing =>
      refine ⟨trivial, .refl _, fun c' found' => ?_⟩
      cases missing.symm.trans found'
  | lookahead inner peeked? ih =>
    obtain ⟨sound', alike, spent⟩ := ih sound.1
    exact ⟨⟨sound', fun _ _ _ => spent⟩, alike.lookahead _ _,
      ⟨fun x hx => (Option.some.inj hx).symm, spent⟩⟩
  | replay number index done => cases done <;> exact ⟨trivial, .refl _, rfl⟩

/-- A spent reader gives nothing, and asking it does nothing. -/
theorem nextWith_of_spent (access : SourceAccess) {r : Reader} {p : Pool} (spent : r.Spent p) :
    ∃ r', r.nextWith access p = (none, r', p) := by
  induction r with
  | window items start stop index =>
    exact ⟨_, by rw [nextWith, if_neg (Nat.not_lt.mpr spent)]⟩
  | empty => exact ⟨_, rfl⟩
  | range low high next? => cases spent; exact ⟨_, rfl⟩
  | stream rest =>
    have ended : rest () = .done := spent
    exact ⟨_, by simp [nextWith, ended, ItemStream.next?, pulledFrom, Pool.warn]; rfl⟩
  | cursor number =>
    unfold nextWith
    split
    · next c found =>
      obtain ⟨bound, rfl⟩ := List.getElem?_eq_some_iff.mp found
      rw [Cursor.next_of_finished (spent _ found)]
      exact ⟨_, by simp [Pool.setCursor]; rfl⟩
    · exact ⟨_, rfl⟩
  | lookahead inner peeked? ih =>
    cases peeked? with
    | none =>
      obtain ⟨r', h⟩ := ih spent.2
      exact ⟨.lookahead r' none, by simp [nextWith, h]⟩
    | some x =>
      cases spent.1 x rfl
      exact ⟨_, rfl⟩
  | replay number index done => cases spent; exact ⟨_, rfl⟩

theorem closeWith_of_spent (access : SourceAccess) {r : Reader} {p : Pool} (spent : r.Spent p) :
    ∃ r', r.closeWith access p = (r', p) := by
  induction r with
  | window | empty | range | stream => exact ⟨_, rfl⟩
  | cursor number =>
    unfold closeWith
    split
    · next c found =>
      obtain ⟨bound, rfl⟩ := List.getElem?_eq_some_iff.mp found
      rw [Cursor.finish_of_finished (spent _ found)]
      exact ⟨_, by simp [Pool.setCursor]; rfl⟩
    · exact ⟨_, rfl⟩
  | lookahead inner peeked? ih =>
    obtain ⟨r', h⟩ := ih spent.2
    exact ⟨.lookahead r' (some none), by simp [closeWith, h]⟩
  | replay number index done => cases spent; exact ⟨_, rfl⟩

theorem hasNext_lasting {r : Reader} {p : Pool} (sound : r.Sound p) :
    (r.hasNext? p).2.1.Sound (r.hasNext? p).2.2 ∧ r.Alike (r.hasNext? p).2.1 := by
  cases r with
  | window => exact ⟨sound, .refl _⟩
  | empty | range | stream | cursor => exact ⟨trivial, .refl _⟩
  | lookahead inner peeked? =>
    cases peeked? with
    | none =>
      obtain ⟨sound', alike, last⟩ := nextWith_lasting (access p) sound.1
      refine ⟨⟨sound', fun x hx h => ?_⟩, alike.lookahead _ _⟩
      cases hx
      exact last h
    | some x => exact ⟨sound, .refl _⟩
  | replay number index done => cases done <;> exact ⟨trivial, .refl _⟩

/-- A spent reader that looks ahead sees nothing. -/
theorem hasNext_of_spent {r : Reader} {p : Pool} (sound : r.Sound p) (spent : r.Spent p) :
    ∃ r', r.hasNext? p = (if r.ahead then some false else none, r', p) ∧ r'.Spent p := by
  cases r with
  | window items start stop index =>
    refine ⟨_, ?_, spent⟩
    simp only [hasNext?, decide_eq_false (Nat.not_lt.mpr spent)]
    rfl
  | empty => exact ⟨_, rfl, trivial⟩
  | range low high next? => cases spent; exact ⟨_, rfl, rfl⟩
  | stream | cursor => exact ⟨_, rfl, spent⟩
  | lookahead inner peeked? =>
    cases peeked? with
    | none =>
      obtain ⟨r', h⟩ := nextWith_of_spent (access p) spent.2
      have last := (nextWith_lasting (access p) sound.1).2.2
      rw [h] at last
      have spent' := last isLast_none
      exact ⟨.lookahead r' (some none), by simp [hasNext?, peek, next, h]; rfl,
        fun x hx => (Option.some.inj hx).symm, spent'⟩
    | some x =>
      cases spent.1 x rfl
      exact ⟨_, rfl, spent⟩
  | replay number index done => cases spent; exact ⟨_, rfl, rfl⟩

theorem fresh_sound {r : Reader} {p : Pool} (sound : r.Sound p) :
    ∀ r' ∈ (r.fresh? p).1, r'.Sound (r.fresh? p).2 := by
  induction r with
  | window items start stop index => rintro r' ⟨⟩; exact sound
  | empty | range | stream | cursor => rintro r' ⟨⟩ <;> trivial
  | lookahead inner peeked? ih => exact ih sound.1
  | replay number index done =>
    unfold fresh?
    split
    · rintro r' ⟨⟩; trivial
    · rintro r' ⟨⟩

/-! ### Readers as they are made -/

/-- A reader of which nothing was asked yet. -/
inductive Opened : Reader → Prop
  | ofList (items : Sequence) : Opened (.ofList items)
  | ofBounds (items : Sequence) (start stop : Nat) : Opened (.ofBounds items start stop)
  | slice {r : Reader} (least greatest : Int64) (base : Opened r) : Opened (r.slice least greatest)
  | empty : Opened .empty
  | ofRange (low high : Int64) : Opened (.ofRange low high)
  | stream (rest : Unit → ItemStream) : Opened (.stream rest)
  | cursor (number : Nat) : Opened (.cursor number)
  | lookahead {inner : Reader} (base : Opened inner) : Opened (.lookahead inner none)
  | replay (number : Nat) : Opened (.replay number 0 false)

theorem Opened.ofSource (s : Source) : Opened (.ofSource s) := by
  cases s with
  | items xs =>
    cases xs with
    | nil => exact .empty
    | cons a as => exact .ofList (a :: as)
  | range low high => exact .ofRange low high
  | stream rest => exact .stream rest

theorem sound_slice {r : Reader} {p : Pool} (least greatest : Int64) (sound : r.Sound p) :
    (r.slice least greatest).Sound p := by
  cases r with
  | window items start stop index =>
    obtain ⟨ordered, bound⟩ := sound
    rw [Reader.slice]
    cases h : (window items start stop index).slice? least greatest with
    | none => trivial
    | some r =>
      obtain ⟨low, high, rfl, -, hlow, hhigh⟩ := exists_of_slice?_window ordered h
      exact ⟨Nat.le_of_lt hlow, Nat.le_trans hhigh bound⟩
  | _ => trivial

theorem Opened.sound {r : Reader} (h : r.Opened) (p : Pool) : r.Sound p := by
  induction h with
  | ofList items => exact ⟨Nat.zero_le _, by simp⟩
  | ofBounds items start stop => exact ⟨Nat.min_le_right _ _, List.size_toArray ▸ Nat.min_le_right _ _⟩
  | slice least greatest base ih => exact sound_slice least greatest ih
  | empty | ofRange | stream | cursor | replay => trivial
  | lookahead base ih => exact ⟨ih, nofun⟩

/-- The protocol of readers makes every end final. -/
theorem lasting : protocol.Lasting Pool.Later ahead Sound Spent where
  later_refl := Pool.Later.refl
  later_trans := Pool.Later.trans
  sound_later := Sound.later
  spent_later := Spent.later
  next {r p x r' p'} sound h := by
    have h : r.nextWith (access p) p = (x, r', p') := Option.some.inj h
    have later := later_nextWith (careful_access p) r p
    have spec := nextWith_lasting (access p) sound
    rw [h] at later spec
    exact ⟨later, spec⟩
  hasNext {r p b? r' p'} sound h := by
    have h : r.hasNext? p = (b?, r', p') := Option.some.inj h
    have later := later_hasNext r p
    have spec := hasNext_lasting sound
    rw [h] at later spec
    exact ⟨later, spec⟩
  fresh {r p r'? p'} sound h := by
    have h : r.fresh? p = (r'?, p') := h
    have later := later_fresh r p
    have spec := fresh_sound sound
    rw [h] at later spec
    exact ⟨later, spec⟩
  close {r p r' p'} sound h := by
    have h : r.closeWith (access p) p = (r', p') := h
    have later := later_closeWith (careful_access p) r p
    have spec := closeWith_lasting (access p) sound
    rw [h] at later spec
    exact ⟨later, spec⟩
  spent_next _ spent := by
    obtain ⟨r', h⟩ := nextWith_of_spent (access _) spent
    exact ⟨r', congrArg some h⟩
  spent_hasNext sound spent := by
    obtain ⟨r', h, spent'⟩ := hasNext_of_spent sound spent
    exact ⟨r', congrArg some h, spent'⟩
  spent_close _ spent := closeWith_of_spent (access _) spent

end Reader

end TreeQuery
