/-
The readers of one replay.

A `Recording` is the last replay of a pool together with the rest of the pool, which is all that its
source can see; filling, releasing and leaving it are functions of that alone.  An `Audience` has, in
addition, the readers of the replay, of which each is a position in the recording (`Listener`).

Main statements:

* `Recording.fill_spec`, `Recording.leave_spec`: what is done to the last replay of a pool is what is
  done to the recording;
* `Audience.step_of_call`: everything that a call of one of the readers can do to them all.

Design notes: the relation `Audience.Step` has one case for each thing that can happen, with what is
answered and what becomes of the recording, so that an invariant of sessions of these readers has to
be looked at in these cases only.
-/
import TreeQuery.Proofs.ReaderEnds
import TreeQuery.Proofs.ReplaySteps

namespace TreeQuery

/-- The last replay of a pool, and the rest of the pool. -/
structure Recording where
  replay : Replay Reader
  rest : Pool

namespace Recording

variable {k : Recording} {n : Nat}

/-- The number of the replay. -/
def number (k : Recording) : Nat := k.rest.replays.length

/-- The whole pool. -/
def pool (k : Recording) : Pool := k.rest.extended [k.replay]

/-- Replays read earlier replays only. -/
structure Ordered (k : Recording) : Prop where
  rest : k.rest.Ordered
  source : ∀ source, k.replay.source? = some source → source.Below k.number

/-- Closes the source, unless that was done. -/
def release (k : Recording) : Recording :=
  match k.replay.source? with
  | some source => ⟨{ k.replay with source? := none }, (source.close k.rest).2⟩
  | none => k

/-- Pulls once from a source, and enters what came. -/
def pull (k : Recording) (source : Reader) : Recording :=
  ⟨k.replay.entered (source.next k.rest).2.1 (source.next k.rest).1, (source.next k.rest).2.2⟩

/-- Reads at most `count` items from the source. -/
def fill : Nat → Recording → Recording
  | 0, k => k
  | count + 1, k =>
    match k.replay.source? with
    | some source =>
      if (source.next k.rest).1.elim false (·.isOk) then fill count (k.pull source)
      else (k.pull source).release
    | none => k

/-- One reader less; the last one closes the source. -/
def leave (k : Recording) : Recording :=
  let k' : Recording := { k with replay := { k.replay with readers := k.replay.readers - 1 } }
  if k.replay.readers - 1 = 0 then k'.release else k'

/-- One reader more. -/
def join (k : Recording) : Recording :=
  { k with replay := { k.replay with readers := k.replay.readers + 1 } }

@[simp] theorem getElem?_pool (k : Recording) : k.pool.replays[k.number]? = some k.replay := by
  simp [pool, number, Pool.extended]

@[simp] theorem setReplay_pool (k : Recording) (r : Replay Reader) :
    k.pool.setReplay k.number r = (Recording.mk r k.rest).pool := by
  simp [pool, number, Pool.extended, Pool.setReplay]

@[simp] theorem cursors_pool (k : Recording) : k.pool.cursors = k.rest.cursors := rfl

theorem access_pool (k : Recording) : Reader.access k.pool = Reader.accessWithin (k.number + 1) := by
  simp [Reader.access, pool, number, Pool.extended]

theorem release_spec (h : k.Ordered) :
    k.release.Ordered ∧ k.release.number = k.number ∧
      Replay.release (Reader.accessWithin (k.number + 1)) k.number k.pool = k.release.pool := by
  cases opened : k.replay.source? with
  | none =>
    have same : k.release = k := by simp only [release, opened]
    rw [same]
    exact ⟨h, rfl, Replay.release_of_closed k.getElem?_pool opened⟩
  | some source =>
    have closed := Reader.frames_closeWith (Reader.framed_accessWithin k.number) h.rest
      (h.source source opened)
    have same : k.release = ⟨{ k.replay with source? := none }, (source.close k.rest).2⟩ := by
      simp only [release, opened]
    rw [same, Replay.release_of_open k.getElem?_pool opened, setReplay_pool]
    exact ⟨⟨closed.ordered, nofun⟩, closed.length, closed.extended _⟩

theorem pull_spec (h : k.Ordered) {source : Reader} (opened : k.replay.source? = some source) :
    (k.pull source).Ordered ∧ (k.pull source).number = k.number := by
  have below := h.source source opened
  obtain ⟨pulled, -⟩ :=
    Reader.frames_nextWith (Reader.framed_accessWithin k.number) h.rest below
  refine ⟨⟨pulled.ordered, fun source' opened' => ?_⟩, pulled.length⟩
  have kept : (source.next k.rest).2.1.Below k.number := Reader.below_nextWith _ _ below
  have same : (source.next k.rest).2.1 = source' :=
    Option.some.inj ((Replay.source_entered _ _ _).symm.trans opened')
  rw [← same]
  exact kept.mono (Nat.le_of_eq pulled.length.symm)

theorem fill_spec (count : Nat) (h : k.Ordered) :
    (k.fill count).Ordered ∧ (k.fill count).number = k.number ∧
      Replay.fill (Reader.accessWithin (k.number + 1)) k.number count k.pool =
        (k.fill count).pool := by
  induction count generalizing k with
  | zero => exact ⟨h, rfl, rfl⟩
  | succ count ih =>
    cases opened : k.replay.source? with
    | none =>
      have same : k.fill (count + 1) = k := by simp only [fill, opened]
      rw [same]
      exact ⟨h, rfl, Replay.fill_of_closed _ k.getElem?_pool opened⟩
    | some source =>
      obtain ⟨ordered, number⟩ := pull_spec h opened
      obtain ⟨frames, same⟩ := Reader.frames_nextWith (Reader.framed_accessWithin k.number) h.rest
        (h.source source opened)
      have outcome : ((Reader.accessWithin (k.number + 1)).next source k.pool).1 =
          (source.next k.rest).1 := (same _).1
      -- Pulling in the whole pool is pulling in the rest of it.
      have entered : ((Reader.accessWithin (k.number + 1)).next source k.pool).2.2.setReplay k.number
          (k.replay.entered ((Reader.accessWithin (k.number + 1)).next source k.pool).2.1
            ((Reader.accessWithin (k.number + 1)).next source k.pool).1) =
          (k.pull source).pool := by
        have rest : ((Reader.accessWithin (k.number + 1)).next source k.pool).2.2 =
            (Recording.mk k.replay (source.next k.rest).2.2).pool := frames.extended _
        have length : (Recording.mk k.replay (source.next k.rest).2.2).number = k.number :=
          frames.length
        have left : ((Reader.accessWithin (k.number + 1)).next source k.pool).2.1 =
            (source.next k.rest).2.1 := (same _).2
        rw [rest, left, outcome, ← length, setReplay_pool]
        rfl
      rw [Replay.fill_succ_of_open count k.getElem?_pool opened, entered, outcome, fill]
      simp only [opened]
      split
      · obtain ⟨ordered', number', filled⟩ := ih ordered
        exact ⟨ordered', number'.trans number, number ▸ filled⟩
      · obtain ⟨ordered', number', released⟩ := release_spec ordered
        exact ⟨ordered', number'.trans number, number ▸ released⟩

theorem leave_spec (h : k.Ordered) :
    k.leave.Ordered ∧ k.leave.number = k.number ∧
      Replay.leave (Reader.accessWithin (k.number + 1)) k.number k.pool = k.leave.pool := by
  have ordered : Ordered { k with replay := { k.replay with readers := k.replay.readers - 1 } } :=
    ⟨h.rest, h.source⟩
  unfold leave Replay.leave
  simp only [getElem?_pool, setReplay_pool]
  split
  · exact release_spec ordered
  · exact ⟨ordered, rfl, rfl⟩

theorem ordered_join (h : k.Ordered) : k.join.Ordered := ⟨h.rest, h.source⟩

/-- The recording after its readers have asked for the item with an index. -/
def fillTo (k : Recording) (index : Nat) : Recording := k.fill (index + 1 - k.replay.buffer.size)

theorem fillTo_spec (h : k.Ordered) (index : Nat) :
    (k.fillTo index).Ordered ∧ (k.fillTo index).number = k.number ∧
      Replay.fillTo (Reader.accessWithin (k.number + 1)) k.number index k.pool =
        (k.fillTo index).pool := by
  unfold Replay.fillTo
  rw [getElem?_pool]
  exact fill_spec _ h

end Recording

/-! ### The readers -/

/-- A reader of a replay. -/
structure Listener where
  index : Nat
  done : Bool

/-- A replay and all its readers. -/
structure Audience where
  listeners : List Listener
  recording : Recording

namespace Audience

/-- The session of the readers. -/
def session (m : Audience) : Session Reader Pool :=
  ⟨m.listeners.map fun l => .replay m.recording.number l.index l.done, m.recording.pool⟩

/-- What a call of one of the readers does: what is answered, and what becomes of the readers and the
recording. -/
inductive Step (m : Audience) (i : Nat) : Call → Answer → Audience → Prop
  | nextItem {index : Nat} {a : Item} (reader : m.listeners[i]? = some ⟨index, false⟩)
      (found : (m.recording.fillTo index).replay.buffer[index]? = some a) :
      Step m i .next (.pulled (some (.ok a)))
        ⟨m.listeners.set i ⟨index + 1, false⟩, m.recording.fillTo index⟩
  | nextLast {index : Nat} (reader : m.listeners[i]? = some ⟨index, false⟩)
      (missing : (m.recording.fillTo index).replay.buffer[index]? = none) :
      Step m i .next (.pulled ((m.recording.fillTo index).replay.failure?.map .error))
        ⟨m.listeners.set i ⟨index, true⟩, (m.recording.fillTo index).leave⟩
  | nextDone {index : Nat} (reader : m.listeners[i]? = some ⟨index, true⟩) :
      Step m i .next (.pulled none) m
  | hasNext {index : Nat} (reader : m.listeners[i]? = some ⟨index, false⟩) :
      Step m i .hasNext
        (.expects (some (index < (m.recording.fillTo index).replay.buffer.size ||
          (m.recording.fillTo index).replay.failure?.isSome)))
        ⟨m.listeners, m.recording.fillTo index⟩
  | hasNextDone {index : Nat} (reader : m.listeners[i]? = some ⟨index, true⟩) :
      Step m i .hasNext (.expects (some false)) m
  | fresh {l : Listener} (reader : m.listeners[i]? = some l) :
      Step m i .fresh (.restarted true) ⟨m.listeners ++ [⟨0, false⟩], m.recording.join⟩
  | close {index : Nat} (reader : m.listeners[i]? = some ⟨index, false⟩) :
      Step m i .close .closed ⟨m.listeners.set i ⟨index, true⟩, m.recording.leave⟩
  | closeDone {index : Nat} (reader : m.listeners[i]? = some ⟨index, true⟩) :
      Step m i .close .closed m

variable {m m' : Audience} {i : Nat} {c : Call} {a : Answer}

theorem session_set {k : Recording} (number : k.number = m.recording.number) (l : Listener) :
    (Audience.mk (m.listeners.set i l) k).session =
      ⟨m.session.readers.set i (.replay m.recording.number l.index l.done), k.pool⟩ := by
  simp [session, number, List.map_set]

theorem session_keep {k : Recording} (number : k.number = m.recording.number) :
    (Audience.mk m.listeners k).session = ⟨m.session.readers, k.pool⟩ := by
  simp [session, number]

section Calls

variable {index : Nat} {done : Bool}

theorem getElem?_readers (reader : m.listeners[i]? = some ⟨index, done⟩) :
    m.session.readers[i]? = some (.replay m.recording.number index done) := by
  simp [session, reader]

theorem set_readers (reader : m.listeners[i]? = some ⟨index, done⟩) :
    m.session.readers.set i (.replay m.recording.number index done) = m.session.readers := by
  obtain ⟨bound, same⟩ := List.getElem?_eq_some_iff.mp (getElem?_readers reader)
  rw [← same, List.set_getElem_self]

theorem set_session (reader : m.listeners[i]? = some ⟨index, done⟩) :
    (Session.mk (m.session.readers.set i (.replay m.recording.number index done)) m.session.pool) =
      m.session := by
  rw [set_readers reader]

theorem call_next (h : m.recording.Ordered) (reader : m.listeners[i]? = some ⟨index, done⟩) :
    ∃ a m', m.Step i .next a m' ∧ m.session.call Reader.protocol i .next = some (a, m'.session) := by
  have found := getElem?_readers reader
  rw [Reader.call_next found]
  cases done with
  | true => exact ⟨_, m, .nextDone reader, congrArg _ (congrArg _ (set_session reader))⟩
  | false =>
    obtain ⟨ordered, number, filled⟩ := Recording.fillTo_spec h index
    obtain ⟨-, number', left⟩ := Recording.leave_spec ordered
    rw [number] at left
    have entry := (m.recording.fillTo index).getElem?_pool
    rw [number] at entry
    cases item : (m.recording.fillTo index).replay.buffer[index]? with
    | some a =>
      refine ⟨_, _, .nextItem reader item, ?_⟩
      rw [session_set number]
      simp [Reader.next, Reader.nextWith, session, Recording.access_pool, filled, entry, item]
    | none =>
      refine ⟨_, _, .nextLast reader item, ?_⟩
      rw [session_set (number'.trans number)]
      simp [Reader.next, Reader.nextWith, session, Recording.access_pool, filled, entry, item, left]

theorem call_hasNext (h : m.recording.Ordered) (reader : m.listeners[i]? = some ⟨index, done⟩) :
    ∃ a m', m.Step i .hasNext a m' ∧
      m.session.call Reader.protocol i .hasNext = some (a, m'.session) := by
  have found := getElem?_readers reader
  rw [Reader.call_hasNext found]
  cases done with
  | true => exact ⟨_, m, .hasNextDone reader, congrArg _ (congrArg _ (set_session reader))⟩
  | false =>
    obtain ⟨-, number, filled⟩ := Recording.fillTo_spec h index
    have entry := (m.recording.fillTo index).getElem?_pool
    rw [number] at entry
    refine ⟨_, _, .hasNext reader, ?_⟩
    rw [session_keep number, ← set_readers reader]
    simp [Reader.hasNext?, session, Recording.access_pool, filled, entry]

theorem call_fresh (reader : m.listeners[i]? = some ⟨index, done⟩) :
    ∃ a m', m.Step i .fresh a m' ∧
      m.session.call Reader.protocol i .fresh = some (a, m'.session) := by
  rw [Reader.call_fresh (getElem?_readers reader)]
  refine ⟨_, _, .fresh reader, ?_⟩
  simp [Reader.fresh?, session, Recording.join]
  exact ⟨fun _ _ => rfl, rfl⟩

theorem call_close (h : m.recording.Ordered) (reader : m.listeners[i]? = some ⟨index, done⟩) :
    ∃ a m', m.Step i .close a m' ∧
      m.session.call Reader.protocol i .close = some (a, m'.session) := by
  have found := getElem?_readers reader
  rw [Reader.call_close found]
  cases done with
  | true => exact ⟨_, m, .closeDone reader, congrArg _ (congrArg _ (set_session reader))⟩
  | false =>
    obtain ⟨-, number, left⟩ := Recording.leave_spec h
    refine ⟨_, _, .close reader, ?_⟩
    rw [session_set number]
    simp [Reader.close, Reader.closeWith, session, Recording.access_pool, left]

end Calls

/-- **What a call can do.**  A call of a reader of the replay is one of the steps. -/
theorem step_of_call {s' : Session Reader Pool} (h : m.recording.Ordered)
    (called : m.session.call Reader.protocol i c = some (a, s')) :
    ∃ m', m.Step i c a m' ∧ s' = m'.session := by
  cases reader : m.listeners[i]? with
  | none =>
    have missing : m.session.readers[i]? = none := by simp [session, reader]
    cases (Reader.call_of_missing c missing).symm.trans called
  | some l =>
    obtain ⟨b, m', step, called'⟩ : ∃ b m', m.Step i c b m' ∧
        m.session.call Reader.protocol i c = some (b, m'.session) := by
      cases c with
      | next => exact call_next h reader
      | hasNext => exact call_hasNext h reader
      | fresh => exact call_fresh reader
      | close => exact call_close h reader
    cases called.symm.trans called'
    exact ⟨m', step, rfl⟩

end Audience

end TreeQuery
