/-
What the readers of a replay are given.

A source that is read alone gives some items and then an error or the end (`Reader.Gives`).  A replay
asks it for them one by one, each once, and closes it when it has got to the end or when the last open
reader is closed; `Recording.Reads` says so of every state of a replay.  What a reader will be given is
therefore fixed when it is made (`Recording.view`): everything, if the source is open or was read to
its end, and otherwise what was read until it was closed.

Main statement: `Replay.readers_read_source`, for all interleavings of calls of the readers of a replay.

Design notes: readers that are still open keep the source open, because the replay counts them
(`Audience.Invariant.readers`).  So the view of an open reader never changes, and what closing the
last one changes is seen only by readers that are made after that.
-/
import TreeQuery.Proofs.Recordings

namespace TreeQuery

/-! ### Sources read alone -/

namespace Reader

/-- Read alone, a reader gives these items, and then the error or the end. -/
inductive Gives : Reader → Pool → List Item → Option Error → Prop
  | item {r r' : Reader} {p p' : Pool} {a : Item} {xs : List Item} {e? : Option Error}
      (first : r.next p = (some (.ok a), r', p')) (rest : Gives r' p' xs e?) :
      Gives r p (a :: xs) e?
  | failed {r r' : Reader} {p p' : Pool} {e : Error} (last : r.next p = (some (.error e), r', p')) :
      Gives r p [] (some e)
  | done {r r' : Reader} {p p' : Pool} (last : r.next p = (none, r', p')) : Gives r p [] none

/-- A reader that was asked for the next item `count` times, and its pool. -/
def asked (r : Reader) (p : Pool) : Nat → Reader × Pool
  | 0 => (r, p)
  | count + 1 => (r.next p).2.1.asked (r.next p).2.2 count

theorem asked_succ (r : Reader) (p : Pool) (count : Nat) :
    r.asked p (count + 1) = ((r.asked p count).1.next (r.asked p count).2).2 := by
  induction count generalizing r p with
  | zero => rfl
  | succ count ih => exact ih _ _

/-- What a reader of some items and an error or the end answers when it is asked for the time with
number `m`. -/
def expected (xs : List Item) (e? : Option Error) (m : Nat) : Pull :=
  match xs[m]? with
  | some a => some (.ok a)
  | none => if m = xs.length then e?.map .error else none

theorem Gives.next {r : Reader} {p : Pool} {xs : List Item} {e? : Option Error}
    (h : r.Gives p xs e?) {count : Nat} (bound : count ≤ xs.length) :
    ((r.asked p count).1.next (r.asked p count).2).1 = expected xs e? count := by
  induction h generalizing count with
  | item first rest ih =>
    cases count with
    | zero => simp [asked, first, expected]
    | succ count =>
      have step := ih (Nat.le_of_succ_le_succ bound)
      simp only [asked, first]
      rw [step]
      simp [expected]
  | failed last | done last =>
    cases Nat.le_zero.mp bound
    simp [asked, last, expected]

end Reader

/-! ### What was read -/

section

variable (src : Reader) (p : Pool) (xs : List Item) (e? : Option Error)

/-- A replay that has asked its source, which gives `xs` and then `e?`, for the next item `count` times
in all.  Beside the replay the pool is as the source has left it. -/
structure Recording.Reads (k : Recording) (count : Nat) : Prop where
  bound : count ≤ xs.length + 1
  buffer : k.replay.buffer.toList = xs.take count
  failure : k.replay.failure? = if xs.length < count then e? else none
  opened : ∀ source, k.replay.source? = some source →
    count ≤ xs.length ∧ (source, k.rest) = src.asked p count
  closed : k.replay.source? = none →
    k.rest = ((src.asked p count).1.close (src.asked p count).2).2

/-- What a reader that is made now will be given. -/
def Recording.view (k : Recording) : List Item × Option Error :=
  if k.replay.source?.isSome then (xs, e?) else (k.replay.buffer.toList, k.replay.failure?)

end

namespace Recording

variable {src : Reader} {p : Pool} {xs : List Item} {e? : Option Error} {k : Recording}
  {count : Nat}

theorem view_of_closed (closed : k.replay.source? = none) :
    k.view xs e? = (k.replay.buffer.toList, k.replay.failure?) := by simp [view, closed]

theorem view_of_open {source : Reader} (opened : k.replay.source? = some source) :
    k.view xs e? = (xs, e?) := by simp [view, opened]

theorem Reads.release (h : k.Reads src p xs e? count) : k.release.Reads src p xs e? count := by
  unfold Recording.release
  split
  · next source opened =>
    obtain ⟨-, state⟩ := h.opened source opened
    refine ⟨h.bound, h.buffer, h.failure, nofun, fun _ => ?_⟩
    rw [← state]
  · exact h

/-- At the end, the view of a replay is everything. -/
theorem Reads.view_of_end (h : k.Reads src p xs e? (xs.length + 1))
    (closed : k.replay.source? = none) : k.view xs e? = (xs, e?) := by
  rw [view_of_closed closed, h.buffer, h.failure, List.take_of_length_le (Nat.le_succ _)]
  simp

/-- Pulling before the end gives the next item. -/
theorem Reads.pull_item (gives : src.Gives p xs e?) (h : k.Reads src p xs e? count)
    {source : Reader} (opened : k.replay.source? = some source) (before : count < xs.length) :
    (source.next k.rest).1 = some (.ok xs[count]) ∧
      (k.pull source).Reads src p xs e? (count + 1) := by
  obtain ⟨-, state⟩ := h.opened source opened
  have outcome : (source.next k.rest).1 = some (.ok xs[count]) := by
    have answer := gives.next (Nat.le_of_lt before)
    rw [← state] at answer
    rw [answer, Reader.expected, List.getElem?_eq_getElem before]
  refine ⟨outcome, ?_⟩
  simp only [Recording.pull, outcome]
  refine ⟨Nat.succ_le_succ (Nat.le_of_lt before), ?_, ?_, ?_, nofun⟩
  · show (k.replay.buffer.push xs[count]).toList = xs.take (count + 1)
    rw [Array.toList_push, h.buffer, List.take_append_getElem before]
  · show k.replay.failure? = if xs.length < count + 1 then e? else none
    rw [h.failure, if_neg (Nat.not_lt.mpr (Nat.le_of_lt before)), if_neg (Nat.not_lt.mpr before)]
  · rintro source' ⟨⟩
    refine ⟨before, ?_⟩
    rw [Reader.asked_succ, ← state]

theorem release_pull (source : Reader) :
    (k.pull source).release =
      ⟨{ (k.pull source).replay with source? := none },
        ((source.next k.rest).2.1.close (source.next k.rest).2.2).2⟩ := by
  simp [Recording.release, Recording.pull]

/-- Pulling at the end gives the error or the end, and the source is closed. -/
theorem Reads.pull_last (gives : src.Gives p xs e?) (h : k.Reads src p xs e? xs.length)
    {source : Reader} (opened : k.replay.source? = some source) :
    (source.next k.rest).1 = e?.map .error ∧
      (k.pull source).release.Reads src p xs e? (xs.length + 1) ∧
      (k.pull source).release.replay.source? = none := by
  obtain ⟨-, state⟩ := h.opened source opened
  have outcome : (source.next k.rest).1 = e?.map .error := by
    have answer := gives.next (Nat.le_refl xs.length)
    rw [← state] at answer
    rw [answer, Reader.expected, List.getElem?_eq_none (Nat.le_refl _), if_pos rfl]
  have entry : (k.pull source).replay.buffer = k.replay.buffer ∧
      (k.pull source).replay.failure? = e? := by
    have before := h.failure
    rw [if_neg (Nat.lt_irrefl _)] at before
    cases e? <;> simp [Recording.pull, outcome, Replay.entered, before]
  refine ⟨outcome, ?_, by rw [release_pull]⟩
  rw [release_pull]
  refine ⟨Nat.le_refl _, ?_, ?_, nofun, fun _ => ?_⟩
  · simp [entry.1, h.buffer, List.take_of_length_le]
  · simp [entry.2]
  · rw [Reader.asked_succ, ← state]

@[simp] theorem readers_release (k : Recording) : k.release.replay.readers = k.replay.readers := by
  unfold Recording.release
  split <;> rfl

@[simp] theorem readers_pull (k : Recording) (source : Reader) :
    (k.pull source).replay.readers = k.replay.readers := by
  unfold Recording.pull
  rcases (source.next k.rest).1 with _ | _ | _ <;> rfl

@[simp] theorem readers_fill (k : Recording) (more : Nat) :
    (k.fill more).replay.readers = k.replay.readers := by
  induction more generalizing k with
  | zero => rfl
  | succ more ih =>
    unfold Recording.fill
    split
    · split <;> simp [ih]
    · rfl

theorem fill_of_closed (more : Nat) (closed : k.replay.source? = none) : k.fill more = k := by
  cases more with
  | zero => rfl
  | succ more => simp only [Recording.fill, closed]

/-- Filling reads as much as is wanted, or to the end. -/
theorem Reads.fill (gives : src.Gives p xs e?) (h : k.Reads src p xs e? count)
    (opened : k.replay.source?.isSome) (more : Nat) :
    (k.fill more).Reads src p xs e? (count + more) ∧ (k.fill more).replay.source?.isSome ∨
      (k.fill more).Reads src p xs e? (xs.length + 1) ∧ (k.fill more).replay.source? = none := by
  induction more generalizing k count with
  | zero => exact .inl ⟨h, opened⟩
  | succ more ih =>
    obtain ⟨source, hsource⟩ := Option.isSome_iff_exists.mp opened
    simp only [Recording.fill, hsource]
    rcases Nat.lt_or_eq_of_le (h.opened source hsource).1 with before | rfl
    · obtain ⟨outcome, reads⟩ := h.pull_item gives hsource before
      simp only [outcome, Option.elim_some, Except.isOk, Except.toBool, if_true]
      have again := ih reads (by simp [Recording.pull])
      rwa [Nat.add_assoc, Nat.add_comm 1] at again
    · obtain ⟨outcome, reads, closed⟩ := h.pull_last gives hsource
      refine .inr ?_
      cases e? <;> simpa [outcome, Except.isOk, Except.toBool] using ⟨reads, closed⟩

/-- When the item with an index that the view has, or the index after its last, was asked for, it is
there, or what comes after all items is known; and the view is as it was. -/
theorem Reads.fillTo (gives : src.Gives p xs e?) (h : k.Reads src p xs e? count) (index : Nat) :
    (∃ count', (k.fillTo index).Reads src p xs e? count') ∧
      (k.fillTo index).view xs e? = k.view xs e? ∧
      (index ≤ (k.view xs e?).1.length →
        (k.fillTo index).replay.buffer[index]? = (k.view xs e?).1[index]? ∧
        ((k.fillTo index).replay.buffer[index]? = none →
          (k.fillTo index).replay.failure? = (k.view xs e?).2)) := by
  cases hsource : k.replay.source? with
  | none =>
    have same : k.fillTo index = k := fill_of_closed _ hsource
    rw [same, view_of_closed hsource]
    exact ⟨⟨count, h⟩, rfl, fun _ => ⟨by simp, fun _ => rfl⟩⟩
  | some source =>
    have bound := (h.opened source hsource).1
    have size : k.replay.buffer.size = count := by
      simpa [bound] using congrArg List.length h.buffer
    have view : k.view xs e? = (xs, e?) := view_of_open hsource
    rw [view]
    rcases h.fill gives (by simp [hsource]) (index + 1 - k.replay.buffer.size) with
      ⟨reads, opened⟩ | ⟨reads, closed⟩
    -- The source is still open, so all that was asked for is in the buffer.
    · obtain ⟨source', hsource'⟩ := Option.isSome_iff_exists.mp opened
      have bound' := (reads.opened source' hsource').1
      have inside : index < xs.length := by omega
      refine ⟨⟨_, reads⟩, view_of_open hsource', fun _ => ?_⟩
      have item : (k.fillTo index).replay.buffer[index]? = xs[index]? := by
        rw [← Array.getElem?_toList, Recording.fillTo, reads.buffer, List.getElem?_take, if_pos (by omega)]
      refine ⟨item, fun missing => ?_⟩
      rw [item, List.getElem?_eq_getElem inside] at missing
      cases missing
    · refine ⟨⟨_, reads⟩, reads.view_of_end closed, fun _ => ⟨?_, fun _ => ?_⟩⟩
      · rw [← Array.getElem?_toList, Recording.fillTo, reads.buffer,
          List.take_of_length_le (Nat.le_succ _)]
      · rw [Recording.fillTo, reads.failure, if_pos (Nat.lt_succ_self _)]

/-- While the source is open, an item that was asked for is there. -/
theorem Reads.lt_size_of_open (gives : src.Gives p xs e?) (h : k.Reads src p xs e? count)
    {index : Nat} (opened : (k.fillTo index).replay.source?.isSome) :
    index < (k.fillTo index).replay.buffer.size := by
  cases hsource : k.replay.source? with
  | none =>
    rw [Recording.fillTo, fill_of_closed _ hsource, hsource] at opened
    cases opened
  | some source =>
    have size : k.replay.buffer.size = count := by
      simpa [(h.opened source hsource).1] using congrArg List.length h.buffer
    rcases h.fill gives (by simp [hsource]) (index + 1 - k.replay.buffer.size) with
      ⟨reads, opened'⟩ | ⟨-, closed⟩
    · obtain ⟨source', hsource'⟩ := Option.isSome_iff_exists.mp opened'
      have bound := (reads.opened source' hsource').1
      have size' : (k.fillTo index).replay.buffer.size =
          count + (index + 1 - k.replay.buffer.size) := by
        simpa [bound, Recording.fillTo] using congrArg List.length reads.buffer
      omega
    · rw [Recording.fillTo, closed] at opened
      cases opened

@[simp] theorem readers_fillTo (k : Recording) (index : Nat) :
    (k.fillTo index).replay.readers = k.replay.readers := readers_fill k _

@[simp] theorem buffer_leave (k : Recording) : k.leave.replay.buffer = k.replay.buffer := by
  unfold Recording.leave Recording.release
  dsimp only
  split
  · split <;> rfl
  · rfl

@[simp] theorem failure_leave (k : Recording) :
    k.leave.replay.failure? = k.replay.failure? := by
  unfold Recording.leave Recording.release
  dsimp only
  split
  · split <;> rfl
  · rfl

/-- The last reader that leaves closes the source. -/
@[simp] theorem source_leave (k : Recording) :
    k.leave.replay.source? = if k.replay.readers - 1 = 0 then none else k.replay.source? := by
  unfold Recording.leave
  dsimp only
  split
  · unfold Recording.release
    dsimp only
    split
    · rfl
    · assumption
  · rfl

@[simp] theorem readers_leave (k : Recording) :
    k.leave.replay.readers = k.replay.readers - 1 := by
  unfold Recording.leave
  dsimp only
  split <;> simp

theorem Reads.leave (h : k.Reads src p xs e? count) : k.leave.Reads src p xs e? count := by
  have fewer : Reads src p xs e?
      { k with replay := { k.replay with readers := k.replay.readers - 1 } } count :=
    ⟨h.bound, h.buffer, h.failure, h.opened, h.closed⟩
  unfold Recording.leave
  dsimp only
  split
  · exact fewer.release
  · exact fewer

theorem Reads.join (h : k.Reads src p xs e? count) : k.join.Reads src p xs e? count :=
  ⟨h.bound, h.buffer, h.failure, h.opened, h.closed⟩

/-- The view does not change when a reader leaves, unless the source is closed by that. -/
theorem view_leave (more : k.replay.readers - 1 ≠ 0) : k.leave.view xs e? = k.view xs e? := by
  simp [Recording.leave, more, view]

end Recording

/-! ### Readers and the replay -/

namespace Audience

variable {src : Reader} {p : Pool} {xs : List Item} {e? : Option Error} {m m' : Audience}
  {i j : Nat} {c : Call} {a : Answer}

/-- What holds of a replay and its readers at every moment. -/
structure Invariant (src : Reader) (p : Pool) (xs : List Item) (e? : Option Error) (m : Audience) :
    Prop where
  ordered : m.recording.Ordered
  reads : ∃ count, m.recording.Reads src p xs e? count
  readers : m.recording.replay.readers = m.listeners.countP (!·.done)
  /-- Without an open reader, the source is closed. -/
  kept : m.recording.replay.source?.isSome → 0 < m.recording.replay.readers

/-- No reader is open. -/
def Idle (m : Audience) : Prop := ∀ l ∈ m.listeners, l.done

theorem open_readers {index : Nat} (reader : m.listeners[i]? = some ⟨index, false⟩) :
    0 < m.listeners.countP (!·.done) :=
  List.countP_pos_iff.mpr ⟨_, List.mem_of_getElem? reader, rfl⟩

theorem Invariant.fillTo (gives : src.Gives p xs e?) (h : m.Invariant src p xs e?) {index : Nat}
    (reader : m.listeners[i]? = some ⟨index, false⟩) :
    Invariant src p xs e? ⟨m.listeners, m.recording.fillTo index⟩ := by
  obtain ⟨count, reads⟩ := h.reads
  obtain ⟨reads', -⟩ := reads.fillTo gives index
  exact ⟨(Recording.fillTo_spec h.ordered index).1, reads', by simp [h.readers],
    fun _ => by simpa [h.readers] using open_readers reader⟩

/-- A reader that leaves changes the view only if it is the last. -/
theorem Invariant.leave (h : m.Invariant src p xs e?) {index : Nat}
    (reader : m.listeners[i]? = some ⟨index, false⟩) :
    Invariant src p xs e? ⟨m.listeners.set i ⟨index, true⟩, m.recording.leave⟩ ∧
      (m.recording.leave.view xs e? = m.recording.view xs e? ∨
        Idle ⟨m.listeners.set i ⟨index, true⟩, m.recording.leave⟩) := by
  obtain ⟨count, reads⟩ := h.reads
  obtain ⟨bound, entry⟩ := List.getElem?_eq_some_iff.mp reader
  have readers : m.recording.leave.replay.readers =
      (m.listeners.set i ⟨index, true⟩).countP (!·.done) := by
    simp [List.countP_set, bound, entry, h.readers]
  refine ⟨⟨(Recording.leave_spec h.ordered).1, ⟨count, reads.leave⟩, readers, fun opened => ?_⟩, ?_⟩
  · simp only [Recording.source_leave] at opened
    split at opened
    · cases opened
    · next more => simpa using Nat.pos_of_ne_zero more
  · by_cases last : m.recording.replay.readers - 1 = 0
    · refine .inr fun l hl => ?_
      rw [Recording.readers_leave, last] at readers
      simpa using List.countP_eq_zero.mp readers.symm l hl
    · exact .inl (Recording.view_leave last)

/-- **What a step keeps.**  The view changes only when no reader is left. -/
theorem Invariant.step (gives : src.Gives p xs e?) (h : m.Invariant src p xs e?)
    (step : m.Step i c a m') :
    m'.Invariant src p xs e? ∧
      (m'.recording.view xs e? = m.recording.view xs e? ∨ m'.Idle) := by
  obtain ⟨count, reads⟩ := h.reads
  cases step with
  | @nextItem index a reader found =>
    have filled := h.fillTo gives reader
    obtain ⟨bound, entry⟩ := List.getElem?_eq_some_iff.mp reader
    refine ⟨⟨filled.ordered, filled.reads, ?_, filled.kept⟩, .inl (reads.fillTo gives index).2.1⟩
    rw [filled.readers]
    have opened := open_readers reader
    simp [List.countP_set, bound, entry]
    omega
  | @nextLast index reader missing =>
    have filled := h.fillTo gives reader
    obtain ⟨left, view⟩ := filled.leave reader
    exact ⟨left, view.imp_left (·.trans (reads.fillTo gives index).2.1)⟩
  | @hasNext index reader => exact ⟨h.fillTo gives reader, .inl (reads.fillTo gives index).2.1⟩
  | nextDone | hasNextDone | closeDone => exact ⟨h, .inl rfl⟩
  | fresh =>
    refine ⟨⟨Recording.ordered_join h.ordered, ⟨count, reads.join⟩, ?_, fun _ => Nat.succ_pos _⟩,
      .inl rfl⟩
    simp [Recording.join, h.readers, List.countP_append]
  | close reader => exact h.leave reader

/-- When no reader is open, the source is closed. -/
theorem Invariant.closed_of_idle (h : m.Invariant src p xs e?) (idle : m.Idle) :
    m.recording.replay.source? = none := by
  cases opened : m.recording.replay.source? with
  | none => rfl
  | some source =>
    have readers := h.kept (by simp [opened])
    rw [h.readers] at readers
    obtain ⟨l, hl, undone⟩ := List.countP_pos_iff.mp readers
    simp [idle l hl] at undone

/-- A source that is closed stays closed, and the view as it is. -/
theorem closed_step (xs : List Item) (e? : Option Error) (closed : m.recording.replay.source? = none) (step : m.Step i c a m') :
    m'.recording.replay.source? = none ∧
      m'.recording.view xs e? = m.recording.view xs e? := by
  have filled : ∀ index, m.recording.fillTo index = m.recording := fun _ =>
    Recording.fill_of_closed _ closed
  have left : m.recording.leave.replay.source? = none ∧
      m.recording.leave.view xs e? = m.recording.view xs e? := by
    have closed' : m.recording.leave.replay.source? = none := by simp [closed]
    refine ⟨closed', ?_⟩
    rw [Recording.view_of_closed closed', Recording.view_of_closed closed]
    simp
  cases step with
  | nextItem | hasNext => rw [filled]; exact ⟨closed, rfl⟩
  | nextLast => rw [filled]; exact left
  | nextDone | hasNextDone | closeDone => exact ⟨closed, rfl⟩
  | fresh => exact ⟨closed, rfl⟩
  | close => exact left

/-! #### One reader -/

/-- Reader `j`, which will be given `ys` and then `f?`, has asked for the next item `taken` times. -/
def Follows (xs : List Item) (e? : Option Error) (ys : List Item) (f? : Option Error)
    (j taken : Nat) (m : Audience) : Prop :=
  (m.listeners[j]? = some ⟨taken, false⟩ ∧ taken ≤ ys.length ∧
    m.recording.view xs e? = (ys, f?)) ∨
  ∃ index, m.listeners[j]? = some ⟨index, true⟩ ∧ ys.length < taken

/-- Another reader, or another question, leaves a reader where it is. -/
theorem Follows.keep {ys : List Item} {f? : Option Error} {taken : Nat}
    (gives : src.Gives p xs e?) (h : m.Invariant src p xs e?)
    (follows : m.Follows xs e? ys f? j taken) (step : m.Step i c a m')
    (same : m'.listeners[j]? = m.listeners[j]?) : m'.Follows xs e? ys f? j taken := by
  rcases follows with ⟨reader, bound, view⟩ | ⟨index, reader, past⟩
  · refine .inl ⟨same.trans reader, bound, ?_⟩
    rcases (h.step gives step).2 with kept | idle
    · exact kept.trans view
    · cases idle _ (List.mem_of_getElem? (same.trans reader))
  · exact .inr ⟨index, same.trans reader, past⟩

theorem Follows.bound {ys : List Item} {f? : Option Error} {taken : Nat}
    (follows : m.Follows xs e? ys f? j taken) : j < m.listeners.length := by
  obtain ⟨reader, -⟩ | ⟨index, reader, -⟩ := follows <;>
    exact (List.getElem?_eq_some_iff.mp reader).1

/-- A reader that is asked for the next item answers what it is to be given. -/
theorem Follows.next {ys : List Item} {f? : Option Error} {taken : Nat}
    (gives : src.Gives p xs e?) (h : m.Invariant src p xs e?)
    (follows : m.Follows xs e? ys f? j taken) (step : m.Step j .next a m') :
    a = .pulled (Reader.expected ys f? taken) ∧ m'.Follows xs e? ys f? j (taken + 1) := by
  have bound := follows.bound
  rcases follows with ⟨reader, inside, view⟩ | ⟨index, reader, past⟩
  · obtain ⟨count, reads⟩ := h.reads
    obtain ⟨-, view', filled⟩ := reads.fillTo gives taken
    rw [view] at filled view'
    obtain ⟨item, failure⟩ := filled inside
    cases step with
    | @nextItem index a reader' found =>
      cases reader.symm.trans reader'
      rw [item] at found
      have inside' := (List.getElem?_eq_some_iff.mp found).1
      refine ⟨by rw [Reader.expected, found], .inl ⟨?_, inside', view'⟩⟩
      exact List.getElem?_set_self bound
    | @nextLast index reader' missing =>
      cases reader.symm.trans reader'
      have last := failure missing
      rw [item] at missing
      have past := List.getElem?_eq_none_iff.mp missing
      refine ⟨?_, .inr ⟨taken, List.getElem?_set_self bound, Nat.lt_succ_of_le past⟩⟩
      rw [Reader.expected, missing, if_pos (Nat.le_antisymm inside past), last]
    | nextDone reader' => cases reader.symm.trans reader'
  · cases step with
    | nextItem reader' | nextLast reader' => cases reader.symm.trans reader'
    | nextDone reader' =>
      refine ⟨?_, .inr ⟨index, reader, Nat.lt_succ_of_lt past⟩⟩
      rw [Reader.expected, List.getElem?_eq_none (Nat.le_of_lt past), if_neg (Nat.ne_of_gt past)]

/-- **One reader.**  Asked for the next item, it answers what it is to be given; whatever else is
asked, it stays where it is, unless it is closed. -/
theorem Follows.step {ys : List Item} {f? : Option Error} {taken : Nat}
    (gives : src.Gives p xs e?) (h : m.Invariant src p xs e?)
    (follows : m.Follows xs e? ys f? j taken) (step : m.Step i c a m')
    (unclosed : (i, c) ≠ (j, .close)) :
    (i = j ∧ a = .pulled (Reader.expected ys f? taken) ∧ m'.Follows xs e? ys f? j (taken + 1)) ∨
      ((i = j → a.pull? = none) ∧ m'.Follows xs e? ys f? j taken) := by
  have bound := follows.bound
  by_cases hij : i = j
  · subst hij
    cases c with
    | next => exact .inl ⟨rfl, follows.next gives h step⟩
    | hasNext =>
      have same : m'.listeners[i]? = m.listeners[i]? := by cases step <;> rfl
      refine .inr ⟨fun _ => ?_, follows.keep gives h step same⟩
      cases step <;> rfl
    | fresh =>
      have same : m'.listeners[i]? = m.listeners[i]? := by
        cases step
        exact List.getElem?_append_left bound
      refine .inr ⟨fun _ => ?_, follows.keep gives h step same⟩
      cases step
      rfl
    | close => exact absurd rfl unclosed
  -- Calls of other readers change what is recorded, but not where this reader stands.
  · refine .inr ⟨fun h => absurd h hij, follows.keep gives h step ?_⟩
    cases step with
    | nextItem | nextLast | close => exact List.getElem?_set_ne hij
    | nextDone | hasNext | hasNextDone | closeDone => rfl
    | fresh => exact List.getElem?_append_left bound

/-- In a whole run, a reader is given what it is to be given, one after the other. -/
theorem Follows.run {ys : List Item} {f? : Option Error} {taken : Nat} {calls : List (Nat × Call)}
    {as : List Answer} {s : Session Reader Pool} (gives : src.Gives p xs e?)
    (h : m.Invariant src p xs e?) (follows : m.Follows xs e? ys f? j taken)
    (ran : m.session.run Reader.protocol calls = some (as, s)) (unclosed : (j, .close) ∉ calls)
    {n : Nat} {x : Pull} (given : (Session.pulls j calls as)[n]? = some x) :
    x = Reader.expected ys f? (taken + n) := by
  induction calls generalizing m as taken n with
  | nil =>
    cases ran
    cases given
  | cons called rest ih =>
    obtain ⟨i, c⟩ := called
    obtain ⟨a, s', as', hcall, hrest, rfl⟩ := Session.run_cons_eq_some.mp ran
    obtain ⟨m', step, rfl⟩ := step_of_call h.ordered hcall
    rw [List.mem_cons, not_or] at unclosed
    have h' := (h.step gives step).1
    rw [Session.pulls_cons] at given
    -- Either this step answers the reader with its next item, or it leaves the reader as it is.
    rcases follows.step gives h step (Ne.symm unclosed.1) with ⟨rfl, rfl, further⟩ | ⟨quiet, further⟩
    · rw [if_pos rfl] at given
      cases n with
      | zero => cases given; rfl
      | succ n =>
        have later := ih h' further hrest unclosed.2 given
        rwa [Nat.add_assoc, Nat.add_comm 1] at later
    · have none : (if i = j then a.pull?.toList else []) = [] := by
        split
        · next hij => rw [quiet hij]; rfl
        · rfl
      rw [none] at given
      exact ih h' further hrest unclosed.2 given

/-! #### Readers that are made later -/

/-- A reader that is not made yet is not made by a step, or it is made with the view there is. -/
theorem Step.unmade {ys : List Item} {f? : Option Error} (step : m.Step i c a m')
    (unmade : m.listeners.length ≤ j) (view : m.recording.view xs e? = (ys, f?)) :
    m'.listeners.length ≤ j ∨ m'.Follows xs e? ys f? j 0 := by
  cases step with
  | nextItem | nextLast | close => exact .inl (by simpa using unmade)
  | nextDone | hasNext | hasNextDone | closeDone => exact .inl unmade
  | fresh reader =>
    rcases Nat.lt_or_eq_of_le unmade with before | rfl
    · exact .inl (by rw [List.length_append]; exact before)
    · exact .inr (.inl ⟨by simp, Nat.zero_le _, view⟩)

theorem Step.ne_of_unmade (step : m.Step i c a m') (unmade : m.listeners.length ≤ j) : i ≠ j := by
  have known : ∃ l, m.listeners[i]? = some l := by cases step <;> exact ⟨_, by assumption⟩
  obtain ⟨l, reader⟩ := known
  have bound := (List.getElem?_eq_some_iff.mp reader).1
  omega

/-- A reader that is made when the source is closed is given what was read by then. -/
theorem given_after_closing {calls : List (Nat × Call)} {as : List Answer} {s : Session Reader Pool}
    (gives : src.Gives p xs e?) (h : m.Invariant src p xs e?)
    (closed : m.recording.replay.source? = none) (unmade : m.listeners.length ≤ j)
    (ran : m.session.run Reader.protocol calls = some (as, s)) (unclosed : (j, .close) ∉ calls)
    {n : Nat} {x : Pull} (given : (Session.pulls j calls as)[n]? = some x) :
    x = Reader.expected (m.recording.view xs e?).1 (m.recording.view xs e?).2 n := by
  induction calls generalizing m as n with
  | nil =>
    cases ran
    cases given
  | cons called rest ih =>
    obtain ⟨i, c⟩ := called
    obtain ⟨a, s', as', hcall, hrest, rfl⟩ := Session.run_cons_eq_some.mp ran
    obtain ⟨m', step, rfl⟩ := step_of_call h.ordered hcall
    rw [List.mem_cons, not_or] at unclosed
    obtain ⟨closed', view⟩ := closed_step xs e? closed step
    have h' := (h.step gives step).1
    rw [Session.pulls_cons, if_neg (step.ne_of_unmade unmade), List.nil_append] at given
    -- As long as the reader is not made the view stays; once it is made, it follows the view.
    rcases step.unmade unmade (Prod.eta _) with unmade' | follows
    · rw [← view]
      exact ih h' closed' unmade' hrest unclosed.2 given
    · have first := follows.run gives h' hrest unclosed.2 given
      rwa [Nat.zero_add] at first

end Audience

/-- A moment of a run of these calls, with the session as it is then, when reader `j` is not made yet
and nothing comes any more from any reader there is. -/
def Session.IdleBefore (s : Session Reader Pool) (calls : List (Nat × Call)) (j : Nat)
    (s' : Session Reader Pool) : Prop :=
  ∃ before after as, calls = before ++ after ∧ s.run Reader.protocol before = some (as, s') ∧
    s'.readers.length ≤ j ∧ ∀ r ∈ s'.readers, r.Spent s'.pool

theorem Session.IdleBefore.cons {s s' t : Session Reader Pool} {i j : Nat} {c : Call} {a : Answer}
    {rest : List (Nat × Call)} (called : s.call Reader.protocol i c = some (a, s'))
    (idle : s'.IdleBefore rest j t) : s.IdleBefore ((i, c) :: rest) j t := by
  obtain ⟨before, after, as, rfl, ran, unmade, spent⟩ := idle
  exact ⟨(i, c) :: before, after, a :: as, rfl,
    Session.run_cons_eq_some.mpr ⟨a, s', as, called, ran, rfl⟩, unmade, spent⟩

namespace Audience

variable {src : Reader} {p : Pool} {xs : List Item} {e? : Option Error} {m : Audience} {j : Nat}

theorem spent_iff_idle : (∀ r ∈ m.session.readers, r.Spent m.session.pool) ↔ m.Idle := by
  simp [session, Idle, Reader.Spent]

/-- A reader that is made while there has always been an open reader is given everything. -/
theorem given_while_open {calls : List (Nat × Call)} {as : List Answer} {s : Session Reader Pool}
    (gives : src.Gives p xs e?) (h : m.Invariant src p xs e?)
    (whole : m.recording.view xs e? = (xs, e?)) (unmade : m.listeners.length ≤ j)
    (ran : m.session.run Reader.protocol calls = some (as, s)) (unclosed : (j, .close) ∉ calls)
    (busy : ∀ t, ¬ m.session.IdleBefore calls j t) {n : Nat} {x : Pull}
    (given : (Session.pulls j calls as)[n]? = some x) : x = Reader.expected xs e? n := by
  induction calls generalizing m as n with
  | nil =>
    cases ran
    cases given
  | cons called rest ih =>
    obtain ⟨i, c⟩ := called
    obtain ⟨a, s', as', hcall, hrest, rfl⟩ := Session.run_cons_eq_some.mp ran
    obtain ⟨m', step, rfl⟩ := step_of_call h.ordered hcall
    rw [List.mem_cons, not_or] at unclosed
    obtain ⟨h', view⟩ := h.step gives step
    rw [Session.pulls_cons, if_neg (step.ne_of_unmade unmade), List.nil_append] at given
    rcases step.unmade unmade whole with unmade' | follows
    · have busy' : ∀ t, ¬ m'.session.IdleBefore rest j t := fun t idle => busy t (idle.cons hcall)
      -- The view changes only when all readers are done, and there was no such moment before the reader was made.
      rcases view with same | idle
      · exact ih h' (same.trans whole) unmade' hrest unclosed.2 busy' given
      · refine absurd ⟨[], rest, [], rfl, rfl, ?_, spent_iff_idle.mpr idle⟩ (busy' m'.session)
        simpa [session] using unmade'
    · have first := follows.run gives h' hrest unclosed.2 given
      rwa [Nat.zero_add] at first

/-- A replay of a source with its first reader. -/
def start (src : Reader) (p : Pool) : Audience := ⟨[⟨0, false⟩], ⟨⟨some src, #[], none, 1⟩, p⟩⟩

theorem session_start (src : Reader) (p : Pool) :
    (start src p).session = ⟨[.replay p.replays.length 0 false], p.addReplay src⟩ := rfl

theorem invariant_start (ordered : p.Ordered) (below : src.Below p.replays.length) :
    (start src p).Invariant src p xs e? where
  ordered := ⟨ordered, fun source hsource => by cases hsource; exact below⟩
  reads := ⟨0, Nat.zero_le _, rfl, rfl, fun source hsource => by
    cases hsource; exact ⟨Nat.zero_le _, rfl⟩, nofun⟩
  readers := rfl
  kept _ := Nat.one_pos

/-- Every run of calls of the readers of a replay leads to a replay and its readers. -/
theorem invariant_run {calls : List (Nat × Call)} {as : List Answer} {s : Session Reader Pool}
    (gives : src.Gives p xs e?) (h : m.Invariant src p xs e?)
    (ran : m.session.run Reader.protocol calls = some (as, s)) :
    ∃ m' : Audience, s = m'.session ∧ m'.Invariant src p xs e? :=
  Session.run_induction
    (I := fun s => ∃ m' : Audience, s = m'.session ∧ m'.Invariant src p xs e?)
    (fun _ _ _ _ _ ⟨m, hs, h⟩ called => by
      subst hs
      obtain ⟨m', step, rfl⟩ := step_of_call h.ordered called
      exact ⟨m', rfl, (h.step gives step).1⟩)
    ran ⟨m, rfl, h⟩

end Audience

/-- **What the readers of a replay are given.**  Let a source, read alone, give `xs` and then the error
`e?` or the end.  Whatever the readers of a replay of it are asked, in whatever order, the source has
been asked for each item at most once; and a reader that was not closed has been given

* `xs` and then `e?` or the end, if at every moment before it was made some reader was open;
* and if at some moment before it was made no reader was open, the items that had been read from the
  source by then, and what comes after all items only if the source had been read to that point. -/
theorem Replay.readers_read_source {src : Reader} {p : Pool} {xs : List Item} {e? : Option Error}
    (ordered : p.Ordered) (below : src.Below p.replays.length) (gives : src.Gives p xs e?)
    {calls : List (Nat × Call)} {as : List Answer} {s : Session Reader Pool}
    (ran : (Session.mk [.replay p.replays.length 0 false] (p.addReplay src)).run Reader.protocol
      calls = some (as, s)) :
    (∃ (k : Recording) (count : Nat), s.pool = k.pool ∧ k.Reads src p xs e? count) ∧
      ∀ j, (j, .close) ∉ calls →
        ((∀ t, ¬ (Session.mk [.replay p.replays.length 0 false] (p.addReplay src)).IdleBefore
            calls j t) →
          ∀ n x, (Session.pulls j calls as)[n]? = some x → x = Reader.expected xs e? n) ∧
        ∀ t, (Session.mk [.replay p.replays.length 0 false] (p.addReplay src)).IdleBefore
            calls j t →
          ∃ (k : Recording) (count : Nat), t.pool = k.pool ∧ k.Reads src p xs e? count ∧
            k.replay.source? = none ∧
            ∀ n x, (Session.pulls j calls as)[n]? = some x →
              x = Reader.expected (xs.take count) (if xs.length < count then e? else none) n := by
  rw [← Audience.session_start] at ran ⊢
  have start : (Audience.start src p).Invariant src p xs e? :=
    Audience.invariant_start ordered below
  refine ⟨?_, fun j unclosed => ⟨fun busy n x given => ?_, ?_⟩⟩
  · obtain ⟨m, rfl, h⟩ := Audience.invariant_run gives start ran
    obtain ⟨count, reads⟩ := h.reads
    exact ⟨m.recording, count, rfl, reads⟩
  -- The first reader is there from the start, all others are made in the course of the run.
  · cases j with
    | zero =>
      have first : (Audience.start src p).Follows xs e? xs e? 0 0 :=
        .inl ⟨rfl, Nat.zero_le _, rfl⟩
      have answer := first.run gives start ran unclosed given
      rwa [Nat.zero_add] at answer
    | succ j =>
      exact Audience.given_while_open gives start rfl (Nat.succ_le_succ (Nat.zero_le j)) ran unclosed
        busy given
  -- Up to the idle moment the run counts only for what was read by then; the reader is made after it.
  · rintro t ⟨before, after, as₁, rfl, ranBefore, unmade, spent⟩
    obtain ⟨m, rfl, h⟩ := Audience.invariant_run gives start ranBefore
    obtain ⟨count, reads⟩ := h.reads
    have closed := h.closed_of_idle (Audience.spent_iff_idle.mp spent)
    refine ⟨m.recording, count, rfl, reads, closed, fun n x given => ?_⟩
    obtain ⟨_, s', bs, ranBefore', ranAfter, rfl⟩ := Session.run_append_eq_some.mp ran
    cases ranBefore.symm.trans ranBefore'
    rw [Session.pulls_append j (Session.length_of_run ranBefore),
      Session.pulls_of_unmade ranBefore unmade, List.nil_append] at given
    have answer := Audience.given_after_closing gives h closed
      (by simpa [Audience.session] using unmade) ranAfter
      (fun hj => unclosed (List.mem_append_right _ hj)) given
    rwa [Recording.view_of_closed closed, reads.buffer, reads.failure] at answer

/-- Two integers that are fetched from a cursor: a second reader, which is made while the first is
open, is given both. -/
theorem Replay.readers_read_twoIntegers :
    let one := Item.atomic (.integer 1)
    let two := Item.atomic (.integer 2)
    let p : Pool := ⟨[Cursor.opened [some (.ok one), some (.ok two)]], [], []⟩
    let calls : List (Nat × Call) := [(0, .next), (0, .fresh), (1, .next), (1, .next), (1, .next)]
    p.Ordered ∧ (Reader.cursor 0).Below p.replays.length ∧
      (Reader.cursor 0).Gives p [one, two] none ∧
      ∃ as s, (Session.mk [.replay 0 0 false] (p.addReplay (.cursor 0))).run Reader.protocol calls =
          some (as, s) ∧
        (∃ (k : Recording) (count : Nat), s.pool = k.pool ∧
          k.Reads (.cursor 0) p [one, two] none count) ∧
        ∀ n x, (Session.pulls 1 calls as)[n]? = some x → x = Reader.expected [one, two] none n := by
  intro one two p calls
  have ordered : p.Ordered := fun _ _ _ h => nomatch h
  have below : (Reader.cursor 0).Below p.replays.length := trivial
  have gives : (Reader.cursor 0).Gives p [one, two] none := .item rfl (.item rfl (.done rfl))
  obtain ⟨as, s, ran⟩ : ∃ as s, (Session.mk [.replay 0 0 false]
      (p.addReplay (.cursor 0))).run Reader.protocol calls = some (as, s) := ⟨_, _, rfl⟩
  obtain ⟨reads, readers⟩ := Replay.readers_read_source ordered below gives ran
  refine ⟨ordered, below, gives, as, s, ran, reads, (readers 1 (by decide)).1 ?_⟩
  rintro t ⟨before, after, bs, split, ranBefore, unmade, spent⟩
  -- Before the second reader is made, the first is open.
  rcases before with _ | ⟨first, _ | ⟨second, more⟩⟩
  · cases ranBefore
    cases spent _ List.mem_cons_self
  · obtain ⟨rfl, -⟩ := List.cons.inj split
    cases ranBefore
    cases spent _ List.mem_cons_self
  · obtain ⟨rfl, split'⟩ := List.cons.inj split
    obtain ⟨rfl, -⟩ := List.cons.inj split'
    obtain ⟨_, _, _, called, ranMore, -⟩ := Session.run_cons_eq_some.mp ranBefore
    cases called
    obtain ⟨_, _, _, called', ranMore', -⟩ := Session.run_cons_eq_some.mp ranMore
    cases called'
    have made : 2 ≤ t.readers.length := Session.readers_of_run ranMore'
    omega

/-- **Closing the last reader loses items.**  It is not so that every reader of a replay that was not
closed is given all that its source gives: when the only reader of a source of two integers is closed
after the first, the source is closed with it, and a reader that is made after that is given one. -/
theorem Replay.closing_last_reader_loses_items :
    ¬ ∀ {src : Reader} {p : Pool} {xs : List Item} {e? : Option Error} {calls : List (Nat × Call)}
      {as : List Answer} {s : Session Reader Pool}, p.Ordered → src.Below p.replays.length →
      src.Gives p xs e? →
      (Session.mk [.replay p.replays.length 0 false] (p.addReplay src)).run Reader.protocol calls =
        some (as, s) →
      ∀ j, (j, .close) ∉ calls →
        ∀ n x, (Session.pulls j calls as)[n]? = some x → x = Reader.expected xs e? n := by
  intro whole
  let one := Item.atomic (.integer 1)
  let two := Item.atomic (.integer 2)
  let src := Reader.ofList [one, two]
  have ordered : Pool.empty.Ordered := fun _ _ _ h => nomatch h
  have below : src.Below Pool.empty.replays.length := trivial
  have gives : src.Gives .empty [one, two] none := .item rfl (.item rfl (.done rfl))
  have ran : ∃ s, (Session.mk [.replay 0 0 false] (Pool.empty.addReplay src)).run Reader.protocol
      [(0, .next), (0, .close), (0, .fresh), (1, .next), (1, .next)] =
        some ([.pulled (some (.ok one)), .closed, .restarted true, .pulled (some (.ok one)),
          .pulled none], s) := ⟨_, rfl⟩
  obtain ⟨s, ran⟩ := ran
  have second := whole ordered below gives ran 1 (by decide) 1 none rfl
  cases second

end TreeQuery
