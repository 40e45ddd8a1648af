/-
What readers promise.

Besides being read, a reader may look ahead, tell the length of its sequence, hand the sequence over, and start
again.  Which of these it can do it says in advance (`Reader.abilities`), and whoever uses it up takes a shortcut if
there is one.  The readers here are those of arrays, of nothing, of runs of integers and of cursors, and those that
look ahead at one of them (`Reader.Plain`), from the time they are made on, whatever they are asked for
(`Session.Course`).

* `Reader.next_hasNext`, `Reader.next_peek`: looking ahead leaves the next answer, and everything after it, as it was;
* `Reader.Opened.exists_gives`: what a new reader gives, which is the whole sequence where that is known;
* `Session.Faithful.serves`, `Session.Faithful.course`: what one request keeps, and so what all requests keep.

**Main result** (`Reader.abilities_truthful`): the promises hold after all requests, and each shortcut gives what
reading to the end gives.

Design notes: only a cursor is changed by its reader, and such a reader makes no other one.  So either there is only
one reader or the pool stays as it is (`Session.Faithful.alone`), and readers do not get in each other's way.
-/
import TreeQuery.Proofs.CursorRelease
import TreeQuery.Proofs.Ranges

namespace TreeQuery

namespace Reader

variable {r r' : Reader} {p p' : Pool} {xs ys : Sequence} {e? : Option Error} {k : Nat}

/-- Whether a reader reads an array, nothing, a cursor, or a run of integers whose length can be told, or looks ahead
at a reader that does. -/
def Plain : Reader → Prop
  | range low high _ => spanLength low high ≤ maxLength
  | stream _ => False
  | lookahead inner _ => inner.Plain
  | replay .. => False
  | _ => True

/-- The whole sequence, where it can be read again. -/
def whole? : Reader → Option Sequence
  | window items start stop _ => some (items.extract start stop).toList
  | empty => some []
  | range low high _ => some (itemsBetween low high)
  | lookahead inner _ => inner.whole?
  | _ => none

/-- Asked for the next item again and again, a reader answers as one that gives some items and then an error or the
end does from the time with number `k` on. -/
def StandsAt (r : Reader) (p : Pool) (xs : Sequence) (e? : Option Error) (k : Nat) : Prop :=
  ∀ m, ((r.asked p m).1.next (r.asked p m).2).1 = expected xs e? (k + m)

/-! ### Looking ahead -/

theorem next_hasNext (plain : r.Plain) (p : Pool) : (r.hasNext? p).2.1.next (r.hasNext? p).2.2 = r.next p := by
  cases r with
  | window | empty | range | cursor => rfl
  | stream | replay => exact plain.elim
  | lookahead inner peeked? => cases peeked? <;> rfl

/-- To peek does what to look ahead does, or nothing. -/
theorem peek_cases (r : Reader) (p : Pool) : (r.peek p).2 = (r.hasNext? p).2 ∨ (r.peek p).2 = (r, p) := by
  cases r with
  | lookahead inner peeked? => exact .inl rfl
  | _ => exact .inr rfl

theorem next_peek (plain : r.Plain) (p : Pool) : (r.peek p).2.1.next (r.peek p).2.2 = r.next p := by
  rcases peek_cases r p with heq | heq
  · rw [heq]
    exact next_hasNext plain p
  · rw [heq]

/-- Who looks ahead says whether something comes next. -/
theorem isSome_next_of_hasNext (plain : r.Plain) (sound : r.Sound p) {b : Bool} (h : (r.hasNext? p).1 = some b) :
    b = (r.next p).1.isSome := by
  cases r with
  | window items start stop index =>
    obtain rfl := Option.some.inj h
    by_cases inside : index < stop
    · have bound : index < items.size := Nat.lt_of_lt_of_le inside sound.2
      simp only [next, nextWith, if_pos inside, Array.getElem?_eq_getElem bound, decide_eq_true inside]
      rfl
    · simp only [next, nextWith, if_neg inside, decide_eq_false inside]
      rfl
  | empty => exact (Option.some.inj h).symm
  | range low high next? =>
    obtain rfl := Option.some.inj h
    cases next? <;> rfl
  | cursor => cases h
  | stream | replay => exact plain.elim
  | lookahead inner peeked? =>
    obtain rfl := Option.some.inj h
    cases peeked? <;> rfl

/-! ### What a request keeps of a reader -/

/-- Reading leaves the kind of a reader and its whole sequence as they are, and where that sequence is known, the pool
too. -/
theorem nextWith_kept (access : SourceAccess) (plain : r.Plain) (p : Pool) :
    (r.nextWith access p).2.1.Plain ∧ (r.nextWith access p).2.1.whole? = r.whole? ∧
      (r.whole? ≠ none → (r.nextWith access p).2.2 = p) := by
  induction r with
  | window items start stop index =>
    unfold nextWith
    split
    · split <;> exact ⟨trivial, rfl, fun _ => rfl⟩
    · exact ⟨trivial, rfl, fun _ => rfl⟩
  | empty => exact ⟨trivial, rfl, fun _ => rfl⟩
  | range low high next? => cases next? <;> exact ⟨plain, rfl, fun _ => rfl⟩
  | cursor number =>
    unfold nextWith
    split <;> exact ⟨trivial, rfl, fun known => absurd rfl known⟩
  | stream | replay => exact plain.elim
  | lookahead inner peeked? ih =>
    cases peeked? with
    | none => exact ih plain
    | some x => exact ⟨plain, rfl, fun _ => rfl⟩

/-- What a reader and its pool become, where the reader keeps what is known about it. -/
structure Keeps (r : Reader) (p : Pool) (r' : Reader) (p' : Pool) : Prop where
  plain : r'.Plain
  sound : r'.Sound p'
  whole : r'.whole? = r.whole?
  pool : r.whole? ≠ none → p' = p

theorem keeps_next (plain : r.Plain) (sound : r.Sound p) : r.Keeps p (r.next p).2.1 (r.next p).2.2 := by
  obtain ⟨plain', whole, pool⟩ := nextWith_kept (access p) plain p
  exact ⟨plain', (nextWith_lasting (access p) sound).1, whole, pool⟩

theorem keeps_hasNext (plain : r.Plain) (sound : r.Sound p) :
    r.Keeps p (r.hasNext? p).2.1 (r.hasNext? p).2.2 := by
  have sound' := (hasNext_lasting sound).1
  cases r with
  | window | empty | range | cursor => exact ⟨plain, sound', rfl, fun _ => rfl⟩
  | stream | replay => exact plain.elim
  | lookahead inner peeked? =>
    cases peeked? with
    | none =>
      obtain ⟨plain', whole, pool⟩ := nextWith_kept (access p) (r := inner) plain p
      exact ⟨plain', sound', whole, pool⟩
    | some x => exact ⟨plain, sound', rfl, fun _ => rfl⟩

theorem keeps_peek (plain : r.Plain) (sound : r.Sound p) : r.Keeps p (r.peek p).2.1 (r.peek p).2.2 := by
  rcases peek_cases r p with heq | heq
  · rw [heq]
    exact keeps_hasNext plain sound
  · rw [heq]
    exact ⟨plain, sound, rfl, fun _ => rfl⟩

/-- To look ahead at a reader from now on. -/
theorem keeps_lookahead (plain : r.Plain) (sound : r.Sound p) : r.Keeps p (.lookahead r none) p where
  plain := plain
  sound := ⟨sound, fun x hx => by cases hx⟩
  whole := rfl
  pool _ := rfl

/-! ### Where a reader stands -/

theorem StandsAt.next (h : r.StandsAt p xs e? k) :
    (r.next p).1 = expected xs e? k ∧ (r.next p).2.1.StandsAt (r.next p).2.2 xs e? (k + 1) := by
  refine ⟨h 0, fun m => ?_⟩
  rw [Nat.add_assoc, Nat.add_comm 1 m]
  exact h (m + 1)

/-- Readers that answer alike now, and are then the same, stand at the same place. -/
theorem StandsAt.of_next_eq (h : r.StandsAt p xs e? k) (same : r'.next p' = r.next p) :
    r'.StandsAt p' xs e? k := by
  intro m
  have later := h m
  cases m with
  | zero =>
    show (r'.next p').1 = _
    rw [same]
    exact later
  | succ m =>
    simp only [asked] at later ⊢
    rw [same]
    exact later

theorem next_lookahead (r : Reader) (p : Pool) :
    (Reader.lookahead r none).next p = ((r.next p).1, .lookahead (r.next p).2.1 none, (r.next p).2.2) := rfl

theorem asked_lookahead (r : Reader) (p : Pool) (m : Nat) :
    (Reader.lookahead r none).asked p m = (.lookahead (r.asked p m).1 none, (r.asked p m).2) := by
  induction m generalizing r p with
  | zero => rfl
  | succ m ih =>
    simp only [asked, next_lookahead]
    exact ih _ _

theorem StandsAt.lookahead (h : r.StandsAt p xs e? k) : (Reader.lookahead r none).StandsAt p xs e? k := by
  intro m
  rw [asked_lookahead]
  exact h m

/-- What is known of a reader that was asked for the next item. -/
theorem next_lasting {x : Pull} (sound : r.Sound p) (h : r.next p = (x, r', p')) :
    r'.Sound p' ∧ (x.IsLast → r'.Spent p') := by
  have told : r.nextWith (access p) p = (x, r', p') := h
  obtain ⟨sound', -, spent⟩ := nextWith_lasting (access p) sound
  rw [told] at sound' spent
  exact ⟨sound', spent⟩

/-- A reader stands where its next answer is right and it stands one further after that. -/
theorem StandsAt.of_next {x : Pull} (h : r.next p = (x, r', p')) (right : x = expected xs e? k)
    (rest : r'.StandsAt p' xs e? (k + 1)) : r.StandsAt p xs e? k := by
  intro m
  cases m with
  | zero => exact (congrArg Prod.fst h).trans right
  | succ m =>
    have later := rest m
    rw [Nat.add_assoc, Nat.add_comm 1 m] at later
    simp only [asked, h]
    exact later

theorem expected_of_lt (past : xs.length < k) : expected xs e? k = none := by
  rw [expected, List.getElem?_eq_none (Nat.le_of_lt past)]
  exact if_neg (Nat.ne_of_gt past)

/-- A spent reader stands past the end. -/
theorem StandsAt.of_spent (sound : r.Sound p) (spent : r.Spent p) (past : xs.length < k) :
    r.StandsAt p xs e? k := by
  intro m
  -- On how often it is still asked; it is spent each time.
  induction m generalizing r p k with
  | zero =>
    obtain ⟨r', ended⟩ := nextWith_of_spent (access p) spent
    exact (congrArg Prod.fst ended).trans (expected_of_lt past).symm
  | succ m ih =>
    obtain ⟨r', ended⟩ := nextWith_of_spent (access p) spent
    have told : r.next p = (none, r', p) := ended
    obtain ⟨sound', spent'⟩ := next_lasting sound told
    have later := ih sound' (spent' isLast_none) (k := k + 1) (by omega)
    rw [Nat.add_assoc, Nat.add_comm 1 m] at later
    simp only [asked, told]
    exact later

/-- One item more before the others moves everything by one. -/
theorem StandsAt.cons (h : r.StandsAt p xs e? k) (a : Item) : r.StandsAt p (a :: xs) e? (k + 1) := by
  intro m
  rw [h m, Nat.add_right_comm]
  simp [expected]

/-- A reader that gives some items and then an error or the end stands at their beginning. -/
theorem Gives.standsAt (h : r.Gives p xs e?) (sound : r.Sound p) : r.StandsAt p xs e? 0 := by
  -- On the items; after the last one the reader is spent.
  induction h with
  | item first rest ih =>
    obtain ⟨sound', -⟩ := next_lasting sound first
    exact .of_next first rfl ((ih sound').cons _)
  | failed last =>
    obtain ⟨sound', spent⟩ := next_lasting sound last
    exact .of_next last rfl (.of_spent sound' (spent fun a ha => by cases ha) (by simp))
  | done last =>
    obtain ⟨sound', spent⟩ := next_lasting sound last
    exact .of_next last rfl (.of_spent sound' (spent isLast_none) (by simp))

/-! ### New readers -/

/-- How often something can still be taken, where no replay is read. -/
theorem exists_remaining (r : Reader) (p : Pool) : ∃ below, r.remaining p = remainingWith below r p := by
  rw [remaining]
  cases p.replays.length with
  | zero => exact ⟨_, rfl⟩
  | succ depth => exact ⟨_, rfl⟩

theorem remaining_lookahead (r : Reader) (peeked? : Option Pull) (p : Pool) :
    (Reader.lookahead r peeked?).remaining p = r.remaining p + 1 := by
  rw [remaining, remaining]
  cases p.replays.length <;> rfl

theorem Gives.lookahead (h : r.Gives p xs e?) : (Reader.lookahead r none).Gives p xs e? := by
  induction h with
  | item first rest ih => exact .item (by rw [next_lookahead, first]) ih
  | failed last => exact .failed (by rw [next_lookahead, last])
  | done last => exact .done (by rw [next_lookahead, last])

theorem Yields.gives (h : r.Yields p xs) : r.Gives p xs none := by
  induction h with
  | ended last => exact .done last
  | item first _ ih => exact .item first ih

/-- A window gives the items from the next one to its end. -/
theorem gives_window (items : Array Item) (start : Nat) {stop index : Nat} (within : stop ≤ items.size) (p : Pool) :
    (window items start stop index).Gives p ((items.toList.drop index).take (stop - index)) none := by
  -- On how many items are left.
  induction left : stop - index generalizing index with
  | zero =>
    have outside : ¬ index < stop := by omega
    exact .done (by simp only [next, nextWith, if_neg outside]; rfl)
  | succ left ih =>
    have inside : index < stop := by omega
    have bound : index < items.toList.length := by
      rw [Array.length_toList]
      omega
    have first : (window items start stop index).next p =
        (some (.ok items.toList[index]), window items start stop (index + 1), p) := by
      simp only [next, nextWith, if_pos inside, Array.getElem?_eq_getElem (show index < items.size by omega)]
      rfl
    rw [List.drop_eq_getElem_cons bound, List.take_succ_cons]
    exact .item first (ih (by omega))

/-- A cursor gives no more items than are in its script. -/
theorem Gives.length_le_of_cursor {number : Nat} (h : (cursor number).Gives p xs e?) :
    xs.length ≤ (cursor number).remaining p := by
  generalize hr : Reader.cursor number = r at h
  induction h with
  | @item r r' p p' a xs e? first rest ih =>
    subst hr
    have left (p : Pool) :
        (cursor number).remaining p = ((p.cursors[number]?).map (·.script.length)).getD 0 := by
      obtain ⟨below, heq⟩ := exists_remaining (cursor number) p
      rw [heq, remainingWith]
    cases found : p.cursors[number]? with
    | none =>
      simp only [Reader.next, nextWith, found] at first
      cases first
    | some c =>
      rw [next_cursor found] at first
      have bound := (List.getElem?_eq_some_iff.mp found).1
      -- An item is the head of the script, and what comes later is in the rest of it.
      obtain ⟨told, rfl, rfl⟩ : c.next.1 = some (.ok a) ∧ r' = .cursor number ∧ p' = p.setCursor number c.next.2 := by
        simpa [eq_comm] using first
      have shorter := Cursor.script_next_of_item told
      have some : c.script ≠ [] := by
        intro nothing
        rw [Cursor.next, nothing] at told
        split at told <;> cases told
      have later := ih rfl
      rw [left, Pool.setCursor, List.getElem?_set_self bound] at later
      rw [left, found]
      have positive := List.length_pos_iff.mpr some
      simp only [Option.map_some, Option.getD_some, shorter, List.length_tail, List.length_cons] at later ⊢
      omega
  | failed | done => exact Nat.zero_le _

theorem length_itemsBetween (low high : Int64) : (itemsBetween low high).length = spanLength low high := by
  rw [itemsBetween, List.length_map, length_integersBetween]

/-- What a new reader gives: as many items at most as it is asked for when it is used up, and the whole sequence if
that is known. -/
theorem Opened.exists_gives (opened : r.Opened) (plain : r.Plain) (p : Pool) :
    ∃ xs e?, r.Gives p xs e? ∧ xs.length ≤ r.remaining p ∧ ∀ ys, r.whole? = some ys → xs = ys ∧ e? = none := by
  -- A window on all of its part of an array, and nothing, as readers and as slices.
  have window (items : Array Item) {start stop : Nat} (within : stop ≤ items.size) :
      ∃ xs e?, (window items start stop start).Gives p xs e? ∧
        xs.length ≤ (Reader.window items start stop start).remaining p ∧
        ∀ ys, (Reader.window items start stop start).whole? = some ys → xs = ys ∧ e? = none := by
    obtain ⟨below, left⟩ := exists_remaining (.window items start stop start) p
    refine ⟨_, _, gives_window items start within p, ?_, fun ys hys => ⟨?_, rfl⟩⟩
    · rw [left, remainingWith]
      exact List.length_take_le _ _
    · rw [← Option.some.inj hys, Array.toList_extract, List.extract_eq_take_drop]
  have empty : ∃ xs e?, Reader.empty.Gives p xs e? ∧ xs.length ≤ Reader.empty.remaining p ∧
      ∀ ys, Reader.empty.whole? = some ys → xs = ys ∧ e? = none :=
    ⟨[], none, .done rfl, Nat.zero_le _, fun ys hys => ⟨Option.some.inj hys, rfl⟩⟩
  induction opened with
  | ofList items => exact window items.toArray (by simp)
  | ofBounds items start stop => exact window items.toArray (by simp)
  | @slice r least greatest base ih =>
    have sound := base.sound p
    cases r with
    | window items start stop index =>
      rw [Reader.slice]
      cases h : (Reader.window items start stop index).slice? least greatest with
      | none => exact empty
      | some r =>
        obtain ⟨low, high, rfl, -, -, hhigh⟩ := exists_of_slice?_window sound.1 h
        exact window items (Nat.le_trans hhigh sound.2)
    | _ => exact empty
  | empty => exact empty
  | ofRange low high =>
    refine ⟨_, none, (yields_ofRange low high p).gives, ?_, fun ys hys => ⟨?_, rfl⟩⟩
    · obtain ⟨below, left⟩ := exists_remaining (.ofRange low high) p
      rw [left, length_itemsBetween, Reader.ofRange]
      by_cases h : low ≤ high
      · rw [if_pos h, remainingWith]
      · rw [if_neg h, remainingWith, spanLength]
        rw [Int64.le_iff_toInt_le] at h
        omega
    · exact Option.some.inj hys
  | cursor number =>
    obtain ⟨xs, e?, gives⟩ := exists_gives_cursor number p
    exact ⟨xs, e?, gives, gives.length_le_of_cursor, fun ys hys => by cases hys⟩
  | stream | replay => exact plain.elim
  | lookahead base ih =>
    obtain ⟨xs, e?, gives, length, whole⟩ := ih plain
    exact ⟨xs, e?, gives.lookahead, by rw [remaining_lookahead]; omega, whole⟩

/-- Where a reader can be read again, that is done by a new reader of the same sequence, and the pool stays as it
is. -/
theorem fresh_cases (plain : r.Plain) (sound : r.Sound p) :
    (r.whole? = none ∧ r.fresh? p = (none, p)) ∨
      ∃ q, r.fresh? p = (some q, p) ∧ q.Opened ∧ q.Plain ∧ q.whole? = r.whole? ∧ r.whole? ≠ none := by
  induction r with
  | window items start stop index =>
    have whole : ofBounds items.toList start stop = window items start stop start := by
      obtain ⟨ordered, within⟩ := sound
      rw [ofBounds, Array.length_toList, Nat.min_eq_left within, Nat.min_eq_left ordered, Array.toArray_toList]
    refine .inr ⟨window items start stop start, rfl, ?_, trivial, rfl, by simp [whole?]⟩
    rw [← whole]
    exact .ofBounds _ _ _
  | empty => exact .inr ⟨empty, rfl, .empty, trivial, rfl, by simp [whole?]⟩
  | range low high next? => exact .inr ⟨ofRange low high, rfl, .ofRange low high, plain, rfl, by simp [whole?]⟩
  | cursor => exact .inl ⟨rfl, rfl⟩
  | stream | replay => exact plain.elim
  | lookahead inner peeked? ih => exact ih plain sound.1

/-- A new reader of a sequence that is known gives it. -/
theorem gives_of_whole (opened : r.Opened) (plain : r.Plain) (p : Pool) (h : r.whole? = some xs) :
    r.Gives p xs none := by
  obtain ⟨ys, e?, gives, -, whole⟩ := opened.exists_gives plain p
  obtain ⟨rfl, rfl⟩ := whole xs h
  exact gives

theorem length?_eq (plain : r.Plain) (sound : r.Sound p) : r.length? = r.whole?.map List.length := by
  induction r with
  | window items start stop index =>
    obtain ⟨ordered, within⟩ := sound
    rw [length?, whole?, Option.map_some, Array.length_toList, Array.size_extract, Nat.min_eq_left within]
  | empty | cursor => rfl
  | range low high next? =>
    have told : spanLength low high ≤ maxLength := plain
    rw [length?, whole?, Option.map_some, length_itemsBetween, Nat.min_eq_left told]
  | stream | replay => exact plain.elim
  | lookahead inner peeked? ih => exact ih plain sound.1

theorem whole?_of_items (h : r.items? = some ys) : r.whole? = some ys := by
  induction r with
  | window | empty => exact h
  | range | cursor | stream | replay => cases h
  | lookahead inner peeked? ih => exact ih h

/-! ### What is promised -/

/-- What a reader says of itself holds, where a new reader of its sequence gives `xs` and then `e?`. -/
structure Truthful (r : Reader) (p : Pool) (xs : Sequence) (e? : Option Error) : Prop where
  /-- There is an answer exactly where there is the ability. -/
  looksAhead : (r.hasNext? p).1.isSome = r.abilities.looksAhead
  knowsLength : r.length?.isSome = r.abilities.knowsLength
  hasItems : r.items?.isSome = r.abilities.hasItems
  restarts : (r.fresh? p).1.isSome = r.abilities.restarts
  /-- Who looks ahead says whether the next answer will be an item or an error. -/
  expects : ∀ b, (r.hasNext? p).1 = some b → b = ((r.hasNext? p).2.1.next (r.hasNext? p).2.2).1.isSome
  /-- To look ahead and to peek change nothing for later. -/
  next_hasNext : (r.hasNext? p).2.1.next (r.hasNext? p).2.2 = r.next p
  next_peek : (r.peek p).2.1.next (r.peek p).2.2 = r.next p
  /-- The length and the items are those of the whole sequence, however much of it was read. -/
  length : ∀ n, r.length? = some n → n = xs.length ∧ e? = none
  items : ∀ ys, r.items? = some ys → ys = xs ∧ e? = none
  /-- A new reader gives the whole sequence again. -/
  fresh : ∀ q p', r.fresh? p = (some q, p') → q.Gives p' xs e?

theorem isSome_fresh (plain : r.Plain) (sound : r.Sound p) : (r.fresh? p).1.isSome = r.whole?.isSome := by
  rcases fresh_cases plain sound with ⟨unknown, heq⟩ | ⟨q, heq, -, -, -, known⟩
  · rw [heq, unknown]
    rfl
  · rw [heq, Option.isSome_iff_ne_none.mpr known]
    rfl

theorem isSome_whole (plain : r.Plain) :
    r.whole?.isSome = r.abilities.knowsLength ∧ r.whole?.isSome = r.abilities.restarts := by
  induction r with
  | window | empty | range | cursor => exact ⟨rfl, rfl⟩
  | stream | replay => exact plain.elim
  | lookahead inner peeked? ih => exact ih plain

theorem isSome_items (r : Reader) : r.items?.isSome = r.abilities.hasItems := by
  induction r with
  | window | empty | range | cursor | stream | replay => rfl
  | lookahead inner peeked? ih => exact ih

/-- A reader that keeps its sequence is truthful. -/
theorem truthful (plain : r.Plain) (sound : r.Sound p) (known : ∀ ys, r.whole? = some ys → ys = xs ∧ e? = none) :
    r.Truthful p xs e? where
  looksAhead := by
    cases r with
    | window | empty | range | cursor | lookahead => rfl
    | stream | replay => exact plain.elim
  knowsLength := by rw [length?_eq plain sound, Option.isSome_map, (isSome_whole plain).1]
  hasItems := isSome_items r
  restarts := by rw [isSome_fresh plain sound, (isSome_whole plain).2]
  expects b h := by
    rw [Reader.next_hasNext plain p]
    exact isSome_next_of_hasNext plain sound h
  next_hasNext := Reader.next_hasNext plain p
  next_peek := Reader.next_peek plain p
  length n h := by
    rw [length?_eq plain sound] at h
    obtain ⟨ys, whole, rfl⟩ := Option.map_eq_some_iff.mp h
    obtain ⟨rfl, ended⟩ := known ys whole
    exact ⟨rfl, ended⟩
  items ys h := known ys (whole?_of_items h)
  fresh q p' h := by
    rcases fresh_cases plain sound with ⟨-, heq⟩ | ⟨q', heq, opened, plain', same, some⟩
    · rw [heq] at h
      cases h
    · rw [heq] at h
      cases h
      obtain ⟨ys, whole⟩ := Option.ne_none_iff_exists'.mp some
      obtain ⟨rfl, rfl⟩ := known ys whole
      exact gives_of_whole opened plain' _ (same.trans whole)

/-! ### Shortcuts -/

/-- What all items until the end or an error come to. -/
theorem gatherUpTo_of_gives (h : r.Gives p xs e?) (taken : List Item) {bound : Nat} (enough : xs.length < bound) :
    (gatherUpTo taken bound r p).1 = e?.elim (.ok (taken.reverse ++ xs)) .error := by
  induction h generalizing taken bound with
  | item first rest ih =>
    obtain ⟨bound, rfl⟩ : ∃ bound', bound = bound' + 1 := ⟨bound - 1, by omega⟩
    rw [gatherUpTo, first]
    rw [List.length_cons] at enough
    have fewer : _ < bound := Nat.lt_of_succ_lt_succ enough
    simpa using ih (_ :: taken) fewer
  | failed last | done last =>
    obtain ⟨bound, rfl⟩ : ∃ bound', bound = bound' + 1 := ⟨bound - 1, by omega⟩
    rw [gatherUpTo, last]
    simp

/-- A new reader is used up without shortcuts for all that it gives. -/
theorem gather_eq (gives : r.Gives p xs e?) (enough : xs.length ≤ r.remaining p) :
    (r.gather p).1 = e?.elim (.ok xs) .error := by
  rw [gather, gatherUpTo_of_gives gives [] (Nat.lt_succ_of_le enough)]
  rfl

theorem collect_eq_gather (gathered : (r.gather p).1 = e?.elim (.ok xs) .error) (truthful : r.Truthful p xs e?) :
    (r.collect p).1 = (r.gather p).1 := by
  unfold collect
  cases h : r.items? with
  | none => rfl
  | some ys =>
    obtain ⟨rfl, rfl⟩ := truthful.items ys h
    exact gathered.symm

theorem count_eq_gather (gathered : (r.gather p).1 = e?.elim (.ok xs) .error) (truthful : r.Truthful p xs e?) :
    (r.count p).1 = (r.gather p).1.map List.length := by
  unfold count
  cases h : r.length? with
  | none => rfl
  | some n =>
    obtain ⟨rfl, rfl⟩ := truthful.length n h
    rw [gathered]
    rfl

theorem wholeLength?_eq_gather (plain : r.Plain) (gathered : (r.gather p).1 = e?.elim (.ok xs) .error)
    (truthful : r.Truthful p xs e?) :
    (r.wholeLength? p).1 = if r.abilities.knowsLength || r.abilities.restarts then
      some ((r.gather p).1.map List.length) else none := by
  obtain ⟨knows, restarts⟩ := isSome_whole plain
  have told := truthful.knowsLength
  have new := truthful.restarts
  rw [← restarts, knows, ← told] at new
  rw [← restarts, knows, Bool.or_self, ← told]
  unfold wholeLength?
  cases h : r.length? with
  | none =>
    rw [h] at new
    have none : (r.fresh? p).1 = none := Option.not_isSome_iff_eq_none.mp (by simp [new])
    rw [show r.fresh? p = (Option.none, (r.fresh? p).2) from Prod.ext none rfl]
    rfl
  | some n =>
    obtain ⟨rfl, rfl⟩ := truthful.length n h
    rw [gathered]
    rfl

end Reader

/-! ### Whatever readers are asked for -/

/-- One request to the reader with number `i`, with the answer if it is for the next item; or another reader takes its
place, which looks ahead at it. -/
inductive Session.Serves (s : Session Reader Pool) (i : Nat) : Option Pull → Session Reader Pool → Prop
  | next {r : Reader} : s.readers[i]? = some r →
      Serves s i (some (r.next s.pool).1) ⟨s.readers.set i (r.next s.pool).2.1, (r.next s.pool).2.2⟩
  | hasNext {r : Reader} : s.readers[i]? = some r →
      Serves s i none ⟨s.readers.set i (r.hasNext? s.pool).2.1, (r.hasNext? s.pool).2.2⟩
  | peek {r : Reader} : s.readers[i]? = some r →
      Serves s i none ⟨s.readers.set i (r.peek s.pool).2.1, (r.peek s.pool).2.2⟩
  | fresh {r : Reader} : s.readers[i]? = some r →
      Serves s i none ⟨s.readers ++ (r.fresh? s.pool).1.toList, (r.fresh? s.pool).2⟩
  | lookahead {r : Reader} : s.readers[i]? = some r →
      Serves s i none ⟨s.readers.set i (.lookahead r none), s.pool⟩

/-- Requests one after the other, to any of the readers there are, with what was given and to which reader. -/
inductive Session.Course (start : Session Reader Pool) : List (Nat × Pull) → Session Reader Pool → Prop
  | start : Course start [] start
  | request {s s' : Session Reader Pool} {given : List (Nat × Pull)} {i : Nat} {x? : Option Pull} :
      Course start given s → s.Serves i x? s' → Course start (given ++ x?.toList.map (i, ·)) s'

/-- What the reader with number `i` was given. -/
def givenTo (i : Nat) (given : List (Nat × Pull)) : List Pull := (given.filter (·.1 == i)).map (·.2)

theorem givenTo_append_self (i : Nat) (given : List (Nat × Pull)) (x? : Option Pull) :
    givenTo i (given ++ x?.toList.map (i, ·)) = givenTo i given ++ x?.toList := by
  cases x? <;> simp [givenTo]

theorem givenTo_append_of_ne {i j : Nat} (h : i ≠ j) (given : List (Nat × Pull)) (x? : Option Pull) :
    givenTo j (given ++ x?.toList.map (i, ·)) = givenTo j given := by
  cases x? <;> simp [givenTo, h]

namespace Session

variable {s s' : Session Reader Pool} {p : Pool} {xs : Sequence} {e? : Option Error} {given : List (Nat × Pull)}
  {i : Nat} {x? : Option Pull} {r r' : Reader} {p' : Pool}

/-- What holds of one reader, and of what it was given: that was right, and so is what comes. -/
structure Right (r : Reader) (p : Pool) (xs : Sequence) (e? : Option Error) (pulled : List Pull) : Prop where
  plain : r.Plain
  sound : r.Sound p
  whole : ∀ ys, r.whole? = some ys → ys = xs ∧ e? = none
  given : pulled = (List.range pulled.length).map (Reader.expected xs e?)
  stands : r.StandsAt p xs e? pulled.length

/-- What holds of a session all readers of which go back to one that gives `xs` and then `e?`. -/
structure Faithful (xs : Sequence) (e? : Option Error) (given : List (Nat × Pull)) (s : Session Reader Pool) :
    Prop where
  right : ∀ i r, s.readers[i]? = some r → Right r s.pool xs e? (givenTo i given)
  /-- There is only one reader, or none that changes the pool. -/
  alone : s.readers.length ≤ 1 ∨ ∀ r ∈ s.readers, r.whole? ≠ none
  /-- Nobody else was given anything. -/
  unmade : ∀ i, s.readers.length ≤ i → givenTo i given = []

/-- A request that changes the reader it is made to. -/
theorem Faithful.replace (h : s.Faithful xs e? given) (found : s.readers[i]? = some r)
    (keeps : r.Keeps s.pool r' p') (told : ∀ x, x? = some x → x = Reader.expected xs e? (givenTo i given).length)
    (stands : r'.StandsAt p' xs e? ((givenTo i given).length + x?.toList.length)) :
    Faithful xs e? (given ++ x?.toList.map (i, ·)) ⟨s.readers.set i r', p'⟩ := by
  have here := h.right i r found
  have bound := (List.getElem?_eq_some_iff.mp found).1
  refine ⟨fun j q hq => ?_, ?_, fun j hj => ?_⟩
  · by_cases hij : i = j
    · subst hij
      obtain rfl : r' = q := Option.some.inj ((List.getElem?_set_self bound).symm.trans hq)
      rw [givenTo_append_self]
      refine ⟨keeps.plain, keeps.sound, fun ys hys => here.whole ys (keeps.whole.symm.trans hys), ?_, ?_⟩
      · cases x? with
        | none => simpa using here.given
        | some x =>
          rw [told x rfl, Option.toList_some, List.length_append, List.length_singleton, List.range_succ,
            List.map_append, List.map_singleton, ← here.given]
      · rw [List.length_append]
        exact stands
    · -- Another reader: then there is more than one, and the pool is as it was.
      have there : s.readers[j]? = some q := (List.getElem?_set_ne hij).symm.trans hq
      have hj := (List.getElem?_eq_some_iff.mp there).1
      have known : r.whole? ≠ none := by
        rcases h.alone with one | known
        · omega
        · exact known r (List.mem_of_getElem? found)
      obtain rfl : p' = s.pool := keeps.pool known
      rw [givenTo_append_of_ne hij]
      exact h.right j q there
  · rcases h.alone with one | known
    · exact .inl (by simpa using one)
    · refine .inr fun q hq => ?_
      rcases List.mem_or_eq_of_mem_set hq with hq | rfl
      · exact known q hq
      · rw [keeps.whole]
        exact known r (List.mem_of_getElem? found)
  · have hj : s.readers.length ≤ j := by simpa using hj
    rw [givenTo_append_of_ne (by omega)]
    exact h.unmade j hj

/-- A request that makes a new reader. -/
theorem Faithful.append (h : s.Faithful xs none given) (found : s.readers[i]? = some r) (known : r.whole? ≠ none)
    (plain : r'.Plain) (sound : r'.Sound s.pool) (whole : r'.whole? = some xs) (gives : r'.Gives s.pool xs none) :
    Faithful xs none given ⟨s.readers ++ [r'], s.pool⟩ := by
  have nothing := h.unmade _ (Nat.le_refl _)
  refine ⟨fun j q hq => ?_, .inr fun q hq => ?_, fun j hj => ?_⟩
  · by_cases hj : j < s.readers.length
    · exact h.right j q ((List.getElem?_append_left hj).symm.trans hq)
    · have there := (List.getElem?_eq_some_iff.mp hq).1
      obtain rfl : j = s.readers.length := by
        rw [List.length_append, List.length_singleton] at there
        omega
      obtain rfl : r' = q := by simpa using hq
      rw [nothing]
      refine ⟨plain, sound, fun ys hys => ⟨Option.some.inj (hys.symm.trans whole), rfl⟩, rfl, ?_⟩
      exact gives.standsAt sound
  · rcases List.mem_append.mp hq with hq | hq
    · rcases h.alone with one | all
      · -- The only reader there was is the one that was asked.
        obtain ⟨j, hj, rfl⟩ := List.getElem_of_mem hq
        obtain ⟨hi, rfl⟩ := List.getElem?_eq_some_iff.mp found
        obtain rfl : i = j := by omega
        exact known
      · exact all q hq
    · rw [List.mem_singleton.mp hq, whole]
      exact Option.some_ne_none xs
  · rw [List.length_append] at hj
    exact h.unmade j (by omega)

/-- **One request** leaves everything right. -/
theorem Faithful.serves (h : s.Faithful xs e? given) (served : s.Serves i x? s') :
    s'.Faithful xs e? (given ++ x?.toList.map (i, ·)) := by
  cases served with
  | @next r found =>
    have here := h.right i r found
    obtain ⟨told, rest⟩ := here.stands.next
    exact h.replace found (r.keeps_next here.plain here.sound) (fun x hx => Option.some.inj hx ▸ told) rest
  | @hasNext r found =>
    have here := h.right i r found
    exact h.replace found (r.keeps_hasNext here.plain here.sound) (fun x hx => by cases hx)
      (here.stands.of_next_eq (r.next_hasNext here.plain s.pool))
  | @peek r found =>
    have here := h.right i r found
    exact h.replace found (r.keeps_peek here.plain here.sound) (fun x hx => by cases hx)
      (here.stands.of_next_eq (r.next_peek here.plain s.pool))
  | @lookahead r found =>
    have here := h.right i r found
    exact h.replace found (r.keeps_lookahead here.plain here.sound) (fun x hx => by cases hx) here.stands.lookahead
  | @fresh r found =>
    have here := h.right i r found
    rw [Option.toList_none, List.map_nil, List.append_nil]
    -- A reader that cannot start over leaves the session as it is.
    rcases r.fresh_cases here.plain here.sound with ⟨-, heq⟩ | ⟨q, heq, opened, plain, same, known⟩
    · rw [heq, Option.toList_none, List.append_nil]
      exact h
    · rw [heq, Option.toList_some]
      obtain ⟨ys, whole⟩ := Option.ne_none_iff_exists'.mp known
      obtain ⟨rfl, rfl⟩ := here.whole ys whole
      have again := same.trans whole
      exact h.append found known plain (opened.sound s.pool) again (q.gives_of_whole opened plain s.pool again)

/-- **All requests** leave everything right. -/
theorem Faithful.course {start : Session Reader Pool} (h : start.Faithful xs e? []) (course : start.Course given s) :
    s.Faithful xs e? given := by
  induction course with
  | start => exact h
  | request _ served ih => exact ih.serves served

/-- A new reader alone. -/
theorem faithful_start (opened : r.Opened) (plain : r.Plain) (gives : r.Gives p xs e?)
    (whole : ∀ ys, r.whole? = some ys → xs = ys ∧ e? = none) : Faithful xs e? [] ⟨[r], p⟩ := by
  have sound := opened.sound p
  refine ⟨fun i q hq => ?_, .inl (Nat.le_refl 1), fun i _ => rfl⟩
  obtain rfl := List.mem_singleton.mp (List.mem_of_getElem? hq)
  exact ⟨plain, sound, fun ys hys => (whole ys hys).imp Eq.symm id, rfl, gives.standsAt sound⟩

end Session

namespace Reader

variable {r : Reader}

/-- **Readers keep their promises.**  Take a new reader of an array, of nothing, of a run of integers whose length can
be told, or of a cursor, or one that looks ahead at such a reader.  It gives some items, and then an error or the
end.  Whatever it and the readers that are made from it are asked for, in whatever order, each is given what it would
be given if it were only read, and a new one gives everything again; what a reader says of itself holds; and what uses
a new reader up comes to the same by its shortcut as by reading all items. -/
theorem abilities_truthful (opened : r.Opened) (plain : r.Plain) (p : Pool) :
    ∃ xs e?, r.Gives p xs e? ∧
      (∀ given s, Session.Course ⟨[r], p⟩ given s → ∀ i q, s.readers[i]? = some q →
        (∃ n, givenTo i given = (List.range n).map (expected xs e?) ∧ (q.next s.pool).1 = expected xs e? n) ∧
        q.Truthful s.pool xs e?) ∧
      (r.gather p).1 = e?.elim (.ok xs) .error ∧
      (r.collect p).1 = (r.gather p).1 ∧
      (r.count p).1 = (r.gather p).1.map List.length ∧
      (r.wholeLength? p).1 = if r.abilities.knowsLength || r.abilities.restarts then
        some ((r.gather p).1.map List.length) else none := by
  obtain ⟨xs, e?, gives, length, whole⟩ := opened.exists_gives plain p
  have start := Session.faithful_start opened plain gives whole
  have here := start.right 0 r rfl
  have holds := truthful plain here.sound here.whole
  have gathered := gather_eq gives length
  refine ⟨xs, e?, gives, fun given s course i q hq => ?_, gathered, collect_eq_gather gathered holds,
    count_eq_gather gathered holds, wholeLength?_eq_gather plain gathered holds⟩
  have there := (start.course course).right i q hq
  exact ⟨⟨_, there.given, there.stands.next.1⟩, truthful there.plain there.sound there.whole⟩

/-- Two of three numbers, looked ahead at, and a cursor that fails after one number. -/
theorem abilities_truthful_twoNumbers :
    let number (n : Int64) : Item := .atomic (.integer n)
    let p := Pool.empty.addCursor (.opened [some (.ok (number 1)), some (.error (.of .noOutput))])
    let r := Reader.lookahead (.ofBounds [number 1, number 2, number 3] 1 3) none
    let r' := Reader.lookahead (.cursor 0) none
    (r.Opened ∧ r.Plain ∧ (r.collect p).1 = .ok [number 2, number 3]) ∧
      r'.Opened ∧ r'.Plain ∧ (r'.collect p).1 = .error (.of .noOutput) := by
  intro number p r r'
  have opened : r.Opened := .lookahead (.ofBounds _ 1 3)
  have opened' : r'.Opened := .lookahead (.cursor 0)
  obtain ⟨xs, e?, -, -, -, collected, -⟩ := abilities_truthful opened trivial p
  obtain ⟨xs', e?', -, -, -, collected', -⟩ := abilities_truthful opened' trivial p
  exact ⟨⟨opened, trivial, collected.trans rfl⟩, opened', trivial, collected'.trans rfl⟩

end Reader

end TreeQuery
