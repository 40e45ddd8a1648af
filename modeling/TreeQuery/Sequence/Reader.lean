/-
Readers: sequences that are read step by step.

A `Reader` is a position in a sequence.  Readers of one sequence may share state, which lies in a
`Pool`: a `Cursor` is a resource that items are fetched from and that has to be released, and a
`Replay` keeps what was read from a source that can be read only once, so that several readers can
each see all of it.

Besides taking the next item and closing, a reader may be able to look ahead, to tell the length of
the sequence, to hand over all of it, and to start again; `Reader.abilities` says which.

Design notes: a replay reads from a source that was made before it, and so on; the operations are
therefore defined in two steps, one for the reader itself (`nextWith`), which is told how to read a
source, and one that goes down from replay to replay (`next`).
-/
import TreeQuery.Sequence.Source

namespace TreeQuery

/-- What a reader can do besides being read. -/
structure Abilities where
  /-- To say whether there is a next item. -/
  looksAhead : Bool
  /-- To say how many items the sequence has. -/
  knowsLength : Bool
  /-- To hand over the sequence. -/
  hasItems : Bool
  /-- To start again with a new reader. -/
  restarts : Bool
  deriving DecidableEq, Repr

namespace Abilities

/-- No ability. -/
def none : Abilities := ⟨false, false, false, false⟩

/-- All abilities. -/
def all : Abilities := ⟨true, true, true, true⟩

/-- The abilities as a number. -/
def bits (a : Abilities) : Nat :=
  a.looksAhead.toNat + 2 * a.knowsLength.toNat + 4 * a.hasItems.toNat + 8 * a.restarts.toNat

end Abilities

/-- What comes next: an item, or an error, or the end. -/
abbrev Pull := Option (Except Error Item)

/-- A resource that items are fetched from.  What its owner lets it deliver is fixed in advance. -/
structure Cursor where
  /-- What fetching will give; after that there is nothing. -/
  script : List Pull
  finished : Bool
  /-- How often something was fetched. -/
  fetched : Nat
  /-- How often the resource was released. -/
  released : Nat

namespace Cursor

/-- A cursor that nothing was fetched from. -/
def opened (script : List Pull) : Cursor := ⟨script, false, 0, 0⟩

/-- Releases the resource, unless that was done. -/
def finish (c : Cursor) : Cursor :=
  if c.finished then c else { c with finished := true, released := c.released + 1 }

/-- Fetches what comes next.  At the end, and with an error, the resource is released, and after
that nothing is fetched any more. -/
def next (c : Cursor) : Pull × Cursor :=
  if c.finished then (none, c)
  else
    let c' := { c with script := c.script.tail, fetched := c.fetched + 1 }
    match c.script.head?.join with
    | some (.ok a) => (some (.ok a), c')
    | some (.error e) => (some (.error e), c'.finish)
    | none => (none, c'.finish)

end Cursor

/-- A position in a sequence. -/
inductive Reader where
  /-- The items with numbers from `start` to before `stop`, the next being `index`. -/
  | window (items : Array Item) (start stop index : Nat)
  /-- Nothing. -/
  | empty
  /-- A run of integers. -/
  | range (low high : Int64) (next? : Option Int64)
  /-- The rest of a computation. -/
  | stream (rest : Unit → ItemStream)
  /-- A cursor of the pool. -/
  | cursor (number : Nat)
  /-- Another reader, with what comes next read already if it was asked for. -/
  | lookahead (inner : Reader) (peeked? : Option Pull)
  /-- A replay of the pool. -/
  | replay (number index : Nat) (done : Bool)

/-- What was read from a source, for all who read it. -/
structure Replay (ρ : Type) where
  /-- The source, unless it was closed. -/
  source? : Option ρ
  buffer : Array Item
  failure? : Option Error
  /-- How many readers have not come to their end. -/
  readers : Nat

namespace Replay

/-- A replay of a source that was not read yet, with one reader. -/
def opened {ρ : Type} (source : ρ) : Replay ρ := ⟨some source, #[], none, 1⟩

/-- What becomes of a replay when something was pulled from its source. -/
def entered {ρ : Type} (r : Replay ρ) (source : ρ) : Pull → Replay ρ
  | some (.ok a) => { r with source? := some source, buffer := r.buffer.push a }
  | some (.error e) => { r with source? := some source, failure? := some e }
  | none => { r with source? := some source }

end Replay

/-- The state that readers share. -/
structure Pool where
  cursors : List Cursor
  replays : List (Replay Reader)
  /-- The warnings given while reading. -/
  log : List Warning

namespace Pool

/-- Nothing is shared. -/
def empty : Pool := ⟨[], [], []⟩

/-- Adds a cursor; its number is the number of cursors before. -/
def addCursor (p : Pool) (c : Cursor) : Pool := { p with cursors := p.cursors ++ [c] }

/-- Adds a replay with one reader; its number is the number of replays before. -/
def addReplay (p : Pool) (source : Reader) : Pool :=
  { p with replays := p.replays ++ [.opened source] }

/-- Changes a cursor. -/
def setCursor (p : Pool) (number : Nat) (c : Cursor) : Pool :=
  { p with cursors := p.cursors.set number c }

/-- Changes a replay. -/
def setReplay (p : Pool) (number : Nat) (r : Replay Reader) : Pool :=
  { p with replays := p.replays.set number r }

/-- Adds warnings. -/
def warn (p : Pool) (log : List Warning) : Pool := { p with log := p.log ++ log }

end Pool

/-- How to read and how to close the source of a replay. -/
structure SourceAccess where
  next : Reader → Pool → Pull × Reader × Pool
  close : Reader → Pool → Reader × Pool

namespace SourceAccess

/-- There are no sources. -/
def none : SourceAccess := ⟨fun r p => (.none, r, p), fun r p => (r, p)⟩

end SourceAccess

namespace Replay

/-- Closes the source, unless that was done. -/
def release (access : SourceAccess) (number : Nat) (p : Pool) : Pool :=
  match p.replays[number]? with
  | some r =>
    match r.source? with
    | some source =>
      let (_, p') := access.close source (p.setReplay number { r with source? := none })
      p'
    | none => p
  | none => p

/-- Reads at most `count` items from the source into the buffer. -/
def fill (access : SourceAccess) (number : Nat) : Nat → Pool → Pool
  | 0, p => p
  | count + 1, p =>
    match p.replays[number]? with
    | none => p
    | some r =>
      match r.source? with
      | none => p
      | some source =>
        let (pulled, source', p') := access.next source p
        let p'' := p'.setReplay number (r.entered source' pulled)
        match pulled with
        | some (.ok _) => fill access number count p''
        | _ => release access number p''

/-- Reads from the source until the item with the given index is in the buffer, if there is one. -/
def fillTo (access : SourceAccess) (number index : Nat) (p : Pool) : Pool :=
  match p.replays[number]? with
  | some r => fill access number (index + 1 - r.buffer.size) p
  | none => p

/-- One reader less; the last one closes the source. -/
def leave (access : SourceAccess) (number : Nat) (p : Pool) : Pool :=
  match p.replays[number]? with
  | some r =>
    let p' := p.setReplay number { r with readers := r.readers - 1 }
    if r.readers - 1 = 0 then release access number p' else p'
  | none => p

end Replay

namespace Reader

/-! ### Making readers -/

/-- A reader of a list. -/
def ofList (items : Sequence) : Reader := .window items.toArray 0 items.length 0

/-- A reader of a part of a list, with bounds that are cut to its length. -/
def ofBounds (items : Sequence) (start stop : Nat) : Reader :=
  let stop := min stop items.length
  let start := min start stop
  .window items.toArray start stop start

/-- A reader of a run of integers. -/
def ofRange (low high : Int64) : Reader :=
  .range low high (if low ≤ high then some low else none)

/-- A reader of a source. -/
def ofSource : Source → Reader
  | .items [] => .empty
  | .items xs => ofList xs
  | .range low high => ofRange low high
  | .stream s => .stream s

/-! ### What a reader tells without being read -/

/-- What a reader can do besides being read. -/
def abilities : Reader → Abilities
  | window .. => .all
  | empty => .all
  | range .. => ⟨true, true, false, true⟩
  | stream _ => .none
  | cursor _ => .none
  | lookahead inner _ => { inner.abilities with looksAhead := true }
  | replay .. => ⟨true, false, false, true⟩

/-- The length of the whole sequence. -/
def length? : Reader → Option Nat
  | window _ start stop _ => some (stop - start)
  | empty => some 0
  | range low high _ => some (min (spanLength low high) maxLength)
  | lookahead inner _ => inner.length?
  | _ => none

/-- The whole sequence. -/
def items? : Reader → Option Sequence
  | window items start stop _ => some (items.extract start stop).toList
  | empty => some []
  | lookahead inner _ => inner.items?
  | _ => none

/-- The first and the last but one number of a window. -/
def bounds? : Reader → Option (Nat × Nat)
  | window _ start stop _ => some (start, stop)
  | _ => none

/-- A window on the positions from `least` to `greatest` of a window, counted from 1; nothing if no
position is left.  Everything is counted in 64 bits: a number that they do not hold becomes the nearest one
that they hold, and what lies outside of the window is moved to its nearer end. -/
def slice? (least greatest : Int64) : Reader → Option Reader
  | window items start stop _ =>
    let first := nearestInt64 start
    let last := nearestInt64 stop
    let before := nearestInt64 ((nearestInt64 (first.toInt + least.toInt)).toInt - 1)
    let low := clampInt64 first last before
    let high := clampInt64 first last (nearestInt64 (first.toInt + greatest.toInt))
    if low < high then
      some (.window items low.toUInt64.toNat high.toUInt64.toNat low.toUInt64.toNat)
    else none
  | _ => none

/-- What is cut out of a window lies within it, and is not empty. -/
theorem exists_of_slice?_window {items : Array Item} {start stop index : Nat} {least greatest : Int64}
    {r : Reader} (ordered : start ≤ stop)
    (h : (window items start stop index).slice? least greatest = some r) :
    ∃ low high, r = .window items low high low ∧ start ≤ low ∧ low < high ∧ high ≤ stop := by
  have first := toInt_nearestInt64 start
  have last := toInt_nearestInt64 stop
  have bounds : (nearestInt64 start).toInt ≤ (nearestInt64 stop).toInt := by omega
  have inside := toInt_clampInt64 bounds
  simp only [slice?] at h
  split at h
  case isFalse => cases h
  case isTrue nonempty =>
    cases h
    rw [Int64.lt_iff_toInt_lt, inside, inside] at nonempty
    have low := toNat_toUInt64 (n := clampInt64 (nearestInt64 start) (nearestInt64 stop)
      (nearestInt64 ((nearestInt64 ((nearestInt64 start).toInt + least.toInt)).toInt - 1)))
    have high := toNat_toUInt64 (n := clampInt64 (nearestInt64 start) (nearestInt64 stop)
      (nearestInt64 ((nearestInt64 start).toInt + greatest.toInt)))
    rw [inside] at low high
    exact ⟨_, _, rfl, by omega, by omega, by omega⟩

/-- A reader of the positions from `least` to `greatest` of a window. -/
def slice (least greatest : Int64) (r : Reader) : Reader := (r.slice? least greatest).getD .empty

/-! ### Reading -/

/-- What comes next in a stream that was pulled, and what comes after that. -/
def pulledFrom (x : Eval (Option (Item × (Unit → ItemStream)))) : Pull × (Unit → ItemStream) :=
  match x.outcome with
  | .ok none => (none, fun _ => .done)
  | .ok (some (a, rest)) => (some (.ok a), rest)
  | .error e => (some (.error e), fun _ => .done)

/-- Takes what comes next, where `access` reads the sources of replays. -/
def nextWith (access : SourceAccess) : Reader → Pool → Pull × Reader × Pool
  | window items start stop index, p =>
    if index < stop then
      match items[index]? with
      | some a => (some (.ok a), .window items start stop (index + 1), p)
      | none => (none, .window items start stop index, p)
    else (none, .window items start stop index, p)
  | empty, p => (none, .empty, p)
  | range low high none, p => (none, .range low high none, p)
  | range low high (some n), p =>
    let next? := if n < high then some (n + 1) else none
    (some (.ok (.atomic (.integer n))), .range low high next?, p)
  | stream rest, p =>
    let x := (rest ()).next?
    let (pulled, rest') := pulledFrom x
    (pulled, .stream rest', p.warn x.log)
  | cursor number, p =>
    match p.cursors[number]? with
    | some c =>
      let (pulled, c') := c.next
      (pulled, .cursor number, p.setCursor number c')
    | none => (none, .cursor number, p)
  | lookahead inner (some pulled), p => (pulled, .lookahead inner none, p)
  | lookahead inner none, p =>
    let (pulled, inner', p') := nextWith access inner p
    (pulled, .lookahead inner' none, p')
  | replay number index true, p => (none, .replay number index true, p)
  | replay number index false, p =>
    let p' := Replay.fillTo access number index p
    match p'.replays[number]? with
    | none => (none, .replay number index true, p')
    | some r =>
      match r.buffer[index]? with
      | some a => (some (.ok a), .replay number (index + 1) false, p')
      | none =>
        (r.failure?.map .error, .replay number index true, Replay.leave access number p')

/-- Closes a reader, where `access` closes the sources of replays. -/
def closeWith (access : SourceAccess) : Reader → Pool → Reader × Pool
  | window items start stop _, p => (.window items start stop stop, p)
  | empty, p => (.empty, p)
  | range low high _, p => (.range low high none, p)
  | stream _, p => (.stream fun _ => .done, p)
  | cursor number, p =>
    match p.cursors[number]? with
    | some c => (.cursor number, p.setCursor number c.finish)
    | none => (.cursor number, p)
  | lookahead inner _, p =>
    let (inner', p') := closeWith access inner p
    (.lookahead inner' (some none), p')
  | replay number index true, p => (.replay number index true, p)
  | replay number index false, p => (.replay number index true, Replay.leave access number p)

/-- How to read and to close sources of replays that are nested at most so deep. -/
def accessWithin : Nat → SourceAccess
  | 0 => .none
  | depth + 1 => ⟨nextWith (accessWithin depth), closeWith (accessWithin depth)⟩

/-- How to read and to close the sources of the replays of a pool. -/
def access (p : Pool) : SourceAccess := accessWithin p.replays.length

/-- Takes what comes next. -/
def next (r : Reader) (p : Pool) : Pull × Reader × Pool := r.nextWith (access p) p

/-- Closes a reader: nothing comes any more, and what it alone uses is released. -/
def close (r : Reader) (p : Pool) : Reader × Pool := r.closeWith (access p) p

/-- Says what comes next without taking it, for readers that look ahead. -/
def peek (r : Reader) (p : Pool) : Pull × Reader × Pool :=
  match r with
  | lookahead inner none =>
    let (pulled, inner', p') := inner.next p
    (pulled, .lookahead inner' (some pulled), p')
  | lookahead inner (some pulled) => (pulled, .lookahead inner (some pulled), p)
  | r => (none, r, p)

/-- Says whether something comes next, be it an item or an error, for readers that can say so. -/
def hasNext? (r : Reader) (p : Pool) : Option Bool × Reader × Pool :=
  match r with
  | window items start stop index => (some (index < stop), .window items start stop index, p)
  | empty => (some false, .empty, p)
  | range low high next? => (some next?.isSome, .range low high next?, p)
  | lookahead inner peeked? =>
    let (pulled, r', p') := peek (.lookahead inner peeked?) p
    (some pulled.isSome, r', p')
  | replay number index true => (some false, .replay number index true, p)
  | replay number index false =>
    let p' := Replay.fillTo (access p) number index p
    (p'.replays[number]?.map fun r => index < r.buffer.size || r.failure?.isSome,
      .replay number index false, p')
  | r => (none, r, p)

/-- A new reader of the same sequence, before its first item, for sequences that can be read
again. -/
def fresh? (r : Reader) (p : Pool) : Option Reader × Pool :=
  match r with
  | window items start stop _ => (some (.window items start stop start), p)
  | empty => (some .empty, p)
  | range low high _ => (some (ofRange low high), p)
  | lookahead inner _ => fresh? inner p
  | replay number _ _ =>
    match p.replays[number]? with
    | some r =>
      (some (.replay number 0 false), p.setReplay number { r with readers := r.readers + 1 })
    | none => (none, p)
  | _ => (none, p)

/-! ### Reading to the end -/

/-- A number that is not less than how often something can still be taken, where `below` says so of
the sources of replays. -/
def remainingWith (below : Reader → Pool → Nat) : Reader → Pool → Nat
  | window _ _ stop index, _ => stop - index
  | empty, _ => 0
  | range _ _ none, _ => 0
  | range _ high (some n), _ => spanLength n high
  | stream rest, _ => (rest ()).lengthFrom 0
  | cursor number, p => ((p.cursors[number]?).map (·.script.length)).getD 0
  | lookahead inner _, p => remainingWith below inner p + 1
  | replay number _ _, p =>
    match p.replays[number]? with
    | some r => r.buffer.size + ((r.source?.map fun s => below s p).getD 0) + 1
    | none => 0

/-- A number that is not less than how often something can still be taken, for replays that are
nested at most so deep. -/
def remainingWithin : Nat → Reader → Pool → Nat
  | 0 => remainingWith fun _ _ => 0
  | depth + 1 => remainingWith (remainingWithin depth)

/-- A number that is not less than how often something can still be taken. -/
def remaining (r : Reader) (p : Pool) : Nat := remainingWithin p.replays.length r p

/-- Takes what comes next until the end, at most `bound` times; `taken` was taken before, the latest
first. -/
def drainUpTo (taken : List (Except Error Item)) :
    Nat → Reader → Pool → List (Except Error Item) × Reader × Pool
  | 0, r, p => (taken.reverse, r, p)
  | bound + 1, r, p =>
    match r.next p with
    | (none, r', p') => (taken.reverse, r', p')
    | (some pulled, r', p') => drainUpTo (pulled :: taken) bound r' p'

/-- Takes what comes next, at most `bound` times, until the end or an error, which is kept; `taken`
was taken before, the latest first.  The number is how often more it may still be asked. -/
def takeUpTo (taken : List (Except Error Item)) :
    Nat → Reader → Pool → List (Except Error Item) × Nat × Reader × Pool
  | 0, r, p => (taken.reverse, 0, r, p)
  | bound + 1, r, p =>
    match r.next p with
    | (none, r', p') => (taken.reverse, bound, r', p')
    | (some (.ok a), r', p') => takeUpTo (.ok a :: taken) bound r' p'
    | (some (.error e), r', p') => ((.error e :: taken).reverse, bound, r', p')

/-- Takes everything that is left, errors included. -/
def drain (r : Reader) (p : Pool) : List (Except Error Item) × Reader × Pool :=
  drainUpTo [] (r.remaining p + 1) r p

/-- Takes items until the end, at most `bound` times; an error closes the reader. -/
def gatherUpTo (taken : List Item) : Nat → Reader → Pool → Except Error Sequence × Pool
  | 0, _, p => (.ok taken.reverse, p)
  | bound + 1, r, p =>
    match r.next p with
    | (none, _, p') => (.ok taken.reverse, p')
    | (some (.ok a), r', p') => gatherUpTo (a :: taken) bound r' p'
    | (some (.error e), r', p') => (.error e, (r'.close p').2)

/-- Takes all items that are left. -/
def gather (r : Reader) (p : Pool) : Except Error Sequence × Pool :=
  gatherUpTo [] (r.remaining p + 1) r p

/-- Uses a reader up for the items of its sequence: those of the whole sequence if they are at hand,
and otherwise those that are left. -/
def collect (r : Reader) (p : Pool) : Except Error Sequence × Pool :=
  match r.items? with
  | some xs => (.ok xs, (r.close p).2)
  | none => r.gather p

/-- Uses a reader up for the length of its sequence: that of the whole sequence if it is known, and
otherwise the number of items that are left. -/
def count (r : Reader) (p : Pool) : Except Error Nat × Pool :=
  match r.length? with
  | some n => (.ok n, (r.close p).2)
  | none =>
    let (xs, p') := r.gather p
    (xs.map List.length, p')

/-- Uses a reader up for the item that comes next. -/
def first? (r : Reader) (p : Pool) : Except Error (Option Item) × Pool :=
  let (pulled, r', p') := r.next p
  let (_, p'') := r'.close p'
  match pulled with
  | none => (.ok none, p'')
  | some (.ok a) => (.ok (some a), p'')
  | some (.error e) => (.error e, p'')

/-- The length of the whole sequence, which another reader counts if it is not known otherwise. -/
def wholeLength? (r : Reader) (p : Pool) : Option (Except Error Nat) × Pool :=
  match r.length? with
  | some n => (some (.ok n), p)
  | none =>
    match r.fresh? p with
    | (some r', p') =>
      let (n, p'') := r'.count p'
      (some n, p'')
    | (none, p') => (none, p')

end Reader

end TreeQuery
