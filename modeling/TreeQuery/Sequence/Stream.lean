/-
Streams of items, and evaluation steps.

An `Eval` is the outcome of a step of evaluation: a value or an error, together with the warnings
that were given on the way.  An `ItemStream` is the rest of a sequence that is still being computed: it
has ended, or has failed, or goes on with an item, or with a warning.  What comes after an item is
computed only when it is asked for.

Main statements:

* `ItemStream.drain_ofList` — a list comes back as it is;
* `ItemStream.drain_ofEval` — a stream that has to be computed first gives the items and warnings of
  computing it and then pulling it;
* `ItemStream.drain_append` — two streams one after the other give the items of the first and then
  those of the second, and the second counts only if the first does not fail.

Design notes: a stream is a value, not a process, so nothing can be taken from it twice, and after
its end or a failure there is nothing left.  Warnings are part of the stream because they are given
when the place where they arise is reached, not before.
-/
import TreeQuery.Error
import TreeQuery.Sequence.Item

namespace TreeQuery

/-- Two rules of equal rank match the same item: the mode, the number of the rule that was taken
and the number of the other. -/
structure Warning where
  mode : ModeName
  chosen : Nat
  other : Nat
  deriving DecidableEq, Repr

/-- The outcome of a step of evaluation, and the warnings given on the way. -/
structure Eval (α : Type) where
  log : List Warning
  outcome : Except Error α

namespace Eval

/-- Nothing but an error. -/
def fail {α : Type} (e : Error) : Eval α := ⟨[], .error e⟩

/-- Nothing but a warning. -/
def warn (w : Warning) : Eval Unit := ⟨[w], .ok ()⟩

/-- An outcome without warnings. -/
def ofExcept {α : Type} (r : Except Error α) : Eval α := ⟨[], r⟩

instance : Monad Eval where
  pure a := ⟨[], .ok a⟩
  bind x f :=
    match x.outcome with
    | .ok a =>
      let y := f a
      ⟨x.log ++ y.log, y.outcome⟩
    | .error e => ⟨x.log, .error e⟩

/-- Attaches a place to the error, if there is one. -/
def located {α : Type} (l : Location) (x : Eval α) : Eval α :=
  ⟨x.log, x.outcome.mapError (·.located l)⟩

@[simp] theorem pure_def {α : Type} (a : α) : (pure a : Eval α) = ⟨[], .ok a⟩ := rfl

@[simp] theorem bind_ok {α β : Type} (log : List Warning) (a : α) (f : α → Eval β) :
    ((⟨log, .ok a⟩ : Eval α) >>= f) = ⟨log ++ (f a).log, (f a).outcome⟩ := rfl

@[simp] theorem bind_error {α β : Type} (log : List Warning) (e : Error) (f : α → Eval β) :
    ((⟨log, .error e⟩ : Eval α) >>= f) = ⟨log, .error e⟩ := rfl

end Eval

/-- The rest of a sequence. -/
inductive ItemStream where
  | done
  | failed (e : Error)
  | item (a : Item) (rest : Unit → ItemStream)
  | warned (w : Warning) (rest : Unit → ItemStream)

namespace ItemStream

instance : Inhabited ItemStream := ⟨.done⟩

/-- The items of a list. -/
def ofList : List Item → ItemStream
  | [] => .done
  | a :: as => .item a fun _ => ofList as

/-- A run of `count` integers from `start` on. -/
def integers (start : Int) : Nat → ItemStream
  | 0 => .done
  | count + 1 => .item (.atomic (.integer (Int64.ofInt start))) fun _ => integers (start + 1) count

/-- Gives warnings before the first item, which is computed after them. -/
def warnAll (s : Unit → ItemStream) : List Warning → ItemStream
  | [] => s ()
  | w :: ws => .warned w fun _ => warnAll s ws

/-- A stream that has to be computed first. -/
def ofEval (x : Eval ItemStream) : ItemStream :=
  let s :=
    match x.outcome with
    | .ok s => s
    | .error e => .failed e
  warnAll (fun _ => s) x.log

/-- One stream after another; the second is not looked at before the first has ended. -/
def append (s : ItemStream) (next : Unit → ItemStream) : ItemStream :=
  match s with
  | .done => next ()
  | .failed e => .failed e
  | .item a rest => .item a fun u => append (rest u) next
  | .warned w rest => .warned w fun u => append (rest u) next

/-- Replaces every item by a stream, which may depend on the number of items before it.  The stream
for an item is computed when it is reached, and a failure of the source is changed by `onFailure`.
Items that are replaced by nothing are passed over in a loop. -/
def expand (onFailure : Error → Error) (f : Nat → Item → ItemStream) (before : Nat) :
    ItemStream → ItemStream
  | .done => .done
  | .failed e => .failed (onFailure e)
  | .item a rest =>
    match f before a with
    | .done => expand onFailure f (before + 1) (rest ())
    | s => append s fun u => expand onFailure f (before + 1) (rest u)
  | .warned w rest => .warned w fun u => expand onFailure f before (rest u)

/-- Keeps the items for which `keep` holds; it is asked when the item is reached and may depend on
the number of items before it.  Its error ends the stream. -/
def filter (keep : Nat → Item → Eval Bool) (before : Nat) : ItemStream → ItemStream
  | .done => .done
  | .failed e => .failed e
  | .item a rest =>
    match keep before a with
    | ⟨log, .ok true⟩ => warnAll (fun _ => .item a fun u => filter keep (before + 1) (rest u)) log
    | ⟨[], .ok false⟩ => filter keep (before + 1) (rest ())
    | ⟨log, .ok false⟩ => warnAll (fun _ => filter keep (before + 1) (rest ())) log
    | ⟨log, .error e⟩ => warnAll (fun _ => .failed e) log
  | .warned w rest => .warned w fun u => filter keep before (rest u)

/-- Changes the error in which a stream ends, if it does. -/
def mapFailure (g : Error → Error) : ItemStream → ItemStream
  | .done => .done
  | .failed e => .failed (g e)
  | .item a rest => .item a fun u => mapFailure g (rest u)
  | .warned w rest => .warned w fun u => mapFailure g (rest u)

/-- Passes the items with numbers from `low` to `high` on, counted from 1, where fewer than `high`
items have been passed over before.  Nothing after item `high` is looked at. -/
def betweenFrom (low high : Int) (before : Nat) : ItemStream → ItemStream
  | .done => .done
  | .failed e => .failed e
  | .item a rest =>
    if low ≤ before + 1 then
      .item a fun u =>
        if high ≤ before + 1 then .done else betweenFrom low high (before + 1) (rest u)
    else if high ≤ before + 1 then .done
    else betweenFrom low high (before + 1) (rest ())
  | .warned w rest => .warned w fun u => betweenFrom low high before (rest u)

/-- The items with numbers from `low` to `high`, counted from 1; the stream is not looked at if there
are none. -/
def between (low high : Int) (s : Unit → ItemStream) : ItemStream :=
  if high ≤ 0 then .done else betweenFrom low high 0 (s ())

/-- Passes items on while the required cardinality admits their number so far, and fails with the
first item that it does not admit, or at the end if there was no item and one is needed.  `count`
items have been passed on before. -/
def check (required : Cardinality) (l : Location) (count : Nat) : ItemStream → ItemStream
  | .done =>
    if count = 0 ∧ required.zero = false then .failed ((Error.of .emptyNotAllowed).located l)
    else .done
  | .failed e => .failed e
  | .item a rest =>
    if required.admits (count + 1) then .item a fun u => check required l (count + 1) (rest u)
    else .failed ((Error.of (.tooMany count)).located l)
  | .warned w rest => .warned w fun u => check required l count (rest u)

/-- Takes the next item, with what comes after it still to be computed. -/
def next? : ItemStream → Eval (Option (Item × (Unit → ItemStream)))
  | .done => pure none
  | .failed e => .fail e
  | .item a rest => pure (some (a, rest))
  | .warned w rest =>
    let x := next? (rest ())
    ⟨w :: x.log, x.outcome⟩

/-- Pulls what is left, after the items `taken` (the last of them first) and the warnings `log`
(likewise). -/
def drainFrom (taken : List Item) (log : List Warning) : ItemStream → Eval (List Item)
  | .done => ⟨log.reverse, .ok taken.reverse⟩
  | .failed e => ⟨log.reverse, .error e⟩
  | .item a rest => drainFrom (a :: taken) log (rest ())
  | .warned w rest => drainFrom taken (w :: log) (rest ())

/-- Pulls a whole stream. -/
def drain (s : ItemStream) : Eval (List Item) := drainFrom [] [] s

theorem drainFrom_eq (taken : List Item) (log : List Warning) (s : ItemStream) :
    drainFrom taken log s =
      ⟨log.reverse ++ (drain s).log, (drain s).outcome.map (taken.reverse ++ ·)⟩ := by
  induction s generalizing taken log with
  | done => simp [drain, drainFrom, Except.map]
  | failed e => simp [drain, drainFrom, Except.map]
  | item a rest ih =>
    simp only [drain, drainFrom]
    rw [ih, ih () [a]]
    cases h : (drain (rest ())).outcome <;> simp [Except.map]
  | warned w rest ih =>
    simp only [drain, drainFrom]
    rw [ih, ih () [] [w]]
    cases h : (drain (rest ())).outcome <;> simp [Except.map]

@[simp] theorem drain_done : drain .done = ⟨[], .ok []⟩ := rfl

@[simp] theorem drain_failed (e : Error) : drain (.failed e) = ⟨[], .error e⟩ := rfl

@[simp] theorem drain_item (a : Item) (rest : Unit → ItemStream) :
    drain (.item a rest) = ⟨(drain (rest ())).log, (drain (rest ())).outcome.map (a :: ·)⟩ := by
  rw [drain, drainFrom, drainFrom_eq]
  simp

@[simp] theorem drain_warned (w : Warning) (rest : Unit → ItemStream) :
    drain (.warned w rest) = ⟨w :: (drain (rest ())).log, (drain (rest ())).outcome⟩ := by
  rw [drain, drainFrom, drainFrom_eq]
  cases h : (drain (rest ())).outcome <;> simp [Except.map]

@[simp] theorem drain_ofList (as : List Item) : drain (ofList as) = ⟨[], .ok as⟩ := by
  induction as with
  | nil => rfl
  | cons a as ih => simp [ofList, ih, Except.map]

@[simp] theorem drain_warnAll (s : Unit → ItemStream) (log : List Warning) :
    drain (warnAll s log) = ⟨log ++ (drain (s ())).log, (drain (s ())).outcome⟩ := by
  induction log with
  | nil => rfl
  | cons w log ih => simp [warnAll, ih]

theorem drain_ofEval (x : Eval ItemStream) : drain (ofEval x) = x >>= drain := by
  rcases x with ⟨log, _ | s⟩ <;> simp [ofEval]

theorem drain_append (s : ItemStream) (next : Unit → ItemStream) :
    drain (append s next) = (do
      let xs ← drain s
      let ys ← drain (next ())
      return xs ++ ys) := by
  induction s with
  | done => rcases h : drain (next ()) with ⟨log, _ | ys⟩ <;> simp [append, bind, h]
  | failed e => rfl
  | item a rest ih =>
    simp only [append, drain_item, ih]
    cases h : (drain (rest ())).outcome with
    | error e => simp [bind, Except.map, h]
    | ok xs => cases h' : (drain (next ())).outcome <;> simp [bind, Except.map, h, h']
  | warned w rest ih =>
    simp only [append, drain_warned, ih]
    cases h : (drain (rest ())).outcome with
    | error e => simp [bind, h]
    | ok xs => cases h' : (drain (next ())).outcome <;> simp [bind, h, h']

/-- Counts what is left, after `n` items. -/
def countFrom (n : Nat) (log : List Warning) : ItemStream → Eval Nat
  | .done => ⟨log.reverse, .ok n⟩
  | .failed e => ⟨log.reverse, .error e⟩
  | .item _ rest => countFrom (n + 1) log (rest ())
  | .warned w rest => countFrom n (w :: log) (rest ())

/-- The number of items that come before the end or a failure, and one for a failure, after `n`. -/
def lengthFrom (n : Nat) : ItemStream → Nat
  | .done => n
  | .failed _ => n + 1
  | .item _ rest => lengthFrom (n + 1) (rest ())
  | .warned _ rest => lengthFrom n (rest ())

end ItemStream

end TreeQuery
