/-
Traversals: the results of expressions, read step by step.

A `Traversal` is a machine that hands out what an expression gives, one item at a time.  It keeps what
it reads from, how far it has come, and whether it has finished; what comes next is computed when it is
asked for.  `Expr.traverse` makes the machine for an expression, `Traversal.next` takes a step, and
`Traversal.close` stops it.

Traversals can also be read ahead and replayed, and they can read from any reader; replays of
traversals are kept in a `Workspace`, beside the pool of the readers.

Design notes: a machine that is in the middle of the result for one item (`within`, `part`) has a
constructor of its own, since it has not finished.  Before a machine answers it may have to ask
another one (`asks?`), and it takes any number of turns (`act`, `react`), each of which ends in an answer
or in a state from which it goes on.  `nextWithin` drives this for a number of turns; `next` is what it
comes to, and has no value where no answer would ever come.
-/
import TreeQuery.Expr.Evaluate
import TreeQuery.Sequence.Reader

namespace TreeQuery

open Classical in
/-- What approximations come to, if some of them has a value. -/
noncomputable def limit {α : Type} (approximation : Nat → Option α) : Option α :=
  if h : ∃ n a, approximation n = some a then some h.choose_spec.choose else none

/-- What comes in the place of an item: the results of a step from it, or those of a body with a
variable that stands for it. -/
inductive Expansion where
  | path (l : Location) (size? : Option Nat) (step : Expr) (c : Context)
  | forIn (slot : Nat) (body : Expr) (c : Context)

/-- A machine that hands out items. -/
inductive Traversal where
  /-- A reader. -/
  | reader (r : Reader)
  /-- Another traversal, with what comes next read already if it was asked for. -/
  | lookahead (inner : Traversal) (peeked? : Option Pull)
  /-- A replay of the workspace. -/
  | replay (number index : Nat) (done : Bool)
  /-- The nodes of a walk that pass a test. -/
  | axis (f : Forest) (test : NodeTest) (walk? : Option (Unit → ItemStream))
  /-- The results for every item of a source, one after the other, when none of them is being read;
  `position` items were taken from the source. -/
  | expand (how : Expansion) (source : Traversal) (position : Nat) (finished : Bool)
  /-- The same in the middle of the results for an item. -/
  | within (how : Expansion) (source : Traversal) (position : Nat) (current : Traversal)
  /-- The results of several parts, one after the other, when none of them is being read. -/
  | concat (parts : List Expr) (c : Context) (finished : Bool)
  /-- The same in the middle of a part. -/
  | part (parts : List Expr) (c : Context) (current : Traversal)
  /-- The items for which a predicate holds. -/
  | filter (predicate : Expr) (c : Context) (size? : Option Nat) (l : Location) (base : Traversal)
    (position : Nat) (finished : Bool)
  /-- The atomic values of the items, with those of a node that are still to come. -/
  | atomize (f : Forest) (inner : Traversal) (pending : List Value) (finished : Bool)
  /-- The items, untyped values converted. -/
  | convert (target : AtomicType) (conversion : Conversion) (inner : Traversal) (finished : Bool)
  /-- The items, if their number is a required one. -/
  | check (required : Cardinality) (l : Location) (inner : Traversal) (count : Nat) (finished : Bool)
  /-- The items at positions from `low` to `high`. -/
  | between (low high : Int) (inner : Traversal) (position : Nat) (finished : Bool)

/-- The state that traversals share: the pool of the readers, and replays of traversals. -/
structure Workspace where
  pool : Pool
  replays : List (Replay Traversal)

namespace Workspace

/-- Nothing is shared but a pool. -/
def ofPool (p : Pool) : Workspace := ⟨p, []⟩

/-- Adds a replay with one reader; its number is the number of replays before. -/
def addReplay (q : Workspace) (source : Traversal) : Workspace :=
  { q with replays := q.replays ++ [.opened source] }

/-- Changes a replay. -/
def setReplay (q : Workspace) (number : Nat) (r : Replay Traversal) : Workspace :=
  { q with replays := q.replays.set number r }

/-- Adds warnings. -/
def warn (q : Workspace) (log : List Warning) : Workspace := { q with pool := q.pool.warn log }

end Workspace

namespace Traversal

/-! ### Closing -/

/-- Closes the source of a replay, unless that was done. -/
def releaseWith (closeSource : Traversal → Workspace → Workspace) (number : Nat) (q : Workspace) :
    Workspace :=
  match q.replays[number]? with
  | some r =>
    match r.source? with
    | some source => closeSource source (q.setReplay number { r with source? := none })
    | none => q
  | none => q

/-- One reader of a replay less; the last one closes the source. -/
def leaveWith (closeSource : Traversal → Workspace → Workspace) (number : Nat) (q : Workspace) :
    Workspace :=
  match q.replays[number]? with
  | some r =>
    let q' := q.setReplay number { r with readers := r.readers - 1 }
    if r.readers - 1 = 0 then releaseWith closeSource number q' else q'
  | none => q

/-- Closes a traversal, where `closeSource` closes the sources of replays. -/
def closeWith (closeSource : Traversal → Workspace → Workspace) :
    Traversal → Workspace → Traversal × Workspace
  | reader r, q =>
    let (r', p') := r.close q.pool
    (.reader r', { q with pool := p' })
  | lookahead inner _, q =>
    let (inner', q') := closeWith closeSource inner q
    (.lookahead inner' (some none), q')
  | replay number index true, q => (.replay number index true, q)
  | replay number index false, q => (.replay number index true, leaveWith closeSource number q)
  | axis f test _, q => (.axis f test none, q)
  | expand how source position true, q => (.expand how source position true, q)
  | expand how source position false, q =>
    let (source', q') := closeWith closeSource source q
    (.expand how source' position true, q')
  | within how source position current, q =>
    let (_, q') := closeWith closeSource current q
    let (source', q'') := closeWith closeSource source q'
    (.expand how source' position true, q'')
  | concat parts c _, q => (.concat parts c true, q)
  | part parts c current, q =>
    let (_, q') := closeWith closeSource current q
    (.concat parts c true, q')
  | filter predicate c size? l base position true, q =>
    (.filter predicate c size? l base position true, q)
  | filter predicate c size? l base position false, q =>
    let (base', q') := closeWith closeSource base q
    (.filter predicate c size? l base' position true, q')
  | atomize f inner pending true, q => (.atomize f inner pending true, q)
  | atomize f inner _ false, q =>
    let (inner', q') := closeWith closeSource inner q
    (.atomize f inner' [] true, q')
  | convert target conversion inner true, q => (.convert target conversion inner true, q)
  | convert target conversion inner false, q =>
    let (inner', q') := closeWith closeSource inner q
    (.convert target conversion inner' true, q')
  | check required l inner count true, q => (.check required l inner count true, q)
  | check required l inner count false, q =>
    let (inner', q') := closeWith closeSource inner q
    (.check required l inner' count true, q')
  | between low high inner position true, q => (.between low high inner position true, q)
  | between low high inner position false, q =>
    let (inner', q') := closeWith closeSource inner q
    (.between low high inner' position true, q')

/-- Closes the source of a replay, for replays that are nested at most so deep. -/
def closeWithin : Nat → Traversal → Workspace → Workspace
  | 0, _, q => q
  | depth + 1, t, q => (closeWith (closeWithin depth) t q).2

/-- Closes the source of a replay. -/
def closeSource (t : Traversal) (q : Workspace) : Workspace := closeWithin q.replays.length t q

/-- Closes a traversal: nothing comes any more, and what it alone uses is released. -/
def close (t : Traversal) (q : Workspace) : Traversal × Workspace := closeWith closeSource t q

/-- A replay takes in what its source answered; the last answer releases the source. -/
def receive (number : Nat) (x : Pull) (source : Traversal) (q : Workspace) : Workspace :=
  match q.replays[number]? with
  | some r =>
    let q' := q.setReplay number (r.entered source x)
    match x with
    | some (.ok _) => q'
    | _ => releaseWith closeSource number q'
  | none => q

end Traversal

/-! ### Making traversals -/

/-- What an operator gives that has computed its result before the first item is asked for. -/
def Behaviour.opened (b : Behaviour) (c : Context) : Eval Traversal := do
  return .reader (.ofSource (← b.iterate c))

/-- The whole sequence, where it is there already. -/
def Traversal.items? : Traversal → Option Sequence
  | reader r => r.items?
  | lookahead inner _ => items? inner
  | _ => none

namespace Expr

/-- A traversal of the result of an expression. -/
def traverse (d : Dispatcher) : Expr → Context → Eval Traversal
  | leaf (.step axis test) i, c =>
    if axis.isMaterialized then ((leaf (.step axis test) i).behaviour d).opened c
    else Eval.located i.location do
      match ← Eval.ofExcept c.item with
      | .atomic _ => .fail (.of (.axisNeedsNode axis))
      | .node n => return .axis c.forest test (some fun _ => axis.walk c.forest n)
  | unary .atomize ⟨_, x⟩ i, c =>
    Eval.located i.location do return .atomize c.forest (← traverse d x c) [] false
  | unary (.convert target conversion) ⟨_, x⟩ i, c =>
    Eval.located i.location do return .convert target conversion (← traverse d x c) false
  | unary (.check required) ⟨_, x⟩ i, c =>
    Eval.located i.location do return .check required i.location (← traverse d x c) 0 false
  | binary (.letIn v) ⟨_, x⟩ ⟨_, y⟩ i, c =>
    Eval.located i.location do traverse d y (c.setSlot v.slot (← (x.behaviour d).collect c))
  | binary (.forIn v) ⟨_, x⟩ ⟨_, y⟩ i, c =>
    Eval.located i.location do return .expand (.forIn v.slot y c) (← traverse d x c) 0 false
  | binary .path ⟨r, x⟩ ⟨r', y⟩ i, c =>
    if i.props.special.ordered then
      Eval.located i.location do
        if y.dependencies.last then
          let (s, size?) ← Behaviour.sized (← (x.behaviour d).iterate c) true
          return .expand (.path i.location size? y c) (.reader (.ofSource s)) 0 false
        else return .expand (.path i.location none y c) (← traverse d x c) 0 false
    else ((binary .path ⟨r, x⟩ ⟨r', y⟩ i).behaviour d).opened c
  | binary .filter ⟨_, x⟩ ⟨_, y⟩ i, c =>
    Eval.located i.location do
      if y.dependencies.last then
        let (s, size?) ← Behaviour.sized (← (x.behaviour d).iterate c) true
        return .filter y c size? i.location (.reader (.ofSource s)) 0 false
      else return .filter y c none i.location (← traverse d x c) 0 false
  | choice ⟨_, x⟩ ⟨_, y⟩ ⟨_, z⟩ i, c =>
    Eval.located i.location do
      if ← (x.behaviour d).truth c then traverse d y c else traverse d z c
  | variadic .block args i, c =>
    Eval.located i.location <| return .concat (args.map (·.expr)) c false
  | variadic (.call .data) (⟨_, x⟩ :: _) i, c =>
    Eval.located i.location do return .atomize c.forest (← traverse d x c) [] false
  | variadic (.call .subsequence) (⟨_, x⟩ :: ⟨_, y⟩ :: more) i, c =>
    Eval.located i.location do
      let start ← (y.behaviour d).number y.location c
      let length? ← match more.head? with
        | none => pure none
        | some z => do pure (some (← (z.expr.behaviour d).number z.expr.location c))
      match subsequenceBounds? start length? with
      | none => return .reader .empty
      | some (low, high) =>
        let t ← traverse d x c
        match t.items? with
        | some xs => return .reader (.ofSource (.items (slice xs low high)))
        | none => return .between low high t 0 false
  | e, c => (e.behaviour d).opened c

end Expr

namespace Expansion

/-- What becomes of an error. -/
def failure : Expansion → Error → Error
  | path l .., e => e.located l
  | forIn .., e => e

/-- What comes in the place of an item with so many before it. -/
def start (d : Dispatcher) (before : Nat) (a : Item) : Expansion → Eval Traversal
  | path _ size? step c =>
    match a with
    | .node _ => step.traverse d (c.withFocus a (before + 1) size?)
    | .atomic _ => .fail (.of .stepOnAtomic)
  | forIn slot body c => body.traverse d (c.setSlot slot [a])

end Expansion

/-- What a machine does in a turn: it answers, or it goes on without an answer yet. -/
inductive Turn where
  | answer (x : Pull) (t : Traversal) (q : Workspace)
  | onward (t : Traversal) (q : Workspace)

/-- What is answered in the end, if machines that go on are read in a given way. -/
def Turn.finish (read : Traversal → Workspace → Option (Pull × Traversal × Workspace)) :
    Turn → Option (Pull × Traversal × Workspace)
  | answer x t q => some (x, t, q)
  | onward t q => read t q

/-- Closes the machine and then answers. -/
def Turn.closing (x : Pull) (t : Traversal) (q : Workspace) : Turn :=
  .answer x (t.close q).1 (t.close q).2

namespace Traversal

/-! ### Turns -/

/-- The traversal that has to be asked for its next item before a machine can do anything.  A replay
asks its source for what is not in the buffer yet. -/
def asks? (q : Workspace) : Traversal → Option Traversal
  | lookahead inner none => some inner
  | replay number index false =>
    (q.replays[number]?).bind fun r => if index < r.buffer.size then none else r.source?
  | expand _ source _ false => some source
  | within _ _ _ current => some current
  | part _ _ current => some current
  | filter _ _ _ _ base _ false => some base
  | atomize _ inner [] false => some inner
  | convert _ _ inner false => some inner
  | check _ _ inner _ false => some inner
  | between _ high inner position false => if high ≤ position then none else some inner
  | _ => none

/-- The turn of a machine that does not ask.  One that has finished answers with the end. -/
def act (d : Dispatcher) (q : Workspace) : Traversal → Turn
  | reader r =>
    let (x, r', p') := r.next q.pool
    .answer x (.reader r') { q with pool := p' }
  | lookahead inner (some x) => .answer x (.lookahead inner none) q
  | replay number index false =>
    match q.replays[number]? with
    | none => .answer none (.replay number index true) q
    | some r =>
      match r.buffer[index]? with
      | some a => .answer (some (.ok a)) (.replay number (index + 1) false) q
      | none =>
        .answer (r.failure?.map .error) (.replay number index true) (leaveWith closeSource number q)
  | axis f test (some walk) =>
    match walk () with
    | .done => .closing none (.axis f test (some walk)) q
    | .failed e => .closing (some (.error e)) (.axis f test (some walk)) q
    | .item a rest =>
      if (a.node?.map (test.accepts f)).getD false then
        .answer (some (.ok a)) (.axis f test (some rest)) q
      else .onward (.axis f test (some rest)) q
    | .warned w rest => .onward (.axis f test (some rest)) (q.warn [w])
  | concat [] c false => .closing none (.concat [] c false) q
  | concat (e :: parts) c false =>
    let opened := e.traverse d c
    match opened.outcome with
    | .ok current => .onward (.part parts c current) (q.warn opened.log)
    | .error e => .closing (some (.error e)) (.concat parts c false) (q.warn opened.log)
  | atomize f inner (v :: pending) finished =>
    .answer (some (.ok (.atomic v))) (.atomize f inner pending finished) q
  | between low high inner position false => .closing none (.between low high inner position false) q
  | t => .answer none t q

/-- The turn of a machine that was told by `inner`, in its new state, what comes next there. -/
def react (d : Dispatcher) (x : Pull) (inner : Traversal) (q : Workspace) : Traversal → Turn
  | lookahead _ _ => .answer x (.lookahead inner none) q
  | replay number index done => .onward (.replay number index done) (receive number x inner q)
  | expand how _ position _ =>
    match x with
    | none => .closing none (.expand how inner position false) q
    | some (.error e) => .closing (some (.error (how.failure e))) (.expand how inner position false) q
    | some (.ok a) =>
      let opened := how.start d position a
      match opened.outcome with
      | .ok current => .onward (.within how inner (position + 1) current) (q.warn opened.log)
      | .error e =>
        .closing (some (.error (how.failure e))) (.expand how inner (position + 1) false)
          (q.warn opened.log)
  | within how source position _ =>
    match x with
    | none => .onward (.expand how source position false) (inner.close q).2
    | some (.error e) =>
      .closing (some (.error (how.failure e))) (.within how source position inner) q
    | some (.ok a) => .answer (some (.ok a)) (.within how source position inner) q
  | part parts c _ =>
    match x with
    | none => .onward (.concat parts c false) (inner.close q).2
    | some (.error e) => .closing (some (.error e)) (.part parts c inner) q
    | some (.ok a) => .answer (some (.ok a)) (.part parts c inner) q
  | filter predicate c size? l _ position _ =>
    match x with
    | none => .closing none (.filter predicate c size? l inner position false) q
    | some (.error e) =>
      .closing (some (.error e)) (.filter predicate c size? l inner position false) q
    | some (.ok a) =>
      let t' := .filter predicate c size? l inner (position + 1) false
      let holds := ((predicate.behaviour d).holdsAt (c.withFocus a (position + 1) size?)
        (position + 1)).located l
      match holds.outcome with
      | .ok true => .answer (some (.ok a)) t' (q.warn holds.log)
      | .ok false => .onward t' (q.warn holds.log)
      | .error e => .closing (some (.error e)) t' (q.warn holds.log)
  | atomize f _ _ _ =>
    match x with
    | none => .closing none (.atomize f inner [] false) q
    | some (.error e) => .closing (some (.error e)) (.atomize f inner [] false) q
    | some (.ok (.atomic v)) => .answer (some (.ok (.atomic v))) (.atomize f inner [] false) q
    | some (.ok (.node n)) => .onward (.atomize f inner (f.typedValue n) false) q
  | convert target conversion _ _ =>
    let t' := .convert target conversion inner false
    match x with
    -- The machine does not close itself here; what it reads will not give anything any more.
    | none => .answer none t' q
    | some (.error e) => .closing (some (.error e)) t' q
    | some (.ok (.node n)) => .answer (some (.ok (.node n))) t' q
    | some (.ok (.atomic v)) =>
      match v.convertUntyped target conversion with
      | .ok w => .answer (some (.ok (.atomic w))) t' q
      | .error e => .closing (some (.error e)) t' q
  | check required l _ count _ =>
    match x with
    | none =>
      .closing (if count = 0 ∧ required.zero = false then
        some (.error ((Error.of .emptyNotAllowed).located l)) else none)
        (.check required l inner count false) q
    | some (.error e) => .closing (some (.error e)) (.check required l inner count false) q
    | some (.ok a) =>
      let t' := .check required l inner (count + 1) false
      if required.admits (count + 1) then .answer (some (.ok a)) t' q
      else .closing (some (.error ((Error.of (.tooMany count)).located l))) t' q
  | between low high _ position _ =>
    match x with
    | none => .closing none (.between low high inner position false) q
    | some (.error e) => .closing (some (.error e)) (.between low high inner position false) q
    | some (.ok a) =>
      let t' := .between low high inner (position + 1) false
      if low ≤ position + 1 then .answer (some (.ok a)) t' q else .onward t' q
  | t => .answer none t q

/-! ### Reading -/

/-- Takes what comes next, if no more than so many turns are needed in a row. -/
def nextWithin (d : Dispatcher) :
    Nat → Traversal → Workspace → Option (Pull × Traversal × Workspace)
  | 0, _, _ => none
  | turns + 1, t, q =>
    match t.asks? q with
    | none => (act d q t).finish (nextWithin d turns)
    | some inner => do
      let (x, inner', q') ← nextWithin d turns inner q
      (react d x inner' q' t).finish (nextWithin d turns)

/-- Takes what comes next. -/
noncomputable def next (d : Dispatcher) (t : Traversal) (q : Workspace) :
    Option (Pull × Traversal × Workspace) := limit (nextWithin d · t q)

/-- Reads from the source of a replay until the item with the given index is in the buffer, if there
is one and no more than so many turns are needed. -/
def fillWithin (d : Dispatcher) (number index : Nat) : Nat → Workspace → Option Workspace
  | 0, _ => none
  | turns + 1, q =>
    match (replay number index false).asks? q with
    | none => some q
    | some source => do
      let (x, source', q') ← nextWithin d turns source q
      fillWithin d number index turns (receive number x source' q')

/-- Reads from the source of a replay until the item with the given index is in the buffer, if there
is one. -/
noncomputable def fillTo (d : Dispatcher) (number index : Nat) (q : Workspace) : Option Workspace :=
  limit (fillWithin d number index · q)

/-- Whether a traversal can say that there is a next item. -/
def ahead : Traversal → Bool
  | reader r => r.abilities.looksAhead
  | lookahead .. => true
  | replay .. => true
  | _ => false

/-- Says whether something comes next, be it an item or an error, for traversals that can say so. -/
noncomputable def hasNext (d : Dispatcher) (t : Traversal) (q : Workspace) :
    Option (Option Bool × Traversal × Workspace) :=
  match t with
  | reader r =>
    let (b?, r', p') := r.hasNext? q.pool
    some (b?, .reader r', { q with pool := p' })
  | lookahead inner (some x) => some (some x.isSome, .lookahead inner (some x), q)
  | lookahead inner none => do
    let (x, inner', q') ← next d inner q
    return (some x.isSome, .lookahead inner' (some x), q')
  | replay number index true => some (some false, .replay number index true, q)
  | replay number index false => do
    let q' ← fillTo d number index q
    return (q'.replays[number]?.map fun r => index < r.buffer.size || r.failure?.isSome,
      .replay number index false, q')
  | t => some (none, t, q)

/-- A new traversal of the same sequence, before its first item, for sequences that can be read
again. -/
def fresh? (t : Traversal) (q : Workspace) : Option Traversal × Workspace :=
  match t with
  | reader r =>
    let (r'?, p') := r.fresh? q.pool
    (r'?.map .reader, { q with pool := p' })
  | lookahead inner _ => fresh? inner q
  | replay number _ _ =>
    match q.replays[number]? with
    | some r =>
      (some (.replay number 0 false), q.setReplay number { r with readers := r.readers + 1 })
    | none => (none, q)
  | _ => (none, q)

end Traversal

end TreeQuery
