/-
Application of rules.

`applyAll` runs, for every item of a sequence, the best rule of a mode, and for an item that no rule
matches what the mode says.  `nextMatch` runs the next rule below the current one.  The items that
end up in the output for lack of a rule carry the place of the expression that applied the rules.

Actions may apply rules again.  `dispatcherWithin` bounds how deep: with a bound of zero nothing can
be applied, and every application hands a bound that is less by one to the actions and predicates
that it runs.  `dispatcher` is the one that evaluation uses.

Design notes: the bound is there because rules may call each other without end, and not to make
anything fail that would come to an end within it.  The walk through the tree that the built-in
actions make needs no bound of that kind; it takes the size of the forest as its measure, since what
a node lists was made before it.
-/
import TreeQuery.Rule.Dispatch

namespace TreeQuery

namespace Mode

/-- Runs the action of a rule for an item. -/
def invoke (m : Mode) (d : Dispatcher) (frameSize index : Nat) (a : Item) (position size : Nat)
    (c : Context) : Push Unit :=
  match m.rule? index with
  | none => .fail (.of (.noSuchRule index m.name))
  | some r =>
    (r.action.behaviour d).process
      { (c.child frameSize).withFocus a position (some size) with
        currentRule? := some ⟨m.name, index⟩ }

end Mode

/-- What happens to an item that no rule matches; `below` processes the nodes that it lists. -/
def NoMatch.process (n : NoMatch) (below : List Nat → Push Unit) (mode : ModeName) (l : Location)
    (c : Context) (a : Item) : Push Unit :=
  let f := c.forest
  match n with
  | .deepSkip => pure ()
  | .deepCopy => .deliver c.hasOutput l a
  | .fail => .fail (.of (.noRule mode (a.describe f)))
  | .shallowSkip =>
    match a with
    | .node n => if (f.kind n).hasContent then below (f.listed n) else pure ()
    | .atomic _ => pure ()
  | .textOnlyCopy =>
    match a with
    | .node n =>
      match f.kind n with
      | .document => below (f.children n)
      | .element => below (f.children n)
      | .text => .deliver c.hasOutput l a
      | .attribute => .deliver c.hasOutput l (.atomic (.string (f.stringValue n)))
      | .comment => pure ()
      | .processingInstruction => pure ()
    | .atomic _ => .deliver c.hasOutput l a

/-- Processes a sequence with the rules of a mode, down to a number of levels of the tree. -/
def applyWithin (d : Dispatcher) (mode : ModeName) (l : Location) (c : Context) :
    Nat → Sequence → Push Unit
  | 0, _ => pure ()
  | levels + 1, xs =>
    let rules := c.rules?.getD .empty
    let below ns := applyWithin d mode l c levels (ns.map .node)
    (ItemStream.ofList xs).forEach fun before a =>
      match rules.mode? mode with
      | none => NoMatch.textOnlyCopy.process below mode l c a
      | some m => do
        let looking := (c.child rules.frameSize).withFocus a (before + 1) (some xs.length)
        match ← Push.lift (m.bestRule d a looking) with
        | some i => m.invoke d rules.frameSize i a (before + 1) xs.length c
        | none => m.noMatch.process below mode l c a

/-- Processes a sequence with the rules of a mode. -/
def applyAll (d : Dispatcher) (xs : Sequence) (mode : ModeName) (l : Location) (c : Context) :
    Push Unit :=
  applyWithin d mode l c (c.forest.size + 1) xs

/-- Runs the next rule below the current one for the context item. -/
def nextMatch (d : Dispatcher) (l : Location) (c : Context) : Push Unit :=
  match c.currentRule?, c.rules? with
  | none, _ => .fail (.of .noCurrentRule)
  | some _, none => .fail (.of .noRuleTables)
  | some current, some rules =>
    match rules.mode? current.mode, c.focus? with
    | none, _ => .fail (.of (.undefinedMode current.mode))
    | some _, none => .fail (.of .nextMatchWithoutItem)
    | some m, some focus => do
      let size := focus.size?.getD focus.position
      let looking := (c.child rules.frameSize).withFocus focus.item focus.position (some size)
      match ← Push.lift (m.nextRule d current.index focus.item looking) with
      | some i => m.invoke d rules.frameSize i focus.item focus.position size c
      | none =>
        let below ns := applyAll d (ns.map .node) current.mode l c
        m.noMatch.process below current.mode l c focus.item

/-- Runs rules, with at most so many applications inside each other. -/
def dispatcherWithin : Nat → Dispatcher
  | 0 => .none
  | depth + 1 =>
    { apply := fun xs mode l c => applyAll (dispatcherWithin depth) xs mode l c
      next := fun l c => nextMatch (dispatcherWithin depth) l c }

/-- How deep applications of rules may be inside each other. -/
def applicationDepth : Nat := 100000

/-- Runs rules. -/
def dispatcher : Dispatcher := dispatcherWithin applicationDepth

end TreeQuery
