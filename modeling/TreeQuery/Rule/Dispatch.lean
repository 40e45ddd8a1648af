/-
Dispatch: the best rule for an item.

A search looks into the chains under the two keys of the item and into the general chain.  Chains are
ordered best first, so the search of a chain ends at the first rule that matches, or earlier at a
rule that is no better than one found before.

`Mode.bestRule` searches among all rules and `Mode.nextRule` among those below a given one.  A mode
that detects conflicts gives a warning for every other rule of the same rank that matches too.
-/
import TreeQuery.Pattern.Matching

namespace TreeQuery.Mode

/-- The chains to search for an item. -/
def chainsFor (m : Mode) (f : Forest) (a : Item) : List (List Nat) :=
  match Key.ofItem? f a with
  | some (named?, kind) =>
    [(named?.map m.chainOf).getD [], m.chainOf kind, m.general]
  | none => [m.general]

/-- Searches a chain for a rule that is below `limit?` and matches, and is better than `best?`, the
rule found before. -/
def searchChain (m : Mode) (test : Rule → Eval Bool) (limit? : Option Rule) (best? : Option Nat) :
    List Nat → Eval (Option Nat)
  | [] => pure best?
  | i :: rest =>
    match m.rule? i with
    | none => searchChain m test limit? best? rest
    | some r =>
      if limit?.any fun s => !r.isBelow s then searchChain m test limit? best? rest
      else if (best?.bind m.rule?).any fun b => !b.isBelow r then pure best?
      else if r.alwaysMatches then pure (some i)
      else do
        if ← test r then return some i
        searchChain m test limit? best? rest

/-- Searches several chains one after the other. -/
def searchChains (m : Mode) (test : Rule → Eval Bool) (limit? : Option Rule) (best? : Option Nat) :
    List (List Nat) → Eval (Option Nat)
  | [] => pure best?
  | chain :: rest => do
    let better? ← m.searchChain test limit? best? chain
    searchChains m test limit? better? rest

/-- Gives a warning for every rule of a chain, other than the chosen one, that has the same rank and
matches. -/
def reportChain (m : Mode) (test : Rule → Eval Bool) (index : Nat) (chosen : Rule) :
    List Nat → Eval Unit
  | [] => pure ()
  | i :: rest =>
    match m.rule? i with
    | none => reportChain m test index chosen rest
    | some r =>
      if r.rank < chosen.rank then pure ()
      else do
        if i ≠ index ∧ r.rank = chosen.rank then
          if ← test r then Eval.warn ⟨m.name, chosen.sequence, r.sequence⟩
        reportChain m test index chosen rest

/-- Gives the warnings of several chains. -/
def reportChains (m : Mode) (test : Rule → Eval Bool) (index : Nat) (chosen : Rule) :
    List (List Nat) → Eval Unit
  | [] => pure ()
  | chain :: rest => do
    m.reportChain test index chosen chain
    reportChains m test index chosen rest

/-- Searches for a rule that passes a test, below a limit if there is one. -/
def search (m : Mode) (chains : List (List Nat)) (test : Rule → Eval Bool) (limit? : Option Rule) :
    Eval (Option Nat) :=
  if m.ranked then do
    let best? ← m.searchChains test limit? none chains
    match best? with
    | none => return none
    | some i =>
      if m.detectConflicts then
        match m.rule? i with
        | some r => m.reportChains test i r chains
        | none => pure ()
      return some i
  else .fail (.of (.unranked m.name))

/-- The best rule for an item. -/
def bestRule (m : Mode) (d : Dispatcher) (a : Item) (c : Context) : Eval (Option Nat) :=
  m.search (m.chainsFor c.forest a) (fun r => r.pattern.accepts d c a) none

/-- The best rule for an item below the rule with the given number. -/
def nextRule (m : Mode) (d : Dispatcher) (current : Nat) (a : Item) (c : Context) :
    Eval (Option Nat) :=
  match m.rule? current with
  | none => .fail (.of (.noSuchRule current m.name))
  | some limit =>
    m.search (m.chainsFor c.forest a) (fun r => r.pattern.accepts d c a) (some limit)

end TreeQuery.Mode
