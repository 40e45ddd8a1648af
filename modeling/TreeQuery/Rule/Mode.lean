/-
Modes: tables of rules.

A mode keeps its rules in the order of declaration and files the number of each under the key of its
pattern, or in the general chain if the pattern fixes none.  `Mode.rank` gives every rule a rank, by
precedence and then priority, and orders every chain best first, so that a search can stop at the
first match.

Design notes: chains hold numbers of rules, not rules, because the same rule is found by its number
when the next one below it is wanted.
-/
import TreeQuery.Pattern.Basic

namespace TreeQuery

/-- What happens to an item that no rule matches. -/
inductive NoMatch where
  /-- The item is dropped with everything below it. -/
  | deepSkip
  /-- The item is dropped, its attributes and children are processed. -/
  | shallowSkip
  /-- Children are processed; texts and atomic values are copied. -/
  | textOnlyCopy
  /-- The item is copied as it is. -/
  | deepCopy
  /-- It is an error. -/
  | fail
  deriving DecidableEq, Repr

namespace NoMatch

/-- All of them. -/
def all : List NoMatch := [.deepSkip, .shallowSkip, .textOnlyCopy, .deepCopy, .fail]

/-- The written form. -/
def label : NoMatch → String
  | .deepSkip => "deep-skip"
  | .shallowSkip => "shallow-skip"
  | .textOnlyCopy => "text-only-copy"
  | .deepCopy => "deep-copy"
  | .fail => "fail"

end NoMatch

/-- A rule: what it applies to, what it does, and where it stands among the others. -/
structure Rule where
  pattern : Pattern
  action : Expr
  precedence : Int
  priority : Float
  /-- The number of the rule in the order of declaration. -/
  sequence : Nat
  /-- The greater the rank, the better. -/
  rank : Nat
  /-- The pattern need not be tested for items that are looked up under its key. -/
  alwaysMatches : Bool

/-- The place of a double in the total order of bit patterns: negative values below positive ones,
the negative zero below the positive one. -/
def totalOrderKey (x : Float) : Int :=
  let bits := x.toBits.toNat
  if bits < Nat.pow 2 63 then bits else -(bits - Nat.pow 2 63 : Nat) - 1

namespace Rule

/-- By precedence, then by priority. -/
def compareMerit (a b : Rule) : Ordering :=
  (compare a.precedence b.precedence).then
    (compare (totalOrderKey a.priority) (totalOrderKey b.priority))

/-- By rank. -/
def compareRank (a b : Rule) : Ordering := compare a.rank b.rank

/-- Whether the first rule goes after the second in the order of dispatch, which is by rank and then
by declaration, the later one before the earlier. -/
def isBelow (a b : Rule) : Bool :=
  a.rank < b.rank || (a.rank == b.rank && a.sequence < b.sequence)

end Rule

/-- A table of rules. -/
structure Mode where
  name : ModeName
  rules : List Rule
  keyed : List (Key × List Nat)
  general : List Nat
  noMatch : NoMatch
  detectConflicts : Bool
  ranked : Bool
  nextSequence : Nat

namespace Mode

/-- A mode without rules. -/
def initial (name : ModeName) : Mode :=
  { name, rules := [], keyed := [], general := [], noMatch := .textOnlyCopy,
    detectConflicts := false, ranked := false, nextSequence := 0 }

/-- The rule with a number. -/
def rule? (m : Mode) (index : Nat) : Option Rule := m.rules[index]?

/-- Files a number under a key. -/
def fileUnder (key : Key) (index : Nat) : List (Key × List Nat) → List (Key × List Nat)
  | [] => [(key, [index])]
  | (k, chain) :: rest =>
    if k = key then (k, chain ++ [index]) :: rest else (k, chain) :: fileUnder key index rest

/-- The chain under a key. -/
def chainOf (m : Mode) (key : Key) : List Nat :=
  ((m.keyed.find? (·.1 == key)).map (·.2)).getD []

/-- Adds one rule. -/
def push (m : Mode) (r : Rule) : Mode :=
  let index := m.rules.length
  let m := { m with rules := m.rules ++ [r] }
  match r.pattern.key? with
  | some key => { m with keyed := fileUnder key index m.keyed }
  | none => { m with general := m.general ++ [index] }

/-- Adds one rule with the next number in the order of declaration. -/
def declare (m : Mode) (action : Expr) (precedence : Int) (priority : Float) (p : Pattern) : Mode :=
  { m.push ⟨p, action, precedence, priority, m.nextSequence, 0, false⟩ with
    nextSequence := m.nextSequence + 1 }

/-- Adds a rule and tells the numbers of the rules that were made of it.  Without a priority of its
own a union is taken apart into one rule for each branch, each with its own priority. -/
def add (m : Mode) (p : Pattern) (action : Expr) (precedence : Int) (priority : Option Float) :
    List Nat × Mode :=
  let parts := match priority with
    | some _ => [p]
    | none => p.branches
  let added := parts.foldl
    (fun m q => m.declare action precedence (priority.getD q.defaultPriority) q) m
  ((List.range parts.length).map (m.rules.length + ·), { added with ranked := false })

/-- The rank of a rule: how many different merits among the rules are less than its own. -/
def rankOf (rules : List Rule) (r : Rule) : Nat :=
  let worse := rules.filter fun s => s.compareMerit r == .lt
  (worse.foldl (fun merits s => if merits.any (·.compareMerit s == .eq) then merits else s :: merits)
    ([] : List Rule)).length

/-- Puts a number into a chain that is ordered best first. -/
def insertBest (rules : List Rule) (index : Nat) : List Nat → List Nat
  | [] => [index]
  | i :: rest =>
    match rules[index]?, rules[i]? with
    | some r, some s => if s.isBelow r then index :: i :: rest else i :: insertBest rules index rest
    | _, _ => i :: insertBest rules index rest

/-- Orders a chain best first. -/
def orderChain (rules : List Rule) (chain : List Nat) : List Nat :=
  chain.foldl (fun sorted i => insertBest rules i sorted) []

/-- Gives every rule its rank and orders every chain. -/
def rank (m : Mode) : Mode :=
  let rules := m.rules.map fun r =>
    { r with rank := rankOf m.rules r, alwaysMatches := r.pattern.matchesWholeKey }
  { m with
    rules
    keyed := m.keyed.map fun (k, chain) => (k, orderChain rules chain)
    general := orderChain rules m.general
    ranked := true }

/-- The copy of a rule.  The action is copied first, unless it is shared, and then the pattern. -/
def copyRule (r : Rule) (shareAction : Bool) : Copying Rule := do
  let action ← if shareAction then pure r.action else r.action.copy
  return { r with pattern := ← r.pattern.copy, action }

/-- The copies of rules, each with bindings of its own from one allocator. -/
def copyRules (shareActions : Bool) : List Rule → ExceptT Error (StateM Allocator) (List Rule)
  | [] => return []
  | r :: rest => do
    let (copied, m) := (copyRule r shareActions).run (Rebinding.initial (← get))
    set m.allocator
    match copied with
    | .ok r' => return r' :: (← copyRules shareActions rest)
    | .error e => throw e

/-- The copy of a mode, with ranks and chains as they are. -/
def copy (m : Mode) (shareActions : Bool) : ExceptT Error (StateM Allocator) Mode := do
  return { m with rules := ← copyRules shareActions m.rules }

end Mode

/-- All modes of a program, and the size of the frame that their actions need. -/
structure RuleSet where
  modes : List Mode
  frameSize : Nat

namespace RuleSet

/-- No modes. -/
def empty : RuleSet := ⟨[], 0⟩

/-- The mode with a name. -/
def mode? (s : RuleSet) (name : ModeName) : Option Mode := s.modes.find? (·.name == name)

/-- Changes the mode with a name, which is made if there is none. -/
def modify (s : RuleSet) (name : ModeName) (change : Mode → Mode) : RuleSet :=
  if (s.mode? name).isSome then
    { s with modes := s.modes.map fun m => if m.name = name then change m else m }
  else { s with modes := s.modes ++ [change (.initial name)] }

end RuleSet

end TreeQuery
