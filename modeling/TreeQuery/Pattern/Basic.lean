/-
Patterns.

A pattern says which items a rule applies to.  `Pattern.key?` is the kind, or the kind and name,
that every node matching the pattern has; rules are filed under it.
-/
import TreeQuery.Expr.Copy

namespace TreeQuery

/-- A condition on an item. -/
inductive Pattern where
  /-- Every item. -/
  | anyItem
  /-- Nodes that pass a test. -/
  | node (test : NodeTest)
  /-- Nodes that pass a test and whose parent matches. -/
  | underParent (step : NodeTest) (parent : Pattern)
  /-- Items that match and satisfy a predicate. -/
  | predicate (base : Pattern) (condition : Expr)
  /-- Items that match one of several patterns. -/
  | union (branches : List Pattern)
  /-- Atomic values of a type. -/
  | atomic (type : AtomicType)

/-- What rules are filed under. -/
inductive Key where
  | named (kind : NodeKind) (space : Option String) (localPart : String)
  | ofKind (kind : NodeKind)
  deriving DecidableEq, Repr

namespace Key

/-- The keys of a node: by its name, if it has one, and by its kind. -/
def ofNode (f : Forest) (n : Nat) : Option Key × Key :=
  ((f.name? n).map fun q => .named (f.kind n) q.space q.localPart, .ofKind (f.kind n))

/-- The keys of an item; atomic values have none. -/
def ofItem? (f : Forest) : Item → Option (Option Key × Key)
  | .node n => some (ofNode f n)
  | .atomic _ => none

/-- What a node test fixes. -/
def ofTest? : NodeTest → Option Key
  | .anyNode => none
  | .ofKind k => some (.ofKind k)
  | .named k (.exact s l) => some (.named k s l)
  | .named k _ => some (.ofKind k)

end Key

namespace Pattern

/-- Elements of a name in no namespace. -/
def element (localPart : String) : Pattern := .node (.elementNamed localPart)

/-- The priority of a node test: a full name counts most, then half a name, then a kind. -/
def testPriority : NodeTest → Int
  | .named _ (.exact _ _) => 0
  | .named _ (.anyLocal _) => -1
  | .named _ (.anySpace _) => -1
  | _ => -2

mutual

/-- The priority of a pattern in quarters; `none` stands below all others. -/
def quarters : Pattern → Option Int
  | anyItem => some (-4)
  | node t => some (testPriority t)
  | atomic _ => some (-2)
  | underParent _ _ => some 2
  | predicate _ _ => some 2
  | union branches => greatestQuarters branches

/-- The greatest priority of a list of patterns. -/
def greatestQuarters : List Pattern → Option Int
  | [] => none
  | p :: rest =>
    match quarters p, greatestQuarters rest with
    | some a, some b => some (max a b)
    | some a, none => some a
    | none, b => b

end

/-- The priority of a rule that declares none. -/
def defaultPriority (p : Pattern) : Float :=
  match p.quarters with
  | some q => Unpacked.toDouble (.finite (q < 0) q.natAbs (-2))
  | none => infinity true

/-- The key under which a rule with this pattern is filed; `none` if matching items have none in
common. -/
def key? : Pattern → Option Key
  | node t => Key.ofTest? t
  | underParent t _ => Key.ofTest? t
  | predicate base _ => key? base
  | _ => none

/-- Whether every item that is looked up under the pattern's key matches, so that it need not be
tested. -/
def matchesWholeKey : Pattern → Bool
  | anyItem => true
  | node (.ofKind _) => true
  | node (.named _ (.exact _ _)) => true
  | _ => false

mutual

/-- The patterns of which a union, nested or not, consists. -/
def branches : Pattern → List Pattern
  | union ps => branchesOf ps
  | p => [p]

/-- The branches of a list of patterns. -/
def branchesOf : List Pattern → List Pattern
  | [] => []
  | p :: rest => branches p ++ branchesOf rest

end

mutual

/-- The copy of a pattern, with its predicates copied. -/
def copy : Pattern → Copying Pattern
  | underParent step parent => return underParent step (← copy parent)
  | predicate base condition => do
    let base' ← copy base
    return predicate base' (← condition.copy)
  | union ps => return union (← copyAll ps)
  | p => return p

/-- The copies of a list of patterns. -/
def copyAll : List Pattern → Copying (List Pattern)
  | [] => return []
  | p :: rest => do
    let p' ← copy p
    return p' :: (← copyAll rest)

end

mutual

/-- Whether two patterns are the same, their predicates included. -/
def same : Pattern → Pattern → Bool
  | anyItem, anyItem => true
  | node t, node t' => t == t'
  | underParent s p, underParent s' p' => s == s' && same p p'
  | predicate p e, predicate p' e' => same p p' && e.same e'
  | union ps, union ps' => sameAll ps ps'
  | atomic t, atomic t' => t == t'
  | _, _ => false

/-- Whether two lists of patterns are the same. -/
def sameAll : List Pattern → List Pattern → Bool
  | [], [] => true
  | p :: rest, p' :: rest' => same p p' && sameAll rest rest'
  | _, _ => false

end

end Pattern

end TreeQuery
