/-
Import precedence.

Rule modules import and include each other as a tree.  A module and everything it includes form
one group, and a group ranks above everything that it imports; among the imports of a group a later
one ranks above an earlier one.  Precedences are numbered from 1.
-/
namespace TreeQuery

/-- A module with the modules it imports and those it includes. -/
inductive ModuleTree where
  | mk (name : String) (imports includes : List ModuleTree)

namespace ModuleTree

/-- The name of a module. -/
def name : ModuleTree → String
  | mk n _ _ => n

mutual

/-- Assigns precedences to the imports of a module and of all modules it includes, in this order,
after the precedence `last`; the result holds what was assigned and the last precedence used. -/
def assignImports (last : Int32) : ModuleTree → List (String × Int32) × Int32
  | mk _ imports includes =>
    let (first, last) := assignEach last imports
    let (rest, last) := assignIncluded last includes
    (first ++ rest, last)

/-- Assigns precedences to the imports of each of a list of included modules. -/
def assignIncluded (last : Int32) : List ModuleTree → List (String × Int32) × Int32
  | [] => ([], last)
  | m :: ms =>
    let (first, last) := assignImports last m
    let (rest, last) := assignIncluded last ms
    (first ++ rest, last)

/-- Assigns precedences to each of a list of imported modules, groups and all. -/
def assignEach (last : Int32) : List ModuleTree → List (String × Int32) × Int32
  | [] => ([], last)
  | m :: ms =>
    let (first, last) := assignImports last m
    let group := (members m).map fun n => (n, last + 1)
    let (rest, last) := assignEach (last + 1) ms
    (first ++ group ++ rest, last)

/-- The names of the modules of a group: a module, then those of the modules it includes. -/
def members : ModuleTree → List String
  | mk n _ includes => n :: membersOf includes

/-- The names of the modules of several groups. -/
def membersOf : List ModuleTree → List String
  | [] => []
  | m :: ms => members m ++ membersOf ms

end

/-- The precedence of every module, in the order of assignment; the root's group comes last. -/
def precedences (root : ModuleTree) : List (String × Int32) := (assignEach 0 [root]).1

/-- The precedence of the first module with a name. -/
def precedenceOf? (entries : List (String × Int32)) (name : String) : Option Int32 :=
  (entries.find? (·.1 == name)).map (·.2)

end ModuleTree

end TreeQuery
