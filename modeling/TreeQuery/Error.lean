/-
Errors.

An error is a cause, the time at which it was noticed, and the place it belongs to.  The cause
decides the code and the wording; a host adds causes of its own through `Cause.raised`.  The
place is the innermost known one: `Error.located` keeps a location that is already there.

Main statements:

* `Error.located_located` — of two places attached one after the other the first known one stays;
* `Error.located_unknown` — an unknown place attaches nothing.
-/
import TreeQuery.Cardinality
import TreeQuery.Expr.Function
import TreeQuery.Location
import TreeQuery.Node.Kind
import TreeQuery.Type.Atomic

namespace TreeQuery

/-- When an error was noticed: while the program was analysed, while it ran, or because the
evaluator contradicts itself. -/
inductive ErrorKind where
  | static
  | dynamic
  | internal
  deriving DecidableEq, Repr

/-- The word for a kind. -/
def ErrorKind.label : ErrorKind → String
  | .static => "static"
  | .dynamic => "dynamic"
  | .internal => "internal"

/-- The error codes, by their own names. -/
inductive ErrorCode where
  | FOAR0001
  | FOAR0002
  | FOER0000
  | FORG0001
  | FORG0003
  | FORG0004
  | FORG0005
  | FORG0006
  | XPTY0004
  | XPTY0018
  | XPTY0019
  | XPTY0020
  | XPDY0002
  | XPDY0050
  | XPST0008
  | XPST0017
  | XPST0051
  | XTDE0555
  | XTDE0560
  | QRIN0001
  | unknown
  deriving DecidableEq, Repr

namespace ErrorCode

/-- All codes that have a name of their own. -/
def all : List ErrorCode :=
  [FOAR0001, FOAR0002, FOER0000, FORG0001, FORG0003, FORG0004, FORG0005, FORG0006, XPTY0004,
    XPTY0018, XPTY0019, XPTY0020, XPDY0002, XPDY0050, XPST0008, XPST0017, XPST0051, XTDE0555,
    XTDE0560, QRIN0001]

/-- The local part of a code's name. -/
def label : ErrorCode → String
  | FOAR0001 => "FOAR0001"
  | FOAR0002 => "FOAR0002"
  | FOER0000 => "FOER0000"
  | FORG0001 => "FORG0001"
  | FORG0003 => "FORG0003"
  | FORG0004 => "FORG0004"
  | FORG0005 => "FORG0005"
  | FORG0006 => "FORG0006"
  | XPTY0004 => "XPTY0004"
  | XPTY0018 => "XPTY0018"
  | XPTY0019 => "XPTY0019"
  | XPTY0020 => "XPTY0020"
  | XPDY0002 => "XPDY0002"
  | XPDY0050 => "XPDY0050"
  | XPST0008 => "XPST0008"
  | XPST0017 => "XPST0017"
  | XPST0051 => "XPST0051"
  | XTDE0555 => "XTDE0555"
  | XTDE0560 => "XTDE0560"
  | QRIN0001 => "QRIN0001"
  | unknown => "UNKNOWN"

/-- The full name: a standard code, except for the one that reports a contradiction. -/
def name (c : ErrorCode) : Name :=
  ⟨some (if c = QRIN0001 then Name.ownErrorSpace else Name.errorSpace), c.label⟩

/-- A text without `err:` in front of it. -/
def dropPrefix (s : String) : String :=
  match s.toList with
  | 'e' :: 'r' :: 'r' :: ':' :: rest => String.ofList rest
  | _ => s

/-- The code with the given label, with or without `err:` in front of it. -/
def ofLabel (s : String) : ErrorCode :=
  (all.find? (·.label == dropPrefix s)).getD unknown

/-- When an error with this code is noticed unless something else is said. -/
def defaultKind : ErrorCode → ErrorKind
  | XPST0008 => .static
  | XPST0017 => .static
  | XPST0051 => .static
  | QRIN0001 => .internal
  | _ => .dynamic

end ErrorCode

/-- What went wrong. -/
inductive Cause where
  -- casting
  | invalidLexical (text : String) (target : AtomicType)
  | integerOutOfRange (text : String)
  | castOverflow
  | notCastable (source target : AtomicType)
  | abstractTarget (target : AtomicType)
  -- arithmetic and comparison
  | integerOverflow
  | divisionByZero
  | quotientUndefined
  | operandNotNumeric (type : AtomicType)
  | incomparable (left right : AtomicType)
  | incomparableTypes (left right : AtomicType)
  -- names
  | unboundPrefix (lexical : String)
  | unknownType (lexical : String)
  | undeclaredVariable (name : Name)
  | missingGlobal (name : Name)
  -- the focus
  | noContextItem
  | noPosition
  | noSize
  | nextMatchWithoutItem
  -- the output
  | noOutput
  | outputBusy
  -- nodes
  | axisNeedsNode (axis : Axis)
  | stepOnAtomic
  | axisOnAtomics
  | mixedPath
  | unionOfAtomics
  | unrelatedNodes
  -- lengths
  | notExactlyOne
  | neverExactlyOne
  | moreThanOne
  | truthOfSeveral
  | predicateOfSeveral
  | severalForOperand
  | emptyNotAllowed
  | tooMany (allowed : Nat)
  | alwaysEmpty
  | unsatisfiable (required : Cardinality)
  | emptyCast
  | alwaysEmptyCast
  | emptyNumber
  | notANumber (type : AtomicType)
  | rangeBound (type : AtomicType)
  -- calls
  | wrongArity (function : BuiltIn) (supplied : Nat)
  | noArguments (function : BuiltIn)
  | tooFewArguments (function : BuiltIn)
  -- variables and cached properties
  | slotUnassigned (slot : Nat)
  | noRebinding (name : Name) (id : Nat)
  | staleProperties
  -- rules
  | noRule (mode : ModeName) (item : String)
  | noCurrentRule
  | noRuleTables
  | undefinedMode (mode : ModeName)
  | noSuchRule (index : Nat) (mode : ModeName)
  | unranked (mode : ModeName)
  | tooDeep
  -- raised by a host
  | raised (code : Name) (message : String)
  deriving DecidableEq, Repr

namespace Cause

/-- The code of a cause that is not a host's. -/
def code? : Cause → Option ErrorCode
  | invalidLexical .. => some .FORG0001
  | integerOutOfRange .. => some .FOAR0002
  | castOverflow => some .FOAR0002
  | notCastable .. => some .XPTY0004
  | abstractTarget .. => some .XPST0051
  | integerOverflow => some .FOAR0002
  | divisionByZero => some .FOAR0001
  | quotientUndefined => some .FOAR0002
  | operandNotNumeric .. => some .XPTY0004
  | incomparable .. => some .XPTY0004
  | incomparableTypes .. => some .XPTY0004
  | unboundPrefix .. => some .XPST0051
  | unknownType .. => some .XPST0051
  | undeclaredVariable .. => some .XPST0008
  | missingGlobal .. => some .XPST0008
  | noContextItem => some .XPDY0002
  | noPosition => some .XPDY0002
  | noSize => some .XPDY0002
  | nextMatchWithoutItem => some .XPDY0002
  | noOutput => some .XPDY0050
  | outputBusy => some .QRIN0001
  | axisNeedsNode .. => some .XPTY0020
  | stepOnAtomic => some .XPTY0019
  | axisOnAtomics => some .XPTY0019
  | mixedPath => some .XPTY0018
  | unionOfAtomics => some .XPTY0004
  | unrelatedNodes => some .FOER0000
  | notExactlyOne => some .FORG0005
  | neverExactlyOne => some .FORG0005
  | moreThanOne => some .FORG0003
  | truthOfSeveral => some .FORG0006
  | predicateOfSeveral => some .FORG0006
  | severalForOperand => some .XPTY0004
  | emptyNotAllowed => some .XPTY0004
  | tooMany .. => some .XPTY0004
  | alwaysEmpty => some .XPTY0004
  | unsatisfiable .. => some .XPTY0004
  | emptyCast => some .XPTY0004
  | alwaysEmptyCast => some .XPTY0004
  | emptyNumber => some .XPTY0004
  | notANumber .. => some .XPTY0004
  | rangeBound .. => some .XPTY0004
  | wrongArity .. => some .XPST0017
  | noArguments .. => some .QRIN0001
  | tooFewArguments .. => some .QRIN0001
  | slotUnassigned .. => some .QRIN0001
  | noRebinding .. => some .QRIN0001
  | staleProperties => some .QRIN0001
  | noRule .. => some .XTDE0555
  | noCurrentRule => some .XTDE0560
  | noRuleTables => some .QRIN0001
  | undefinedMode .. => some .QRIN0001
  | noSuchRule .. => some .QRIN0001
  | unranked .. => some .QRIN0001
  | tooDeep => some .QRIN0001
  | raised .. => none

/-- The name of the code. -/
def code (c : Cause) : Name :=
  match c with
  | raised code _ => code
  | _ => (c.code?.getD .unknown).name

/-- The wording. -/
def message : Cause → String
  | invalidLexical text t => s!"cannot cast '{text}' to xs:{t.label}"
  | integerOutOfRange text => s!"integer '{text}' out of range"
  | castOverflow => "integer overflow in cast"
  | notCastable a b => s!"cannot cast xs:{a.label} to xs:{b.label}"
  | abstractTarget t => s!"cannot cast to abstract type xs:{t.label}"
  | integerOverflow => "integer overflow"
  | divisionByZero => "division by zero"
  | quotientUndefined => "idiv operand is NaN or infinite"
  | operandNotNumeric t => s!"arithmetic operand of type xs:{t.label} is not numeric"
  | incomparable a b => s!"cannot compare xs:{a.label} with xs:{b.label}"
  | incomparableTypes a b => s!"values of type xs:{a.label} and xs:{b.label} cannot be compared"
  | unboundPrefix lexical => s!"unbound prefix in type name '{lexical}'"
  | unknownType lexical => s!"unknown atomic type '{lexical}'"
  | undeclaredVariable n => s!"variable ${n.text} is not declared"
  | missingGlobal n => s!"no value supplied for global variable ${n.text}"
  | noContextItem => "context item is undefined"
  | noPosition => "context position is undefined"
  | noSize => "context size is undefined"
  | nextMatchWithoutItem => "next-match needs a context item"
  | noOutput => "no output destination is available"
  | outputBusy => "output destination is already in use"
  | axisNeedsNode a => s!"{a.label} axis step needs a node as context item"
  | stepOnAtomic => "path step applied to an atomic value"
  | axisOnAtomics => "axis step applied to a sequence of atomic values"
  | mixedPath => "path result contains both nodes and atomic values"
  | unionOfAtomics => "union operands must be nodes"
  | unrelatedNodes => "document order requires adapter: nodes from different roots"
  | notExactlyOne => "exactly-one() requires exactly one item"
  | neverExactlyOne => "exactly-one() applied to an expression that is always empty"
  | moreThanOne => "zero-or-one() called with more than one item"
  | truthOfSeveral => "effective boolean value of a sequence of several atomic values"
  | predicateOfSeveral => "predicate evaluates to a sequence of several atomic values"
  | severalForOperand => "a sequence of more than one item is not allowed as an operand here"
  | emptyNotAllowed => "an empty sequence is not allowed here"
  | tooMany n => s!"a sequence of more than {n} item(s) is not allowed here"
  | alwaysEmpty => "an empty sequence is not allowed here, but the expression is always empty"
  | unsatisfiable c => s!"required cardinality {c.text} can never be satisfied"
  | emptyCast => "empty sequence cannot be cast without '?'"
  | alwaysEmptyCast => "cast of an empty sequence requires '?'"
  | emptyNumber => "numeric argument is empty"
  | notANumber t => s!"xs:{t.label} is not numeric"
  | rangeBound t => s!"range bound of type xs:{t.label} is not an xs:integer"
  | wrongArity f n => s!"{f.label}() takes {f.arity.1} to {f.arity.2} arguments, {n} supplied"
  | noArguments f => s!"{f.label}() called without arguments"
  | tooFewArguments f => s!"{f.label}() needs at least two arguments"
  | slotUnassigned n => s!"local slot {n} read before assignment"
  | noRebinding n id =>
    s!"no rebinding for variable ${n.text} (binding {id}) referenced by copied expression"
  | staleProperties => "stale static properties"
  | noRule mode item => s!"no rule in mode {mode.text} matches {item}"
  | noCurrentRule => "next-match called with no current rule"
  | noRuleTables => "current rule set without rule tables"
  | undefinedMode mode => s!"mode {mode.text} is not defined"
  | noSuchRule index mode => s!"rule {index} does not exist in mode {mode.text}"
  | unranked mode => s!"mode {mode.text} dispatched before its rules were ranked"
  | tooDeep => "rules are applied too deeply inside each other"
  | raised _ message => message

end Cause

/-- What went wrong, when it was noticed, where, and through which other error. -/
structure Error where
  cause : Cause
  kind : ErrorKind
  location : Option Location
  source : Option Error

namespace Error

/-- An error noticed at the time that is usual for its code. -/
def of (c : Cause) : Error := ⟨c, (c.code?.map (·.defaultKind)).getD .dynamic, none, none⟩

/-- A host's error with one of the known codes, noticed at the time that is usual for it. -/
def ofCode (c : ErrorCode) (message : String) : Error :=
  ⟨.raised c.name message, c.defaultKind, none, none⟩

/-- An error noticed during analysis. -/
def static (c : Cause) : Error := ⟨c, .static, none, none⟩

/-- Attaches a place, unless there is one already or the place is unknown. -/
def located (e : Error) (l : Location) : Error :=
  if e.location.isNone && !l.isUnknown then { e with location := some l } else e

/-- The name of the code. -/
def code (e : Error) : Name := e.cause.code

/-- The wording. -/
def message (e : Error) : String := e.cause.message

/-- The code, if its name is one of those known here. -/
def knownCode (e : Error) : ErrorCode :=
  if e.code.space = some Name.errorSpace ∨ e.code.space = some Name.ownErrorSpace then
    ErrorCode.ofLabel e.code.localPart
  else .unknown

/-- The written form of the code: standard codes with `err:` in front, all others in full. -/
def codeText (e : Error) : String :=
  if e.code.space = some Name.errorSpace then "err:" ++ e.code.localPart else e.code.text

/-- The written form of an error. -/
def text (e : Error) : String :=
  let place := match e.location with
    | some l => " at " ++ l.text
    | none => ""
  "error: " ++ e.message ++ " (" ++ e.codeText ++ ")" ++ place

@[simp] theorem located_unknown (e : Error) : e.located .unknown = e := by
  simp [Error.located, Location.isUnknown]

theorem located_located (e : Error) (l m : Location) :
    (e.located l).located m = if l.isUnknown then e.located m else e.located l := by
  by_cases hl : l.isUnknown = true
  · simp [Error.located, hl]
  · by_cases he : e.location.isNone = true <;> simp [Error.located, hl, he]

end Error

end TreeQuery
