/-
Casting.

`Value.cast` turns a value into one of another type.  A value that already belongs to the target
type is returned as it is, so a cast of an integer to a decimal leaves an integer.  Texts are read
by the lexical forms of the target, after removal of blanks; numbers and booleans are converted
through a double.
-/
import TreeQuery.Error
import TreeQuery.Number.Reading
import TreeQuery.Text.Blank
import TreeQuery.Value.Basic

namespace TreeQuery

/-- Reads the lexical form of a floating-point type, with blanks around it. -/
def parseDouble? (s : String) : Option Float := readFloating? (trimBlanks s)

namespace Value

/-- Whether a value is cast by reading its text. -/
def isLexical : Value → Bool
  | string _ => true
  | untyped _ => true
  | _ => false

/-- A number or a boolean as a double. -/
def convertible? : Value → Option Float
  | boolean b => some (doubleOfInt (if b then 1 else 0))
  | v => v.number?

/-- Reads an integer; a form that is right but too large for 64 bits is an error of its own. -/
def parseInteger (s : String) : Except Error Int64 :=
  let cs := trimBlanks s
  match readInteger? cs with
  | none => .error (.of (.invalidLexical s .integer))
  | some n =>
    match int64? n with
    | some i => .ok i
    | none => .error (.of (.integerOutOfRange (String.ofList cs)))

/-- The whole part of a double as an integer. -/
def truncateDouble (x : Float) : Except Error Int64 :=
  match (Unpacked.ofDouble x).truncate? with
  | none => .error (.of (.invalidLexical (floatingText x) .integer))
  | some n =>
    match int64? n with
    | some i => .ok i
    | none => .error (.of .castOverflow)

/-- Reads a boolean. -/
def parseBoolean (s : String) : Except Error Bool :=
  let t := String.ofList (trimBlanks s)
  if t == "true" || t == "1" then .ok true
  else if t == "false" || t == "0" then .ok false
  else .error (.of (.invalidLexical s .boolean))

/-- The double meant by a value: read from a text, converted from a number or a boolean. -/
def toDouble (v : Value) (target : AtomicType) : Except Error Float :=
  if v.isLexical then
    match parseDouble? v.text with
    | some x => .ok x
    | none => .error (.of (.invalidLexical v.text target))
  else
    match v.convertible? with
    | some x => .ok x
    | none => .error (.of (.notCastable v.type target))

/-- The finite double that stands for a decimal. -/
def toDecimal (v : Value) : Except Error Float :=
  let found : Except Error Float :=
    if v.isLexical then
      match readDecimal? (trimBlanks v.text) with
      | some x => .ok x
      | none => .error (.of (.invalidLexical v.text .decimal))
    else v.toDouble .decimal
  match found with
  | .error e => .error e
  | .ok x => if x.isFinite then .ok x else .error (.of (.invalidLexical v.text .decimal))

/-- The integer meant by a value. -/
def toInteger (v : Value) : Except Error Int64 :=
  if v.isLexical then parseInteger v.text
  else
    match v.convertible? with
    | some x => truncateDouble x
    | none => .error (.of (.notCastable v.type .integer))

/-- The boolean meant by a value: a number is true unless it is zero or not a number. -/
def toBoolean (v : Value) : Except Error Bool :=
  if v.isLexical then parseBoolean v.text
  else
    match v.convertible? with
    | some x => .ok (truthOfDouble x)
    | none => .error (.of (.notCastable v.type .boolean))

/-- Casts a value to a type.  A cast to `numeric` leaves numbers alone and makes a double of
everything else. -/
def cast (v : Value) (target : AtomicType) : Except Error Value :=
  if target ≠ .anyAtomic ∧ v.type.isSubtypeOf target then .ok v
  else
    match target with
    | .anyAtomic => .error (.static (.abstractTarget .anyAtomic))
    | .string => .ok (.string v.text)
    | .untypedAtomic => .ok (.untyped v.text)
    | .anyURI =>
      if v.isLexical then .ok (.uri (String.ofList (trimBlanks v.text)))
      else .error (.of (.notCastable v.type target))
    | .boolean => v.toBoolean.map .boolean
    | .double => (v.toDouble target).map .double
    | .numeric => (v.toDouble target).map .double
    | .float => (v.toDouble target).map fun x => .float (singleOfDouble x)
    | .decimal => v.toDecimal.map .decimal
    | .integer => v.toInteger.map .integer

end Value

/-- How the text of an untyped value is turned into a number: a text that is none is an error, or
counts as not a number. -/
inductive Conversion where
  | strict
  | lenient
  deriving DecidableEq, Repr

namespace Conversion

/-- Both of them. -/
def all : List Conversion := [.strict, .lenient]

/-- The written form. -/
def label : Conversion → String
  | .strict => "strict"
  | .lenient => "lenient"

end Conversion

/-- Casts an untyped value and leaves every other value alone.  Only a conversion to a double can
be lenient. -/
def Value.convertUntyped (v : Value) (target : AtomicType) (conversion : Conversion) :
    Except Error Value :=
  match v with
  | .untyped _ =>
    match v.cast target with
    | .ok w => .ok w
    | .error e =>
      if conversion = .lenient ∧ e.knownCode = .FORG0001 ∧ (target = .double ∨ target = .numeric) then
        .ok (.double notANumber)
      else .error e
  | _ => .ok v

end TreeQuery
