import PullQuery.Item.Type

/-!
Errors: what went wrong, and where in the query. An error keeps the first position it is given.
`stopped` is none that a client sees: the program ends where it comes up, without an answer. It goes
on through a query as errors do, so that a run with it is the run of the program up to there.
-/

namespace PullQuery

structure Position where
  line : Nat
  column : Nat
deriving DecidableEq, Repr

def Position.text (p : Position) : String := s!"line {p.line}:{p.column}"

namespace Error

inductive Kind
  | flow
  | cardinality
  | type
  | cast
  | dynamic
  | static
deriving DecidableEq, Repr

inductive Code
  | flow0001
  | forg0003
  | forg0004
  | forg0005
  | xpty0004
  | forg0001
  | forg0006
  | foar0001
  | foar0002
  | fodt0001
  | xpdy0002
  | xpst0008
  | xpst0017
  | jndy0003
  | foer0000
deriving DecidableEq, Repr

namespace Code

def name : Code → String
  | .flow0001 => "FLOW0001"
  | .forg0003 => "FORG0003"
  | .forg0004 => "FORG0004"
  | .forg0005 => "FORG0005"
  | .xpty0004 => "XPTY0004"
  | .forg0001 => "FORG0001"
  | .forg0006 => "FORG0006"
  | .foar0001 => "FOAR0001"
  | .foar0002 => "FOAR0002"
  | .fodt0001 => "FODT0001"
  | .xpdy0002 => "XPDY0002"
  | .xpst0008 => "XPST0008"
  | .xpst0017 => "XPST0017"
  | .jndy0003 => "JNDY0003"
  | .foer0000 => "FOER0000"

def text (c : Code) : String := "err:" ++ c.name

def all : List Code :=
  [.flow0001, .forg0003, .forg0004, .forg0005, .xpty0004, .forg0001, .forg0006, .foar0001,
    .foar0002, .fodt0001, .xpdy0002, .xpst0008, .xpst0017, .jndy0003, .foer0000]

def kind : Code → Kind
  | .flow0001 => .flow
  | .forg0003 | .forg0004 | .forg0005 => .cardinality
  | .xpty0004 | .forg0006 => .type
  | .forg0001 => .cast
  | .xpst0008 | .xpst0017 => .static
  | .foar0001 | .foar0002 | .fodt0001 | .xpdy0002 | .jndy0003 | .foer0000 => .dynamic

end Code

inductive Malformed
  | noType
  | noValue
  | notLexical
  | notFloating
  | floating (text : String)
  | invalid (type : ItemType)
  | unknownType (name : String)
deriving DecidableEq, Repr

def Malformed.text : Malformed → String
  | .noType => "missing type tag"
  | .noValue => "missing value"
  | .notLexical => "expected a lexical string"
  | .notFloating => "expected a floating point value"
  | .floating text => s!"\"{text}\" is not a floating point value"
  | .invalid type => s!"invalid {type.name}"
  | .unknownType name => s!"unknown type tag \"{name}\""

inductive Cause
  | notOpened (operator : String)
  | closed (operator : String)
  | exhausted (operator : String)
  | severalItems
  | severalOperandItems (expression side : String)
  | severalConstructorItems (constructor : String)
  | severalArgumentItems (function : String) (index found : Nat)
  | notZeroOrOne (found : Nat)
  | notExactlyOne (found : Nat)
  | noRule (operator left right : String)
  | noUnaryRule (operator : String) (operand : ItemType)
  | notCastable (literal source target : String)
  | divisionByZero
  | indivisible
  | unrepresentableQuotient
  | pointOverflow
  | scaledByNaN
  | incomparableKeys (left right : ItemType)
  | noStringValue (type : ItemType)
  | truthOfSeveral
  | truthOf (type : ItemType)
  | rangeBound (type : ItemType)
  | keyCount (found : Nat)
  | keyType (type : ItemType)
  | duplicateKey (key : String)
  | lookupKey
  | lookupPosition
  | projectionKey (type : ItemType)
  | unboundVariable (name : String)
  | unboundGroupingVariable (name : String)
  | structuredKey (clause : String) (type : ItemType)
  | severalKeyItems (clause : String) (found : Nat)
  | noFocus
  | noFocusForString
  | constructorArgument (constructor : String) (type : ItemType)
  | conversionArgument (function : String) (type : ItemType)
  | componentArgument (function : String) (type : ItemType)
  | sizeArgument (type : ItemType)
  | unknownFunction (name : String)
  | wrongArity (name : String) (known : List Nat)
  | unreadable
  | malformedItem (what : Malformed)
  | columnCount (expected found : Nat)
  | raised (code : Code) (text : String)
  | stopped
deriving DecidableEq, Repr

namespace Cause

def code : Cause → Code
  | .notOpened _ | .closed _ | .exhausted _ => .flow0001
  | .severalItems | .severalOperandItems .. | .severalConstructorItems _ | .severalArgumentItems ..
  | .notZeroOrOne _ => .forg0003
  | .notExactlyOne _ => .forg0005
  | .noRule .. | .noUnaryRule .. | .incomparableKeys .. | .noStringValue _ | .rangeBound _
  | .keyCount _ | .keyType _ | .lookupKey | .lookupPosition | .projectionKey _ | .structuredKey ..
  | .severalKeyItems .. | .constructorArgument .. | .conversionArgument .. | .componentArgument ..
  | .sizeArgument _ => .xpty0004
  | .notCastable .. => .forg0001
  | .divisionByZero => .foar0001
  | .indivisible | .unrepresentableQuotient => .foar0002
  | .pointOverflow => .fodt0001
  | .truthOfSeveral | .truthOf _ => .forg0006
  | .unboundVariable _ | .unboundGroupingVariable _ => .xpst0008
  | .noFocus | .noFocusForString => .xpdy0002
  | .duplicateKey _ => .jndy0003
  | .unknownFunction _ | .wrongArity .. => .xpst0017
  | .scaledByNaN | .unreadable | .malformedItem _ | .columnCount .. | .stopped => .foer0000
  | .raised code _ => code

def message : Cause → String
  | .notOpened operator => s!"{operator}: next() called before open()"
  | .closed operator => s!"{operator}: next() called after close()"
  | .exhausted operator => s!"{operator}: no more items"
  | .severalItems => "a sequence of more than one item is not allowed here"
  | .severalOperandItems expression side =>
    let operand := if side.isEmpty then "" else side ++ " "
    s!"{expression} expression requires at most one item in its {operand}input sequence."
  | .severalConstructorItems constructor =>
    s!"{constructor}() expects at most one item as its argument"
  | .severalArgumentItems function index found =>
    s!"{function}() expects at most one item as argument {index}, found {found}"
  | .notZeroOrOne found => s!"zero-or-one() called with a sequence of {found} items"
  | .notExactlyOne found => s!"exactly-one() called with a sequence of {found} items"
  | .noRule operator left right =>
    s!"\"{operator}\": operation not possible with parameters of type \"{left}\" and \"{right}\""
  | .noUnaryRule operator operand =>
    s!"\"{operator}\": operation not possible with parameter of type \"{operand.name}\""
  | .notCastable literal source target =>
    s!"\"{literal}\": value of type {source} is not castable to type {target}"
  | .divisionByZero => "division by zero"
  | .indivisible => "numeric overflow: idiv operand is NaN or infinite"
  | .unrepresentableQuotient => "numeric overflow: idiv quotient is not representable"
  | .pointOverflow => "overflow in date/time arithmetic"
  | .scaledByNaN => "cannot scale a duration by NaN"
  | .incomparableKeys left right =>
    s!"order by keys of type \"{left.name}\" and \"{right.name}\" are not comparable"
  | .noStringValue type => s!"an item of type {type.name} has no string value"
  | .truthOfSeveral =>
    "effective boolean value is not defined for a sequence of two or more atomic items"
  | .truthOf type => s!"effective boolean value is not defined for an item of type {type.name}"
  | .rangeBound type =>
    s!"Range expression requires integer bounds, found an item of type \"{type.name}\""
  | .keyCount found =>
    s!"an object key must be exactly one string, found a sequence of {found} items"
  | .keyType type => s!"an object key must be a string, found an item of type \"{type.name}\""
  | .duplicateKey key => s!"duplicate key \"{key}\" in object constructor"
  | .lookupKey => "an object lookup key must be exactly one atomic item"
  | .lookupPosition => "an array lookup position must be exactly one integer"
  | .projectionKey type => s!"project() keys must be strings, found an item of type \"{type.name}\""
  | .unboundVariable name => s!"variable ${name} is not bound"
  | .unboundGroupingVariable name => s!"grouping variable ${name} is not bound"
  | .structuredKey clause type =>
    s!"{clause} keys must be atomic, found an item of type \"{type.name}\""
  | .severalKeyItems clause found => s!"{clause} keys must hold at most one item, found {found}"
  | .noFocus => "the context item is absent"
  | .noFocusForString => "string() without argument needs a context item"
  | .constructorArgument constructor type =>
    s!"{constructor}() expects a string or a duration, found an item of type \"{type.name}\""
  | .conversionArgument function type =>
    s!"{function}() cannot convert an item of type \"{type.name}\""
  | .componentArgument function type =>
    s!"{function}() expects a duration, found an item of type \"{type.name}\""
  | .sizeArgument type => s!"size() expects an array, found an item of type \"{type.name}\""
  | .unknownFunction name => s!"unknown function {name}()"
  | .wrongArity name known =>
    let arities := ", ".intercalate (known.map Nat.repr)
    s!"function {name}() cannot be called with this arity (known arities: {arities})"
  | .unreadable => "codec error: not a JSON list"
  | .malformedItem what => s!"malformed encoded item: {what.text}"
  | .columnCount expected found => s!"expected {expected} encoded columns, got {found}"
  | .raised _ text => text
  | .stopped => "an instant is beyond the calendar"

def kind (c : Cause) : Kind := c.code.kind

end Cause

end Error

structure Error where
  cause : Error.Cause
  position : Option Position
deriving DecidableEq, Repr

namespace Error

def of (cause : Cause) : Error := ⟨cause, none⟩

def code (e : Error) : Code := e.cause.code

def kind (e : Error) : Kind := e.cause.kind

def isFlow (e : Error) : Bool := e.kind == .flow

/-- Gives a position to an error that has none. -/
def locate (e : Error) (p : Position) : Error := ⟨e.cause, e.position <|> some p⟩

def text (e : Error) : String :=
  let place := match e.position with
    | none => ""
    | some p => s!" (at {p.text})"
  s!"{e.code.text}: {e.cause.message}{place}"

@[simp] theorem locate_cause (e : Error) (p : Position) : (e.locate p).cause = e.cause := rfl

theorem locate_locate (e : Error) (p q : Position) : (e.locate p).locate q = e.locate p := by
  cases e with
  | mk cause position => cases position <;> rfl

end Error

end PullQuery
