namespace PullQuery

inductive ItemType
  | null
  | boolean
  | string
  | int
  | integer
  | decimal
  | double
  | float
  | date
  | time
  | dateTime
  | duration
  | yearMonthDuration
  | dayTimeDuration
  | object
  | array
deriving DecidableEq, Repr

namespace ItemType

def name : ItemType → String
  | .null => "null"
  | .boolean => "boolean"
  | .string => "string"
  | .int => "int"
  | .integer => "integer"
  | .decimal => "decimal"
  | .double => "double"
  | .float => "float"
  | .date => "date"
  | .time => "time"
  | .dateTime => "dateTime"
  | .duration => "duration"
  | .yearMonthDuration => "yearMonthDuration"
  | .dayTimeDuration => "dayTimeDuration"
  | .object => "object"
  | .array => "array"

def all : List ItemType :=
  [.null, .boolean, .string, .int, .integer, .decimal, .double, .float, .date, .time, .dateTime,
    .duration, .yearMonthDuration, .dayTimeDuration, .object, .array]

def ofName? (name : String) : Option ItemType := all.find? (·.name == name)

def isInteger (t : ItemType) : Bool := t == .int || t == .integer

def isDecimal (t : ItemType) : Bool := t.isInteger || t == .decimal

def isNumeric (t : ItemType) : Bool := t.isDecimal || t == .double || t == .float

def isAtomic (t : ItemType) : Bool := t != .object && t != .array

def isDuration (t : ItemType) : Bool :=
  t == .duration || t == .yearMonthDuration || t == .dayTimeDuration

def isPoint (t : ItemType) : Bool := t == .date || t == .time || t == .dateTime

end ItemType

end PullQuery
