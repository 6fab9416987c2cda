import PullQuery.Calendar.DateTime
import PullQuery.Duration
import PullQuery.Error
import PullQuery.Fields
import PullQuery.Number.Binary.OfDecimal

namespace PullQuery

inductive Item
  | null
  | boolean (b : Bool)
  | string (s : String)
  | int (i : Int32)
  | integer (n : Int)
  | decimal (d : Decimal)
  | double (x : Float)
  | float (x : Float32)
  | date (d : Date) (zone : Option Zone)
  | time (t : Clock) (zone : Option Zone)
  | dateTime (p : DateTime) (zone : Option Zone)
  | duration (d : Duration)
  | yearMonthDuration (months : Int32)
  | dayTimeDuration (d : Delta)
  | object (fields : List (String × Item))
  | array (members : Array Item)

abbrev Items := List Item

namespace Item

def type : Item → ItemType
  | .null => .null
  | .boolean _ => .boolean
  | .string _ => .string
  | .int _ => .int
  | .integer _ => .integer
  | .decimal _ => .decimal
  | .double _ => .double
  | .float _ => .float
  | .date .. => .date
  | .time .. => .time
  | .dateTime .. => .dateTime
  | .duration _ => .duration
  | .yearMonthDuration _ => .yearMonthDuration
  | .dayTimeDuration _ => .dayTimeDuration
  | .object _ => .object
  | .array _ => .array

def isAtomic (a : Item) : Bool := a.type.isAtomic

def isNumeric (a : Item) : Bool := a.type.isNumeric

def ofInt (n : Int) : Item :=
  match Word.ofInt? n with
  | some i => .int i
  | none => .integer n

def ofNat (n : Nat) : Item := ofInt n

def ofDuration (kind : Duration.Kind) (d : Duration) : Item :=
  match kind with
  | .full => .duration d
  | .yearMonth => .yearMonthDuration d.months
  | .dayTime => .dayTimeDuration d.delta

def ofFields (fs : List (String × Item)) : Item := .object (Fields.ofList fs)

def ofMembers (items : Items) : Item := .array items.toArray

def string? : Item → Option String
  | .string s => some s
  | _ => none

def boolean? : Item → Option Bool
  | .boolean b => some b
  | _ => none

def fields? : Item → Option (Fields Item)
  | .object fs => some fs
  | _ => none

def members? : Item → Option (Array Item)
  | .array ms => some ms
  | _ => none

def keys (a : Item) : List String := Fields.names (a.fields?.getD [])

def field? (name : String) (a : Item) : Option Item := a.fields?.bind (Fields.find? name)

def members (a : Item) : Array Item := a.members?.getD #[]

/-- Positions count from one. -/
def member? (position : Nat) (a : Item) : Option Item :=
  match position with
  | 0 => none
  | n + 1 => a.members[n]?

def duration? : Item → Option Duration
  | .duration d => some d
  | .yearMonthDuration m => some (.ofMonths m)
  | .dayTimeDuration d => some (.ofDelta d)
  | _ => none

def integer? : Item → Option Int
  | .int i => some i.toInt
  | .integer n => some n
  | _ => none

def decimal? : Item → Option Decimal
  | .int i => some (.ofInt i.toInt)
  | .integer n => some (.ofInt n)
  | .decimal d => some d
  | _ => none

def double? : Item → Option Float
  | .int i => some (Binary.ofInt .double i.toInt).toDouble
  | .integer n => some (Binary.ofInt .double n).toDouble
  | .decimal d => some (Binary.ofDecimal d).toDouble
  | .double x => some x
  | .float x => some (Binary.widen x)
  | _ => none

def float? : Item → Option Float32
  | .int i => some (Binary.ofInt .single i.toInt).toSingle
  | .integer n => some (Binary.ofInt .single n).toSingle
  | .decimal d => some (Binary.narrow (Binary.ofDecimal d).toDouble)
  | .double x => some (Binary.narrow x)
  | .float x => some x
  | _ => none

def sameBinary (a b : Binary) : Bool := a.compare? b == some .eq

mutual

/-- Equality of items of one type: numbers by value, objects whatever the order of their fields. -/
def same : Item → Item → Bool
  | .null, .null => true
  | .boolean a, .boolean b => a == b
  | .string a, .string b => a == b
  | .int a, .int b => a == b
  | .integer a, .integer b => a == b
  | .decimal a, .decimal b => a.sameValue b
  | .double a, .double b => sameBinary (.ofDouble a) (.ofDouble b)
  | .float a, .float b => sameBinary (.ofSingle a) (.ofSingle b)
  | .date a z, .date b y => a == b && z == y
  | .time a z, .time b y => a == b && z == y
  | .dateTime a z, .dateTime b y => a == b && z == y
  | .duration a, .duration b => a == b
  | .yearMonthDuration a, .yearMonthDuration b => a == b
  | .dayTimeDuration a, .dayTimeDuration b => a == b
  | .object fs, .object gs => fs.length == gs.length && sameFields fs gs
  | .array ⟨ms⟩, .array ⟨ns⟩ => sameMembers ms ns
  | _, _ => false

def sameFields : List (String × Item) → List (String × Item) → Bool
  | [], _ => true
  | (k, v) :: fs, gs =>
    match Fields.find? k gs with
    | some w => same v w && sameFields fs gs
    | none => false

def sameMembers : List Item → List Item → Bool
  | [], [] => true
  | a :: as, b :: bs => same a b && sameMembers as bs
  | _, _ => false

end

def truth : Item → Except Error Bool
  | .null => .ok false
  | .boolean b => .ok b
  | .string s => .ok (s != "")
  | .int i => .ok (i != 0)
  | .integer n => .ok (n != 0)
  | .decimal d => .ok (!d.isZero)
  | .double x => .ok (!(Binary.ofDouble x).isZero && !(Binary.ofDouble x).isNaN)
  | .float x => .ok (!(Binary.ofSingle x).isZero && !(Binary.ofSingle x).isNaN)
  | .object _ | .array _ => .ok true
  | a => .error (.of (.truthOf a.type))

end Item

/-- A sequence is true when it starts with a container, and false when it is empty; otherwise it
must be a single item. -/
def Items.truth : Items → Except Error Bool
  | [] => .ok false
  | a :: rest =>
    if a.isAtomic && !rest.isEmpty then .error (.of .truthOfSeveral) else a.truth

structure Projection where
  names : List String

namespace Projection

def permits (p : Projection) (name : String) : Bool := p.names.contains name

def apply (p : Projection) : Item → Item
  | .object fields => .object (fields.filter fun f => p.permits f.1)
  | a => a

theorem apply_apply (p : Projection) (a : Item) : p.apply (p.apply a) = p.apply a := by
  cases a <;> simp [apply]

end Projection

end PullQuery
