import PullQuery.Function
import PullQuery.Calendar.Lexical

namespace PullQuery.Builtin

def castString (target s : String) (result : Option Item) : Except Error Item :=
  match result with
  | some a => .ok a
  | none => .error (.of (.notCastable s "string" target))

def toDate : Item → Except Error Item
  | .string s => castString "date" s ((Date.parse? s).map fun (d, zone) => .date d zone)
  | .date d zone => .ok (.date d zone)
  | .dateTime p zone => .ok (.date p.date zone)
  | a => .error (.of (.conversionArgument "date" a.type))

def toTime : Item → Except Error Item
  | .string s => castString "time" s ((Clock.parse? s).map fun (t, zone) => .time t zone)
  | .time t zone => .ok (.time t zone)
  | .dateTime p zone => .ok (.time p.time zone)
  | a => .error (.of (.conversionArgument "time" a.type))

def toDateTime : Item → Except Error Item
  | .string s => castString "dateTime" s ((DateTime.parse? s).map fun (p, zone) => .dateTime p zone)
  | .dateTime p zone => .ok (.dateTime p zone)
  | .date d zone => .ok (.dateTime (.startOf d) zone)
  | a => .error (.of (.conversionArgument "dateTime" a.type))

def ofNow (name : String) (f : Moment → Item) : Function where
  name := name
  apply site _ := .ok [f site.now]

def points : List Function :=
  [onOptional "date" toDate, onOptional "time" toTime, onOptional "dateTime" toDateTime]

def present : List Function :=
  [ofNow "current-dateTime" fun now => .dateTime now.value now.zone,
    ofNow "current-date" fun now => .date now.value.date now.zone,
    ofNow "current-time" fun now => .time now.value.time now.zone]

end PullQuery.Builtin
