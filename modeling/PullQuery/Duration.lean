import PullQuery.Number.Word
import PullQuery.Calendar.Delta

namespace PullQuery

structure Duration where
  months : Int32
  delta : Delta
deriving DecidableEq

namespace Duration

inductive Kind
  | full
  | yearMonth
  | dayTime
deriving DecidableEq, Repr

def Kind.name : Kind → String
  | .full => "duration"
  | .yearMonth => "yearMonthDuration"
  | .dayTime => "dayTimeDuration"

def ofMonths (m : Int32) : Duration := ⟨m, .zero⟩

def ofDelta (d : Delta) : Duration := ⟨0, d⟩

def isNegative (d : Duration) : Bool := d.months.toInt < 0 || d.delta.nanos < 0

end Duration

end PullQuery
