import PullQuery.Function

namespace PullQuery.Duration

inductive Component
  | years
  | months
  | days
  | hours
  | minutes
  | seconds
deriving DecidableEq, Repr

namespace Component

def functionName : Component → String
  | .years => "years-from-duration"
  | .months => "months-from-duration"
  | .days => "days-from-duration"
  | .hours => "hours-from-duration"
  | .minutes => "minutes-from-duration"
  | .seconds => "seconds-from-duration"

def all : List Component := [.years, .months, .days, .hours, .minutes, .seconds]

end Component

def component (d : Duration) : Component → Item
  | .years => .ofInt (d.months.toInt.tdiv 12)
  | .months => .ofInt (d.months.toInt.tmod 12)
  | .days => .ofInt (d.delta.seconds.tdiv 86400)
  | .hours => .ofInt ((d.delta.seconds.tdiv 3600).tmod 24)
  | .minutes => .ofInt ((d.delta.seconds.tdiv 60).tmod 60)
  | .seconds => .decimal (Decimal.mk (d.delta.nanos.tmod (60 * Delta.perSecond)) 9).normalized

end PullQuery.Duration

namespace PullQuery.Builtin

def componentFunction (c : Duration.Component) : Function :=
  onOptional c.functionName fun a =>
    match a.duration? with
    | some d => .ok (d.component c)
    | none => .error (.of (.componentArgument c.functionName a.type))

end PullQuery.Builtin
