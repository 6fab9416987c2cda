import PullQuery.Calendar.Date
import PullQuery.Calendar.Clock
import PullQuery.Calendar.Zone

/-!
Points in time: a local date and time of day, and the instant they stand for once a zone is known.
Instants count days without a bound: at the ends of the calendar, a local value can stand for one
that the calendar does not have. The program cannot compute such an instant and stops;
`Arithmetic.placing` does so wherever two points are placed.
-/

namespace PullQuery

structure DateTime where
  date : Date
  time : Clock
deriving DecidableEq

structure Instant where
  day : Int
  time : Clock
deriving DecidableEq

namespace Instant

def add (i : Instant) (d : Delta) : Instant :=
  let (time, days) := i.time.add d
  ⟨i.day + days, time⟩

def since (i j : Instant) : Int := (i.day - j.day) * 86400 * Delta.perSecond + i.time.since j.time

def compare (i j : Instant) : Ordering :=
  (Ord.compare i.day j.day).then <|
    (Ord.compare i.time.second j.time.second).then (Ord.compare i.time.nanos j.time.nanos)

def toDateTime? (i : Instant) : Option DateTime := (Date.ofDays? i.day).map (⟨·, i.time⟩)

end Instant

def Zone.toDelta (z : Zone) : Delta where
  nanos := z.seconds * Delta.perSecond
  bounded := by
    have := z.bounded
    simp only [Delta.limit, Delta.perSecond]
    omega

namespace DateTime

def referenceDate : Date := ⟨1972, 12, 31, by decide, by decide, by decide⟩

def startOf (d : Date) : DateTime := ⟨d, .midnight⟩

def onReferenceDate (t : Clock) : DateTime := ⟨referenceDate, t⟩

/-- The instant of a local value in the given zone, or in the implicit one. -/
def toInstant (p : DateTime) (zone : Option Zone) (implicit : Zone) : Instant :=
  (Instant.mk p.date.toDays p.time).add (zone.getD implicit).toDelta.neg

def shift? (p : DateTime) (months : Int) (d : Delta) : Option DateTime := do
  let date ← p.date.addMonths? months
  ((Instant.mk date.toDays p.time).add d).toDateTime?

end DateTime

end PullQuery
