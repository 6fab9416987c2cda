import PullQuery.Item

namespace PullQuery

namespace Arithmetic

inductive Offset
  | months (m : Int32)
  | span (d : Delta)

def overflowing {α : Type} : Option α → Except Error α
  | some a => .ok a
  | none => .error (.of .pointOverflow)

namespace Offset

def monthCount : Offset → Int
  | .months m => m.toInt
  | .span _ => 0

def delta : Offset → Delta
  | .months _ => .zero
  | .span d => d

/-- The least count of months has no opposite. -/
def neg : Offset → Except Error Offset
  | .months m => (overflowing (Word.ofInt? (-m.toInt))).map .months
  | .span d => .ok (.span d.neg)

end Offset

def offset? : Item → Option Offset
  | .yearMonthDuration m => some (.months m)
  | .dayTimeDuration d => some (.span d)
  | _ => none

def move (point : Item) (offset : Offset) : Except Error (Option Item) :=
  match point with
  | .date d zone =>
    (overflowing ((DateTime.startOf d).shift? offset.monthCount offset.delta)).map fun p =>
      some (.date p.date zone)
  | .time t zone =>
    match offset with
    | .months _ => .ok none
    | .span d => .ok (some (.time (t.add d).1 zone))
  | .dateTime p zone =>
    (overflowing (p.shift? offset.monthCount offset.delta)).map fun p => some (.dateTime p zone)
  | _ => .ok none

/-- The instant of a point; a date stands for its midnight and a time is on the reference date. -/
def instant? (implicit : Zone) : Item → Option Instant
  | .date d zone => some ((DateTime.startOf d).toInstant zone implicit)
  | .time t zone => some ((DateTime.onReferenceDate t).toInstant zone implicit)
  | .dateTime p zone => some (p.toInstant zone implicit)
  | _ => none

def isPlaced (implicit : Zone) (a : Item) : Bool :=
  (instant? implicit a).all fun i => i.toDateTime?.isSome

def isBeyond (implicit : Zone) (l r : Item) : Bool :=
  l.type == r.type && !(isPlaced implicit l && isPlaced implicit r)

/-- The result for two items. The program stops instead if it has to place two points of one type
and the calendar does not have the instant of one of them. -/
def placing {α : Type} (implicit : Zone) (l r : Item) (result : Except Error α) : Except Error α :=
  if isBeyond implicit l r then .error (.of .stopped) else result

section

variable {α : Type} {implicit : Zone} {l r : Item}

theorem placing_of_beyond (h : isBeyond implicit l r = true) (result : Except Error α) :
    placing implicit l r result = .error (.of .stopped) := if_pos h

theorem placing_of_placed (h : isBeyond implicit l r = false) (result : Except Error α) :
    placing implicit l r result = result := if_neg (Bool.eq_false_iff.1 h)

theorem isPlaced_of_not_isPoint {a : Item} (h : a.type.isPoint = false) :
    isPlaced implicit a = true := by
  cases a <;> first | rfl | cases h

theorem isBeyond_eq_false_iff : isBeyond implicit l r = false ↔
    (l.type = r.type → isPlaced implicit l = true ∧ isPlaced implicit r = true) := by
  rw [isBeyond, ← Bool.not_eq_true, Bool.and_eq_true, beq_iff_eq, Bool.not_eq_true',
    ← Bool.not_eq_true, Bool.and_eq_true, not_and, Classical.not_not]

theorem isBeyond_comm : isBeyond implicit l r = isBeyond implicit r l := by
  rw [isBeyond, isBeyond, BEq.comm, Bool.and_comm (isPlaced implicit l)]

end

def difference (implicit : Zone) (l r : Item) : Except Error (Option Item) :=
  match instant? implicit l, instant? implicit r with
  | some i, some j =>
    if l.type = r.type then
      (overflowing (Delta.ofNanos? (i.since j))).map fun d => some (.dayTimeDuration d)
    else .ok none
  | _, _ => .ok none

def scalar (n : Item) : Except Error Float :=
  match n.double? with
  | some x =>
    match Binary.ofDouble x with
    | .finite .. => .ok x
    | .nan => .error (.of .scaledByNaN)
    | .infinite _ => .error (.of .pointOverflow)
  | none => .error (.of .pointOverflow)

def scaled? (n : Int) (factor : Float) : Option Int :=
  (Binary.ofDouble ((Binary.ofInt .double n).toDouble * factor)).roundAway?

def monthsTimes (m : Int32) (factor : Float) : Except Error Int32 :=
  overflowing ((scaled? m.toInt factor).bind Word.ofInt?)

def deltaTimes (d : Delta) (factor : Float) : Except Error Delta :=
  overflowing do
    let n ← scaled? d.nanos factor
    if n.natAbs < Nat.pow 2 63 then Delta.ofNanos? n else none

def inverse (x : Float) : Except Error Float :=
  if (Binary.ofDouble x).isZero then .error (.of .pointOverflow) else .ok (1.0 / x)

end Arithmetic

end PullQuery
