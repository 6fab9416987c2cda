import PullQuery.Arithmetic.Numeric
import PullQuery.Arithmetic.Points

namespace PullQuery

namespace Arithmetic

def additiveTemporal (op : AdditiveOp) (implicit : Zone) (l r : Item) :
    Except Error (Option Item) :=
  match l, r with
  | .yearMonthDuration m, .yearMonthDuration n =>
    let total := match op with
      | .add => m.toInt + n.toInt
      | .subtract => m.toInt - n.toInt
    (overflowing (Word.ofInt? total)).map fun m => some (.yearMonthDuration m)
  | .dayTimeDuration d, .dayTimeDuration e =>
    let total := match op with
      | .add => d.nanos + e.nanos
      | .subtract => d.nanos - e.nanos
    (overflowing (Delta.ofNanos? total)).map fun d => some (.dayTimeDuration d)
  | l, r =>
    match op with
    | .add =>
      match offset? l, offset? r with
      | _, some o => move l o
      | some o, none => move r o
      | none, none => .ok none
    | .subtract =>
      match offset? r with
      | some o => if l.type.isPoint then o.neg.bind (move l) else .ok none
      | none => difference implicit l r

end Arithmetic

open Arithmetic

def AdditiveOp.apply (op : AdditiveOp) (implicit : Zone) (l r : Item) :
    Except Error (Option Item) :=
  match promote? additiveWords l r with
  | some ns => .ok (some (additiveNumbers op ns))
  | none => additiveTemporal op implicit l r

/-- Of sums and differences, only the difference of two points places them. -/
def AdditiveOp.evaluate (op : AdditiveOp) (implicit : Zone) (l r : Item) :
    Except Error (Option Item) :=
  match op with
  | .add => op.apply implicit l r
  | .subtract => placing implicit l r (op.apply implicit l r)

namespace Arithmetic

def scale (duration n : Item) : Except Error (Option Item) :=
  match duration with
  | .yearMonthDuration m => do
    let factor ← scalar n
    let m ← monthsTimes m factor
    .ok (some (.yearMonthDuration m))
  | .dayTimeDuration d => do
    let factor ← scalar n
    let d ← deltaTimes d factor
    .ok (some (.dayTimeDuration d))
  | _ => .ok none

def unscale (duration n : Item) : Except Error (Option Item) :=
  match duration with
  | .yearMonthDuration m => do
    let factor ← (scalar n).bind inverse
    let m ← monthsTimes m factor
    .ok (some (.yearMonthDuration m))
  | .dayTimeDuration d => do
    let factor ← (scalar n).bind inverse
    let d ← deltaTimes d factor
    .ok (some (.dayTimeDuration d))
  | _ => .ok none

def ratio (l r : Int) : Except Error (Option Item) :=
  if r = 0 then .error (.of .divisionByZero)
  else .ok (some (.decimal ((Decimal.ofInt l).div (.ofInt r))))

def multiplicativeTemporal (op : MultiplicativeOp) (l r : Item) : Except Error (Option Item) :=
  match op with
  | .multiply => if r.isNumeric then scale l r else if l.isNumeric then scale r l else .ok none
  | .divide =>
    if r.isNumeric then unscale l r
    else
      match l, r with
      | .yearMonthDuration m, .yearMonthDuration n => ratio m.toInt n.toInt
      | .dayTimeDuration d, .dayTimeDuration e => ratio d.nanos e.nanos
      | _, _ => .ok none
  | _ => .ok none

end Arithmetic

def MultiplicativeOp.apply (op : MultiplicativeOp) (l r : Item) : Except Error (Option Item) :=
  match promote? (fun _ _ => op != .divide) l r with
  | some ns => (multiplicativeNumbers op ns).map some
  | none => multiplicativeTemporal op l r

inductive UnaryOp
  | plus
  | minus
deriving DecidableEq, Repr

def UnaryOp.symbol : UnaryOp → String
  | .plus => "+"
  | .minus => "-"

namespace Arithmetic

def negate : Item → Except Error (Option Item)
  | .int i => .ok (some (.ofInt (-i.toInt)))
  | .integer n => .ok (some (.integer (-n)))
  | .decimal d => .ok (some (.decimal d.neg))
  | .double x => .ok (some (.double (-x)))
  | .float x => .ok (some (.float (-x)))
  | .yearMonthDuration m =>
    (overflowing (Word.ofInt? (-m.toInt))).map fun m => some (.yearMonthDuration m)
  | .dayTimeDuration d => .ok (some (.dayTimeDuration d.neg))
  | .duration d =>
    (overflowing (Word.ofInt? (-d.months.toInt))).map fun m => some (.duration ⟨m, d.delta.neg⟩)
  | _ => .ok none

end Arithmetic

def UnaryOp.apply (op : UnaryOp) (a : Item) : Except Error Item := do
  let result ← match op with
    | .plus => .ok (if a.isNumeric || a.type.isDuration then some a else none)
    | .minus => negate a
  match result with
  | some b => .ok b
  | none => .error (.of (.noUnaryRule op.symbol a.type))

end PullQuery
