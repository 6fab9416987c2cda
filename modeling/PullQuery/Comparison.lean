import PullQuery.Arithmetic.Points

namespace PullQuery

inductive ComparisonOp
  | eq
  | ne
  | lt
  | le
  | gt
  | ge
deriving DecidableEq, Repr

namespace ComparisonOp

def keyword : ComparisonOp → String
  | .eq => "eq"
  | .ne => "ne"
  | .lt => "lt"
  | .le => "le"
  | .gt => "gt"
  | .ge => "ge"

def symbol : ComparisonOp → String
  | .eq => "="
  | .ne => "!="
  | .lt => "<"
  | .le => "<="
  | .gt => ">"
  | .ge => ">="

def holds : ComparisonOp → Ordering → Bool
  | .eq, o => o == .eq
  | .ne, o => o != .eq
  | .lt, o => o == .lt
  | .le, o => o != .gt
  | .gt, o => o == .gt
  | .ge, o => o != .lt

def swap : ComparisonOp → ComparisonOp
  | .lt => .gt
  | .le => .ge
  | .gt => .lt
  | .ge => .le
  | op => op

end ComparisonOp

namespace Comparison

inductive Outcome
  | ordered (o : Ordering)
  | unordered
  | equality (equal : Bool)

def ofBinaries (a b : Binary) : Outcome :=
  match a.compare? b with
  | some o => .ordered o
  | none => .unordered

def relateNumbers (l r : Item) : Option Outcome :=
  match l, r with
  | .int i, .int j => some (.ordered (compare i.toInt j.toInt))
  | l, r =>
    match l.decimal?, r.decimal? with
    | some a, some b => some (.ordered (a.compare b))
    | _, _ => do
      let x ← l.double?
      let y ← r.double?
      some (ofBinaries (.ofDouble x) (.ofDouble y))

def compareInstants? (implicit : Zone) (l r : Item) : Option Outcome := do
  let i ← Arithmetic.instant? implicit l
  let j ← Arithmetic.instant? implicit r
  if l.type = r.type then some (.ordered (i.compare j)) else none

def relateDurations (l r : Item) : Option Outcome := do
  let d ← l.duration?
  let e ← r.duration?
  some (.equality (d == e))

def relateAtomics (implicit : Zone) (l r : Item) : Option Outcome :=
  if l.isNumeric && r.isNumeric then relateNumbers l r
  else
    match l, r with
    | .string a, .string b => some (.ordered (compare a b))
    | .boolean a, .boolean b => some (.ordered (compare a.toNat b.toNat))
    | .yearMonthDuration m, .yearMonthDuration n => some (.ordered (compare m.toInt n.toInt))
    | .dayTimeDuration d, .dayTimeDuration e => some (.ordered (compare d.nanos e.nanos))
    | l, r => if l.type.isPoint then compareInstants? implicit l r else relateDurations l r

/-- Null comes before every other atomic; containers compare with nothing. -/
def relate (implicit : Zone) (l r : Item) : Option Outcome :=
  if !l.isAtomic || !r.isAtomic then none
  else
    match l, r with
    | .null, .null => some (.ordered .eq)
    | .null, _ => some (.ordered .lt)
    | _, .null => some (.ordered .gt)
    | l, r => relateAtomics implicit l r

def incomparable (operator : String) (l r : Item) : Error :=
  .of (.noRule operator l.type.name r.type.name)

end Comparison

open Comparison

def ComparisonOp.apply (op : ComparisonOp) (implicit : Zone) (l r : Item) : Except Error Bool :=
  match relate implicit l r with
  | some (.ordered o) => .ok (op.holds o)
  | some .unordered => .ok (op == .ne)
  | some (.equality equal) =>
    match op with
    | .eq => .ok equal
    | .ne => .ok !equal
    | _ => .error (incomparable op.keyword l r)
  | none => .error (incomparable op.keyword l r)

namespace Comparison

def anyRight (op : ComparisonOp) (implicit : Zone) (l : Item) : Items → Except Error Bool
  | [] => .ok false
  | r :: rs =>
    match op.apply implicit l r with
    | .ok true => .ok true
    | .ok false => anyRight op implicit l rs
    | .error _ => .error (incomparable op.symbol l r)

end Comparison

def ComparisonOp.applyGeneral (op : ComparisonOp) (implicit : Zone) :
    Items → Items → Except Error Bool
  | [], _ => .ok false
  | l :: ls, rs =>
    match anyRight op implicit l rs with
    | .ok true => .ok true
    | .ok false => op.applyGeneral implicit ls rs
    | .error e => .error e

namespace ComparisonOp

/-- The comparison of two items, where placing two points can stop the program. -/
def evaluate (op : ComparisonOp) (implicit : Zone) (l r : Item) : Except Error Bool :=
  Arithmetic.placing implicit l r (op.apply implicit l r)

def evaluatePairs (op : ComparisonOp) (implicit : Zone) : List (Item × Item) → Except Error Bool
  | [] => .ok false
  | (l, r) :: pairs =>
    Arithmetic.placing implicit l r <|
      match op.apply implicit l r with
      | .ok true => .ok true
      | .ok false => op.evaluatePairs implicit pairs
      | .error _ => .error (incomparable op.symbol l r)

def evaluateGeneral (op : ComparisonOp) (implicit : Zone) (ls rs : Items) : Except Error Bool :=
  op.evaluatePairs implicit (ls.flatMap fun l => rs.map fun r => (l, r))

end ComparisonOp

namespace Comparison

inductive Place
  | nan
  | leastInfinity
  | finite (d : Decimal)
  | greatestInfinity

namespace Place

def rank : Place → Nat
  | .nan => 0
  | .leastInfinity => 1
  | .finite _ => 2
  | .greatestInfinity => 3

def compare : Place → Place → Ordering
  | .finite a, .finite b => a.compare b
  | a, b => Ord.compare a.rank b.rank

def ofBinary : Binary → Place
  | .nan => .nan
  | .infinite negative => if negative then .leastInfinity else .greatestInfinity
  | .finite negative m e => .finite (Binary.finiteDecimal negative m e)

def of? (a : Item) : Option Place :=
  match a.decimal? with
  | some d => some (.finite d)
  | none => a.double?.map fun x => ofBinary (.ofDouble x)

end Place

/-- The order of sorting keys: numbers exactly and before them what is not a number. -/
def order (implicit : Zone) (l r : Item) : Except Error Ordering :=
  match Place.of? l, Place.of? r with
  | some a, some b => .ok (a.compare b)
  | _, _ =>
    match relate implicit l r with
    | some (.ordered o) => .ok o
    | _ => .error (.of (.incomparableKeys l.type r.type))

def isNaN (a : Item) : Bool :=
  match a.double? with
  | some x => (Binary.ofDouble x).isNaN
  | none => false

/-- Equality of grouping keys: items that do not compare differ, and all items that are not a number
are one key. -/
def sameKey (implicit : Zone) (l r : Item) : Bool :=
  match relate implicit l r with
  | some (.ordered o) => o == .eq
  | some (.equality equal) => equal
  | some .unordered => isNaN l && isNaN r
  | none => false

end Comparison

end PullQuery
