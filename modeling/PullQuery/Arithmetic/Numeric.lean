import PullQuery.Item

namespace PullQuery

inductive AdditiveOp
  | add
  | subtract
deriving DecidableEq, Repr

def AdditiveOp.symbol : AdditiveOp → String
  | .add => "+"
  | .subtract => "-"

inductive MultiplicativeOp
  | multiply
  | divide
  | integerDivide
  | modulo
deriving DecidableEq, Repr

def MultiplicativeOp.symbol : MultiplicativeOp → String
  | .multiply => "*"
  | .divide => "div"
  | .integerDivide => "idiv"
  | .modulo => "mod"

namespace Arithmetic

inductive Numbers
  | words (l r : Int32)
  | doubles (l r : Float)
  | floats (l r : Float32)
  | integers (l r : Int)
  | decimals (l r : Decimal)

def doubles? (l r : Item) : Option Numbers := do
  let x ← l.double?
  let y ← r.double?
  some (.doubles x y)

def floats? (l r : Item) : Option Numbers := do
  let x ← l.float?
  let y ← r.float?
  some (.floats x y)

def integers? (l r : Item) : Option Numbers := do
  let m ← l.integer?
  let n ← r.integer?
  some (.integers m n)

def decimals? (l r : Item) : Option Numbers := do
  let a ← l.decimal?
  let b ← r.decimal?
  some (.decimals a b)

/-- Promotes two numbers; words stay words only if the test says so. -/
def promote? (asWords : Int32 → Int32 → Bool) (l r : Item) : Option Numbers :=
  let ladder : Option Numbers :=
    if !l.isNumeric || !r.isNumeric then none
    else if l.type == .double || r.type == .double then doubles? l r
    else if l.type == .float || r.type == .float then floats? l r
    else if l.type.isInteger && r.type.isInteger then integers? l r
    else decimals? l r
  match l, r with
  | .int i, .int j => if asWords i j then some (.words i j) else ladder
  | _, _ => ladder

/-- Sums and differences of words below this bound are words again. -/
def wordBound : Int := 1_073_741_823

def belowWordBound (i : Int32) : Bool := -wordBound < i.toInt && i.toInt < wordBound

def additiveWords (i j : Int32) : Bool := belowWordBound i && belowWordBound j

def additiveNumbers : AdditiveOp → Numbers → Item
  | .add, .words i j => .int (i + j)
  | .subtract, .words i j => .int (i - j)
  | .add, .doubles x y => .double (x + y)
  | .subtract, .doubles x y => .double (x - y)
  | .add, .floats x y => .float (x + y)
  | .subtract, .floats x y => .float (x - y)
  | .add, .integers m n => .integer (m + n)
  | .subtract, .integers m n => .integer (m - n)
  | .add, .decimals a b => .decimal (a.add b)
  | .subtract, .decimals a b => .decimal (a.sub b)

def wholeQuotient (x y : Float) : Except Error Item :=
  let a := Binary.ofDouble x
  let b := Binary.ofDouble y
  if b.isZero then .error (.of .divisionByZero)
  else if !a.isFinite || b.isNaN then .error (.of .indivisible)
  else
    match (Binary.ofDouble (x / y)).truncate? with
    | some n => .ok (.integer n)
    | none => .error (.of .unrepresentableQuotient)

def remainderDouble (x y : Float) : Float :=
  (Binary.remainder .double (.ofDouble x) (.ofDouble y)).toDouble

def remainderFloat (x y : Float32) : Float32 :=
  (Binary.remainder .single (.ofSingle x) (.ofSingle y)).toSingle

def unlessZero (divisorIsZero : Bool) (result : Item) : Except Error Item :=
  if divisorIsZero then .error (.of .divisionByZero) else .ok result

def multiplicativeDecimals (op : MultiplicativeOp) (a b : Decimal) : Except Error Item :=
  match op with
  | .multiply => .ok (.decimal (a.mul b))
  | .divide => unlessZero b.isZero (.decimal (a.div b))
  | .integerDivide => unlessZero b.isZero (.integer (a.tdiv b))
  | .modulo => unlessZero b.isZero (.decimal (a.tmod b))

def multiplicativeNumbers (op : MultiplicativeOp) : Numbers → Except Error Item
  | .words i j =>
    match op with
    | .multiply => .ok (.ofInt (i.toInt * j.toInt))
    | .divide => multiplicativeDecimals .divide (.ofInt i.toInt) (.ofInt j.toInt)
    | .integerDivide => unlessZero (j == 0) (.ofInt (i.toInt.tdiv j.toInt))
    | .modulo => unlessZero (j == 0) (.ofInt (i.toInt.tmod j.toInt))
  | .doubles x y =>
    match op with
    | .multiply => .ok (.double (x * y))
    | .divide => .ok (.double (x / y))
    | .integerDivide => wholeQuotient x y
    | .modulo => .ok (.double (remainderDouble x y))
  | .floats x y =>
    match op with
    | .multiply => .ok (.float (x * y))
    | .divide => .ok (.float (x / y))
    | .integerDivide => wholeQuotient (Binary.widen x) (Binary.widen y)
    | .modulo => .ok (.float (remainderFloat x y))
  | .integers m n =>
    match op with
    | .multiply => .ok (.integer (m * n))
    | .divide => multiplicativeDecimals .divide (.ofInt m) (.ofInt n)
    | .integerDivide => unlessZero (n == 0) (.integer (m.tdiv n))
    | .modulo => unlessZero (n == 0) (.integer (m.tmod n))
  | .decimals a b => multiplicativeDecimals op a b

end Arithmetic

end PullQuery
