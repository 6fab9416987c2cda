import PullQuery.Scan.Children
import PullQuery.Scan.Each
import PullQuery.Scan.Leaf
import PullQuery.Duration.Lexical

namespace PullQuery

namespace Scan

variable {op : Operator Item}

/-- Runs an operand that may have at most one item. An error that says it has more is replaced by
one that names the operand. -/
def operand (cause : Error.Cause) (c : Context) (s : Scan op) :
    Step (Except Error (Option Item)) (Scan op) :=
  (s.atMostOne c).mapValue fun r =>
    match r with
    | .error e => .error (if e.kind = .cardinality then .of cause else e)
    | .ok a => .ok a

def operands {oq : Operator Item} (expression : String) (c : Context) (s : Scan op × Scan oq) :
    Step (Except Error (Option (Item × Item))) (Scan op × Scan oq) :=
  (s.1.operand (.severalOperandItems expression "left") c).thenOk (·, s.2) fun l s₁ =>
    ((s.2.operand (.severalOperandItems expression "right") c).within (s₁, ·)).mapValue fun r =>
      r.map fun r => l.bind fun l => r.map fun r => (l, r)

end Scan

namespace Machine

def literal (p : Position) (items : Items) : Machine Item :=
  emit "literal" p () fun _ _ => .done (.ok items) ()

def variableReference (p : Position) (name : String) : Machine Item :=
  emit "variable-reference" p () fun c _ =>
    .done (match c.value? name with
      | some items => .ok items
      | none => .error (.of (.unboundVariable name))) ()

def focusItem (p : Position) : Machine Item :=
  emit "context-item" p () fun c _ =>
    .done (match c.focus? with
      | some focus => .ok [focus.item]
      | none => .error (.of .noFocus)) ()

def call (p : Position) (f : Function) (arguments : List (Machine Item)) : Machine Item :=
  emit "function-call" p (Scans.fresh arguments) fun c s =>
    (Scans.materialize c arguments s).mapValue fun r => r.bind (f.apply (c.callSite p))

def rangeBound : Option Item → Except Error (Option Int)
  | none => .ok none
  | some a =>
    match a.integer? with
    | some n => .ok (some n)
    | none => .error (.of (.rangeBound a.type))

def range (p : Position) (l r : Machine Item) : Machine Item :=
  countUp "range" p (Scan.fresh l.toOperator, Scan.fresh r.toOperator) fun c s =>
    (s.1.operand (.severalOperandItems "Range" "left") c).thenOk (·, s.2) fun a s₁ =>
      match rangeBound a with
      | .error e => .done (.error e) (s₁, s.2)
      | .ok m =>
        ((s.2.operand (.severalOperandItems "Range" "right") c).within (s₁, ·)).mapValue fun b =>
          (b.bind rangeBound).map fun n => m.bind fun m => n.map fun n => (m, n)

def binary (name expression : String) (p : Position)
    (apply : Zone → Item → Item → Except Error Item) (l r : Machine Item) : Machine Item :=
  defer name p (Scan.fresh l.toOperator, Scan.fresh r.toOperator)
    (fun c s => (Scan.operands expression c s).mapValue fun r =>
      r.map fun pair => pair.map fun (a, b) => (c.implicitTimezone, a, b))
    fun (zone, a, b) s => .done (apply zone a b) s

def ruled (symbol : String) (l r : Item) (result : Except Error (Option Item)) :
    Except Error Item :=
  result.bind fun
    | some a => .ok a
    | none => .error (.of (.noRule symbol l.type.name r.type.name))

def additive (p : Position) (op : AdditiveOp) (l r : Machine Item) : Machine Item :=
  binary "additive" "Addition" p (fun zone a b => ruled op.symbol a b (op.evaluate zone a b)) l r

def multiplicative (p : Position) (op : MultiplicativeOp) (l r : Machine Item) : Machine Item :=
  binary "multiplicative" "Multiplicative" p (fun _ a b => ruled op.symbol a b (op.apply a b)) l r

def comparison (p : Position) (op : ComparisonOp) (l r : Machine Item) : Machine Item :=
  binary "value-comparison" "Comparison" p (fun zone a b => (op.evaluate zone a b).map .boolean) l r

def unary (p : Position) (op : UnaryOp) (e : Machine Item) : Machine Item :=
  defer "unary" p (Scan.fresh e.toOperator)
    (fun c s => s.operand (.severalOperandItems "Unary" "") c)
    fun a s => .done (op.apply a) s

def generalComparison (p : Position) (op : ComparisonOp) (l r : Machine Item) : Machine Item :=
  defer "general-comparison" p (Scan.fresh l.toOperator, Scan.fresh r.toOperator)
    (fun c s =>
      (s.1.materialize c).thenOk (·, s.2) fun ls s₁ =>
        ((s.2.materialize c).within (s₁, ·)).mapValue fun r =>
          r.map fun rs => some (c.implicitTimezone, ls, rs))
    fun (zone, ls, rs) s => .done ((op.evaluateGeneral zone ls rs).map .boolean) s

end Machine

def Duration.Kind.construct (kind : Duration.Kind) : Item → Except Error Item
  | .string s =>
    match Duration.parse? kind s with
    | some d => .ok (.ofDuration kind d)
    | none => .error (.of (.notCastable s "string" kind.name))
  | a =>
    match a.duration? with
    | some d => .ok (.ofDuration kind d)
    | none => .error (.of (.constructorArgument kind.name a.type))

def Machine.duration (p : Position) (kind : Duration.Kind) (e : Machine Item) : Machine Item :=
  defer kind.name p (Scan.fresh e.toOperator)
    (fun c s => s.operand (.severalConstructorItems kind.name) c)
    fun a s => .done (kind.construct a) s

end PullQuery
