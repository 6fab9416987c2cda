import PullQuery.Machine.Clause
import PullQuery.Machine.Primary
import PullQuery.Machine.Structure

namespace PullQuery

mutual

def Expr.machine : Expr → Machine Item
  | .literal p items => .literal p items
  | .source p source => .store "source" p source
  | .comma p operands => .comma "comma" p (machines operands)
  | .range p l r => .range p l.machine r.machine
  | .variable p name => .variableReference p name
  | .focus p => .focusItem p
  | .additive p op l r => .additive p op l.machine r.machine
  | .multiplicative p op l r => .multiplicative p op l.machine r.machine
  | .unary p op e => .unary p op e.machine
  | .comparison p op l r => .comparison p op l.machine r.machine
  | .generalComparison p op l r => .generalComparison p op l.machine r.machine
  | .logical p connective l r => .logical p connective l.machine r.machine
  | .not p e => .not p e.machine
  | .conditional p c t e => .conditional p c.machine t.machine e.machine
  | .object p fields => .object p (fieldMachines fields)
  | .array p content => .array p (contentMachines content)
  | .field p input key => .field p input.machine key.machine
  | .member p input position => .member p input.machine position.machine
  | .unbox p input => .unbox p input.machine
  | .project p input keys => .project p input.machine keys.machine
  | .map p input result => .map p input.machine result.machine
  | .duration p kind e => .duration p kind e.machine
  | .call p f arguments => .call p f (machines arguments)
  | .flwor p clauses result => .returning p (pipeline (.seed p) clauses) result.machine

def machines : List Expr → List (Machine Item)
  | [] => []
  | e :: es => e.machine :: machines es

def fieldMachines : List (Expr × Expr) → List (Machine Item)
  | [] => []
  | (k, v) :: fs => k.machine :: v.machine :: fieldMachines fs

def contentMachines : Option Expr → List (Machine Item)
  | none => []
  | some e => [e.machine]

def Clause.machine (input : Machine Tuple) : Clause → Machine Tuple
  | .each p name place allowingEmpty e => .forEach p name place allowingEmpty input e.machine
  | .bind p name e => .letBind p name input e.machine
  | .filter p e => .filter p input e.machine
  | .group p keys => .group p (keys.map GroupKey.name) (groupMachines p keys) input
  | .order p keys => .order p (keys.map SortKey.order) (sortMachines keys) input
  | .count p name => .count p name input

def groupMachines (p : Position) : List GroupKey → List (Machine Item)
  | [] => []
  | .existing name :: ks => .groupingVariable p name :: groupMachines p ks
  | .computed _ e :: ks => e.machine :: groupMachines p ks

def sortMachines : List SortKey → List (Machine Item)
  | [] => []
  | .mk e _ :: ks => e.machine :: sortMachines ks

def pipeline (input : Machine Tuple) : List Clause → Machine Tuple
  | [] => input
  | c :: cs => pipeline (c.machine input) cs

end

namespace Expr

def scan (e : Expr) : Scan e.machine.toOperator := .fresh _

def evaluate (c : Context) (e : Expr) : Except Error Items := (e.scan.materialize c).value

def evaluateFirst (c : Context) (e : Expr) : Except Error (Option Item) := (e.scan.first c).value

def evaluateAtMostOne (c : Context) (e : Expr) : Except Error (Option Item) :=
  (e.scan.atMostOne c).value

end Expr

def Clause.pipelineMachine (p : Position) (clauses : List Clause) : Machine Tuple :=
  pipeline (.seed p) clauses

end PullQuery
