import PullQuery.Arithmetic
import PullQuery.Comparison
import PullQuery.Function
import PullQuery.Source

namespace PullQuery

inductive Connective
  | and
  | or
deriving DecidableEq, Repr

def Connective.name : Connective → String
  | .and => "and"
  | .or => "or"

structure SortOrder where
  descending : Bool
  emptyGreatest : Bool
deriving DecidableEq, Repr

mutual

inductive Expr
  | literal (p : Position) (items : Items)
  | source (p : Position) (source : Source)
  | comma (p : Position) (operands : List Expr)
  | range (p : Position) (least greatest : Expr)
  | variable (p : Position) (name : String)
  | focus (p : Position)
  | additive (p : Position) (op : AdditiveOp) (l r : Expr)
  | multiplicative (p : Position) (op : MultiplicativeOp) (l r : Expr)
  | unary (p : Position) (op : UnaryOp) (e : Expr)
  | comparison (p : Position) (op : ComparisonOp) (l r : Expr)
  | generalComparison (p : Position) (op : ComparisonOp) (l r : Expr)
  | logical (p : Position) (connective : Connective) (l r : Expr)
  | not (p : Position) (e : Expr)
  | conditional (p : Position) (condition yes no : Expr)
  | object (p : Position) (fields : List (Expr × Expr))
  | array (p : Position) (content : Option Expr)
  | field (p : Position) (input key : Expr)
  | member (p : Position) (input position : Expr)
  | unbox (p : Position) (input : Expr)
  | project (p : Position) (input keys : Expr)
  | map (p : Position) (input result : Expr)
  | duration (p : Position) (kind : Duration.Kind) (e : Expr)
  | call (p : Position) (function : Function) (arguments : List Expr)
  | flwor (p : Position) (clauses : List Clause) (result : Expr)

inductive Clause
  | each (p : Position) (name : String) (place : Option String) (allowingEmpty : Bool) (e : Expr)
  | bind (p : Position) (name : String) (e : Expr)
  | filter (p : Position) (e : Expr)
  | group (p : Position) (keys : List GroupKey)
  | order (p : Position) (keys : List SortKey)
  | count (p : Position) (name : String)

inductive GroupKey
  | existing (name : String)
  | computed (name : String) (e : Expr)

inductive SortKey
  | mk (e : Expr) (order : SortOrder)

end

namespace Expr

def position : Expr → Position
  | .literal p _ | .source p _ | .comma p _ | .range p .. | .variable p _ | .focus p
  | .additive p .. | .multiplicative p .. | .unary p .. | .comparison p ..
  | .generalComparison p .. | .logical p .. | .not p _ | .conditional p .. | .object p _
  | .array p _ | .field p .. | .member p .. | .unbox p _ | .project p .. | .map p ..
  | .duration p .. | .call p .. | .flwor p .. => p

def constant (p : Position) (a : Item) : Expr := .literal p [a]

def empty (p : Position) : Expr := .literal p []

end Expr

namespace GroupKey

def name : GroupKey → String
  | .existing name => name
  | .computed name _ => name

end GroupKey

namespace SortKey

def order : SortKey → SortOrder
  | .mk _ order => order

end SortKey

namespace Clause

def binds : Clause → List String
  | .each _ name place _ _ => name :: place.toList
  | .bind _ name _ => [name]
  | .filter .. | .order .. => []
  | .group _ keys => keys.map GroupKey.name
  | .count _ name => [name]

def bound (clauses : List Clause) : List String :=
  clauses.foldl (fun names c => Fields.addNames c.binds names) []

end Clause

end PullQuery
