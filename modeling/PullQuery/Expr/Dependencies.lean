import PullQuery.Expr

namespace PullQuery

mutual

def Expr.dependencies : Expr → List String
  | .literal .. | .source .. | .focus _ => []
  | .variable _ name => [name]
  | .comma _ operands => listDependencies operands
  | .range _ l r | .additive _ _ l r | .multiplicative _ _ l r | .comparison _ _ l r
  | .generalComparison _ _ l r | .logical _ _ l r | .field _ l r | .member _ l r | .project _ l r
  | .map _ l r => Fields.addNames r.dependencies l.dependencies
  | .unary _ _ e | .not _ e | .unbox _ e | .duration _ _ e => e.dependencies
  | .conditional _ c t e =>
    Fields.addNames e.dependencies (Fields.addNames t.dependencies c.dependencies)
  | .object _ fields => fieldDependencies fields
  | .array _ content => contentDependencies content
  | .call _ _ arguments => listDependencies arguments
  | .flwor _ clauses result =>
    Fields.addNames (result.dependencies.filter fun n => !(Clause.bound clauses).contains n)
      (clauseDependencies [] clauses)

def listDependencies : List Expr → List String
  | [] => []
  | e :: es => Fields.addNames (listDependencies es) e.dependencies

def fieldDependencies : List (Expr × Expr) → List String
  | [] => []
  | (k, v) :: fs =>
    Fields.addNames (fieldDependencies fs) (Fields.addNames v.dependencies k.dependencies)

def contentDependencies : Option Expr → List String
  | none => []
  | some e => e.dependencies

def Clause.reads : Clause → List String
  | .each _ _ _ _ e | .bind _ _ e | .filter _ e => e.dependencies
  | .group _ keys => groupDependencies keys
  | .order _ keys => sortDependencies keys
  | .count .. => []

def groupDependencies : List GroupKey → List String
  | [] => []
  | .existing _ :: ks => groupDependencies ks
  | .computed _ e :: ks => Fields.addNames (groupDependencies ks) e.dependencies

def sortDependencies : List SortKey → List String
  | [] => []
  | .mk e _ :: ks => Fields.addNames (sortDependencies ks) e.dependencies

def clauseDependencies (bound : List String) : List Clause → List String
  | [] => []
  | c :: cs =>
    Fields.addNames (clauseDependencies (Fields.addNames c.binds bound) cs)
      (c.reads.filter fun n => !bound.contains n)

end

def Clause.dependencies (clauses : List Clause) : List String := clauseDependencies [] clauses

end PullQuery
