import PullQuery.Evaluation
import PullQuery.Proofs.Usage.Operator

namespace PullQuery

mutual

def Expr.sources : Expr → List Source
  | .literal .. | .variable .. | .focus _ => []
  | .source _ s => [s]
  | .comma _ es | .call _ _ es => sourcesOf es
  | .range _ l r | .additive _ _ l r | .multiplicative _ _ l r | .comparison _ _ l r
  | .generalComparison _ _ l r | .logical _ _ l r | .field _ l r | .member _ l r
  | .project _ l r | .map _ l r => l.sources ++ r.sources
  | .unary _ _ e | .not _ e | .unbox _ e | .duration _ _ e => e.sources
  | .conditional _ c y n => c.sources ++ (y.sources ++ n.sources)
  | .object _ fields => fieldSources fields
  | .array _ content => contentSources content
  | .flwor _ clauses result => pipelineSources clauses ++ result.sources

def sourcesOf : List Expr → List Source
  | [] => []
  | e :: es => e.sources ++ sourcesOf es

def fieldSources : List (Expr × Expr) → List Source
  | [] => []
  | (k, v) :: fs => k.sources ++ (v.sources ++ fieldSources fs)

def contentSources : Option Expr → List Source
  | none => []
  | some e => e.sources

def Clause.sources : Clause → List Source
  | .each _ _ _ _ e | .bind _ _ e | .filter _ e => e.sources
  | .group _ keys => groupSources keys
  | .order _ keys => sortSources keys
  | .count .. => []

def groupSources : List GroupKey → List Source
  | [] => []
  | .existing _ :: ks => groupSources ks
  | .computed _ e :: ks => e.sources ++ groupSources ks

def sortSources : List SortKey → List Source
  | [] => []
  | .mk e _ :: ks => e.sources ++ sortSources ks

def pipelineSources : List Clause → List Source
  | [] => []
  | k :: ks => k.sources ++ pipelineSources ks

end

open Machine

mutual

theorem Expr.clean : ∀ e : Expr, e.machine.Clean e.sources
  | .literal _ items => by
    rw [Expr.machine, Expr.sources]
    exact literal_clean items
  | .source _ _ => by
    rw [Expr.machine, Expr.sources]
    exact store_clean
  | .comma _ es => by
    rw [Expr.machine, Expr.sources]
    exact comma_clean (machines_clean es)
  | .range _ l r => by
    rw [Expr.machine, Expr.sources]
    exact range_clean l.clean r.clean
  | .variable _ name => by
    rw [Expr.machine, Expr.sources]
    exact variableReference_clean name
  | .focus _ => by
    rw [Expr.machine, Expr.sources]
    exact focusItem_clean
  | .additive _ _ l r => by
    rw [Expr.machine, Expr.sources]
    exact binary_clean l.clean r.clean
  | .multiplicative _ _ l r => by
    rw [Expr.machine, Expr.sources]
    exact binary_clean l.clean r.clean
  | .unary _ op e => by
    rw [Expr.machine, Expr.sources]
    exact unary_clean e.clean op
  | .comparison _ _ l r => by
    rw [Expr.machine, Expr.sources]
    exact binary_clean l.clean r.clean
  | .generalComparison _ op l r => by
    rw [Expr.machine, Expr.sources]
    exact generalComparison_clean l.clean r.clean op
  | .logical _ connective l r => by
    rw [Expr.machine, Expr.sources]
    exact logical_clean l.clean r.clean connective
  | .not _ e => by
    rw [Expr.machine, Expr.sources]
    exact not_clean e.clean
  | .conditional _ c y n => by
    rw [Expr.machine, Expr.sources]
    exact conditional_clean c.clean y.clean n.clean
  | .object _ fields => by
    rw [Expr.machine, Expr.sources]
    exact object_clean (fieldMachines_clean fields)
  | .array _ content => by
    rw [Expr.machine, Expr.sources]
    exact array_clean (contentMachines_clean content)
  | .field _ input key => by
    rw [Expr.machine, Expr.sources]
    exact navigate_clean input.clean key.clean
  | .member _ input position => by
    rw [Expr.machine, Expr.sources]
    exact navigate_clean input.clean position.clean
  | .unbox _ input => by
    rw [Expr.machine, Expr.sources]
    exact unbox_clean input.clean
  | .project _ input keys => by
    rw [Expr.machine, Expr.sources]
    exact navigate_clean input.clean keys.clean
  | .map _ input result => by
    rw [Expr.machine, Expr.sources]
    exact map_clean input.clean result.clean
  | .duration _ kind e => by
    rw [Expr.machine, Expr.sources]
    exact duration_clean e.clean kind
  | .call _ f es => by
    rw [Expr.machine, Expr.sources]
    exact call_clean (machines_clean es) f
  | .flwor _ clauses result => by
    rw [Expr.machine, Expr.sources]
    exact returning_clean (pipeline_clean clauses seed_clean) result.clean

theorem machines_clean : ∀ es : List Expr, Scans.Clean (machines es) (sourcesOf es)
  | [] => Scans.clean_nil
  | e :: es => Scans.clean_cons e.clean (machines_clean es)

theorem fieldMachines_clean : ∀ fs : List (Expr × Expr),
    Scans.Clean (fieldMachines fs) (fieldSources fs)
  | [] => Scans.clean_nil
  | (k, v) :: fs =>
    Scans.clean_cons k.clean (Scans.clean_cons v.clean (fieldMachines_clean fs))

theorem contentMachines_clean : ∀ e : Option Expr,
    Scans.Clean (contentMachines e) (contentSources e)
  | none => Scans.clean_nil
  | some e => by
    have h := Scans.clean_cons e.clean Scans.clean_nil
    rwa [List.append_nil] at h

theorem Clause.clean : ∀ (k : Clause) {input : Machine Tuple} {is : List Source},
    input.Clean is → (k.machine input).Clean (is ++ k.sources)
  | .each _ name place allowingEmpty e, _, _, hi => by
    rw [Clause.machine, Clause.sources]
    exact forEach_clean hi e.clean name place allowingEmpty
  | .bind _ name e, _, _, hi => by
    rw [Clause.machine, Clause.sources]
    exact letBind_clean hi e.clean name
  | .filter _ e, _, _, hi => by
    rw [Clause.machine, Clause.sources]
    exact filter_clean hi e.clean
  | .group p keys, _, _, hi => by
    rw [Clause.machine, Clause.sources]
    exact group_clean hi (groupMachines_clean p keys) _
  | .order _ keys, _, _, hi => by
    rw [Clause.machine, Clause.sources]
    exact order_clean hi (sortMachines_clean keys) _
  | .count _ name, _, _, hi => by
    rw [Clause.machine, Clause.sources, List.append_nil]
    exact count_clean hi name

theorem groupMachines_clean (p : Position) : ∀ ks : List GroupKey,
    Scans.Clean (groupMachines p ks) (groupSources ks)
  | [] => Scans.clean_nil
  | .existing name :: ks =>
    Scans.clean_cons (groupingVariable_clean name) (groupMachines_clean p ks)
  | .computed _ e :: ks => Scans.clean_cons e.clean (groupMachines_clean p ks)

theorem sortMachines_clean : ∀ ks : List SortKey,
    Scans.Clean (sortMachines ks) (sortSources ks)
  | [] => Scans.clean_nil
  | .mk e _ :: ks => Scans.clean_cons e.clean (sortMachines_clean ks)

theorem pipeline_clean : ∀ (ks : List Clause) {input : Machine Tuple} {is : List Source},
    input.Clean is → (pipeline input ks).Clean (is ++ pipelineSources ks)
  | [], _, _, hi => by
    rw [pipeline, pipelineSources, List.append_nil]
    exact hi
  | k :: ks, _, _, hi => by
    rw [pipeline, pipelineSources, ← List.append_assoc]
    exact pipeline_clean ks (k.clean hi)

end

end PullQuery
