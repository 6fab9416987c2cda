import PullQuery.Context

namespace PullQuery

structure ContextNode where
  context : Context
  shared : Bool

structure ContextTree where
  nodes : List ContextNode

namespace ContextTree

def ofRoot (c : Context) : ContextTree := ⟨[⟨c, true⟩]⟩

def context? (t : ContextTree) (i : Nat) : Option Context := t.nodes[i]?.map (·.context)

def child? (t : ContextTree) (i : Nat) : Option ContextTree :=
  (t.context? i).map fun c =>
    ⟨t.nodes.modify i (fun node => { node with shared := true }) ++ [⟨c.child, false⟩]⟩

def change? (t : ContextTree) (i : Nat) (f : Context → Context) : Option ContextTree :=
  match t.nodes[i]? with
  | some node => if node.shared then none else some ⟨t.nodes.set i ⟨f node.context, false⟩⟩
  | none => none

end ContextTree

end PullQuery
