import PullQuery.Proofs.Closure
import PullQuery.Proofs.Expr.Origin
import PullQuery.Proofs.Record.Errors
import PullQuery.Proofs.Scan.Reached

namespace PullQuery

section

variable {P : Error → Prop} (hp : ∀ e : Error, e.position = none ∧ e.kind ≠ .flow → P e)
include hp

end

namespace Node

variable {n : Node} {o : Output Tuple}

def Passes (n : Node) (o : Output Tuple) : Fault → Error → Prop
  | .raised e, err => n.Raises e ∧ err = e.locate n.position
  | .heard e, err => n.Hears o e ∧ e.position.isSome ∧ err = e
  | .replaced e cause, err =>
    n.Replaces e cause ∧ cause.kind = .cardinality ∧ err = ⟨cause, some n.position⟩

theorem Hears.position_isSome {e : Error} (h : n.Hears o e)
    (ho : ∀ e, o.failure = some e → e.position.isSome) : e.position.isSome := by
  obtain he | ⟨y, -, c, he⟩ := h
  · exact ho e he
  · exact (Expr.emits_of_failure (Expr.evaluate_eq_error.1 he)).position_isSome

end Node

namespace Node

variable {n : Node} {err : Error}

theorem Locates.not_flow (h : n.Locates (fun e => e.kind ≠ .flow) err) : err.kind ≠ .flow := by
  obtain ⟨m, -, e, he, rfl⟩ := h
  exact he

end Node

namespace Closure

end Closure

section

variable {n : Node} {x : Expr} {err : Error}

theorem Expr.not_flow (h : ∀ n, (Node.operator x).Holds n → n.Draws fun e => e.kind ≠ .flow)
    {c : Context} (he : x.evaluate c = .error err) : err.kind ≠ .flow :=
  ((emits_of_failure (evaluate_eq_error.1 he)).of_draws (fun _ h => h.2) h).not_flow

theorem Node.Hears.not_flow {o : Output Tuple}
    (h : ∀ m, n.Holds m → m.Draws fun e => e.kind ≠ .flow)
    (ho : ∀ e, o.failure = some e → e.kind ≠ .flow) (he : n.Hears o err) : err.kind ≠ .flow := by
  obtain he | ⟨y, hy, c, he⟩ := he
  · exact ho err he
  · exact Expr.not_flow ((Node.forall_holds.1 h).2.1 y hy) he

end

end PullQuery
