import PullQuery.Proofs.Expr.Output
import PullQuery.Proofs.Scan.Reached
import PullQuery.Proofs.Tuple.Binding

namespace PullQuery

variable {ω : Type}

def Machine.Yields (m : Machine ω) (P : ω → Prop) : Prop :=
  ∀ c, ∃ o, m.GivesAt c o ∧ ∀ v ∈ o.values, P v

def Answer.Hands : Answer ω → ω → Prop
  | .next r, v => r = .ok v
  | .materialized r, v => ∃ vs, r = .ok vs ∧ v ∈ vs
  | .atMostOne r, v => r = .ok (some v)
  | .started _, _ | .hasNext _, _ | .closed, _ => False

theorem Session.next_ok {op : Operator ω} {σ : Session ω} {v : ω} (h : (σ.next op).1 = .ok v) :
    v ∈ σ.left.values := by
  obtain _ | ⟨_ | ⟨w, vs⟩, _ | e⟩ | _ := σ
  · cases h
  · cases h
  · cases h
  · cases h
    exact List.mem_cons_self
  · cases h
    exact List.mem_cons_self
  · cases h

namespace Output

variable {o : Output ω} {v : ω}

theorem mem_of_collect {vs : List ω} (h : o.collect = .ok vs) (hv : v ∈ vs) : v ∈ o.values := by
  obtain ⟨ws, _ | e⟩ := o
  · cases h
    exact hv
  · cases h

theorem mem_of_first (h : o.first = .ok (some v)) : v ∈ o.values := by
  obtain ⟨_ | ⟨w, ws⟩, _ | e⟩ := o
  · cases h
  · cases h
  all_goals
    cases h
    exact List.mem_cons_self

theorem mem_of_atMostOne {several : Error} (h : o.atMostOne several = .ok (some v)) :
    v ∈ o.values := by
  obtain ⟨_ | ⟨w, _ | ⟨x, ws⟩⟩, _ | e⟩ := o
  case cons.nil.none =>
    cases h
    exact List.mem_cons_self
  all_goals cases h

end Output

namespace Machine.Yields

variable {m : Machine ω} {s : Scan m.toOperator} {P : ω → Prop} {v : ω}

theorem run (h : m.Yields P) {c : Context} (hv : v ∈ (s.run c).values) : P v := by
  obtain ⟨o, ho, hP⟩ := h c
  exact hP v (by rw [← ho.run s]; exact hv)

theorem first (h : m.Yields P) {c : Context} (hv : (s.first c).value = .ok (some v)) : P v :=
  h.run (Output.mem_of_first ((Scan.first_value c s).symm.trans hv))

theorem next (h : m.Yields P) (hs : s.Reached) (hv : s.next.value = .ok v) : P v := by
  obtain ⟨σ, hσ, hP⟩ := hs.follows (Output.inherited_values P) h
  rw [(Scan.follows_next hσ).1] at hv
  exact hP v (Session.next_ok hv)

theorem call (h : m.Yields P) (hs : s.Reached) (k : Call) (hv : (s.call k).value.Hands v) : P v := by
  cases k with
  | start c => exact hv.elim
  | hasNext => exact hv.elim
  | next => exact h.next hs hv
  | close => exact hv.elim
  | materialize c =>
    obtain ⟨vs, hvs, hv⟩ := hv
    exact h.run (Output.mem_of_collect ((Scan.materialize_value c s).symm.trans hvs) hv)
  | atMostOne c => exact h.run (Output.mem_of_atMostOne ((Scan.atMostOne_value c s).symm.trans hv))

end Machine.Yields

namespace Clause

variable (p : Position) (clauses : List Clause)

theorem pipeline_yields : (pipelineMachine p clauses).Yields fun t =>
    t.names.Nodup ∧ t.Binds (bound clauses) := by
  intro c
  have hseed : ∀ t ∈ [Tuple.empty], t.names.Nodup := List.forall_mem_singleton.2 List.nodup_nil
  refine ⟨_, pipeline_gives clauses c Machine.seed_gives, fun t ht => ⟨?_, ?_⟩⟩
  · exact nodup_names_pipelineOutput clauses c hseed t ht
  · exact pipelineOutput_binds clauses c (List.forall_mem_singleton.2 Tuple.binds_empty) t ht

/-- Whatever was asked of its scan before, and in which contexts, every tuple that a pipeline hands
out binds each name that the clauses declare, once, and no other name. -/
theorem emitted_names_are_declared {s : Scan (pipelineMachine p clauses).toOperator}
    (hs : s.Reached) {t : Tuple}
    (ht : (∃ k, (s.call k).value.Hands t) ∨ ∃ c, (s.first c).value = .ok (some t)) :
    t.names.Nodup ∧ ∀ n, n ∈ t.names ↔ n ∈ bound clauses := by
  obtain ⟨k, ht⟩ | ⟨c, ht⟩ := ht
  · exact (pipeline_yields p clauses).call hs k ht
  · exact (pipeline_yields p clauses).first ht

theorem emitted_names_of_grouped_loop :
    let word (w : String) : Expr := .literal ⟨1, 9⟩ [.string w]
    let clauses : List Clause := [
      .each ⟨1, 1⟩ "v" (some "i") false (.comma ⟨1, 9⟩ [word "a", word "b", word "a"]),
      .bind ⟨2, 1⟩ "v" (.variable ⟨2, 11⟩ "v"),
      .group ⟨3, 1⟩ [.computed "k" (.variable ⟨3, 16⟩ "v")],
      .count ⟨4, 1⟩ "n"]
    let now : DateTime := ⟨⟨2024, 1, 2, by decide, by decide, by decide⟩, .midnight⟩
    let c : Context := .root ⟨.utc, ⟨now, .utc⟩, .empty⟩ ⟨[], none⟩
    let s := ((Scan.fresh (pipelineMachine ⟨1, 1⟩ clauses).toOperator).call (.materialize c)).state
    ∃ t, (s.call (.materialize c)).value.Hands t ∧ t.names = ["k", "v", "i", "n"] ∧
      t.names.Nodup ∧ ∀ n, n ∈ t.names ↔ n ∈ bound clauses := by
  intro word clauses now c s
  have hv := (pipeline_gives clauses c (Machine.seed_gives (p := ⟨1, 1⟩))).materialize s
  have ho : (pipelineOutput clauses (.ofList [Tuple.empty]) c).collect = .ok [
      ⟨[("k", [.string "a"]), ("v", [.string "a", .string "a"]), ("i", [.ofNat 1, .ofNat 3]),
        ("n", [.ofNat 1])]⟩,
      ⟨[("k", [.string "b"]), ("v", [.string "b"]), ("i", [.ofNat 2]), ("n", [.ofNat 2])]⟩] := rfl
  have hs : s.Reached := .call .fresh _
  have ht : (s.call (.materialize c)).value.Hands ⟨[("k", [.string "a"]),
      ("v", [.string "a", .string "a"]), ("i", [.ofNat 1, .ofNat 3]), ("n", [.ofNat 1])]⟩ :=
    ⟨_, hv.trans ho, List.mem_cons_self⟩
  exact ⟨_, ht, rfl, emitted_names_are_declared ⟨1, 1⟩ clauses hs (.inl ⟨_, ht⟩)⟩

end Clause

end PullQuery
