import PullQuery.Scan

namespace PullQuery

variable {ω β τ : Type}

def Operator.Yields (op : Operator ω) (s' s : op.State) : Prop :=
  ∃ v, (op.produce s).value = .ok (some v) ∧ (op.produce s).state = s'

structure Machine (ω : Type) extends Operator ω where
  finite : WellFounded toOperator.Yields

namespace Scan

variable {op : Operator ω}

def Precedes (s' s : Scan op) : Prop := ∃ v, s.next.value = .ok v ∧ s.next.state = s'

theorem next_value_eq_ok {s : Scan op} {v : ω} (h : s.next.value = .ok v) :
    s.ahead = some (.ok v) ∧ s.next.state = (advance s.inner : Step Unit (Scan op)).state := by
  obtain ⟨phase, ahead, inner⟩ := s
  cases phase <;> simp only [next, Step.done, reduceCtorEq] at h <;>
    rcases ahead with _ | (e | w) <;> simp_all [next, Step.mapValue]

theorem acc_advance (h : WellFounded op.Yields) (i : op.State) :
    Acc Precedes (advance i : Step Unit (Scan op)).state := by
  induction i using h.induction with
  | _ i ih =>
    constructor
    rintro s' ⟨v, hv, rfl⟩
    obtain ⟨ha, hs⟩ := next_value_eq_ok hv
    rw [hs]
    apply ih
    rcases hp : op.produce i with ⟨_ | (_ | w), i', l⟩ <;>
      simp_all [advance, Step.andThen, Step.done, Operator.Yields]

theorem wellFounded_precedes (h : WellFounded op.Yields) : WellFounded (@Precedes ω op) := by
  constructor
  intro s
  constructor
  rintro s' ⟨v, hv, rfl⟩
  rw [(next_value_eq_ok hv).2]
  exact acc_advance h s.inner

end Scan

instance (m : Machine ω) : WellFoundedRelation (Scan m.toOperator) :=
  ⟨Scan.Precedes, Scan.wellFounded_precedes m.finite⟩

namespace Scan

variable {m : Machine ω}

def search (f : ω → τ → Step (Except Error (Option β)) τ) (s : Scan m.toOperator) (t : τ) :
    Step (Except Error (Option β)) (Scan m.toOperator × τ) :=
  if s.hasNext then
    let n := s.next
    match _h : n.value with
    | .error e => ⟨.error e, (n.state, t), n.log⟩
    | .ok v =>
      let x := f v t
      match x.value with
      | .error e => ⟨.error e, (n.state, x.state), n.log ++ x.log⟩
      | .ok (some b) => ⟨.ok (some b), (n.state, x.state), n.log ++ x.log⟩
      | .ok none =>
        let y := search f n.state x.state
        ⟨y.value, y.state, n.log ++ x.log ++ y.log⟩
  else ⟨.ok none, (s, t), []⟩
termination_by s
decreasing_by exact ⟨v, _h, rfl⟩

theorem search_precedes (f : ω → τ → Step (Except Error (Option β)) τ) (s : Scan m.toOperator)
    (t : τ) {b : β} (h : (s.search f t).value = .ok (some b)) :
    Relation.TransGen Precedes (s.search f t).state.1 s := by
  fun_induction search f s t with
  | case1 => simp at h
  | case2 => simp at h
  | case3 s t hn n v hv x b' hx => exact .single ⟨v, hv, rfl⟩
  | case4 s t hn n v hv x hx y ih => exact .tail (ih h) ⟨v, hv, rfl⟩
  | case5 => simp at h

def drain (s : Scan m.toOperator) : Step (Except Error (List ω)) (Scan m.toOperator) :=
  let x := s.search (β := Empty) (fun v vs => .done (.ok none) (v :: vs)) []
  ⟨x.value.map fun _ => x.state.2.reverse, x.state.1, x.log⟩

def materialize (c : Context) (s : Scan m.toOperator) :
    Step (Except Error (List ω)) (Scan m.toOperator) :=
  (s.start c).thenOk id fun _ s =>
    s.drain.andThen fun r s => s.close.mapValue fun _ => r

end Scan

end PullQuery
