import PullQuery.Proofs.Scan.Reading
import PullQuery.Scan.Gather

namespace PullQuery

variable {α β κ ρ : Type}

namespace Machine

namespace Gather

variable {row : Context → α → κ → Step (Except Error ρ) κ} {c : Context}

theorem search_addRow {g : α → Except Error ρ} (h : ∀ a k, (row c a k).value = g a)
    (failure : Option Error) (as : List α) (t : κ × List ρ) :
    (Output.search (addRow row c) failure as t).value.map
        (fun _ => (Output.search (addRow row c) failure as t).state.2.reverse) =
      ((Output.mk as failure).rows g).map (t.2.reverse ++ ·) := by
  induction as generalizing t with
  | nil => cases failure <;> simp [Output.search, Output.rows, pure, bind, Except.pure, Except.bind,
      Except.map]
  | cons a as ih =>
    rcases hg : g a with e | r
    · have hv : (addRow row c a t).value = .error e := by simp [addRow, h, hg, Except.bind]
      rw [Output.search_of_error hv]
      simp [Output.rows, hg, bind, Except.bind, Except.map]
    · have hv : (addRow row c a t).value = .ok none := by simp [addRow, h, hg, Except.bind]
      have hs : (addRow row c a t).state = ((row c a t.1).state, r :: t.2) :=
        Step.thenOk_state_of_ok _ _ _ ((h a t.1).trans hg)
      rw [Output.search_of_none hv, hs, ih]
      simp only [Output.rows, List.mapM_cons, hg, bind, Except.bind]
      rcases as.mapM g with e | rs
      · rfl
      · cases failure <;> simp [pure, Except.pure, Except.map]

theorem search_finish {input : Machine α} {g : α → Except Error ρ}
    (h : ∀ a k, (row c a k).value = g a) (f : List ρ → Except Error (List β))
    (u : Scan input.toOperator) (k : κ) :
    ((u.search (addRow row c) (k, [])).value.bind fun _ =>
        f (u.search (addRow row c) (k, [])).state.2.2.reverse) = (u.remaining.rows g).bind f := by
  have hs := search_addRow h u.remaining.failure u.remaining.values (k, [])
  rw [← Scan.search_value, ← Scan.search_state] at hs
  have hx : ((u.search (addRow row c) (k, [])).value.map fun _ =>
      (u.search (addRow row c) (k, [])).state.2.2.reverse) = u.remaining.rows g := by
    refine hs.trans ?_
    change ((u.remaining).rows g).map ([] ++ ·) = u.remaining.rows g
    cases u.remaining.rows g <;> simp [Except.map]
  rw [← hx]
  cases (u.search (addRow row c) (k, [])).value <;> rfl

end Gather

variable {name : String} {p : Position} {initial : κ} {c : Context} {input : Machine α}
  {row : Context → α → κ → Step (Except Error ρ) κ}
  {finish : Context → List ρ → Except Error (List β)}

theorem rest_gather_ready (u : Scan input.toOperator) (k : κ) (o : Option Context) (bs : List β) :
    (gather name p initial row finish input).rest ⟨u, k, o, some bs⟩ = .ofList bs := by
  apply rest_eq (m := gather name p initial row finish input)
    (R := fun (s : Gather.State input κ β) o => ∃ bs, s.ready = some bs ∧ o = .ofList bs) _
    ⟨bs, rfl, rfl⟩
  rintro ⟨u, k, _, _⟩ o ⟨_ | ⟨b, bs⟩, rfl, rfl⟩
  · rfl
  · exact ⟨_, ⟨bs, rfl, rfl⟩, rfl⟩

theorem rest_gather {g : α → Except Error ρ} (h : ∀ a k, (row c a k).value = g a)
    (u : Scan input.toOperator) (k : κ) :
    (gather name p initial row finish input).rest ⟨u, k, some c, none⟩ =
      .ofExcept ((u.remaining.rows g).bind (finish c)) := by
  let x := u.search (Gather.addRow row c) (k, [])
  have hr := Gather.search_finish h (finish c) u k
  let s : Gather.State input κ β := ⟨x.state.1, x.state.2.1, some c, none⟩
  have hp : (gather name p initial row finish input).produce ⟨u, k, some c, none⟩ =
      x.andThen fun r y => Gather.deliver ⟨y.1, y.2.1, some c, none⟩
        (r.bind fun _ => finish c y.2.2.reverse) := rfl
  rcases hf : (u.remaining.rows g).bind (finish c) with e | bs
  · refine rest_of_error ?_
    rw [hp, Step.andThen_value, hr, hf]
    rfl
  · rw [hf] at hr
    have hd : (x.andThen fun r y => Gather.deliver ⟨y.1, y.2.1, some c, none⟩
        (r.bind fun _ => finish c y.2.2.reverse)).value = .ok bs.head? := by
      rw [Step.andThen_value, hr]
      rfl
    have ht : (x.andThen fun r y => Gather.deliver ⟨y.1, y.2.1, some c, none⟩
        (r.bind fun _ => finish c y.2.2.reverse)).state = { s with ready := some bs.tail } := by
      rw [Step.andThen_state, hr]
      rfl
    rw [← hp] at hd ht
    cases bs with
    | nil => exact rest_of_none hd
    | cons b bs =>
      rw [rest_of_some hd, ht]
      exact congrArg (Output.cons b) (rest_gather_ready _ _ _ _)

theorem gather_gives {o : Output α} {g : α → Except Error ρ} (hi : input.GivesAt c o)
    (h : ∀ a k, (row c a k).value = g a) :
    (gather name p initial row finish input).GivesAt c
      ((Output.ofExcept ((o.rows g).bind (finish c))).locate p) := by
  obtain ⟨r, hr, rfl⟩ := hi
  have ho : Output.ofExcept (((Output.ofOpening r).rows g).bind (finish c)) =
      .ofOpening (r.map fun o => .ofExcept ((o.rows g).bind (finish c))) := by
    cases r <;> rfl
  rw [ho]
  refine GivesAt.of_start (m := gather name p initial row finish input) (fun i => ?_) fun i o ho => ?_
  · exact (Scan.start_value c i.input).trans (congrArg _ (hr i.input))
  · exact (rest_gather h _ _).trans (by rw [Scan.remaining_start ((hr i.input).trans ho)])

end Machine

end PullQuery
