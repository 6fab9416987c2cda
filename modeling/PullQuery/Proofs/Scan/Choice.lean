import PullQuery.Proofs.Scan.Reading
import PullQuery.Scan.Choice

namespace PullQuery.Machine

variable {ω κ : Type} {name : String} {p : Position} {initial : κ} {c : Context}
  {choose : Context → κ → Step (Except Error Bool) κ} {yes no : Machine ω}

theorem rest_choice_yes (k : κ) (y : Scan yes.toOperator) (n : Scan no.toOperator) :
    (choice name p initial choose yes no).rest ⟨k, y, n, some true⟩ = y.remaining := by
  apply rest_eq (m := choice name p initial choose yes no)
    (R := fun (s : Choice.State κ yes no) o => s.chosen = some true ∧ o = s.yes.remaining) _ ⟨rfl, rfl⟩
  rintro ⟨k, y, n, _⟩ o ⟨rfl, rfl⟩
  cases hy : y.hasNext with
  | false =>
    simp only [choice, Choice.produce, hy]
    exact Scan.remaining_of_not_hasNext hy
  | true =>
    simp only [choice, Choice.produce, hy, ite_true, Step.mapValue_value, Step.within_value]
    exact Scan.begins_of_hasNext hy ⟨rfl, rfl⟩

theorem rest_choice_no (k : κ) (y : Scan yes.toOperator) (n : Scan no.toOperator) :
    (choice name p initial choose yes no).rest ⟨k, y, n, some false⟩ = n.remaining := by
  apply rest_eq (m := choice name p initial choose yes no)
    (R := fun (s : Choice.State κ yes no) o => s.chosen = some false ∧ o = s.no.remaining) _ ⟨rfl, rfl⟩
  rintro ⟨k, y, n, _⟩ o ⟨rfl, rfl⟩
  cases hn : n.hasNext with
  | false =>
    simp only [choice, Choice.produce, hn]
    exact Scan.remaining_of_not_hasNext hn
  | true =>
    simp only [choice, Choice.produce, hn, ite_true, Step.mapValue_value, Step.within_value]
    exact Scan.begins_of_hasNext hn ⟨rfl, rfl⟩

theorem choice_gives {r : Except Error Bool} {oy on : Output ω}
    (hc : ∀ k, (choose c k).value = r) (hy : yes.GivesAt c oy) (hn : no.GivesAt c on) :
    (choice name p initial choose yes no).GivesAt c ((match r with
      | .error e => Output.fail e
      | .ok b => if b then oy else on).locate p) := by
  rcases r with e | (_ | _)
  · refine GivesAt.of_opening (m := choice name p initial choose yes no) (r := .error e)
      (fun i => ?_) fun _ _ h => nomatch h
    simp only [choice, Choice.start, Step.thenOk_value, hc]
    rfl
  · obtain ⟨r, hr, rfl⟩ := hn
    refine GivesAt.of_opening (m := choice name p initial choose yes no) (fun i => ?_) fun i o ho => ?_
    · simp only [choice, Choice.start, Step.thenOk_value, hc]
      exact (Scan.start_value c i.no).trans (congrArg _ (hr i.no))
    · have hs : ((choice name p initial choose yes no).start c i).state =
          ⟨(choose c i.work).state, i.yes, (i.no.start c).state, some false⟩ :=
        Step.thenOk_state_of_ok _ _ _ (hc i.work)
      rw [hs, rest_choice_no]
      exact Scan.remaining_start ((hr i.no).trans ho)
  · obtain ⟨r, hr, rfl⟩ := hy
    refine GivesAt.of_opening (m := choice name p initial choose yes no) (fun i => ?_) fun i o ho => ?_
    · simp only [choice, Choice.start, Step.thenOk_value, hc]
      exact (Scan.start_value c i.yes).trans (congrArg _ (hr i.yes))
    · have hs : ((choice name p initial choose yes no).start c i).state =
          ⟨(choose c i.work).state, (i.yes.start c).state, i.no, some true⟩ :=
        Step.thenOk_state_of_ok _ _ _ (hc i.work)
      rw [hs, rest_choice_yes]
      exact Scan.remaining_start ((hr i.yes).trans ho)

end PullQuery.Machine
