import PullQuery.Proofs.Scan.Reading
import PullQuery.Scan.Each

namespace PullQuery

variable {α β κ ρ : Type}

namespace Machine

namespace Each

def expansions (expand : α → κ → Step (Except Error (List β)) κ) (failure : Option Error) :
    List α → κ → Output β
  | [], _ => ⟨[], failure⟩
  | a :: as, k =>
    (Output.ofExcept (expand a k).value).append (expansions expand failure as (expand a k).state)

theorem expansions_of_ok {expand : α → κ → Step (Except Error (List β)) κ} {failure : Option Error}
    {a : α} {as : List α} {k : κ} {bs : List β} (h : (expand a k).value = .ok bs) :
    expansions expand failure (a :: as) k =
      (Output.ofList bs).append (expansions expand failure as (expand a k).state) := by
  rw [expansions, h]
  rfl

theorem expansions_of_error {expand : α → κ → Step (Except Error (List β)) κ}
    {failure : Option Error} {a : α} {as : List α} {k : κ} {e : Error}
    (h : (expand a k).value = .error e) : expansions expand failure (a :: as) k = .fail e := by
  rw [expansions, h]
  rfl

theorem expansions_eq_flatMap {expand : α → κ → Step (Except Error (List β)) κ}
    {g : α → Except Error (List β)} (h : ∀ a k, (expand a k).value = g a) (o : Output α) (k : κ) :
    expansions expand o.failure o.values k = o.flatMap fun a => .ofExcept (g a) := by
  obtain ⟨as, failure⟩ := o
  induction as generalizing k with
  | nil => rfl
  | cons a as ih => rw [expansions, h, ih, Output.flatMap_cons]

def left {input : Machine α} (expand : ρ → α → κ → Step (Except Error (List β)) κ) (r : ρ)
    (s : State input κ ρ β) : Output β :=
  (Output.ofList s.pending).append
    (expansions (expand r) s.input.remaining.failure s.input.remaining.values s.work)

theorem search_expandOne (expand : ρ → α → κ → Step (Except Error (List β)) κ) (r : ρ)
    (failure : Option Error) (as : List α) (t : κ × List β) :
    let x := Output.search (expandOne expand r) failure as t
    Output.Begins x.value (· = (Output.ofList x.state.2).append
        (expansions (expand r) x.left.failure x.left.values x.state.1))
      (expansions (expand r) failure as t.1) := by
  induction as generalizing t with
  | nil => cases failure <;> rfl
  | cons a as ih =>
    rcases hx : (expand r a t.1).value with e | (_ | ⟨b, bs⟩)
    · have hv : (expandOne expand r a t).value = .error e := by
        simp [expandOne, hx, Except.bind]
      rw [Output.search_of_error hv]
      exact expansions_of_error hx
    · have hv : (expandOne expand r a t).value = .ok none := by simp [expandOne, hx, Except.bind]
      have hs : (expandOne expand r a t).state = ((expand r a t.1).state, []) :=
        Step.thenOk_state_of_ok _ _ _ hx
      rw [Output.search_of_none hv, hs, expansions_of_ok hx]
      exact ih _
    · have hv : (expandOne expand r a t).value = .ok (some b) := by
        simp [expandOne, hx, Except.bind]
      have hs : (expandOne expand r a t).state = ((expand r a t.1).state, bs) :=
        Step.thenOk_state_of_ok _ _ _ hx
      rw [Output.search_of_some hv, hs, expansions_of_ok hx]
      exact ⟨_, rfl, rfl⟩

end Each

variable {name : String} {p : Position} {initial : κ} {c : Context} {input : Machine α}
  {prepare : Context → κ → Step (Except Error ρ) κ}
  {expand : ρ → α → κ → Step (Except Error (List β)) κ}

theorem rest_each (u : Scan input.toOperator) (k : κ) (r : ρ) (bs : List β) :
    (each name p initial prepare expand input).rest ⟨u, k, some r, bs⟩ =
      Each.left expand r ⟨u, k, some r, bs⟩ := by
  apply rest_eq (m := each name p initial prepare expand input)
    (R := fun (s : Each.State input κ ρ β) o => s.setting = some r ∧ o = Each.left expand r s) _
    ⟨rfl, rfl⟩
  rintro ⟨u, k, _, _ | ⟨b, bs⟩⟩ o ⟨rfl, rfl⟩
  · have hb := Each.search_expandOne expand r u.remaining.failure u.remaining.values (k, [])
    simp only [← Scan.search_value, ← Scan.search_state, ← Scan.remaining_search] at hb
    exact Output.begins_mono hb fun _ h => ⟨rfl, h⟩
  · exact ⟨_, ⟨rfl, rfl⟩, rfl⟩

theorem each_gives {o : Output α} {r : Except Error ρ} {g : ρ → Output β} (hi : input.GivesAt c o)
    (hr : ∀ k, (prepare c k).value = r)
    (hg : ∀ a, r = .ok a → ∀ k,
      Each.expansions (expand a) o.failure o.values (prepare c k).state = g a) :
    (each name p initial prepare expand input).GivesAt c ((match r with
      | .error e => Output.fail e
      | .ok a => g a).locate p) := by
  obtain ⟨ro, hro, rfl⟩ := hi
  rcases r with e | a
  · refine GivesAt.of_opening (m := each name p initial prepare expand input) (r := .error e)
      (fun i => ?_) fun _ _ h => nomatch h
    simp only [each, Step.thenOk_value, hr]
    rfl
  · have ho : g a = .ofOpening (ro.map fun _ => g a) := by
      rcases ro with e | o
      · exact (hg a rfl initial).symm
      · rfl
    change (each name p initial prepare expand input).GivesAt c ((g a).locate p)
    rw [ho]
    refine GivesAt.of_start (m := each name p initial prepare expand input) (fun i => ?_)
      fun i o ho => ?_
    · simp only [each, Step.thenOk_value, hr]
      exact (Scan.start_value c i.input).trans (congrArg _ (hro i.input))
    · have hs : ((each name p initial prepare expand input).start c i).state =
          ⟨(i.input.start c).state, (prepare c i.work).state, some a, []⟩ :=
        Step.thenOk_state_of_ok _ _ _ (hr i.work)
      rw [hs, rest_each, ← hg a rfl i.work, Each.left, Scan.remaining_start ((hro i.input).trans ho),
        ho]
      rfl

end Machine

end PullQuery
