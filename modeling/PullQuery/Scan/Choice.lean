import PullQuery.Scan.Finite

namespace PullQuery

variable {κ ω : Type}

namespace Machine

namespace Choice

structure State (κ : Type) (yes no : Machine ω) where
  work : κ
  yes : Scan yes.toOperator
  no : Scan no.toOperator
  chosen : Option Bool

variable {yes no : Machine ω}

def produce (s : State κ yes no) : Step (Except Error (Option ω)) (State κ yes no) :=
  match s.chosen with
  | none => .done (.ok none) s
  | some true =>
    if s.yes.hasNext then
      (s.yes.next.within ({ s with yes := · })).mapValue fun r => r.map some
    else .done (.ok none) s
  | some false =>
    if s.no.hasNext then
      (s.no.next.within ({ s with no := · })).mapValue fun r => r.map some
    else .done (.ok none) s

def start (choose : Context → κ → Step (Except Error Bool) κ) (c : Context) (s : State κ yes no) :
    Step (Except Error Unit) (State κ yes no) :=
  (choose c s.work).thenOk ({ s with work := · }) fun b k =>
    if b then (s.yes.start c).within (⟨k, ·, s.no, some true⟩)
    else (s.no.start c).within (⟨k, s.yes, ·, some false⟩)

def stop (s : State κ yes no) : Step Unit (State κ yes no) :=
  match s.chosen with
  | none => .done () s
  | some true => s.yes.close.within (⟨s.work, ·, s.no, none⟩)
  | some false => s.no.close.within (⟨s.work, s.yes, ·, none⟩)

def Below :
    Scan yes.toOperator × Scan no.toOperator → Scan yes.toOperator × Scan no.toOperator → Prop :=
  Prod.Lex Scan.Precedes Scan.Precedes

theorem wellFounded_below : WellFounded (@Below ω yes no) :=
  (Prod.lex ⟨_, Scan.wellFounded_precedes yes.finite⟩ ⟨_, Scan.wellFounded_precedes no.finite⟩).wf

theorem below_of_produce {s : State κ yes no} {v : ω} (h : (produce s).value = .ok (some v)) :
    Below ((produce s).state.yes, (produce s).state.no) (s.yes, s.no) := by
  obtain ⟨k, y, n, _ | _ | _⟩ := s
  · simp [produce] at h
  · simp only [produce] at h ⊢
    split at h
    case isTrue hn =>
      rcases hv : n.next.value with e | w
      · simp [hv, Except.map] at h
      · simp only [hn, ite_true, Step.mapValue_state, Step.within_state]
        exact .right _ ⟨w, hv, rfl⟩
    case isFalse => simp at h
  · simp only [produce] at h ⊢
    split at h
    case isTrue hn =>
      rcases hv : y.next.value with e | w
      · simp [hv, Except.map] at h
      · simp only [hn, ite_true, Step.mapValue_state, Step.within_state]
        exact .left _ _ ⟨w, hv, rfl⟩
    case isFalse => simp at h

end Choice

def choice (name : String) (position : Position) (initial : κ)
    (choose : Context → κ → Step (Except Error Bool) κ) (yes no : Machine ω) : Machine ω where
  name := name
  position := position
  State := Choice.State κ yes no
  initial := ⟨initial, .fresh _, .fresh _, none⟩
  start := Choice.start choose
  produce := Choice.produce
  stop := Choice.stop
  finite :=
    Subrelation.wf (fun ⟨_, hv, hs⟩ => hs ▸ Choice.below_of_produce hv)
      (InvImage.wf (fun s => (s.yes, s.no)) Choice.wellFounded_below)

end Machine

end PullQuery
