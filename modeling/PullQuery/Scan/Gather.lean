import PullQuery.Scan.Finite

namespace PullQuery

variable {α β κ ρ : Type}

namespace Machine

namespace Gather

structure State (input : Machine α) (κ β : Type) where
  input : Scan input.toOperator
  work : κ
  context : Option Context
  ready : Option (List β)

variable {input : Machine α}

def addRow (row : Context → α → κ → Step (Except Error ρ) κ) (c : Context) (a : α)
    (t : κ × List ρ) : Step (Except Error (Option Empty)) (κ × List ρ) :=
  (row c a t.1).thenOk (·, t.2) fun r k => .done (.ok none) (k, r :: t.2)

def handOut (s : State input κ β) (bs : List β) :
    Step (Except Error (Option β)) (State input κ β) :=
  .done (.ok bs.head?) { s with ready := some bs.tail }

def deliver (s : State input κ β) (r : Except Error (List β)) :
    Step (Except Error (Option β)) (State input κ β) :=
  match r with
  | .error e => .done (.error e) s
  | .ok bs => handOut s bs

def produce (row : Context → α → κ → Step (Except Error ρ) κ)
    (finish : Context → List ρ → Except Error (List β)) (s : State input κ β) :
    Step (Except Error (Option β)) (State input κ β) :=
  match s.ready, s.context with
  | some bs, _ => handOut s bs
  | none, none => .done (.ok none) s
  | none, some c =>
    (s.input.search (addRow row c) (s.work, [])).andThen fun r x =>
      deliver ⟨x.1, x.2.1, some c, none⟩ (r.bind fun _ => finish c x.2.2.reverse)

def State.left (s : State input κ β) : Nat × Nat :=
  match s.ready with
  | none => (1, 0)
  | some bs => (0, bs.length)

theorem left_of_deliver {s : State input κ β} {r : Except Error (List β)} {b : β}
    (h : (deliver s r).value = .ok (some b)) : (deliver s r).state.left.1 = 0 := by
  cases r with
  | error e => simp [deliver] at h
  | ok bs => rfl

theorem left_of_produce {row : Context → α → κ → Step (Except Error ρ) κ}
    {finish : Context → List ρ → Except Error (List β)} {s : State input κ β} {b : β}
    (h : (produce row finish s).value = .ok (some b)) :
    Prod.Lex (· < ·) (· < ·) (produce row finish s).state.left s.left := by
  obtain ⟨u, k, c, _ | bs⟩ := s
  · rcases c with _ | c
    · simp [produce] at h
    · apply Prod.lex_def.2
      left
      have := left_of_deliver h
      show _ < 1
      exact this ▸ Nat.zero_lt_one
  · cases bs with
    | nil => simp [produce, handOut] at h
    | cons => exact .right _ (Nat.lt_succ_self _)

end Gather

def gather (name : String) (position : Position) (initial : κ)
    (row : Context → α → κ → Step (Except Error ρ) κ)
    (finish : Context → List ρ → Except Error (List β)) (input : Machine α) : Machine β where
  name := name
  position := position
  State := Gather.State input κ β
  initial := ⟨.fresh _, initial, none, none⟩
  start c s := (s.input.start c).within (⟨·, s.work, some c, none⟩)
  produce := Gather.produce row finish
  stop s := s.input.close.within (⟨·, s.work, none, none⟩)
  finite :=
    Subrelation.wf (fun ⟨_, hv, hs⟩ => hs ▸ Gather.left_of_produce hv)
      (InvImage.wf Gather.State.left (Prod.lex Nat.lt_wfRel Nat.lt_wfRel).wf)

end Machine

end PullQuery
