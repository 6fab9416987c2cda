import PullQuery.Scan.Finite

namespace PullQuery

variable {α β κ ρ : Type}

namespace Machine

namespace Each

structure State (input : Machine α) (κ ρ β : Type) where
  input : Scan input.toOperator
  work : κ
  setting : Option ρ
  pending : List β

variable {input : Machine α}

def expandOne (expand : ρ → α → κ → Step (Except Error (List β)) κ) (r : ρ) (a : α)
    (t : κ × List β) : Step (Except Error (Option β)) (κ × List β) :=
  (expand r a t.1).thenOk (·, []) fun bs k =>
    match bs with
    | [] => .done (.ok none) (k, [])
    | b :: bs => .done (.ok (some b)) (k, bs)

def produce (expand : ρ → α → κ → Step (Except Error (List β)) κ) (s : State input κ ρ β) :
    Step (Except Error (Option β)) (State input κ ρ β) :=
  match s.pending, s.setting with
  | b :: bs, _ => .done (.ok (some b)) { s with pending := bs }
  | [], none => .done (.ok none) s
  | [], some r =>
    (s.input.search (expandOne expand r) (s.work, [])).within fun x =>
      ⟨x.1, x.2.1, some r, x.2.2⟩

def Below : Scan input.toOperator × Nat → Scan input.toOperator × Nat → Prop :=
  Prod.Lex (Relation.TransGen Scan.Precedes) (· < ·)

theorem wellFounded_below : WellFounded (@Below α input) :=
  (Prod.lex ⟨_, (Scan.wellFounded_precedes input.finite).transGen⟩ ⟨_, Nat.lt_wfRel.wf⟩).wf

theorem below_of_produce {expand : ρ → α → κ → Step (Except Error (List β)) κ}
    {s : State input κ ρ β} {b : β} (h : (produce expand s).value = .ok (some b)) :
    Below ((produce expand s).state.input, (produce expand s).state.pending.length)
      (s.input, s.pending.length) := by
  obtain ⟨u, k, _ | r, _ | ⟨b', bs⟩⟩ := s
  · simp [produce] at h
  · exact .right _ (Nat.lt_succ_self _)
  · exact .left _ _ (Scan.search_precedes _ _ _ h)
  · exact .right _ (Nat.lt_succ_self _)

end Each

def each (name : String) (position : Position) (initial : κ)
    (prepare : Context → κ → Step (Except Error ρ) κ)
    (expand : ρ → α → κ → Step (Except Error (List β)) κ) (input : Machine α) : Machine β where
  name := name
  position := position
  State := Each.State input κ ρ β
  initial := ⟨.fresh _, initial, none, []⟩
  start c s :=
    (prepare c s.work).thenOk (⟨s.input, ·, none, []⟩) fun r k =>
      (s.input.start c).within (⟨·, k, some r, []⟩)
  produce := Each.produce expand
  stop s := s.input.close.within (⟨·, s.work, none, []⟩)
  finite :=
    Subrelation.wf (fun ⟨_, hv, hs⟩ => hs ▸ Each.below_of_produce hv)
      (InvImage.wf (fun s => (s.input, s.pending.length)) Each.wellFounded_below)

end Machine

end PullQuery
