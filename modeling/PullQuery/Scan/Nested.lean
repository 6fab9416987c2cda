import PullQuery.Scan.Finite

namespace PullQuery

variable {α ω β : Type}

namespace Machine

/-- How values of an outer and an inner scan make values of the whole. -/
structure Nesting (α ω β : Type) where
  frame : Context → α → Nat → Context
  emit : α → Nat → ω → β
  whenEmpty : α → Option β

namespace Nested

structure State (outer : Machine α) (inner : Machine ω) where
  outer : Scan outer.toOperator
  inner : Scan inner.toOperator
  context : Option Context
  current : Option (α × Nat)
  pulled : Nat

variable {outer : Machine α} {inner : Machine ω}

abbrev Inside (α : Type) (inner : Machine ω) := Scan inner.toOperator × Option (α × Nat) × Nat

def continue? (n : Nesting α ω β) (a : α) (count pulled : Nat) (s : Scan inner.toOperator) :
    Step (Except Error (Option β)) (Inside α inner) :=
  if s.hasNext then
    (s.next.within fun s => (s, some (a, count + 1), pulled)).mapValue fun r =>
      r.map fun v => some (n.emit a (count + 1) v)
  else
    (s.close.within fun s => (s, none, pulled)).mapValue fun _ =>
      .ok (if count = 0 then n.whenEmpty a else none)

def enter (n : Nesting α ω β) (c : Context) (a : α) (t : Inside α inner) :
    Step (Except Error (Option β)) (Inside α inner) :=
  let pulled := t.2.2 + 1
  (t.1.start (n.frame c a pulled)).thenOk (·, none, pulled) fun _ s => continue? n a 0 pulled s

def pull (n : Nesting α ω β) (c : Context) (o : Scan outer.toOperator) (t : Inside α inner) :
    Step (Except Error (Option β)) (State outer inner) :=
  (o.search (enter n c) t).within fun r => ⟨r.1, r.2.1, some c, r.2.2.1, r.2.2.2⟩

def produce (n : Nesting α ω β) (s : State outer inner) :
    Step (Except Error (Option β)) (State outer inner) :=
  match s.context, s.current with
  | none, _ => .done (.ok none) s
  | some c, none => pull n c s.outer (s.inner, none, s.pulled)
  | some c, some (a, count) =>
    (continue? n a count s.pulled s.inner).andThen fun r t =>
      match r with
      | .ok none => pull n c s.outer t
      | r => .done r ⟨s.outer, t.1, some c, t.2.1, t.2.2⟩

def start (c : Context) (s : State outer inner) : Step (Except Error Unit) (State outer inner) :=
  (s.outer.start c).within fun o => ⟨o, s.inner, some c, none, 0⟩

def stop (s : State outer inner) : Step Unit (State outer inner) :=
  s.inner.close.andThen fun _ i => s.outer.close.within fun o => ⟨o, i, none, none, s.pulled⟩

def State.running (s : State outer inner) : Option (Scan inner.toOperator) :=
  s.current.map fun _ => s.inner

def Below : Scan outer.toOperator × Option (Scan inner.toOperator) →
    Scan outer.toOperator × Option (Scan inner.toOperator) → Prop :=
  Prod.Lex (Relation.TransGen Scan.Precedes) (Option.lt Scan.Precedes)

theorem wellFounded_below : WellFounded (@Below α ω outer inner) :=
  (Prod.lex ⟨_, (Scan.wellFounded_precedes outer.finite).transGen⟩
    ⟨_, Option.wellFounded_lt (Scan.wellFounded_precedes inner.finite)⟩).wf

theorem below_of_pull {n : Nesting α ω β} {c : Context} {s : State outer inner} {t : Inside α inner}
    {b : β} (h : (pull n c s.outer t).value = .ok (some b)) :
    Below ((pull n c s.outer t).state.outer, (pull n c s.outer t).state.running)
      (s.outer, s.running) :=
  .left _ _ (Scan.search_precedes _ _ _ h)

theorem running_of_continue? {n : Nesting α ω β} {a : α} {count pulled : Nat}
    {i : Scan inner.toOperator} {b : β} (h : (continue? n a count pulled i).value = .ok (some b)) :
    Option.lt Scan.Precedes
      ((continue? n a count pulled i).state.2.1.map fun _ => (continue? n a count pulled i).state.1)
      (some i) := by
  by_cases hi : i.hasNext
  · simp only [continue?, hi, ite_true, Step.mapValue_value, Step.within_value] at h ⊢
    rcases hv : i.next.value with e | v
    · simp [hv, Except.map] at h
    · exact ⟨v, hv, rfl⟩
  · simp [continue?, hi, Option.lt]

theorem below_of_produce {n : Nesting α ω β} {s : State outer inner} {b : β}
    (h : (produce n s).value = .ok (some b)) :
    Below ((produce n s).state.outer, (produce n s).state.running) (s.outer, s.running) := by
  obtain ⟨o, i, _ | c, _ | ⟨a, count⟩, pulled⟩ := s
  · simp [produce] at h
  · simp [produce] at h
  · exact below_of_pull h
  · rcases hr : (continue? n a count pulled i).value with e | (_ | v)
    · simp [produce, Step.andThen, hr] at h
    · simp only [produce, Step.andThen, hr] at h ⊢
      exact below_of_pull (s := ⟨o, i, some c, some (a, count), pulled⟩) h
    · simp only [produce, Step.andThen, hr, Step.done_state]
      exact .right _ (running_of_continue? hr)

end Nested

def nested (name : String) (position : Position) (n : Nesting α ω β) (outer : Machine α)
    (inner : Machine ω) : Machine β where
  name := name
  position := position
  State := Nested.State outer inner
  initial := ⟨.fresh _, .fresh _, none, none, 0⟩
  start := Nested.start
  produce := Nested.produce n
  stop := Nested.stop
  finite :=
    Subrelation.wf (fun ⟨_, hv, hs⟩ => hs ▸ Nested.below_of_produce hv)
      (InvImage.wf (fun s => (s.outer, s.running)) Nested.wellFounded_below)

end Machine

end PullQuery
