import PullQuery.Expr.Output
import PullQuery.Proofs.Scan.Reading

namespace PullQuery

variable {α ω β : Type}

namespace Machine

namespace Nested

variable {n : Nesting α ω β} {c : Context} {outer : Machine α} {inner : Machine ω}
  {io : Context → Output ω}

def running (n : Nesting α ω β) (a : α) (count : Nat) (o : Output ω) : Output β :=
  match o.values, o.failure with
  | [], none => .ofList (if count = 0 then n.whenEmpty a else none).toList
  | vs, failure => ⟨(vs.zipIdx (count + 1)).map fun (v, i) => n.emit a i v, failure⟩

theorem running_cons (a : α) (count : Nat) (v : ω) (o : Output ω) :
    running n a count (o.cons v) = (running n a (count + 1) o).cons (n.emit a (count + 1) v) := by
  obtain ⟨_ | ⟨w, vs⟩, _ | e⟩ := o <;> simp [running, Output.cons, Output.ofList]

def further (n : Nesting α ω β) (c : Context) (io : Context → Output ω) (pulled : Nat)
    (o : Output α) : Output β :=
  (Output.mk (o.values.zipIdx (pulled + 1)) o.failure).flatMap fun (a, place) =>
    running n a 0 (io (n.frame c a place))

theorem further_zero (o : Output α) : further n c io 0 o = o.nest n c io := by
  rw [further, Output.nest, Output.numbered]
  congr 1
  funext ⟨a, place⟩
  simp only [running]
  rcases io (n.frame c a place) with ⟨_ | ⟨v, vs⟩, _ | e⟩ <;> rfl

theorem further_cons (pulled : Nat) (a : α) (as : List α) (failure : Option Error) :
    further n c io pulled ⟨a :: as, failure⟩ =
      (running n a 0 (io (n.frame c a (pulled + 1)))).append
        (further n c io (pulled + 1) ⟨as, failure⟩) := rfl

def after (n : Nesting α ω β) (t : Inside α inner) (o : Output β) : Output β :=
  match t.2.1 with
  | none => o
  | some (a, count) => (running n a count t.1.remaining).append o

def Proceeds (n : Nesting α ω β) (x : Step (Except Error (Option β)) (Inside α inner))
    (now : Output β) : Prop :=
  ∀ o, match x.value with
    | .ok none => now = .ofList [] ∧ after n x.state o = o
    | r => Output.Begins r (· = after n x.state o) (now.append o)

theorem continue?_proceeds (a : α) (count pulled : Nat) (s : Scan inner.toOperator) :
    Proceeds n (continue? n a count pulled s) (running n a count s.remaining) := by
  intro o
  cases hn : s.hasNext with
  | false =>
    rw [Scan.remaining_of_not_hasNext hn]
    simp only [continue?, hn, Bool.false_eq_true, ite_false, Step.mapValue_value,
      Step.mapValue_state, Step.within_state]
    by_cases hc : count = 0
    · rcases hw : n.whenEmpty a with _ | b
      · simp [running, Output.ofList, hc, hw, after]
      · simp only [running, Output.ofList, hc, hw, ite_true]
        exact ⟨_, rfl, rfl⟩
    · simp [running, Output.ofList, hc, after]
  | true =>
    simp only [continue?, hn, ite_true, Step.mapValue_value, Step.mapValue_state, Step.within_value,
      Step.within_state]
    obtain ⟨v, hv, hr⟩ | ⟨e, hv, hr⟩ := Scan.remaining_eq_of_hasNext hn
    · rw [hr, running_cons, Output.cons_append, hv]
      exact ⟨_, rfl, rfl⟩
    · rw [hr, hv]
      rfl

theorem pulled_continue? (a : α) (count pulled : Nat) (s : Scan inner.toOperator) :
    (continue? n a count pulled s).state.2.2 = pulled := by
  rw [continue?]
  split <;> rfl

theorem enter_proceeds (hi : ∀ c, inner.GivesAt c (io c)) (a : α) (t : Inside α inner) :
    Proceeds n (enter n c a t) (running n a 0 (io (n.frame c a (t.2.2 + 1)))) := by
  obtain ⟨e, hv, ho⟩ | ⟨hv, hr⟩ := (hi (n.frame c a (t.2.2 + 1))).start_cases t.1
  · intro o
    simp only [enter, Step.thenOk_value, hv, Except.bind, ho]
    rfl
  · have hs : (enter n c a t).state = (continue? n a 0 (t.2.2 + 1)
        (t.1.start (n.frame c a (t.2.2 + 1))).state).state :=
      Step.thenOk_state_of_ok _ _ _ hv
    intro o
    rw [hs, ← hr]
    simp only [enter, Step.thenOk_value, hv, Except.bind]
    exact continue?_proceeds _ _ _ _ o

theorem pulled_enter (a : α) (t : Inside α inner) :
    (enter n c a t).state.2.2 = t.2.2 + 1 := by
  rcases hv : (t.1.start (n.frame c a (t.2.2 + 1))).value with e | _
  · rw [enter, Step.thenOk_state_of_error _ _ _ hv]
  · rw [enter, Step.thenOk_state_of_ok _ _ _ hv, pulled_continue?]

theorem search_enter (hi : ∀ c, inner.GivesAt c (io c)) (failure : Option Error) (as : List α)
    (t : Inside α inner) :
    let x := Output.search (enter n c) failure as t
    Output.Begins x.value (· = after n x.state (further n c io x.state.2.2 x.left))
      (further n c io t.2.2 ⟨as, failure⟩) := by
  induction as generalizing t with
  | nil => cases failure <;> rfl
  | cons a as ih =>
    have he := enter_proceeds (n := n) (c := c) hi a t (further n c io (t.2.2 + 1) ⟨as, failure⟩)
    have hp := pulled_enter (n := n) (c := c) a t
    rw [further_cons]
    rcases hv : (enter n c a t).value with e | (_ | b)
    all_goals rw [hv] at he
    · rw [Output.search_of_error hv]
      exact he
    · rw [Output.search_of_none hv, he.1, Output.nil_append, ← hp]
      exact ih _
    · obtain ⟨o, rfl, ho⟩ := he
      rw [Output.search_of_some hv, ho, ← hp]
      exact ⟨_, rfl, rfl⟩

def left (n : Nesting α ω β) (c : Context) (io : Context → Output ω) (s : State outer inner) :
    Output β :=
  after n (s.inner, s.current, s.pulled) (further n c io s.pulled s.outer.remaining)

theorem pull_begins (hi : ∀ c, inner.GivesAt c (io c)) (o : Scan outer.toOperator)
    (t : Inside α inner) :
    Output.Begins (pull n c o t).value (· = left n c io (pull n c o t).state)
      (further n c io t.2.2 o.remaining) := by
  have hb := search_enter (n := n) (c := c) hi o.remaining.failure o.remaining.values t
  simp only [← Scan.search_value, ← Scan.search_state, ← Scan.remaining_search] at hb
  exact hb

theorem produce_begins (hi : ∀ c, inner.GivesAt c (io c)) {s : State outer inner}
    (hs : s.context = some c) :
    Output.Begins (produce n s).value
      (fun o => (produce n s).state.context = some c ∧ o = left n c io (produce n s).state)
      (left n c io s) := by
  obtain ⟨o, i, _, _ | ⟨a, count⟩, pulled⟩ := s <;> cases hs
  · exact Output.begins_mono (pull_begins hi o (i, none, pulled)) fun _ h => ⟨rfl, h⟩
  · have hc := continue?_proceeds (n := n) a count pulled i (further n c io pulled o.remaining)
    have hl : left n c io ⟨o, i, some c, some (a, count), pulled⟩ =
        (running n a count i.remaining).append (further n c io pulled o.remaining) := rfl
    rcases hv : (continue? n a count pulled i).value with e | (_ | b)
    all_goals rw [hv] at hc
    · simp only [produce, Step.andThen_value, hv]
      exact hc
    · -- The running inner scan is at its end and has nothing to add: the next outer value is pulled.
      have hp : produce n ⟨o, i, some c, some (a, count), pulled⟩ =
          ⟨(pull n c o (continue? n a count pulled i).state).value,
            (pull n c o (continue? n a count pulled i).state).state,
            (continue? n a count pulled i).log ++
              (pull n c o (continue? n a count pulled i).state).log⟩ := by
        simp only [produce, Step.andThen, hv]
      rw [hp, hl, hc.1, Output.nil_append]
      have hb := pull_begins (n := n) (c := c) hi o (continue? n a count pulled i).state
      rw [pulled_continue?] at hb
      exact Output.begins_mono hb fun _ h => ⟨rfl, h⟩
    · obtain ⟨o', rfl, ho⟩ := hc
      simp only [produce, Step.andThen_value, Step.andThen_state, hv, hl, ho]
      refine ⟨_, ⟨rfl, rfl⟩, congrArg (Output.cons b) ?_⟩
      simp only [left, Step.done_state, pulled_continue?]
      rfl

end Nested

variable {name : String} {p : Position} {n : Nesting α ω β} {c : Context} {outer : Machine α}
  {inner : Machine ω} {io : Context → Output ω}

theorem rest_nested (hi : ∀ c, inner.GivesAt c (io c)) (o : Scan outer.toOperator)
    (i : Scan inner.toOperator) :
    (nested name p n outer inner).rest ⟨o, i, some c, none, 0⟩ = o.remaining.nest n c io := by
  rw [← Nested.further_zero]
  exact rest_eq (m := nested name p n outer inner)
    (R := fun (s : Nested.State outer inner) o => s.context = some c ∧ o = Nested.left n c io s)
    (fun s o ⟨hs, ho⟩ => ho ▸ Nested.produce_begins hi hs) ⟨rfl, rfl⟩

theorem nested_gives {oo : Output α} (ho : outer.GivesAt c oo) (hi : ∀ c, inner.GivesAt c (io c)) :
    (nested name p n outer inner).GivesAt c ((oo.nest n c io).locate p) := by
  obtain ⟨r, hr, rfl⟩ := ho
  have ho : (Output.ofOpening r).nest n c io = .ofOpening (r.map fun o => o.nest n c io) := by
    cases r <;> rfl
  rw [ho]
  refine GivesAt.of_start (m := nested name p n outer inner) (fun i => ?_) fun i o ho => ?_
  · exact (Scan.start_value c i.outer).trans (congrArg _ (hr i.outer))
  · exact (rest_nested hi _ _).trans (by rw [Scan.remaining_start ((hr i.outer).trans ho)])

end Machine

end PullQuery
