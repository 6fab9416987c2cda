import PullQuery.Proofs.Expr.Stream

namespace PullQuery

variable {ω : Type}

def Machine.Ends (m : Machine ω) (P : Error → Prop) : Prop :=
  ∀ c, ∃ o, m.GivesAt c o ∧ ∀ e, o.failure = some e → P e

def Answer.Fails : Answer ω → Error → Prop
  | .started r, e => r = .error e
  | .next r, e => r = .error e
  | .materialized r, e => r = .error e
  | .atMostOne r, e => r = .error e
  | .hasNext _, _ | .closed, _ => False

structure Output.Inherited (Q : Output ω → Prop) : Prop where
  nothing : Q (.ofList [])
  rest : ∀ {v vs failure}, Q ⟨v :: vs, failure⟩ → Q ⟨vs, failure⟩

theorem Output.inherited_failure (P : Error → Prop) :
    Inherited fun o : Output ω => ∀ e, o.failure = some e → P e :=
  ⟨fun _ he => (nomatch he), fun h => h⟩

theorem Output.inherited_values (P : ω → Prop) : Inherited fun o : Output ω => ∀ v ∈ o.values, P v :=
  ⟨fun _ hv => (nomatch hv), fun h v hv => h v (List.mem_cons_of_mem _ hv)⟩

namespace Session

def left : Session ω → Output ω
  | .running o => o
  | .created | .closed => .ofList []

variable {op : Operator ω} {g : Context → Except Error (Output ω)} {σ : Session ω}
  {Q : Output ω → Prop}

theorem finished_left (hQ : Output.Inherited Q) (r : Except Error (Output ω)) :
    Q (finished r).left := by
  cases r <;> exact hQ.nothing

theorem call_left (hQ : Output.Inherited Q) (hg : ∀ c o, g c = .ok o → Q o) (hσ : Q σ.left)
    (k : Call) : Q (σ.call op g k).2.left := by
  cases k with
  | start c =>
    rcases ho : g c with e | o
    · simp only [call, ho, opened]
      exact hQ.nothing
    · simp only [call, ho, opened]
      exact hg c o ho
  | hasNext => exact hσ
  | next =>
    obtain _ | ⟨_ | ⟨v, vs⟩, _ | e⟩ | _ := σ
    · exact hQ.nothing
    · exact hQ.nothing
    · exact hQ.nothing
    · exact hQ.rest hσ
    · exact hQ.rest hσ
    · exact hQ.nothing
  | close => exact hQ.nothing
  | materialize c | atMostOne c => exact finished_left hQ (g c)

theorem next_error {e : Error} (he : (σ.next op).1 = .error e) : σ.left.failure = some e ∨
    e.position = some op.position ∧ e.kind = .flow ∧ σ.hasNext = false := by
  obtain _ | ⟨_ | ⟨v, vs⟩, _ | err⟩ | _ := σ
  · cases he
    exact .inr ⟨rfl, rfl, rfl⟩
  · cases he
    exact .inr ⟨rfl, rfl, rfl⟩
  · cases he
    exact .inl rfl
  · cases he
  · cases he
  · cases he
    exact .inr ⟨rfl, rfl, rfl⟩

end Session

theorem Output.failure_of_atMostOne {o : Output ω} {several e : Error}
    (h : o.atMostOne several = .error e) : o.failure = some e ∨ e = several := by
  obtain ⟨_ | ⟨v, _ | ⟨w, vs⟩⟩, _ | err⟩ := o
  · cases h
  · cases h
    exact .inl rfl
  · cases h
  all_goals
    cases h
    exact .inr rfl

theorem Output.failure_of_first {o : Output ω} {e : Error} (h : o.first = .error e) :
    o.failure = some e := by
  obtain ⟨_ | ⟨v, vs⟩, _ | err⟩ := o <;> cases h
  rfl

namespace Scan

variable {m : Machine ω} {s : Scan m.toOperator}

theorem remaining_of_follows {σ : Session ω} (h : s.Follows σ) : s.remaining = σ.left := by
  cases σ with
  | created => exact remaining_of_not_hasNext (hasNext_of_follows h)
  | closed => exact remaining_of_not_hasNext (hasNext_of_follows h)
  | running o => exact h.2.2

/-- The scan comes from a new one by calls of the protocol and by asking for first values. -/
inductive Reached : Scan m.toOperator → Prop
  | fresh : Reached (.fresh _)
  | call {s : Scan m.toOperator} (h : Reached s) (k : Call) : Reached (s.call k).state
  | first {s : Scan m.toOperator} (h : Reached s) (c : Context) : Reached (s.first c).state

theorem first_state_follows (c : Context) (s : Scan m.toOperator) :
    (s.first c).state.Follows (.finished (s.opening c)) := by
  refine follows_finished c s _ fun s => ?_
  split
  · rfl
  · rfl

theorem Reached.follows {Q : Output ω → Prop} (hQ : Output.Inherited Q)
    (hm : ∀ c, ∃ o, m.GivesAt c o ∧ Q o) (hs : s.Reached) : ∃ σ, s.Follows σ ∧ Q σ.left := by
  induction hs with
  | fresh => exact ⟨.created, rfl, hQ.nothing⟩
  | call hs k ih =>
    obtain ⟨σ, hσ, hq⟩ := ih
    have hopening (c : Context) (s : Scan m.toOperator) :
        s.opening c = (Scan.fresh m.toOperator).opening c := by
      obtain ⟨o, ho, -⟩ := hm c
      exact ho.opening_eq s _
    refine ⟨_, (call_follows hopening hσ k).2, Session.call_left hQ (fun c o ho => ?_) hq k⟩
    obtain ⟨o', hg, hq⟩ := hm c
    have hr : o = o' := by
      rw [← hg.run (.fresh _), Scan.run, ho]
      rfl
    exact hr ▸ hq
  | first hs c => exact ⟨_, first_state_follows c _, Session.finished_left hQ _⟩

end Scan

namespace Machine.Ends

variable {m : Machine ω} {s : Scan m.toOperator} {P : Error → Prop} {e : Error}

theorem run (h : m.Ends P) {c : Context} (he : (s.run c).failure = some e) : P e := by
  obtain ⟨o, ho, hP⟩ := h c
  exact hP e (by rw [← ho.run s]; exact he)

theorem reached (h : m.Ends P) (hs : s.Reached) :
    ∃ σ, s.Follows σ ∧ ∀ e, σ.left.failure = some e → P e :=
  hs.follows (Output.inherited_failure P) h

theorem remaining (h : m.Ends P) (hs : s.Reached) (he : s.remaining.failure = some e) : P e := by
  obtain ⟨σ, hσ, hP⟩ := h.reached hs
  exact hP e (by rw [← Scan.remaining_of_follows hσ, he])

theorem first (h : m.Ends P) {c : Context} (he : (s.first c).value = .error e) : P e :=
  h.run (Output.failure_of_first ((Scan.first_value c s).symm.trans he))

theorem next (h : m.Ends P) (hs : s.Reached) (he : s.next.value = .error e) : P e ∨
    e.position = some m.position ∧ (e.kind = .flow → s.hasNext = false) := by
  obtain ⟨σ, hσ, hP⟩ := h.reached hs
  rw [(Scan.follows_next hσ).1] at he
  obtain hf | ⟨hp, -, hn⟩ := Session.next_error he
  · exact .inl (hP e hf)
  · exact .inr ⟨hp, fun _ => (Scan.hasNext_of_follows hσ).trans hn⟩

theorem atMostOne (h : m.Ends P) {c : Context} (he : (s.atMostOne c).value = .error e) :
    P e ∨ e = (Error.of .severalItems).locate m.position := by
  rw [Scan.atMostOne_value] at he
  exact (Output.failure_of_atMostOne he).imp_left h.run

theorem start (h : m.Ends P) {c : Context} (he : (s.start c).value = .error e) : P e := by
  refine h.run (c := c) (s := s) ?_
  rw [Scan.start_value] at he
  rcases ho : s.opening c with err | o
  · rw [ho] at he
    cases he
    rw [Scan.run, ho]
    rfl
  · rw [ho] at he
    cases he

theorem call (h : m.Ends P) (hs : s.Reached) (k : Call) (he : (s.call k).value.Fails e) :
    P e ∨ e.position = some m.position ∧ (e.kind = .flow → k = .next ∧ s.hasNext = false) := by
  cases k with
  | start c => exact .inl (h.start he)
  | hasNext => exact he.elim
  | next => exact (h.next hs he).imp_right fun hn => ⟨hn.1, fun hk => ⟨rfl, hn.2 hk⟩⟩
  | close => exact he.elim
  | materialize c =>
    exact .inl (h.run (Output.collect_eq_error.1 ((Scan.materialize_value c s).symm.trans he)))
  | atMostOne c =>
    obtain he | rfl := h.atMostOne he
    · exact .inl he
    · exact .inr ⟨rfl, fun hk => nomatch hk⟩

end Machine.Ends

namespace ItemStream

variable {m : Machine Item} {P : Error → Prop}

end ItemStream

end PullQuery
