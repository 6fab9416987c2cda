import PullQuery.Scan.Finite

namespace PullQuery

variable {α β σ σ' τ τ' ω : Type}

structure Step.Alike (x : Step α σ) (y : Step α σ') (R : σ → σ' → Prop) : Prop where
  value : x.value = y.value
  log : x.log = y.log
  state : R x.state y.state

namespace Step.Alike

variable {x : Step α σ} {y : Step α σ'} {R : σ → σ' → Prop} {S : τ → τ' → Prop}

theorem done {a : α} {s : σ} {t : σ'} (h : R s t) : (Step.done a s).Alike (Step.done a t) R :=
  ⟨rfl, rfl, h⟩

theorem andThen {f : α → σ → Step β τ} {g : α → σ' → Step β τ'} (h : x.Alike y R)
    (hf : R x.state y.state → (f x.value x.state).Alike (g x.value y.state) S) :
    (x.andThen f).Alike (y.andThen g) S := by
  have hs := hf h.state
  refine ⟨?_, ?_, ?_⟩
  · rw [andThen_value, andThen_value, ← h.value, hs.value]
  · rw [andThen_log, andThen_log, ← h.value, h.log, hs.log]
  · rw [andThen_state, andThen_state, ← h.value]
    exact hs.state

theorem within {f : σ → τ} {g : σ' → τ'} (h : x.Alike y fun s t => S (f s) (g t)) :
    (x.within f).Alike (y.within g) S := ⟨h.value, h.log, h.state⟩

theorem mapValue {f : α → β} (h : x.Alike y R) : (x.mapValue f).Alike (y.mapValue f) R :=
  ⟨congrArg f h.value, h.log, h.state⟩

theorem thenOk {x : Step (Except Error α) σ} {y : Step (Except Error α) σ'} {u : σ → τ}
    {v : σ' → τ'} {f : α → σ → Step (Except Error β) τ} {g : α → σ' → Step (Except Error β) τ'}
    (h : x.Alike y R) (he : R x.state y.state → S (u x.state) (v y.state))
    (hf : ∀ a, x.value = .ok a → R x.state y.state → (f a x.state).Alike (g a y.state) S) :
    (x.thenOk u f).Alike (y.thenOk v g) S := by
  refine andThen h fun hs => ?_
  rcases hv : x.value with e | a
  · exact done (he hs)
  · exact hf a hv hs

theorem mono {Q : σ → σ' → Prop} (h : x.Alike y R) (hq : ∀ s t, R s t → Q s t) : x.Alike y Q :=
  ⟨h.value, h.log, hq _ _ h.state⟩

end Step.Alike

structure Operator.Alike (op op' : Operator ω) (c : Context) (R : op.State → op'.State → Prop) :
    Prop where
  name : op.name = op'.name
  position : op.position = op'.position
  start {i : op.State} {j : op'.State} (h : R i j) : (op.start c i).Alike (op'.start c j) R
  produce {i : op.State} {j : op'.State} (h : R i j) : (op.produce i).Alike (op'.produce j) R
  stop {i : op.State} {j : op'.State} (h : R i j) : (op.stop i).Alike (op'.stop j) R

namespace Scan

section

variable {op op' : Operator ω} {c : Context} {R : op.State → op'.State → Prop}

def Alike (R : op.State → op'.State → Prop) (s : Scan op) (t : Scan op') : Prop :=
  s.phase = t.phase ∧ s.ahead = t.ahead ∧ R s.inner t.inner

theorem halt_alike (h : op.Alike op' c R) {s : Scan op} {t : Scan op'} (hs : s.Alike R t) :
    s.halt.Alike t.halt R := by
  obtain ⟨hp, -, hi⟩ := hs
  rw [halt, halt, ← hp]
  split
  · exact h.stop hi
  · exact .done hi

theorem advance_alike (h : op.Alike op' c R) {i : op.State} {j : op'.State} (hi : R i j) :
    (advance i).Alike (advance j) fun (s : Scan op) (t : Scan op') => s.Alike R t := by
  refine (h.produce hi).andThen fun hi => ?_
  rw [h.position]
  rcases (op.produce i).value with e | (_ | v)
  all_goals exact .done ⟨rfl, rfl, hi⟩

theorem start_alike (h : op.Alike op' c R) {s : Scan op} {t : Scan op'} (hs : s.Alike R t) :
    (s.start c).Alike (t.start c) fun s t => s.Alike R t := by
  refine (halt_alike h hs).andThen fun hi => (h.start hi).andThen fun hi => ?_
  rw [h.position]
  rcases (op.start c s.halt.state).value with e | _
  · exact .mapValue (.within ((h.stop hi).mono fun _ _ hi => ⟨rfl, rfl, hi⟩))
  · exact .mapValue (advance_alike h hi)

theorem next_alike (h : op.Alike op' c R) {s : Scan op} {t : Scan op'} (hs : s.Alike R t) :
    s.next.Alike t.next fun s t => s.Alike R t := by
  obtain ⟨phase, ahead, i⟩ := s
  obtain ⟨_, _, j⟩ := t
  obtain ⟨rfl, rfl, hi⟩ := hs
  simp only [next, misused, h.name, h.position]
  split
  · exact .done ⟨rfl, rfl, hi⟩
  · exact .done ⟨rfl, rfl, hi⟩
  all_goals
    split
    · exact .mapValue (advance_alike h hi)
    · exact .done ⟨rfl, rfl, hi⟩
    · exact .done ⟨rfl, rfl, hi⟩

theorem close_alike (h : op.Alike op' c R) {s : Scan op} {t : Scan op'} (hs : s.Alike R t) :
    s.close.Alike t.close fun s t => s.Alike R t :=
  .within ((halt_alike h hs).mono fun _ _ hi => ⟨rfl, rfl, hi⟩)

theorem hasNext_alike {s : Scan op} {t : Scan op'} (hs : s.Alike R t) : s.hasNext = t.hasNext := by
  rw [hasNext, hasNext, hs.1, hs.2.1]

end

section

variable {m m' : Machine ω} {c : Context} {R : m.State → m'.State → Prop}

theorem search_of_not_hasNext (f : ω → τ → Step (Except Error (Option β)) τ)
    {s : Scan m.toOperator} (h : s.hasNext = false) (k : τ) :
    s.search f k = .done (.ok none) (s, k) := by
  rw [search]
  simp [h, Step.done]

theorem search_of_hasNext (f : ω → τ → Step (Except Error (Option β)) τ) {s : Scan m.toOperator}
    (h : s.hasNext = true) (k : τ) : s.search f k = s.next.andThen fun r s =>
      match r with
      | .error e => .done (.error e) (s, k)
      | .ok v => ((f v k).within (s, ·)).andThen fun r p =>
        match r with
        | .ok none => p.1.search f p.2
        | r => .done r p := by
  rw [search, if_pos h]
  rcases hv : s.next with ⟨e | v, s', l⟩
  · simp [Step.andThen, Step.done]
  · rcases hx : f v k with ⟨e | (_ | b), k', l'⟩
    all_goals simp [Step.andThen, Step.done, Step.within, hx]

theorem search_alike (h : m.toOperator.Alike m'.toOperator c R)
    (f : ω → τ → Step (Except Error (Option β)) τ) {s : Scan m.toOperator}
    {t : Scan m'.toOperator} (hs : s.Alike R t) (k : τ) :
    (s.search f k).Alike (t.search f k) fun x y => x.1.Alike R y.1 ∧ x.2 = y.2 := by
  -- On what the first scan hands out; the other scan is related to it and has no order of its own.
  induction s using (wellFounded_precedes m.finite).induction generalizing t k with
  | _ s ih =>
    cases hn : s.hasNext with
    | false =>
      rw [search_of_not_hasNext f hn, search_of_not_hasNext f ((hasNext_alike hs).symm.trans hn)]
      exact .done ⟨hs, rfl⟩
    | true =>
      rw [search_of_hasNext f hn, search_of_hasNext f ((hasNext_alike hs).symm.trans hn)]
      refine (next_alike h hs).andThen fun hs => ?_
      rcases hv : s.next.value with e | v
      · exact .done ⟨hs, rfl⟩
      · have hf : ((f v k).within (s.next.state, ·)).Alike ((f v k).within (t.next.state, ·))
            fun x y => x.1.Alike R y.1 ∧ x.2 = y.2 := ⟨rfl, rfl, hs, rfl⟩
        refine hf.andThen fun _ => ?_
        simp only [Step.within_value, Step.within_state]
        rcases (f v k).value with e | (_ | b)
        · exact .done ⟨hs, rfl⟩
        · exact ih _ ⟨v, hv, rfl⟩ hs _
        · exact .done ⟨hs, rfl⟩

theorem drain_alike (h : m.toOperator.Alike m'.toOperator c R) {s : Scan m.toOperator}
    {t : Scan m'.toOperator} (hs : s.Alike R t) :
    s.drain.Alike t.drain fun s t => s.Alike R t := by
  obtain ⟨hv, hl, hi, hk⟩ := search_alike (β := Empty) h
    (fun v vs => .done (.ok none) (v :: vs)) hs []
  refine ⟨?_, hl, hi⟩
  simp only [drain, hv, hk]

theorem materialize_alike (h : m.toOperator.Alike m'.toOperator c R) {s : Scan m.toOperator}
    {t : Scan m'.toOperator} (hs : s.Alike R t) :
    (s.materialize c).Alike (t.materialize c) fun s t => s.Alike R t := by
  refine (start_alike h hs).thenOk (fun hs => hs) fun _ _ hs => ?_
  exact (drain_alike h hs).andThen fun hs => .mapValue (close_alike h hs)

theorem fresh_materialize_log (h : m.toOperator.Alike m'.toOperator c R)
    (hi : R m.initial m'.initial) : ((fresh m.toOperator).materialize c).log =
      ((fresh m'.toOperator).materialize c).log :=
  (materialize_alike h ⟨rfl, rfl, hi⟩).log

end

end Scan

end PullQuery
