import PullQuery.Proofs.Scan.Reading

namespace PullQuery

variable {ω : Type}

inductive Call
  | start (c : Context)
  | hasNext
  | next
  | close
  | materialize (c : Context)
  | atMostOne (c : Context)

inductive Answer (ω : Type)
  | started (r : Except Error Unit)
  | hasNext (b : Bool)
  | next (r : Except Error ω)
  | closed
  | materialized (r : Except Error (List ω))
  | atMostOne (r : Except Error (Option ω))

namespace Scan

variable {m : Machine ω}

def call (s : Scan m.toOperator) : Call → Step (Answer ω) (Scan m.toOperator)
  | .start c => (s.start c).mapValue .started
  | .hasNext => .done (.hasNext s.hasNext) s
  | .next => s.next.mapValue .next
  | .close => s.close.mapValue fun _ => .closed
  | .materialize c => (s.materialize c).mapValue .materialized
  | .atMostOne c => (s.atMostOne c).mapValue .atMostOne

def calls (s : Scan m.toOperator) : List Call → Step (List (Answer ω)) (Scan m.toOperator)
  | [] => .done [] s
  | k :: ks => (s.call k).andThen fun a s => (s.calls ks).mapValue (a :: ·)

end Scan

inductive Session (ω : Type)
  | created
  | running (left : Output ω)
  | closed

namespace Session

def opened : Except Error (Output ω) → Session ω
  | .ok o => .running o
  | .error _ => .running (.ofList [])

def finished : Except Error (Output ω) → Session ω
  | .ok _ => .closed
  | .error _ => .running (.ofList [])

def hasNext : Session ω → Bool
  | .running ⟨[], none⟩ | .created | .closed => false
  | .running _ => true

def next (op : Operator ω) : Session ω → Except Error ω × Session ω
  | .created => (.error (Scan.misused op .notOpened), .created)
  | .closed => (.error (Scan.misused op .closed), .closed)
  | .running ⟨v :: vs, failure⟩ => (.ok v, .running ⟨vs, failure⟩)
  | .running ⟨[], some e⟩ => (.error e, .running (.ofList []))
  | .running ⟨[], none⟩ => (.error (Scan.misused op .exhausted), .running (.ofList []))

def call (op : Operator ω) (g : Context → Except Error (Output ω)) (σ : Session ω) :
    Call → Answer ω × Session ω
  | .start c => (.started ((g c).map fun _ => ()), opened (g c))
  | .hasNext => (.hasNext σ.hasNext, σ)
  | .next => ((σ.next op).1 |> .next, (σ.next op).2)
  | .close => (.closed, .closed)
  | .materialize c => (.materialized (Output.ofOpening (g c)).collect, finished (g c))
  | .atMostOne c => (.atMostOne ((Output.ofOpening (g c)).atMostOne
      ((Error.of .severalItems).locate op.position)), finished (g c))

def calls (op : Operator ω) (g : Context → Except Error (Output ω)) (σ : Session ω) :
    List Call → List (Answer ω)
  | [] => []
  | k :: ks => (σ.call op g k).1 :: calls op g (σ.call op g k).2 ks

end Session

namespace Scan

variable {m : Machine ω}

def Follows (s : Scan m.toOperator) : Session ω → Prop
  | .created => s.phase = .created
  | .running o =>
    s.phase.isStarted = true ∧ (s.phase = .exhausted → s.ahead = none) ∧ s.remaining = o
  | .closed => s.phase = .closed

theorem hasNext_of_follows {s : Scan m.toOperator} {σ : Session ω} (h : s.Follows σ) :
    s.hasNext = σ.hasNext := by
  cases σ with
  | created => simp [hasNext, Session.hasNext, show s.phase = .created from h]
  | closed => simp [hasNext, Session.hasNext, show s.phase = .closed from h]
  | running o =>
    obtain ⟨-, -, rfl⟩ := h
    have hr := hasNext_iff s
    generalize s.remaining = o at hr ⊢
    obtain ⟨_ | ⟨v, vs⟩, _ | e⟩ := o <;> simpa [Session.hasNext, Output.ofList] using hr

theorem follows_advance (i : m.State) :
    Follows (advance i : Step Unit (Scan m.toOperator)).state
      (.running (advance i : Step Unit (Scan m.toOperator)).state.remaining) := by
  rcases hp : m.produce i with ⟨e | (_ | v), i', l⟩
  all_goals
    refine ⟨?_, ?_, rfl⟩
    all_goals simp [advance, hp, Phase.isStarted]

theorem follows_nothing {phase : Phase} (h : phase.isStarted = true) (i : m.State) :
    Follows (⟨phase, none, i⟩ : Scan m.toOperator) (.running (.ofList [])) :=
  ⟨h, fun _ => rfl, remaining_of_not_hasNext (by simp [hasNext])⟩

theorem follows_start (c : Context) (s : Scan m.toOperator) :
    (s.start c).state.Follows (.opened (s.opening c)) := by
  rcases hs : m.start c s.halt.state with ⟨e | _, i, l⟩
  · have ho : s.opening c = .error (e.locate m.position) := by
      simp [opening, start, hs, Except.map]
    have hv : (s.start c).state = ⟨.exhausted, none, (m.stop i).state⟩ := by simp [start, hs]
    rw [ho, hv]
    exact follows_nothing rfl _
  · have hv : (s.start c).state = (advance i : Step Unit (Scan m.toOperator)).state := by
      simp [start, hs]
    have ho : s.opening c = .ok (s.start c).state.remaining := by
      simp [opening, start, hs, Except.map]
    rw [ho, hv]
    exact follows_advance i

theorem follows_finished (c : Context) (s : Scan m.toOperator) {β : Type}
    (f : Unit → Scan m.toOperator → Step (Except Error β) (Scan m.toOperator))
    (hf : ∀ s, (f () s).state.phase = .closed) :
    ((s.start c).thenOk id f).state.Follows (.finished (s.opening c)) := by
  rcases hs : (s.start c).value with e | ⟨⟩
  · have ho : s.opening c = .error e := by simp [opening, hs, Except.map]
    have hf := follows_start c s
    rw [ho] at hf
    rw [ho, Step.thenOk_state_of_error _ _ _ hs]
    exact hf
  · have ho : s.opening c = .ok (s.start c).state.remaining := by simp [opening, hs, Except.map]
    rw [ho, Step.thenOk_state_of_ok _ _ _ hs]
    exact hf _

theorem follows_next_of_not_hasNext {s : Scan m.toOperator} {o : Output ω}
    (h : s.Follows (.running o)) (hn : s.hasNext = false) :
    s.next.value = ((Session.running o).next m.toOperator).1 ∧
      s.next.state.Follows ((Session.running o).next m.toOperator).2 := by
  obtain ⟨phase, ahead, i⟩ := s
  obtain ⟨hp, ha, rfl⟩ := h
  rw [remaining_of_not_hasNext hn]
  cases phase
  case opened =>
    obtain rfl : ahead = none := by simpa [hasNext] using hn
    exact ⟨rfl, follows_nothing rfl i⟩
  case exhausted =>
    obtain rfl : ahead = none := ha rfl
    exact ⟨rfl, follows_nothing rfl i⟩
  all_goals simp [Phase.isStarted] at hp

theorem follows_next_of_hasNext {s : Scan m.toOperator} {o : Output ω}
    (h : s.Follows (.running o)) (hn : s.hasNext = true) :
    s.next.value = ((Session.running o).next m.toOperator).1 ∧
      s.next.state.Follows ((Session.running o).next m.toOperator).2 := by
  obtain ⟨-, -, rfl⟩ := h
  obtain ⟨v, hv, hr⟩ | ⟨e, hv, hr⟩ := remaining_eq_of_hasNext hn
  · rw [hr, hv, (next_value_eq_ok hv).2]
    exact ⟨rfl, follows_advance s.inner⟩
  · have hs : s.next = .done (.error e) ⟨.exhausted, none, s.inner⟩ := by
      obtain ⟨phase, ahead, i⟩ := s
      cases phase <;> rcases ahead with _ | (_ | _) <;> simp_all [hasNext, next]
    rw [hr, hs]
    exact ⟨rfl, follows_nothing rfl s.inner⟩

theorem follows_next {s : Scan m.toOperator} {σ : Session ω} (h : s.Follows σ) :
    s.next.value = (σ.next m.toOperator).1 ∧ s.next.state.Follows (σ.next m.toOperator).2 := by
  cases σ with
  | created =>
    obtain ⟨phase, ahead, i⟩ := s
    cases h
    exact ⟨rfl, rfl⟩
  | closed =>
    obtain ⟨phase, ahead, i⟩ := s
    cases h
    exact ⟨rfl, rfl⟩
  | running o =>
    cases hn : s.hasNext with
    | false => exact follows_next_of_not_hasNext h hn
    | true => exact follows_next_of_hasNext h hn

theorem call_follows {g : Context → Except Error (Output ω)}
    (hg : ∀ c (s : Scan m.toOperator), s.opening c = g c) {s : Scan m.toOperator} {σ : Session ω}
    (h : s.Follows σ) (k : Call) :
    (s.call k).value = (σ.call m.toOperator g k).1 ∧
      (s.call k).state.Follows (σ.call m.toOperator g k).2 := by
  cases k with
  | start c =>
    refine ⟨?_, ?_⟩
    · exact congrArg Answer.started ((start_value c s).trans (by rw [hg]))
    · change (s.start c).state.Follows (.opened (g c))
      rw [← hg c s]
      exact follows_start c s
  | hasNext => exact ⟨congrArg Answer.hasNext (hasNext_of_follows h), h⟩
  | next => exact ⟨congrArg Answer.next (follows_next h).1, (follows_next h).2⟩
  | close => exact ⟨rfl, rfl⟩
  | materialize c =>
    refine ⟨?_, ?_⟩
    · exact congrArg Answer.materialized ((materialize_value c s).trans (by rw [run, hg]))
    · change (s.materialize c).state.Follows (.finished (g c))
      rw [← hg c s]
      exact follows_finished c s _ fun s => rfl
  | atMostOne c =>
    refine ⟨?_, ?_⟩
    · exact congrArg Answer.atMostOne ((atMostOne_value c s).trans (by rw [run, hg]))
    · change (s.atMostOne c).state.Follows (.finished (g c))
      rw [← hg c s]
      refine follows_finished c s _ fun s => ?_
      split
      · simp only [Step.andThen_state]
        split <;> rfl
      · rfl

theorem calls_value {g : Context → Except Error (Output ω)}
    (hg : ∀ c (s : Scan m.toOperator), s.opening c = g c) {s : Scan m.toOperator} {σ : Session ω}
    (h : s.Follows σ) (ks : List Call) :
    (s.calls ks).value = σ.calls m.toOperator g ks := by
  induction ks generalizing s σ with
  | nil => rfl
  | cons k ks ih =>
    obtain ⟨hv, hs⟩ := call_follows hg h k
    have hc : (s.calls (k :: ks)).value = (s.call k).value :: ((s.call k).state.calls ks).value := rfl
    rw [hc, hv, ih hs, Session.calls]

theorem calls_follows {g : Context → Except Error (Output ω)}
    (hg : ∀ c (s : Scan m.toOperator), s.opening c = g c) {s : Scan m.toOperator} {σ : Session ω}
    (h : s.Follows σ) (ks : List Call) : ∃ τ : Session ω, (s.calls ks).state.Follows τ := by
  induction ks generalizing s σ with
  | nil => exact ⟨σ, h⟩
  | cons k ks ih => exact ih (call_follows hg h k).2

/-- After any calls, an opening and the calls that come after it are answered as by a scan that was
never used, when every opening gives the same. -/
theorem calls_start_value (h : ∀ c (s t : Scan m.toOperator), s.opening c = t.opening c)
    (history later : List Call) (c : Context) (s : Scan m.toOperator) (hs : s.phase = .created) :
    ((s.calls history).state.calls (.start c :: later)).value =
      (s.calls (.start c :: later)).value := by
  have hg (c : Context) (t : Scan m.toOperator) : t.opening c = s.opening c := h c t s
  have hf : s.Follows .created := hs
  obtain ⟨τ, hτ⟩ := calls_follows hg hf history
  rw [calls_value hg hτ, calls_value hg hf]
  rfl

end Scan

end PullQuery
