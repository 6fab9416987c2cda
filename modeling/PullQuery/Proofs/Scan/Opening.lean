import PullQuery.Output
import PullQuery.Scan.Finite

/-!
What scans hand out. A scan that is opened hands out values and then, perhaps, an error; what it was
used for before does not matter when the machine gives the same for every state it starts from.
-/

namespace PullQuery

variable {ω : Type}

namespace Output

def cons (v : ω) (o : Output ω) : Output ω := ⟨v :: o.values, o.failure⟩

def ofOpening : Except Error (Output ω) → Output ω
  | .ok o => o
  | .error e => fail e

def Begins (r : Except Error (Option ω)) (next : Output ω → Prop) (o : Output ω) : Prop :=
  match r with
  | .error e => o = fail e
  | .ok none => o = ofList []
  | .ok (some v) => ∃ rest, next rest ∧ o = rest.cons v

@[simp] theorem locate_cons (p : Position) (v : ω) (o : Output ω) :
    (o.cons v).locate p = (o.locate p).cons v := rfl

@[simp] theorem locate_fail (p : Position) (e : Error) :
    (fail e : Output ω).locate p = fail (e.locate p) := rfl

@[simp] theorem locate_ofList (p : Position) (vs : List ω) : (ofList vs).locate p = ofList vs := rfl

theorem collect_eq_error {o : Output ω} {e : Error} :
    o.collect = .error e ↔ o.failure = some e := by
  obtain ⟨vs, _ | e'⟩ := o <;> simp [collect]

theorem concat_cons (o : Output ω) (os : List (Output ω)) :
    concat (o :: os) = o.append (concat os) := rfl

theorem cons_append (v : ω) (a b : Output ω) : (a.cons v).append b = (a.append b).cons v :=
  append_cons v a.values a.failure b

theorem nil_append (a : Output ω) : (ofList []).append a = a := rfl

theorem fail_append (e : Error) (a : Output ω) : (fail e).append a = fail e := rfl

theorem begins_mono {r : Except Error (Option ω)} {next after : Output ω → Prop} {o : Output ω}
    (h : Begins r next o) (hn : ∀ o, next o → after o) : Begins r after o := by
  rcases r with e | (_ | v)
  · exact h
  · exact h
  · obtain ⟨o, ho, rfl⟩ := h
    exact ⟨o, hn o ho, rfl⟩

theorem begins_append {r : Except Error ω} {next after : Output ω → Prop} {a b : Output ω}
    (h : Begins (r.map some) next a) (hn : ∀ o, next o → after (o.append b)) :
    Begins (r.map some) after (a.append b) := by
  rcases r with e | v
  · exact (congrArg (append · b) h).trans (fail_append e b)
  · obtain ⟨o, ho, rfl⟩ := h
    exact ⟨_, hn o ho, cons_append v o b⟩

theorem ofOpening_locate (p : Position) (r : Except Error (Output ω)) :
    ofOpening ((r.mapError (·.locate p)).map (·.locate p)) = (ofOpening r).locate p := by
  cases r <;> rfl

end Output

namespace Machine

variable (m : Machine ω)

def rest (i : m.State) : Output ω :=
  m.finite.fix (C := fun _ => Output ω) (fun i ih =>
    match _h : (m.produce i).value with
    | .error e => .fail e
    | .ok none => .ofList []
    | .ok (some v) => (ih (m.produce i).state ⟨v, _h, rfl⟩).cons v) i

variable {m}

theorem rest_of_error {i : m.State} {e : Error} (h : (m.produce i).value = .error e) :
    m.rest i = .fail e := by
  rw [rest, WellFounded.fix_eq]
  split <;> simp_all

theorem rest_of_none {i : m.State} (h : (m.produce i).value = .ok none) :
    m.rest i = .ofList [] := by
  rw [rest, WellFounded.fix_eq]
  split <;> simp_all

theorem rest_of_some {i : m.State} {v : ω} (h : (m.produce i).value = .ok (some v)) :
    m.rest i = (m.rest (m.produce i).state).cons v := by
  rw [rest, WellFounded.fix_eq]
  split <;> simp_all [rest]

/-- States and outputs that begin alike whenever they are related: the output is what the state goes
on to give. -/
theorem rest_eq {R : m.State → Output ω → Prop}
    (h : ∀ i o, R i o → Output.Begins (m.produce i).value (R (m.produce i).state) o)
    {i : m.State} {o : Output ω} (hio : R i o) : m.rest i = o := by
  induction i using m.finite.induction generalizing o with
  | _ i ih =>
    have hb := h i o hio
    rcases hp : (m.produce i).value with e | (_ | v)
    · rw [hp] at hb
      exact (rest_of_error hp).trans hb.symm
    · rw [hp] at hb
      exact (rest_of_none hp).trans hb.symm
    · rw [hp] at hb
      obtain ⟨o', ho', rfl⟩ := hb
      rw [rest_of_some hp, ih _ ⟨v, hp, rfl⟩ ho']

def begin (m : Machine ω) (c : Context) (i : m.State) : Except Error (Output ω) :=
  (m.start c i).value.map fun _ => m.rest (m.start c i).state

end Machine

namespace Scan

variable {m : Machine ω}

def remaining (s : Scan m.toOperator) : Output ω :=
  if s.hasNext then
    match _h : s.next.value with
    | .error e => .fail e
    | .ok v => (remaining s.next.state).cons v
  else .ofList []
termination_by s
decreasing_by exact ⟨v, _h, rfl⟩

theorem remaining_of_not_hasNext {s : Scan m.toOperator} (h : s.hasNext = false) :
    s.remaining = .ofList [] := by
  rw [remaining]
  simp [h]

theorem remaining_of_error {s : Scan m.toOperator} {e : Error} (h : s.hasNext = true)
    (hv : s.next.value = .error e) : s.remaining = .fail e := by
  rw [remaining, if_pos h]
  split <;> simp_all

theorem remaining_of_ok {s : Scan m.toOperator} {v : ω} (h : s.hasNext = true)
    (hv : s.next.value = .ok v) : s.remaining = s.next.state.remaining.cons v := by
  rw [remaining, if_pos h]
  split <;> simp_all

theorem remaining_advance (i : m.State) :
    (advance i : Step Unit (Scan m.toOperator)).state.remaining = (m.rest i).locate m.position := by
  induction i using m.finite.induction with
  | _ i ih =>
    rcases hp : m.produce i with ⟨e | (_ | v), i', l⟩
    · have hs : (advance i : Step Unit (Scan m.toOperator)).state =
          ⟨.opened, some (.error (e.locate m.position)), i'⟩ := by simp [advance, hp]
      rw [hs, Machine.rest_of_error (by rw [hp])]
      exact remaining_of_error rfl rfl
    · have hs : (advance i : Step Unit (Scan m.toOperator)).state = ⟨.exhausted, none, i'⟩ := by
        simp [advance, hp]
      rw [hs, Machine.rest_of_none (by rw [hp])]
      exact remaining_of_not_hasNext rfl
    · have hs : (advance i : Step Unit (Scan m.toOperator)).state =
          ⟨.opened, some (.ok v), i'⟩ := by simp [advance, hp]
      have hi : (m.produce i).state = i' := by rw [hp]
      rw [hs, Machine.rest_of_some (by rw [hp]), Output.locate_cons, ← ih _ ⟨v, by rw [hp], rfl⟩, hi]
      exact remaining_of_ok rfl rfl

def opening (c : Context) (s : Scan m.toOperator) : Except Error (Output ω) :=
  (s.start c).value.map fun _ => (s.start c).state.remaining

def run (c : Context) (s : Scan m.toOperator) : Output ω := .ofOpening (s.opening c)

theorem start_value (c : Context) (s : Scan m.toOperator) :
    (s.start c).value = (s.opening c).map fun _ => () := by
  rw [opening]
  cases (s.start c).value <;> rfl

theorem remaining_start {c : Context} {s : Scan m.toOperator} {o : Output ω}
    (h : s.opening c = .ok o) : (s.start c).state.remaining = o := by
  rw [opening] at h
  rcases hv : (s.start c).value with e | _
  · simp [hv, Except.map] at h
  · simpa [hv, Except.map] using h

theorem opening_eq (c : Context) (s : Scan m.toOperator) :
    s.opening c = ((m.begin c s.halt.state).mapError (·.locate m.position)).map
      (·.locate m.position) := by
  rcases hs : m.start c s.halt.state with ⟨e | _, i, l⟩
  · have hb : m.begin c s.halt.state = .error e := by simp [Machine.begin, hs, Except.map]
    rw [hb]
    change s.opening c = .error (e.locate m.position)
    simp [opening, start, hs, Except.map]
  · have hb : m.begin c s.halt.state = .ok (m.rest i) := by simp [Machine.begin, hs, Except.map]
    rw [hb]
    change s.opening c = .ok ((m.rest i).locate m.position)
    simp [opening, start, hs, Except.map, remaining_advance]

end Scan

end PullQuery
