import PullQuery.Proofs.Scan.Opening

namespace PullQuery

variable {ω β τ ρ : Type}

namespace Output

structure Found (ω β τ : Type) where
  value : Except Error (Option β)
  left : Output ω
  state : τ

def search (f : ω → τ → Step (Except Error (Option β)) τ) (failure : Option Error) :
    List ω → τ → Found ω β τ
  | [], t =>
    match failure with
    | some e => ⟨.error e, ofList [], t⟩
    | none => ⟨.ok none, ofList [], t⟩
  | v :: vs, t =>
    match (f v t).value with
    | .error e => ⟨.error e, ⟨vs, failure⟩, (f v t).state⟩
    | .ok (some b) => ⟨.ok (some b), ⟨vs, failure⟩, (f v t).state⟩
    | .ok none => search f failure vs (f v t).state

section

variable {f : ω → τ → Step (Except Error (Option β)) τ} {failure : Option Error} {v : ω} {t : τ}

theorem search_of_error {e : Error} (h : (f v t).value = .error e) (vs : List ω) :
    search f failure (v :: vs) t = ⟨.error e, ⟨vs, failure⟩, (f v t).state⟩ := by
  simp only [search, h]

theorem search_of_some {b : β} (h : (f v t).value = .ok (some b)) (vs : List ω) :
    search f failure (v :: vs) t = ⟨.ok (some b), ⟨vs, failure⟩, (f v t).state⟩ := by
  simp only [search, h]

theorem search_of_none (h : (f v t).value = .ok none) (vs : List ω) :
    search f failure (v :: vs) t = search f failure vs (f v t).state := by
  simp only [search, h]

end

end Output

namespace Scan

variable {m : Machine ω}

theorem hasNext_eq_false_of_error {s : Scan m.toOperator} {e : Error} (h : s.next.value = .error e) :
    s.next.state.hasNext = false := by
  obtain ⟨_ | _ | _ | _, _ | (_ | _), i⟩ := s <;> simp_all [next, hasNext, Step.done, Step.mapValue]

theorem search_eq (f : ω → τ → Step (Except Error (Option β)) τ) (s : Scan m.toOperator) (t : τ) :
    (⟨(s.search f t).value, (s.search f t).state.1.remaining, (s.search f t).state.2⟩ :
      Output.Found ω β τ) = Output.search f s.remaining.failure s.remaining.values t := by
  fun_induction search f s t with
  | case1 s t hn n e hv =>
    rw [remaining_of_error hn hv, remaining_of_not_hasNext (hasNext_eq_false_of_error hv)]
    rfl
  | case2 s t hn n v hv x e hx =>
    rw [remaining_of_ok hn hv]
    exact (Output.search_of_error hx _).symm
  | case3 s t hn n v hv x b hx =>
    rw [remaining_of_ok hn hv]
    exact (Output.search_of_some hx _).symm
  | case4 s t hn n v hv x hx y ih =>
    rw [remaining_of_ok hn hv]
    exact ih.trans (Output.search_of_none hx _).symm
  | case5 s t hn =>
    rw [remaining_of_not_hasNext (by simpa using hn)]
    rfl

theorem search_value (f : ω → τ → Step (Except Error (Option β)) τ) (s : Scan m.toOperator)
    (t : τ) : (s.search f t).value =
      (Output.search f s.remaining.failure s.remaining.values t).value := by
  rw [← search_eq]

theorem search_state (f : ω → τ → Step (Except Error (Option β)) τ) (s : Scan m.toOperator)
    (t : τ) : (s.search f t).state.2 =
      (Output.search f s.remaining.failure s.remaining.values t).state := by
  rw [← search_eq]

theorem remaining_search (f : ω → τ → Step (Except Error (Option β)) τ) (s : Scan m.toOperator)
    (t : τ) : (s.search f t).state.1.remaining =
      (Output.search f s.remaining.failure s.remaining.values t).left := by
  rw [← search_eq]

theorem drain_value (s : Scan m.toOperator) : s.drain.value = s.remaining.collect := by
  have gather (failure : Option Error) (vs : List ω) : ∀ ws : List ω,
      (Output.search (β := Empty) (fun v ws => .done (.ok none) (v :: ws)) failure vs ws).value.map
        (fun _ => (Output.search (β := Empty) (fun v ws => .done (.ok none) (v :: ws)) failure vs
          ws).state.reverse) =
      (Output.mk (ws.reverse ++ vs) failure).collect := by
    induction vs with
    | nil => intro ws; cases failure <;> simp [Output.search, Output.collect, Except.map]
    | cons v vs ih =>
      intro ws
      rw [Output.search_of_none rfl]
      simpa using ih (v :: ws)
  simp only [drain, search_value, search_state]
  exact gather _ _ []

theorem materialize_value (c : Context) (s : Scan m.toOperator) :
    (s.materialize c).value = (s.run c).collect := by
  rcases hs : (s.start c).value with e | _
  · simp [materialize, run, opening, hs, Except.map, Except.bind, Output.ofOpening, Output.collect,
      Output.fail]
  · simp [materialize, run, opening, hs, Except.map, Except.bind, Output.ofOpening, drain_value]

theorem remaining_eq_of_hasNext {s : Scan m.toOperator} (h : s.hasNext = true) :
    (∃ v, s.next.value = .ok v ∧ s.remaining = s.next.state.remaining.cons v) ∨
      ∃ e, s.next.value = .error e ∧ s.remaining = .fail e := by
  rcases hv : s.next.value with e | v
  · exact .inr ⟨e, rfl, remaining_of_error h hv⟩
  · exact .inl ⟨v, rfl, remaining_of_ok h hv⟩

theorem begins_of_hasNext {R : Output ω → Prop} {s : Scan m.toOperator} (h : s.hasNext = true)
    (hr : R s.next.state.remaining) :
    Output.Begins (s.next.value.map some) R s.remaining := by
  obtain ⟨v, hv, hs⟩ | ⟨e, hv, hs⟩ := remaining_eq_of_hasNext h
  · rw [hv]
    exact ⟨_, hr, hs⟩
  · rw [hv]
    exact hs

theorem hasNext_iff (s : Scan m.toOperator) : s.hasNext = true ↔ s.remaining ≠ .ofList [] := by
  cases h : s.hasNext with
  | false => simp [remaining_of_not_hasNext h]
  | true =>
    obtain ⟨v, -, hr⟩ | ⟨e, -, hr⟩ := remaining_eq_of_hasNext h <;>
      simp [hr, Output.cons, Output.fail, Output.ofList]

theorem atMostOne_value (c : Context) (s : Scan m.toOperator) : (s.atMostOne c).value =
    (s.run c).atMostOne ((Error.of .severalItems).locate m.position) := by
  rcases hs : (s.start c).value with e | _
  · simp [atMostOne, run, opening, hs, Except.map, Except.bind, Output.ofOpening,
      Output.atMostOne, Output.fail]
  · simp only [atMostOne, run, opening, hs, Except.map, Except.bind, Output.ofOpening,
      Step.thenOk_value]
    cases hn : (s.start c).state.hasNext with
    | false => simp [remaining_of_not_hasNext hn, Output.ofList, Output.atMostOne]
    | true =>
      obtain ⟨v, hv, hr⟩ | ⟨e, hv, hr⟩ := remaining_eq_of_hasNext hn
      · cases hm : (s.start c).state.next.state.hasNext with
        | false => simp [hv, hr, hm, remaining_of_not_hasNext hm, Output.ofList, Output.atMostOne,
            Output.cons]
        | true =>
          have := (hasNext_iff _).1 hm
          rcases hl : (s.start c).state.next.state.remaining with ⟨_ | ⟨w, ws⟩, _ | e⟩ <;>
            simp_all [Output.ofList, Output.atMostOne, Output.cons]
      · simp [hv, hr, Output.fail, Output.atMostOne]

theorem first_value (c : Context) (s : Scan m.toOperator) :
    (s.first c).value = (s.run c).first := by
  rcases hs : (s.start c).value with e | _
  · simp [first, run, opening, hs, Except.map, Except.bind, Output.ofOpening, Output.first,
      Output.fail]
  · simp only [first, run, opening, hs, Except.map, Except.bind, Output.ofOpening,
      Step.thenOk_value]
    cases hn : (s.start c).state.hasNext with
    | false => simp [remaining_of_not_hasNext hn, Output.ofList, Output.first]
    | true =>
      obtain ⟨v, hv, hr⟩ | ⟨e, hv, hr⟩ := remaining_eq_of_hasNext hn
      · simp [hv, hr, Output.cons, Output.first]
      · simp [hv, hr, Output.fail, Output.first]

end Scan

def Machine.GivesAt (m : Machine ω) (c : Context) (o : Output ω) : Prop :=
  ∃ r, (∀ s : Scan m.toOperator, s.opening c = r) ∧ Output.ofOpening r = o

namespace Machine.GivesAt

variable {m : Machine ω} {c : Context} {o : Output ω}

theorem of_opening {r : Except Error (Output ω)}
    (hv : ∀ i, (m.start c i).value = r.map fun _ => ())
    (hs : ∀ i o, r = .ok o → m.rest (m.start c i).state = o) :
    m.GivesAt c ((Output.ofOpening r).locate m.position) := by
  refine ⟨_, fun s => ?_, Output.ofOpening_locate m.position r⟩
  have hb (i : m.State) : m.begin c i = r := by
    rw [Machine.begin, hv]
    rcases r with e | o
    · rfl
    · exact congrArg Except.ok (hs i o rfl)
  rw [Scan.opening_eq, hb]

theorem of_start {r : Except Error ρ} {f : ρ → Output ω}
    (hv : ∀ i, (m.start c i).value = r.map fun _ => ())
    (hs : ∀ i a, r = .ok a → m.rest (m.start c i).state = f a) :
    m.GivesAt c ((Output.ofOpening (r.map f)).locate m.position) := by
  rcases r with e | a
  · exact of_opening (r := .error e) hv fun _ _ h => nomatch h
  · exact of_opening (r := .ok (f a)) hv fun i o ho => (hs i a rfl).trans (Except.ok.inj ho)

theorem run (h : m.GivesAt c o) (s : Scan m.toOperator) : s.run c = o := by
  obtain ⟨r, hr, ho⟩ := h
  rw [Scan.run, hr, ho]

theorem opening_eq (h : m.GivesAt c o) (s t : Scan m.toOperator) : s.opening c = t.opening c := by
  obtain ⟨r, hr, -⟩ := h
  rw [hr, hr]

theorem start_cases (h : m.GivesAt c o) (s : Scan m.toOperator) :
    (∃ e, (s.start c).value = .error e ∧ o = .fail e) ∨
      (s.start c).value = .ok () ∧ (s.start c).state.remaining = o := by
  have hr := h.run s
  rcases hs : (s.start c).value with e | _
  · exact .inl ⟨e, rfl, by simpa [Scan.run, Scan.opening, hs, Except.map, Output.ofOpening] using hr.symm⟩
  · exact .inr ⟨rfl, by simpa [Scan.run, Scan.opening, hs, Except.map, Output.ofOpening] using hr⟩

theorem materialize (h : m.GivesAt c o) (s : Scan m.toOperator) :
    (s.materialize c).value = o.collect := by
  rw [Scan.materialize_value, h.run]

theorem atMostOne (h : m.GivesAt c o) (s : Scan m.toOperator) : (s.atMostOne c).value =
    o.atMostOne ((Error.of .severalItems).locate m.position) := by
  rw [Scan.atMostOne_value, h.run]

end Machine.GivesAt

end PullQuery
