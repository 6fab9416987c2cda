import PullQuery.Proofs.Usage.Scan
import PullQuery.Scan.Leaf

namespace PullQuery.Machine

variable {κ ρ ω : Type} {name : String} {p : Position} {initial : κ} {W : κ → Usages → Prop}

section

variable {sources : List Source}

theorem start_leaves {υ : Type} {x : Step (Except Error υ) κ} {us : Usages} (h : x.Leaves us W)
    (nothing : υ) : (x.thenOk (·, nothing) fun r k => .done (.ok ()) (k, r)).Leaves us
      fun (i : κ × υ) us => W i.1 us :=
  h.thenOk (fun _ _ _ h => h) fun _ _ _ h => .done h

theorem emit_clean {start : Context → κ → Step (Except Error (List ω)) κ}
    (hq : ∀ {k us}, W k us → Quiet us) (hs : ∀ {k us}, W k us → ∀ c, (start c k).Leaves us W)
    (h : W initial (unused sources)) : (emit name p initial start).Clean sources := by
  apply Scan.sound_of_invariant (J := fun (i : κ × List ω) us => W i.1 us) _ h
  constructor
  · intro i us h _ c
    exact start_leaves (hs h c) []
  · rintro ⟨k, _ | ⟨v, vs⟩⟩ us h
    · exact .done h
    · exact .done h
  · intro i us h
    exact .done ⟨h, hq h⟩

theorem defer_clean {start : Context → κ → Step (Except Error (Option ρ)) κ}
    {finish : ρ → κ → Step (Except Error ω) κ} (hq : ∀ {k us}, W k us → Quiet us)
    (hs : ∀ {k us}, W k us → ∀ c, (start c k).Leaves us W)
    (hf : ∀ {k us}, W k us → ∀ r, (finish r k).Leaves us W) (h : W initial (unused sources)) :
    (defer name p initial start finish).Clean sources := by
  apply Scan.sound_of_invariant (J := fun (i : κ × Option ρ) us => W i.1 us) _ h
  constructor
  · intro i us h _ c
    exact start_leaves (hs h c) none
  · rintro ⟨k, _ | r⟩ us h
    · exact .done h
    · exact .mapValue (.within (hf h r))
  · intro i us h
    exact .done ⟨h, hq h⟩

theorem countUp_clean {start : Context → κ → Step (Except Error (Option (Int × Int))) κ}
    (hq : ∀ {k us}, W k us → Quiet us) (hs : ∀ {k us}, W k us → ∀ c, (start c k).Leaves us W)
    (h : W initial (unused sources)) : (countUp name p initial start).Clean sources := by
  apply Scan.sound_of_invariant (J := fun (i : κ × Option (Int × Int)) us => W i.1 us) _ h
  constructor
  · intro i us h _ c
    exact start_leaves (hs h c) none
  · rintro ⟨k, _ | ⟨n, last⟩⟩ us h
    · exact .done h
    · simp only [countUp]
      split
      · exact .done h
      · exact .done h
  · intro i us h
    exact .done ⟨h, hq h⟩

end

section

variable {source : Source}

def Fits (s : Scan (store name p source).toOperator) (u : Usage) : Prop :=
  match s.phase, s.ahead with
  | .created, _ | .closed, _ => u.isOpen = false
  | .opened, some (.ok _) => u = .reading s.inner
  | .opened, some (.error _) | .exhausted, none => u = .ended ∨ u = .refused
  | .opened, none | .exhausted, some _ => False

def Pulls (s : Scan (store name p source).toOperator) (us : Usages) : Prop :=
  ∃ u, us = [(source, u)] ∧ Fits s u

theorem stop_store {u : Usage} (h : u ≠ .idle) (i : (store name p source).State) :
    ((store name p source).stop i).Leaves [(source, u)] fun _ us =>
      ∃ u', us = [(source, u')] ∧ u'.isOpen = false := by
  cases u with
  | idle => exact absurd rfl h
  | refused => exact ⟨_, .single rfl, .refused, rfl, rfl⟩
  | reading rest => exact ⟨_, .single (source.access_closing_reading rest), .idle, rfl, rfl⟩
  | ended => exact ⟨_, .single rfl, .idle, rfl, rfl⟩

theorem halt_store {s : Scan (store name p source).toOperator} {u : Usage} (h : Fits s u) :
    s.halt.Leaves [(source, u)] fun _ us => ∃ u', us = [(source, u')] ∧ u'.isOpen = false := by
  obtain ⟨phase, ahead, i⟩ := s
  rw [Scan.halt]
  rcases phase <;> rcases ahead with _ | (_ | _) <;>
    simp only [Fits, Phase.isStarted, Bool.false_eq_true, ite_true, ite_false] at h ⊢
  all_goals first
    | exact .done ⟨u, rfl, h⟩
    | exact stop_store (by rintro rfl; simp at h) i

theorem advance_store (rest : List (Except Error Item)) :
    (Scan.advance rest : Step Unit (Scan (store name p source).toOperator)).Leaves
      [(source, .reading rest)] Pulls := by
  rcases rest with _ | ⟨e | v, rest⟩
  · exact ⟨_, (Uses.single rfl).trans (.refl _), .ended, rfl, .inl rfl⟩
  · exact ⟨_, (Uses.single rfl).trans (.refl _), .ended, rfl, .inl rfl⟩
  · exact ⟨_, (Uses.single rfl).trans (.refl _), .reading rest, rfl, rfl⟩

theorem start_store_leaves {u : Usage} (hu : u.isOpen = false) (i : List (Except Error Item)) :
    ((store name p source).start c i).Leaves [(source, u)] fun _ us => us = [(source,
      if source.refusal = none then Usage.reading source.entries else .refused)] := by
  refine ⟨_, .single ?_, rfl⟩
  rw [source.access_opening hu]
  cases source.refusal <;> rfl

theorem start_leaves_pulls {s : Scan (store name p source).toOperator} {us : Usages}
    (h : Pulls s us) (c : Context) : (s.start c).Leaves us fun t us =>
      Pulls t us ∧ ∀ e, (s.start c).value = .error e → Quiet us := by
  obtain ⟨u, rfl, h⟩ := h
  refine (halt_store h).andThen ?_
  rintro _ ⟨u, rfl, hu⟩
  refine (start_store_leaves hu s.halt.state).andThen ?_
  rintro _ rfl
  rcases hr : source.refusal with _ | e
  · have hv : (s.start c).value = .ok () := by simp [Scan.start, store, hr]
    simp only [store, hr]
    refine .mapValue ((advance_store source.entries).mono fun us h => ⟨h, fun e he => ?_⟩)
    have hn : (Except.ok () : Except Error Unit) = .error e := hv.symm.trans he
    cases hn
  · simp only [store, hr]
    have hs : ((store name p source).stop source.entries).Leaves [(source, .refused)] fun _ us =>
        us = [(source, .refused)] := ⟨_, .single rfl, rfl⟩
    refine .mapValue (.within (hs.mono ?_))
    rintro _ rfl
    exact ⟨⟨.refused, rfl, .inr rfl⟩, fun _ _ => by simp [Quiet, Usage.isOpen]⟩

theorem carried_pulls :
    Scan.Carried fun (s : Scan (store name p source).toOperator) us => Pulls s us where
  start h c := start_leaves_pulls h c
  next := by
    rintro ⟨phase, ahead, i⟩ _ ⟨u, rfl, h⟩
    rcases phase <;> rcases ahead with _ | (e | v) <;>
      simp only [Fits] at h
    case opened.some.ok =>
      subst h
      exact .mapValue (advance_store i)
    case opened.some.error => exact .done ⟨u, rfl, h⟩
    all_goals exact .done ⟨u, rfl, h⟩
  close := by
    rintro s _ ⟨u, rfl, h⟩
    refine .within ((halt_store h).mono ?_)
    rintro _ ⟨u, rfl, hu⟩
    refine ⟨⟨u, rfl, hu⟩, ?_⟩
    simpa [Quiet] using hu

theorem store_clean : (store name p source).Clean [source] :=
  ⟨_, carried_pulls, .idle, rfl, rfl⟩

end

end PullQuery.Machine
