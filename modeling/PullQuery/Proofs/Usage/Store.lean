import PullQuery.Scan.Step

namespace PullQuery

inductive Usage
  | idle
  | refused
  | reading (rest : List (Except Error Item))
  | ended

def Usage.isOpen : Usage → Bool
  | .reading _ | .ended => true
  | .idle | .refused => false

namespace Source

def access (s : Source) : Usage → Access → Option Usage
  | .idle, .opening | .refused, .opening =>
    match s.refusal with
    | none => some (.reading s.entries)
    | some _ => some .refused
  | .reading (.ok _ :: rest), .pull => some (.reading rest)
  | .reading (.error _ :: _), .pull | .reading [], .pull => some .ended
  | .reading _, .closing | .ended, .closing => some .idle
  | .refused, .closing => some .refused
  | _, _ => none

theorem access_opening (s : Source) {u : Usage} (h : u.isOpen = false) :
    s.access u .opening = match s.refusal with
      | none => some (.reading s.entries)
      | some _ => some .refused := by
  cases u <;> simp_all [Usage.isOpen, access]

theorem access_closing_reading (s : Source) (rest : List (Except Error Item)) :
    s.access (.reading rest) .closing = some .idle := by
  rcases rest with _ | ⟨_ | _, _⟩ <;> rfl

def follow (s : Source) (u : Usage) (as : List Access) : Option Usage := as.foldlM s.access u

end Source

def accesses (label : String) (log : Log) : List Access :=
  (log.filter (·.label = label)).map (·.access)

theorem accesses_append (label : String) (l m : Log) :
    accesses label (l ++ m) = accesses label l ++ accesses label m := by
  simp [accesses]

theorem accesses_log {s : Source} {label : String} (h : s.label = some label) (a : Access) :
    accesses label (s.log a) = [a] := by
  simp [accesses, Source.log, h]

theorem accesses_log_of_ne {s : Source} {label : String} (h : s.label ≠ some label) (a : Access) :
    accesses label (s.log a) = [] := by
  rcases hs : s.label with _ | other
  · simp [accesses, Source.log, hs]
  · have ho : other ≠ label := by
      rintro rfl
      exact h hs
    simp [accesses, Source.log, hs, ho]

abbrev Usages := List (Source × Usage)

def unused (sources : List Source) : Usages := sources.map (·, .idle)

def Quiet (us : Usages) : Prop := ∀ p ∈ us, p.2.isOpen = false

theorem quiet_nil : Quiet [] := fun _ h => nomatch h

theorem quiet_append {us vs : Usages} : Quiet (us ++ vs) ↔ Quiet us ∧ Quiet vs :=
  List.forall_mem_append

theorem quiet_unused (sources : List Source) : Quiet (unused sources) := by
  intro p hp
  obtain ⟨s, -, rfl⟩ := List.mem_map.1 hp
  rfl

inductive Uses : Log → Usages → Usages → Prop
  | refl (us : Usages) : Uses [] us us
  | access {s : Source} {u u' : Usage} {a : Access} {log : Log} {vs ws us : Usages}
      (h : s.access u a = some u') (rest : Uses log (vs ++ (s, u') :: ws) us) :
      Uses (s.log a ++ log) (vs ++ (s, u) :: ws) us

namespace Uses

variable {l m : Log} {us us' us'' : Usages}

theorem single {s : Source} {u u' : Usage} {a : Access} (h : s.access u a = some u') :
    Uses (s.log a) [(s, u)] [(s, u')] := by
  have hu : Uses (s.log a ++ []) ([] ++ (s, u) :: []) [(s, u')] := .access h (.refl _)
  simpa using hu

theorem trans (h : Uses l us us') (h' : Uses m us' us'') : Uses (l ++ m) us us'' := by
  induction h with
  | refl => exact h'
  | access ha _ ih =>
    rw [List.append_assoc]
    exact .access ha (ih h')

theorem left (vs : Usages) (h : Uses l us us') : Uses l (vs ++ us) (vs ++ us') := by
  induction h with
  | refl => exact .refl _
  | access ha _ ih =>
    rw [← List.append_assoc] at ih ⊢
    exact .access ha ih

theorem right (ws : Usages) (h : Uses l us us') : Uses l (us ++ ws) (us' ++ ws) := by
  induction h with
  | refl => exact .refl _
  | access ha _ ih =>
    rw [List.append_assoc, List.cons_append] at ih ⊢
    exact .access ha ih

theorem follow {s : Source} {u : Usage} {label : String} (h : Uses l us us')
    (hl : us.filter (·.1.label = some label) = [(s, u)]) :
    ∃ u', us'.filter (·.1.label = some label) = [(s, u')] ∧
      s.follow u (accesses label l) = some u' := by
  induction h generalizing u with
  | refl => exact ⟨u, hl, rfl⟩
  | @access t w w' a _ vs ws _ ha _ ih =>
    rw [List.filter_append, List.filter_cons] at hl ih
    rw [accesses_append]
    by_cases ht : t.label = some label
    · simp only [ht, decide_true, ite_true] at hl ih
      obtain ⟨hv, hw⟩ : vs.filter (·.1.label = some label) = [] ∧
          (t, w) :: ws.filter (·.1.label = some label) = [(s, u)] := by
        rcases hf : vs.filter (·.1.label = some label) with _ | ⟨v, vs'⟩
        · exact ⟨hf, by simpa [hf] using hl⟩
        · simp [hf] at hl
      obtain ⟨⟨rfl, rfl⟩, hws⟩ : (t = s ∧ w = u) ∧ ws.filter (·.1.label = some label) = [] := by
        simpa using hw
      obtain ⟨u', hu', hf⟩ := ih (u := w') (by rw [hv, hws]; rfl)
      refine ⟨u', hu', ?_⟩
      rw [accesses_log ht, List.singleton_append, Source.follow, List.foldlM_cons, ha]
      exact hf
    · simp only [ht, decide_false, Bool.false_eq_true, ite_false] at hl ih
      rw [accesses_log_of_ne ht, List.nil_append]
      exact ih hl

end Uses

end PullQuery
