import PullQuery.Proofs.Usage.Step
import PullQuery.Scan.Finite

namespace PullQuery

variable {ω β τ : Type}

namespace Scan

section

variable {op : Operator ω}

structure Carried (P : Scan op → Usages → Prop) : Prop where
  start {s : Scan op} {us : Usages} (h : P s us) (c : Context) :
    (s.start c).Leaves us fun t us => P t us ∧ ∀ e, (s.start c).value = .error e → Quiet us
  next {s : Scan op} {us : Usages} (h : P s us) : s.next.Leaves us P
  close {s : Scan op} {us : Usages} (h : P s us) : s.close.Leaves us fun t us => P t us ∧ Quiet us

def Sound (s : Scan op) (us : Usages) : Prop := ∃ P, Carried P ∧ P s us

def Resting (s : Scan op) (us : Usages) : Prop := s.Sound us ∧ Quiet us

theorem carried_sound : Carried fun (s : Scan op) us => s.Sound us where
  start := by
    rintro s us ⟨P, hP, h⟩ c
    exact (hP.start h c).mono fun us h => ⟨⟨P, hP, h.1⟩, h.2⟩
  next := by
    rintro s us ⟨P, hP, h⟩
    exact (hP.next h).mono fun us h => ⟨P, hP, h⟩
  close := by
    rintro s us ⟨P, hP, h⟩
    exact (hP.close h).mono fun us h => ⟨⟨P, hP, h.1⟩, h.2⟩

variable {s : Scan op} {us : Usages}

theorem start_leaves (h : s.Sound us) (c : Context) : (s.start c).Leaves us Sound :=
  (carried_sound.start h c).mono fun _ h => h.1

theorem next_leaves (h : s.Sound us) : s.next.Leaves us Sound := carried_sound.next h

theorem close_leaves (h : s.Sound us) : s.close.Leaves us Resting := carried_sound.close h

theorem run_leaves {f : Unit → Scan op → Step (Except Error β) (Scan op)}
    (hf : ∀ {t us}, Sound t us → (f () t).Leaves us Resting) (h : s.Sound us) (c : Context) :
    ((s.start c).thenOk id f).Leaves us Resting := by
  refine (carried_sound.start h c).thenOk ?_ ?_
  · rintro e us he ⟨hs, hq⟩
    exact ⟨hs, hq e he⟩
  · rintro _ us _ ⟨hs, -⟩
    exact hf hs

theorem atMostOne_leaves (h : s.Sound us) (c : Context) : (s.atMostOne c).Leaves us Resting := by
  refine run_leaves (fun {t us} ht => ?_) h c
  split
  · refine (next_leaves ht).andThen fun us hs => ?_
    split
    · exact (close_leaves hs).mapValue
    · exact (close_leaves hs).mapValue
  · exact (close_leaves ht).mapValue

end

section

variable {op : Operator ω} {J : op.State → Usages → Prop}

structure Invariant (op : Operator ω) (J : op.State → Usages → Prop) : Prop where
  start {i : op.State} {us : Usages} (h : J i us) (hq : Quiet us) (c : Context) :
    (op.start c i).Leaves us J
  produce {i : op.State} {us : Usages} (h : J i us) : (op.produce i).Leaves us J
  stop {i : op.State} {us : Usages} (h : J i us) :
    (op.stop i).Leaves us fun i us => J i us ∧ Quiet us

def Within (s : Scan op) (J : op.State → Usages → Prop) (us : Usages) : Prop :=
  J s.inner us ∧ (s.phase.isStarted = false → Quiet us)

theorem halt_leaves (hJ : Invariant op J) {s : Scan op} {us : Usages} (h : s.Within J us) :
    s.halt.Leaves us fun i us => J i us ∧ Quiet us := by
  rw [halt]
  split
  case isTrue => exact hJ.stop h.1
  case isFalse hp => exact .done ⟨h.1, h.2 (by simpa using hp)⟩

theorem advance_leaves (hJ : Invariant op J) {i : op.State} {us : Usages} (h : J i us) :
    (advance i).Leaves us fun (s : Scan op) us => s.Within J us := by
  refine (hJ.produce h).andThen fun us h => ?_
  rcases (op.produce i).value with e | (_ | v)
  all_goals exact .done ⟨h, fun hp => by simp [Phase.isStarted] at hp⟩

theorem carried_within (hJ : Invariant op J) : Carried fun (s : Scan op) us => s.Within J us where
  start := by
    intro s us h c
    refine (halt_leaves hJ h).andThen fun us ⟨h, hq⟩ => (hJ.start h hq c).andThen fun us h => ?_
    rcases hv : (op.start c s.halt.state).value with e | _
    · refine .mapValue (.within ((hJ.stop h).mono fun us ⟨h, hq⟩ => ?_))
      exact ⟨⟨h, fun _ => hq⟩, fun _ _ => hq⟩
    · have ho : (s.start c).value = .ok () := by simp [Scan.start, hv]
      refine .mapValue ((advance_leaves hJ h).mono fun us h => ⟨h, fun e he => ?_⟩)
      rw [ho] at he
      nomatch he
  next := by
    intro s us h
    rw [next]
    split
    · exact .done h
    · exact .done h
    all_goals
      split
      · exact (advance_leaves hJ h.1).mapValue
      · exact .done ⟨h.1, fun hp => by simp [Phase.isStarted] at hp⟩
      · exact .done h
  close := by
    intro s us h
    exact .within ((halt_leaves hJ h).mono fun us ⟨h, hq⟩ => ⟨⟨h, fun _ => hq⟩, hq⟩)

theorem sound_of_invariant (hJ : Invariant op J) {sources : List Source}
    (h : J op.initial (unused sources)) : (fresh op).Sound (unused sources) :=
  ⟨_, carried_within hJ, h, fun _ => quiet_unused sources⟩

end

section

variable {m : Machine ω} {us vs : Usages}

theorem search_leaves {T : τ → Usages → Prop} {f : ω → τ → Step (Except Error (Option β)) τ}
    (hf : ∀ {v t vs}, T t vs → (f v t).Leaves vs T) {s : Scan m.toOperator} (hs : s.Sound us)
    {t : τ} (ht : T t vs) : (s.search f t).Leaves (us ++ vs) (Beside Sound T) := by
  -- A value that is pulled and then given to `f`.
  have pull {s : Scan m.toOperator} {us : Usages} (hs : s.Sound us) {t : τ} {vs : Usages}
      (ht : T t vs) (v : ω) : (s.next.andThen fun _ s => (f v t).within (s, ·)).Leaves (us ++ vs)
        (Beside Sound T) := by
    refine ((next_leaves hs).right vs).andThen ?_
    rintro _ ⟨us, rfl, hs⟩
    exact (hf ht).snd hs
  fun_induction search f s t generalizing us vs
  case case1 => exact (next_leaves hs).fst ht
  case case2 v _ _ _ _ => exact pull hs ht v
  case case3 v _ _ _ _ => exact pull hs ht v
  case case4 v _ _ _ y ih =>
    refine (pull hs ht v).andThen (f := fun _ _ => y) ?_
    rintro _ ⟨us, vs, rfl, hs, ht⟩
    exact ih hs ht
  case case5 => exact ⟨us ++ vs, .refl _, us, vs, rfl, hs, ht⟩

theorem drain_leaves {s : Scan m.toOperator} (h : s.Sound us) : s.drain.Leaves us Sound := by
  have hs : (s.search (β := Empty) (fun v vs => .done (.ok none) (v :: vs)) []).Leaves (us ++ [])
      (Beside Sound fun (_ : List ω) vs => vs = []) :=
    search_leaves (T := fun (_ : List ω) vs => vs = []) (fun h => .done h) h rfl
  rw [List.append_nil] at hs
  obtain ⟨_, hu, us', _, rfl, hs, rfl⟩ := hs
  rw [List.append_nil] at hu
  exact ⟨us', hu, hs⟩

theorem materialize_leaves {s : Scan m.toOperator} (h : s.Sound us) (c : Context) :
    (s.materialize c).Leaves us Resting :=
  run_leaves (fun ht => (drain_leaves ht).andThen fun _ hs => (close_leaves hs).mapValue) h c

end

end Scan

namespace Machine

def Clean (m : Machine ω) (sources : List Source) : Prop :=
  (Scan.fresh m.toOperator).Sound (unused sources)

theorem Clean.resting {m : Machine ω} {sources : List Source} (h : m.Clean sources) :
    (Scan.fresh m.toOperator).Resting (unused sources) := ⟨h, quiet_unused sources⟩

end Machine

end PullQuery
