import Mathlib.Data.List.Induction
import PullQuery.Proofs.Scan.Transcript

namespace PullQuery

variable {ω : Type}

inductive Stage (ω : Type)
  | idle
  | refused
  | running (scan : List (Signal ω))

namespace Stage

def after : Stage ω → Signal ω → Option (Stage ω)
  | .running scan, .produced r =>
    if scan.all Signal.goesOn then some (.running (scan ++ [.produced r])) else none
  | .running scan, .answered a => some (.running (scan ++ [.answered a]))
  | .running _, .stopped => some .idle
  | .running _, .started _ => none
  | .idle, .started r | .refused, .started r => some (if r.isOk then .running [] else .refused)
  | .refused, .stopped => some .refused
  | .idle, .answered _ => some .idle
  | .refused, .answered _ => some .refused
  | .idle, _ | .refused, _ => none

def follow (σ : Stage ω) (ts : List (Signal ω)) : Option (Stage ω) := ts.foldlM after σ

def isRunning : Stage ω → Bool
  | .running _ => true
  | _ => false

theorem at_rest_or_running (σ : Stage ω) : σ.isRunning = false ∨ ∃ scan, σ = .running scan := by
  cases σ with
  | idle => exact .inl rfl
  | refused => exact .inl rfl
  | running scan => exact .inr ⟨scan, rfl⟩

theorem follow_cons (σ : Stage ω) (x : Signal ω) (ts : List (Signal ω)) :
    σ.follow (x :: ts) = (σ.after x).bind fun σ => σ.follow ts := List.foldlM_cons

theorem follow_append (σ : Stage ω) (ts us : List (Signal ω)) :
    σ.follow (ts ++ us) = (σ.follow ts).bind fun σ => σ.follow us := List.foldlM_append

theorem follow_snoc (σ : Stage ω) (ts : List (Signal ω)) (x : Signal ω) :
    σ.follow (ts ++ [x]) = (σ.follow ts).bind fun σ => σ.after x := by
  rw [follow_append]
  congr 1
  funext σ
  rw [follow_cons]
  cases σ.after x <;> rfl

theorem after_of_follow {σ τ : Stage ω} {x : Signal ω} {ts : List (Signal ω)}
    (h : σ.follow (x :: ts) = some τ) : ∃ ρ, σ.after x = some ρ ∧ ρ.follow ts = some τ := by
  rw [follow_cons] at h
  exact Option.bind_eq_some_iff.1 h

theorem split_of_follow {σ τ : Stage ω} {ts us : List (Signal ω)} {x : Signal ω}
    (h : σ.follow (ts ++ x :: us) = some τ) :
    ∃ σ₁ σ₂, σ.follow ts = some σ₁ ∧ σ₁.after x = some σ₂ ∧ σ₂.follow us = some τ := by
  rw [follow_append] at h
  obtain ⟨σ₁, h₁, h⟩ := Option.bind_eq_some_iff.1 h
  obtain ⟨σ₂, hx, hτ⟩ := after_of_follow h
  exact ⟨σ₁, σ₂, h₁, hx, hτ⟩

theorem after_started {σ : Stage ω} (h : σ.isRunning = false) (r : Except Error Unit) :
    σ.after (.started r) = some (if r.isOk then .running [] else .refused) := by
  cases σ with
  | running => cases h
  | idle => rfl
  | refused => rfl

theorem after_cases {σ τ : Stage ω} {x : Signal ω} (h : σ.after x = some τ) :
    (∃ r, x = .started r ∧ σ.isRunning = false ∧ τ = if r.isOk then .running [] else .refused) ∨
    (∃ scan, σ = .running scan ∧ τ = .running (scan ++ [x]) ∧ x.isStart = false ∧
      x.isStop = false ∧ (x.isProduced = true → ∀ y ∈ scan, y.goesOn = true)) ∨
    (σ.isRunning = true ∧ x = .stopped ∧ τ = .idle) ∨
    σ.isRunning = false ∧ τ = σ ∧ x.isStart = false ∧ x.isProduced = false ∧
      (x.isStop = true → σ = .refused) := by
  cases σ with
  | running scan =>
    cases x with
    | started r => cases h
    | produced r =>
      simp only [after, Option.ite_none_right_eq_some, Option.some.injEq, List.all_eq_true] at h
      exact .inr (.inl ⟨scan, rfl, h.2.symm, rfl, rfl, fun _ => h.1⟩)
    | stopped => exact .inr (.inr (.inl ⟨rfl, rfl, (Option.some.inj h).symm⟩))
    | answered a => exact .inr (.inl ⟨scan, rfl, (Option.some.inj h).symm, rfl, rfl, nofun⟩)
  | idle =>
    cases x with
    | started r => exact .inl ⟨r, rfl, rfl, (Option.some.inj h).symm⟩
    | produced r => cases h
    | stopped => cases h
    | answered a => exact .inr (.inr (.inr ⟨rfl, (Option.some.inj h).symm, rfl, rfl, nofun⟩))
  | refused =>
    cases x with
    | started r => exact .inl ⟨r, rfl, rfl, (Option.some.inj h).symm⟩
    | produced r => cases h
    | stopped => exact .inr (.inr (.inr ⟨rfl, (Option.some.inj h).symm, rfl, rfl, fun _ => rfl⟩))
    | answered a => exact .inr (.inr (.inr ⟨rfl, (Option.some.inj h).symm, rfl, rfl, nofun⟩))

theorem started_of_after {σ τ : Stage ω} {r : Except Error Unit}
    (h : σ.after (.started r) = some τ) :
    σ.isRunning = false ∧ τ = if r.isOk then .running [] else .refused := by
  obtain ⟨_, hr, hσ, rfl⟩ | ⟨_, -, -, hs, -⟩ | ⟨-, hs, -⟩ | ⟨-, -, hs, -⟩ := after_cases h
  · cases hr
    exact ⟨hσ, rfl⟩
  · cases hs
  · cases hs
  · cases hs

theorem current_of_follow {ts scan : List (Signal ω)}
    (h : Stage.idle.follow ts = some (.running scan)) : Signal.Current ts scan := by
  -- From the end of the transcript: its last signal begins the scan or is the last one of the scan.
  induction ts using List.reverseRecOn generalizing scan with
  | nil => cases h
  | append_singleton ts x ih =>
    rw [follow_snoc] at h
    obtain ⟨σ, hσ, hx⟩ := Option.bind_eq_some_iff.1 h
    obtain ⟨r, rfl, -, hτ⟩ | ⟨scan', rfl, hτ, hs, hp, -⟩ | ⟨-, -, hτ⟩ | ⟨hr, rfl, -⟩ := after_cases hx
    · rcases r with e | _
      · cases hτ
      · cases hτ
        exact ⟨ts, rfl, by simp⟩
    · cases hτ
      obtain ⟨before, rfl, hn⟩ := ih hσ
      refine ⟨before, by simp, fun y hy => ?_⟩
      obtain hy | hy := List.mem_append.1 hy
      · exact hn y hy
      · rw [List.mem_singleton.1 hy]
        exact ⟨hs, hp⟩
    · cases hτ
    · cases hr

theorem running_of_follow {scan ts : List (Signal ω)} {τ : Stage ω}
    (h : (running scan).follow ts = some τ)
    (hn : ∀ x ∈ ts, x.isStart = false ∧ x.isStop = false) : τ = .running (scan ++ ts) := by
  induction ts generalizing scan with
  | nil => simpa [follow] using h.symm
  | cons x ts ih =>
    obtain ⟨hxs, hxp⟩ := hn x List.mem_cons_self
    obtain ⟨σ, hx, hσ⟩ := after_of_follow h
    obtain ⟨r, rfl, -⟩ | ⟨_, hs, rfl, -⟩ | ⟨-, rfl, -⟩ | ⟨hr, -⟩ := after_cases hx
    · cases hxs
    · cases hs
      simpa using ih hσ fun y hy => hn y (List.mem_cons_of_mem _ hy)
    · cases hxp
    · cases hr

theorem running_of_current {ts scan : List (Signal ω)} {τ : Stage ω}
    (h : Stage.idle.follow ts = some τ) (hc : Signal.Current ts scan) : τ = .running scan := by
  obtain ⟨before, rfl, hn⟩ := hc
  obtain ⟨σ₁, σ₂, -, hx, hτ⟩ := split_of_follow h
  obtain ⟨-, rfl⟩ := started_of_after hx
  exact running_of_follow hτ hn

theorem idle_of_follow {ts : List (Signal ω)} {τ : Stage ω} (h : Stage.idle.follow ts = some τ)
    (hn : ∀ x ∈ ts, x.isStart = false) : τ = .idle ∧ ts.countP Signal.isStop = 0 := by
  induction ts with
  | nil => exact ⟨(Option.some.inj h).symm, rfl⟩
  | cons x ts ih =>
    have hxs := hn x List.mem_cons_self
    obtain ⟨σ, hx, hσ⟩ := after_of_follow h
    obtain ⟨r, rfl, -⟩ | ⟨_, hs, -⟩ | ⟨hr, -⟩ | ⟨-, rfl, -, -, hp⟩ := after_cases hx
    · cases hxs
    · cases hs
    · cases hr
    -- A stop that leaves the stage as it is would be of an operator that was refused.
    · obtain ⟨hτ, hc⟩ := ih hσ fun y hy => hn y (List.mem_cons_of_mem _ hy)
      have hxp : x.isStop = false := by
        cases hs : x.isStop with
        | false => rfl
        | true => cases hp hs
      exact ⟨hτ, by simp [hc, hxp]⟩

theorem stopped_of_follow {scan ts : List (Signal ω)} {τ : Stage ω}
    (h : (running scan).follow ts = some τ) (hn : ∀ x ∈ ts, x.isStart = false) :
    τ.isRunning = true ∨ τ = .idle ∧ ts.countP Signal.isStop = 1 := by
  induction ts generalizing scan with
  | nil => exact .inl (Option.some.inj h ▸ rfl)
  | cons x ts ih =>
    have hxs := hn x List.mem_cons_self
    have hts : ∀ y ∈ ts, y.isStart = false := fun y hy => hn y (List.mem_cons_of_mem _ hy)
    obtain ⟨σ, hx, hσ⟩ := after_of_follow h
    obtain ⟨r, rfl, -⟩ | ⟨_, hs, rfl, -, hp, -⟩ | ⟨-, rfl, rfl⟩ | ⟨hr, -⟩ := after_cases hx
    · cases hxs
    · cases hs
      obtain hτ | ⟨hτ, hc⟩ := ih hσ hts
      · exact .inl hτ
      · exact .inr ⟨hτ, by simp [hc, hp]⟩
    · obtain ⟨hτ, hc⟩ := idle_of_follow hσ hts
      exact .inr ⟨hτ, by simp [List.countP_cons, hc, Signal.isStop]⟩
    · cases hr

end Stage

end PullQuery
