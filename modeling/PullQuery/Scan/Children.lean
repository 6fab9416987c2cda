import PullQuery.Scan.Finite

namespace PullQuery

variable {ω α : Type}

def Scans : List (Machine ω) → Type
  | [] => Unit
  | m :: ms => Scan m.toOperator × Scans ms

namespace Scans

def fresh : (ms : List (Machine ω)) → Scans ms
  | [] => ()
  | m :: ms => (.fresh m.toOperator, fresh ms)

def fold (c : Context) (f : α → List ω → Except Error α) :
    (ms : List (Machine ω)) → α → Scans ms → Step (Except Error α) (Scans ms)
  | [], a, s => .done (.ok a) s
  | _ :: ms, a, s =>
    (s.1.materialize c).thenOk (·, s.2) fun vs s₁ =>
      match f a vs with
      | .error e => .done (.error e) (s₁, s.2)
      | .ok a => (fold c f ms a s.2).within (s₁, ·)

def materialize (c : Context) (ms : List (Machine ω)) (s : Scans ms) :
    Step (Except Error (List (List ω))) (Scans ms) :=
  fold c (fun acc vs => .ok (acc ++ [vs])) ms [] s

def close : (ms : List (Machine ω)) → Scans ms → Step Unit (Scans ms)
  | [], s => .done () s
  | _ :: ms, s => s.1.close.andThen fun _ s₁ => (close ms s.2).within (s₁, ·)

def startFirst (c : Context) :
    (ms : List (Machine ω)) → Scans ms → Step (Except Error Unit) (Scans ms)
  | [], s => .done (.ok ()) s
  | _ :: _, s => (s.1.start c).within (·, s.2)

def next (c : Context) : (ms : List (Machine ω)) → Nat → Scans ms →
    Step (Except Error (Option ω)) (Nat × Scans ms)
  | [], i, s => .done (.ok none) (i, s)
  | _ :: ms, i + 1, s => (next c ms i s.2).within fun r => (r.1 + 1, s.1, r.2)
  | _ :: ms, 0, s =>
    if s.1.hasNext then (s.1.next.within (fun s₁ => (0, s₁, s.2))).mapValue fun r => r.map some
    else
      s.1.close.andThen fun _ s₁ =>
        (startFirst c ms s.2).thenOk (fun s₂ => (1, s₁, s₂)) fun _ s₂ =>
          (next c ms 0 s₂).within fun r => (r.1 + 1, s₁, r.2)

def Precedes (ms : List (Machine ω)) (s' s : Nat × Scans ms) : Prop :=
  ∃ c v, (next c ms s.1 s.2).value = .ok (some v) ∧ (next c ms s.1 s.2).state = s'

theorem acc_succ {m : Machine ω} {ms : List (Machine ω)} (h : WellFounded (Precedes ms)) (i : Nat)
    (s₁ : Scan m.toOperator) (s : Scans ms) :
    Acc (Precedes (m :: ms)) (i + 1, (s₁, s)) := by
  generalize hx : (i, s) = x
  induction x using h.induction generalizing i s with
  | _ x ih =>
    subst hx
    constructor
    rintro s' ⟨c, v, hv, rfl⟩
    exact ih _ ⟨c, v, hv, rfl⟩ _ _ rfl

theorem wellFounded_precedes (ms : List (Machine ω)) : WellFounded (Precedes ms) := by
  induction ms with
  | nil =>
    constructor
    intro s
    constructor
    rintro s' ⟨c, v, hv, _⟩
    simp [next, Step.done] at hv
  | cons m ms ih =>
    have h0 (s₁ : Scan m.toOperator) : ∀ s, Acc (Precedes (m :: ms)) (0, (s₁, s)) := by
      induction s₁ using (Scan.wellFounded_precedes m.finite).induction with
      | _ s₁ ihs =>
        intro s
        constructor
        rintro s' ⟨c, v, hv, rfl⟩
        simp only [next] at hv ⊢
        split at hv
        case isTrue hn =>
          simp only [hn, ite_true, Step.mapValue, Step.within] at hv ⊢
          rcases hr : s₁.next.value with e | w
          · simp [hr, Except.map] at hv
          · exact ihs _ ⟨w, hr, rfl⟩ s
        case isFalse hn =>
          simp only [hn, ite_false, Bool.false_eq_true] at hv ⊢
          simp only [Step.andThen, Step.thenOk] at hv ⊢
          split at hv
          · simp [Step.done] at hv
          · simp_all only [Step.within]
            exact acc_succ ih _ _ _
    constructor
    rintro ⟨_ | i, s⟩
    · exact h0 s.1 s.2
    · exact acc_succ ih i s.1 s.2

end Scans

namespace Machine

def comma (name : String) (position : Position) (ms : List (Machine ω)) : Machine ω where
  name := name
  position := position
  State := Option Context × Nat × Scans ms
  initial := (none, 0, .fresh ms)
  start c s := (Scans.startFirst c ms s.2.2).within (some c, 0, ·)
  produce s :=
    match s.1 with
    | none => .done (.ok none) s
    | some c => (Scans.next c ms s.2.1 s.2.2).within (some c, ·)
  stop s := (Scans.close ms s.2.2).within (none, s.2.1, ·)
  finite := by
    apply Subrelation.wf (r := InvImage (Scans.Precedes ms) Prod.snd) _
      (InvImage.wf _ (Scans.wellFounded_precedes ms))
    rintro s' ⟨_ | c, s⟩ ⟨v, hv, rfl⟩
    · simp [Step.done] at hv
    · exact ⟨c, v, hv, rfl⟩

end Machine

end PullQuery
