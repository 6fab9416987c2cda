import PullQuery.Machine.Structure
import PullQuery.Proofs.Scan.Alike

namespace PullQuery.Machine

variable {ω κ : Type} {name : String} {p : Position} {initial : κ} {c : Context}

section

variable {choose : Context → κ → Step (Except Error Bool) κ} {yes no other : Machine ω}

theorem choice_yes_alike (h : ∀ k, (choose c k).value = .ok true) :
    (choice name p initial choose yes no).toOperator.Alike
      (choice name p initial choose yes other).toOperator c
      fun (s : Choice.State κ yes no) (t : Choice.State κ yes other) =>
        s.work = t.work ∧ s.yes = t.yes ∧ s.chosen = t.chosen ∧ s.chosen ≠ some false where
  name := rfl
  position := rfl
  start := by
    rintro ⟨k, y, n, b⟩ ⟨_, _, n', _⟩ ⟨rfl, rfl, rfl, -⟩
    constructor <;> simp [choice, Choice.start, Step.thenOk, h]
  produce := by
    rintro ⟨k, y, n, _ | _ | _⟩ ⟨_, _, n', _⟩ ⟨rfl, rfl, rfl, hb⟩
    · exact .done ⟨rfl, rfl, rfl, hb⟩
    · exact absurd rfl hb
    · constructor <;> cases hy : y.hasNext <;> simp [choice, Choice.produce, hy]
  stop := by
    rintro ⟨k, y, n, _ | _ | _⟩ ⟨_, _, n', _⟩ ⟨rfl, rfl, rfl, hb⟩
    · exact .done ⟨rfl, rfl, rfl, hb⟩
    · exact absurd rfl hb
    · constructor <;> simp [choice, Choice.stop]

theorem choice_no_alike (h : ∀ k, (choose c k).value = .ok false) :
    (choice name p initial choose yes no).toOperator.Alike
      (choice name p initial choose other no).toOperator c
      fun (s : Choice.State κ yes no) (t : Choice.State κ other no) =>
        s.work = t.work ∧ s.no = t.no ∧ s.chosen = t.chosen ∧ s.chosen ≠ some true where
  name := rfl
  position := rfl
  start := by
    rintro ⟨k, y, n, b⟩ ⟨_, y', _, _⟩ ⟨rfl, rfl, rfl, -⟩
    constructor <;> simp [choice, Choice.start, Step.thenOk, h]
  produce := by
    rintro ⟨k, y, n, _ | _ | _⟩ ⟨_, y', _, _⟩ ⟨rfl, rfl, rfl, hb⟩
    · exact .done ⟨rfl, rfl, rfl, hb⟩
    · constructor <;> cases hn : n.hasNext <;> simp [choice, Choice.produce, hn]
    · exact absurd rfl hb
  stop := by
    rintro ⟨k, y, n, _ | _ | _⟩ ⟨_, y', _, _⟩ ⟨rfl, rfl, rfl, hb⟩
    · exact .done ⟨rfl, rfl, rfl, hb⟩
    · constructor <;> simp [choice, Choice.stop]
    · exact absurd rfl hb

theorem choice_error_alike {yes' no' : Machine ω} {e : Error}
    (h : ∀ k, (choose c k).value = .error e) :
    (choice name p initial choose yes no).toOperator.Alike
      (choice name p initial choose yes' no').toOperator c
      fun (s : Choice.State κ yes no) (t : Choice.State κ yes' no') =>
        s.work = t.work ∧ s.chosen = none ∧ t.chosen = none where
  name := rfl
  position := rfl
  start := by
    rintro ⟨k, y, n, _⟩ ⟨_, y', n', _⟩ ⟨rfl, rfl, rfl⟩
    constructor <;> simp [choice, Choice.start, Step.thenOk, h]
  produce := by
    rintro ⟨k, y, n, _⟩ ⟨_, y', n', _⟩ ⟨rfl, rfl, rfl⟩
    exact .done ⟨rfl, rfl, rfl⟩
  stop := by
    rintro ⟨k, y, n, _⟩ ⟨_, y', n', _⟩ ⟨rfl, rfl, rfl⟩
    exact .done ⟨rfl, rfl, rfl⟩

end

section

variable {l r other : Machine Item} {connective : Connective}

theorem logical_alike (h : ∀ s : Scan l.toOperator, (∃ e, (truthOf c s).value = .error e) ∨
      ∃ b, (truthOf c s).value = .ok b ∧ (decided connective b).isSome = true) :
    (logical p connective l r).toOperator.Alike (logical p connective l other).toOperator c
      fun (s : (Scan l.toOperator × Scan r.toOperator) × Option Context)
          (t : (Scan l.toOperator × Scan other.toOperator) × Option Context) =>
        s.1.1 = t.1.1 ∧ s.2 = t.2 ∧ (s.2 = none ∨ s.2 = some c) where
  name := rfl
  position := rfl
  start := by
    rintro ⟨⟨s, u⟩, o⟩ ⟨⟨_, u'⟩, _⟩ ⟨rfl, rfl, -⟩
    exact ⟨rfl, rfl, rfl, rfl, .inr rfl⟩
  produce := by
    rintro ⟨⟨s, u⟩, o⟩ ⟨⟨_, u'⟩, _⟩ ⟨rfl, rfl, rfl | rfl⟩
    · exact .done ⟨rfl, rfl, .inl rfl⟩
    · obtain ⟨e, hv⟩ | ⟨b, hv, hd⟩ := h s
      · constructor <;> simp [logical, defer, Step.thenOk, hv]
      · obtain ⟨b', hb⟩ := Option.isSome_iff_exists.1 hd
        constructor <;> simp [logical, defer, Step.thenOk, hv, hb]
  stop := by
    rintro ⟨⟨s, u⟩, o⟩ ⟨⟨_, u'⟩, _⟩ ⟨rfl, rfl, -⟩
    exact .done ⟨rfl, rfl, .inl rfl⟩

end

end PullQuery.Machine
