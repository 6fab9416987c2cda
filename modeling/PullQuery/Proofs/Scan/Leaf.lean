import PullQuery.Proofs.Scan.Reading
import PullQuery.Scan.Leaf

namespace PullQuery.Machine

variable {ω κ ρ : Type} {name : String} {p : Position} {initial : κ} {c : Context}

theorem rest_emit {start : Context → κ → Step (Except Error (List ω)) κ} (k : κ) (vs : List ω) :
    (emit name p initial start).rest (k, vs) = .ofList vs := by
  apply rest_eq (R := fun (s : κ × List ω) o => o = .ofList s.2) _ rfl
  rintro ⟨k, _ | ⟨v, vs⟩⟩ o rfl
  · rfl
  · exact ⟨.ofList vs, rfl, rfl⟩

theorem emit_gives {start : Context → κ → Step (Except Error (List ω)) κ}
    {r : Except Error (List ω)} (h : ∀ k, (start c k).value = r) :
    (emit name p initial start).GivesAt c ((Output.ofExcept r).locate p) := by
  have hr : Output.ofExcept r = .ofOpening (r.map .ofList) := by cases r <;> rfl
  rw [hr]
  refine GivesAt.of_start (fun i => ?_) fun i vs hvs => ?_
  · cases r <;> simp [emit, h, Except.map, Except.bind]
  · have hi : ((emit name p initial start).start c i).state = ((start c i.1).state, vs) :=
      Step.thenOk_state_of_ok _ _ _ ((h i.1).trans hvs)
    rw [hi, rest_emit]

def finished (g : ρ → Except Error ω) (r : Except Error (Option ρ)) : Except Error (List ω) :=
  r.bind fun
    | none => .ok []
    | some a => (g a).map ([·])

theorem rest_defer_none {start : Context → κ → Step (Except Error (Option ρ)) κ}
    {finish : ρ → κ → Step (Except Error ω) κ} (k : κ) :
    (defer name p initial start finish).rest (k, none) = .ofList [] := rest_of_none rfl

theorem rest_defer_some {start : Context → κ → Step (Except Error (Option ρ)) κ}
    {finish : ρ → κ → Step (Except Error ω) κ} (a : ρ) (k : κ) :
    (defer name p initial start finish).rest (k, some a) =
      .ofExcept ((finish a k).value.map ([·])) := by
  rcases hf : (finish a k).value with e | v
  · exact rest_of_error (by simp [defer, hf, Except.map])
  · have hp : ((defer name p initial start finish).produce (k, some a)).value = .ok (some v) := by
      simp [defer, hf, Except.map]
    exact (rest_of_some hp).trans (congrArg (Output.cons v) (rest_defer_none _))

theorem defer_gives {start : Context → κ → Step (Except Error (Option ρ)) κ}
    {finish : ρ → κ → Step (Except Error ω) κ} {r : Except Error (Option ρ)}
    {g : ρ → Except Error ω} (h : ∀ k, (start c k).value = r)
    (hf : ∀ a k, r = .ok (some a) → (finish a k).value = g a) :
    (defer name p initial start finish).GivesAt c ((Output.ofExcept (finished g r)).locate p) := by
  have hr : Output.ofExcept (finished g r) = .ofOpening (r.map fun
      | none => .ofList []
      | some a => .ofExcept ((g a).map ([·]))) := by rcases r with e | (_ | a) <;> rfl
  rw [hr]
  refine GivesAt.of_start (fun i => ?_) fun i a ha => ?_
  · cases r <;> simp [defer, h, Except.map, Except.bind]
  · have hi : ((defer name p initial start finish).start c i).state = ((start c i.1).state, a) :=
      Step.thenOk_state_of_ok _ _ _ ((h i.1).trans ha)
    rw [hi]
    cases a with
    | none => exact rest_defer_none _
    | some a => rw [rest_defer_some, hf a _ ha]

def integers (n last : Int) : List Item :=
  (List.range (last + 1 - n).toNat).map fun (i : Nat) => Item.ofInt (n + i)

theorem integers_cons {n last : Int} (h : n ≤ last) :
    integers n last = .ofInt n :: integers (n + 1) last := by
  have hl : (last + 1 - n).toNat = (last + 1 - (n + 1)).toNat + 1 := by omega
  simp only [integers, hl, List.range_succ_eq_map, List.map_cons, List.map_map]
  rw [show n + ((0 : Nat) : Int) = n by omega]
  refine congrArg (List.cons _) (List.map_congr_left fun i _ => congrArg Item.ofInt ?_)
  simp only [Nat.succ_eq_add_one]
  omega

theorem integers_nil {n last : Int} (h : ¬n ≤ last) : integers n last = [] := by
  have hl : (last + 1 - n).toNat = 0 := by omega
  simp [integers, hl]

theorem rest_countUp {start : Context → κ → Step (Except Error (Option (Int × Int))) κ} (k : κ)
    (n last : Int) :
    (countUp name p initial start).rest (k, some (n, last)) = .ofList (integers n last) := by
  apply rest_eq (m := countUp name p initial start)
    (R := fun (s : κ × Option (Int × Int)) o => ∃ n last, s.2 = some (n, last) ∧
      o = .ofList (integers n last)) _ ⟨n, last, rfl, rfl⟩
  rintro ⟨k, _⟩ o ⟨n, last, rfl, rfl⟩
  by_cases hn : n ≤ last
  · simp only [countUp, hn, ite_true, integers_cons hn]
    exact ⟨_, ⟨_, _, rfl, rfl⟩, rfl⟩
  · simp only [countUp, hn, ite_false, integers_nil hn]
    rfl

theorem countUp_gives {start : Context → κ → Step (Except Error (Option (Int × Int))) κ}
    {r : Except Error (Option (Int × Int))} (h : ∀ k, (start c k).value = r) :
    (countUp name p initial start).GivesAt c ((Output.ofExcept (r.map fun
      | none => []
      | some (n, last) => integers n last)).locate p) := by
  have hr : Output.ofExcept (r.map fun
      | none => []
      | some (n, last) => integers n last) = .ofOpening (r.map fun
      | none => .ofList []
      | some (n, last) => .ofList (integers n last)) := by rcases r with e | (_ | _) <;> rfl
  rw [hr]
  refine GivesAt.of_start (fun i => ?_) fun i a ha => ?_
  · cases r <;> simp [countUp, h, Except.map, Except.bind]
  · have hi : ((countUp name p initial start).start c i).state = ((start c i.1).state, a) :=
      Step.thenOk_state_of_ok _ _ _ ((h i.1).trans ha)
    rw [hi]
    rcases a with _ | ⟨n, last⟩
    · exact rest_of_none rfl
    · exact rest_countUp _ n last

theorem rest_store (source : Source) (entries : List (Except Error Item)) :
    (store name p source).rest entries = .ofEntries entries := by
  apply rest_eq (m := store name p source)
    (R := fun (s : List (Except Error Item)) o => o = .ofEntries s) _ rfl
  rintro (_ | ⟨e | a, entries⟩) o rfl
  · rfl
  · rfl
  · exact ⟨_, rfl, rfl⟩

theorem store_gives (source : Source) : (store name p source).GivesAt c
    ((match source.refusal with
      | some e => Output.fail e
      | none => .ofEntries source.entries).locate p) := by
  cases h : source.refusal with
  | none =>
    exact GivesAt.of_start (m := store name p source) (r := .ok ())
      (f := fun _ => .ofEntries source.entries) (fun i => by simp [store, h, Except.map])
      fun i _ _ => rest_store source source.entries
  | some e =>
    exact GivesAt.of_start (m := store name p source) (r := .error e)
      (f := fun (_ : Unit) => .ofEntries source.entries) (fun i => by simp [store, h, Except.map])
      fun i _ _ => rest_store source source.entries

end PullQuery.Machine
