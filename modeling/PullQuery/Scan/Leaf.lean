import PullQuery.Scan.Finite

namespace PullQuery.Machine

variable {ω κ ρ : Type}

theorem finite_of_measure {op : Operator ω} (f : op.State → Nat)
    (h : ∀ s v, (op.produce s).value = .ok (some v) → f (op.produce s).state < f s) :
    WellFounded op.Yields :=
  Subrelation.wf (fun ⟨v, hv, hs⟩ => hs ▸ h _ v hv) (measure f).wf

def emit (name : String) (position : Position) (initial : κ)
    (start : Context → κ → Step (Except Error (List ω)) κ) : Machine ω where
  name := name
  position := position
  State := κ × List ω
  initial := (initial, [])
  start c s := (start c s.1).thenOk (·, []) fun vs k => .done (.ok ()) (k, vs)
  produce s :=
    match s.2 with
    | [] => .done (.ok none) s
    | v :: vs => .done (.ok (some v)) (s.1, vs)
  stop s := .done () (s.1, [])
  finite := finite_of_measure (fun s => s.2.length) fun ⟨k, vs⟩ v h => by
    cases vs <;> simp_all [Step.done]

def defer (name : String) (position : Position) (initial : κ)
    (start : Context → κ → Step (Except Error (Option ρ)) κ)
    (finish : ρ → κ → Step (Except Error ω) κ) : Machine ω where
  name := name
  position := position
  State := κ × Option ρ
  initial := (initial, none)
  start c s := (start c s.1).thenOk (·, none) fun r k => .done (.ok ()) (k, r)
  produce s :=
    match s.2 with
    | none => .done (.ok none) s
    | some r => (finish r s.1).within (·, none) |>.mapValue fun v => v.map some
  stop s := .done () (s.1, none)
  finite := finite_of_measure (fun s => s.2.toList.length) fun ⟨k, r⟩ v h => by
    cases r <;> simp_all [Step.done, Step.within, Step.mapValue]

def countUp (name : String) (position : Position) (initial : κ)
    (start : Context → κ → Step (Except Error (Option (Int × Int))) κ) : Machine Item where
  name := name
  position := position
  State := κ × Option (Int × Int)
  initial := (initial, none)
  start c s := (start c s.1).thenOk (·, none) fun r k => .done (.ok ()) (k, r)
  produce s :=
    match s.2 with
    | none => .done (.ok none) s
    | some (n, last) =>
      if n ≤ last then .done (.ok (some (.ofInt n))) (s.1, some (n + 1, last))
      else .done (.ok none) s
  stop s := .done () (s.1, none)
  finite := finite_of_measure (fun s => (s.2.elim 0 fun r => (r.2 + 1 - r.1).toNat))
    fun ⟨k, r⟩ v h => by
      rcases r with _ | ⟨n, last⟩
      · simp_all [Step.done]
      · by_cases hn : n ≤ last
        · have hlt : (last + 1 - (n + 1)).toNat < (last + 1 - n).toNat := by omega
          simpa only [Step.done, hn, ite_true, Option.elim] using hlt
        · simp_all [Step.done]

def store (name : String) (position : Position) (source : Source) : Machine Item where
  name := name
  position := position
  State := List (Except Error Item)
  initial := source.entries
  start _ _ :=
    ⟨match source.refusal with
      | none => .ok ()
      | some e => .error e, source.entries, source.log .opening⟩
  produce s :=
    match s with
    | [] => ⟨.ok none, [], source.log .pull⟩
    | entry :: rest => ⟨entry.map some, rest, source.log .pull⟩
  stop s := ⟨(), s, source.log .closing⟩
  finite := finite_of_measure List.length fun s v h => by
    cases s <;> simp_all

end PullQuery.Machine
