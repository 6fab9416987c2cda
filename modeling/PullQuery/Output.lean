import PullQuery.Error

namespace PullQuery

structure Output (ω : Type) where
  values : List ω
  failure : Option Error

namespace Output

variable {α ω ρ : Type}

def ofList (vs : List ω) : Output ω := ⟨vs, none⟩

def fail (e : Error) : Output ω := ⟨[], some e⟩

def ofExcept : Except Error (List ω) → Output ω
  | .ok vs => ofList vs
  | .error e => fail e

def ofEntries : List (Except Error ω) → Output ω
  | [] => ofList []
  | .error e :: _ => fail e
  | .ok v :: rest => ⟨v :: (ofEntries rest).values, (ofEntries rest).failure⟩

def append (a b : Output ω) : Output ω :=
  match a.failure with
  | some _ => a
  | none => ⟨a.values ++ b.values, b.failure⟩

theorem ofList_append (vs : List ω) (a : Output ω) :
    (ofList vs).append a = ⟨vs ++ a.values, a.failure⟩ := rfl

theorem append_nil (a : Output ω) : a.append (ofList []) = a := by
  obtain ⟨vs, _ | e⟩ := a <;> simp [append, ofList]

theorem append_assoc (a b c : Output ω) : (a.append b).append c = a.append (b.append c) := by
  obtain ⟨vs, _ | e⟩ := a
  · obtain ⟨ws, _ | e⟩ := b <;> simp [append]
  · rfl

def concat (outputs : List (Output ω)) : Output ω := outputs.foldr append (ofList [])

def flatMap (a : Output α) (f : α → Output ω) : Output ω :=
  a.values.foldr (fun v rest => (f v).append rest) ⟨[], a.failure⟩

theorem flatMap_cons (v : α) (vs : List α) (e : Option Error) (f : α → Output ω) :
    (Output.mk (v :: vs) e).flatMap f = (f v).append ((Output.mk vs e).flatMap f) := rfl

theorem append_cons (v : ω) (vs : List ω) (e : Option Error) (b : Output ω) :
    (Output.mk (v :: vs) e).append b =
      ⟨v :: ((Output.mk vs e).append b).values, ((Output.mk vs e).append b).failure⟩ := by
  cases e <;> rfl

theorem flatMap_append (a b : Output α) (f : α → Output ω) :
    (a.append b).flatMap f = (a.flatMap f).append (b.flatMap f) := by
  obtain ⟨vs, e⟩ := a
  induction vs with
  | nil => cases e <;> rfl
  | cons v vs ih => rw [append_cons, flatMap_cons, flatMap_cons, ih, append_assoc]

def numbered (a : Output α) : Output (α × Nat) := ⟨a.values.zipIdx 1, a.failure⟩

def map (f : α → ω) (a : Output α) : Output ω := ⟨a.values.map f, a.failure⟩

def locate (p : Position) (a : Output ω) : Output ω :=
  ⟨a.values, a.failure.map fun e => e.locate p⟩

def collect (a : Output ω) : Except Error (List ω) :=
  match a.failure with
  | some e => .error e
  | none => .ok a.values

def first (a : Output ω) : Except Error (Option ω) :=
  match a.values, a.failure with
  | v :: _, _ => .ok (some v)
  | [], some e => .error e
  | [], none => .ok none

def atMostOne (several : Error) (a : Output ω) : Except Error (Option ω) :=
  match a.values, a.failure with
  | [], none => .ok none
  | [], some e => .error e
  | [v], none => .ok (some v)
  | _, _ => .error several

def rows (f : α → Except Error ρ) (a : Output α) : Except Error (List ρ) := do
  let rs ← a.values.mapM f
  match a.failure with
  | some e => .error e
  | none => .ok rs

end Output

end PullQuery
