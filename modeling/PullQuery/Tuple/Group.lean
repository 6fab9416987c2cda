import PullQuery.Tuple

namespace PullQuery

structure Group where
  keys : List (Option Item)
  tuples : List Tuple

namespace Group

def sameKey (implicit : Zone) : Option Item → Option Item → Except Error Bool
  | none, none => .ok true
  | some a, some b => Arithmetic.placing implicit a b (.ok (Comparison.sameKey implicit a b))
  | _, _ => .ok false

def sameKeys (implicit : Zone) : List (Option Item) → List (Option Item) → Except Error Bool
  | k :: ks, l :: ls => do if ← sameKey implicit k l then sameKeys implicit ks ls else .ok false
  | _, _ => .ok true

def place (implicit : Zone) (keys : List (Option Item)) (t : Tuple) :
    List Group → Except Error (List Group)
  | [] => .ok [⟨keys, [t]⟩]
  | g :: gs => do
    if ← sameKeys implicit g.keys keys then .ok (⟨g.keys, t :: g.tuples⟩ :: gs)
    else .ok (g :: (← place implicit keys t gs))

theorem place_cons (implicit : Zone) (keys : List (Option Item)) (t : Tuple) (g : Group)
    (gs : List Group) : place implicit keys t (g :: gs) =
      (sameKeys implicit g.keys keys).bind fun same =>
        if same then .ok (⟨g.keys, t :: g.tuples⟩ :: gs)
        else (place implicit keys t gs).map (g :: ·) := by
  rw [place]
  rcases sameKeys implicit g.keys keys with e | same
  · rfl
  · cases same with
    | true => rfl
    | false => cases place implicit keys t gs <;> rfl

def classify (implicit : Zone) (rows : List (List (Option Item) × Tuple)) :
    Except Error (List Group) :=
  rows.foldlM (fun gs row => place implicit row.1 row.2 gs) []

def values (names : List String) (g : Group) : Fields Items :=
  let ts := g.tuples.reverse
  let others := (ts.foldl (fun vs t => Fields.addNames t.names vs) []).filter (!names.contains ·)
  others.map fun v => (v, ts.flatMap fun t => (t.get? v).getD [])

def toTuple (names : List String) (g : Group) : Tuple :=
  let keyed := (names.zip g.keys).foldl (fun t (name, key) => t.bind name key.toList) Tuple.empty
  (g.values names).foldl (fun t b => t.bind b.1 b.2) keyed

/-- One tuple for each group of rows, which are tuples with their keys. -/
def ofRows (implicit : Zone) (names : List String) (rows : List (List (Option Item) × Tuple)) :
    Except Error (List Tuple) :=
  (classify implicit rows).map fun gs => gs.map (toTuple names)

end Group

end PullQuery
