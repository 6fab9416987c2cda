import PullQuery.Tuple

namespace PullQuery.Sort

abbrev Row := List (Option Item) × Tuple

def comparands (keys : List (Option Item)) : Items :=
  keys.filterMap fun
    | none | some .null => none
    | some a => some a

/-- Compares each of the keys with the first one. -/
def comparableColumn (implicit : Zone) (keys : List (Option Item)) : Except Error Unit :=
  match comparands keys with
  | [] => .ok ()
  | first :: rest => rest.forM fun k => (Comparison.order implicit first k).map fun _ => ()

def column (rows : List Row) (i : Nat) : List (Option Item) := rows.map fun row => row.1[i]?.join

/-- Compares each of the keys with the first one, where placing two points can stop the program. -/
def checkColumn (implicit : Zone) (keys : List (Option Item)) : Except Error Unit :=
  match comparands keys with
  | [] => .ok ()
  | first :: rest => rest.forM fun k =>
    Arithmetic.placing implicit first k ((Comparison.order implicit first k).map fun _ => ())

def checkColumns (implicit : Zone) (rows : List Row) (count : Nat) : Except Error Unit :=
  (List.range count).forM fun i => checkColumn implicit (column rows i)

/-- The order of two keys that are present; keys that do not compare are equal. -/
def compareItems (implicit : Zone) (a b : Item) : Ordering :=
  match Comparison.order implicit a b with
  | .ok o => o
  | .error _ => .eq

def compareKeys (implicit : Zone) (order : SortOrder) (k l : Option Item) : Ordering :=
  let o : Ordering := match k, l with
    | none, none => .eq
    | none, some _ => if order.emptyGreatest then .gt else .lt
    | some _, none => if order.emptyGreatest then .lt else .gt
    | some a, some b => compareItems implicit a b
  if order.descending then o.swap else o

def compareRows (implicit : Zone) :
    List SortOrder → List (Option Item) → List (Option Item) → Ordering
  | o :: os, k :: ks, l :: ls => (compareKeys implicit o k l).then (compareRows implicit os ks ls)
  | _, _, _ => .eq

def tuples (implicit : Zone) (orders : List SortOrder) (rows : List Row) :
    Except Error (List Tuple) :=
  (checkColumns implicit rows orders.length).map fun _ =>
    (rows.mergeSort fun r s => compareRows implicit orders r.1 s.1 != .gt).map Prod.snd

end PullQuery.Sort
