import PullQuery.Item
import PullQuery.Scan.Children
import PullQuery.Scan.Each
import PullQuery.Scan.Gather
import PullQuery.Scan.Leaf
import PullQuery.Scan.Nested
import PullQuery.Tuple.Group
import PullQuery.Tuple.Sort

namespace PullQuery.Machine

def seed (p : Position) : Machine Tuple := emit "seed" p () fun _ _ => .done (.ok [Tuple.empty]) ()

def extendTuple (name : String) (place : Option String) (t : Tuple) (items : Items) (i : Nat) :
    Tuple :=
  let t := t.bind name items
  match place with
  | none => t
  | some placeName => t.bind placeName [.ofNat i]

def forEach (p : Position) (name : String) (place : Option String) (allowingEmpty : Bool)
    (input : Machine Tuple) (e : Machine Item) : Machine Tuple :=
  nested "for-clause" p
    ⟨fun c t _ => t.toContext c, fun t i a => extendTuple name place t [a] i,
      fun t => if allowingEmpty then some (extendTuple name place t [] 0) else none⟩
    input e

def letBind (p : Position) (name : String) (input : Machine Tuple) (e : Machine Item) :
    Machine Tuple :=
  each "let-clause" p (Scan.fresh e.toOperator) (fun c s => .done (.ok c) s)
    (fun c t s => (s.materialize (t.toContext c)).mapValue fun r =>
      r.map fun items => [t.bind name items]) input

def filter (p : Position) (input : Machine Tuple) (e : Machine Item) : Machine Tuple :=
  each "where-clause" p (Scan.fresh e.toOperator) (fun c s => .done (.ok c) s)
    (fun c t s => (s.materialize (t.toContext c)).mapValue fun r =>
      (r.bind Items.truth).map fun b => if b then [t] else []) input

def count (p : Position) (name : String) (input : Machine Tuple) : Machine Tuple :=
  each "count-clause" p 0 (fun _ _ => .done (.ok ()) 0)
    (fun _ t n => .done (.ok [t.bind name [.ofNat (n + 1)]]) (n + 1)) input

def groupingVariable (p : Position) (name : String) : Machine Item :=
  emit "grouping-variable" p () fun c _ =>
    .done (match Fields.find? name c.frame.bindings with
      | some items => .ok items
      | none => .error (.of (.unboundGroupingVariable name))) ()

def keyed (clause : String) (keys : List (Machine Item)) (c : Context) (t : Tuple)
    (s : Scans keys) : Step (Except Error (List (Option Item) × Tuple)) (Scans keys) :=
  (Scans.fold (t.toContext c)
    (fun ks items => (Items.atomicKey clause items).map fun k => ks ++ [k]) keys [] s).mapValue
    fun r => r.map fun ks => (ks, t)

def group (p : Position) (names : List String) (keys : List (Machine Item))
    (input : Machine Tuple) : Machine Tuple :=
  gather "group-by-clause" p (Scans.fresh keys) (keyed "group by" keys)
    (fun c rows => Group.ofRows c.implicitTimezone names rows) input

def order (p : Position) (orders : List SortOrder) (keys : List (Machine Item))
    (input : Machine Tuple) : Machine Tuple :=
  gather "order-by-clause" p (Scans.fresh keys) (keyed "order by" keys)
    (fun c rows => Sort.tuples c.implicitTimezone orders rows) input

def returning (p : Position) (input : Machine Tuple) (e : Machine Item) : Machine Item :=
  nested "return-clause" p ⟨fun c t _ => t.toContext c, fun _ _ a => a, fun _ => none⟩ input e

end PullQuery.Machine
