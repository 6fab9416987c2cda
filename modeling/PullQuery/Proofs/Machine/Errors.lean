import PullQuery.Machine.Clause
import PullQuery.Machine.Structure
import PullQuery.Proofs.Builtin

namespace PullQuery

namespace Machine

theorem Building.take_raises (b : Building) (items : Items) :
    Raises [.type, .dynamic] (b.take items) := by
  have hk : Raises [.type, .dynamic] (key? items) := by
    unfold key?
    split
    · exact .ok _
    · exact .error List.mem_cons_self
    · exact .error List.mem_cons_self
  unfold take
  split
  · exact hk.map _
  · split
    · exact .error (List.mem_cons_of_mem _ List.mem_cons_self)
    · exact .ok _

theorem lookupKey_raises (items : Items) : Raises [.type] (lookupKey items) := by
  unfold lookupKey
  split
  · split
    · exact .ok _
    · exact .error List.mem_cons_self
  · exact .error List.mem_cons_self

theorem lookupPosition_raises (items : Items) : Raises [.type] (lookupPosition items) := by
  unfold lookupPosition
  split
  · split
    · exact .ok _
    · exact .error List.mem_cons_self
  · exact .error List.mem_cons_self

theorem projection_raises (items : Items) : Raises [.type] (projection items) := by
  fun_induction projection items with
  | case1 => exact .ok _
  | case2 s rest ih => exact ih.map _
  | case3 => exact .error List.mem_cons_self

end Machine

theorem Items.atomicKey_raises (clause : String) (items : Items) :
    Raises [.type] (items.atomicKey clause) := by
  unfold atomicKey
  split
  · exact .ok _
  · split
    · exact .ok _
    · exact .error List.mem_cons_self
  · exact .error List.mem_cons_self

theorem Comparison.order_raises (z : Zone) (l r : Item) : Raises [.type] (order z l r) := by
  unfold order
  split
  · exact .ok _
  · split
    · exact .ok _
    · exact .error List.mem_cons_self

theorem ComparisonOp.evaluatePairs_raises (op : ComparisonOp) (z : Zone)
    (pairs : List (Item × Item)) : Raises [.type, .dynamic] (op.evaluatePairs z pairs) := by
  induction pairs with
  | nil => exact .ok _
  | cons pair pairs ih =>
    refine Arithmetic.placing_raises ?_ (by decide) z _ _
    split
    · exact .ok _
    · exact ih
    · exact .error List.mem_cons_self

theorem ComparisonOp.evaluateGeneral_raises (op : ComparisonOp) (z : Zone) (ls rs : Items) :
    Raises [.type, .dynamic] (op.evaluateGeneral z ls rs) :=
  op.evaluatePairs_raises z _

theorem Raises.forM {α : Type} {ks : List Error.Kind} {as : List α} {f : α → Except Error Unit}
    (h : ∀ a, Raises ks (f a)) : Raises ks (as.forM f) := by
  induction as with
  | nil => exact .ok _
  | cons a as ih => exact (h a).bind fun _ => ih

theorem Sort.checkColumn_raises (z : Zone) (keys : List (Option Item)) :
    Raises [.type, .dynamic] (Sort.checkColumn z keys) := by
  unfold checkColumn
  split
  · exact .ok _
  · refine .forM fun k => Arithmetic.placing_raises ?_ (by decide) z _ k
    exact ((Comparison.order_raises z _ k).map _).mono (by decide)

theorem Sort.tuples_raises (z : Zone) (orders : List SortOrder) (rows : List Sort.Row) :
    Raises [.type, .dynamic] (Sort.tuples z orders rows) :=
  Raises.map (.forM fun i => checkColumn_raises z (column rows i)) _

namespace Group

variable {z : Zone} {k l : Option Item} {ks ls : List (Option Item)} {gs : List Group}

theorem sameKey_raises : Raises [.dynamic] (sameKey z k l) := by
  unfold sameKey
  split
  · exact .ok _
  · exact Arithmetic.placing_raises (.ok _) List.mem_cons_self z _ _
  · exact .ok _

theorem sameKeys_raises : Raises [.dynamic] (sameKeys z ks ls) := by
  fun_induction sameKeys z ks ls with
  | case1 k ks l ls ih =>
    refine sameKey_raises.bind fun same => ?_
    cases same with
    | true => exact ih
    | false => exact .ok _
  | case2 => exact .ok _

theorem place_raises {t : Tuple} : Raises [.dynamic] (place z ks t gs) := by
  fun_induction place z ks t gs with
  | case1 => exact .ok _
  | case2 g gs ih =>
    refine sameKeys_raises.bind fun same => ?_
    cases same with
    | true => exact .ok _
    | false => exact ih.bind fun gs => .ok _

theorem ofRows_raises (z : Zone) (names : List String) (rows : List (List (Option Item) × Tuple)) :
    Raises [.dynamic] (ofRows z names rows) := by
  have fold (gs : List Group) :
      Raises [.dynamic] (rows.foldlM (fun gs row => place z row.1 row.2 gs) gs) := by
    induction rows generalizing gs with
    | nil => exact .ok _
    | cons row rows ih => exact place_raises.bind fun gs => ih gs
  exact (fold []).map _

end Group

end PullQuery
