import PullQuery.Machine.Clause
import PullQuery.Machine.Primary
import PullQuery.Machine.Structure
import PullQuery.Proofs.Usage.Leaf
import PullQuery.Proofs.Usage.Machine

namespace PullQuery

variable {α : Type} {c : Context} {p : Position} {us : Usages}

namespace Scan

def BothResting {l r : Machine Item} (s : Scan l.toOperator × Scan r.toOperator) (us : Usages) :
    Prop :=
  Beside Resting Resting s us

theorem quiet_bothResting {l r : Machine Item} {s : Scan l.toOperator × Scan r.toOperator}
    (h : BothResting s us) : Quiet us := by
  obtain ⟨us, vs, rfl, hl, hr⟩ := h
  exact quiet_append.2 ⟨hl.2, hr.2⟩

theorem bothResting_unused {l r : Machine Item} {ls rs : List Source} (hl : l.Clean ls)
    (hr : r.Clean rs) : BothResting (fresh l.toOperator, fresh r.toOperator) (unused (ls ++ rs)) :=
  ⟨_, _, unused_append ls rs, hl.resting, hr.resting⟩

theorem operand_leaves {m : Machine Item} {s : Scan m.toOperator} (h : s.Resting us)
    (cause : Error.Cause) (c : Context) : (s.operand cause c).Leaves us Resting :=
  .mapValue (atMostOne_leaves h.1 c)

theorem operands_leaves {l r : Machine Item} {s : Scan l.toOperator × Scan r.toOperator}
    (h : BothResting s us) (expression : String) (c : Context) :
    (operands expression c s).Leaves us BothResting := by
  obtain ⟨us, vs, rfl, hl, hr⟩ := h
  exact (operand_leaves hl _ c).thenOk_fst hr fun _ _ hl =>
    .mapValue ((operand_leaves hr _ c).snd hl)

end Scan

namespace Machine

open Scan

theorem truthOf_leaves {m : Machine Item} {s : Scan m.toOperator} (h : s.Resting us)
    (c : Context) : (truthOf c s).Leaves us Resting :=
  .mapValue (Scan.materialize_leaves h.1 c)

theorem emit_context_clean {name : String} (r : Context → Except Error (List α)) :
    (emit name p () fun c _ => .done (r c) ()).Clean [] :=
  emit_clean (W := fun _ us => us = []) (fun h => h ▸ quiet_nil) (fun h _ => .done h) rfl

theorem literal_clean (items : Items) : (literal p items).Clean [] :=
  emit_context_clean fun _ => .ok items

theorem variableReference_clean (name : String) : (variableReference p name).Clean [] :=
  emit_context_clean _

theorem focusItem_clean : (focusItem p).Clean [] := emit_context_clean _

theorem groupingVariable_clean (name : String) : (groupingVariable p name).Clean [] :=
  emit_context_clean _

theorem seed_clean : (seed p).Clean [] := emit_context_clean fun _ => .ok [Tuple.empty]

section

variable {l r e : Machine Item} {ls rs es : List Source}

theorem range_clean (hl : l.Clean ls) (hr : r.Clean rs) : (range p l r).Clean (ls ++ rs) := by
  refine countUp_clean (W := BothResting) quiet_bothResting (fun h c => ?_) (bothResting_unused hl hr)
  obtain ⟨us, vs, rfl, hl, hr⟩ := h
  refine (operand_leaves hl _ c).thenOk_fst hr fun a us hl => ?_
  split
  · exact .done ⟨us, vs, rfl, hl, hr⟩
  · exact .mapValue ((operand_leaves hr _ c).snd hl)

theorem binary_clean {name expression : String} {apply : Zone → Item → Item → Except Error Item}
    (hl : l.Clean ls) (hr : r.Clean rs) :
    (binary name expression p apply l r).Clean (ls ++ rs) := by
  refine defer_clean (W := BothResting) quiet_bothResting (fun h c => ?_) (fun h _ => .done h)
    (bothResting_unused hl hr)
  exact .mapValue (operands_leaves h expression c)

theorem generalComparison_clean (hl : l.Clean ls) (hr : r.Clean rs) (op : ComparisonOp) :
    (generalComparison p op l r).Clean (ls ++ rs) := by
  refine defer_clean (W := BothResting) quiet_bothResting (fun h c => ?_) (fun h _ => .done h)
    (bothResting_unused hl hr)
  obtain ⟨us, vs, rfl, hl, hr⟩ := h
  exact (Scan.materialize_leaves hl.1 c).thenOk_fst hr fun _ _ hl =>
    .mapValue ((Scan.materialize_leaves hr.1 c).snd hl)

theorem logical_clean (hl : l.Clean ls) (hr : r.Clean rs) (connective : Connective) :
    (logical p connective l r).Clean (ls ++ rs) := by
  refine defer_clean (W := BothResting) quiet_bothResting (fun h _ => .done h) (fun h c => ?_)
    (bothResting_unused hl hr)
  obtain ⟨us, vs, rfl, hl, hr⟩ := h
  refine (truthOf_leaves hl c).thenOk_fst hr fun b us hl => ?_
  split
  · exact .done ⟨us, vs, rfl, hl, hr⟩
  · exact .mapValue ((truthOf_leaves hr c).snd hl)

theorem unary_clean (h : e.Clean es) (op : UnaryOp) : (unary p op e).Clean es :=
  defer_clean And.right (fun h c => operand_leaves h _ c) (fun h _ => .done h) h.resting

theorem duration_clean (h : e.Clean es) (kind : Duration.Kind) : (duration p kind e).Clean es :=
  defer_clean And.right (fun h c => operand_leaves h _ c) (fun h _ => .done h) h.resting

theorem not_clean (h : e.Clean es) : (not p e).Clean es :=
  defer_clean And.right (fun h _ => .done h) (fun h c => .mapValue (truthOf_leaves h c)) h.resting

theorem conditional_clean {condition yes no : Machine Item} {cs ys ns : List Source}
    (hc : condition.Clean cs) (hy : yes.Clean ys) (hn : no.Clean ns) :
    (conditional p condition yes no).Clean (cs ++ (ys ++ ns)) :=
  choice_clean And.right truthOf_leaves hc.resting hy hn

end

section

variable {ms : List (Machine Item)} {sources : List Source}

theorem call_clean (h : Scans.Clean ms sources) (f : Function) : (call p f ms).Clean sources :=
  emit_clean And.right (fun h _ => .mapValue (Scans.materialize_leaves h)) h.resting

theorem object_clean (h : Scans.Clean ms sources) : (object p ms).Clean sources :=
  defer_clean And.right (fun h _ => .done h) (fun h _ => .mapValue (Scans.fold_leaves _ _ h))
    h.resting

theorem array_clean (h : Scans.Clean ms sources) : (array p ms).Clean sources :=
  defer_clean And.right (fun h _ => .done h) (fun h _ => .mapValue (Scans.materialize_leaves h))
    h.resting

end

section

variable {input result key : Machine Item} {is rs ks : List Source}

theorem navigate_clean {ρ : Type} {name : String} {resolve : Items → Except Error ρ}
    {select : ρ → Item → Items} (hi : input.Clean is) (hk : key.Clean ks) :
    (navigate name p key resolve select input).Clean (is ++ ks) :=
  each_clean And.right (fun h c => .mapValue (Scan.materialize_leaves h.1 c))
    (fun h _ _ => .done h) hi hk.resting

theorem unbox_clean (hi : input.Clean is) : (unbox p input).Clean is :=
  each_storeless_clean (fun _ _ => rfl) (fun _ _ _ => rfl) hi

theorem map_clean (hi : input.Clean is) (hr : result.Clean rs) :
    (map p input result).Clean (is ++ rs) := nested_clean hi hr

end

section

variable {input : Machine Tuple} {e : Machine Item} {keys : List (Machine Item)}
  {is es ks : List Source}

theorem forEach_clean (hi : input.Clean is) (he : e.Clean es) (name : String)
    (place : Option String) (allowingEmpty : Bool) :
    (forEach p name place allowingEmpty input e).Clean (is ++ es) := nested_clean hi he

theorem letBind_clean (hi : input.Clean is) (he : e.Clean es) (name : String) :
    (letBind p name input e).Clean (is ++ es) :=
  each_clean And.right (fun h _ => .done h)
    (fun h _ _ => .mapValue (Scan.materialize_leaves h.1 _)) hi he.resting

theorem filter_clean (hi : input.Clean is) (he : e.Clean es) :
    (filter p input e).Clean (is ++ es) :=
  each_clean And.right (fun h _ => .done h)
    (fun h _ _ => .mapValue (Scan.materialize_leaves h.1 _)) hi he.resting

theorem count_clean (hi : input.Clean is) (name : String) : (count p name input).Clean is :=
  each_storeless_clean (fun _ _ => rfl) (fun _ _ _ => rfl) hi

theorem keyed_leaves (clause : String) {s : Scans keys} (h : Scans.Resting keys s us)
    (c : Context) (t : Tuple) : (keyed clause keys c t s).Leaves us (Scans.Resting keys) :=
  .mapValue (Scans.fold_leaves _ _ h)

theorem group_clean (hi : input.Clean is) (hk : Scans.Clean keys ks) (names : List String) :
    (group p names keys input).Clean (is ++ ks) :=
  gather_clean And.right (fun h c t => keyed_leaves "group by" h c t) hi hk.resting

theorem order_clean (hi : input.Clean is) (hk : Scans.Clean keys ks) (orders : List SortOrder) :
    (order p orders keys input).Clean (is ++ ks) :=
  gather_clean And.right (fun h c t => keyed_leaves "order by" h c t) hi hk.resting

theorem returning_clean (hi : input.Clean is) (he : e.Clean es) :
    (returning p input e).Clean (is ++ es) := nested_clean hi he

end

end Machine

end PullQuery
