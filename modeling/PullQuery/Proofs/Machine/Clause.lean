import PullQuery.Expr.Output
import PullQuery.Proofs.Scan.Children
import PullQuery.Proofs.Scan.Each
import PullQuery.Proofs.Scan.Gather
import PullQuery.Proofs.Scan.Leaf
import PullQuery.Proofs.Scan.Nested

namespace PullQuery.Machine

variable {c : Context} {p : Position} {input : Machine Tuple} {oi : Output Tuple}
  {e : Machine Item} {oe : Context → Output Item}

theorem seed_gives : (seed p).GivesAt c (.ofList [Tuple.empty]) := by
  rw [seed]
  exact emit_gives (r := .ok [Tuple.empty]) fun _ => rfl

theorem forEach_gives (hi : input.GivesAt c oi) (he : ∀ c, e.GivesAt c (oe c)) (name : String)
    (place : Option String) (allowingEmpty : Bool) :
    (forEach p name place allowingEmpty input e).GivesAt c
      ((oi.nest ⟨fun c t _ => t.toContext c, fun t i a => extendTuple name place t [a] i,
        fun t => if allowingEmpty then some (extendTuple name place t [] 0) else none⟩
        c oe).locate p) :=
  nested_gives hi he

theorem letBind_gives (hi : input.GivesAt c oi) (he : ∀ c, e.GivesAt c (oe c)) (name : String) :
    (letBind p name input e).GivesAt c ((oi.flatMap fun t => Output.ofExcept do
      .ok [t.bind name (← (oe (t.toContext c)).collect)]).locate p) := by
  refine each_gives (r := .ok c) (g := fun c => oi.flatMap fun t => Output.ofExcept do
    .ok [t.bind name (← (oe (t.toContext c)).collect)]) hi (fun _ => rfl) fun c _ k => ?_
  refine Each.expansions_eq_flatMap (fun t s => ?_) oi _
  rw [Step.mapValue_value, (he _).materialize]
  rfl

theorem filter_gives (hi : input.GivesAt c oi) (he : ∀ c, e.GivesAt c (oe c)) :
    (filter p input e).GivesAt c ((oi.flatMap fun t => Output.ofExcept do
      if ← (oe (t.toContext c)).truth then .ok [t] else .ok []).locate p) := by
  refine each_gives (r := .ok c) (g := fun c => oi.flatMap fun t => Output.ofExcept do
    if ← (oe (t.toContext c)).truth then .ok [t] else .ok []) hi (fun _ => rfl) fun c _ k => ?_
  refine Each.expansions_eq_flatMap (fun t s => ?_) oi _
  rw [Step.mapValue_value, (he _).materialize, ← Output.truth]
  rcases (oe (t.toContext c)).truth with e | (_ | _) <;> rfl

theorem expansions_count (name : String) (failure : Option Error) (ts : List Tuple) (n : Nat) :
    Each.expansions (fun (t : Tuple) n => .done (.ok [t.bind name [.ofNat (n + 1)]]) (n + 1))
      failure ts n =
      ⟨(ts.zipIdx (n + 1)).map fun (t, i) => t.bind name [.ofNat i], failure⟩ := by
  induction ts generalizing n with
  | nil => rfl
  | cons t ts ih =>
    rw [Each.expansions, Step.done_state, ih]
    rfl

theorem count_gives (hi : input.GivesAt c oi) (name : String) : (count p name input).GivesAt c
    ((oi.numbered.map fun (t, n) => t.bind name [.ofNat n]).locate p) := by
  rw [count]
  refine each_gives (r := .ok ()) (g := fun _ => oi.numbered.map fun (t, n) =>
    t.bind name [.ofNat n]) hi (fun _ => ?_) fun _ _ _ => ?_
  · rfl
  · exact expansions_count name oi.failure oi.values 0

theorem groupingVariable_gives (name : String) : (groupingVariable p name).GivesAt c
    (match Fields.find? name c.frame.bindings with
      | some items => Output.ofList items
      | none => .fail ((Error.of (.unboundGroupingVariable name)).locate p)) := by
  have ho : (match Fields.find? name c.frame.bindings with
      | some items => Output.ofList items
      | none => .fail ((Error.of (.unboundGroupingVariable name)).locate p)) =
      (Output.ofExcept (match Fields.find? name c.frame.bindings with
        | some items => .ok items
        | none => .error (.of (.unboundGroupingVariable name)))).locate p := by
    cases Fields.find? name c.frame.bindings <;> rfl
  rw [ho]
  exact emit_gives fun _ => rfl

section

variable {keys : List (Machine Item)} {ks : Context → List (Output Item)}

theorem keyed_value (hk : ∀ c, Scans.GivesAt c keys (ks c)) (clause : String) (t : Tuple)
    (s : Scans keys) : (keyed clause keys c t s).value =
      (do .ok (← Output.keys clause (ks (t.toContext c)), t)) := by
  have hf : (ks (t.toContext c)).foldlM (fun as o => o.collect.bind fun items =>
      (Items.atomicKey clause items).map fun k => as ++ [k]) [] =
      Output.keys clause (ks (t.toContext c)) := by
    refine Eq.trans ?_ ((foldlM_concat (fun o : Output Item =>
      o.collect.bind (Items.atomicKey clause)) (ks (t.toContext c)) []).trans ?_)
    · congr
      funext as o
      cases o.collect <;> rfl
    · rw [← Output.keys]
      cases Output.keys clause (ks (t.toContext c)) <;> rfl
  rw [keyed, Step.mapValue_value, Scans.fold_value (hk _), hf]
  cases Output.keys clause (ks (t.toContext c)) <;> rfl

theorem group_gives (hi : input.GivesAt c oi) (hk : ∀ c, Scans.GivesAt c keys (ks c))
    (names : List String) : (group p names keys input).GivesAt c ((Output.ofExcept do
      let rows ← oi.rows fun t => do .ok (← Output.keys "group by" (ks (t.toContext c)), t)
      Group.ofRows c.implicitTimezone names rows).locate p) :=
  gather_gives hi (keyed_value hk "group by")

theorem order_gives (hi : input.GivesAt c oi) (hk : ∀ c, Scans.GivesAt c keys (ks c))
    (orders : List SortOrder) : (order p orders keys input).GivesAt c ((Output.ofExcept do
      let rows ← oi.rows fun t => do .ok (← Output.keys "order by" (ks (t.toContext c)), t)
      Sort.tuples c.implicitTimezone orders rows).locate p) :=
  gather_gives hi (keyed_value hk "order by")

end

theorem returning_gives (hi : input.GivesAt c oi) (he : ∀ c, e.GivesAt c (oe c)) :
    (returning p input e).GivesAt c ((oi.nest ⟨fun c t _ => t.toContext c, fun _ _ a => a,
      fun _ => none⟩ c oe).locate p) :=
  nested_gives hi he

end PullQuery.Machine
