import PullQuery.Proofs.Machine.Clause
import PullQuery.Proofs.Machine.Primary
import PullQuery.Proofs.Machine.Structure
import PullQuery.Proofs.Machine.Unneeded

namespace PullQuery

variable {c : Context} {p : Position}

namespace Machine

theorem single_gives {e : Machine Item} {o : Output Item} (h : e.GivesAt c o) :
    (array p [e]).GivesAt c ((Output.ofExcept do .ok [.ofMembers (← o.collect)]).locate p) := by
  have hs : ([o].mapM Output.collect) = o.collect.map ([·]) := by
    cases ho : o.collect <;> simp [ho, Except.map, pure, Except.pure, bind, Except.bind]
  have ha := array_gives (p := p) (.cons h .nil)
  rw [hs] at ha
  cases ho : o.collect <;> simpa [ho, Except.map, bind, Except.bind] using ha

end Machine

open Machine

mutual

theorem Expr.gives : ∀ (e : Expr) (c : Context), e.machine.GivesAt c (e.output c)
  | .literal p items, _ => by
    rw [Expr.machine, Expr.output]
    exact literal_gives items
  | .source p s, _ => by
    rw [Expr.machine, Expr.output]
    exact store_gives s
  | .comma p operands, c => by
    rw [Expr.machine, Expr.output]
    exact comma_gives (machines_give operands c)
  | .range p l r, c => by
    rw [Expr.machine, Expr.output]
    exact range_gives (l.gives c) (r.gives c)
  | .variable p name, _ => by
    rw [Expr.machine, Expr.output]
    exact variableReference_gives name
  | .focus p, _ => by
    rw [Expr.machine, Expr.output]
    exact focusItem_gives
  | .additive p op l r, c => by
    rw [Expr.machine, Expr.output]
    exact binary_gives (l.gives c) (r.gives c)
  | .multiplicative p op l r, c => by
    rw [Expr.machine, Expr.output]
    exact binary_gives (l.gives c) (r.gives c)
  | .unary p op e, c => by
    rw [Expr.machine, Expr.output]
    exact unary_gives (e.gives c) op
  | .comparison p op l r, c => by
    rw [Expr.machine, Expr.output]
    exact binary_gives (l.gives c) (r.gives c)
  | .generalComparison p op l r, c => by
    rw [Expr.machine, Expr.output]
    exact generalComparison_gives (l.gives c) (r.gives c) op
  | .logical p connective l r, c => by
    rw [Expr.machine, Expr.output]
    exact logical_gives (l.gives c) (r.gives c) connective
  | .not p e, c => by
    rw [Expr.machine, Expr.output]
    exact not_gives (e.gives c)
  | .conditional p condition yes no, c => by
    rw [Expr.machine, Expr.output]
    exact conditional_gives (condition.gives c) (yes.gives c) (no.gives c)
  | .object p fields, c => by
    rw [Expr.machine, Expr.output]
    exact object_gives (fieldMachines_give fields c)
  | .array p none, c => by
    rw [Expr.machine, Expr.output]
    exact array_gives .nil
  | .array p (some e), c => by
    rw [Expr.machine, Expr.output]
    exact single_gives (e.gives c)
  | .field p input key, c => by
    rw [Expr.machine, Expr.output]
    exact navigate_gives (key.gives c) (input.gives c)
  | .member p input position, c => by
    rw [Expr.machine, Expr.output]
    exact navigate_gives (position.gives c) (input.gives c)
  | .unbox p input, c => by
    rw [Expr.machine, Expr.output]
    exact unbox_gives (input.gives c)
  | .project p input keys, c => by
    rw [Expr.machine, Expr.output]
    exact navigate_gives (keys.gives c) (input.gives c)
  | .map p input result, c => by
    rw [Expr.machine, Expr.output]
    exact map_gives (input.gives c) result.gives
  | .duration p kind e, c => by
    rw [Expr.machine, Expr.output]
    exact duration_gives (e.gives c) kind
  | .call p f arguments, c => by
    rw [Expr.machine, Expr.output]
    exact call_gives (machines_give arguments c) f
  | .flwor p clauses result, c => by
    rw [Expr.machine, Expr.output]
    exact returning_gives (pipeline_gives clauses c seed_gives) result.gives

theorem machines_give : ∀ (es : List Expr) (c : Context),
    Scans.GivesAt c (machines es) (outputs es c)
  | [], _ => .nil
  | e :: es, c => .cons (e.gives c) (machines_give es c)

theorem fieldMachines_give : ∀ (fs : List (Expr × Expr)) (c : Context),
    Scans.GivesAt c (fieldMachines fs) (fieldOutputs fs c)
  | [], _ => .nil
  | (k, v) :: fs, c => .cons (k.gives c) (.cons (v.gives c) (fieldMachines_give fs c))

theorem Clause.gives : ∀ (k : Clause) (c : Context) {input : Machine Tuple} {o : Output Tuple},
    input.GivesAt c o → (k.machine input).GivesAt c (k.output o c)
  | .each p name place allowingEmpty e, _, _, _, hi => by
    rw [Clause.machine, Clause.output]
    exact forEach_gives hi e.gives name place allowingEmpty
  | .bind p name e, _, _, _, hi => by
    rw [Clause.machine, Clause.output]
    exact letBind_gives hi e.gives name
  | .filter p e, _, _, _, hi => by
    rw [Clause.machine, Clause.output]
    exact filter_gives hi e.gives
  | .group p keys, _, _, _, hi => by
    rw [Clause.machine, Clause.output]
    exact group_gives hi (groupMachines_give p keys) _
  | .order p keys, _, _, _, hi => by
    rw [Clause.machine, Clause.output]
    exact order_gives hi (sortMachines_give keys) _
  | .count p name, _, _, _, hi => by
    rw [Clause.machine, Clause.output]
    exact count_gives hi name

theorem groupMachines_give (p : Position) : ∀ (ks : List GroupKey) (c : Context),
    Scans.GivesAt c (groupMachines p ks) (groupOutputs p ks c)
  | [], _ => .nil
  | .existing name :: ks, c => .cons (groupingVariable_gives name) (groupMachines_give p ks c)
  | .computed _ e :: ks, c => .cons (e.gives c) (groupMachines_give p ks c)

theorem sortMachines_give : ∀ (ks : List SortKey) (c : Context),
    Scans.GivesAt c (sortMachines ks) (sortOutputs ks c)
  | [], _ => .nil
  | .mk e _ :: ks, c => .cons (e.gives c) (sortMachines_give ks c)

theorem pipeline_gives : ∀ (ks : List Clause) (c : Context) {input : Machine Tuple}
    {o : Output Tuple}, input.GivesAt c o → (pipeline input ks).GivesAt c (pipelineOutput ks o c)
  | [], _, _, _, hi => by
    rw [pipeline, pipelineOutput]
    exact hi
  | k :: ks, c, _, _, hi => by
    rw [pipeline, pipelineOutput]
    exact pipeline_gives ks c (k.gives c hi)

end

namespace Output

variable {α β ω : Type}

def filterMap (f : α → Option ω) (o : Output α) : Output ω := ⟨o.values.filterMap f, o.failure⟩

theorem flatMap_toList (f : α → Option ω) (o : Output α) :
    (o.flatMap fun a => ofList (f a).toList) = o.filterMap f := by
  obtain ⟨vs, failure⟩ := o
  induction vs with
  | nil => rfl
  | cons v vs ih =>
    rw [flatMap_cons, ih, ofList_append]
    cases hv : f v <;> simp [filterMap, hv]

def given {ρ : Type} (r : Except Error ρ) (f : ρ → Output ω) : Output ω :=
  match r with
  | .error e => fail e
  | .ok a => f a

theorem navigate_toList {ρ : Type} (resolve : Items → Except Error ρ) (select : ρ → Item → Option Item)
    (key input : Output Item) : navigate resolve (fun k a => (select k a).toList) key input =
      given (key.collect.bind resolve) fun k => input.filterMap (select k) := by
  rw [navigate]
  rcases key.collect.bind resolve with e | k
  · rfl
  · exact flatMap_toList (select k) input

theorem flatMap_numbered (o : Output α) (f : α → Output ω) :
    (o.numbered.flatMap fun (a, _) => f a) = o.flatMap f := by
  obtain ⟨vs, failure⟩ := o
  simp only [numbered]
  generalize 1 = n
  induction vs generalizing n with
  | nil => rfl
  | cons v vs ih => rw [List.zipIdx_cons, flatMap_cons, flatMap_cons, ih]

theorem nest_eq_flatMap (frame : Context → α → Nat → Context) (c : Context)
    (inner : Context → Output ω) (o : Output α) :
    o.nest ⟨frame, fun _ _ v => v, fun _ => none⟩ c inner =
      o.numbered.flatMap fun (a, place) => inner (frame c a place) := by
  rw [nest]
  congr 1
  funext x
  obtain ⟨a, place⟩ := x
  dsimp only
  obtain ⟨_ | ⟨v, vs⟩, _ | e⟩ := inner (frame c a place)
  all_goals simp [numbered, map, ofList]

end Output

namespace Expr

theorem run_eq (e : Expr) (c : Context) : e.scan.run c = e.output c := (e.gives c).run e.scan

theorem evaluate_eq (e : Expr) (c : Context) : e.evaluate c = (e.output c).collect :=
  (e.gives c).materialize e.scan

theorem evaluateAtMostOne_eq (e : Expr) (c : Context) : e.evaluateAtMostOne c =
    (e.output c).atMostOne ((Error.of .severalItems).locate e.machine.position) :=
  (e.gives c).atMostOne e.scan

theorem outputs_eq_map (c : Context) (es : List Expr) : outputs es c = es.map (·.output c) := by
  induction es with
  | nil => rfl
  | cons e es ih => rw [outputs, ih, List.map_cons]

theorem collect_locate_ofExcept (p : Position) (r : Except Error Items) :
    ((Output.ofExcept r).locate p).collect = r.mapError (·.locate p) := by
  cases r <;> rfl

theorem run_comma (p : Position) (es : List Expr) (c : Context) :
    (comma p es).scan.run c = (Output.concat (es.map (·.scan.run c))).locate p := by
  simp only [run_eq]
  rw [output, outputs_eq_map]

theorem run_map (p : Position) (l r : Expr) (c : Context) : (map p l r).scan.run c =
    ((l.scan.run c).numbered.flatMap fun (a, place) =>
      r.scan.run (c.child.withFocus a place)).locate p := by
  simp only [run_eq]
  rw [output, Output.nest_eq_flatMap]

theorem run_conditional (p : Position) (condition yes no : Expr) (c : Context) :
    (conditional p condition yes no).scan.run c =
      (Output.given ((condition.evaluate c).bind Items.truth) fun b =>
        if b then yes.scan.run c else no.scan.run c).locate p := by
  simp only [run_eq, evaluate_eq]
  rw [output, ← Output.truth]
  cases (condition.output c).truth <;> rfl

theorem evaluate_logical (p : Position) (connective : Connective) (l r : Expr) (c : Context) :
    (logical p connective l r).evaluate c =
      (((l.evaluate c).bind Items.truth).bind fun b =>
        match Machine.decided connective b with
        | some b => .ok [.boolean b]
        | none => ((r.evaluate c).bind Items.truth).map fun b => [.boolean b]).mapError
          (·.locate p) := by
  simp only [evaluate_eq]
  rw [output, Output.logical, collect_locate_ofExcept]
  congr 1

theorem run_field (p : Position) (input key : Expr) (c : Context) :
    (field p input key).scan.run c =
      (Output.given ((key.evaluate c).bind Machine.lookupKey) fun name =>
        (input.scan.run c).filterMap fun a => a.field? name).locate p := by
  simp only [run_eq, evaluate_eq]
  rw [output, Output.navigate_toList]

theorem run_member (p : Position) (input position : Expr) (c : Context) :
    (member p input position).scan.run c =
      (Output.given ((position.evaluate c).bind Machine.lookupPosition) fun n =>
        (input.scan.run c).filterMap fun a => if n < 0 then none else a.member? n.toNat).locate p := by
  have hs : (fun (n : Int) (a : Item) => if n < 0 then [] else (a.member? n.toNat).toList) =
      fun (n : Int) (a : Item) => (if n < 0 then none else a.member? n.toNat).toList := by
    funext n a
    by_cases hn : n < 0 <;> simp [hn]
  simp only [run_eq, evaluate_eq]
  rw [output, hs, Output.navigate_toList]

theorem run_unbox (p : Position) (input : Expr) (c : Context) : (unbox p input).scan.run c =
    ((input.scan.run c).flatMap fun a => .ofList a.members.toList).locate p := by
  simp only [run_eq]
  rw [output]

theorem materialize_log {e : Expr} {m : Machine Item} (h : e.machine = m) (c : Context) :
    (e.scan.materialize c).log = ((Scan.fresh m.toOperator).materialize c).log := by
  subst h
  rfl

theorem truthOf_machine (e : Expr) (c : Context) (s : Scan e.machine.toOperator) :
    (Machine.truthOf c s).value = (e.evaluate c).bind Items.truth := by
  rw [truthOf_value (e.gives c), evaluate_eq]
  rfl

theorem conditional_log (p : Position) (condition yes no other : Expr) (c : Context) :
    let log := fun y n => ((conditional p condition y n).scan.materialize c).log
    match (condition.evaluate c).bind Items.truth with
    | .error _ => log yes no = log other other
    | .ok true => log yes no = log yes other
    | .ok false => log yes no = log other no := by
  intro log
  have hm : ∀ y n, log y n = ((Scan.fresh (Machine.conditional p condition.machine y.machine
      n.machine).toOperator).materialize c).log :=
    fun y n => materialize_log (by rw [machine]) c
  have ht := truthOf_machine condition c
  rcases hv : (condition.evaluate c).bind Items.truth with e | (_ | _)
  · change log yes no = log other other
    rw [hm, hm]
    exact Scan.fresh_materialize_log (choice_error_alike fun s => (ht s).trans hv) ⟨rfl, rfl, rfl⟩
  · change log yes no = log other no
    rw [hm, hm]
    exact Scan.fresh_materialize_log (choice_no_alike fun s => (ht s).trans hv)
      ⟨rfl, rfl, rfl, fun h => nomatch h⟩
  · change log yes no = log yes other
    rw [hm, hm]
    exact Scan.fresh_materialize_log (choice_yes_alike fun s => (ht s).trans hv)
      ⟨rfl, rfl, rfl, fun h => nomatch h⟩

theorem logical_log (p : Position) (connective : Connective) (l r other : Expr) (c : Context) :
    let log := fun r => ((logical p connective l r).scan.materialize c).log
    match ((l.evaluate c).bind Items.truth).map (decided connective) with
    | .ok none => True
    | _ => log r = log other := by
  intro log
  have hm : ∀ r, log r = ((Scan.fresh (Machine.logical p connective l.machine
      r.machine).toOperator).materialize c).log :=
    fun r => materialize_log (by rw [machine]) c
  have ht := truthOf_machine l c
  have ha (h : ∀ s : Scan l.machine.toOperator, (∃ e, (truthOf c s).value = .error e) ∨
      ∃ b, (truthOf c s).value = .ok b ∧ (decided connective b).isSome = true) :
      log r = log other := by
    rw [hm, hm]
    exact Scan.fresh_materialize_log (logical_alike h) ⟨rfl, rfl, .inl rfl⟩
  rcases hv : (l.evaluate c).bind Items.truth with e | b
  · exact ha fun s => .inl ⟨e, (ht s).trans hv⟩
  · cases hd : decided connective b with
    | none => simp [Except.map, hd]
    | some d =>
      have he : log r = log other := ha fun s => .inr ⟨b, (ht s).trans hv, by rw [hd]; rfl⟩
      simpa [Except.map, hd] using he

/-- Pulling from an expression is evaluating it on whole outputs, operator by operator; and the
sources that are touched do not depend on an operand that is not needed. -/
theorem evaluate_eq_whole_sequences :
    (∀ (e : Expr) (c : Context),
      e.scan.run c = e.output c ∧ e.evaluate c = (e.output c).collect) ∧
    (∀ (p : Position) (es : List Expr) (c : Context), (comma p es).scan.run c =
      (Output.concat (es.map (·.scan.run c))).locate p) ∧
    (∀ (p : Position) (l r : Expr) (c : Context), (map p l r).scan.run c =
      ((l.scan.run c).numbered.flatMap fun (a, place) =>
        r.scan.run (c.child.withFocus a place)).locate p) ∧
    (∀ (p : Position) (condition yes no : Expr) (c : Context),
      (conditional p condition yes no).scan.run c =
        (Output.given ((condition.evaluate c).bind Items.truth) fun b =>
          if b then yes.scan.run c else no.scan.run c).locate p) ∧
    (∀ (p : Position) (connective : Connective) (l r : Expr) (c : Context),
      (logical p connective l r).evaluate c =
        (((l.evaluate c).bind Items.truth).bind fun b =>
          match Machine.decided connective b with
          | some b => .ok [.boolean b]
          | none => ((r.evaluate c).bind Items.truth).map fun b => [.boolean b]).mapError
            (·.locate p)) ∧
    (∀ (p : Position) (input key : Expr) (c : Context), (field p input key).scan.run c =
      (Output.given ((key.evaluate c).bind Machine.lookupKey) fun name =>
        (input.scan.run c).filterMap fun a => a.field? name).locate p) ∧
    (∀ (p : Position) (input position : Expr) (c : Context),
      (member p input position).scan.run c =
        (Output.given ((position.evaluate c).bind Machine.lookupPosition) fun n =>
          (input.scan.run c).filterMap fun a =>
            if n < 0 then none else a.member? n.toNat).locate p) ∧
    (∀ (p : Position) (input : Expr) (c : Context), (unbox p input).scan.run c =
      ((input.scan.run c).flatMap fun a => .ofList a.members.toList).locate p) ∧
    (∀ (p : Position) (condition yes no other : Expr) (c : Context),
      let log := fun y n => ((conditional p condition y n).scan.materialize c).log
      match (condition.evaluate c).bind Items.truth with
      | .error _ => log yes no = log other other
      | .ok true => log yes no = log yes other
      | .ok false => log yes no = log other no) ∧
    ∀ (p : Position) (connective : Connective) (l r other : Expr) (c : Context),
      let log := fun r => ((logical p connective l r).scan.materialize c).log
      match ((l.evaluate c).bind Items.truth).map (Machine.decided connective) with
      | .ok none => True
      | _ => log r = log other :=
  ⟨fun e c => ⟨e.run_eq c, e.evaluate_eq c⟩, run_comma, run_map, run_conditional, evaluate_logical,
    run_field, run_member, run_unbox, conditional_log, logical_log⟩

end Expr

/-- A pipeline hands out the tuples of its clauses, each clause a map of the tuples before it; and
the whole expression its result for each tuple in the frame of the tuple, up to the first error. -/
theorem flwor_eq_nested_loops (p : Position) (clauses : List Clause) (result : Expr) (c : Context) :
    let tuples := pipelineOutput clauses (.ofList [Tuple.empty]) c
    let items := (tuples.flatMap fun t => result.output (t.toContext c)).locate p
    (Scan.fresh (Clause.pipelineMachine p clauses).toOperator).run c = tuples ∧
      (Expr.flwor p clauses result).scan.run c = items ∧
      (Expr.flwor p clauses result).evaluate c = items.collect := by
  have hi : (Expr.flwor p clauses result).output c =
      ((pipelineOutput clauses (.ofList [Tuple.empty]) c).flatMap fun t =>
        result.output (t.toContext c)).locate p := by
    rw [Expr.output, Output.nest_eq_flatMap]
    exact congrArg (Output.locate p)
      (Output.flatMap_numbered _ fun (t : Tuple) => result.output (t.toContext c))
  refine ⟨(pipeline_gives clauses c seed_gives).run _, ?_, ?_⟩
  · rw [Expr.run_eq, hi]
  · rw [Expr.evaluate_eq, hi]

end PullQuery
