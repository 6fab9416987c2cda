import PullQuery.Proofs.Expr.Node

/-!
How evaluation goes wrong. Beside the output of an expression stands a verdict, which evaluates the
parts in the same order and tells the errors that the expression raises itself from those that it
hears from a part. What is heard goes out as it is, unless an operand has more than one item.
-/

namespace PullQuery

variable {α β ω : Type}

inductive Fault
  | raised (e : Error)
  | heard (e : Error)
  | replaced (e : Error) (cause : Error.Cause)

namespace Fault

def error (p : Position) : Fault → Error
  | .raised e | .heard e => e.locate p
  | .replaced _ cause => (Error.of cause).locate p

def settle (p : Position) (r : Except Fault α) : Except Error α := r.mapError (·.error p)

def raise (r : Except Error α) : Except Fault α := r.mapError .raised

def hear (r : Except Error α) : Except Fault α := r.mapError .heard

def operand (c : Context) (e : Expr) (cause : Error.Cause) : Except Fault (Option Item) :=
  (e.evaluateAtMostOne c).mapError fun err =>
    if err.kind = .cardinality then .replaced err cause else .heard err

def truth (c : Context) (e : Expr) : Except Fault Bool := do
  let items ← hear (e.evaluate c)
  raise items.truth

def part (c : Context) (e : Expr) : Except Fault Unit := hear ((e.evaluate c).map fun _ => ())

def visits (o : Output α) (f : α → Except Fault Unit) : Except Fault Unit := do
  o.values.forM f
  hear (o.collect.map fun _ => ())

def gathers (o : Output α) (row : α → Except Fault β) : Except Fault (List β) := do
  let rows ← o.values.mapM row
  hear (o.collect.map fun _ => rows)

end Fault

open Fault

namespace Expr

def raisedBySource (s : Source) : Except Error Unit :=
  match s.refusal with
  | some e => .error e
  | none => (Output.ofEntries s.entries).collect.map fun _ => ()

def onPair (c : Context) (expression : String) (l r : Expr)
    (apply : Item → Item → Except Error Item) : Except Fault Unit := do
  let a ← operand c l (.severalOperandItems expression "left")
  let b ← operand c r (.severalOperandItems expression "right")
  match a, b with
  | some a, some b => raise ((apply a b).map fun _ => ())
  | _, _ => .ok ()

def onSingle (c : Context) (cause : Error.Cause) (e : Expr) (apply : Item → Except Error Item) :
    Except Fault Unit := do
  match ← operand c e cause with
  | some a => raise ((apply a).map fun _ => ())
  | none => .ok ()

def onStep {ρ : Type} (c : Context) (resolve : Items → Except Error ρ) (key input : Expr) :
    Except Fault Unit := do
  let _ ← raise (resolve (← hear (key.evaluate c)))
  part c input

def onFields (c : Context) : List Expr → Machine.Building → Except Fault Unit
  | [], _ => .ok ()
  | e :: es, b => do
    let b ← raise (b.take (← hear (e.evaluate c)))
    onFields c es b

def onAll (c : Context) : List Expr → Except Fault (List Items)
  | [] => .ok []
  | e :: es => do
    let items ← hear (e.evaluate c)
    let rest ← onAll c es
    .ok (items :: rest)

def tuples (clauses : List Clause) (c : Context) : Output Tuple :=
  pipelineOutput clauses (.ofList [Tuple.empty]) c

/-- Evaluates the parts of an expression, in order and as far as they are needed. -/
def verdict (c : Context) : Expr → Except Fault Unit
  | .literal .. => .ok ()
  | .source _ s => raise (raisedBySource s)
  | .comma _ es => (onAll c es).map fun _ => ()
  | .range _ l r => do
    let _ ← raise (Machine.rangeBound (← operand c l (.severalOperandItems "Range" "left")))
    let _ ← raise (Machine.rangeBound (← operand c r (.severalOperandItems "Range" "right")))
    .ok ()
  | .variable _ name =>
    match c.value? name with
    | some _ => .ok ()
    | none => raise (.error (.of (.unboundVariable name)))
  | .focus _ =>
    match c.focus? with
    | some _ => .ok ()
    | none => raise (.error (.of .noFocus))
  | .additive _ op l r => onPair c "Addition" l r fun a b =>
    Machine.ruled op.symbol a b (op.evaluate c.implicitTimezone a b)
  | .multiplicative _ op l r => onPair c "Multiplicative" l r fun a b =>
    Machine.ruled op.symbol a b (op.apply a b)
  | .unary _ op e => onSingle c (.severalOperandItems "Unary" "") e op.apply
  | .comparison _ op l r => onPair c "Comparison" l r fun a b =>
    (op.evaluate c.implicitTimezone a b).map .boolean
  | .generalComparison _ op l r => do
    let ls ← hear (l.evaluate c)
    let rs ← hear (r.evaluate c)
    raise ((op.evaluateGeneral c.implicitTimezone ls rs).map fun _ => ())
  | .logical _ connective l r => do
    let b ← truth c l
    match Machine.decided connective b with
    | some _ => .ok ()
    | none => (truth c r).map fun _ => ()
  | .not _ e => (truth c e).map fun _ => ()
  | .conditional _ condition yes no => do
    let b ← truth c condition
    part c (if b then yes else no)
  | .object _ fields => onFields c (fieldParts fields) ⟨[], none⟩
  | .array _ content => (onAll c content.toList).map fun _ => ()
  | .field _ input key => onStep c Machine.lookupKey key input
  | .member _ input position => onStep c Machine.lookupPosition position input
  | .unbox _ input => part c input
  | .project _ input keys => onStep c Machine.projection keys input
  | .map _ input result => visits (input.output c).numbered fun (a, place) =>
    part (c.child.withFocus a place) result
  | .duration _ kind e => onSingle c (.severalConstructorItems kind.name) e kind.construct
  | .call p f arguments => do
    let as ← onAll c arguments
    raise ((f.apply (c.callSite p) as).map fun _ => ())
  | .flwor _ clauses result => visits (tuples clauses c) fun t =>
    part (t.toContext c) result

end Expr

namespace Clause

def groupKey (c : Context) : GroupKey → Except Fault (Option Item)
  | .existing name => raise <|
    match Fields.find? name c.frame.bindings with
    | some items => items.atomicKey "group by"
    | none => .error (.of (.unboundGroupingVariable name))
  | .computed _ e => do raise ((← hear (e.evaluate c)).atomicKey "group by")

def sortKey (c : Context) : SortKey → Except Fault (Option Item)
  | .mk e _ => do raise ((← hear (e.evaluate c)).atomicKey "order by")

/-- Pulls the tuples before a clause, and evaluates its parts in the frame of each. -/
def verdict (o : Output Tuple) (c : Context) : Clause → Except Fault Unit
  | .each _ _ _ _ e | .bind _ _ e => visits o fun t => part (t.toContext c) e
  | .filter _ e => visits o fun t => (truth (t.toContext c) e).map fun _ => ()
  | .group _ keys => do
    let rows ← gathers o fun t => (keys.mapM (groupKey (t.toContext c))).map (·, t)
    raise ((Group.ofRows c.implicitTimezone (keys.map GroupKey.name) rows).map fun _ => ())
  | .order _ keys => do
    let rows ← gathers o fun t => (keys.mapM (sortKey (t.toContext c))).map (·, t)
    raise ((Sort.tuples c.implicitTimezone (keys.map SortKey.order) rows).map fun _ => ())
  | .count .. => hear (o.collect.map fun _ => ())

end Clause

theorem map_bind_ok {ε : Type} (r : Except ε α) (f : α → β) :
    ((r.bind fun a => .ok (f a)).map fun _ => ()) = r.map fun _ => () := by
  cases r <;> rfl

theorem map_bind {γ ε : Type} (r : Except ε α) (f : α → Except ε β) (g : β → γ) :
    (r.bind f).map g = r.bind fun a => (f a).map g := by
  cases r <;> rfl

theorem mapError_bind {ε ε' : Type} (g : ε → ε') (r : Except ε α) (f : α → Except ε β) :
    (r.bind f).mapError g = (r.mapError g).bind fun a => (f a).mapError g := by
  cases r <;> rfl

theorem mapError_forM {ε ε' : Type} (g : ε → ε') (as : List α) (f : α → Except ε Unit) :
    (as.forM f).mapError g = as.forM fun a => (f a).mapError g := by
  induction as with
  | nil => rfl
  | cons a as ih =>
    change ((f a).bind fun _ => as.forM f).mapError g = ((f a).mapError g).bind fun _ => _
    rw [mapError_bind, ih]

namespace Output

def ended (o : Output α) : Except Error Unit := o.collect.map fun _ => ()

theorem ended_eq_error {o : Output α} {e : Error} : o.ended = .error e ↔ o.failure = some e := by
  rw [← collect_eq_error, ended]
  cases o.collect <;> simp [Except.map]

theorem ended_locate (p : Position) (o : Output α) :
    (o.locate p).ended = o.ended.mapError (·.locate p) := by
  obtain ⟨vs, _ | e⟩ := o <;> rfl

theorem ended_ofExcept (r : Except Error (List α)) : (ofExcept r).ended = r.map fun _ => () := by
  cases r <;> rfl

theorem ended_append (a b : Output α) : (a.append b).ended = a.ended.bind fun _ => b.ended := by
  obtain ⟨vs, _ | e⟩ := a
  · obtain ⟨ws, _ | e⟩ := b <;> rfl
  · rfl

theorem ended_concat (os : List (Output α)) :
    (concat os).ended = (os.mapM collect).map fun _ => () := by
  induction os with
  | nil => rfl
  | cons o os ih =>
    rw [concat, List.foldr_cons, ended_append, ← concat, ih, List.mapM_cons, ended]
    rcases o.collect with e | vs
    · rfl
    · change (os.mapM collect).map _ = ((os.mapM collect).bind _).map _
      cases os.mapM collect <;> rfl

theorem ended_flatMap (o : Output α) (f : α → Output ω) :
    (o.flatMap f).ended = (o.values.forM fun v => (f v).ended).bind fun _ => o.ended := by
  obtain ⟨vs, failure⟩ := o
  induction vs with
  | nil => cases failure <;> rfl
  | cons v vs ih =>
    rw [flatMap_cons, ended_append, ih]
    change _ = ((f v).ended.bind fun _ => vs.forM fun v => (f v).ended).bind _
    rcases (f v).ended with e | _
    · rfl
    · cases failure <;> rfl

theorem ended_flatMap_ofList (o : Output α) (f : α → List ω) :
    (o.flatMap fun v => ofList (f v)).ended = o.ended := by
  rw [ended_flatMap]
  have hv (vs : List α) : (vs.forM fun v => (ofList (f v)).ended) = .ok () := by
    induction vs with
    | nil => rfl
    | cons v vs ih => exact ih
  rw [hv]
  rfl

theorem ended_map (f : α → ω) (o : Output α) : (o.map f).ended = o.ended := by
  obtain ⟨vs, _ | e⟩ := o <;> rfl

theorem ended_numbered (o : Output α) : o.numbered.ended = o.ended := by
  obtain ⟨vs, _ | e⟩ := o <;> rfl

theorem forM_numbered (o : Output α) (f : α → Except Error Unit) :
    (o.numbered.values.forM fun x => f x.1) = o.values.forM f := by
  obtain ⟨vs, failure⟩ := o
  simp only [numbered]
  generalize 1 = n
  induction vs generalizing n with
  | nil => rfl
  | cons v vs ih => exact congrArg (fun r => (f v).bind fun _ => r) (ih (n + 1))

theorem ended_nest (n : Machine.Nesting α ω β) (c : Context) (inner : Context → Output ω)
    (o : Output α) : (o.nest n c inner).ended =
      (o.numbered.values.forM fun x => (inner (n.frame c x.1 x.2)).ended).bind fun _ => o.ended := by
  rw [nest, ended_flatMap, ended_numbered]
  congr 2
  funext x
  obtain ⟨a, place⟩ := x
  dsimp only
  obtain ⟨_ | ⟨v, vs⟩, _ | e⟩ := inner (n.frame c a place) <;> rfl

end Output

namespace Fault

variable {p : Position} {c : Context} {e : Expr} {cause : Error.Cause}

theorem operand_cases (p : Position) (c : Context) (e : Expr) (cause : Error.Cause) :
    (∃ a, operand c e cause = .ok a ∧ (e.output c).operand cause = .ok a) ∨
      ∃ f err, operand c e cause = .error f ∧ (e.output c).operand cause = .error err ∧
        f.error p = err.locate p := by
  rw [operand, Expr.evaluateAtMostOne_eq, Output.operand]
  obtain ⟨_ | ⟨v, _ | ⟨w, vs⟩⟩, _ | err⟩ := e.output c
  · exact .inl ⟨none, rfl, rfl⟩
  · refine .inr ⟨_, _, rfl, rfl, ?_⟩
    dsimp only
    split <;> rfl
  · exact .inl ⟨some v, rfl, rfl⟩
  all_goals exact .inr ⟨.replaced _ cause, .of cause, rfl, congrArg Except.error (ite_self _), rfl⟩

theorem settle_raise (p : Position) (r : Except Error α) :
    settle p (raise r) = r.mapError (·.locate p) := by
  cases r <;> rfl

theorem settle_hear (p : Position) (r : Except Error α) :
    settle p (hear r) = r.mapError (·.locate p) := by
  cases r <;> rfl

theorem settle_map (p : Position) (r : Except Fault α) (f : α → β) :
    settle p (r.map f) = (settle p r).map f := by
  cases r <;> rfl

theorem settle_visits (p : Position) (o : Output α) (f : α → Except Fault Unit) :
    settle p (visits o f) =
      (o.values.forM fun v => settle p (f v)).bind fun _ => o.ended.mapError (·.locate p) := by
  change Except.mapError _ ((o.values.forM f).bind fun _ => hear o.ended) = _
  rw [mapError_bind, mapError_forM]
  exact congrArg _ (funext fun _ => settle_hear p o.ended)

theorem settle_onAll (p : Position) (c : Context) (es : List Expr) :
    settle p (Expr.onAll c es) =
      ((outputs es c).mapM Output.collect).mapError (·.locate p) := by
  induction es with
  | nil => rfl
  | cons e es ih =>
    rw [Expr.onAll, outputs, List.mapM_cons, Expr.evaluate_eq]
    rcases (e.output c).collect with err | items
    · rfl
    · change settle p ((Expr.onAll c es).bind _) =
        (((outputs es c).mapM Output.collect).bind _).mapError _
      rw [settle, mapError_bind, mapError_bind]
      exact congrArg (fun r => r.bind fun rest => .ok (items :: rest)) ih

theorem fieldOutputs_eq (fs : List (Expr × Expr)) (c : Context) :
    fieldOutputs fs c = outputs (Expr.fieldParts fs) c := by
  induction fs with
  | nil => rfl
  | cons f fs ih =>
    obtain ⟨k, v⟩ := f
    rw [fieldOutputs, ih]
    rfl

theorem settle_onFields (p : Position) (c : Context) (es : List Expr) (b : Machine.Building) :
    settle p (Expr.onFields c es b) =
      (((outputs es c).foldlM (fun b (o : Output Item) => o.collect.bind b.take) b).map
        fun _ => ()).mapError (·.locate p) := by
  induction es generalizing b with
  | nil => rfl
  | cons e es ih =>
    rw [Expr.onFields, outputs, List.foldlM_cons, Expr.evaluate_eq]
    rcases (e.output c).collect with err | items
    · rfl
    · change settle p ((raise (b.take items)).bind _) = (((b.take items).bind _).map _).mapError _
      rcases b.take items with err | b
      · rfl
      · exact ih b

theorem settle_onPair (p : Position) (c : Context) (expression : String) (l r : Expr)
    (apply : Item → Item → Except Error Item) :
    settle p (Expr.onPair c expression l r apply) =
      ((Output.binary expression apply (l.output c) (r.output c)).locate p).ended := by
  rw [Expr.onPair, Output.binary, Output.operands, Output.ended_locate, Output.ended_ofExcept]
  obtain ⟨a, ha, ha'⟩ | ⟨f, err, hf, he, h⟩ :=
    operand_cases p c l (.severalOperandItems expression "left")
  · obtain ⟨b, hb, hb'⟩ | ⟨f, err, hf, he, h⟩ :=
      operand_cases p c r (.severalOperandItems expression "right")
    · rw [ha, ha', hb, hb']
      cases a with
      | none => rfl
      | some a =>
        cases b with
        | none => rfl
        | some b =>
          change settle p (raise ((apply a b).map _)) = (((apply a b).bind _).map _).mapError _
          cases apply a b <;> rfl
    · rw [ha, ha', hf, he]
      exact congrArg Except.error h
  · rw [hf, he]
    exact congrArg Except.error h

theorem settle_onSingle (p : Position) (c : Context) (cause : Error.Cause) (e : Expr)
    (apply : Item → Except Error Item) : settle p (Expr.onSingle c cause e apply) =
      ((Output.unary cause apply (e.output c)).locate p).ended := by
  rw [Expr.onSingle, Output.unary, Output.ended_locate, Output.ended_ofExcept]
  obtain ⟨a, ha, ha'⟩ | ⟨f, err, hf, he, h⟩ := operand_cases p c e cause
  · rw [ha, ha']
    cases a with
    | none => rfl
    | some a =>
      change settle p (raise ((apply a).map _)) = (((apply a).bind _).map _).mapError _
      cases apply a <;> rfl
  · rw [hf, he]
    exact congrArg Except.error h

theorem settle_part (p : Position) (e : Expr) (c : Context) :
    settle p (part c e) = (e.output c).ended.mapError (·.locate p) := by
  rw [part, settle_hear, Expr.evaluate_eq]
  rfl

theorem settle_inner (p : Position) (e : Expr) (c : Context) (emit : Tuple → Nat → Item → β)
    (whenEmpty : Tuple → Option β) (o : Output Tuple) :
    settle p (visits o fun t => part (t.toContext c) e) =
      ((o.nest ⟨fun c t _ => t.toContext c, emit, whenEmpty⟩ c e.output).locate p).ended := by
  rw [settle_visits, Output.ended_locate, Output.ended_nest, mapError_bind, mapError_forM]
  have hn := Output.forM_numbered o fun t => (e.output (t.toContext c)).ended.mapError (·.locate p)
  refine Eq.trans ?_ (congrArg (fun r => Except.bind r _) hn.symm)
  congr 2
  funext t
  exact settle_part p e _

theorem settle_range (p : Position) (l r : Expr) (c : Context) :
    settle p ((Expr.range p l r).verdict c) =
      (((l.output c).range (r.output c)).locate p).ended := by
  rw [Expr.verdict, Output.range, Output.ended_locate, Output.ended_ofExcept]
  obtain ⟨a, ha, ha'⟩ | ⟨f, err, hf, he, h⟩ :=
    operand_cases p c l (.severalOperandItems "Range" "left")
  · rw [ha, ha']
    change settle p ((raise (Machine.rangeBound a)).bind _) =
      (((Machine.rangeBound a).bind _).map _).mapError _
    rcases Machine.rangeBound a with err | m
    · rfl
    · obtain ⟨b, hb, hb'⟩ | ⟨f, err, hf, he, h⟩ :=
        operand_cases p c r (.severalOperandItems "Range" "right")
      · rw [hb, hb']
        change settle p ((raise (Machine.rangeBound b)).bind _) =
          (((Machine.rangeBound b).bind _).map _).mapError _
        rcases Machine.rangeBound b with err | n
        · rfl
        · cases m with
          | none => rfl
          | some m => cases n <;> rfl
      · rw [hf, he]
        exact congrArg Except.error h
  · rw [hf, he]
    exact congrArg Except.error h

theorem settle_truth (p : Position) (c : Context) (e : Expr) :
    settle p (truth c e) = (e.output c).truth.mapError (·.locate p) := by
  rw [truth, Expr.evaluate_eq, Output.truth]
  rcases (e.output c).collect with err | items
  · rfl
  · exact settle_raise p (Items.truth items)

theorem settle_right (p : Position) (e : Expr) (c : Context) :
    settle p ((truth c e).map fun _ => ()) =
      (((e.output c).truth.bind fun b => .ok [Item.boolean b]).map fun _ => ()).mapError
        (·.locate p) := by
  rw [settle_map, settle_truth, map_bind_ok]
  cases (e.output c).truth <;> rfl

theorem settle_onStep {ρ : Type} (p : Position) (c : Context) (resolve : Items → Except Error ρ)
    (select : ρ → Item → Items) (key input : Expr) : settle p (Expr.onStep c resolve key input) =
      ((Output.navigate resolve select (key.output c) (input.output c)).locate p).ended := by
  rw [Expr.onStep, Output.navigate, Output.ended_locate, Expr.evaluate_eq]
  rcases (key.output c).collect with e | items
  · rfl
  · change settle p ((raise (resolve items)).bind fun _ => part c input) = _
    rcases hr : resolve items with e | k
    · simp only [Except.bind, hr]
      rfl
    · simp only [Except.bind, hr]
      rw [Output.ended_flatMap_ofList]
      exact settle_part p input c

theorem settle_mapM_cons {γ : Type} {f : α → Except Fault β} {g : γ → Except Error β} {a : α}
    {as : List α} {b : γ} {bs : List γ} (h : settle p (f a) = (g b).mapError (·.locate p))
    (hs : settle p (as.mapM f) = (bs.mapM g).mapError (·.locate p)) :
    settle p ((a :: as).mapM f) = ((b :: bs).mapM g).mapError (·.locate p) := by
  rw [List.mapM_cons, List.mapM_cons]
  change settle p ((f a).bind fun x => (as.mapM f).bind fun xs => .ok (x :: xs)) =
    ((g b).bind fun x => (bs.mapM g).bind fun xs => .ok (x :: xs)).mapError _
  rw [settle, mapError_bind, mapError_bind, ← settle, h]
  congr 1
  funext x
  rw [mapError_bind, mapError_bind, ← settle, hs]
  rfl

theorem settle_mapM {as : List α} {f : α → Except Fault β} {g : α → Except Error β}
    (h : ∀ a, settle p (f a) = (g a).mapError (·.locate p)) :
    settle p (as.mapM f) = (as.mapM g).mapError (·.locate p) := by
  induction as with
  | nil => rfl
  | cons a as ih => exact settle_mapM_cons (h a) ih

theorem settle_gathers (o : Output α) {row : α → Except Fault β} {row' : α → Except Error β}
    (h : ∀ v, settle p (row v) = (row' v).mapError (·.locate p)) :
    settle p (gathers o row) = (o.rows row').mapError (·.locate p) := by
  have hrows : settle p (o.values.mapM row) = (o.values.mapM row').mapError (·.locate p) :=
    settle_mapM h
  have hg : gathers o row = (o.values.mapM row).bind fun rows => hear (o.collect.map fun _ => rows) :=
    rfl
  have hr : o.rows row' = (o.values.mapM row').bind fun rows => o.collect.map fun _ => rows := by
    obtain ⟨vs, _ | e⟩ := o <;> rfl
  rw [hg, hr, settle, mapError_bind, mapError_bind, ← settle, hrows]
  congr 1
  funext rows
  exact settle_hear p _

theorem settle_key (p : Position) (clause : String) (e : Expr) (c : Context) :
    settle p ((hear (e.evaluate c)).bind fun items => raise (Items.atomicKey clause items)) =
      ((e.output c).collect.bind (Items.atomicKey clause)).mapError (·.locate p) := by
  rw [Expr.evaluate_eq]
  rcases (e.output c).collect with err | items
  · rfl
  · exact settle_raise p _

theorem settle_row {r : Except Fault α} {r' : Except Error α} (v : β)
    (h : settle p r = r'.mapError (·.locate p)) : settle p (r.map (·, v)) =
      (r'.bind fun a => .ok (a, v)).mapError (·.locate p) := by
  rw [settle_map, h]
  cases r' <;> rfl

theorem settle_groupKeys (p : Position) (c : Context) (ks : List GroupKey) :
    settle p (ks.mapM (Clause.groupKey c)) =
      (Output.keys "group by" (groupOutputs p ks c)).mapError (·.locate p) := by
  induction ks with
  | nil => rfl
  | cons k ks ih =>
    cases k with
    | existing name =>
      rw [groupOutputs]
      refine settle_mapM_cons ?_ ih
      rw [Clause.groupKey, settle_raise]
      cases Fields.find? name c.frame.bindings <;> rfl
    | computed name e =>
      rw [groupOutputs]
      exact settle_mapM_cons (settle_key p "group by" e c) ih

theorem settle_sortKeys (p : Position) (c : Context) (ks : List SortKey) :
    settle p (ks.mapM (Clause.sortKey c)) =
      (Output.keys "order by" (sortOutputs ks c)).mapError (·.locate p) := by
  induction ks with
  | nil => rfl
  | cons k ks ih =>
    obtain ⟨e, order⟩ := k
    rw [sortOutputs]
    exact settle_mapM_cons (settle_key p "order by" e c) ih

end Fault

open Output in
theorem Expr.ended_eq (x : Expr) (c : Context) :
    (x.output c).ended = settle x.position (x.verdict c) := by
  cases x with
  | literal p items => rw [output]; rfl
  | source p s =>
    rw [output, ended_locate]
    change _ = settle p (raise (raisedBySource s))
    rw [settle_raise, raisedBySource]
    cases s.refusal <;> rfl
  | comma p es =>
    rw [output, ended_locate, ended_concat]
    change _ = settle p ((onAll c es).map fun _ => ())
    rw [settle_map, settle_onAll]
    cases (outputs es c).mapM collect <;> rfl
  | range p l r =>
    rw [output]
    exact (settle_range p l r c).symm
  | «variable» p name =>
    rw [output, verdict]
    cases c.value? name <;> rfl
  | focus p =>
    rw [output, verdict]
    cases c.focus? <;> rfl
  | additive p op l r =>
    rw [output]
    exact (settle_onPair p c "Addition" l r _).symm
  | multiplicative p op l r =>
    rw [output]
    exact (settle_onPair p c "Multiplicative" l r _).symm
  | unary p op e =>
    rw [output]
    exact (settle_onSingle p c _ e _).symm
  | comparison p op l r =>
    rw [output]
    exact (settle_onPair p c "Comparison" l r _).symm
  | generalComparison p op l r =>
    rw [output, verdict, evaluate_eq, evaluate_eq, ended_locate, ended_ofExcept]
    rcases (l.output c).collect with e | ls
    · rfl
    · rcases (r.output c).collect with e | rs
      · rfl
      · change (((op.evaluateGeneral c.implicitTimezone ls rs).bind _).map _).mapError _ =
          settle p (raise ((op.evaluateGeneral c.implicitTimezone ls rs).map _))
        cases op.evaluateGeneral c.implicitTimezone ls rs <;> rfl
  | logical p connective l r =>
    rw [output, ended_locate, Output.logical, ended_ofExcept]
    change _ = settle p ((truth c l).bind _)
    rw [settle, mapError_bind, ← settle, settle_truth]
    rcases (l.output c).truth with e | b
    · rfl
    · cases connective with
      | and =>
        cases b with
        | true => exact (settle_right p r c).symm
        | false => rfl
      | or =>
        cases b with
        | true => rfl
        | false => exact (settle_right p r c).symm
  | not p e =>
    rw [output, ended_locate, ended_ofExcept]
    change _ = settle p ((truth c e).map fun _ => ())
    rw [settle_map, settle_truth]
    cases (e.output c).truth <;> rfl
  | conditional p condition yes no =>
    rw [output, ended_locate]
    change _ = settle p ((truth c condition).bind _)
    rw [settle, mapError_bind, ← settle, settle_truth]
    rcases (condition.output c).truth with e | b
    · rfl
    · cases b with
      | true => exact (settle_part p yes c).symm
      | false => exact (settle_part p no c).symm
  | object p fields =>
    rw [output, ended_locate, ended_ofExcept, fieldOutputs_eq]
    change _ = settle p (onFields c (fieldParts fields) ⟨[], none⟩)
    rw [settle_onFields]
    exact congrArg _ (map_bind_ok _ _)
  | array p content =>
    rw [output, ended_locate, ended_ofExcept]
    change _ = settle p ((onAll c content.toList).map fun _ => ())
    rw [settle_map, settle_onAll]
    cases content with
    | none => rfl
    | some e =>
      rw [contentOutput, Option.toList, outputs, outputs, List.mapM_cons]
      cases (e.output c).collect <;> rfl
  | field p input key =>
    rw [output]
    exact (settle_onStep p c _ _ key input).symm
  | member p input position =>
    rw [output]
    exact (settle_onStep p c _ _ position input).symm
  | unbox p input =>
    rw [output, ended_locate, ended_flatMap_ofList]
    exact (settle_part p input c).symm
  | project p input keys =>
    rw [output]
    exact (settle_onStep p c _ _ keys input).symm
  | map p input result =>
    rw [output, ended_locate, ended_nest, verdict, settle_visits, mapError_bind, mapError_forM,
      ended_numbered]
    congr 2
    funext x
    obtain ⟨a, place⟩ := x
    exact (settle_part p result _).symm
  | duration p kind e =>
    rw [output]
    exact (settle_onSingle p c _ e _).symm
  | call p f arguments =>
    rw [output, ended_locate, ended_ofExcept]
    change _ = settle p ((onAll c arguments).bind _)
    rw [settle, mapError_bind, ← settle, settle_onAll]
    rcases (outputs arguments c).mapM collect with e | as
    · rfl
    · exact (settle_raise p _).symm
  | flwor p clauses result =>
    rw [output]
    exact (settle_inner p result c _ _ (tuples clauses c)).symm

open Output in
theorem Clause.ended_eq (k : Clause) (o : Output Tuple) (c : Context) :
    (k.output o c).ended = settle k.position (k.verdict o c) := by
  cases k with
  | each p name place allowingEmpty e =>
    rw [output]
    exact (settle_inner p e c _ _ o).symm
  | bind p name e =>
    rw [output, ended_locate, ended_flatMap, mapError_bind, mapError_forM]
    change _ = settle p (visits o _)
    rw [settle_visits]
    congr 2
    funext t
    rw [ended_ofExcept]
    refine Eq.trans ?_ (settle_part p e _).symm
    rw [ended]
    cases (e.output (t.toContext c)).collect <;> rfl
  | filter p e =>
    rw [output, ended_locate, ended_flatMap, mapError_bind, mapError_forM]
    change _ = settle p (visits o _)
    rw [settle_visits]
    congr 2
    funext t
    rw [ended_ofExcept, settle_map, settle_truth]
    rcases (e.output (t.toContext c)).truth with err | b
    · rfl
    · cases b <;> rfl
  | group p keys =>
    rw [output, ended_locate, ended_ofExcept]
    change _ = settle p ((gathers o _).bind _)
    rw [settle, mapError_bind, ← settle,
      settle_gathers o fun t => settle_row t (settle_groupKeys p _ keys)]
    change Except.mapError _ (Except.map _ ((o.rows _).bind _)) = _
    rw [map_bind, mapError_bind]
    congr 1
    funext rows
    exact (settle_raise p _).symm
  | order p keys =>
    rw [output, ended_locate, ended_ofExcept]
    change _ = settle p ((gathers o _).bind _)
    rw [settle, mapError_bind, ← settle,
      settle_gathers o fun t => settle_row t (settle_sortKeys p _ keys)]
    change Except.mapError _ (Except.map _ ((o.rows _).bind _)) = _
    rw [map_bind, mapError_bind]
    congr 1
    funext rows
    exact (settle_raise p _).symm
  | count p name =>
    rw [output, ended_locate, ended_map, ended_numbered]
    exact (settle_hear p o.ended).symm

end PullQuery
