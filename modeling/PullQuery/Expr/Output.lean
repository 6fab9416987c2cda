import PullQuery.Evaluation
import PullQuery.Output

/-!
The output of an expression as a whole, by recursion on the expression: what each operator makes of
the outputs of its operands, and what each clause makes of the tuples before it. No scan is started
here.
-/

namespace PullQuery

namespace Output

/-- An operand may have one item; more than one, or an error that says so, is the given error. -/
def operand (several : Error.Cause) (o : Output Item) : Except Error (Option Item) :=
  (o.atMostOne (.of several)).mapError fun e => if e.kind = .cardinality then .of several else e

def operands (expression : String) (l r : Output Item) : Except Error (Option (Item × Item)) := do
  let a ← l.operand (.severalOperandItems expression "left")
  let b ← r.operand (.severalOperandItems expression "right")
  .ok (a.bind fun a => b.map fun b => (a, b))

def binary (expression : String) (apply : Item → Item → Except Error Item) (l r : Output Item) :
    Output Item :=
  ofExcept do
    match ← operands expression l r with
    | some (a, b) => .ok [← apply a b]
    | none => .ok []

def unary (several : Error.Cause) (apply : Item → Except Error Item) (o : Output Item) :
    Output Item :=
  ofExcept do
    match ← o.operand several with
    | some a => .ok [← apply a]
    | none => .ok []

def range (l r : Output Item) : Output Item :=
  ofExcept do
    let m ← Machine.rangeBound (← l.operand (.severalOperandItems "Range" "left"))
    let n ← Machine.rangeBound (← r.operand (.severalOperandItems "Range" "right"))
    match m, n with
    | some m, some n => .ok ((List.range (n + 1 - m).toNat).map fun (i : Nat) => Item.ofInt (m + i))
    | _, _ => .ok []

def truth (o : Output Item) : Except Error Bool := o.collect.bind Items.truth

def logical (connective : Connective) (l r : Output Item) : Output Item :=
  ofExcept do
    let b ← l.truth
    match Machine.decided connective b with
    | some b => .ok [.boolean b]
    | none => .ok [.boolean (← r.truth)]

/-- Each value makes the values of its inner output, or what stands for an inner output without
values. -/
def nest {α ω β : Type} (n : Machine.Nesting α ω β) (c : Context) (inner : Context → Output ω)
    (outer : Output α) : Output β :=
  outer.numbered.flatMap fun (a, place) =>
    let o := inner (n.frame c a place)
    match o.values, o.failure with
    | [], none => ofList (n.whenEmpty a).toList
    | _, _ => o.numbered.map fun (v, i) => n.emit a i v

def navigate {ρ : Type} (resolve : Items → Except Error ρ) (select : ρ → Item → Items)
    (key input : Output Item) : Output Item :=
  match key.collect.bind resolve with
  | .error e => fail e
  | .ok k => input.flatMap fun a => ofList (select k a)

def keys (clause : String) (os : List (Output Item)) : Except Error (List (Option Item)) :=
  os.mapM fun o => o.collect.bind (Items.atomicKey clause)

end Output

mutual

def Expr.output : Expr → Context → Output Item
  | .literal _ items, _ => .ofList items
  | .source p s, _ =>
    (match s.refusal with
      | some e => Output.fail e
      | none => .ofEntries s.entries).locate p
  | .comma p operands, c => (Output.concat (outputs operands c)).locate p
  | .range p l r, c => ((l.output c).range (r.output c)).locate p
  | .variable p name, c =>
    (match c.value? name with
      | some items => Output.ofList items
      | none => .fail (.of (.unboundVariable name))).locate p
  | .focus p, c =>
    (match c.focus? with
      | some focus => Output.ofList [focus.item]
      | none => .fail (.of .noFocus)).locate p
  | .additive p op l r, c =>
    (Output.binary "Addition" (fun a b => Machine.ruled op.symbol a b
      (op.evaluate c.implicitTimezone a b)) (l.output c) (r.output c)).locate p
  | .multiplicative p op l r, c =>
    (Output.binary "Multiplicative" (fun a b => Machine.ruled op.symbol a b (op.apply a b))
      (l.output c) (r.output c)).locate p
  | .unary p op e, c =>
    ((e.output c).unary (.severalOperandItems "Unary" "") op.apply).locate p
  | .comparison p op l r, c =>
    (Output.binary "Comparison" (fun a b => (op.evaluate c.implicitTimezone a b).map .boolean)
      (l.output c) (r.output c)).locate p
  | .generalComparison p op l r, c =>
    (Output.ofExcept do
      let ls ← (l.output c).collect
      let rs ← (r.output c).collect
      .ok [.boolean (← op.evaluateGeneral c.implicitTimezone ls rs)]).locate p
  | .logical p connective l r, c => ((l.output c).logical connective (r.output c)).locate p
  | .not p e, c => (Output.ofExcept do .ok [.boolean !(← (e.output c).truth)]).locate p
  | .conditional p condition yes no, c =>
    (match (condition.output c).truth with
      | .error e => Output.fail e
      | .ok b => if b then yes.output c else no.output c).locate p
  | .object p fields, c =>
    (Output.ofExcept do
      let b ← (fieldOutputs fields c).foldlM (fun b o => o.collect.bind b.take)
        (⟨[], none⟩ : Machine.Building)
      .ok [.object b.fields]).locate p
  | .array p content, c =>
    (Output.ofExcept do .ok [.ofMembers (← (contentOutput content c).collect)]).locate p
  | .field p input key, c =>
    (Output.navigate Machine.lookupKey (fun k a => (a.field? k).toList)
      (key.output c) (input.output c)).locate p
  | .member p input position, c =>
    (Output.navigate Machine.lookupPosition
      (fun n a => if n < 0 then [] else (a.member? n.toNat).toList)
      (position.output c) (input.output c)).locate p
  | .unbox p input, c => ((input.output c).flatMap fun a => .ofList a.members.toList).locate p
  | .project p input keys, c =>
    (Output.navigate Machine.projection (fun keep a => [keep.apply a])
      (keys.output c) (input.output c)).locate p
  | .map p input result, c =>
    ((input.output c).nest ⟨fun c a place => c.child.withFocus a place, fun _ _ b => b,
      fun _ => none⟩ c result.output).locate p
  | .duration p kind e, c =>
    ((e.output c).unary (.severalConstructorItems kind.name) kind.construct).locate p
  | .call p f arguments, c =>
    (Output.ofExcept do
      f.apply (c.callSite p) (← (outputs arguments c).mapM Output.collect)).locate p
  | .flwor p clauses result, c =>
    ((pipelineOutput clauses (.ofList [Tuple.empty]) c).nest
      ⟨fun c t _ => t.toContext c, fun _ _ a => a, fun _ => none⟩ c result.output).locate p

def outputs : List Expr → Context → List (Output Item)
  | [], _ => []
  | e :: es, c => e.output c :: outputs es c

def fieldOutputs : List (Expr × Expr) → Context → List (Output Item)
  | [], _ => []
  | (k, v) :: fs, c => k.output c :: v.output c :: fieldOutputs fs c

def contentOutput : Option Expr → Context → Output Item
  | none, _ => .ofList []
  | some e, c => e.output c

def Clause.output : Clause → Output Tuple → Context → Output Tuple
  | .each p name place allowingEmpty e, input, c =>
    (input.nest ⟨fun c t _ => t.toContext c, fun t i a => Machine.extendTuple name place t [a] i,
      fun t => if allowingEmpty then some (Machine.extendTuple name place t [] 0) else none⟩
      c e.output).locate p
  | .bind p name e, input, c =>
    (input.flatMap fun t =>
      Output.ofExcept do .ok [t.bind name (← (e.output (t.toContext c)).collect)]).locate p
  | .filter p e, input, c =>
    (input.flatMap fun t =>
      Output.ofExcept do
        if ← (e.output (t.toContext c)).truth then .ok [t] else .ok []).locate p
  | .group p keys, input, c =>
    (Output.ofExcept do
      let rows ← input.rows fun t => do
        .ok (← Output.keys "group by" (groupOutputs p keys (t.toContext c)), t)
      Group.ofRows c.implicitTimezone (keys.map GroupKey.name) rows).locate p
  | .order p keys, input, c =>
    (Output.ofExcept do
      let rows ← input.rows fun t => do
        .ok (← Output.keys "order by" (sortOutputs keys (t.toContext c)), t)
      Sort.tuples c.implicitTimezone (keys.map SortKey.order) rows).locate p
  | .count p name, input, _ =>
    (input.numbered.map fun (t, n) => t.bind name [.ofNat n]).locate p

def groupOutputs (p : Position) : List GroupKey → Context → List (Output Item)
  | [], _ => []
  | .existing name :: ks, c =>
    (match Fields.find? name c.frame.bindings with
      | some items => Output.ofList items
      | none => .fail ((Error.of (.unboundGroupingVariable name)).locate p)) :: groupOutputs p ks c
  | .computed _ e :: ks, c => e.output c :: groupOutputs p ks c

def sortOutputs : List SortKey → Context → List (Output Item)
  | [], _ => []
  | .mk e _ :: ks, c => e.output c :: sortOutputs ks c

def pipelineOutput : List Clause → Output Tuple → Context → Output Tuple
  | [], input, _ => input
  | k :: ks, input, c => pipelineOutput ks (k.output input c) c

end

end PullQuery
