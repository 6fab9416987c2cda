import PullQuery.Expr.Output
import PullQuery.Proofs.Scan.Children
import PullQuery.Proofs.Scan.Leaf

namespace PullQuery

variable {c : Context} {p : Position}

namespace Scan

variable {m : Machine Item} {o : Output Item}

theorem operand_value (h : m.GivesAt c o) (cause : Error.Cause) (s : Scan m.toOperator) :
    (s.operand cause c).value = o.operand cause := by
  simp only [operand, Step.mapValue_value, h.atMostOne, Output.operand]
  rcases o with ⟨_ | ⟨a, _ | ⟨b, vs⟩⟩, _ | e⟩
  · rfl
  · rfl
  · rfl
  -- Whatever comes after the first item, the error that names the operand takes its place.
  all_goals exact congrArg Except.error (ite_self _).symm

theorem operands_value {l r : Machine Item} {ol or : Output Item} (hl : l.GivesAt c ol)
    (hr : r.GivesAt c or) (expression : String) (s : Scan l.toOperator × Scan r.toOperator) :
    (operands expression c s).value = Output.operands expression ol or := by
  simp only [operands, Output.operands, Step.thenOk_value, Step.mapValue_value, Step.within_value,
    operand_value hl, operand_value hr]
  rcases ol.operand (.severalOperandItems expression "left") with e | a
  · rfl
  · rcases or.operand (.severalOperandItems expression "right") with e | b <;> rfl

end Scan

namespace Machine

theorem literal_gives (items : Items) : (literal p items).GivesAt c (.ofList items) := by
  rw [literal]
  exact emit_gives (r := .ok items) fun _ => rfl

theorem variableReference_gives (name : String) : (variableReference p name).GivesAt c
    ((match c.value? name with
      | some items => Output.ofList items
      | none => .fail (.of (.unboundVariable name))).locate p) := by
  have ho : (match c.value? name with
      | some items => Output.ofList items
      | none => .fail (.of (.unboundVariable name))) = .ofExcept (match c.value? name with
      | some items => .ok items
      | none => .error (.of (.unboundVariable name))) := by cases c.value? name <;> rfl
  rw [ho]
  exact emit_gives fun _ => rfl

theorem focusItem_gives : (focusItem p).GivesAt c
    ((match c.focus? with
      | some focus => Output.ofList [focus.item]
      | none => .fail (.of .noFocus)).locate p) := by
  have ho : (match c.focus? with
      | some focus => Output.ofList [focus.item]
      | none => .fail (.of .noFocus)) = .ofExcept (match c.focus? with
      | some focus => .ok [focus.item]
      | none => .error (.of .noFocus)) := by cases c.focus? <;> rfl
  rw [ho]
  exact emit_gives fun _ => rfl

theorem call_gives {arguments : List (Machine Item)} {os : List (Output Item)}
    (h : Scans.GivesAt c arguments os) (f : Function) : (call p f arguments).GivesAt c
      ((Output.ofExcept do f.apply (c.callSite p) (← os.mapM Output.collect)).locate p) :=
  emit_gives fun s => by rw [Step.mapValue_value, Scans.materialize_value h]; rfl

theorem range_gives {l r : Machine Item} {ol or : Output Item} (hl : l.GivesAt c ol)
    (hr : r.GivesAt c or) : (range p l r).GivesAt c ((ol.range or).locate p) := by
  have ho : ol.range or = .ofExcept ((do
      let m ← rangeBound (← ol.operand (.severalOperandItems "Range" "left"))
      let n ← rangeBound (← or.operand (.severalOperandItems "Range" "right"))
      .ok (m.bind fun m => n.map fun n => (m, n))).map fun
      | none => []
      | some (n, last) => integers n last) := by
    rw [Output.range]
    congr 1
    rcases ol.operand (.severalOperandItems "Range" "left") with e | a
    · rfl
    · rcases ha : rangeBound a with e | m
      · simp [ha, bind, Except.bind, Except.map]
      · rcases or.operand (.severalOperandItems "Range" "right") with e | b
        · simp [ha, bind, Except.bind, Except.map]
        · rcases hb : rangeBound b with e | n
          · simp [ha, hb, bind, Except.bind, Except.map]
          · cases m <;> cases n <;> simp [ha, hb, bind, Except.bind, Except.map, integers]
  rw [ho]
  refine countUp_gives fun s => ?_
  simp only [Step.thenOk_value, Scan.operand_value hl]
  rcases ol.operand (.severalOperandItems "Range" "left") with e | a
  · rfl
  · simp only [Except.bind, bind]
    rcases rangeBound a with e | m
    · rfl
    · simp only [Step.mapValue_value, Step.within_value, Scan.operand_value hr]
      rcases or.operand (.severalOperandItems "Range" "right") with e | b
      · rfl
      · rcases rangeBound b with e | n <;> rfl

theorem deferred_binary {expression : String} {apply : Zone → Item → Item → Except Error Item}
    (zone : Zone) (l r : Output Item) : Output.binary expression (apply zone) l r =
      .ofExcept (finished (fun (x : Zone × Item × Item) => apply x.1 x.2.1 x.2.2)
        ((Output.operands expression l r).map fun pair =>
          pair.map fun (a, b) => (zone, a, b))) := by
  rw [Output.binary]
  congr 1
  rcases Output.operands expression l r with e | (_ | ⟨a, b⟩)
  · rfl
  · rfl
  · simp only [finished, bind, Except.bind, Except.map, Option.map]

theorem binary_gives {name expression : String} {apply : Zone → Item → Item → Except Error Item}
    {l r : Machine Item} {ol or : Output Item} (hl : l.GivesAt c ol) (hr : r.GivesAt c or) :
    (binary name expression p apply l r).GivesAt c
      ((Output.binary expression (apply c.implicitTimezone) ol or).locate p) := by
  rw [deferred_binary]
  refine defer_gives (fun s => ?_) fun _ _ _ => rfl
  simp only [Step.mapValue_value, Scan.operands_value hl hr]

theorem deferred_unary {several : Error.Cause} {apply : Item → Except Error Item}
    {o : Output Item} : o.unary several apply = .ofExcept (finished apply (o.operand several)) := by
  rw [Output.unary]
  congr 1
  rcases o.operand several with e | (_ | a)
  · rfl
  · rfl
  · simp only [finished, bind, Except.bind, Except.map]

theorem unary_gives {e : Machine Item} {o : Output Item} (h : e.GivesAt c o) (op : UnaryOp) :
    (unary p op e).GivesAt c
      ((o.unary (.severalOperandItems "Unary" "") op.apply).locate p) := by
  rw [deferred_unary]
  exact defer_gives (fun s => Scan.operand_value h _ s) fun _ _ _ => rfl

theorem duration_gives {e : Machine Item} {o : Output Item} (h : e.GivesAt c o)
    (kind : Duration.Kind) : (duration p kind e).GivesAt c
      ((o.unary (.severalConstructorItems kind.name) kind.construct).locate p) := by
  rw [deferred_unary]
  exact defer_gives (fun s => Scan.operand_value h _ s) fun _ _ _ => rfl

theorem generalComparison_gives {l r : Machine Item} {ol or : Output Item} (hl : l.GivesAt c ol)
    (hr : r.GivesAt c or) (op : ComparisonOp) : (generalComparison p op l r).GivesAt c
      ((Output.ofExcept do
        let ls ← ol.collect
        let rs ← or.collect
        .ok [.boolean (← op.evaluateGeneral c.implicitTimezone ls rs)]).locate p) := by
  have ho : (do
      let ls ← ol.collect
      let rs ← or.collect
      .ok [.boolean (← op.evaluateGeneral c.implicitTimezone ls rs)]) =
      finished (fun (x : Zone × Items × Items) => (op.evaluateGeneral x.1 x.2.1 x.2.2).map Item.boolean)
        (ol.collect.bind fun ls => or.collect.map fun rs => some (c.implicitTimezone, ls, rs)) := by
    rcases ol.collect with e | ls
    · rfl
    · rcases or.collect with e | rs
      · rfl
      · simp only [finished, bind, Except.bind, Except.map]
        cases op.evaluateGeneral c.implicitTimezone ls rs <;> rfl
  rw [ho]
  refine defer_gives (fun s => ?_) fun _ _ _ => rfl
  simp only [Step.thenOk_value, Step.mapValue_value, Step.within_value, hl.materialize,
    hr.materialize]

end Machine

end PullQuery
