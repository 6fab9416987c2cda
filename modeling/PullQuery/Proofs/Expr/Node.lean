import Mathlib.Logic.Relation
import PullQuery.Proofs.Builtin
import PullQuery.Proofs.Expr.Operand

namespace PullQuery

theorem Error.locate_of_isSome {e : Error} (h : e.position.isSome) (p : Position) :
    e.locate p = e := by
  obtain ⟨cause, _ | q⟩ := e
  · cases h
  · rfl

inductive Node
  | operator (x : Expr)
  | clause (k : Clause)

namespace Expr

def fieldParts (fields : List (Expr × Expr)) : List Expr := fields.flatMap fun f => [f.1, f.2]

def parts : Expr → List Expr
  | .literal .. | .source .. | .variable .. | .focus _ => []
  | .comma _ es | .call _ _ es => es
  | .range _ l r | .additive _ _ l r | .multiplicative _ _ l r | .comparison _ _ l r
  | .generalComparison _ _ l r | .logical _ _ l r | .field _ l r | .member _ l r | .project _ l r
  | .map _ l r => [l, r]
  | .unary _ _ e | .not _ e | .unbox _ e | .duration _ _ e => [e]
  | .conditional _ c y n => [c, y, n]
  | .object _ fields => fieldParts fields
  | .array _ content => content.toList
  | .flwor _ _ result => [result]

def clauses : Expr → List Clause
  | .flwor _ clauses _ => clauses
  | _ => []

end Expr

def GroupKey.part? : GroupKey → Option Expr
  | .existing _ => none
  | .computed _ e => some e

def SortKey.part : SortKey → Expr
  | .mk e _ => e

def Clause.position : Clause → Position
  | .each p .. | .bind p .. | .filter p _ | .group p _ | .order p _ | .count p _ => p

def Clause.parts : Clause → List Expr
  | .each _ _ _ _ e | .bind _ _ e | .filter _ e => [e]
  | .group _ keys => keys.filterMap GroupKey.part?
  | .order _ keys => keys.map SortKey.part
  | .count .. => []

def Source.Raises (s : Source) (e : Error) : Prop := s.refusal = some e ∨ .error e ∈ s.entries

namespace Node

def position : Node → Position
  | .operator x => x.position
  | .clause k => k.position

def operands : Node → List Expr
  | .operator x => x.parts
  | .clause k => k.parts

def clauses : Node → List Clause
  | .operator x => x.clauses
  | .clause _ => []

def singles : Node → List (Expr × Error.Cause)
  | .operator x => x.singles
  | .clause _ => []

def Above (n m : Node) : Prop := (∃ y ∈ n.operands, m = .operator y) ∨ ∃ k ∈ n.clauses, m = .clause k

def Holds : Node → Node → Prop := Relation.ReflTransGen Above

def Raises : Node → Error → Prop
  | .operator (.source _ s), e => s.Raises e
  | .operator (.call _ f _), e => ∃ site arguments, f.apply site arguments = .error e
  | _, e => e.position = none ∧ e.kind ≠ .flow

def IsPlain (n : Node) : Prop := ∀ e : Error, e.position = none ∧ e.kind ≠ .flow → n.Raises e

variable {n m : Node} {err : Error}

/-- The error is one that a node of the tree raised, with the position of that node. -/
def Emits (n : Node) (err : Error) : Prop :=
  ∃ m, n.Holds m ∧ ∃ e, m.Raises e ∧ err = e.locate m.position

theorem forall_holds {Q : Node → Prop} : (∀ m, n.Holds m → Q m) ↔
    Q n ∧ (∀ y ∈ n.operands, ∀ m, (operator y).Holds m → Q m) ∧
      ∀ k ∈ n.clauses, ∀ m, (clause k).Holds m → Q m := by
  constructor
  · intro h
    refine ⟨h n .refl, fun y hy m hm => h m (.head (.inl ⟨y, hy, rfl⟩) hm), fun k hk m hm => ?_⟩
    exact h m (.head (.inr ⟨k, hk, rfl⟩) hm)
  · rintro ⟨hn, hy, hk⟩ m hm
    obtain rfl | ⟨l, hl, hm⟩ := Relation.ReflTransGen.cases_head hm
    · exact hn
    · obtain ⟨y, h, rfl⟩ | ⟨k, h, rfl⟩ := hl
      · exact hy y h m hm
      · exact hk k h m hm

theorem Emits.of_above (h : m.Emits err) (hn : n.Above m) : n.Emits err := by
  obtain ⟨l, hl, he⟩ := h
  exact ⟨l, .head hn hl, he⟩

theorem Emits.position_isSome (h : n.Emits err) : err.position.isSome := by
  obtain ⟨m, -, e, -, rfl⟩ := h
  rw [Error.locate]
  cases e.position <;> rfl

theorem Emits.locate_eq (h : n.Emits err) (p : Position) : err.locate p = err :=
  Error.locate_of_isSome h.position_isSome p

/-- What comes from outside the library: stores raise errors with the property, and functions are
those of the registry. -/
def Draws (P : Error → Prop) : Node → Prop
  | .operator (.source _ s) => ∀ e, s.Raises e → P e
  | .operator (.call _ f _) => f.IsBuiltin
  | _ => True

theorem Raises.of_draws {P : Error → Prop}
    (hp : ∀ e : Error, e.position = none ∧ e.kind ≠ .flow → P e) (h : n.Draws P)
    (he : n.Raises err) : P err := by
  cases n with
  | clause k => exact hp err he
  | operator x =>
    cases x with
    | source p s => exact h err he
    | call p f arguments =>
      obtain ⟨site, as, ha⟩ := he
      obtain ⟨hn, hk⟩ := h.raisesOrdinary site as err ha
      exact hp err ⟨hn, Error.Kind.mem_ordinary.1 hk⟩
    | _ => exact hp err he

def Locates (n : Node) (P : Error → Prop) (err : Error) : Prop :=
  ∃ m, n.Holds m ∧ ∃ e, P e ∧ err = e.locate m.position

theorem Emits.of_draws {P : Error → Prop}
    (hp : ∀ e : Error, e.position = none ∧ e.kind ≠ .flow → P e) (h : ∀ m, n.Holds m → m.Draws P)
    (he : n.Emits err) : n.Locates P err := by
  obtain ⟨m, hm, e, he, rfl⟩ := he
  exact ⟨m, hm, e, he.of_draws hp (h m hm), rfl⟩

theorem isPlain_of_singles {d : Expr × Error.Cause} (h : d ∈ n.singles) : n.IsPlain := by
  cases n with
  | clause k => exact fun _ h => h
  | operator x =>
    cases x with
    | source p s => cases h
    | call p f arguments => cases h
    | _ => exact fun _ h => h

theorem kind_of_singles {d : Expr × Error.Cause} (h : d ∈ n.singles) :
    d.2.kind = .cardinality := by
  cases n with
  | operator x => exact Expr.kind_of_mem_singles h
  | clause k => cases h

theorem sizeOf_fieldParts {fields : List (Expr × Expr)} {y : Expr}
    (h : y ∈ Expr.fieldParts fields) : sizeOf y < sizeOf fields := by
  obtain ⟨f, hf, hy⟩ := List.mem_flatMap.1 h
  have hs := List.sizeOf_lt_of_mem hf
  obtain ⟨k, v⟩ := f
  simp only [List.mem_cons, List.not_mem_nil, or_false] at hy
  obtain rfl | rfl := hy
  all_goals
    simp only [Prod.mk.sizeOf_spec] at hs
    omega

theorem sizeOf_parts {x y : Expr} (h : y ∈ x.parts) : sizeOf y < sizeOf x := by
  cases x with
  | literal | source | «variable» | focus => cases h
  | comma p es =>
    have hm : y ∈ es := h
    have := List.sizeOf_lt_of_mem hm
    simp only [Expr.comma.sizeOf_spec]
    omega
  | call p f es =>
    have hm : y ∈ es := h
    have := List.sizeOf_lt_of_mem hm
    simp only [Expr.call.sizeOf_spec]
    omega
  | object p fields =>
    have := sizeOf_fieldParts h
    simp only [Expr.object.sizeOf_spec]
    omega
  | array p content =>
    cases content with
    | none => cases h
    | some e =>
      obtain rfl := List.mem_singleton.1 h
      simp only [Expr.array.sizeOf_spec, Option.some.sizeOf_spec]
      omega
  | conditional p condition yes no =>
    simp only [Expr.parts, List.mem_cons, List.not_mem_nil, or_false] at h
    simp only [Expr.conditional.sizeOf_spec]
    rcases h with rfl | rfl | rfl <;> omega
  | unary | not | unbox | duration | flwor =>
    obtain rfl := List.mem_singleton.1 h
    simp only [Expr.unary.sizeOf_spec, Expr.not.sizeOf_spec, Expr.unbox.sizeOf_spec,
      Expr.duration.sizeOf_spec, Expr.flwor.sizeOf_spec]
    omega
  | _ =>
    simp only [Expr.parts, List.mem_cons, List.not_mem_nil, or_false] at h
    simp only [Expr.range.sizeOf_spec, Expr.additive.sizeOf_spec, Expr.multiplicative.sizeOf_spec,
      Expr.comparison.sizeOf_spec, Expr.generalComparison.sizeOf_spec, Expr.logical.sizeOf_spec,
      Expr.field.sizeOf_spec, Expr.member.sizeOf_spec, Expr.project.sizeOf_spec,
      Expr.map.sizeOf_spec]
    rcases h with rfl | rfl <;> omega

theorem sizeOf_clauseParts {k : Clause} {y : Expr} (h : y ∈ k.parts) : sizeOf y < sizeOf k := by
  cases k with
  | count => cases h
  | each | bind | filter =>
    obtain rfl := List.mem_singleton.1 h
    simp only [Clause.each.sizeOf_spec, Clause.bind.sizeOf_spec, Clause.filter.sizeOf_spec]
    omega
  | group p keys =>
    obtain ⟨key, hk, hy⟩ := List.mem_filterMap.1 h
    have hs := List.sizeOf_lt_of_mem hk
    cases key with
    | existing name => cases hy
    | computed name e =>
      cases hy
      simp only [GroupKey.computed.sizeOf_spec] at hs
      simp only [Clause.group.sizeOf_spec]
      omega
  | order p keys =>
    obtain ⟨key, hk, rfl⟩ := List.mem_map.1 h
    have hs := List.sizeOf_lt_of_mem hk
    obtain ⟨e, order⟩ := key
    simp only [SortKey.mk.sizeOf_spec] at hs
    simp only [Clause.order.sizeOf_spec, SortKey.part]
    omega

theorem Above.sizeOf_lt (h : n.Above m) : sizeOf m < sizeOf n := by
  obtain ⟨y, hy, rfl⟩ | ⟨k, hk, rfl⟩ := h
  · cases n with
    | operator x =>
      have := sizeOf_parts hy
      simpa using this
    | clause k =>
      have := sizeOf_clauseParts hy
      simpa using this
  · cases n with
    | clause l => cases hk
    | operator x =>
      cases x with
      | flwor p clauses result =>
        have hm : k ∈ clauses := hk
        have := List.sizeOf_lt_of_mem hm
        simp only [operator.sizeOf_spec, clause.sizeOf_spec, Expr.flwor.sizeOf_spec]
        omega
      | _ => cases hk

end Node

end PullQuery
