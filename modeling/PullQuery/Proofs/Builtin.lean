import PullQuery.Builtin
import PullQuery.Proofs.Arithmetic
import PullQuery.Proofs.Registry

namespace PullQuery

namespace Registry

variable {β : Type} {P : β → Prop} {r : Registry β}

def All (P : β → Prop) (r : Registry β) : Prop :=
  ∀ name os, Fields.find? name r.overloads = some os → ∀ o ∈ os, P o.body

theorem all_empty : (empty : Registry β).All P := nofun

theorem All.register (h : r.All P) (name : String) {o : Overload β} (ho : P o.body) :
    (r.register name o).All P := by
  intro n os hn q hq
  rw [Registry.register, Fields.find?_insert] at hn
  split at hn
  · obtain rfl := Option.some.inj hn
    obtain rfl | hq := Overload.mem_insert.1 hq
    · exact ho
    · cases hf : Fields.find? name r.overloads with
      | none =>
        rw [hf] at hq
        cases hq
      | some os =>
        rw [hf] at hq
        exact h name os hf q hq
  · exact h n os hn q hq

theorem All.of_resolve (h : r.All P) {name : String} {arity : Nat} {b : β}
    (hb : r.resolve name arity = .ok b) : P b := by
  unfold resolve at hb
  split at hb
  case h_1 => cases hb
  case h_2 os hos =>
    split at hb
    case h_1 o ho =>
      cases hb
      exact h name os hos o (List.mem_of_find?_eq_some ho)
    case h_2 => cases hb

end Registry

def Error.Kind.ordinary : List Error.Kind := [.cardinality, .type, .cast, .dynamic, .static]

theorem Error.Kind.mem_ordinary {k : Error.Kind} : k ∈ ordinary ↔ k ≠ .flow := by
  cases k <;> decide

def Function.RaisesOrdinary (f : Function) : Prop :=
  ∀ site arguments, Raises Error.Kind.ordinary (f.apply site arguments)

def Body.RaisesOrdinary : Body → Prop
  | .eager f => f.RaisesOrdinary
  | .streaming _ => True

theorem Item.truth_raises (a : Item) : Raises [.type] a.truth := by
  unfold truth
  split
  all_goals first | exact .ok _ | exact .error List.mem_cons_self

theorem Items.truth_raises (items : Items) : Raises [.type] items.truth := by
  unfold truth
  split
  · exact .ok _
  · split
    · exact .error List.mem_cons_self
    · exact Item.truth_raises _

theorem Item.stringValue_raises (a : Item) : Raises [.type] a.stringValue := by
  unfold stringValue
  split
  · exact .ok _
  · exact .error List.mem_cons_self

namespace Builtin

theorem optional_raises (function : String) (index : Nat) (items : Items) :
    Raises [.cardinality] (optional function index items) := by
  unfold optional
  split
  · exact .ok _
  · exact .ok _
  · exact .error List.mem_cons_self

theorem onOptional_ordinary (name : String) {f : Item → Except Error Item}
    (h : ∀ a, Raises [.type, .cast] (f a)) : (onOptional name f).RaisesOrdinary := by
  intro site arguments
  refine ((optional_raises name 1 _).mono (by decide)).bind fun a => ?_
  cases a with
  | none => exact .ok _
  | some a => exact ((h a).map _).mono (by decide)

theorem onItems_ordinary (name : String) {f : Items → Except Error Items}
    (h : ∀ items, Raises [.cardinality, .type] (f items)) : (onItems name f).RaisesOrdinary :=
  fun _ arguments => (h (arguments.headD [])).mono (by decide)

theorem ofNow_ordinary (name : String) (f : Moment → Item) : (ofNow name f).RaisesOrdinary :=
  fun _ _ => .ok _

theorem component_ordinary (k : Duration.Component) : (componentFunction k).RaisesOrdinary := by
  refine onOptional_ordinary _ fun a => ?_
  cases a.duration? with
  | some d => exact .ok _
  | none => exact .error List.mem_cons_self

theorem castString_raises (target s : String) (result : Option Item) :
    Raises [.type, .cast] (castString target s result) := by
  cases result with
  | some a => exact .ok a
  | none => exact .error (List.mem_cons_of_mem _ List.mem_cons_self)

theorem toDate_raises (a : Item) : Raises [.type, .cast] (toDate a) := by
  unfold toDate
  split
  · exact castString_raises _ _ _
  · exact .ok _
  · exact .ok _
  · exact .error List.mem_cons_self

theorem toTime_raises (a : Item) : Raises [.type, .cast] (toTime a) := by
  unfold toTime
  split
  · exact castString_raises _ _ _
  · exact .ok _
  · exact .ok _
  · exact .error List.mem_cons_self

theorem toDateTime_raises (a : Item) : Raises [.type, .cast] (toDateTime a) := by
  unfold toDateTime
  split
  · exact castString_raises _ _ _
  · exact .ok _
  · exact .ok _
  · exact .error List.mem_cons_self

theorem zeroOrOne_raises (items : Items) : Raises [.cardinality, .type] (zeroOrOne items) := by
  unfold zeroOrOne
  split
  · exact .error List.mem_cons_self
  · exact .ok _

theorem exactlyOne_raises (items : Items) : Raises [.cardinality, .type] (exactlyOne items) := by
  unfold exactlyOne
  split
  · exact .ok _
  · exact .error List.mem_cons_self

theorem size_raises (a : Item) : Raises [.type, .cast] (size a) := by
  unfold size
  split
  · exact .ok _
  · exact .error List.mem_cons_self

theorem string_ordinary : (Function.mk "string" string).RaisesOrdinary := by
  intro site arguments
  change Raises _ (string site arguments)
  unfold string
  split
  · split
    · exact .error (by decide)
    · exact ((Item.stringValue_raises _).map _).mono (by decide)
  · refine ((optional_raises "string" 1 _).mono (by decide)).bind fun a => ?_
    cases a with
    | none => exact .ok _
    | some a => exact ((Item.stringValue_raises a).map _).mono (by decide)

theorem sequences_ordinary : ∀ f ∈ sequences, f.RaisesOrdinary := by
  have total (name : String) (f : Items → Items) :
      (onItems name fun items => .ok (f items)).RaisesOrdinary :=
    onItems_ordinary name fun items => .ok (f items)
  have ofTruth (name : String) (f : Bool → Items) :
      (onItems name fun items => (Items.truth items).map f).RaisesOrdinary :=
    onItems_ordinary name fun items => ((Items.truth_raises items).map f).mono (by decide)
  rw [sequences]
  simp only [List.forall_mem_cons]
  exact ⟨total _ _, total _ _, onOptional_ordinary _ size_raises, total _ _, total _ _, total _ _,
    total _ _, onItems_ordinary _ zeroOrOne_raises, onItems_ordinary _ exactlyOne_raises, total _ _,
    total _ _, ofTruth _ _, ofTruth _ _, nofun⟩

theorem unary_ordinary : ∀ f ∈ unary, f.RaisesOrdinary := by
  intro f hf
  obtain hf | hf := List.mem_append.1 hf
  · obtain hf | hf := List.mem_append.1 hf
    · obtain ⟨k, -, rfl⟩ := List.mem_map.1 hf
      exact component_ordinary k
    · have h : ∀ f ∈ points, f.RaisesOrdinary := by
        rw [points]
        simp only [List.forall_mem_cons]
        exact ⟨onOptional_ordinary _ toDate_raises, onOptional_ordinary _ toTime_raises,
          onOptional_ordinary _ toDateTime_raises, nofun⟩
      exact h f hf
  · exact sequences_ordinary f hf

theorem present_ordinary : ∀ f ∈ present, f.RaisesOrdinary := by
  rw [present]
  simp only [List.forall_mem_cons]
  exact ⟨ofNow_ordinary _ _, ofNow_ordinary _ _, ofNow_ordinary _ _, nofun⟩

end Builtin

namespace Registry

theorem All.foldl_exactly {P : Body → Prop} {α : Type} {r : Registry Body} (h : r.All P)
    (name : α → String) (arity : Nat) (body : α → Body) {as : List α} (ha : ∀ a ∈ as, P (body a)) :
    (as.foldl (fun r a => r.exactly (name a) arity (body a)) r).All P := by
  induction as generalizing r with
  | nil => exact h
  | cons a as ih =>
    exact ih (h.register _ (ha a List.mem_cons_self)) fun a hm => ha a (List.mem_cons_of_mem _ hm)

theorem builtin_ordinary : builtin.All Body.RaisesOrdinary := by
  have none : (empty : Registry Body).All Body.RaisesOrdinary := all_empty
  have constructors := none.foldl_exactly Duration.Kind.name 1 Builtin.constructDuration
    fun kind (_ : kind ∈ [Duration.Kind.full, .yearMonth, .dayTime]) => trivial
  have ones := constructors.foldl_exactly Function.name 1 .eager Builtin.unary_ordinary
  have nones := ones.foldl_exactly Function.name 0 .eager Builtin.present_ordinary
  have project : Builtin.projectFields.RaisesOrdinary := trivial
  exact (nones.register "project" project).register "string" Builtin.string_ordinary

end Registry

def Function.IsBuiltin (f : Function) : Prop :=
  ∃ name arity, Registry.builtin.resolve name arity = .ok (.eager f)

theorem Function.IsBuiltin.raisesOrdinary {f : Function} (h : f.IsBuiltin) : f.RaisesOrdinary := by
  obtain ⟨name, arity, hf⟩ := h
  exact Registry.builtin_ordinary.of_resolve hf

end PullQuery
