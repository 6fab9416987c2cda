import PullQuery.Expr.Dependencies
import PullQuery.Proofs.Expr.Output
import PullQuery.Proofs.Tuple.Binding

namespace PullQuery

variable {α β ω ρ : Type} {c c' : Context}

theorem mapM_congr {f g : α → Except Error β} {as : List α} (h : ∀ a ∈ as, f a = g a) :
    as.mapM f = as.mapM g := by
  induction as with
  | nil => rfl
  | cons a as ih =>
    rw [List.mapM_cons, List.mapM_cons, h a List.mem_cons_self,
      ih fun a ha => h a (List.mem_cons_of_mem _ ha)]

namespace Output

theorem flatMap_congr {f g : α → Output ω} {o : Output α} (h : ∀ a ∈ o.values, f a = g a) :
    o.flatMap f = o.flatMap g := by
  obtain ⟨as, failure⟩ := o
  induction as with
  | nil => rfl
  | cons a as ih =>
    rw [flatMap_cons, flatMap_cons, h a List.mem_cons_self,
      ih fun a ha => h a (List.mem_cons_of_mem _ ha)]

theorem nest_congr {n : Machine.Nesting α ω β} {inner : Context → Output ω} {o : Output α}
    (h : ∀ a ∈ o.values, ∀ place, inner (n.frame c a place) = inner (n.frame c' a place)) :
    o.nest n c inner = o.nest n c' inner := by
  refine flatMap_congr ?_
  rintro ⟨a, place⟩ ha
  dsimp only
  rw [h a (List.fst_mem_of_mem_zipIdx ha) place]

theorem rows_congr {f g : α → Except Error ρ} {o : Output α} (h : ∀ a ∈ o.values, f a = g a) :
    o.rows f = o.rows g := by
  rw [rows, rows, mapM_congr h]

end Output

theorem Context.AgreesOn.inTuple {names bound : List String} {t : Tuple} (ht : t.Binds bound)
    (h : c.AgreesOn (names.filter fun n => !bound.contains n) c') :
    (t.toContext c).AgreesOn names (t.toContext c') := by
  refine h.toContext fun n hn => ?_
  by_cases hb : n ∈ bound
  · exact .inl ((ht n).2 hb)
  · exact .inr (List.mem_filter.2 ⟨hn, by simpa using hb⟩)

mutual

theorem Expr.output_agrees : ∀ (e : Expr) {c c' : Context}, c.AgreesOn e.dependencies c' →
    e.output c = e.output c'
  | .literal .., _, _, _ => by
    rw [Expr.output, Expr.output]
  | .source .., _, _, _ => by
    rw [Expr.output, Expr.output]
  | .comma _ es, _, _, h => by
    rw [Expr.dependencies] at h
    rw [Expr.output, Expr.output, outputs_agree es h]
  | .range _ l r, _, _, h => by
    rw [Expr.dependencies] at h
    rw [Expr.output, Expr.output, l.output_agrees h.left, r.output_agrees h.right]
  | .variable _ name, _, _, h => by
    rw [Expr.dependencies] at h
    rw [Expr.output, Expr.output, h.value name List.mem_cons_self]
  | .focus _, _, _, h => by
    rw [Expr.output, Expr.output, h.focus]
  | .additive _ _ l r, _, _, h => by
    rw [Expr.dependencies] at h
    rw [Expr.output, Expr.output, l.output_agrees h.left, r.output_agrees h.right,
      h.implicitTimezone]
  | .multiplicative _ _ l r, _, _, h => by
    rw [Expr.dependencies] at h
    rw [Expr.output, Expr.output, l.output_agrees h.left, r.output_agrees h.right]
  | .unary _ _ e, _, _, h => by
    rw [Expr.dependencies] at h
    rw [Expr.output, Expr.output, e.output_agrees h]
  | .comparison _ _ l r, _, _, h => by
    rw [Expr.dependencies] at h
    rw [Expr.output, Expr.output, l.output_agrees h.left, r.output_agrees h.right,
      h.implicitTimezone]
  | .generalComparison _ _ l r, _, _, h => by
    rw [Expr.dependencies] at h
    rw [Expr.output, Expr.output, l.output_agrees h.left, r.output_agrees h.right,
      h.implicitTimezone]
  | .logical _ _ l r, _, _, h => by
    rw [Expr.dependencies] at h
    rw [Expr.output, Expr.output, l.output_agrees h.left, r.output_agrees h.right]
  | .not _ e, _, _, h => by
    rw [Expr.dependencies] at h
    rw [Expr.output, Expr.output, e.output_agrees h]
  | .conditional _ condition yes no, _, _, h => by
    rw [Expr.dependencies] at h
    rw [Expr.output, Expr.output, condition.output_agrees h.left.left,
      yes.output_agrees h.left.right, no.output_agrees h.right]
  | .object _ fields, _, _, h => by
    rw [Expr.dependencies] at h
    rw [Expr.output, Expr.output, fieldOutputs_agree fields h]
  | .array _ content, _, _, h => by
    rw [Expr.dependencies] at h
    rw [Expr.output, Expr.output, contentOutput_agrees content h]
  | .field _ input key, _, _, h => by
    rw [Expr.dependencies] at h
    rw [Expr.output, Expr.output, input.output_agrees h.left, key.output_agrees h.right]
  | .member _ input position, _, _, h => by
    rw [Expr.dependencies] at h
    rw [Expr.output, Expr.output, input.output_agrees h.left, position.output_agrees h.right]
  | .unbox _ input, _, _, h => by
    rw [Expr.dependencies] at h
    rw [Expr.output, Expr.output, input.output_agrees h]
  | .project _ input keys, _, _, h => by
    rw [Expr.dependencies] at h
    rw [Expr.output, Expr.output, input.output_agrees h.left, keys.output_agrees h.right]
  | .map _ input result, c, c', h => by
    rw [Expr.dependencies] at h
    have hr (a : Item) (place : Nat) : result.output (c.child.withFocus a place) =
        result.output (c'.child.withFocus a place) :=
      result.output_agrees (h.right.withFocus a place)
    rw [Expr.output, Expr.output, input.output_agrees h.left,
      Output.nest_congr fun a _ place => hr a place]
  | .duration _ _ e, _, _, h => by
    rw [Expr.dependencies] at h
    rw [Expr.output, Expr.output, e.output_agrees h]
  | .call p _ arguments, _, _, h => by
    rw [Expr.dependencies] at h
    rw [Expr.output, Expr.output, outputs_agree arguments h, h.callSite p]
  | .flwor _ clauses result, c, c', h => by
    rw [Expr.dependencies] at h
    have hs : ∀ t ∈ (Output.ofList [Tuple.empty]).values, t.Binds [] :=
      fun t ht => List.mem_singleton.1 ht ▸ Tuple.binds_empty
    have hp := pipelineOutput_agrees clauses hs h.left
    have hb := Clause.pipelineOutput_binds clauses c' hs
    have hr : ∀ t ∈ (pipelineOutput clauses (.ofList [Tuple.empty]) c').values,
        result.output (t.toContext c) = result.output (t.toContext c') :=
      fun t ht => result.output_agrees (h.right.inTuple (hb t ht))
    rw [Expr.output, Expr.output, hp, Output.nest_congr fun t ht _ => hr t ht]

theorem outputs_agree : ∀ (es : List Expr) {c c' : Context}, c.AgreesOn (listDependencies es) c' →
    outputs es c = outputs es c'
  | [], _, _, _ => rfl
  | e :: es, _, _, h => by
    rw [listDependencies] at h
    rw [outputs, outputs, e.output_agrees h.left, outputs_agree es h.right]

theorem fieldOutputs_agree : ∀ (fs : List (Expr × Expr)) {c c' : Context},
    c.AgreesOn (fieldDependencies fs) c' → fieldOutputs fs c = fieldOutputs fs c'
  | [], _, _, _ => rfl
  | (k, v) :: fs, _, _, h => by
    rw [fieldDependencies] at h
    rw [fieldOutputs, fieldOutputs, k.output_agrees h.left.left, v.output_agrees h.left.right,
      fieldOutputs_agree fs h.right]

theorem contentOutput_agrees : ∀ (content : Option Expr) {c c' : Context},
    c.AgreesOn (contentDependencies content) c' → contentOutput content c = contentOutput content c'
  | none, _, _, _ => rfl
  | some e, _, _, h => by
    rw [contentDependencies] at h
    rw [contentOutput, contentOutput, e.output_agrees h]

theorem Clause.output_agrees : ∀ (k : Clause) {c c' : Context} {bound : List String}
    {o : Output Tuple}, (∀ t ∈ o.values, t.Binds bound) →
      c.AgreesOn (k.reads.filter fun n => !bound.contains n) c' → k.output o c = k.output o c'
  | .each _ _ _ _ e, _, _, _, _, hb, h => by
    rw [Clause.reads] at h
    rw [Clause.output, Clause.output,
      Output.nest_congr fun t ht _ => e.output_agrees (h.inTuple (hb t ht))]
  | .bind _ _ e, c, c', _, o, hb, h => by
    rw [Clause.reads] at h
    have he : ∀ t ∈ o.values, e.output (t.toContext c) = e.output (t.toContext c') :=
      fun t ht => e.output_agrees (h.inTuple (hb t ht))
    rw [Clause.output, Clause.output]
    exact congrArg _ (Output.flatMap_congr fun t ht => by rw [he t ht])
  | .filter _ e, c, c', _, o, hb, h => by
    rw [Clause.reads] at h
    have he : ∀ t ∈ o.values, e.output (t.toContext c) = e.output (t.toContext c') :=
      fun t ht => e.output_agrees (h.inTuple (hb t ht))
    rw [Clause.output, Clause.output]
    exact congrArg _ (Output.flatMap_congr fun t ht => by rw [he t ht])
  | .group p keys, c, c', _, o, hb, h => by
    rw [Clause.reads] at h
    have hk : ∀ t ∈ o.values, groupOutputs p keys (t.toContext c) =
        groupOutputs p keys (t.toContext c') := fun t ht =>
      groupOutputs_agree p keys (by rw [t.toContext_eq, t.toContext_eq]) (h.inTuple (hb t ht))
    rw [Clause.output, Clause.output, h.implicitTimezone,
      Output.rows_congr fun t ht => by rw [hk t ht]]
  | .order _ keys, c, c', _, o, hb, h => by
    rw [Clause.reads] at h
    have hk : ∀ t ∈ o.values, sortOutputs keys (t.toContext c) =
        sortOutputs keys (t.toContext c') :=
      fun t ht => sortOutputs_agree keys (h.inTuple (hb t ht))
    rw [Clause.output, Clause.output, h.implicitTimezone,
      Output.rows_congr fun t ht => by rw [hk t ht]]
  | .count .., _, _, _, _, _, _ => by
    rw [Clause.output, Clause.output]

theorem groupOutputs_agree (p : Position) : ∀ (ks : List GroupKey) {c c' : Context},
    c.frame.bindings = c'.frame.bindings → c.AgreesOn (groupDependencies ks) c' →
      groupOutputs p ks c = groupOutputs p ks c'
  | [], _, _, _, _ => rfl
  | .existing _ :: ks, _, _, hf, h => by
    rw [groupDependencies] at h
    rw [groupOutputs, groupOutputs, hf, groupOutputs_agree p ks hf h]
  | .computed _ e :: ks, _, _, hf, h => by
    rw [groupDependencies] at h
    rw [groupOutputs, groupOutputs, e.output_agrees h.left, groupOutputs_agree p ks hf h.right]

theorem sortOutputs_agree : ∀ (ks : List SortKey) {c c' : Context},
    c.AgreesOn (sortDependencies ks) c' → sortOutputs ks c = sortOutputs ks c'
  | [], _, _, _ => rfl
  | .mk e _ :: ks, _, _, h => by
    rw [sortDependencies] at h
    rw [sortOutputs, sortOutputs, e.output_agrees h.left, sortOutputs_agree ks h.right]

theorem pipelineOutput_agrees : ∀ (ks : List Clause) {c c' : Context} {bound : List String}
    {o : Output Tuple}, (∀ t ∈ o.values, t.Binds bound) →
      c.AgreesOn (clauseDependencies bound ks) c' → pipelineOutput ks o c = pipelineOutput ks o c'
  | [], _, _, _, _, _, _ => by
    rw [pipelineOutput, pipelineOutput]
  | k :: ks, _, c', _, _, hb, h => by
    rw [clauseDependencies] at h
    rw [pipelineOutput, pipelineOutput, k.output_agrees hb h.left,
      pipelineOutput_agrees ks (k.output_binds c' hb) h.right]

end

namespace Expr

/-- A scan in a context hands out the same items, and the same error, as in any other context that
agrees on the free variables. -/
theorem dependencies_suffice (e : Expr) (c c' : Context) (h : c.AgreesOn e.dependencies c') :
    e.scan.run c = e.scan.run c' ∧ e.evaluate c = e.evaluate c' := by
  have ho : e.output c = e.output c' := e.output_agrees h
  rw [run_eq, run_eq, evaluate_eq, evaluate_eq, ho]
  exact ⟨rfl, rfl⟩

theorem dependencies_suffice_for_loop :
    let p : Position := ⟨1, 1⟩
    let e : Expr := .flwor p [.each p "x" none false (.variable p "items")] (.variable p "x")
    let now : DateTime :=
      ⟨⟨2024, 1, 2, by decide, by decide, by decide⟩, ⟨0, 0, by decide, by decide⟩⟩
    let settings : Settings := ⟨.utc, ⟨now, .utc⟩, .empty⟩
    let c : Context := .root settings ⟨[("items", [.null]), ("x", [.boolean true])], none⟩
    let c' : Context := .root settings ⟨[("items", [.null])], none⟩
    c.AgreesOn e.dependencies c' ∧ e.evaluate c = e.evaluate c' := by
  intro p e now settings c c'
  have hd : e.dependencies = ["items"] := by decide
  have h : c.AgreesOn e.dependencies c' := by
    refine ⟨rfl, rfl, rfl, fun name hn => ?_⟩
    rw [hd] at hn
    rw [List.mem_singleton.1 hn]
    rfl
  exact ⟨h, (dependencies_suffice e c c' h).2⟩

end Expr

end PullQuery
