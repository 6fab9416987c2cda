import PullQuery.Expr.Output
import PullQuery.Proofs.Scan.Children
import PullQuery.Proofs.Scan.Choice
import PullQuery.Proofs.Scan.Each
import PullQuery.Proofs.Scan.Leaf
import PullQuery.Proofs.Scan.Nested

namespace PullQuery

namespace Machine

variable {c : Context} {p : Position}

theorem truthOf_value {m : Machine Item} {o : Output Item} (h : m.GivesAt c o)
    (s : Scan m.toOperator) : (truthOf c s).value = o.truth := by
  rw [truthOf, Step.mapValue_value, h.materialize, Output.truth]

theorem defer_context_gives {κ : Type} {name : String} {initial : κ}
    {finish : Context → κ → Step (Except Error Item) κ} {r : Except Error Item}
    (h : ∀ k, (finish c k).value = r) :
    (defer name p initial (fun c s => .done (.ok (some c)) s) finish).GivesAt c
      ((Output.ofExcept (r.map ([·]))).locate p) := by
  have hd : (defer name p initial (fun c s => .done (.ok (some c)) s) finish).GivesAt c
      ((Output.ofExcept (finished (fun _ => r) (.ok (some c)))).locate p) :=
    defer_gives (fun _ => rfl) fun a k ha => by cases ha; exact h k
  exact hd

theorem deferred_logical (connective : Connective) (l r : Output Item) :
    l.logical connective r = .ofExcept ((l.truth.bind fun b =>
      match decided connective b with
      | some b => .ok (.boolean b)
      | none => r.truth.map Item.boolean).map ([·])) := by
  rw [Output.logical]
  congr 1
  rcases l.truth with e | b
  · rfl
  · rcases hd : decided connective b with _ | b'
    · simp only [bind, Except.bind, hd]
      cases r.truth <;> rfl
    · simp only [bind, Except.bind, hd]
      rfl

theorem logical_gives {l r : Machine Item} {ol or : Output Item} (hl : l.GivesAt c ol)
    (hr : r.GivesAt c or) (connective : Connective) :
    (logical p connective l r).GivesAt c ((ol.logical connective or).locate p) := by
  rw [deferred_logical]
  refine defer_context_gives fun s => ?_
  simp only [Step.thenOk_value, truthOf_value hl]
  rcases ol.truth with e | b
  · rfl
  · simp only [Except.bind]
    cases decided connective b with
    | some b => rfl
    | none => simp only [Step.mapValue_value, Step.within_value, truthOf_value hr]

theorem not_gives {e : Machine Item} {o : Output Item} (h : e.GivesAt c o) :
    (not p e).GivesAt c ((Output.ofExcept do .ok [.boolean !(← o.truth)]).locate p) := by
  have ho : (do .ok [.boolean !(← o.truth)] : Except Error Items) =
      (o.truth.map fun b => Item.boolean !b).map ([·]) := by cases o.truth <;> rfl
  rw [ho]
  refine defer_context_gives fun s => ?_
  rw [Step.mapValue_value, truthOf_value h]

theorem conditional_gives {condition yes no : Machine Item} {oc oy on : Output Item}
    (hc : condition.GivesAt c oc) (hy : yes.GivesAt c oy) (hn : no.GivesAt c on) :
    (conditional p condition yes no).GivesAt c ((match oc.truth with
      | .error e => Output.fail e
      | .ok b => if b then oy else on).locate p) :=
  choice_gives (fun s => truthOf_value hc s) hy hn

theorem object_gives {fields : List (Machine Item)} {os : List (Output Item)}
    (h : Scans.GivesAt c fields os) : (object p fields).GivesAt c
      ((Output.ofExcept do
        let b ← os.foldlM (fun b o => o.collect.bind b.take) (⟨[], none⟩ : Building)
        .ok [.object b.fields]).locate p) := by
  have ho : (do
      let b ← os.foldlM (fun b o => o.collect.bind b.take) (⟨[], none⟩ : Building)
      .ok [.object b.fields] : Except Error Items) =
      ((os.foldlM (fun b (o : Output Item) => o.collect.bind b.take) (⟨[], none⟩ : Building)).map
        fun b => Item.object b.fields).map ([·]) := by
    cases os.foldlM (fun b o => o.collect.bind b.take) (⟨[], none⟩ : Building) <;> rfl
  rw [ho]
  refine defer_context_gives fun s => ?_
  rw [Step.mapValue_value, Scans.fold_value h]

theorem array_gives {contents : List (Machine Item)} {os : List (Output Item)}
    (h : Scans.GivesAt c contents os) : (array p contents).GivesAt c
      ((Output.ofExcept do
        .ok [.ofMembers (← os.mapM Output.collect).flatten]).locate p) := by
  have ho : (do .ok [.ofMembers (← os.mapM Output.collect).flatten] : Except Error Items) =
      ((os.mapM Output.collect).map fun vs => Item.ofMembers vs.flatten).map ([·]) := by
    cases os.mapM Output.collect <;> rfl
  rw [ho]
  refine defer_context_gives fun s => ?_
  rw [Step.mapValue_value, Scans.materialize_value h]

theorem navigate_gives {ρ : Type} {name : String} {resolve : Items → Except Error ρ}
    {select : ρ → Item → Items} {key input : Machine Item} {ok oi : Output Item}
    (hk : key.GivesAt c ok) (hi : input.GivesAt c oi) :
    (navigate name p key resolve select input).GivesAt c
      ((Output.navigate resolve select ok oi).locate p) := by
  rw [Output.navigate]
  refine each_gives (g := fun k => oi.flatMap fun a => .ofList (select k a)) hi (fun s => ?_)
    fun k _ s => ?_
  · rw [Step.mapValue_value, hk.materialize]
  · exact Each.expansions_eq_flatMap (g := fun a => .ok (select k a)) (fun _ _ => rfl) oi _

theorem unbox_gives {input : Machine Item} {o : Output Item} (h : input.GivesAt c o) :
    (unbox p input).GivesAt c ((o.flatMap fun a => .ofList a.members.toList).locate p) :=
  each_gives (r := .ok ()) (g := fun _ => o.flatMap fun a => .ofList a.members.toList) h
    (fun _ => rfl) fun _ _ k => Each.expansions_eq_flatMap (g := fun a => .ok a.members.toList)
      (fun _ _ => rfl) o k

theorem map_gives {input result : Machine Item} {oi : Output Item} {or : Context → Output Item}
    (hi : input.GivesAt c oi) (hr : ∀ c, result.GivesAt c (or c)) :
    (map p input result).GivesAt c ((oi.nest ⟨fun c a place => c.child.withFocus a place,
      fun _ _ b => b, fun _ => none⟩ c or).locate p) :=
  nested_gives hi hr

end Machine

end PullQuery
