import PullQuery.Proofs.Expr.Fault
import PullQuery.Proofs.Machine.Errors

namespace PullQuery

variable {α β ω : Type}

namespace Node

def Hears (n : Node) (o : Output Tuple) (e : Error) : Prop :=
  o.failure = some e ∨ ∃ y ∈ n.operands, ∃ c, y.evaluate c = .error e

def Replaces (n : Node) (e : Error) (cause : Error.Cause) : Prop :=
  e.kind = .cardinality ∧ ∃ y, (y, cause) ∈ n.singles ∧ ∃ c, y.evaluateAtMostOne c = .error e

def Explains (n : Node) (o : Output Tuple) : Fault → Prop
  | .raised e => n.Raises e
  | .heard e => n.Hears o e
  | .replaced e cause => n.Replaces e cause

end Node

def Faults (P : Fault → Prop) (r : Except Fault α) : Prop := ∀ f, r = .error f → P f

namespace Faults

variable {P : Fault → Prop} {r : Except Fault α}

theorem ok (a : α) : Faults P (.ok a) := fun _ h => nomatch h

theorem bind {f : α → Except Fault β} (h : Faults P r) (hf : ∀ a, Faults P (f a)) :
    Faults P (r >>= f) := by
  rcases r with x | a
  · rintro _ ⟨⟩
    exact h x rfl
  · exact hf a

theorem map (h : Faults P r) (f : α → β) : Faults P (r.map f) := by
  rcases r with x | a
  · rintro _ ⟨⟩
    exact h x rfl
  · exact ok _

theorem raise {r : Except Error α} (h : ∀ e, r = .error e → P (.raised e)) :
    Faults P (Fault.raise r) := by
  rcases r with e | a
  · rintro _ ⟨⟩
    exact h e rfl
  · exact ok a

theorem hear {r : Except Error α} (h : ∀ e, r = .error e → P (.heard e)) :
    Faults P (Fault.hear r) := by
  rcases r with e | a
  · rintro _ ⟨⟩
    exact h e rfl
  · exact ok a

theorem forM {as : List α} {f : α → Except Fault Unit} (h : ∀ a ∈ as, Faults P (f a)) :
    Faults P (as.forM f) := by
  induction as with
  | nil => exact ok _
  | cons a as ih =>
    exact (h a List.mem_cons_self).bind fun _ => ih fun a ha => h a (List.mem_cons_of_mem _ ha)

theorem mapM {as : List α} {f : α → Except Fault β} (h : ∀ a ∈ as, Faults P (f a)) :
    Faults P (as.mapM f) := by
  induction as with
  | nil => exact ok _
  | cons a as ih =>
    rw [List.mapM_cons]
    refine (h a List.mem_cons_self).bind fun b => ?_
    exact (ih fun a ha => h a (List.mem_cons_of_mem _ ha)).bind fun bs => ok _

end Faults

theorem Expr.evaluate_eq_error {y : Expr} {c : Context} {e : Error} :
    y.evaluate c = .error e ↔ (y.output c).failure = some e := by
  rw [evaluate_eq, Output.collect_eq_error]

theorem Expr.evaluate_of_atMostOne_error {y : Expr} {c : Context} {e : Error}
    (h : y.evaluateAtMostOne c = .error e) (hk : e.kind ≠ .cardinality) :
    y.evaluate c = .error e := by
  rw [evaluateAtMostOne_eq] at h
  rw [evaluate_eq]
  generalize y.output c = o at h ⊢
  obtain ⟨_ | ⟨v, _ | ⟨w, vs⟩⟩, _ | err⟩ := o
  · cases h
  · cases h
    rfl
  · cases h
  all_goals
    cases h
    exact absurd rfl hk

namespace Node

variable {n : Node} {o : Output Tuple} {ks : List Error.Kind}

theorem explains_hear {y : Expr} (h : y ∈ n.operands) (c : Context) :
    Faults (n.Explains o) (Fault.hear (y.evaluate c)) :=
  .hear fun _ he => .inr ⟨y, h, c, he⟩

theorem explains_part {y : Expr} (h : y ∈ n.operands) (c : Context) :
    Faults (n.Explains o) (Fault.part c y) := by
  refine .hear fun e he => .inr ⟨y, h, c, ?_⟩
  rcases hy : y.evaluate c with e' | items
  · rw [hy] at he
    cases he
    rfl
  · rw [hy] at he
    cases he

theorem explains_operand {y : Expr} {cause : Error.Cause} (hs : (y, cause) ∈ n.singles)
    (hp : y ∈ n.operands) (c : Context) :
    Faults (n.Explains o) (Fault.operand c y cause) := by
  intro f hf
  rw [Fault.operand] at hf
  rcases ha : y.evaluateAtMostOne c with e | a
  · rw [ha] at hf
    obtain rfl := Except.error.inj hf
    dsimp only
    by_cases hk : e.kind = .cardinality
    · rw [if_pos hk]
      exact ⟨hk, y, hs, c, ha⟩
    · rw [if_neg hk]
      exact .inr ⟨y, hp, c, Expr.evaluate_of_atMostOne_error ha hk⟩
  · rw [ha] at hf
    cases hf

theorem explains_raise (hn : n.IsPlain) {r : Except Error α} (h : PullQuery.Raises ks r)
    (hk : .flow ∉ ks) : Faults (n.Explains o) (Fault.raise r) := by
  refine .raise fun e he => hn e ⟨(h e he).1, fun hf => hk ?_⟩
  rw [← hf]
  exact (h e he).2

theorem explains_truth (hn : n.IsPlain) {y : Expr} (h : y ∈ n.operands) (c : Context) :
    Faults (n.Explains o) (Fault.truth c y) :=
  (explains_hear h c).bind fun items => explains_raise hn (Items.truth_raises items) (by decide)

theorem explains_ended {a : Output α} (ha : ∀ e, a.failure = some e → n.Hears o e) (b : β) :
    Faults (n.Explains o) (Fault.hear (a.collect.map fun _ => b)) := by
  refine .hear fun e he => ha e ?_
  obtain ⟨vs, _ | e'⟩ := a
  · cases he
  · cases he
    rfl

theorem explains_visits {a : Output α} (ha : ∀ e, a.failure = some e → n.Hears o e)
    {f : α → Except Fault Unit} (hf : ∀ v, Faults (n.Explains o) (f v)) :
    Faults (n.Explains o) (Fault.visits a f) :=
  (Faults.forM fun v _ => hf v).bind fun _ => explains_ended ha ()

theorem explains_gathers {f : Tuple → Except Fault β} (hf : ∀ t, Faults (n.Explains o) (f t)) :
    Faults (n.Explains o) (Fault.gathers o f) :=
  (Faults.mapM fun t _ => hf t).bind fun rows => explains_ended (fun _ he => .inl he) rows

theorem explains_onAll {es : List Expr} (h : ∀ e ∈ es, e ∈ n.operands) (c : Context) :
    Faults (n.Explains o) (Expr.onAll c es) := by
  induction es with
  | nil => exact .ok _
  | cons e es ih =>
    refine (explains_hear (h e List.mem_cons_self) c).bind fun items => ?_
    exact (ih fun e he => h e (List.mem_cons_of_mem _ he)).bind fun rest => .ok _

theorem explains_onFields (hn : n.IsPlain) {es : List Expr} (h : ∀ e ∈ es, e ∈ n.operands)
    (c : Context) (b : Machine.Building) : Faults (n.Explains o) (Expr.onFields c es b) := by
  induction es generalizing b with
  | nil => exact .ok _
  | cons e es ih =>
    refine (explains_hear (h e List.mem_cons_self) c).bind fun items => ?_
    refine (explains_raise hn (b.take_raises items) (by decide)).bind fun b => ?_
    exact ih (fun e he => h e (List.mem_cons_of_mem _ he)) b

end Node

namespace Expr

variable {x : Expr} {o : Output Tuple} {ks : List Error.Kind}

theorem explains_onPair (hx : (Node.operator x).IsPlain) {expression : String} {l r : Expr}
    (hs : x.singles = singles.sides expression l r) (hp : x.parts = [l, r]) (c : Context)
    {apply : Item → Item → Except Error Item} (ha : ∀ a b, Raises ks (apply a b))
    (hk : .flow ∉ ks) :
    Faults ((Node.operator x).Explains o) (onPair c expression l r apply) := by
  refine (Node.explains_operand (by simp [Node.singles, hs, singles.sides])
    (by simp [Node.operands, hp]) c).bind fun a => ?_
  refine (Node.explains_operand (by simp [Node.singles, hs, singles.sides])
    (by simp [Node.operands, hp]) c).bind fun b => ?_
  cases a with
  | none => exact .ok _
  | some a =>
    cases b with
    | none => exact .ok _
    | some b => exact Node.explains_raise hx ((ha a b).map _) hk

theorem explains_onSingle (hx : (Node.operator x).IsPlain) {cause : Error.Cause} {e : Expr}
    (hs : x.singles = [(e, cause)]) (hp : x.parts = [e]) (c : Context)
    {apply : Item → Except Error Item} (ha : ∀ a, Raises ks (apply a)) (hk : .flow ∉ ks) :
    Faults ((Node.operator x).Explains o) (onSingle c cause e apply) := by
  refine (Node.explains_operand (by simp [Node.singles, hs])
    (by simp [Node.operands, hp]) c).bind fun a => ?_
  cases a with
  | none => exact .ok _
  | some a => exact Node.explains_raise hx ((ha a).map _) hk

theorem explains_onStep (hx : (Node.operator x).IsPlain) {ρ : Type}
    {resolve : Items → Except Error ρ} {key input : Expr} (hp : x.parts = [input, key])
    (c : Context) (hr : ∀ items, Raises [.type] (resolve items)) :
    Faults ((Node.operator x).Explains o) (onStep c resolve key input) := by
  refine (Node.explains_hear (by simp [Node.operands, hp]) c).bind fun items => ?_
  refine (Node.explains_raise hx (hr items) (by decide)).bind fun _ => ?_
  exact Node.explains_part (by simp [Node.operands, hp]) c

theorem explains_range (p : Position) (l r : Expr) (c : Context) :
    Faults ((Node.operator (range p l r)).Explains o) ((range p l r).verdict c) := by
  have hn : (Node.operator (range p l r)).IsPlain := fun _ h => h
  refine (Node.explains_operand List.mem_cons_self List.mem_cons_self c).bind fun a => ?_
  refine (Node.explains_raise hn (Machine.rangeBound_raises a) (by decide)).bind fun m => ?_
  refine (Node.explains_operand (List.mem_cons_of_mem _ List.mem_cons_self)
    (List.mem_cons_of_mem _ List.mem_cons_self) c).bind fun b => ?_
  exact (Node.explains_raise hn (Machine.rangeBound_raises b) (by decide)).bind fun n => .ok _

theorem raises_of_raisedBySource {s : Source} {e : Error} (h : raisedBySource s = .error e) :
    s.Raises e := by
  unfold raisedBySource at h
  split at h
  case h_1 err hs =>
    cases h
    exact .inl hs
  case h_2 =>
    right
    generalize s.entries = entries at h
    induction entries with
    | nil => cases h
    | cons r rest ih =>
      rcases r with err | a
      · cases h
        exact List.mem_cons_self
      · refine List.mem_cons_of_mem _ (ih ?_)
        rw [← h, Output.ofEntries]
        obtain ⟨vs, _ | err⟩ := Output.ofEntries rest <;> rfl

theorem explains_logical (p : Position) (connective : Connective) (l r : Expr) (c : Context) :
    Faults ((Node.operator (logical p connective l r)).Explains o)
      ((logical p connective l r).verdict c) := by
  have hn : (Node.operator (logical p connective l r)).IsPlain := fun _ h => h
  refine (Node.explains_truth hn List.mem_cons_self c).bind fun b => ?_
  cases Machine.decided connective b with
  | some _ => exact .ok _
  | none =>
    exact (Node.explains_truth hn (List.mem_cons_of_mem _ List.mem_cons_self) c).map _

theorem explains_generalComparison (p : Position) (op : ComparisonOp) (l r : Expr) (c : Context) :
    Faults ((Node.operator (generalComparison p op l r)).Explains o)
      ((generalComparison p op l r).verdict c) := by
  have hn : (Node.operator (generalComparison p op l r)).IsPlain := fun _ h => h
  refine (Node.explains_hear List.mem_cons_self c).bind fun ls => ?_
  refine (Node.explains_hear (List.mem_cons_of_mem _ List.mem_cons_self) c).bind fun rs => ?_
  exact Node.explains_raise hn ((op.evaluateGeneral_raises _ ls rs).map _) (by decide)

theorem verdict_explained (x : Expr) (c : Context) :
    Faults ((Node.operator x).Explains (tuples x.clauses c)) (x.verdict c) := by
  cases x with
  | literal p items => exact .ok _
  | source p s => exact .raise fun e he => raises_of_raisedBySource he
  | comma p es => exact (Node.explains_onAll (fun _ he => he) c).map _
  | range p l r => exact explains_range p l r c
  | «variable» p name =>
    have hr : Raises [.static] (.error (.of (.unboundVariable name)) : Except Error Unit) :=
      .error List.mem_cons_self
    rw [verdict]
    split
    · exact .ok _
    · exact Node.explains_raise (by exact fun _ h => h) hr (by decide)
  | focus p =>
    have hr : Raises [.dynamic] (.error (.of .noFocus) : Except Error Unit) :=
      .error List.mem_cons_self
    rw [verdict]
    split
    · exact .ok _
    · exact Node.explains_raise (by exact fun _ h => h) hr (by decide)
  | additive p op l r =>
    have ha (a b : Item) :=
      Machine.ruled_raises (op.evaluate_raises c.implicitTimezone a b) op.symbol a b
    exact explains_onPair (by exact fun _ h => h) rfl rfl c ha (by decide)
  | multiplicative p op l r =>
    have ha (a b : Item) := Machine.ruled_raises (op.apply_raises a b) op.symbol a b
    exact explains_onPair (by exact fun _ h => h) rfl rfl c ha (by decide)
  | unary p op e =>
    exact explains_onSingle (by exact fun _ h => h) rfl rfl c op.apply_raises (by decide)
  | comparison p op l r =>
    have ha (a b : Item) := (op.evaluate_raises c.implicitTimezone a b).map Item.boolean
    exact explains_onPair (by exact fun _ h => h) rfl rfl c ha (by decide)
  | generalComparison p op l r => exact explains_generalComparison p op l r c
  | logical p connective l r => exact explains_logical p connective l r c
  | not p e =>
    exact (Node.explains_truth (by exact fun _ h => h) List.mem_cons_self c).map _
  | conditional p condition yes no =>
    refine (Node.explains_truth (by exact fun _ h => h) List.mem_cons_self c).bind fun b => ?_
    refine Node.explains_part ?_ c
    cases b <;> simp [Node.operands, parts]
  | object p fields => exact Node.explains_onFields (by exact fun _ h => h) (fun _ he => he) c _
  | array p content => exact (Node.explains_onAll (fun _ he => he) c).map _
  | field p input key =>
    exact explains_onStep (by exact fun _ h => h) rfl c Machine.lookupKey_raises
  | member p input position =>
    exact explains_onStep (by exact fun _ h => h) rfl c Machine.lookupPosition_raises
  | unbox p input => exact Node.explains_part List.mem_cons_self c
  | project p input keys =>
    exact explains_onStep (by exact fun _ h => h) rfl c Machine.projection_raises
  | map p input result =>
    refine Node.explains_visits (fun e he => ?_) fun v => ?_
    · exact .inr ⟨input, List.mem_cons_self, c, evaluate_eq_error.2 he⟩
    · exact Node.explains_part (List.mem_cons_of_mem _ List.mem_cons_self) _
  | duration p kind e =>
    exact explains_onSingle (by exact fun _ h => h) rfl rfl c kind.construct_raises (by decide)
  | call p f arguments =>
    refine (Node.explains_onAll (fun _ he => he) c).bind fun as => .raise fun e he => ?_
    refine ⟨c.callSite p, as, ?_⟩
    rcases hf : f.apply (c.callSite p) as with e' | items
    · rw [hf] at he
      cases he
      rfl
    · rw [hf] at he
      cases he
  | flwor p clauses result =>
    refine Node.explains_visits (fun e he => .inl he) fun t => ?_
    exact Node.explains_part List.mem_cons_self _

end Expr

namespace Clause

theorem groupKey_explained {n : Node} {o : Output Tuple} (hn : n.IsPlain) {k : GroupKey}
    (h : ∀ e, k.part? = some e → e ∈ n.operands) (c : Context) :
    Faults (n.Explains o) (groupKey c k) := by
  cases k with
  | existing name =>
    refine Node.explains_raise hn (?_ : Raises [.type, .static] _) (by decide)
    split
    · exact (Items.atomicKey_raises _ _).mono (by decide)
    · exact .error (List.mem_cons_of_mem _ List.mem_cons_self)
  | computed name e =>
    refine (Node.explains_hear (h e rfl) c).bind fun items => ?_
    exact Node.explains_raise hn (items.atomicKey_raises _) (by decide)

theorem sortKey_explained {n : Node} {o : Output Tuple} (hn : n.IsPlain) {k : SortKey}
    (h : k.part ∈ n.operands) (c : Context) : Faults (n.Explains o) (sortKey c k) := by
  obtain ⟨e, order⟩ := k
  refine (Node.explains_hear h c).bind fun items => ?_
  exact Node.explains_raise hn (items.atomicKey_raises _) (by decide)

theorem verdict_explained (k : Clause) (o : Output Tuple) (c : Context) :
    Faults ((Node.clause k).Explains o) (k.verdict o c) := by
  have hn : (Node.clause k).IsPlain := fun _ h => h
  have ho (e : Error) (he : o.failure = some e) : (Node.clause k).Hears o e := .inl he
  cases k with
  | each p name place allowingEmpty e =>
    exact Node.explains_visits ho fun t => Node.explains_part List.mem_cons_self _
  | bind p name e =>
    exact Node.explains_visits ho fun t => Node.explains_part List.mem_cons_self _
  | filter p e =>
    exact Node.explains_visits ho fun t => (Node.explains_truth hn List.mem_cons_self _).map _
  | group p keys =>
    refine (Node.explains_gathers fun t => ?_).bind fun rows => ?_
    · refine (Faults.mapM fun k hk => groupKey_explained hn (fun e he => ?_) _).map _
      exact List.mem_filterMap.2 ⟨k, hk, he⟩
    · exact Node.explains_raise hn ((Group.ofRows_raises _ _ rows).map _) (by decide)
  | order p keys =>
    refine (Node.explains_gathers fun t => ?_).bind fun rows => ?_
    · refine (Faults.mapM fun k hk => sortKey_explained hn ?_ _).map _
      exact List.mem_map_of_mem hk
    · exact Node.explains_raise hn ((Sort.tuples_raises _ _ rows).map _) (by decide)
  | count p name => exact Node.explains_ended ho ()

end Clause

theorem Fault.exists_of_ended {p : Position} {o : Output ω} {r : Except Fault Unit}
    (h : o.ended = settle p r) {err : Error} (he : o.failure = some err) :
    ∃ f, r = .error f ∧ err = f.error p := by
  rw [Output.ended_eq_error.2 he] at h
  rcases r with f | _
  · exact ⟨f, rfl, Except.error.inj h⟩
  · cases h

namespace Node

variable {n m : Node}

/-- An error that goes out of the node is one that its tree emits, or for a clause the one that ends
the tuples before it. -/
def Traces : Node → Prop
  | .operator x => ∀ c err, (x.output c).failure = some err → (Node.operator x).Emits err
  | .clause k => ∀ o c err, (k.output o c).failure = some err →
    (∃ e, o.failure = some e ∧ err = e.locate k.position) ∨ (Node.clause k).Emits err

theorem pipeline_traces {ks : List Clause} (hk : ∀ k ∈ ks, (Node.clause k).Traces) (c : Context)
    {o : Output Tuple} (ho : ∀ e, o.failure = some e → ∀ p, e.locate p = e) {err : Error}
    (h : (pipelineOutput ks o c).failure = some err) :
    o.failure = some err ∨ ∃ k ∈ ks, (Node.clause k).Emits err := by
  induction ks generalizing o with
  | nil =>
    rw [pipelineOutput] at h
    exact .inl h
  | cons k ks ih =>
    have hc (e : Error) (he : (k.output o c).failure = some e) :
        o.failure = some e ∨ (Node.clause k).Emits e := by
      obtain ⟨e', he', hl⟩ | he := hk k List.mem_cons_self o c e he
      · rw [hl, ho e' he']
        exact .inl he'
      · exact .inr he
    rw [pipelineOutput] at h
    have hl (e : Error) (he : (k.output o c).failure = some e) (p : Position) : e.locate p = e :=
      (hc e he).elim (fun h => ho e h p) fun h => h.locate_eq p
    obtain he | ⟨l, hm, he⟩ := ih (fun l hm => hk l (List.mem_cons_of_mem _ hm)) hl h
    · exact (hc err he).imp_right fun he => ⟨k, List.mem_cons_self, he⟩
    · exact .inr ⟨l, List.mem_cons_of_mem _ hm, he⟩

theorem tuples_traces {ks : List Clause} (hk : ∀ k ∈ ks, (Node.clause k).Traces) {c : Context}
    {err : Error} (h : (Expr.tuples ks c).failure = some err) :
    ∃ k ∈ ks, (Node.clause k).Emits err := by
  have ho (e : Error) : (Output.ofList [Tuple.empty]).failure ≠ some e := fun he => nomatch he
  exact (pipeline_traces hk c (fun e he => absurd he (ho e)) h).resolve_left (ho err)

theorem Explains.emits {o : Output Tuple} {f : Fault} (h : n.Explains o f)
    (hh : ∀ e, f = .heard e → n.Emits e) : n.Emits (f.error n.position) := by
  cases f with
  | raised e => exact ⟨n, .refl, e, h, rfl⟩
  | heard e =>
    have he := hh e rfl
    rw [Fault.error, he.locate_eq]
    exact he
  | replaced e cause =>
    obtain ⟨-, y, hy, -⟩ := h
    have hk : cause.kind ≠ .flow := by
      rw [kind_of_singles hy]
      decide
    exact ⟨n, .refl, .of cause, isPlain_of_singles hy _ ⟨rfl, hk⟩, rfl⟩

theorem emits_of_answer (h : ∀ m, n.Above m → m.Traces) {y : Expr} (hy : y ∈ n.operands)
    {c : Context} {e : Error} (he : y.evaluate c = .error e) : n.Emits e := by
  have ha : n.Above (.operator y) := .inl ⟨y, hy, rfl⟩
  exact Emits.of_above (h _ ha c e (Expr.evaluate_eq_error.1 he)) ha

theorem traces (n : Node) : n.Traces := by
  -- On the size, since expressions and clauses hold one another inside lists.
  induction n using (measure fun n : Node => sizeOf n).wf.induction with
  | _ n ih =>
    have ih (m : Node) (h : n.Above m) : m.Traces := ih m h.sizeOf_lt
    cases n with
    | operator x =>
      intro c err herr
      obtain ⟨f, hf, rfl⟩ := Fault.exists_of_ended (x.ended_eq c) herr
      have hx := x.verdict_explained c f hf
      refine hx.emits fun e he => ?_
      subst he
      obtain he | ⟨y, hy, d, he⟩ := hx
      · obtain ⟨k, hk, he⟩ := tuples_traces (fun k hk => ih _ (.inr ⟨k, hk, rfl⟩)) he
        exact he.of_above (.inr ⟨k, hk, rfl⟩)
      · exact emits_of_answer ih hy he
    | clause k =>
      intro o c err herr
      obtain ⟨f, hf, rfl⟩ := Fault.exists_of_ended (k.ended_eq o c) herr
      have hk := k.verdict_explained o c f hf
      -- What is heard from the tuples before the clause is no error of its tree.
      by_cases ho : ∃ e, f = .heard e ∧ o.failure = some e
      · obtain ⟨e, rfl, he⟩ := ho
        exact .inl ⟨e, he, rfl⟩
      · refine .inr (hk.emits fun e he => ?_)
        subst he
        obtain he | ⟨y, hy, d, he⟩ := hk
        · exact absurd ⟨e, rfl, he⟩ ho
        · exact emits_of_answer ih hy he

end Node

theorem Expr.emits_of_failure {x : Expr} {c : Context} {err : Error}
    (h : (x.output c).failure = some err) : (Node.operator x).Emits err :=
  (Node.operator x).traces c err h

theorem Clause.emits_of_failure {clauses : List Clause} {c : Context} {err : Error}
    (h : (Expr.tuples clauses c).failure = some err) : ∃ k ∈ clauses, (Node.clause k).Emits err :=
  Node.tuples_traces (fun _ _ => Node.traces _) h

end PullQuery
