import Mathlib.Data.List.Nodup
import PullQuery.Builtin
import PullQuery.Proofs.Arithmetic
import PullQuery.Proofs.Expr.Output

namespace PullQuery

variable {α β : Type}

theorem mapM_of_error {f : α → Except Error β} {before after : List α} {a : α} {e : Error}
    (hb : ∀ d ∈ before, ∃ b, f d = .ok b) (ha : f a = .error e) :
    (before ++ a :: after).mapM f = .error e := by
  induction before with
  | nil => rw [List.nil_append, List.mapM_cons, ha]; rfl
  | cons d ds ih =>
    obtain ⟨b, hd⟩ := hb d List.mem_cons_self
    rw [List.cons_append, List.mapM_cons, hd, ih fun d hd => hb d (List.mem_cons_of_mem _ hd)]
    rfl

theorem exists_of_mapM_error {f : α → Except Error β} {as : List α} {e : Error}
    (h : as.mapM f = .error e) : ∃ before a after, as = before ++ a :: after ∧
      (∀ d ∈ before, ∃ b, f d = .ok b) ∧ f a = .error e := by
  induction as with
  | nil => cases h
  | cons a as ih =>
    rw [List.mapM_cons] at h
    rcases ha : f a with e' | b
    · rw [ha] at h
      cases h
      exact ⟨[], a, as, rfl, by simp, ha⟩
    · rw [ha] at h
      rcases hm : as.mapM f with e' | bs
      · rw [hm] at h
        cases h
        obtain ⟨before, a', after, rfl, hb, ha'⟩ := ih hm
        refine ⟨a :: before, a', after, rfl, fun d hd => ?_, ha'⟩
        obtain rfl | hd := List.mem_cons.1 hd
        · exact ⟨b, ha⟩
        · exact hb d hd
      · rw [hm] at h
        cases h

theorem eq_of_split {f : α → β} {as bs cs ds : List α} {a b : α}
    (h : as ++ a :: bs = cs ++ b :: ds) (hn : ((as ++ a :: bs).map f).Nodup) (hf : f a = f b) :
    as = cs ∧ a = b := by
  have hab : a = b := List.inj_on_of_nodup_map hn (by simp) (h ▸ by simp) hf
  have ha := (List.nodup_cons.1 (List.nodup_middle.1 (List.Nodup.of_map f hn))).1
  rw [List.mem_append, not_or, hab] at ha
  obtain ⟨hc, -⟩ := (List.append_cons_inj_of_notMem ha.1 ha.2).1 h
  exact ⟨hc, hab⟩

namespace Output

variable {several : Error.Cause} {o : Output Item} {e : Error}

/-- An operand is blamed for an item after the first, for an error after the first item, and for an
error of its own that is of cardinality. -/
def Blamed (o : Output Item) : Prop :=
  2 ≤ o.values.length ∨ ∃ e, o.failure = some e ∧ (o.values ≠ [] ∨ e.kind = .cardinality)

theorem operand_of_blamed (h : o.Blamed) : o.operand several = .error (.of several) := by
  obtain ⟨_ | ⟨a, _ | ⟨b, vs⟩⟩, _ | e⟩ := o
  · simp [Blamed] at h
  · have hk : e.kind = .cardinality := by simpa [Blamed] using h
    exact congrArg Except.error (if_pos hk)
  · simp [Blamed] at h
  all_goals exact congrArg Except.error (ite_self _)

theorem cases_of_not_blamed (h : ¬o.Blamed) :
    (∃ a : Option Item, o = .ofList a.toList) ∨ ∃ e, o = .fail e ∧ e.kind ≠ .cardinality := by
  obtain ⟨_ | ⟨a, _ | ⟨b, vs⟩⟩, _ | e⟩ := o
  · exact .inl ⟨none, rfl⟩
  · exact .inr ⟨e, rfl, fun hk => h (.inr ⟨e, rfl, .inr hk⟩)⟩
  · exact .inl ⟨some a, rfl⟩
  all_goals simp [Blamed] at h

theorem operand_ofList (several : Error.Cause) (a : Option Item) :
    (ofList a.toList).operand several = .ok a := by
  cases a <;> rfl

theorem operand_fail (several : Error.Cause) (h : e.kind ≠ .cardinality) :
    (fail e).operand several = .error e := congrArg Except.error (if_neg h)

theorem operand_of_atMostOne (several : Error.Cause) {a : Option Item}
    (h : o.atMostOne e = .ok a) : o.operand several = .ok a := by
  obtain ⟨_ | ⟨a, _ | ⟨b, vs⟩⟩, _ | e⟩ := o <;> cases h <;> rfl

theorem atMostOne_of_operand {a : Option Item} (h : o.operand several = .ok a) :
    o.atMostOne e = .ok a := by
  obtain ⟨_ | ⟨a, _ | ⟨b, vs⟩⟩, _ | e⟩ := o <;> cases h <;> rfl

theorem operand_error_cases (h : o.operand several = .error e) :
    o.Blamed ∧ e = .of several ∨ o = .fail e ∧ e.kind ≠ .cardinality := by
  by_cases hb : o.Blamed
  · rw [operand_of_blamed hb] at h
    cases h
    exact .inl ⟨hb, rfl⟩
  · obtain ⟨a, rfl⟩ | ⟨e', rfl, hk⟩ := cases_of_not_blamed hb
    · rw [operand_ofList] at h
      cases h
    · rw [operand_fail several hk] at h
      cases h
      exact .inr ⟨rfl, hk⟩

end Output

theorem Scan.run_located {ω : Type} {m : Machine ω} (s : Scan m.toOperator) (c : Context) :
    s.run c = (Output.ofOpening (m.begin c s.halt.state)).locate m.position := by
  rw [Scan.run, Scan.opening_eq, Output.ofOpening_locate]

namespace Expr

def singles : Expr → List (Expr × Error.Cause)
  | .range _ l r => sides "Range" l r
  | .additive _ _ l r => sides "Addition" l r
  | .multiplicative _ _ l r => sides "Multiplicative" l r
  | .comparison _ _ l r => sides "Comparison" l r
  | .unary _ _ e => [(e, .severalOperandItems "Unary" "")]
  | .duration _ kind e => [(e, .severalConstructorItems kind.name)]
  | _ => []
where
  sides (expression : String) (l r : Expr) : List (Expr × Error.Cause) :=
    [(l, .severalOperandItems expression "left"), (r, .severalOperandItems expression "right")]

def check : Expr → Option Item → Except Error Unit
  | .range .., a => (Machine.rangeBound a).map fun _ => ()
  | _, _ => .ok ()

def take (x : Expr) (c : Context) (d : Expr × Error.Cause) : Except Error (Option Item) := do
  let a ← (d.1.output c).operand d.2
  x.check a
  .ok a

theorem take_of_check {x : Expr} (h : ∀ a, x.check a = .ok ()) (c : Context)
    (d : Expr × Error.Cause) : x.take c d = (d.1.output c).operand d.2 := by
  rw [take]
  rcases (d.1.output c).operand d.2 with e | a
  · rfl
  · change (x.check a).bind (fun _ => .ok a) = .ok a
    rw [h]
    rfl

def Makes (x : Expr) (c : Context) (f : List (Option Item) → Except Error Items) : Prop :=
  (∀ as, Raises [.type, .cast, .dynamic] (f as)) ∧
    x.evaluate c = ((x.singles.mapM (x.take c)).bind f).mapError (·.locate x.position)

theorem makes_of_sides {x l r : Expr} {expression : String} {c : Context}
    {g : Option Item → Option Item → Except Error Items}
    (hs : x.singles = singles.sides expression l r)
    (hg : ∀ a b, Raises [.type, .cast, .dynamic] (g a b))
    (hx : x.output c = (Output.ofExcept do
      let a ← x.take c (l, .severalOperandItems expression "left")
      let b ← x.take c (r, .severalOperandItems expression "right")
      g a b).locate x.position) :
    x.Makes c fun as => g as[0]?.join as[1]?.join := by
  refine ⟨fun as => hg _ _, ?_⟩
  rw [evaluate_eq, hx, collect_locate_ofExcept, hs, singles.sides, List.mapM_cons, List.mapM_cons]
  rcases x.take c (l, .severalOperandItems expression "left") with e | a
  · rfl
  · rcases x.take c (r, .severalOperandItems expression "right") with e | b <;> rfl

def onBoth (f : Item → Item → Except Error Item) : Option Item → Option Item → Except Error Items
  | some a, some b => (f a b).map ([·])
  | _, _ => .ok []

theorem onBoth_raises {ks : List Error.Kind} {f : Item → Item → Except Error Item}
    (h : ∀ a b, Raises ks (f a b)) (a b : Option Item) : Raises ks (onBoth f a b) := by
  cases a with
  | none => exact .ok _
  | some a =>
    cases b with
    | none => exact .ok _
    | some b => exact (h a b).map _

def onOne (f : Item → Except Error Item) : Option Item → Except Error Items
  | some a => (f a).map ([·])
  | none => .ok []

theorem onOne_raises {ks : List Error.Kind} {f : Item → Except Error Item}
    (h : ∀ a, Raises ks (f a)) (a : Option Item) : Raises ks (onOne f a) := by
  cases a with
  | none => exact .ok _
  | some a => exact (h a).map _

def counted : Option Int → Option Int → Except Error Items
  | some m, some n =>
    .ok ((List.range (n + 1 - m).toNat).map fun (i : Nat) => Item.ofInt (m + i))
  | _, _ => .ok []

theorem counted_raises {ks : List Error.Kind} (m n : Option Int) : Raises ks (counted m n) := by
  cases m with
  | none => exact .ok _
  | some m => cases n <;> exact .ok _

def onBounds (a b : Option Item) : Except Error Items := do
  let m ← Machine.rangeBound a
  let n ← Machine.rangeBound b
  counted m n

theorem onBounds_raises (a b : Option Item) :
    Raises [.type, .cast, .dynamic] (onBounds a b) := by
  refine ((Machine.rangeBound_raises a).mono (by simp)).bind fun m => ?_
  refine ((Machine.rangeBound_raises b).mono (by simp)).bind fun n => ?_
  exact counted_raises m n

theorem onBounds_of_ok {a b : Option Item} {m n : Option Int} (ha : Machine.rangeBound a = .ok m)
    (hb : Machine.rangeBound b = .ok n) : onBounds a b = counted m n :=
  congrArg₂ (fun r s => Except.bind r fun m => Except.bind s fun n => counted m n) ha hb

theorem binary_eq (expression : String) (f : Item → Item → Except Error Item)
    (l r : Output Item) : Output.binary expression f l r = .ofExcept (do
      let a ← l.operand (.severalOperandItems expression "left")
      let b ← r.operand (.severalOperandItems expression "right")
      onBoth f a b) := by
  rw [Output.binary, Output.operands]
  rcases l.operand _ with e | a
  · rfl
  · rcases r.operand _ with e | b
    · rfl
    · cases a with
      | none => rfl
      | some a => cases b <;> rfl

theorem makes_of_binary {x l r : Expr} {expression : String} {c : Context}
    {f : Item → Item → Except Error Item}
    (hs : x.singles = singles.sides expression l r) (hc : ∀ a, x.check a = .ok ())
    (hf : ∀ a b, Raises [.type, .cast, .dynamic] (f a b))
    (hx : x.output c =
      (Output.binary expression f (l.output c) (r.output c)).locate x.position) :
    x.Makes c fun as => onBoth f as[0]?.join as[1]?.join := by
  refine makes_of_sides hs (onBoth_raises hf) ?_
  rw [hx, binary_eq, take_of_check hc, take_of_check hc]

theorem makes_of_single {x e : Expr} {cause : Error.Cause} {c : Context}
    {f : Item → Except Error Item} (hs : x.singles = [(e, cause)]) (hc : ∀ a, x.check a = .ok ())
    (hf : ∀ a, Raises [.type, .cast, .dynamic] (f a))
    (hx : x.output c = (Output.unary cause f (e.output c)).locate x.position) :
    x.Makes c fun as => onOne f as[0]?.join := by
  refine ⟨fun as => onOne_raises hf _, ?_⟩
  rw [evaluate_eq, hx, Output.unary, collect_locate_ofExcept, hs, List.mapM_cons, take_of_check hc]
  rcases (e.output c).operand cause with e | (_ | a) <;> rfl

theorem range_output (p : Position) (l r : Expr) (c : Context) :
    (range p l r).output c = (Output.ofExcept do
      let a ← (range p l r).take c (l, .severalOperandItems "Range" "left")
      let b ← (range p l r).take c (r, .severalOperandItems "Range" "right")
      onBounds a b).locate p := by
  rw [output, Output.range]
  simp only [take, check, bind, Except.bind, Except.map]
  rcases (l.output c).operand _ with e | a
  · rfl
  · rcases ha : Machine.rangeBound a with e | m
    · simp only [ha]
    · rcases (r.output c).operand _ with e | b
      · simp only [ha]
      · rcases hb : Machine.rangeBound b with e | n
        · simp only [ha, hb]
        · simp only [ha, hb]
          exact congrArg (fun r => (Output.ofExcept r).locate p) (onBounds_of_ok ha hb).symm

theorem exists_makes {x : Expr} (c : Context) (h : x.singles ≠ []) : ∃ f, x.Makes c f := by
  cases x with
  | additive p op l r =>
    refine ⟨_, makes_of_binary rfl (fun _ => rfl) (fun a b => ?_) (by rw [output]; rfl)⟩
    have ha := Machine.ruled_raises (op.evaluate_raises c.implicitTimezone a b) op.symbol a b
    exact ha.mono (by simp)
  | multiplicative p op l r =>
    refine ⟨_, makes_of_binary rfl (fun _ => rfl) (fun a b => ?_) (by rw [output]; rfl)⟩
    exact (Machine.ruled_raises (op.apply_raises a b) op.symbol a b).mono (by simp)
  | comparison p op l r =>
    refine ⟨_, makes_of_binary rfl (fun _ => rfl) (fun a b => ?_) (by rw [output]; rfl)⟩
    exact ((op.evaluate_raises c.implicitTimezone a b).map _).mono (by simp)
  | unary p op e =>
    refine ⟨_, makes_of_single rfl (fun _ => rfl) (fun a => ?_) (by rw [output]; rfl)⟩
    exact (op.apply_raises a).mono (by simp)
  | duration p kind e =>
    refine ⟨_, makes_of_single rfl (fun _ => rfl) (fun a => ?_) (by rw [output]; rfl)⟩
    exact (kind.construct_raises a).mono (by simp)
  | range p l r => exact ⟨_, makes_of_sides rfl onBounds_raises (range_output p l r c)⟩
  | _ => exact absurd rfl h

theorem check_raises (x : Expr) (a : Option Item) : Raises [.type] (x.check a) := by
  cases x with
  | range => exact (Machine.rangeBound_raises a).map _
  | _ => exact .ok _

theorem take_eq (x : Expr) (c : Context) (d : Expr × Error.Cause) : x.take c d =
    ((d.1.output c).operand d.2).bind fun a => (x.check a).map fun _ => a := by
  rw [take]
  rcases (d.1.output c).operand d.2 with e | a
  · rfl
  · change (x.check a).bind (fun _ => .ok a) = (x.check a).map fun _ => a
    cases x.check a <;> rfl

theorem take_of_operand_error {x : Expr} {c : Context} {d : Expr × Error.Cause} {err : Error}
    (h : (d.1.output c).operand d.2 = .error err) : x.take c d = .error err := by
  rw [take_eq, h]
  rfl

theorem take_error_cases {x : Expr} {c : Context} {d : Expr × Error.Cause} {err : Error}
    (h : x.take c d = .error err) :
    (d.1.output c).operand d.2 = .error err ∨ ∃ a, x.check a = .error err := by
  rw [take_eq] at h
  rcases ho : (d.1.output c).operand d.2 with e | a
  · rw [ho] at h
    exact .inl h
  · rw [ho] at h
    have hm : (x.check a).map (fun _ => a) = .error err := h
    rcases hc : x.check a with e | _
    · rw [hc] at hm
      cases hm
      exact .inr ⟨a, hc⟩
    · rw [hc] at hm
      cases hm

def Passes (x : Expr) (c : Context) (ds : List (Expr × Error.Cause)) : Prop :=
  ∀ d ∈ ds, ∃ a, d.1.evaluateAtMostOne c = .ok a ∧ x.check a = .ok ()

theorem take_ok_iff {x : Expr} {c : Context} {d : Expr × Error.Cause} : (∃ a, x.take c d = .ok a) ↔
    ∃ a, d.1.evaluateAtMostOne c = .ok a ∧ x.check a = .ok () := by
  rw [take_eq, evaluateAtMostOne_eq]
  constructor
  · rintro ⟨a, h⟩
    rcases ho : (d.1.output c).operand d.2 with e | b
    · rw [ho] at h
      cases h
    · rw [ho] at h
      have hm : (x.check b).map (fun _ => b) = .ok a := h
      rcases hc : x.check b with e | _
      · rw [hc] at hm
        cases hm
      · exact ⟨b, Output.atMostOne_of_operand ho, hc⟩
  · rintro ⟨a, ha, hc⟩
    refine ⟨a, ?_⟩
    rw [Output.operand_of_atMostOne d.2 ha]
    exact congrArg (Except.map fun _ => a) hc

theorem passes_iff {x : Expr} {c : Context} {ds : List (Expr × Error.Cause)} :
    x.Passes c ds ↔ ∀ d ∈ ds, ∃ a, x.take c d = .ok a :=
  forall₂_congr fun _ _ => take_ok_iff.symm

theorem singles_nodup (x : Expr) : (x.singles.map Prod.snd).Nodup := by
  cases x <;> simp [singles, singles.sides]

theorem kind_of_mem_singles {x : Expr} {d : Expr × Error.Cause} (h : d ∈ x.singles) :
    d.2.kind = .cardinality := by
  cases x <;> simp only [singles, singles.sides, List.mem_cons, List.not_mem_nil, or_false] at h
  all_goals
    rcases h with rfl | rfl
    all_goals rfl

theorem locate_failure {e : Expr} {c : Context} {err : Error}
    (h : (e.output c).failure = some err) (p : Position) : err.locate p = err := by
  rw [← run_eq, Scan.run_located] at h
  obtain ⟨err', -, rfl⟩ := Option.map_eq_some_iff.1 h
  exact Error.locate_locate _ _ _

section

variable {x : Expr} {c : Context} {f : List (Option Item) → Except Error Items} {err : Error}
  {d : Expr × Error.Cause} {before after : List (Expr × Error.Cause)}

theorem evaluate_of_take_error (hx : x.Makes c f) (h : x.singles = before ++ d :: after)
    (hp : x.Passes c before) (ht : x.take c d = .error err) :
    x.evaluate c = .error (err.locate x.position) := by
  rw [hx.2, h, mapM_of_error (passes_iff.1 hp) ht]
  rfl

theorem mapM_error_of_evaluate (hx : x.Makes c f) (hv : x.evaluate c = .error err)
    (hk : err.kind = .cardinality) :
    ∃ e, x.singles.mapM (x.take c) = .error e ∧ e.cause = err.cause := by
  rw [hx.2] at hv
  rcases hm : x.singles.mapM (x.take c) with e | as
  · rw [hm] at hv
    cases hv
    exact ⟨e, rfl, rfl⟩
  · rw [hm] at hv
    have hv : (f as).mapError (·.locate x.position) = .error err := hv
    rcases hf : f as with e | items
    · rw [hf] at hv
      cases hv
      have hn := (hx.1 as e hf).2
      rw [show e.kind = .cardinality from hk] at hn
      simp at hn
    · rw [hf] at hv
      cases hv

theorem blamed_of_take_error (ht : x.take c d = .error err) (hk : err.kind = .cardinality) :
    (d.1.output c).Blamed ∧ err.cause = d.2 := by
  obtain ho | ⟨a, ha⟩ := take_error_cases ht
  · obtain ⟨hb, rfl⟩ | ⟨-, hn⟩ := Output.operand_error_cases ho
    · exact ⟨hb, rfl⟩
    · exact absurd hk hn
  · have hn := (x.check_raises a err ha).2
    rw [hk] at hn
    simp at hn

end

theorem operand_errors {x e : Expr} {cause : Error.Cause} {before after : List (Expr × Error.Cause)}
    (c : Context) (h : x.singles = before ++ (e, cause) :: after) :
    (x.evaluate c = .error ((Error.of cause).locate x.position) ↔
      x.Passes c before ∧ (e.scan.run c).Blamed) ∧
    ∀ err, x.Passes c before → e.scan.run c = .fail err → err.kind ≠ .cardinality →
      x.evaluate c = .error err := by
  obtain ⟨f, hx⟩ := exists_makes c (x := x) (by simp [h])
  have hk : cause.kind = .cardinality := kind_of_mem_singles (x := x) (d := (e, cause)) (by simp [h])
  rw [run_eq]
  refine ⟨⟨fun hv => ?_, fun ⟨hp, hb⟩ => ?_⟩, fun err hp ho hn => ?_⟩
  · -- The operand that raised the error is the one that it names: no two have one error.
    obtain ⟨e₀, hm, hcause⟩ := mapM_error_of_evaluate hx hv hk
    obtain ⟨before', d, after', hd, hb, ht⟩ := exists_of_mapM_error hm
    have hk₀ : e₀.kind = .cardinality := (congrArg Error.Cause.kind hcause).trans hk
    obtain ⟨hbl, hc⟩ := blamed_of_take_error ht hk₀
    obtain ⟨rfl, rfl⟩ :=
      eq_of_split (h.symm.trans hd) (h ▸ x.singles_nodup) (hcause.symm.trans hc)
    exact ⟨passes_iff.2 hb, hbl⟩
  · exact evaluate_of_take_error hx h hp (take_of_operand_error (Output.operand_of_blamed hb))
  · have ht : x.take c (e, cause) = .error err :=
      take_of_operand_error (by rw [ho, Output.operand_fail cause hn])
    rw [evaluate_of_take_error hx h hp ht, locate_failure (by rw [ho]; rfl)]

theorem operand_errors_after_item :
    let p (n : Nat) : Position := ⟨1, n⟩
    let late : Expr := .comma (p 2) [.constant (p 3) (.int 1), .variable (p 4) "x"]
    let one : Expr := .constant (p 5) (.int 1)
    let now : DateTime := ⟨⟨2024, 1, 2, by decide, by decide, by decide⟩, .midnight⟩
    let c : Context := .root ⟨.utc, ⟨now, .utc⟩, .builtin⟩ .empty
    let x : Expr := .additive (p 1) .add late one
    let cause : Error.Cause := .severalOperandItems "Addition" "left"
    x.singles = [] ++ (late, cause) :: [(one, .severalOperandItems "Addition" "right")] ∧
      late.scan.run c = ⟨[.int 1], some ⟨.unboundVariable "x", some (p 4)⟩⟩ ∧
      x.evaluate c = .error ⟨cause, some (p 1)⟩ := by
  intro p late one now c x cause
  have hs : x.singles = [] ++ (late, cause) :: [(one, .severalOperandItems "Addition" "right")] := rfl
  have ho : late.scan.run c = ⟨[.int 1], some ⟨.unboundVariable "x", some (p 4)⟩⟩ := by
    rw [run_eq]
    rfl
  refine ⟨hs, ho, (operand_errors c hs).1.2 ⟨by simp [Passes], .inr ⟨_, congrArg _ ho, .inl ?_⟩⟩⟩
  rw [ho]
  exact List.cons_ne_nil _ _

theorem missing_item_blamed_as_second :
    let p (n : Nat) : Position := ⟨1, n⟩
    let missing : Expr :=
      .call (p 2) (Builtin.onItems "exactly-one" Builtin.exactlyOne) [.empty (p 3)]
    let now : DateTime := ⟨⟨2024, 1, 2, by decide, by decide, by decide⟩, .midnight⟩
    let c : Context := .root ⟨.utc, ⟨now, .utc⟩, .builtin⟩ .empty
    missing.scan.run c = .fail ⟨.notExactlyOne 0, some (p 2)⟩ ∧
      (Expr.additive (p 1) .add missing (.constant (p 4) (.int 1))).evaluate c =
        .error ⟨.severalOperandItems "Addition" "left", some (p 1)⟩ := by
  intro p missing now c
  constructor
  · rw [run_eq]
    rfl
  · rw [evaluate_eq]
    rfl

end Expr

end PullQuery
