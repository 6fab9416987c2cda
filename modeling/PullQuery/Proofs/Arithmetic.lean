import PullQuery.Machine.Primary

namespace PullQuery

variable {α β : Type} {ks : List Error.Kind}

def Raises (ks : List Error.Kind) (r : Except Error α) : Prop :=
  ∀ e, r = .error e → e.position = none ∧ e.kind ∈ ks

namespace Raises

theorem ok (a : α) : Raises ks (.ok a) := nofun

theorem error {cause : Error.Cause} (h : cause.kind ∈ ks) :
    Raises ks (.error (.of cause) : Except Error α) := by
  rintro _ ⟨⟩
  exact ⟨rfl, h⟩

theorem bind {r : Except Error α} {f : α → Except Error β} (h : Raises ks r)
    (hf : ∀ a, Raises ks (f a)) : Raises ks (r >>= f) := by
  rcases r with e | a
  · rintro _ ⟨⟩
    exact h e rfl
  · exact hf a

theorem map {r : Except Error α} (h : Raises ks r) (f : α → β) : Raises ks (r.map f) := by
  rcases r with e | a
  · rintro _ ⟨⟩
    exact h e rfl
  · exact ok _

theorem mono {js : List Error.Kind} {r : Except Error α} (h : Raises js r)
    (hs : ∀ k ∈ js, k ∈ ks) : Raises ks r := fun e he => ⟨(h e he).1, hs _ (h e he).2⟩

end Raises

namespace Arithmetic

theorem overflowing_raises (o : Option α) : Raises [.dynamic] (overflowing o) := by
  cases o with
  | none => exact .error List.mem_cons_self
  | some a => exact .ok a

theorem neg_raises (o : Offset) : Raises [.dynamic] o.neg := by
  cases o with
  | months m => exact (overflowing_raises _).map _
  | span d => exact .ok _

theorem move_raises (point : Item) (o : Offset) : Raises [.dynamic] (move point o) := by
  unfold move
  split
  · exact (overflowing_raises _).map _
  · split
    · exact .ok _
    · exact .ok _
  · exact (overflowing_raises _).map _
  · exact .ok _

theorem difference_raises (z : Zone) (l r : Item) : Raises [.dynamic] (difference z l r) := by
  unfold difference
  split
  · split
    · exact (overflowing_raises _).map _
    · exact .ok _
  · exact .ok _

theorem additiveTemporal_raises (op : AdditiveOp) (z : Zone) (l r : Item) :
    Raises [.dynamic] (additiveTemporal op z l r) := by
  unfold additiveTemporal
  split
  · exact (overflowing_raises _).map _
  · exact (overflowing_raises _).map _
  · split
    · split
      · exact move_raises _ _
      · exact move_raises _ _
      · exact .ok _
    · split
      · split
        · exact (neg_raises _).bind fun _ => move_raises _ _
        · exact .ok _
      · exact difference_raises _ _ _

theorem scalar_raises (n : Item) : Raises [.dynamic] (scalar n) := by
  unfold scalar
  split
  · split
    · exact .ok _
    · exact .error List.mem_cons_self
    · exact .error List.mem_cons_self
  · exact .error List.mem_cons_self

theorem inverse_raises (x : Float) : Raises [.dynamic] (inverse x) := by
  unfold inverse
  split
  · exact .error List.mem_cons_self
  · exact .ok _

theorem scale_raises (duration n : Item) : Raises [.dynamic] (scale duration n) := by
  unfold scale
  split
  · exact (scalar_raises n).bind fun _ => (overflowing_raises _).bind fun _ => .ok _
  · exact (scalar_raises n).bind fun _ => (overflowing_raises _).bind fun _ => .ok _
  · exact .ok _

theorem unscale_raises (duration n : Item) : Raises [.dynamic] (unscale duration n) := by
  have hs : Raises [.dynamic] ((scalar n).bind inverse) := (scalar_raises n).bind inverse_raises
  unfold unscale
  split
  · exact hs.bind fun _ => (overflowing_raises _).bind fun _ => .ok _
  · exact hs.bind fun _ => (overflowing_raises _).bind fun _ => .ok _
  · exact .ok _

theorem ratio_raises (l r : Int) : Raises [.dynamic] (ratio l r) := by
  unfold ratio
  split
  · exact .error List.mem_cons_self
  · exact .ok _

theorem unlessZero_raises (zero : Bool) (a : Item) : Raises [.dynamic] (unlessZero zero a) := by
  unfold unlessZero
  split
  · exact .error List.mem_cons_self
  · exact .ok _

theorem wholeQuotient_raises (x y : Float) : Raises [.dynamic] (wholeQuotient x y) := by
  dsimp only [wholeQuotient]
  split
  · exact .error List.mem_cons_self
  · split
    · exact .error List.mem_cons_self
    · split
      · exact .ok _
      · exact .error List.mem_cons_self

theorem multiplicativeDecimals_raises (op : MultiplicativeOp) (a b : Decimal) :
    Raises [.dynamic] (multiplicativeDecimals op a b) := by
  cases op with
  | multiply => exact .ok _
  | divide => exact unlessZero_raises _ _
  | integerDivide => exact unlessZero_raises _ _
  | modulo => exact unlessZero_raises _ _

theorem multiplicativeTemporal_raises (op : MultiplicativeOp) (l r : Item) :
    Raises [.dynamic] (multiplicativeTemporal op l r) := by
  unfold multiplicativeTemporal
  split
  · split
    · exact scale_raises _ _
    · split
      · exact scale_raises _ _
      · exact .ok _
  · split
    · exact unscale_raises _ _
    · split
      · exact ratio_raises _ _
      · exact ratio_raises _ _
      · exact .ok _
  · exact .ok _

theorem multiplicativeNumbers_raises (op : MultiplicativeOp) (ns : Numbers) :
    Raises [.dynamic] (multiplicativeNumbers op ns) := by
  rw [multiplicativeNumbers.eq_def]
  cases ns with
  | words i j =>
    cases op with
    | multiply => exact .ok _
    | divide => exact multiplicativeDecimals_raises _ _ _
    | integerDivide => exact unlessZero_raises _ _
    | modulo => exact unlessZero_raises _ _
  | doubles x y =>
    cases op with
    | integerDivide => exact wholeQuotient_raises _ _
    | _ => exact .ok _
  | floats x y =>
    cases op with
    | integerDivide => exact wholeQuotient_raises _ _
    | _ => exact .ok _
  | integers m n =>
    cases op with
    | multiply => exact .ok _
    | divide => exact multiplicativeDecimals_raises _ _ _
    | integerDivide => exact unlessZero_raises _ _
    | modulo => exact unlessZero_raises _ _
  | decimals a b => exact multiplicativeDecimals_raises _ _ _

theorem negate_raises (a : Item) : Raises [.dynamic] (negate a) := by
  unfold negate
  split
  all_goals first | exact .ok _ | exact (overflowing_raises _).map _

end Arithmetic

open Arithmetic

theorem AdditiveOp.apply_raises (op : AdditiveOp) (z : Zone) (l r : Item) :
    Raises [.dynamic] (op.apply z l r) := by
  unfold AdditiveOp.apply
  split
  · exact .ok _
  · exact additiveTemporal_raises _ _ _ _

theorem Arithmetic.placing_raises {ks : List Error.Kind} {result : Except Error α}
    (h : Raises ks result) (hk : .dynamic ∈ ks) (z : Zone) (l r : Item) :
    Raises ks (placing z l r result) := by
  unfold placing
  split
  · exact .error hk
  · exact h

theorem AdditiveOp.evaluate_raises (op : AdditiveOp) (z : Zone) (l r : Item) :
    Raises [.dynamic] (op.evaluate z l r) := by
  cases op with
  | add => exact AdditiveOp.apply_raises _ z l r
  | subtract => exact placing_raises (AdditiveOp.apply_raises _ z l r) List.mem_cons_self z l r

theorem MultiplicativeOp.apply_raises (op : MultiplicativeOp) (l r : Item) :
    Raises [.dynamic] (op.apply l r) := by
  unfold MultiplicativeOp.apply
  split
  · exact (multiplicativeNumbers_raises _ _).map _
  · exact multiplicativeTemporal_raises _ _ _

theorem UnaryOp.apply_raises (op : UnaryOp) (a : Item) : Raises [.type, .dynamic] (op.apply a) := by
  unfold UnaryOp.apply
  cases op with
  | plus =>
    refine Raises.bind (.ok _) fun b => ?_
    cases b with
    | none => exact .error List.mem_cons_self
    | some b => exact .ok b
  | minus =>
    refine Raises.bind ((negate_raises a).mono (by simp)) fun b => ?_
    cases b with
    | none => exact .error List.mem_cons_self
    | some b => exact .ok b

theorem ComparisonOp.apply_raises (op : ComparisonOp) (z : Zone) (l r : Item) :
    Raises [.type] (op.apply z l r) := by
  have hi : Raises [.type] (.error (Comparison.incomparable op.keyword l r) : Except Error Bool) :=
    .error List.mem_cons_self
  unfold ComparisonOp.apply
  split
  · exact .ok _
  · exact .ok _
  · split
    · exact .ok _
    · exact .ok _
    · exact hi
  · exact hi

theorem ComparisonOp.evaluate_raises (op : ComparisonOp) (z : Zone) (l r : Item) :
    Raises [.type, .dynamic] (op.evaluate z l r) :=
  placing_raises ((op.apply_raises z l r).mono (by decide)) (by decide) z l r

namespace Machine

theorem ruled_raises {r : Except Error (Option Item)} (h : Raises [.dynamic] r) (symbol : String)
    (a b : Item) : Raises [.type, .dynamic] (ruled symbol a b r) := by
  refine (h.mono (by simp)).bind fun o => ?_
  cases o with
  | none => exact .error List.mem_cons_self
  | some a => exact .ok a

theorem rangeBound_raises (o : Option Item) : Raises [.type] (rangeBound o) := by
  cases o with
  | none => exact .ok _
  | some a =>
    rw [rangeBound]
    split
    · exact .ok _
    · exact .error List.mem_cons_self

end Machine

theorem Duration.Kind.construct_raises (kind : Duration.Kind) (a : Item) :
    Raises [.type, .cast] (kind.construct a) := by
  unfold Duration.Kind.construct
  split
  · split
    · exact .ok _
    · exact .error (List.mem_cons_of_mem _ List.mem_cons_self)
  · split
    · exact .ok _
    · exact .error List.mem_cons_self

end PullQuery
