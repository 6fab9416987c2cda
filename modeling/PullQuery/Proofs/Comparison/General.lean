import Mathlib.Data.List.ProdSigma
import PullQuery.Proofs.Comparison.Classes

namespace PullQuery

namespace Comparison

def Outcome.swap : Outcome → Outcome
  | .ordered o => .ordered o.swap
  | .unordered => .unordered
  | .equality equal => .equality equal

variable {z : Zone} {a b : Item}

theorem compare_swap {α : Type} [LinearOrder α] (x y : α) : compare y x = (compare x y).swap := by
  rw [← cmp_eq_compare, ← cmp_eq_compare, cmp_swap]

theorem ofBinaries_swap (u v : Binary) : ofBinaries v u = (ofBinaries u v).swap := by
  by_cases hn : u.isNaN = true ∨ v.isNaN = true
  · rw [ofBinaries_of_isNaN hn, ofBinaries_of_isNaN hn.symm]
    rfl
  · obtain ⟨hu, hv⟩ := not_or.1 hn
    rw [Bool.not_eq_true] at hu hv
    rw [ofBinaries_of_not_isNaN hu hv, ofBinaries_of_not_isNaN hv hu, compare_swap]
    rfl

theorem relate_swap_of_isNumeric (z : Zone) (ha : a.isNumeric = true) (hb : b.isNumeric = true) :
    relate z b a = (relate z a b).map Outcome.swap := by
  rw [relate_of_isNumeric z ha hb, relate_of_isNumeric z hb ha]
  cases h : a.type.isDecimal && b.type.isDecimal with
  | true =>
    obtain ⟨hda, hdb⟩ := Bool.and_eq_true_iff.1 h
    obtain ⟨d, hd, -⟩ := exists_decimal z hda
    obtain ⟨e, he, -⟩ := exists_decimal z hdb
    rw [relateNumbers_of_decimal hd he, relateNumbers_of_decimal he hd, compare_swap]
    rfl
  | false =>
    obtain ⟨x, hx, -⟩ := exists_double ha
    obtain ⟨y, hy, -⟩ := exists_double hb
    have h' : (b.type.isDecimal && a.type.isDecimal) = false := by rw [Bool.and_comm, h]
    rw [relateNumbers_of_floating hx hy h, relateNumbers_of_floating hy hx h', ofBinaries_swap]
    rfl

theorem relateDurations_swap (a b : Item) :
    relateDurations b a = (relateDurations a b).map Outcome.swap := by
  unfold relateDurations
  cases a.duration? with
  | none => cases b.duration? <;> rfl
  | some d =>
    cases b.duration? with
    | none => rfl
    | some e => exact congrArg (fun equal => some (Outcome.equality equal)) (Bool.beq_comm ..)

theorem relate_swap_of_not_isNumeric (z : Zone) (ha : a.isAtomic = true) (hb : b.isAtomic = true)
    (hn : (a.isNumeric && b.isNumeric) = false) :
    relate z b a = (relate z a b).map Outcome.swap := by
  by_cases ht : a.type = b.type ∧ a.type ≠ .duration
  · obtain ⟨ht, hd⟩ := ht
    have hna : a.isNumeric = false := by
      rw [Item.isNumeric, Item.isNumeric, ← ht, Bool.and_self] at hn
      exact hn
    have hnb : b.isNumeric = false := by rwa [Item.isNumeric, ← ht]
    rw [relate_of_type z (isOrdered_of_isNumeric ha hna hd) ht,
      relate_of_type z (isOrdered_of_isNumeric hb hnb (ht ▸ hd)) ht.symm, compare_swap]
    rfl
  have hne : a.type ≠ b.type ∨ a.type = .duration := by
    rw [not_and_or, not_not] at ht
    exact ht
  by_cases hta : a.type = .null
  · obtain rfl := eq_null_of_type hta
    have htb : b.type ≠ .null := Ne.symm (hne.resolve_right (by decide))
    rw [relate_null_left z hb htb, relate_null_right z hb htb, compare_swap]
    rfl
  by_cases htb : b.type = .null
  · obtain rfl := eq_null_of_type htb
    rw [relate_null_left z ha hta, relate_null_right z ha hta, compare_swap]
    rfl
  have hne' : b.type ≠ a.type ∨ b.type = .duration := by
    obtain h | h := hne
    · exact .inl (Ne.symm h)
    · by_cases hbd : b.type = .duration
      · exact .inr hbd
      · exact .inl (h ▸ hbd)
  rw [relate_of_type_ne z ha hb hn hta htb hne,
    relate_of_type_ne z hb ha (Bool.and_comm .. ▸ hn) htb hta hne', relateDurations_swap]

theorem relate_swap (z : Zone) (a b : Item) : relate z b a = (relate z a b).map Outcome.swap := by
  by_cases hat : a.isAtomic = true ∧ b.isAtomic = true
  · cases hn : a.isNumeric && b.isNumeric with
    | true =>
      obtain ⟨ha, hb⟩ := Bool.and_eq_true_iff.1 hn
      exact relate_swap_of_isNumeric z ha hb
    | false => exact relate_swap_of_not_isNumeric z hat.1 hat.2 hn
  · rw [relate_of_not_isAtomic z hat, relate_of_not_isAtomic z (hat ∘ And.symm)]
    rfl

end Comparison

open Comparison

namespace ComparisonOp

variable {op : ComparisonOp} {z : Zone} {ls rs : Items}

theorem swap_apply_eq_ok {l r : Item} {b : Bool} (h : op.apply z l r = .ok b) :
    op.swap.apply z r l = .ok b := by
  have hs := relate_swap z l r
  unfold apply at h ⊢
  rw [hs]
  cases ho : relate z l r with
  | none =>
    rw [ho] at h
    cases h
  | some o =>
    rw [ho] at h
    cases o with
    | ordered o =>
      rw [← h]
      exact congrArg _ (op.holds_swap o)
    | unordered => cases op <;> exact h
    | equality equal => cases op <;> first | exact h | cases h

/-- What comparing pairs in turn comes to: false when none compares true, true at the first that
does, and an error at the first that does not compare. -/
inductive Settles (op : ComparisonOp) (z : Zone) : List (Item × Item) → Except Error Bool → Prop
  | never {ps : List (Item × Item)} (h : ∀ p ∈ ps, op.apply z p.1 p.2 = .ok false) :
      Settles op z ps (.ok false)
  | hit {before after : List (Item × Item)} {l r : Item}
      (hbefore : ∀ p ∈ before, op.apply z p.1 p.2 = .ok false) (h : op.apply z l r = .ok true) :
      Settles op z (before ++ (l, r) :: after) (.ok true)
  | clash {before after : List (Item × Item)} {l r : Item} {e : Error}
      (hbefore : ∀ p ∈ before, op.apply z p.1 p.2 = .ok false) (h : op.apply z l r = .error e) :
      Settles op z (before ++ (l, r) :: after) (.error (incomparable op.symbol l r))

namespace Settles

variable {ps qs : List (Item × Item)} {result : Except Error Bool}

theorem prepend (hps : ∀ p ∈ ps, op.apply z p.1 p.2 = .ok false) (h : Settles op z qs result) :
    Settles op z (ps ++ qs) result := by
  have join {before : List (Item × Item)} (hb : ∀ p ∈ before, op.apply z p.1 p.2 = .ok false) :
      ∀ p ∈ ps ++ before, op.apply z p.1 p.2 = .ok false :=
    fun p hp => (List.mem_append.1 hp).elim (hps p) (hb p)
  cases h with
  | never h => exact .never (join h)
  | hit hb h =>
    rw [← List.append_assoc]
    exact .hit (join hb) h
  | clash hb h =>
    rw [← List.append_assoc]
    exact .clash (join hb) h

theorem append (h : Settles op z ps result) (hr : result ≠ .ok false) :
    Settles op z (ps ++ qs) result := by
  cases h with
  | never h => exact absurd rfl hr
  | hit hb h =>
    rw [List.append_assoc]
    exact .hit hb h
  | clash hb h =>
    rw [List.append_assoc]
    exact .clash hb h

theorem of_false (h : Settles op z ps (.ok false)) : ∀ p ∈ ps, op.apply z p.1 p.2 = .ok false := by
  cases h with
  | never h => exact h

theorem of_defined (h : Settles op z ps result)
    (hd : ∀ p ∈ ps, ∃ b, op.apply z p.1 p.2 = .ok b) :
    ∃ b, result = .ok b ∧ (b = true ↔ ∃ p ∈ ps, op.apply z p.1 p.2 = .ok true) := by
  cases h with
  | never h =>
    refine ⟨false, rfl, iff_of_false Bool.false_ne_true ?_⟩
    rintro ⟨p, hp, ht⟩
    cases (h p hp).symm.trans ht
  | hit hb h =>
    exact ⟨true, rfl, iff_of_true rfl ⟨_, List.mem_append_right _ List.mem_cons_self, h⟩⟩
  | clash hb h =>
    obtain ⟨b, ht⟩ := hd _ (List.mem_append_right _ List.mem_cons_self)
    cases h.symm.trans ht

end Settles

theorem anyRight_settles (op : ComparisonOp) (z : Zone) (l : Item) (rs : Items) :
    Settles op z (rs.map (l, ·)) (anyRight op z l rs) := by
  fun_induction anyRight op z l rs with
  | case1 => exact .never nofun
  | case2 r rs h => exact @Settles.hit _ _ [] _ _ _ nofun h
  | case3 r rs h ih =>
    have head : ∀ p ∈ [(l, r)], op.apply z p.1 p.2 = .ok false := List.forall_mem_singleton.2 h
    exact ih.prepend head
  | case4 r rs e h => exact @Settles.clash _ _ [] _ _ _ _ nofun h

theorem applyGeneral_settles (op : ComparisonOp) (z : Zone) (ls rs : Items) :
    Settles op z (ls.product rs) (op.applyGeneral z ls rs) := by
  fun_induction applyGeneral op z ls rs with
  | case1 rs => exact .never nofun
  | case2 l ls rs h =>
    have hrow := anyRight_settles op z l rs
    rw [h] at hrow
    exact hrow.append nofun
  | case3 l ls rs h ih =>
    have hrow := anyRight_settles op z l rs
    rw [h] at hrow
    exact ih.prepend hrow.of_false
  | case4 l ls rs e h =>
    have hrow := anyRight_settles op z l rs
    rw [h] at hrow
    exact hrow.append nofun

theorem evaluatePairs_cases (op : ComparisonOp) (z : Zone) (l : Item) (rs : Items)
    (pairs : List (Item × Item)) :
    (op.evaluatePairs z (rs.map (l, ·) ++ pairs) = .error (.of .stopped) ∧
      ∃ r ∈ rs, Arithmetic.isBeyond z l r = true) ∨
      op.evaluatePairs z (rs.map (l, ·) ++ pairs) = (anyRight op z l rs).bind fun found =>
        if found then .ok true else op.evaluatePairs z pairs := by
  induction rs with
  | nil => exact .inr rfl
  | cons r rs ih =>
    rw [List.map_cons, List.cons_append, evaluatePairs, anyRight]
    cases hb : Arithmetic.isBeyond z l r with
    | true =>
      rw [Arithmetic.placing_of_beyond hb]
      exact .inl ⟨rfl, r, List.mem_cons_self, hb⟩
    | false =>
      rw [Arithmetic.placing_of_placed hb]
      rcases op.apply z l r with e | _ | _
      · exact .inr rfl
      · refine ih.imp_left fun ⟨hs, k, hk, hb⟩ => ?_
        exact ⟨hs, k, List.mem_cons_of_mem r hk, hb⟩
      · exact .inr rfl

/-- A general comparison gives what comparing the pairs in turn comes to, unless the program stops
at two points. -/
theorem evaluateGeneral_cases (op : ComparisonOp) (z : Zone) (ls rs : Items) :
    (op.evaluateGeneral z ls rs = .error (.of .stopped) ∧
      ∃ l ∈ ls, ∃ r ∈ rs, Arithmetic.isBeyond z l r = true) ∨
      op.evaluateGeneral z ls rs = op.applyGeneral z ls rs := by
  induction ls with
  | nil => exact .inr rfl
  | cons l ls ih =>
    have hc : op.evaluateGeneral z (l :: ls) rs =
        op.evaluatePairs z (rs.map (l, ·) ++ ls.flatMap fun l => rs.map (l, ·)) := rfl
    rw [hc, applyGeneral]
    obtain ⟨hs, hb⟩ | hrow := op.evaluatePairs_cases z l rs (ls.flatMap fun l => rs.map (l, ·))
    · exact .inl ⟨hs, l, List.mem_cons_self, hb⟩
    rw [hrow]
    rcases anyRight op z l rs with e | _ | _
    · exact .inr rfl
    · refine ih.imp_left fun ⟨hs, k, hk, hb⟩ => ?_
      exact ⟨hs, k, List.mem_cons_of_mem l hk, hb⟩
    · exact .inr rfl

def Defined (op : ComparisonOp) (z : Zone) (ls rs : Items) : Prop :=
  ∀ l ∈ ls, ∀ r ∈ rs, ∃ b, op.apply z l r = .ok b

def HoldsOfSome (op : ComparisonOp) (z : Zone) (ls rs : Items) : Prop :=
  ∃ l ∈ ls, ∃ r ∈ rs, op.apply z l r = .ok true

theorem applyGeneral_of_defined (h : op.Defined z ls rs) :
    ∃ b, op.applyGeneral z ls rs = .ok b ∧ (b = true ↔ op.HoldsOfSome z ls rs) := by
  have hd : ∀ p ∈ ls.product rs, ∃ b, op.apply z p.1 p.2 = .ok b := fun p hp =>
    h p.1 (List.mem_product.1 hp).1 p.2 (List.mem_product.1 hp).2
  obtain ⟨b, hb, hiff⟩ := (applyGeneral_settles op z ls rs).of_defined hd
  refine ⟨b, hb, hiff.trans ⟨?_, ?_⟩⟩
  · rintro ⟨p, hp, ht⟩
    exact ⟨p.1, (List.mem_product.1 hp).1, p.2, (List.mem_product.1 hp).2, ht⟩
  · rintro ⟨l, hl, r, hr, ht⟩
    exact ⟨(l, r), List.mem_product.2 ⟨hl, hr⟩, ht⟩

theorem applyGeneral_congr {op' : ComparisonOp} {ls' rs' : Items} (h : op.Defined z ls rs)
    (h' : op'.Defined z ls' rs') (hiff : op.HoldsOfSome z ls rs ↔ op'.HoldsOfSome z ls' rs') :
    op.applyGeneral z ls rs = op'.applyGeneral z ls' rs' := by
  obtain ⟨b, hb, hbs⟩ := applyGeneral_of_defined h
  obtain ⟨b', hb', hbs'⟩ := applyGeneral_of_defined h'
  rw [hb, hb', Bool.eq_iff_iff.2 (hbs.trans (hiff.trans hbs'.symm))]

theorem Defined.swap (h : op.Defined z ls rs) : op.swap.Defined z rs ls := by
  intro r hr l hl
  obtain ⟨b, hb⟩ := h l hl r hr
  exact ⟨b, swap_apply_eq_ok hb⟩

theorem swap_swap (op : ComparisonOp) : op.swap.swap = op := by
  cases op <;> rfl

theorem HoldsOfSome.swap (h : op.HoldsOfSome z ls rs) : op.swap.HoldsOfSome z rs ls := by
  obtain ⟨l, hl, r, hr, ht⟩ := h
  exact ⟨r, hr, l, hl, swap_apply_eq_ok ht⟩

theorem holdsOfSome_swap_iff : op.swap.HoldsOfSome z rs ls ↔ op.HoldsOfSome z ls rs := by
  refine ⟨fun h => ?_, HoldsOfSome.swap⟩
  have hs := h.swap
  rwa [swap_swap] at hs

theorem holdsOfSome_append_left {ls' : Items} : op.HoldsOfSome z (ls ++ ls') rs ↔
    op.HoldsOfSome z ls rs ∨ op.HoldsOfSome z ls' rs := by
  simp only [HoldsOfSome, List.mem_append, or_and_right, exists_or]

theorem holdsOfSome_append_right {rs' : Items} : op.HoldsOfSome z ls (rs ++ rs') ↔
    op.HoldsOfSome z ls rs ∨ op.HoldsOfSome z ls rs' := by
  simp only [HoldsOfSome, List.mem_append, or_and_right, exists_or, and_or_left]

theorem applyGeneral_or {ls₁ rs₁ ls₂ rs₂ : Items} (h : op.Defined z ls rs)
    (h₁ : op.Defined z ls₁ rs₁) (h₂ : op.Defined z ls₂ rs₂)
    (hiff : op.HoldsOfSome z ls rs ↔ op.HoldsOfSome z ls₁ rs₁ ∨ op.HoldsOfSome z ls₂ rs₂) :
    ∃ b₁ b₂, op.applyGeneral z ls₁ rs₁ = .ok b₁ ∧ op.applyGeneral z ls₂ rs₂ = .ok b₂ ∧
      op.applyGeneral z ls rs = .ok (b₁ || b₂) := by
  obtain ⟨b, hb, hbs⟩ := applyGeneral_of_defined h
  obtain ⟨b₁, hb₁, hbs₁⟩ := applyGeneral_of_defined h₁
  obtain ⟨b₂, hb₂, hbs₂⟩ := applyGeneral_of_defined h₂
  refine ⟨b₁, b₂, hb₁, hb₂, ?_⟩
  rw [hb, Bool.eq_iff_iff.2 (hbs.trans (hiff.trans ?_))]
  rw [Bool.or_eq_true, hbs₁, hbs₂]

end ComparisonOp

/-- Where all pairs compare, a general comparison is true exactly when some pair compares true, so
neither order nor repetition matters, concatenation is disjunction, and the swapped operator gives
the same the other way round. In any case it is false only when all pairs compare false; else the
first pair that does not settles it: by comparing true, or by not comparing, which is the error. -/
theorem general_comparison_existential (op : ComparisonOp) (z : Zone) (ls rs : Items) :
    (op.Defined z ls rs →
      (∃ b, op.applyGeneral z ls rs = .ok b) ∧
      (op.applyGeneral z ls rs = .ok true ↔ op.HoldsOfSome z ls rs) ∧
      (∀ ls' rs', (∀ a, a ∈ ls' ↔ a ∈ ls) → (∀ a, a ∈ rs' ↔ a ∈ rs) →
        op.applyGeneral z ls' rs' = op.applyGeneral z ls rs) ∧
      op.swap.applyGeneral z rs ls = op.applyGeneral z ls rs) ∧
    (∀ ls', op.Defined z (ls ++ ls') rs → ∃ b b', op.applyGeneral z ls rs = .ok b ∧
      op.applyGeneral z ls' rs = .ok b' ∧ op.applyGeneral z (ls ++ ls') rs = .ok (b || b')) ∧
    (∀ rs', op.Defined z ls (rs ++ rs') → ∃ b b', op.applyGeneral z ls rs = .ok b ∧
      op.applyGeneral z ls rs' = .ok b' ∧ op.applyGeneral z ls (rs ++ rs') = .ok (b || b')) ∧
    (∀ e, op.applyGeneral z ls rs = .error e → ∃ before l r after,
      ls.product rs = before ++ (l, r) :: after ∧
      (∀ p ∈ before, op.apply z p.1 p.2 = .ok false) ∧ (∃ e', op.apply z l r = .error e') ∧
      e = .of (.noRule op.symbol l.type.name r.type.name)) ∧
    (op.applyGeneral z ls rs = .ok true → ∃ before l r after,
      ls.product rs = before ++ (l, r) :: after ∧
      (∀ p ∈ before, op.apply z p.1 p.2 = .ok false) ∧ op.apply z l r = .ok true) ∧
    (op.applyGeneral z ls rs = .ok false →
      ∀ l ∈ ls, ∀ r ∈ rs, op.apply z l r = .ok false) := by
  have settles := op.applyGeneral_settles z ls rs
  refine ⟨fun h => ⟨?_, ?_, fun ls' rs' hls hrs => ?_, ?_⟩, fun ls' h => ?_, fun rs' h => ?_, ?_, ?_,
    fun hf l hl r hr => ?_⟩
  · obtain ⟨b, hb, -⟩ := ComparisonOp.applyGeneral_of_defined h
    exact ⟨b, hb⟩
  · obtain ⟨b, hb, hiff⟩ := ComparisonOp.applyGeneral_of_defined h
    rw [hb, ← hiff, Except.ok.injEq]
  · apply ComparisonOp.applyGeneral_congr _ h
    · simp only [ComparisonOp.HoldsOfSome, hls, hrs]
    · exact fun l hl r hr => h l ((hls l).1 hl) r ((hrs r).1 hr)
  · exact ComparisonOp.applyGeneral_congr h.swap h ComparisonOp.holdsOfSome_swap_iff
  · exact ComparisonOp.applyGeneral_or h (fun l hl => h l (List.mem_append_left _ hl))
      (fun l hl => h l (List.mem_append_right _ hl)) ComparisonOp.holdsOfSome_append_left
  · exact ComparisonOp.applyGeneral_or h (fun l hl r hr => h l hl r (List.mem_append_left _ hr))
      (fun l hl r hr => h l hl r (List.mem_append_right _ hr)) ComparisonOp.holdsOfSome_append_right
  · generalize hp : ls.product rs = ps at settles
    intro e he
    rw [he] at settles
    cases settles with
    | clash hb h => exact ⟨_, _, _, _, rfl, hb, ⟨_, h⟩, rfl⟩
  · generalize hp : ls.product rs = ps at settles
    intro ht
    rw [ht] at settles
    cases settles with
    | hit hb h => exact ⟨_, _, _, _, rfl, hb, h⟩
  · rw [hf] at settles
    exact settles.of_false (l, r) (List.mem_product.2 ⟨hl, hr⟩)

example : ComparisonOp.applyGeneral .eq .utc [.int 1, .string "a"] [.int 1] = .ok true := rfl
example : ComparisonOp.applyGeneral .eq .utc [.string "a", .int 1] [.int 1] =
    .error (.of (.noRule "=" "string" "int")) := rfl

end PullQuery
