import PullQuery.Proofs.Arithmetic.Exact
import PullQuery.Proofs.Comparison.Classes

namespace PullQuery

namespace Decimal

theorem add_comm (a b : Decimal) : a.add b = b.add a := by
  unfold add
  dsimp only
  rw [Int.max_comm, Int.add_comm]

theorem sameValue_sub (a b : Decimal) : (a.sub b).sameValue (a.add b.neg) = true := by
  rw [sameValue, compare_eq_compare_value, value_sub, value_add, value_neg, sub_eq_add_neg]
  exact beq_iff_eq.2 (compare_eq_iff_eq.2 rfl)

end Decimal

namespace Arithmetic

variable {l r s : Item} {x y : Except Error (Option Item)}

def SameOutcome (x y : Except Error (Option Item)) : Prop :=
  x = y ∨ ∃ a b : Decimal, x = .ok (some (.decimal a)) ∧ y = .ok (some (.decimal b)) ∧
    a.sameValue b = true

theorem promote?_eq_none (asWords : Int32 → Int32 → Bool)
    (h : ¬(l.isNumeric = true ∧ r.isNumeric = true)) : promote? asWords l r = none := by
  obtain ⟨hp, -⟩ | ⟨ns, -, hn, -⟩ := promote?_cases asWords l r
  · exact hp
  · exact absurd hn h

section Commuting

theorem additiveWords_comm (i j : Int32) : additiveWords i j = additiveWords j i :=
  Bool.and_comm ..

theorem add_comm_of_isDecimal (z : Zone) (hl : l.type.isDecimal = true)
    (hr : r.type.isDecimal = true) :
    AdditiveOp.apply .add z l r = AdditiveOp.apply .add z r l := by
  have integers (m n : Int) : (.ok (some (.integer (m + n))) : Except Error (Option Item)) =
      .ok (some (.integer (n + m))) := by rw [Int.add_comm]
  have decimals (a b : Decimal) : (.ok (some (.decimal (a.add b))) : Except Error (Option Item)) =
      .ok (some (.decimal (b.add a))) := by rw [Decimal.add_comm]
  cases l with
  | int i =>
    cases r with
    | int j =>
      unfold AdditiveOp.apply promote?
      dsimp only
      rw [additiveWords_comm j i]
      cases additiveWords i j with
      | true => exact congrArg (fun k => Except.ok (some (Item.int k))) (Int32.add_comm i j)
      | false => exact integers _ _
    | integer n => exact integers _ _
    | decimal b => exact decimals _ _
    | _ => cases hr
  | integer m =>
    cases r with
    | int j => exact integers _ _
    | integer n => exact integers _ _
    | decimal b => exact decimals _ _
    | _ => cases hr
  | decimal a =>
    cases r with
    | int j => exact decimals _ _
    | integer n => exact decimals _ _
    | decimal b => exact decimals _ _
    | _ => cases hr
  | _ => cases hl

theorem additiveTemporal_comm (z : Zone) (l r : Item) :
    additiveTemporal .add z l r = additiveTemporal .add z r l := by
  cases l with
  | yearMonthDuration m =>
    cases r with
    | yearMonthDuration n =>
      unfold additiveTemporal
      dsimp only
      rw [Int.add_comm]
    | _ => rfl
  | dayTimeDuration d =>
    cases r with
    | dayTimeDuration e =>
      unfold additiveTemporal
      dsimp only
      rw [Int.add_comm]
    | _ => rfl
  | _ => cases r <;> rfl

end Commuting

section Opposites

theorem minus_eq_ok_iff : UnaryOp.apply .minus r = .ok s ↔ negate r = .ok (some s) := by
  unfold UnaryOp.apply
  dsimp only
  cases negate r with
  | error e => constructor <;> intro h <;> cases h
  | ok result =>
    cases result with
    | none => constructor <;> intro h <;> cases h
    | some t =>
      change Except.ok t = .ok s ↔ _
      rw [Except.ok.injEq, Except.ok.injEq, Option.some.injEq]

theorem ofInt_cases (n : Int) :
    (∃ w : Int32, w.toInt = n ∧ Item.ofInt n = .int w) ∨ Item.ofInt n = .integer n := by
  rw [Item.ofInt_eq]
  by_cases h : Word.Fits n
  · rw [if_pos h]
    exact .inl ⟨_, Word.toInt_ofInt h, rfl⟩
  · rw [if_neg h]
    exact .inr rfl

theorem negate_of_isDecimal (hr : r.type.isDecimal = true) (h : negate r = .ok (some s)) :
    s.type.isDecimal = true ∧ s.decimal? = r.decimal?.map Decimal.neg ∧
      s.integer? = r.integer?.map fun n => -n := by
  cases r with
  | int j =>
    obtain rfl := Option.some.inj (Except.ok.inj h)
    obtain ⟨w, hw, he⟩ | he := ofInt_cases (-j.toInt)
    · rw [he, Item.decimal?, Item.integer?, hw]
      exact ⟨rfl, rfl, rfl⟩
    · rw [he]
      exact ⟨rfl, rfl, rfl⟩
  | integer n =>
    obtain rfl := Option.some.inj (Except.ok.inj h)
    exact ⟨rfl, rfl, rfl⟩
  | decimal b =>
    obtain rfl := Option.some.inj (Except.ok.inj h)
    exact ⟨rfl, rfl, rfl⟩
  | _ => cases hr

theorem apply_of_promote? {ns : Numbers} (op : AdditiveOp) (z : Zone)
    (h : promote? additiveWords l r = some ns) :
    op.apply z l r = .ok (some (additiveNumbers op ns)) := by
  unfold AdditiveOp.apply
  rw [h]

theorem promote?_decimals {a b : Decimal} (ha : l.decimal? = some a) (hb : r.decimal? = some b)
    (h : l.integer? = none ∨ r.integer? = none) :
    promote? additiveWords l r = some (.decimals a b) := by
  cases l <;> cases ha <;> cases r <;> cases hb <;> first | rfl | (obtain h | h := h <;> cases h)

theorem promote?_integers {m n : Int} (hm : l.integer? = some m) (hn : r.integer? = some n)
    (h : ∀ i j, l = .int i → r = .int j → additiveWords i j = false) :
    promote? additiveWords l r = some (.integers m n) := by
  cases l with
  | int i =>
    cases hm
    cases r with
    | int j =>
      cases hn
      exact if_neg (by rw [h i j rfl rfl]; exact Bool.false_ne_true)
    | integer k =>
      cases hn
      rfl
    | _ => cases hn
  | integer k =>
    cases hm
    cases r <;> cases hn <;> rfl
  | _ => cases hm

theorem additiveWords_neg {i j k : Int32} (h : k.toInt = -j.toInt) :
    additiveWords i k = additiveWords i j := by
  rw [Bool.eq_iff_iff, additiveWords_iff, additiveWords_iff, h, abs_neg]

theorem sub_words {i j : Int32} (z : Zone) (hw : additiveWords i j = true)
    (h : negate (.int j) = .ok (some s)) :
    AdditiveOp.apply .subtract z (.int i) (.int j) = AdditiveOp.apply .add z (.int i) s := by
  have hj : Word.Fits (-j.toInt) := by
    have hbound : Int32.maxValue.toInt / 2 = 1073741823 := by decide
    have hb := (additiveWords_iff.1 hw).2
    rw [hbound, abs_lt] at hb
    unfold Word.Fits
    omega
  have hk := Word.toInt_ofInt hj
  obtain rfl : Item.int (Int32.ofInt (-j.toInt)) = s := by
    rw [← Option.some.inj (Except.ok.inj h), Item.ofInt_eq, if_pos hj]
  have hw' : additiveWords i (Int32.ofInt (-j.toInt)) = true := (additiveWords_neg hk).trans hw
  rw [apply_of_promote? .subtract z (promote?_eq_words_iff.2 ⟨rfl, rfl, hw⟩),
    apply_of_promote? .add z (promote?_eq_words_iff.2 ⟨rfl, rfl, hw'⟩)]
  have heq : i - j = i + Int32.ofInt (-j.toInt) := by
    rw [← Int32.toInt_inj, (toInt_of_additiveWords hw).2, (toInt_of_additiveWords hw').1, hk,
      Int.sub_eq_add_neg]
  exact congrArg (fun w => Except.ok (some (Item.int w))) heq

theorem isDecimal_cases {a : Item} (h : a.type.isDecimal = true) :
    ∃ d, a.decimal? = some d ∧ (a.integer? = none ∨ ∃ n, a.integer? = some n) := by
  cases a with
  | int i => exact ⟨_, rfl, .inr ⟨_, rfl⟩⟩
  | integer n => exact ⟨_, rfl, .inr ⟨_, rfl⟩⟩
  | decimal d => exact ⟨_, rfl, .inl rfl⟩
  | _ => cases h

theorem eq_int_of_negate {k : Int32} (h : negate r = .ok (some (.int k))) :
    ∃ j : Int32, r = .int j ∧ k.toInt = -j.toInt := by
  cases r with
  | int j =>
    have he := Option.some.inj (Except.ok.inj h)
    obtain ⟨w, hw, hi⟩ | hi := ofInt_cases (-j.toInt)
    · obtain rfl : w = k := Item.int.inj (hi.symm.trans he)
      exact ⟨j, rfl, hw⟩
    · cases hi.symm.trans he
  | yearMonthDuration m =>
    obtain ⟨n, -, he⟩ := overflowing_map_eq_ok_iff.1 h
    cases he
  | duration d =>
    obtain ⟨n, -, he⟩ := overflowing_map_eq_ok_iff.1 h
    cases he
  | _ => cases h

theorem sub_of_isDecimal (z : Zone) (hl : l.type.isDecimal = true) (hr : r.type.isDecimal = true)
    (h : negate r = .ok (some s)) :
    SameOutcome (AdditiveOp.apply .subtract z l r) (AdditiveOp.apply .add z l s) := by
  obtain ⟨hs, hsd, hsi⟩ := negate_of_isDecimal hr h
  obtain ⟨a, ha, hla⟩ := isDecimal_cases hl
  obtain ⟨b, hb, hrb⟩ := isDecimal_cases hr
  rw [hb, Option.map_some] at hsd
  have decimals (hlr : l.integer? = none ∨ r.integer? = none)
      (hls : l.integer? = none ∨ s.integer? = none) :
      SameOutcome (AdditiveOp.apply .subtract z l r) (AdditiveOp.apply .add z l s) :=
    .inr ⟨a.sub b, a.add b.neg, apply_of_promote? _ z (promote?_decimals ha hb hlr),
      apply_of_promote? _ z (promote?_decimals ha hsd hls), Decimal.sameValue_sub a b⟩
  obtain hla | ⟨m, hm⟩ := hla
  · exact decimals (.inl hla) (.inl hla)
  obtain hrb | ⟨n, hn⟩ := hrb
  · rw [hrb] at hsi
    exact decimals (.inr hrb) (.inr hsi)
  rw [hn, Option.map_some] at hsi
  left
  by_cases hw : ∃ i j, l = .int i ∧ r = .int j ∧ additiveWords i j = true
  · obtain ⟨i, j, rfl, rfl, hw⟩ := hw
    exact sub_words z hw h
  · -- The opposite of a word may be too large for one, but never the other way round.
    have hlr : ∀ i j, l = .int i → r = .int j → additiveWords i j = false :=
      fun i j hi hj => Bool.eq_false_iff.2 fun hij => hw ⟨i, j, hi, hj, hij⟩
    have hls : ∀ i k, l = .int i → s = .int k → additiveWords i k = false := by
      rintro i k hi rfl
      obtain ⟨j, hj, hk⟩ := eq_int_of_negate h
      rw [additiveWords_neg hk]
      exact hlr i j hi hj
    rw [apply_of_promote? _ z (promote?_integers hm hn hlr),
      apply_of_promote? _ z (promote?_integers hm hsi hls)]
    exact congrArg (fun n => Except.ok (some (Item.integer n))) (Int.sub_eq_add_neg ..)

theorem sub_yearMonthDuration (z : Zone) (l : Item) {n : Int32}
    (h : negate (.yearMonthDuration n) = .ok (some s)) :
    additiveTemporal .subtract z l (.yearMonthDuration n) = additiveTemporal .add z l s := by
  obtain ⟨k, hk, he⟩ := overflowing_map_eq_ok_iff.1 h
  cases he
  have hneg : (Offset.months n).neg = .ok (.months k) :=
    overflowing_map_eq_ok_iff.2 ⟨k, hk, rfl⟩
  have moved (p : Item) : (Offset.months n).neg.bind (move p) = move p (.months k) := by
    rw [hneg]
    rfl
  cases l with
  | yearMonthDuration m =>
    unfold additiveTemporal
    dsimp only
    rw [Word.ofInt?_eq_some_iff.1 hk, Int.sub_eq_add_neg]
  | date d zone => exact moved _
  | time t zone => exact moved _
  | dateTime p zone => exact moved _
  | _ => rfl

theorem sub_dayTimeDuration (z : Zone) (l : Item) (d : Delta) :
    additiveTemporal .subtract z l (.dayTimeDuration d) =
      additiveTemporal .add z l (.dayTimeDuration d.neg) := by
  cases l with
  | dayTimeDuration e =>
    unfold additiveTemporal Delta.neg
    dsimp only
    rw [Int.sub_eq_add_neg]
  | _ => rfl

theorem apply_eq_additiveTemporal (op : AdditiveOp) (z : Zone)
    (h : l.isNumeric = false ∨ r.isNumeric = false) :
    op.apply z l r = additiveTemporal op z l r := by
  have hn : ¬(l.isNumeric = true ∧ r.isNumeric = true) := by
    rintro ⟨hl, hr⟩
    rw [hl, hr, or_self] at h
    cases h
  unfold AdditiveOp.apply
  rw [promote?_eq_none additiveWords hn]

theorem sub_of_isOffset (z : Zone) (hr : r.type.isOffset = true) (h : negate r = .ok (some s)) :
    AdditiveOp.apply .subtract z l r = AdditiveOp.apply .add z l s := by
  cases r with
  | yearMonthDuration n =>
    have hs : s.isNumeric = false := by
      obtain ⟨k, -, he⟩ := overflowing_map_eq_ok_iff.1 h
      cases he
      rfl
    rw [apply_eq_additiveTemporal _ z (.inr rfl), apply_eq_additiveTemporal _ z (.inr hs)]
    exact sub_yearMonthDuration z l h
  | dayTimeDuration d =>
    obtain rfl := Option.some.inj (Except.ok.inj h)
    rw [apply_eq_additiveTemporal _ z (.inr rfl), apply_eq_additiveTemporal _ z (.inr rfl)]
    exact sub_dayTimeDuration z l d
  | _ => cases hr

theorem row_of_number (op : AdditiveOp) {t u : ItemType} (ht : t.isNumeric = false)
    (hu : u.isNumeric = true) : op.row t u = [] := by
  revert ht hu
  cases op <;> cases t <;> cases u <;> decide

theorem apply_number (op : AdditiveOp) (z : Zone) (hl : l.isNumeric = false)
    (hr : r.isNumeric = true) : op.apply z l r = .ok none := by
  have hs : op.negatesFirst l r = false := by
    unfold AdditiveOp.negatesFirst
    split
    · cases hr
    · rfl
  have hf := additive_follows op z l r hs
  rw [row_of_number op hl hr] at hf
  cases ho : op.apply z l r with
  | error e =>
    rw [ho] at hf
    exact absurd rfl hf
  | ok result =>
    rw [ho] at hf
    cases result with
    | none => rfl
    | some a => cases hf.1

end Opposites

theorem isDecimal_of_exact {a : Item} (hn : a.isNumeric = true)
    (h : a.type ≠ .double ∧ a.type ≠ .float) : a.type.isDecimal = true := by
  have ht : (a.type.isDecimal || a.type == .double || a.type == .float) = true := hn
  simpa [h.1, h.2] using ht

end Arithmetic

open Arithmetic

/-- The operands of a sum may change places, and taking an item away is adding its opposite, whatever
the other item is: the outcome is the same, be it an item, an error or that there is no rule. -/
theorem sums_commute_and_differences_add_opposites (z : Zone) {l r : Item}
    (hl : l.type ≠ .double ∧ l.type ≠ .float) (hr : r.type ≠ .double ∧ r.type ≠ .float) :
    AdditiveOp.apply .add z l r = AdditiveOp.apply .add z r l ∧
    ∀ s, r.type ∈ [.int, .integer, .decimal, .yearMonthDuration, .dayTimeDuration] →
      UnaryOp.apply .minus r = .ok s →
      SameOutcome (AdditiveOp.apply .subtract z l r) (AdditiveOp.apply .add z l s) := by
  constructor
  · by_cases hn : l.isNumeric = true ∧ r.isNumeric = true
    · exact add_comm_of_isDecimal z (isDecimal_of_exact hn.1 hl) (isDecimal_of_exact hn.2 hr)
    · rw [Classical.not_and_iff_not_or_not, Bool.not_eq_true, Bool.not_eq_true] at hn
      rw [apply_eq_additiveTemporal _ z hn, apply_eq_additiveTemporal _ z hn.symm,
        additiveTemporal_comm]
  · intro s ht hs
    rw [minus_eq_ok_iff] at hs
    by_cases ho : r.type.isOffset = true
    · exact .inl (sub_of_isOffset z ho hs)
    have hd : r.type.isDecimal = true := by
      revert ht ho
      cases r.type <;> decide
    obtain ⟨hsd, -⟩ := negate_of_isDecimal hd hs
    cases hn : l.isNumeric with
    | true => exact sub_of_isDecimal z (isDecimal_of_exact hn hl) hd hs
    | false =>
      left
      rw [apply_number _ z hn (Comparison.isNumeric_of_type_isDecimal hd),
        apply_number _ z hn (Comparison.isNumeric_of_type_isDecimal hsd)]

theorem one_sub_least_word :
    AdditiveOp.apply .add .utc (.int 1) (.int Int32.minValue) =
        AdditiveOp.apply .add .utc (.int Int32.minValue) (.int 1) ∧
      SameOutcome (AdditiveOp.apply .subtract .utc (.int 1) (.int Int32.minValue))
        (AdditiveOp.apply .add .utc (.int 1) (.integer 2147483648)) :=
  have same := sums_commute_and_differences_add_opposites .utc (l := .int 1)
    (r := .int Int32.minValue) (by decide) (by decide)
  ⟨same.1, same.2 (.integer 2147483648) (by decide) rfl⟩

end PullQuery
