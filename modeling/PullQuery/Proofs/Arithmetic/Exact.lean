import Mathlib.Tactic.NormNum
import PullQuery.Proofs.Arithmetic.Table
import PullQuery.Proofs.Comparison.Keys
import PullQuery.Proofs.Number.Exact

namespace PullQuery

namespace Item

@[simp] theorem exactWorth?_int (i : Int32) : (int i).exactWorth? = some (i.toInt : ℚ) :=
  congrArg some (Decimal.value_ofInt _)

@[simp] theorem exactWorth?_integer (n : Int) : (integer n).exactWorth? = some (n : ℚ) :=
  congrArg some (Decimal.value_ofInt _)

@[simp] theorem exactWorth?_decimal (d : Decimal) : (decimal d).exactWorth? = some d.value := rfl

theorem exactWorth?_minValue : (int Int32.minValue).exactWorth? = some (-2147483648) := by
  rw [exactWorth?_int, show Int32.minValue.toInt = -2147483648 by decide]
  norm_num

theorem exactWorth?_minusOne : (int (-1)).exactWorth? = some (-1) := by
  rw [exactWorth?_int, show (-1 : Int32).toInt = -1 by decide]
  norm_num

theorem exactWorth?_cases {a : Item} {x : ℚ} (h : a.exactWorth? = some x) :
    (∃ i, a = int i ∧ x = i.toInt) ∨ (∃ n : Int, a = integer n ∧ x = n) ∨
      ∃ d, a = decimal d ∧ x = d.value := by
  cases a with
  | int i => exact .inl ⟨i, rfl, Option.some.inj (h.symm.trans (exactWorth?_int i))⟩
  | integer n => exact .inr (.inl ⟨n, rfl, Option.some.inj (h.symm.trans (exactWorth?_integer n))⟩)
  | decimal d => exact .inr (.inr ⟨d, rfl, (Option.some.inj h).symm⟩)
  | _ => cases h

theorem ofInt_eq (n : Int) :
    ofInt n = if Word.Fits n then int (Int32.ofInt n) else integer n := by
  unfold ofInt Word.ofInt?
  by_cases h : Word.Fits n
  · rw [if_pos h, if_pos h]
  · rw [if_neg h, if_neg h]

@[simp] theorem exactWorth?_ofInt (n : Int) : (ofInt n).exactWorth? = some (n : ℚ) := by
  rw [ofInt_eq]
  by_cases h : Word.Fits n
  · rw [if_pos h, exactWorth?_int, Word.toInt_ofInt h]
  · rw [if_neg h, exactWorth?_integer]

theorem isInteger_ofInt (n : Int) : (ofInt n).type.isInteger = true := by
  rw [ofInt_eq]
  by_cases h : Word.Fits n
  · rw [if_pos h]
    rfl
  · rw [if_neg h]
    rfl

end Item

def AdditiveOp.exact : AdditiveOp → ℚ → ℚ → ℚ
  | .add, x, y => x + y
  | .subtract, x, y => x - y

namespace Arithmetic

variable {l r : Item} {x y : ℚ}

def Numbers.Worth (x y : ℚ) : Numbers → Prop
  | .words i j => x = i.toInt ∧ y = j.toInt
  | .integers m n => x = m ∧ y = n
  | .decimals a b => x = a.value ∧ y = b.value
  | .doubles .. | .floats .. => False

theorem promote?_worth (asWords : Int32 → Int32 → Bool) (hl : l.exactWorth? = some x)
    (hr : r.exactWorth? = some y) : ∃ ns, promote? asWords l r = some ns ∧ ns.Worth x y := by
  have whole (n : Int) : (n : ℚ) = (Decimal.ofInt n).value := (Decimal.value_ofInt n).symm
  obtain ⟨i, rfl, rfl⟩ | ⟨m, rfl, rfl⟩ | ⟨a, rfl, rfl⟩ := Item.exactWorth?_cases hl
  · obtain ⟨j, rfl, rfl⟩ | ⟨n, rfl, rfl⟩ | ⟨b, rfl, rfl⟩ := Item.exactWorth?_cases hr
    · by_cases hw : asWords i j = true
      · exact ⟨.words i j, if_pos hw, rfl, rfl⟩
      · exact ⟨.integers i.toInt j.toInt, if_neg hw, rfl, rfl⟩
    · exact ⟨.integers i.toInt n, rfl, rfl, rfl⟩
    · exact ⟨.decimals (.ofInt i.toInt) b, rfl, whole _, rfl⟩
  · obtain ⟨j, rfl, rfl⟩ | ⟨n, rfl, rfl⟩ | ⟨b, rfl, rfl⟩ := Item.exactWorth?_cases hr
    · exact ⟨.integers m j.toInt, rfl, rfl, rfl⟩
    · exact ⟨.integers m n, rfl, rfl, rfl⟩
    · exact ⟨.decimals (.ofInt m) b, rfl, whole m, rfl⟩
  · obtain ⟨j, rfl, rfl⟩ | ⟨n, rfl, rfl⟩ | ⟨b, rfl, rfl⟩ := Item.exactWorth?_cases hr
    · exact ⟨.decimals a (.ofInt j.toInt), rfl, rfl, whole _⟩
    · exact ⟨.decimals a (.ofInt n), rfl, rfl, whole n⟩
    · exact ⟨.decimals a b, rfl, rfl, rfl⟩

theorem climb_ne_words (l r : Item) (i j : Int32) : climb l r ≠ some (.words i j) := by
  intro h
  by_cases hn : l.isNumeric = true ∧ r.isNumeric = true
  · obtain ⟨ns, hc, ht⟩ := climb_eq_some hn.1 hn.2
    obtain rfl : ns = .words i j := Option.some.inj (hc.symm.trans h)
    have hmem := l.type.ladder_mem r.type
    rw [← ht] at hmem
    simp [Numbers.type] at hmem
  · rw [climb_eq_none hn] at h
    cases h

theorem promote?_eq_words_iff {asWords : Int32 → Int32 → Bool} {i j : Int32} :
    promote? asWords l r = some (.words i j) ↔ l = .int i ∧ r = .int j ∧ asWords i j = true := by
  constructor
  · intro h
    obtain hc | ⟨i', j', rfl, rfl, hw⟩ := promote?_eq asWords l r
    · exact absurd (hc.symm.trans h) (climb_ne_words l r i j)
    · cases hw.symm.trans h
      refine ⟨rfl, rfl, ?_⟩
      by_contra hn
      have hc : promote? asWords (.int i) (.int j) = climb (.int i) (.int j) := if_neg hn
      exact climb_ne_words _ _ _ _ (hc.symm.trans h)
  · rintro ⟨rfl, rfl, hw⟩
    exact if_pos hw

theorem additiveWords_iff {i j : Int32} : additiveWords i j = true ↔
    |i.toInt| < Int32.maxValue.toInt / 2 ∧ |j.toInt| < Int32.maxValue.toInt / 2 := by
  have hbound : Int32.maxValue.toInt / 2 = wordBound := by decide
  simp [additiveWords, belowWordBound, hbound, abs_lt]

theorem toInt_of_additiveWords {i j : Int32} (h : additiveWords i j = true) :
    (i + j).toInt = i.toInt + j.toInt ∧ (i - j).toInt = i.toInt - j.toInt := by
  have hbound : Int32.maxValue.toInt / 2 = 1073741823 := by decide
  rw [additiveWords_iff, hbound, abs_lt, abs_lt] at h
  rw [Int32.toInt_add, Int32.toInt_sub]
  constructor <;> apply Int.bmod_eq_of_le <;> omega

theorem additiveNumbers_worth (op : AdditiveOp) {ns : Numbers} (h : ns.Worth x y)
    (hw : ∀ i j, ns = .words i j → additiveWords i j = true) :
    (additiveNumbers op ns).exactWorth? = some (op.exact x y) := by
  cases ns with
  | words i j =>
    obtain ⟨rfl, rfl⟩ := h
    obtain ⟨hadd, hsub⟩ := toInt_of_additiveWords (hw i j rfl)
    cases op with
    | add => simp [additiveNumbers, AdditiveOp.exact, hadd]
    | subtract => simp [additiveNumbers, AdditiveOp.exact, hsub]
  | integers m n =>
    obtain ⟨rfl, rfl⟩ := h
    cases op <;> simp [additiveNumbers, AdditiveOp.exact]
  | decimals a b =>
    obtain ⟨rfl, rfl⟩ := h
    cases op <;> simp [additiveNumbers, AdditiveOp.exact]
  | doubles u v => cases h
  | floats u v => cases h

theorem type_eq_int_iff (ns : Numbers) : ns.type = .int ↔ ∃ i j, ns = .words i j := by
  cases ns <;> simp [Numbers.type]

theorem multiplicativeNumbers_worth {ns : Numbers} (h : ns.Worth x y) :
    ∃ a, multiplicativeNumbers .multiply ns = .ok a ∧ a.exactWorth? = some (x * y) := by
  cases ns with
  | words i j =>
    obtain ⟨rfl, rfl⟩ := h
    exact ⟨_, rfl, by simp⟩
  | integers m n =>
    obtain ⟨rfl, rfl⟩ := h
    exact ⟨_, rfl, by simp⟩
  | decimals a b =>
    obtain ⟨rfl, rfl⟩ := h
    exact ⟨_, rfl, by simp⟩
  | doubles u v => cases h
  | floats u v => cases h

def Divided (op : MultiplicativeOp) (x y : ℚ) (a : Item) : Prop :=
  match op with
  | .multiply => False
  | .divide => a.type = .decimal
  | .integerDivide => a.type.isInteger = true ∧ a.exactWorth? = some (towardZero (x / y) : ℚ)
  | .modulo => ∃ z, a.exactWorth? = some z ∧ DividesInto x y (towardZero (x / y)) z

theorem divided_integer {q : ℤ} {z : ℚ} {a : Item} (h : DividesInto x y q z)
    (ht : a.type.isInteger = true) (ha : a.exactWorth? = some (q : ℚ)) :
    Divided .integerDivide x y a := by
  rw [h.quotient_eq] at ha
  exact ⟨ht, ha⟩

theorem divided_remainder {q : ℤ} {z : ℚ} {a : Item} (h : DividesInto x y q z)
    (ha : a.exactWorth? = some z) : Divided .modulo x y a := by
  have hq := h.quotient_eq
  subst hq
  exact ⟨z, ha, h⟩

theorem divided_whole {make : ℤ → Item} (htype : ∀ k, (make k).type.isInteger = true)
    (hmake : ∀ k, (make k).exactWorth? = some (k : ℚ)) (m : ℤ) {n : ℤ} (hn : (n : ℚ) ≠ 0) :
    Divided .integerDivide m n (make (m.tdiv n)) ∧ Divided .modulo m n (make (m.tmod n)) := by
  have law := DividesInto.ofInt m (Int.cast_ne_zero.1 hn)
  exact ⟨divided_integer law (htype _) (hmake _), divided_remainder law (hmake _)⟩

def IsDivision (op : MultiplicativeOp) (x y : ℚ) (result : Except Error Item) : Prop :=
  ∃ zero a, result = unlessZero zero a ∧ (zero = true ↔ y = 0) ∧ (y ≠ 0 → Divided op x y a)

theorem isDivision_decimals {op : MultiplicativeOp} (hop : op ≠ .multiply) (a b : Decimal) :
    IsDivision op a.value b.value (multiplicativeDecimals op a b) := by
  have hz := (Decimal.value_eq_zero_iff b).symm
  cases op with
  | multiply => exact absurd rfl hop
  | divide => exact ⟨_, _, rfl, hz, fun _ => rfl⟩
  | integerDivide =>
    refine ⟨_, _, rfl, hz, fun hb => ?_⟩
    exact divided_integer (a.dividesInto hb) rfl (Item.exactWorth?_integer _)
  | modulo =>
    refine ⟨_, _, rfl, hz, fun hb => ?_⟩
    exact divided_remainder (a.dividesInto hb) rfl

theorem isDivision_numbers {op : MultiplicativeOp} (hop : op ≠ .multiply) {ns : Numbers}
    (h : ns.Worth x y) : IsDivision op x y (multiplicativeNumbers op ns) := by
  have ratio (m n : ℤ) :
      IsDivision .divide m n (multiplicativeDecimals .divide (.ofInt m) (.ofInt n)) := by
    have hne : MultiplicativeOp.divide ≠ .multiply := by decide
    have h := isDivision_decimals hne (.ofInt m) (.ofInt n)
    rwa [Decimal.value_ofInt, Decimal.value_ofInt] at h
  cases ns with
  | words i j =>
    obtain ⟨rfl, rfl⟩ := h
    have hz : (j == 0) = true ↔ (j.toInt : ℚ) = 0 := by
      rw [beq_iff_eq, Int.cast_eq_zero, ← Int32.toInt_inj]
      rfl
    have whole (hj : (j.toInt : ℚ) ≠ 0) :=
      divided_whole Item.isInteger_ofInt Item.exactWorth?_ofInt i.toInt hj
    cases op with
    | multiply => exact absurd rfl hop
    | divide => exact ratio _ _
    | integerDivide => exact ⟨_, _, rfl, hz, fun hj => (whole hj).1⟩
    | modulo => exact ⟨_, _, rfl, hz, fun hj => (whole hj).2⟩
  | integers m n =>
    obtain ⟨rfl, rfl⟩ := h
    have hz : (n == 0) = true ↔ (n : ℚ) = 0 := by rw [beq_iff_eq, Int.cast_eq_zero]
    have whole (hn : (n : ℚ) ≠ 0) :=
      divided_whole (fun _ => rfl) Item.exactWorth?_integer m hn
    cases op with
    | multiply => exact absurd rfl hop
    | divide => exact ratio _ _
    | integerDivide => exact ⟨_, _, rfl, hz, fun hn => (whole hn).1⟩
    | modulo => exact ⟨_, _, rfl, hz, fun hn => (whole hn).2⟩
  | decimals a b =>
    obtain ⟨rfl, rfl⟩ := h
    exact isDivision_decimals hop a b
  | doubles u v => cases h
  | floats u v => cases h

end Arithmetic

open Arithmetic

variable {l r : Item} {x y : ℚ}

theorem AdditiveOp.apply_worth (op : AdditiveOp) (implicit : Zone) (hl : l.exactWorth? = some x)
    (hr : r.exactWorth? = some y) : ∃ a, op.apply implicit l r = .ok (some a) ∧
      a.exactWorth? = some (op.exact x y) ∧
      (a.type = .int ↔ ∃ i j, promote? additiveWords l r = some (.words i j)) := by
  obtain ⟨ns, hp, hns⟩ := promote?_worth additiveWords hl hr
  have hw (i j : Int32) (h : ns = .words i j) : additiveWords i j = true :=
    (promote?_eq_words_iff.1 (h ▸ hp)).2.2
  refine ⟨additiveNumbers op ns, ?_, additiveNumbers_worth op hns hw, ?_⟩
  · unfold AdditiveOp.apply
    rw [hp]
  · simp only [additiveNumbers_type, type_eq_int_iff, hp, Option.some.injEq]

namespace MultiplicativeOp

theorem apply_of_promote? {op : MultiplicativeOp} {ns : Numbers}
    (h : promote? (fun _ _ => op != .divide) l r = some ns) :
    op.apply l r = (multiplicativeNumbers op ns).map some := by
  unfold MultiplicativeOp.apply
  rw [h]

theorem apply_worth (hl : l.exactWorth? = some x) (hr : r.exactWorth? = some y) :
    ∃ a, MultiplicativeOp.apply .multiply l r = .ok (some a) ∧ a.exactWorth? = some (x * y) := by
  obtain ⟨ns, hp, hns⟩ := promote?_worth (fun _ _ => MultiplicativeOp.multiply != .divide) hl hr
  obtain ⟨a, ha, hax⟩ := multiplicativeNumbers_worth hns
  refine ⟨a, ?_, hax⟩
  rw [apply_of_promote? hp, ha]
  rfl

theorem apply_isDivision {op : MultiplicativeOp} (hop : op ≠ .multiply)
    (hl : l.exactWorth? = some x) (hr : r.exactWorth? = some y) :
    ∃ zero a, op.apply l r = (unlessZero zero a).map some ∧ (zero = true ↔ y = 0) ∧
      (y ≠ 0 → Divided op x y a) := by
  obtain ⟨ns, hp, hns⟩ := promote?_worth (fun _ _ => op != .divide) hl hr
  obtain ⟨zero, a, he, hz, ha⟩ := isDivision_numbers hop hns
  refine ⟨zero, a, ?_, hz, ha⟩
  rw [apply_of_promote? hp, he]

theorem apply_zero {op : MultiplicativeOp} (hop : op ≠ .multiply)
    (hl : l.exactWorth? = some x) (hr : r.exactWorth? = some 0) :
    op.apply l r = .error (.of .divisionByZero) := by
  obtain ⟨zero, a, he, hz, -⟩ := apply_isDivision hop hl hr
  rw [he, hz.2 rfl]
  rfl

theorem apply_divided {op : MultiplicativeOp} (hop : op ≠ .multiply)
    (hl : l.exactWorth? = some x) (hr : r.exactWorth? = some y) (hy : y ≠ 0) :
    ∃ a, op.apply l r = .ok (some a) ∧ Divided op x y a := by
  obtain ⟨zero, a, he, hz, ha⟩ := apply_isDivision hop hl hr
  have hzero : zero = false := Bool.eq_false_iff.2 fun h => hy (hz.1 h)
  refine ⟨a, ?_, ha hy⟩
  rw [he, hzero]
  rfl

end MultiplicativeOp

/-- Sums, differences and products of integers and decimals are exact on every rung. Words are added
as words exactly when both are below half of the greatest word, which keeps within their range, and
multiplied to a word exactly when the product is one. -/
theorem exact_sums_and_products (implicit : Zone) (hl : l.exactWorth? = some x)
    (hr : r.exactWorth? = some y) :
    (∃ a, AdditiveOp.apply .add implicit l r = .ok (some a) ∧ a.exactWorth? = some (x + y)) ∧
    (∃ a, AdditiveOp.apply .subtract implicit l r = .ok (some a) ∧ a.exactWorth? = some (x - y)) ∧
    (∃ a, MultiplicativeOp.apply .multiply l r = .ok (some a) ∧ a.exactWorth? = some (x * y)) ∧
    (∀ i j, promote? additiveWords l r = some (.words i j) ↔ l = .int i ∧ r = .int j ∧
      |i.toInt| < Int32.maxValue.toInt / 2 ∧ |j.toInt| < Int32.maxValue.toInt / 2) ∧
    (∀ i j, promote? additiveWords l r = some (.words i j) →
      (i + j).toInt = i.toInt + j.toInt ∧ (i - j).toInt = i.toInt - j.toInt) ∧
    (∀ op a, AdditiveOp.apply op implicit l r = .ok (some a) →
      (a.type = .int ↔ ∃ i j, promote? additiveWords l r = some (.words i j))) ∧
    ∀ i j, l = .int i → r = .int j → MultiplicativeOp.apply .multiply l r =
      .ok (some (if Word.Fits (i.toInt * j.toInt) then .int (.ofInt (i.toInt * j.toInt))
        else .integer (i.toInt * j.toInt))) := by
  obtain ⟨a, ha, hax, -⟩ := AdditiveOp.apply_worth .add implicit hl hr
  obtain ⟨b, hb, hbx, -⟩ := AdditiveOp.apply_worth .subtract implicit hl hr
  refine ⟨⟨a, ha, hax⟩, ⟨b, hb, hbx⟩, MultiplicativeOp.apply_worth hl hr, ?_, ?_, ?_, ?_⟩
  · intro i j
    rw [promote?_eq_words_iff, additiveWords_iff]
  · intro i j h
    exact toInt_of_additiveWords (promote?_eq_words_iff.1 h).2.2
  · intro op c hc
    obtain ⟨c', hc', -, ht⟩ := AdditiveOp.apply_worth op implicit hl hr
    cases hc.symm.trans hc'
    exact ht
  · rintro i j rfl rfl
    rw [← Item.ofInt_eq]
    rfl

theorem exact_product_of_least_word :
    (Item.int Int32.minValue).exactWorth? = some (-2147483648) ∧
      (Item.int (-1)).exactWorth? = some (-1) ∧
      ∃ a, MultiplicativeOp.apply .multiply (.int Int32.minValue) (.int (-1)) = .ok (some a) ∧
        a.exactWorth? = some 2147483648 := by
  have hl := Item.exactWorth?_minValue
  have hr := Item.exactWorth?_minusOne
  obtain ⟨-, -, ⟨a, ha, hax⟩, -⟩ := exact_sums_and_products .utc hl hr
  refine ⟨hl, hr, a, ha, ?_⟩
  rw [hax]
  norm_num

/-- Division of integers and decimals fails exactly when the divisor is zero; else the quotient is
the exact one truncated to an integer, and with the remainder it makes up the dividend. -/
theorem exact_division (hl : l.exactWorth? = some x) (hr : r.exactWorth? = some y) :
    (y = 0 → ∀ op : MultiplicativeOp, op ≠ .multiply →
      ∃ e, op.apply l r = .error e ∧ e.code = .foar0001) ∧
    (y ≠ 0 → ∃ d q m z, MultiplicativeOp.apply .divide l r = .ok (some d) ∧
      MultiplicativeOp.apply .integerDivide l r = .ok (some q) ∧
      MultiplicativeOp.apply .modulo l r = .ok (some m) ∧
      q.type.isInteger = true ∧ q.exactWorth? = some (towardZero (x / y) : ℚ) ∧
      m.exactWorth? = some z ∧ DividesInto x y (towardZero (x / y)) z) := by
  constructor
  · rintro rfl op hop
    exact ⟨_, MultiplicativeOp.apply_zero hop hl hr, rfl⟩
  · intro hy
    have result (op : MultiplicativeOp) (hop : op ≠ .multiply) :=
      MultiplicativeOp.apply_divided hop hl hr hy
    obtain ⟨d, hd, -⟩ := result .divide (by decide)
    obtain ⟨q, hq, ht, hqx⟩ := result .integerDivide (by decide)
    obtain ⟨m, hm, z, hmz, hz⟩ := result .modulo (by decide)
    exact ⟨d, q, m, z, hd, hq, hm, ht, hqx, hmz, hz⟩

theorem exact_division_of_least_word :
    (Item.int Int32.minValue).exactWorth? = some (-2147483648) ∧
      (Item.int (-1)).exactWorth? = some (-1) ∧ (-1 : ℚ) ≠ 0 ∧
      ∃ q m, MultiplicativeOp.apply .integerDivide (.int .minValue) (.int (-1)) = .ok (some q) ∧
        q.exactWorth? = some 2147483648 ∧
        MultiplicativeOp.apply .modulo (.int .minValue) (.int (-1)) = .ok (some m) ∧
        m.exactWorth? = some 0 := by
  have hl := Item.exactWorth?_minValue
  have hr := Item.exactWorth?_minusOne
  obtain ⟨d, q, m, z, -, hq, hm, -, hqx, hmz, hz⟩ := (exact_division hl hr).2 (by norm_num)
  have htrunc : towardZero (-2147483648 / -1) = 2147483648 := by norm_num [towardZero]
  have hz0 : z = 0 := by
    have := hz.law
    rw [htrunc] at this
    push_cast at this
    linarith
  rw [htrunc] at hqx
  rw [hz0] at hmz
  exact ⟨hl, hr, by norm_num, q, m, hq, by exact_mod_cast hqx, hm, hmz⟩

end PullQuery
