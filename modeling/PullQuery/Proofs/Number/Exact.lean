import Mathlib.Algebra.Order.Field.Basic
import Mathlib.Data.Rat.Floor
import Mathlib.Tactic.FieldSimp
import Mathlib.Tactic.Linarith
import Mathlib.Tactic.Ring
import PullQuery.Proofs.Number.Value

namespace PullQuery

def towardZero (x : ℚ) : ℤ := if x < 0 then ⌈x⌉ else ⌊x⌋

/-- Division of `x` by `y` with a remainder that is zero or has the sign of `x`. -/
structure DividesInto (x y : ℚ) (quotient : ℤ) (remainder : ℚ) : Prop where
  law : x = quotient * y + remainder
  small : |remainder| < |y|
  sign : remainder = 0 ∨ 0 < remainder * x

namespace DividesInto

variable {x y r : ℚ} {q : ℤ}

theorem quotient_eq (h : DividesInto x y q r) : q = towardZero (x / y) := by
  have hy : y ≠ 0 := by
    rintro rfl
    have := h.small
    rw [abs_zero] at this
    exact absurd (abs_nonneg r) (not_le.2 this)
  have hx : x / y = q + r / y := by
    rw [h.law]
    field_simp
  have hsmall : |r / y| < 1 := by
    rw [abs_div, div_lt_one (abs_pos.2 hy)]
    exact h.small
  obtain ⟨hlow, hhigh⟩ := abs_lt.1 hsmall
  -- What the quotient leaves out has the sign of the exact quotient, so it is cut off toward zero.
  have hsign : r / y = 0 ∨ 0 < (r / y) * (x / y) := by
    obtain hr | hr := h.sign
    · left
      rw [hr, zero_div]
    · right
      rw [div_mul_div_comm]
      exact div_pos hr (mul_self_pos.2 hy)
  symm
  unfold towardZero
  by_cases hneg : x / y < 0
  · rw [if_pos hneg, Int.ceil_eq_iff]
    obtain h0 | hpos := hsign
    · constructor <;> linarith
    · have := neg_of_mul_pos_left hpos hneg.le
      constructor <;> linarith
  · rw [if_neg hneg, Int.floor_eq_iff]
    obtain h0 | hpos := hsign
    · constructor <;> linarith
    · have := pos_of_mul_pos_left hpos (not_lt.1 hneg)
      constructor <;> linarith

theorem ofInt (m : ℤ) {n : ℤ} (hn : n ≠ 0) : DividesInto m n (m.tdiv n) (m.tmod n : ℤ) where
  law := by
    have := Int.tdiv_mul_add_tmod m n
    exact_mod_cast this.symm
  small := by
    rw [← Int.cast_abs, ← Int.cast_abs, Int.cast_lt, Int.abs_eq_natAbs, Int.abs_eq_natAbs,
      Int.natAbs_tmod, Int.ofNat_lt]
    apply Nat.mod_lt
    omega
  sign := by
    by_cases hd : n ∣ m
    · left
      rw [Int.tmod_eq_zero_of_dvd hd, Int.cast_zero]
    · right
      have hs : (m.tmod n).sign = m.sign := by rw [Int.sign_tmod, if_neg hd]
      have hm : m ≠ 0 := by
        rintro rfl
        exact hd (dvd_zero n)
      have : 0 < m.tmod n * m := by
        rw [← Int.sign_eq_one_iff_pos, Int.sign_mul, hs, ← Int.sign_mul, Int.sign_eq_one_iff_pos]
        exact mul_self_pos.2 hm
      exact_mod_cast this

theorem mul (h : DividesInto x y q r) {c : ℚ} (hc : 0 < c) :
    DividesInto (x * c) (y * c) q (r * c) where
  law := by
    rw [h.law]
    ring
  small := by
    rw [abs_mul, abs_mul]
    exact mul_lt_mul_of_pos_right h.small (abs_pos.2 hc.ne')
  sign := by
    obtain hr | hr := h.sign
    · left
      rw [hr, zero_mul]
    · right
      rw [mul_mul_mul_comm]
      exact mul_pos hr (mul_pos hc hc)

end DividesInto

namespace Decimal

theorem unscaledAt_mul (a : Decimal) {s : Int} (h : a.scale ≤ s) :
    (a.unscaledAt s : ℚ) * (10 : ℚ) ^ (-s) = a.value := by
  rw [cast_unscaledAt a h, mul_assoc, ← zpow_add₀ (by decide), add_neg_cancel, zpow_zero, mul_one]

theorem value_eq_zero_iff (a : Decimal) : a.value = 0 ↔ a.isZero = true := by
  have hten : (10 : ℚ) ^ (-a.scale) ≠ 0 := zpow_ne_zero _ (by decide)
  rw [value, mul_eq_zero, or_iff_left hten, Int.cast_eq_zero, isZero, beq_iff_eq]

theorem value_stripZeros (fuel : Nat) (n s : Int) :
    (stripZeros fuel n s).value = value ⟨n, s⟩ := by
  induction fuel generalizing n s with
  | zero => rfl
  | succ fuel ih =>
    unfold stripZeros
    by_cases h : n % 10 = 0
    · rw [if_pos h, ih, value, value]
      have hn : (n : ℚ) = (n / 10 : Int) * 10 := by
        exact_mod_cast (Int.ediv_mul_cancel_of_emod_eq_zero h).symm
      have hp : (10 : ℚ) ^ (-(s - 1)) = 10 * 10 ^ (-s) := by
        rw [neg_sub, sub_eq_add_neg, zpow_add₀ (by decide), zpow_one]
      rw [hn, hp, mul_assoc]
    · rw [if_neg h]

@[simp] theorem value_normalized (a : Decimal) : a.normalized.value = a.value := by
  unfold normalized
  by_cases h : a.isZero = true
  · rw [if_pos h, (value_eq_zero_iff a).2 h]
    exact (value_eq_zero_iff _).2 rfl
  · rw [if_neg h]
    exact value_stripZeros _ _ _

@[simp] theorem value_neg (a : Decimal) : a.neg.value = -a.value := by
  simp [value, neg]

theorem value_of_isOne {a : Decimal} (h : a.isOne = true) : a.value = 1 := by
  simp only [isOne, Bool.and_eq_true, decide_eq_true_eq, beq_iff_eq] at h
  obtain ⟨⟨hs, -⟩, hu⟩ := h
  have hn : ((a.scale.toNat : Nat) : Int) = a.scale := Int.toNat_of_nonneg hs
  have hten : (a.unscaled : ℚ) = (10 : ℚ) ^ a.scale := by
    rw [hu, Int.cast_natCast, Nat.pow_eq, Nat.cast_pow, ← zpow_natCast, hn,
      Nat.cast_ofNat]
  rw [value, hten, ← zpow_add₀ (by decide), add_neg_cancel, zpow_zero]

@[simp] theorem value_add (a b : Decimal) : (a.add b).value = a.value + b.value := by
  rw [← unscaledAt_mul a (Int.le_max_left a.scale b.scale),
    ← unscaledAt_mul b (Int.le_max_right a.scale b.scale), ← add_mul, ← Int.cast_add]
  rfl

@[simp] theorem value_sub (a b : Decimal) : (a.sub b).value = a.value - b.value := by
  unfold sub
  by_cases hb : b.isZero = true
  · rw [if_pos hb, (value_eq_zero_iff b).2 hb, sub_zero]
  by_cases ha : a.isZero = true
  · rw [if_neg hb, if_pos ha, (value_eq_zero_iff a).2 ha, value_neg, zero_sub]
  rw [if_neg hb, if_neg ha, ← unscaledAt_mul a (Int.le_max_left a.scale b.scale),
    ← unscaledAt_mul b (Int.le_max_right a.scale b.scale), ← sub_mul, ← Int.cast_sub]
  rfl

@[simp] theorem value_mul (a b : Decimal) : (a.mul b).value = a.value * b.value := by
  unfold mul
  by_cases ha : a.isOne = true
  · rw [if_pos ha, value_of_isOne ha, one_mul]
  by_cases hb : b.isOne = true
  · rw [if_neg ha, if_pos hb, value_of_isOne hb, mul_one]
  rw [if_neg ha, if_neg hb, value, value, value, neg_add, zpow_add₀ (by decide), Int.cast_mul]
  ring

theorem value_tmod (a b : Decimal) : (a.tmod b).value = a.value - a.tdiv b * b.value := by
  have hm : (⟨b.unscaled * a.tdiv b, b.scale⟩ : Decimal).value = a.tdiv b * b.value := by
    rw [value, value, Int.cast_mul]
    ring
  rw [tmod, value_neg, value_sub, hm, neg_sub]

theorem dividesInto (a : Decimal) {b : Decimal} (hb : b.value ≠ 0) :
    DividesInto a.value b.value (a.tdiv b) (a.tmod b).value := by
  let s := max a.scale b.scale
  have hten : (0 : ℚ) < (10 : ℚ) ^ (-s) := zpow_pos (by decide) _
  have ha : (a.unscaledAt s : ℚ) * (10 : ℚ) ^ (-s) = a.value :=
    unscaledAt_mul a (Int.le_max_left ..)
  have hbs : (b.unscaledAt s : ℚ) * (10 : ℚ) ^ (-s) = b.value :=
    unscaledAt_mul b (Int.le_max_right ..)
  have hne : b.unscaledAt s ≠ 0 := by
    intro h0
    apply hb
    rw [← hbs, h0, Int.cast_zero, zero_mul]
  have h := (DividesInto.ofInt (a.unscaledAt s) hne).mul hten
  rw [ha, hbs] at h
  have hr : (a.tmod b).value = ((a.unscaledAt s).tmod (b.unscaledAt s) : ℤ) * (10 : ℚ) ^ (-s) := by
    rw [value_tmod]
    exact sub_eq_of_eq_add' h.law
  rw [hr]
  exact h

end Decimal

end PullQuery
