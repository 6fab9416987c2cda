import Mathlib.Algebra.Order.Field.Rat
import Mathlib.Algebra.Order.Ring.Cast
import Mathlib.Order.WithBot
import Mathlib.Tactic.Ring
import PullQuery.Number.Binary
import PullQuery.Number.Decimal

namespace PullQuery

namespace Decimal

def value (a : Decimal) : ℚ := a.unscaled * (10 : ℚ) ^ (-a.scale)

@[simp] theorem value_ofInt (n : Int) : (ofInt n).value = n := by
  simp [value, ofInt]

theorem cast_unscaledAt (a : Decimal) {s : Int} (h : a.scale ≤ s) :
    (a.unscaledAt s : ℚ) = a.value * (10 : ℚ) ^ s := by
  have hn : ((s - a.scale).toNat : Int) = -a.scale + s := by omega
  have hten : ((Nat.pow 10 (s - a.scale).toNat : ℕ) : ℚ) = (10 : ℚ) ^ (-a.scale + s) := by
    rw [← hn, zpow_natCast, Nat.pow_eq, Nat.cast_pow, Nat.cast_ofNat]
  rw [unscaledAt, Int.cast_mul, Int.cast_natCast, hten, zpow_add₀ (by decide), value, mul_assoc]

theorem compare_eq_compare_value (a b : Decimal) :
    a.compare b = Ord.compare a.value b.value := by
  have hpos : (0 : ℚ) < (10 : ℚ) ^ max a.scale b.scale := zpow_pos (by decide) _
  rw [compare_eq_compare_unscaledAt, ← cmp_eq_compare, ← cmp_eq_compare,
    ← cmp_mul_pos_right hpos, ← cast_unscaledAt a (Int.le_max_left ..),
    ← cast_unscaledAt b (Int.le_max_right ..)]
  exact (Int.cast_strictMono.cmp_map_eq _ _).symm

end Decimal

abbrev Extended := WithBot (WithBot (WithTop ℚ))

namespace Extended

def ofRat (q : ℚ) : Extended := ↑(↑(↑q : WithTop ℚ) : WithBot (WithTop ℚ))

def negInfinity : Extended := ↑(⊥ : WithBot (WithTop ℚ))

def infinity : Extended := ↑(↑(⊤ : WithTop ℚ) : WithBot (WithTop ℚ))

theorem ofRat_strictMono : StrictMono ofRat :=
  WithBot.coe_strictMono.comp (WithBot.coe_strictMono.comp WithTop.coe_strictMono)

theorem compare_ofRat (p q : ℚ) : compare (ofRat p) (ofRat q) = compare p q := by
  rw [← cmp_eq_compare, ← cmp_eq_compare]
  exact ofRat_strictMono.cmp_map_eq p q

theorem negInfinity_lt_ofRat (q : ℚ) : negInfinity < ofRat q :=
  WithBot.coe_lt_coe.2 (WithBot.bot_lt_coe _)

theorem ofRat_lt_infinity (q : ℚ) : ofRat q < infinity :=
  WithBot.coe_lt_coe.2 (WithBot.coe_lt_coe.2 (WithTop.coe_lt_top q))

theorem negInfinity_lt_infinity : negInfinity < infinity :=
  (negInfinity_lt_ofRat 0).trans (ofRat_lt_infinity 0)

end Extended

namespace Binary

def ratio (negative : Bool) (m : Nat) (e : Int) : ℚ := signed negative m * (2 : ℚ) ^ e

def value : Binary → Extended
  | .nan => ⊥
  | .infinite negative => if negative then .negInfinity else .infinity
  | .finite negative m e => .ofRat (ratio negative m e)

theorem cast_two (n : Nat) : ((Nat.pow 2 n : Nat) : ℚ) = 2 ^ n := by
  rw [Nat.pow_eq, Nat.cast_pow, Nat.cast_ofNat]

theorem signed_mul (negative : Bool) (m n : Nat) :
    signed negative (m * n) = signed negative m * n := by
  cases negative <;> simp [signed]

theorem signed_natAbs (n : ℤ) : signed (n < 0) n.natAbs = n := by
  unfold signed
  by_cases h : n < 0
  · rw [if_pos (decide_eq_true h)]
    omega
  · rw [if_neg (by rwa [decide_eq_true_eq])]
    omega

theorem cast_significandAt (negative : Bool) (m : Nat) {e low : Int} (h : low ≤ e) :
    (significandAt negative m e low : ℚ) = ratio negative m e * (2 : ℚ) ^ (-low) := by
  have hn : ((e - low).toNat : Int) = e + -low := by omega
  have htwo : ((Nat.pow 2 (e - low).toNat : Nat) : ℚ) = (2 : ℚ) ^ (e + -low) := by
    rw [cast_two, ← hn, zpow_natCast]
  rw [significandAt, signed_mul, Int.cast_mul, Int.cast_natCast, htwo, zpow_add₀ (by decide), ratio,
    mul_assoc]

theorem compare_significandAt (s t : Bool) (m n : Nat) (e d : Int) :
    compare (significandAt s m e (min e d)) (significandAt t n d (min e d)) =
      compare (ratio s m e) (ratio t n d) := by
  have hpos : (0 : ℚ) < (2 : ℚ) ^ (-min e d) := zpow_pos (by decide) _
  rw [← cmp_eq_compare, ← cmp_eq_compare, ← cmp_mul_pos_right hpos,
    ← cast_significandAt s m (Int.min_le_left ..), ← cast_significandAt t n (Int.min_le_right ..)]
  exact (Int.cast_strictMono.cmp_map_eq _ _).symm

theorem compare?_eq_compare_value {a b : Binary} (ha : a ≠ .nan) (hb : b ≠ .nan) :
    a.compare? b = some (compare a.value b.value) := by
  cases a with
  | nan => exact absurd rfl ha
  | infinite s =>
    cases b with
    | nan => exact absurd rfl hb
    | infinite t =>
      cases s <;> cases t
      · exact congrArg some (compare_eq_iff_eq.2 rfl).symm
      · exact congrArg some (compare_gt_iff_gt.2 Extended.negInfinity_lt_infinity).symm
      · exact congrArg some (compare_lt_iff_lt.2 Extended.negInfinity_lt_infinity).symm
      · exact congrArg some (compare_eq_iff_eq.2 rfl).symm
    | finite t n d =>
      cases s
      · exact congrArg some (compare_gt_iff_gt.2 (Extended.ofRat_lt_infinity _)).symm
      · exact congrArg some (compare_lt_iff_lt.2 (Extended.negInfinity_lt_ofRat _)).symm
  | finite s m e =>
    cases b with
    | nan => exact absurd rfl hb
    | infinite t =>
      cases t
      · exact congrArg some (compare_lt_iff_lt.2 (Extended.ofRat_lt_infinity _)).symm
      · exact congrArg some (compare_gt_iff_gt.2 (Extended.negInfinity_lt_ofRat _)).symm
    | finite t n d =>
      rw [compare?, compare_significandAt, value, value, Extended.compare_ofRat]

theorem value_finiteDecimal (negative : Bool) (m : Nat) (e : Int) :
    (finiteDecimal negative m e).value = ratio negative m e := by
  unfold finiteDecimal
  split
  case isTrue h =>
    have he : ((e.toNat : Nat) : Int) = e := Int.toNat_of_nonneg h
    rw [Decimal.value, Int.cast_mul, Int.cast_natCast, cast_two, neg_zero, zpow_zero, mul_one,
      ratio, ← zpow_natCast, he]
  case isFalse h =>
    have he : (((-e).toNat : Nat) : Int) = -e := Int.toNat_of_nonneg (by omega)
    have hfive : ((Nat.pow 5 (-e).toNat : Nat) : ℚ) = (5 : ℚ) ^ (-e) := by
      rw [Nat.pow_eq, Nat.cast_pow, ← zpow_natCast, he, Nat.cast_ofNat]
    have hten : (5 : ℚ) ^ (-e) * (10 : ℚ) ^ (- -e) = (2 : ℚ) ^ e := by
      rw [neg_neg, show (10 : ℚ) = 5 * 2 by norm_num, mul_zpow, ← mul_assoc,
        ← zpow_add₀ (by decide), neg_add_cancel, zpow_zero, one_mul]
    rw [Decimal.value, Int.cast_mul, Int.cast_natCast, hfive, mul_assoc, hten, ratio]

end Binary

end PullQuery
