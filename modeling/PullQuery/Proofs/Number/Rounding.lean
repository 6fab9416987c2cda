import Mathlib.Algebra.Order.Field.Basic
import Mathlib.Algebra.Order.Field.Power
import Mathlib.Data.Nat.Factorization.Basic
import Mathlib.Tactic.Linarith
import Mathlib.Tactic.NormNum
import PullQuery.Proofs.Number.Value

/-!
Rounding to doubles. A rational number is rounded to a whole count of units, of which its magnitude
takes up to 53 digits unless the unit is the least one; so rounding is off by half a unit at most,
and it keeps what 53 digits can write.
-/

namespace PullQuery

namespace Binary

def Representable (q : ℚ) : Prop :=
  ∃ n e : ℤ, |n| ≤ 2 ^ 53 ∧ -1074 ≤ e ∧ q = n * 2 ^ e

structure NearestEven (x : ℚ) (n : ℤ) : Prop where
  near : |(n : ℚ) - x| ≤ 1 / 2
  even : |(n : ℚ) - x| = 1 / 2 → Even n

/-- A number rounded to a count of units; a count of `2 ^ 53` takes a digit too many. -/
structure Rounded (q : ℚ) (n e : ℤ) : Prop where
  nearest : NearestEven (q / 2 ^ e) n
  lt : |q / 2 ^ e| < 2 ^ 53
  least : -1074 ≤ e
  leading : e = -1074 ∨ 2 ^ 52 ≤ |q / 2 ^ e|

def Rounds (q r : ℚ) : Prop := ∃ n e : ℤ, Rounded q n e ∧ r = n * 2 ^ e

theorem two_zpow_pos (e : ℤ) : (0 : ℚ) < 2 ^ e := zpow_pos (by decide) e

theorem two_zpow_add (d e : ℤ) : (2 : ℚ) ^ (d + e) = 2 ^ d * 2 ^ e := zpow_add₀ (by decide) d e

theorem two_zpow_le_iff {d e : ℤ} : (2 : ℚ) ^ d ≤ 2 ^ e ↔ d ≤ e :=
  zpow_le_zpow_iff_right₀ (by decide)

theorem two_zpow_lt_iff {d e : ℤ} : (2 : ℚ) ^ d < 2 ^ e ↔ d < e :=
  zpow_lt_zpow_iff_right₀ (by decide)

theorem two_zpow_eq_div (e : ℤ) : (2 : ℚ) ^ e = 2 ^ e.toNat / 2 ^ (-e).toNat := by
  rw [← zpow_natCast, ← zpow_natCast, ← zpow_sub₀ (by decide)]
  congr 1
  omega

section Representing

theorem representable_intCast {n : ℤ} (h : |n| ≤ 2 ^ 53) : Representable n :=
  ⟨n, 0, h, by decide, by rw [zpow_zero, mul_one]⟩

theorem representable_zero : Representable 0 := ⟨0, 0, by decide, by decide, by norm_num⟩

theorem representable_signed {n : ℕ} (hn : n ≤ 2 ^ 53) (i : ℕ) {a : ℤ}
    (ha : a.natAbs = 2 ^ i * n) : Representable a := by
  have habs : |(n : ℤ)| ≤ 2 ^ 53 := by
    rw [Nat.abs_cast]
    exact_mod_cast hn
  obtain h | h := a.natAbs_eq
  · refine ⟨n, i, habs, by omega, ?_⟩
    rw [h, ha, mul_comm, zpow_natCast]
    norm_cast
  · refine ⟨-n, i, by rwa [abs_neg], by omega, ?_⟩
    rw [h, ha, mul_comm, zpow_natCast, Int.cast_neg, Int.cast_neg, neg_mul]
    norm_cast

theorem representable_of_mul {a k : ℤ} (hne : a * k ≠ 0) (h : Representable (a * k : ℤ)) :
    Representable a := by
  obtain ⟨n, e, hn, -, hp⟩ := h
  obtain ⟨ha, -⟩ := mul_ne_zero_iff.1 hne
  obtain ⟨i, m, hodd, hm⟩ := Nat.exists_eq_two_pow_mul_odd (Int.natAbs_ne_zero.2 ha)
  have hwhole : a * k * 2 ^ (-e).toNat = n * 2 ^ e.toNat := by
    have hsplit : (2 : ℚ) ^ e * 2 ^ (-e).toNat = 2 ^ e.toNat := by
      rw [← zpow_natCast, ← zpow_natCast, ← two_zpow_add]
      congr 1
      omega
    have : ((a * k : ℤ) : ℚ) * 2 ^ (-e).toNat = n * 2 ^ e.toNat := by
      rw [hp, mul_assoc, hsplit]
    exact_mod_cast this
  have hdvd : m ∣ n.natAbs := by
    have hnat : a.natAbs * k.natAbs * 2 ^ (-e).toNat = n.natAbs * 2 ^ e.toNat := by
      have := congrArg Int.natAbs hwhole
      rwa [Int.natAbs_mul, Int.natAbs_mul, Int.natAbs_mul, Int.natAbs_pow, Int.natAbs_pow] at this
    refine (Nat.Coprime.pow_right e.toNat hodd.coprime_two_right).dvd_of_dvd_mul_right ?_
    rw [← hnat, hm, Nat.mul_assoc, Nat.mul_assoc]
    exact Dvd.dvd.mul_left (Nat.dvd_mul_right ..) _
  have hn0 : n.natAbs ≠ 0 := by
    rw [Int.natAbs_ne_zero]
    rintro rfl
    rw [Int.cast_zero, zero_mul] at hp
    exact hne (by exact_mod_cast hp)
  refine representable_signed ((Nat.le_of_dvd (Nat.pos_of_ne_zero hn0) hdvd).trans ?_) i hm
  rw [Int.abs_eq_natAbs] at hn
  exact_mod_cast hn

theorem exists_multiple {n d e : ℤ} (hn : |n| ≤ 2 ^ 53) (hd : -1074 ≤ d)
    (he : e = -1074 ∨ (2 : ℚ) ^ (e + 52) ≤ |(n : ℚ) * 2 ^ d|) :
    ∃ k : ℤ, (n : ℚ) * 2 ^ d = k * 2 ^ e := by
  by_cases hle : e ≤ d
  · obtain ⟨j, rfl⟩ := Int.le.dest hle
    refine ⟨n * 2 ^ j, ?_⟩
    rw [two_zpow_add, zpow_natCast, Int.cast_mul, Int.cast_pow, Int.cast_ofNat]
    ring
  · have hlead := he.resolve_left (by omega)
    have hcast : |(n : ℚ)| ≤ 2 ^ (53 : ℤ) := by exact_mod_cast hn
    have habs : |(n : ℚ) * 2 ^ d| = |(n : ℚ)| * 2 ^ d := by
      rw [abs_mul, abs_of_pos (two_zpow_pos d)]
    rw [habs] at hlead
    have hde : d + 1 = e := by
      have : (2 : ℚ) ^ (e + 52) ≤ 2 ^ (53 + d) := by
        rw [two_zpow_add 53]
        exact hlead.trans (mul_le_mul_of_nonneg_right hcast (two_zpow_pos d).le)
      have := two_zpow_le_iff.1 this
      omega
    have htop : 2 ^ 53 ≤ |n| := by
      rw [← hde, show d + 1 + 52 = 53 + d by ring, two_zpow_add 53,
        mul_le_mul_iff_left₀ (two_zpow_pos d)] at hlead
      exact_mod_cast hlead
    obtain ⟨k, hk⟩ : ∃ k : ℤ, n = k * 2 := by
      obtain h | h := abs_eq (by decide : (0 : ℤ) ≤ 2 ^ 53) |>.1 (le_antisymm hn htop)
      · exact ⟨2 ^ 52, h⟩
      · exact ⟨-2 ^ 52, h⟩
    refine ⟨k, ?_⟩
    rw [hk, ← hde, two_zpow_add, zpow_one]
    push_cast
    ring

end Representing

section Rounds

theorem eq_of_near {p n : ℤ} (h : |(n : ℚ) - p| ≤ 1 / 2) : n = p := by
  have hlt : |n - p| < 1 := by
    have : |((n - p : ℤ) : ℚ)| < 1 := by
      rw [Int.cast_sub]
      linarith
    exact_mod_cast this
  have := Int.abs_lt_one_iff.1 hlt
  omega

theorem eq_zero_of_near {r : ℚ} {n : ℤ} (h : |(n : ℚ) - r| ≤ 1 / 2) (hr : |r| < 1 / 2) :
    n = 0 := by
  have hsum := abs_add_le (n - r) r
  rw [sub_add_cancel] at hsum
  have hlt : |(n : ℚ)| < 1 := by linarith only [h, hr, hsum]
  exact Int.abs_lt_one_iff.1 (by exact_mod_cast hlt)

variable {x q r p : ℚ} {n k e : ℤ}

theorem NearestEven.neg (h : NearestEven x n) : NearestEven (-x) (-n) where
  near := by
    rw [Int.cast_neg, neg_sub_neg, abs_sub_comm]
    exact h.near
  even := by
    rw [Int.cast_neg, neg_sub_neg, abs_sub_comm]
    exact fun ht => (h.even ht).neg

theorem NearestEven.le_of_near (h : NearestEven x n) (hx : x < 2 ^ 53)
    (hk : k * (1 - 1 / 2 ^ 54) ≤ x) : k ≤ n := by
  by_contra hlt
  have hsucc : (n : ℚ) + 1 ≤ k := by exact_mod_cast not_le.1 hlt
  obtain ⟨hlow, hhigh⟩ := abs_le.1 h.near
  have hge : 2 ^ 53 ≤ k := by
    have : (2 : ℚ) ^ 53 ≤ k := by linarith
    exact_mod_cast this
  have hle : k < 2 ^ 53 + 1 := by
    have : (k : ℚ) < 2 ^ 53 + 1 := by linarith
    exact_mod_cast this
  obtain rfl : k = 2 ^ 53 := by omega
  rw [Int.cast_pow, Int.cast_ofNat] at hk hsucc
  have hn : n = 2 ^ 53 - 1 := by
    have : (2 : ℚ) ^ 53 - 2 < n := by linarith
    have : 2 ^ 53 - 2 < n := by exact_mod_cast this
    omega
  have htie : |(n : ℚ) - x| = 1 / 2 := by
    have hnq : (n : ℚ) = 2 ^ 53 - 1 := by
      rw [hn]
      norm_num
    rw [hnq] at hlow ⊢
    rw [abs_of_nonpos (by linarith)]
    linarith
  exact absurd (hn ▸ h.even htie) (by decide)

theorem Rounded.neg (h : Rounded q n e) : Rounded (-q) (-n) e := by
  constructor
  case nearest =>
    rw [neg_div]
    exact h.nearest.neg
  case lt =>
    rw [neg_div, abs_neg]
    exact h.lt
  case least => exact h.least
  case leading =>
    rw [neg_div, abs_neg]
    exact h.leading

theorem Rounded.error (h : Rounded q n e) : |n * 2 ^ e - q| ≤ 2 ^ e / 2 := by
  have hunit : n * 2 ^ e - q = (n - q / 2 ^ e) * 2 ^ e := by
    rw [sub_mul, div_mul_cancel₀ q (two_zpow_pos e).ne']
  rw [hunit, abs_mul, abs_of_pos (two_zpow_pos e)]
  linarith [mul_le_mul_of_nonneg_right h.nearest.near (two_zpow_pos e).le]

theorem Rounded.leading_le (h : Rounded q n e) : e = -1074 ∨ (2 : ℚ) ^ (e + 52) ≤ |q| := by
  refine h.leading.imp_right fun hl => ?_
  rw [abs_div, abs_of_pos (two_zpow_pos e), le_div_iff₀ (two_zpow_pos e)] at hl
  rw [add_comm, two_zpow_add]
  exact_mod_cast hl

theorem Rounds.neg (h : Rounds q r) : Rounds (-q) (-r) := by
  obtain ⟨n, e, h, rfl⟩ := h
  exact ⟨-n, e, h.neg, by rw [Int.cast_neg, neg_mul]⟩

theorem Rounds.nonneg (h : Rounds q r) (hq : 0 ≤ q) : 0 ≤ r := by
  obtain ⟨n, e, h, rfl⟩ := h
  have hx : 0 ≤ q / 2 ^ e := div_nonneg hq (two_zpow_pos e).le
  have hn : (-1 : ℚ) < n := by linarith [(abs_le.1 h.nearest.near).1]
  have hn : 0 ≤ n := Int.add_one_le_iff.2 (by exact_mod_cast hn)
  exact mul_nonneg (by exact_mod_cast hn) (two_zpow_pos e).le

theorem Rounds.abs (h : Rounds q r) : Rounds |q| |r| := by
  obtain hq | hq := le_total 0 q
  · rwa [abs_of_nonneg hq, abs_of_nonneg (h.nonneg hq)]
  · have hr := h.neg.nonneg (neg_nonneg.2 hq)
    rw [abs_of_nonpos hq, abs_of_nonpos (neg_nonneg.1 hr)]
    exact h.neg

theorem Rounds.eq_of_representable (h : Rounds q r) (hq : Representable q) : r = q := by
  obtain ⟨n, e, h, rfl⟩ := h
  obtain ⟨m, d, hm, hd, rfl⟩ := hq
  obtain ⟨k, hk⟩ := exists_multiple hm hd h.leading_le
  have hnear := h.nearest.near
  rw [hk, mul_div_cancel_right₀ _ (two_zpow_pos e).ne'] at hnear
  rw [hk, eq_of_near hnear]

/-- What 53 digits can write is not passed by rounding, nor is it missed by a part in `2 ^ 54`. -/
theorem Rounds.le_of_near (h : Rounds q r) (hp : Representable p) (h0 : 0 ≤ p)
    (hq : p * (1 - 1 / 2 ^ 54) ≤ q) : p ≤ r := by
  obtain ⟨n, e, h, rfl⟩ := h
  by_cases hunit : e = -1074 ∨ (2 : ℚ) ^ (e + 52) ≤ |p|
  · obtain ⟨m, d, hm, hd, rfl⟩ := hp
    obtain ⟨k, hk⟩ := exists_multiple hm hd hunit
    rw [hk, mul_right_comm] at hq
    have hle : k ≤ n := h.nearest.le_of_near (abs_lt.1 h.lt).2 ((le_div_iff₀ (two_zpow_pos e)).2 hq)
    rw [hk]
    exact mul_le_mul_of_nonneg_right (by exact_mod_cast hle) (two_zpow_pos e).le
  · -- The number has more digits before the unit than `p`.
    obtain ⟨he, hlt⟩ := not_or.1 hunit
    rw [abs_of_nonneg h0, not_le, add_comm, two_zpow_add] at hlt
    have hq0 : 0 ≤ q := le_trans (mul_nonneg h0 (by norm_num)) hq
    have hlead := h.leading.resolve_left he
    rw [abs_of_nonneg (div_nonneg hq0 (two_zpow_pos e).le)] at hlead
    have hn : (2 : ℚ) ^ 52 - 1 < n := by linarith [(abs_le.1 h.nearest.near).1]
    have hn : 2 ^ 52 ≤ n := by
      have : 2 ^ 52 - 1 < n := by exact_mod_cast hn
      omega
    refine hlt.le.trans (mul_le_mul_of_nonneg_right ?_ (two_zpow_pos e).le)
    exact_mod_cast hn

theorem Rounds.error (h : Rounds q r) : |r - q| ≤ max (|q| / 2 ^ 53) (2 ^ (-1075 : ℤ)) := by
  obtain ⟨n, e, h, rfl⟩ := h
  have herr := h.error
  obtain rfl | hlead := h.leading_le
  · refine (herr.trans_eq ?_).trans (le_max_right ..)
    rw [div_eq_mul_inv, show (-1075 : ℤ) = -1074 + -1 by decide, two_zpow_add, zpow_neg_one]
  · refine (herr.trans ?_).trans (le_max_left ..)
    have hscale : (2 : ℚ) ^ e / 2 = 2 ^ (e + 52) / 2 ^ 53 := by
      rw [two_zpow_add]
      norm_num
      ring
    rw [hscale]
    exact div_le_div_of_nonneg_right hlead (by norm_num)

theorem Rounds.abs_lt (h : Rounds q r) {d : ℤ} (hd : -1021 ≤ d)
    (hq : |q| < 2 ^ d * (1 - 1 / 2 ^ 54)) : |r| < 2 ^ d := by
  obtain ⟨n, e, h, rfl⟩ := h
  have hlt : |q| < 2 ^ d := hq.trans_le (mul_le_of_le_one_right (two_zpow_pos d).le (by norm_num))
  have hed : e ≤ d - 53 := by
    obtain rfl | hlead := h.leading_le
    · omega
    · have := two_zpow_lt_iff.1 (hlead.trans_lt hlt)
      omega
  have hunit : (2 : ℚ) ^ e / 2 ≤ 2 ^ d * (1 / 2 ^ 54) := by
    have hscale : (2 : ℚ) ^ (d - 53) = 2 ^ d / 2 ^ 53 := by
      rw [zpow_sub₀ (by decide)]
      norm_cast
    have := two_zpow_le_iff.2 hed
    rw [hscale] at this
    linarith
  have hsum := abs_add_le (n * 2 ^ e - q) q
  rw [sub_add_cancel] at hsum
  linarith [h.error]

theorem Rounds.abs_le (h : Rounds q r) (he : -1075 ≤ e) (hq : |q| ≤ 2 ^ e) :
    |r| ≤ 2 ^ (e + 1) := by
  have herr : |r - q| ≤ 2 ^ e := by
    refine h.error.trans (max_le ?_ (two_zpow_le_iff.2 he))
    exact (div_le_self (abs_nonneg q) (by norm_num)).trans hq
  have hsum := abs_add_le (r - q) q
  rw [sub_add_cancel] at hsum
  rw [two_zpow_add, zpow_one]
  linarith

def Within (ε a b : ℚ) : Prop := |b - a| ≤ |a| * ε

theorem Rounds.within (h : Rounds q r) (hq : (2 : ℚ) ^ (-1022 : ℤ) ≤ |q|) :
    Within (1 / 2 ^ 53) q r := by
  refine h.error.trans (max_le ?_ ?_)
  · rw [div_eq_mul_one_div]
  · have hunit : (1 : ℚ) / 2 ^ 53 = 2 ^ (-53 : ℤ) := by
      rw [zpow_neg, one_div]
      norm_cast
    rw [show (-1075 : ℤ) = -1022 + -53 by decide, two_zpow_add, hunit]
    exact mul_le_mul_of_nonneg_right hq (two_zpow_pos _).le

theorem Within.of_eq {ε a b : ℚ} (hε : 0 ≤ ε) (h : b = a) : Within ε a b := by
  rw [Within, h, sub_self, abs_zero]
  exact mul_nonneg (abs_nonneg a) hε

theorem Within.trans {ε δ a b c : ℚ} (hb : Within ε a b) (hc : Within δ b c) (hδ : 0 ≤ δ) :
    Within (ε + δ + ε * δ) a c := by
  unfold Within at *
  have hsize : |b| ≤ |a| + |a| * ε := by
    have := abs_add_le (b - a) a
    rw [sub_add_cancel] at this
    linarith
  calc |c - a| = |(c - b) + (b - a)| := by rw [sub_add_sub_cancel]
    _ ≤ |c - b| + |b - a| := abs_add_le ..
    _ ≤ |b| * δ + |a| * ε := add_le_add hc hb
    _ ≤ (|a| + |a| * ε) * δ + |a| * ε :=
        add_le_add_left (mul_le_mul_of_nonneg_right hsize hδ) _
    _ = |a| * (ε + δ + ε * δ) := by ring

theorem Within.mul_left {ε a b : ℚ} (h : Within ε a b) (c : ℚ) : Within ε (c * a) (c * b) := by
  unfold Within at *
  rw [← mul_sub, abs_mul, abs_mul, mul_assoc]
  exact mul_le_mul_of_nonneg_left h (abs_nonneg c)

theorem Within.mul {ε δ a b x y : ℚ} (ha : Within ε a x) (hb : Within δ b y) (hδ : 0 ≤ δ) :
    Within (ε + δ + ε * δ) (a * b) (x * y) := by
  have hab : Within ε (a * b) (x * b) := by
    rw [mul_comm a, mul_comm x]
    exact ha.mul_left b
  exact hab.trans (hb.mul_left x) hδ

theorem Within.mono {ε δ a b : ℚ} (h : Within ε a b) (hεδ : ε ≤ δ) : Within δ a b :=
  le_trans h (mul_le_mul_of_nonneg_left hεδ (abs_nonneg a))

theorem Within.size {a b : ℚ} (h : Within (1 / 2) a b) : |a| / 2 ≤ |b| ∧ |b| ≤ 3 / 2 * |a| := by
  unfold Within at h
  have hlow := abs_sub_abs_le_abs_sub a b
  have hhigh := abs_sub_abs_le_abs_sub b a
  rw [abs_sub_comm] at hlow
  constructor <;> linarith

theorem rounds_zero : Rounds 0 0 := by
  refine ⟨0, -1074, ⟨⟨?_, fun _ => Even.zero⟩, ?_, le_rfl, .inl rfl⟩, ?_⟩
  · norm_num
  · norm_num
  · rw [Int.cast_zero, zero_mul]

end Rounds

section Settling

theorem nearestEven_of_lt {x : ℚ} {m : ℕ} (h : |(m : ℚ) - x| < 1 / 2) : NearestEven x m := by
  rw [← Int.cast_natCast] at h
  exact ⟨h.le, fun ht => absurd ht h.ne⟩

theorem nearestEven_of_even {x : ℚ} {m : ℕ} (he : Even m) (h : |(m : ℚ) - x| ≤ 1 / 2) :
    NearestEven x m := by
  rw [← Int.cast_natCast] at h
  exact ⟨h, fun _ => (Int.even_coe_nat m).2 he⟩

theorem rounded_of_quotient {x : ℚ} {n e : ℤ} (hn : NearestEven x n) (h0 : 0 ≤ x)
    (hx : x < 2 ^ 53) (he : -1074 ≤ e) (hl : e = -1074 ∨ 2 ^ 52 ≤ x) :
    Rounded (x * 2 ^ e) n e := by
  have hq : x * 2 ^ e / 2 ^ e = x := mul_div_cancel_right₀ x (two_zpow_pos e).ne'
  constructor
  case nearest => rwa [hq]
  case lt => rwa [hq, abs_of_nonneg h0]
  case least => exact he
  case leading => rwa [hq, abs_of_nonneg h0]

def carry (m : ℕ) (e : ℤ) : ℕ × ℤ := if m = 2 ^ 53 then (2 ^ 52, e + 1) else (m, e)

def settle (negative : Bool) (m : ℕ) (e : ℤ) : Binary :=
  if 971 < (carry m e).2 then .infinite negative else .finite negative (carry m e).1 (carry m e).2

def Canonical : Binary → Prop
  | .finite _ m e => m < 2 ^ 53 ∧ -1074 ≤ e ∧ e ≤ 971 ∧ (e = -1074 ∨ 2 ^ 52 ≤ m)
  | _ => True

def sign (negative : Bool) : ℚ := if negative then -1 else 1

theorem cast_signed (negative : Bool) (n : ℕ) : (signed negative n : ℚ) = sign negative * n := by
  unfold signed sign
  cases negative
  · rw [if_neg Bool.false_ne_true, if_neg Bool.false_ne_true, Int.cast_natCast, one_mul]
  · rw [if_pos rfl, if_pos rfl, Int.cast_neg, Int.cast_natCast, neg_one_mul]

theorem ratio_eq (negative : Bool) (m : ℕ) (e : ℤ) :
    ratio negative m e = sign negative * (m * 2 ^ e) := by
  rw [ratio, cast_signed, mul_assoc]

theorem abs_sign_mul (negative : Bool) (q : ℚ) : |sign negative * q| = |q| := by
  unfold sign
  cases negative
  · rw [if_neg Bool.false_ne_true, one_mul]
  · rw [if_pos rfl, neg_one_mul, abs_neg]

def Approximates (b : Binary) (q : ℚ) : Prop :=
  (∃ negative, b = .infinite negative ∧ 2 ^ 1023 ≤ |q|) ∨
    ∃ negative m e, b = .finite negative m e ∧ Rounds q (ratio negative m e)

variable {q : ℚ} {m : ℕ} {e : ℤ}

theorem Rounded.le (h : Rounded q m e) : m ≤ 2 ^ 53 := by
  have hnear := h.nearest.near
  rw [Int.cast_natCast] at hnear
  have : (m : ℚ) < 2 ^ 53 + 1 := by linarith [(abs_le.1 hnear).2, (abs_lt.1 h.lt).2]
  exact Nat.lt_succ_iff.1 (by exact_mod_cast this)

theorem Rounded.digits (h : Rounded q m e) : e = -1074 ∨ 2 ^ 52 ≤ m := by
  refine h.leading.imp_right fun hl => ?_
  have hnear := h.nearest.near
  have hsize := abs_sub_abs_le_abs_sub (q / 2 ^ e) m
  rw [Int.cast_natCast, abs_sub_comm] at hnear
  rw [Nat.abs_cast] at hsize
  have : (2 ^ 52 : ℚ) < m + 1 := by linarith
  exact Nat.lt_succ_iff.1 (by exact_mod_cast this)

theorem Rounds.sign_mul {r : ℚ} (h : Rounds q r) (negative : Bool) :
    Rounds (sign negative * q) (sign negative * r) := by
  unfold sign
  cases negative with
  | false => rwa [if_neg Bool.false_ne_true, one_mul, one_mul]
  | true =>
    rw [if_pos rfl, neg_one_mul, neg_one_mul]
    exact h.neg

theorem Rounded.rounds (h : Rounded q m e) (negative : Bool) :
    Rounds (sign negative * q) (sign negative * (m * 2 ^ e)) :=
  Rounds.sign_mul ⟨m, e, h, by rw [Int.cast_natCast]⟩ negative

theorem Rounded.carry (h : Rounded q m e) :
    ((carry m e).1 * 2 ^ (Binary.carry m e).2 : ℚ) = m * 2 ^ e ∧ (Binary.carry m e).1 < 2 ^ 53 ∧
      e ≤ (Binary.carry m e).2 ∧ (Binary.carry m e).2 ≤ e + 1 ∧
      ((Binary.carry m e).2 = -1074 ∨ 2 ^ 52 ≤ (Binary.carry m e).1) := by
  unfold Binary.carry
  by_cases hm : m = 2 ^ 53
  · rw [if_pos hm]
    refine ⟨?_, (by decide : 2 ^ 52 < 2 ^ 53), Int.le_add_one le_rfl, le_rfl, .inr le_rfl⟩
    rw [hm, two_zpow_add]
    norm_num
    ring
  · rw [if_neg hm]
    exact ⟨rfl, lt_of_le_of_ne h.le hm, le_rfl, Int.le_add_one le_rfl, h.digits⟩

theorem Rounded.settle (h : Rounded q m e) (negative : Bool) :
    Approximates (settle negative m e) (sign negative * q) ∧
      Canonical (Binary.settle negative m e) := by
  obtain ⟨hvalue, hlt, hle, hge, hlead⟩ := h.carry
  unfold Binary.settle
  by_cases hd : 971 < (Binary.carry m e).2
  · rw [if_pos hd]
    refine ⟨.inl ⟨_, rfl, ?_⟩, trivial⟩
    have hq : (2 : ℚ) ^ (e + 52) ≤ |q| := h.leading_le.resolve_left (by omega)
    have htop : (2 : ℚ) ^ (1023 : ℤ) ≤ 2 ^ (e + 52) := two_zpow_le_iff.2 (by omega)
    rw [abs_sign_mul]
    exact_mod_cast htop.trans hq
  · rw [if_neg hd]
    refine ⟨.inr ⟨_, _, _, rfl, ?_⟩, hlt, h.least.trans hle, not_lt.1 hd, hlead⟩
    rw [ratio_eq, hvalue]
    exact h.rounds negative

end Settling

section Nearest

open Format

theorem abs_sub_div {m a b : ℕ} (hb : 0 < b) : |(m : ℚ) - a / b| = |(m : ℚ) * b - a| / b := by
  have hbq : (0 : ℚ) < b := by exact_mod_cast hb
  have hdiv : (m : ℚ) - a / b = (m * b - a) / b := by
    rw [sub_div, mul_div_cancel_right₀ _ hbq.ne']
  rw [hdiv, abs_div, abs_of_pos hbq]

theorem abs_sub_div_le {m a b : ℕ} (hb : 0 < b) (hl : 2 * (m * b) ≤ 2 * a + b)
    (hu : 2 * a ≤ 2 * (m * b) + b) : |(m : ℚ) - a / b| ≤ 1 / 2 := by
  have hbq : (0 : ℚ) < b := by exact_mod_cast hb
  have hlq : 2 * ((m : ℚ) * b) ≤ 2 * a + b := by exact_mod_cast hl
  have huq : 2 * (a : ℚ) ≤ 2 * (m * b) + b := by exact_mod_cast hu
  rw [abs_sub_div hb, div_le_iff₀ hbq, abs_le]
  constructor <;> linarith

theorem abs_sub_div_lt {m a b : ℕ} (hb : 0 < b) (hl : 2 * (m * b) < 2 * a + b)
    (hu : 2 * a < 2 * (m * b) + b) : |(m : ℚ) - a / b| < 1 / 2 := by
  have hbq : (0 : ℚ) < b := by exact_mod_cast hb
  have hlq : 2 * ((m : ℚ) * b) < 2 * a + b := by exact_mod_cast hl
  have huq : 2 * (a : ℚ) < 2 * (m * b) + b := by exact_mod_cast hu
  rw [abs_sub_div hb, div_lt_iff₀ hbq, abs_lt]
  constructor <;> linarith

theorem roundQuotient_nearest {a b : ℕ} (hb : 0 < b) :
    NearestEven (a / b) (roundQuotient a b) := by
  have hmod := Nat.mod_lt a hb
  have hdiv : a / b * b + a % b = a := by
    rw [Nat.mul_comm]
    exact Nat.div_add_mod a b
  have hsucc : (a / b + 1) * b = a / b * b + b := Nat.succ_mul ..
  unfold roundQuotient
  dsimp only
  by_cases h : (decide (b < 2 * (a % b)) || 2 * (a % b) == b && a / b % 2 == 1) = true
  · rw [if_pos h]
    rw [Bool.or_eq_true, Bool.and_eq_true, decide_eq_true_eq, beq_iff_eq, beq_iff_eq] at h
    obtain h | ⟨h, hodd⟩ := h
    · refine nearestEven_of_lt (abs_sub_div_lt hb ?_ ?_) <;> omega
    · refine nearestEven_of_even (Nat.even_iff.2 (by omega)) (abs_sub_div_le hb ?_ ?_) <;> omega
  · rw [if_neg h]
    rw [Bool.or_eq_true, Bool.and_eq_true, decide_eq_true_eq, beq_iff_eq, beq_iff_eq, not_or] at h
    by_cases htie : 2 * (a % b) = b
    · refine nearestEven_of_even (Nat.even_iff.2 (by omega)) (abs_sub_div_le hb ?_ ?_) <;> omega
    · refine nearestEven_of_lt (abs_sub_div_lt hb ?_ ?_) <;> omega

theorem scaled_pos (n : ℕ) {d : ℕ} (hd : 0 < d) (e : ℤ) : 0 < (scaled n d e).2 :=
  Nat.mul_pos hd (Nat.pow_pos (by decide))

theorem scaled_quotient (n d : ℕ) (e : ℤ) :
    ((scaled n d e).1 : ℚ) / (scaled n d e).2 = n / d * 2 ^ (-e) := by
  unfold scaled
  dsimp only
  rw [Nat.cast_mul, Nat.cast_mul, cast_two, cast_two, mul_div_mul_comm, two_zpow_eq_div, neg_neg]

variable {n d : ℕ}

theorem two_zpow_log2 (hn : 0 < n) : (2 : ℚ) ^ (n.log2 : ℤ) ≤ n ∧ (n : ℚ) < 2 ^ (n.log2 + 1 : ℤ) := by
  constructor
  · exact_mod_cast Nat.log2_self_le hn.ne'
  · exact_mod_cast Nat.lt_log2_self

theorem leadingExponent_spec (hn : 0 < n) (hd : 0 < d) :
    (2 : ℚ) ^ leadingExponent n d ≤ n / d ∧ (n / d : ℚ) < 2 ^ (leadingExponent n d + 1) := by
  obtain ⟨hnl, hnu⟩ := two_zpow_log2 hn
  obtain ⟨hdl, hdu⟩ := two_zpow_log2 hd
  have hdq : (0 : ℚ) < d := by exact_mod_cast hd
  have hnq : (0 : ℚ) < n := by exact_mod_cast hn
  -- The difference of the logarithms is the exponent or one more.
  have hlow : (2 : ℚ) ^ ((n.log2 : ℤ) - d.log2 - 1) ≤ n / d := by
    rw [le_div_iff₀ hdq]
    calc (2 : ℚ) ^ ((n.log2 : ℤ) - d.log2 - 1) * d
        ≤ 2 ^ ((n.log2 : ℤ) - d.log2 - 1) * 2 ^ (d.log2 + 1 : ℤ) :=
          mul_le_mul_of_nonneg_left hdu.le (two_zpow_pos _).le
      _ = 2 ^ (n.log2 : ℤ) := by
          rw [← two_zpow_add]
          congr 1
          ring
      _ ≤ n := hnl
  have hhigh : (n / d : ℚ) < 2 ^ ((n.log2 : ℤ) - d.log2 + 1) := by
    rw [div_lt_iff₀ hdq]
    calc (n : ℚ) < 2 ^ (n.log2 + 1 : ℤ) := hnu
      _ = 2 ^ ((n.log2 : ℤ) - d.log2 + 1) * 2 ^ (d.log2 : ℤ) := by
          rw [← two_zpow_add]
          congr 1
          ring
      _ ≤ 2 ^ ((n.log2 : ℤ) - d.log2 + 1) * d :=
          mul_le_mul_of_nonneg_left hdl (two_zpow_pos _).le
  have hless : (scaled n d ((n.log2 : ℤ) - d.log2)).1 < (scaled n d ((n.log2 : ℤ) - d.log2)).2 ↔
      (n / d : ℚ) < 2 ^ ((n.log2 : ℤ) - d.log2) := by
    have hb := scaled_pos n hd ((n.log2 : ℤ) - d.log2)
    rw [← @Nat.cast_lt ℚ, ← div_lt_one (by exact_mod_cast hb), scaled_quotient, zpow_neg,
      ← div_eq_mul_inv, div_lt_one (two_zpow_pos _)]
  unfold leadingExponent
  dsimp only
  by_cases h : (scaled n d ((n.log2 : ℤ) - d.log2)).1 < (scaled n d ((n.log2 : ℤ) - d.log2)).2
  · rw [if_pos h]
    refine ⟨hlow, ?_⟩
    rw [sub_add_cancel]
    exact hless.1 h
  · rw [if_neg h]
    exact ⟨not_lt.1 (mt hless.2 h), hhigh⟩

def unitExponent (n d : ℕ) : ℤ := max (-1074) (leadingExponent n d - 52)

theorem nearest_eq_settle (negative : Bool) (hn : n ≠ 0) : Format.double.nearest negative n d =
    settle negative (roundQuotient (scaled n d (unitExponent n d)).1
      (scaled n d (unitExponent n d)).2) (unitExponent n d) :=
  if_neg hn

theorem nearest_rounded (hn : 0 < n) (hd : 0 < d) : Rounded (n / d)
    (roundQuotient (scaled n d (unitExponent n d)).1 (scaled n d (unitExponent n d)).2)
    (unitExponent n d) := by
  obtain ⟨hlow, hhigh⟩ := leadingExponent_spec hn hd
  have hle : leadingExponent n d - 52 ≤ unitExponent n d := le_max_right ..
  have hunit : ((n : ℚ) / d * 2 ^ (-unitExponent n d)) * 2 ^ unitExponent n d = n / d := by
    rw [mul_assoc, ← two_zpow_add, neg_add_cancel, zpow_zero, mul_one]
  have h0 : (0 : ℚ) ≤ n / d * 2 ^ (-unitExponent n d) :=
    mul_nonneg (div_nonneg n.cast_nonneg d.cast_nonneg) (two_zpow_pos _).le
  rw [← hunit]
  refine rounded_of_quotient ?_ h0 ?_ (le_max_left ..) ?_
  · rw [← scaled_quotient]
    exact roundQuotient_nearest (scaled_pos n hd _)
  · rw [zpow_neg, ← div_eq_mul_inv, div_lt_iff₀ (two_zpow_pos _)]
    refine hhigh.trans_le ?_
    have : (2 : ℚ) ^ (leadingExponent n d + 1) ≤ 2 ^ (53 + unitExponent n d) :=
      two_zpow_le_iff.2 (by omega)
    rw [two_zpow_add 53] at this
    exact_mod_cast this
  · obtain h | h := max_choice (-1074) (leadingExponent n d - 52)
    · exact .inl h
    · right
      have he : 52 + unitExponent n d = leadingExponent n d := by
        rw [unitExponent, h]
        ring
      rw [zpow_neg, ← div_eq_mul_inv, le_div_iff₀ (two_zpow_pos _)]
      refine le_trans (le_of_eq ?_) hlow
      rw [← he, two_zpow_add 52]
      norm_num

theorem nearest_approximates (negative : Bool) (n : ℕ) (hd : 0 < d) :
    Approximates (Format.double.nearest negative n d) (sign negative * (n / d)) ∧
      Canonical (Format.double.nearest negative n d) := by
  obtain rfl | hn := Nat.eq_zero_or_pos n
  · refine ⟨.inr ⟨negative, 0, -1074, rfl, ?_⟩, by decide, by decide, by decide, .inl rfl⟩
    rw [ratio_eq, Nat.cast_zero, zero_div, zero_mul, mul_zero]
    exact rounds_zero
  · rw [nearest_eq_settle negative hn.ne']
    exact (nearest_rounded hn hd).settle negative

theorem ofInt_approximates (n : ℤ) : Approximates (ofInt .double n) n ∧
    Canonical (ofInt .double n) := by
  have h := nearest_approximates (decide (n < 0)) n.natAbs (Nat.one_pos)
  have hn : sign (decide (n < 0)) * ((n.natAbs : ℚ) / (1 : ℕ)) = n := by
    rw [Nat.cast_one, div_one, sign, Nat.cast_natAbs]
    by_cases hneg : n < 0
    · rw [if_pos (decide_eq_true hneg), abs_of_neg hneg, Int.cast_neg, neg_one_mul, neg_neg]
    · rw [if_neg (by simpa using hneg), abs_of_nonneg (not_lt.1 hneg), one_mul]
  rw [hn] at h
  exact h

end Nearest

end Binary

end PullQuery
