import PullQuery.Arithmetic.Points
import PullQuery.Proofs.Number.Double

namespace PullQuery

namespace Binary

variable {x : Float} {r : ℚ}

theorem roundAway?_finite (negative : Bool) (m : ℕ) (e : ℤ) : ∃ q : ℕ,
    (finite negative m e).roundAway? = some (signed negative q) ∧
      |(q : ℚ) - m * 2 ^ e| ≤ 1 / 2 ∧ m * 2 ^ e < (q : ℚ) + 1 / 2 := by
  have hd : 0 < Nat.pow 2 (-e).toNat := Nat.pow_pos (by decide)
  have hdq : (0 : ℚ) < Nat.pow 2 (-e).toNat := by exact_mod_cast hd
  have hvalue : (m : ℚ) * 2 ^ e = (m * Nat.pow 2 e.toNat : ℕ) / (Nat.pow 2 (-e).toNat : ℕ) := by
    rw [Nat.cast_mul, cast_two, cast_two, mul_div_assoc, ← two_zpow_eq_div]
  have hassoc : 2 * m * Nat.pow 2 e.toNat = 2 * (m * Nat.pow 2 e.toNat) := Nat.mul_assoc ..
  refine ⟨_, rfl, ?_⟩
  rw [hvalue, hassoc]
  generalize m * Nat.pow 2 e.toNat = a at *
  generalize Nat.pow 2 (-e).toNat = d at *
  obtain ⟨q, hq⟩ : ∃ q, (2 * a + d) / (2 * d) = q := ⟨_, rfl⟩
  have hlow : q * (2 * d) ≤ 2 * a + d := hq ▸ Nat.div_mul_le_self ..
  have hhigh : 2 * a + d < (q + 1) * (2 * d) := by
    rw [← hq]
    exact (Nat.lt_mul_div_succ _ (by omega)).trans_eq (Nat.mul_comm ..)
  have hleft : q * (2 * d) = 2 * (q * d) := by rw [Nat.mul_left_comm]
  rw [Nat.add_mul, one_mul] at hhigh
  rw [hq]
  refine ⟨abs_sub_div_le hd (by omega) (by omega), ?_⟩
  rw [div_lt_iff₀ hdq]
  have : (2 * a : ℚ) < 2 * (q * d) + d := by exact_mod_cast (by omega : 2 * a < 2 * (q * d) + d)
  linarith

theorem natAbs_signed (negative : Bool) (n : ℕ) : (signed negative n).natAbs = n := by
  cases negative
  · exact Int.natAbs_natCast n
  · exact (Int.natAbs_neg n).trans (Int.natAbs_natCast n)

theorem representable_of_roundAway? {b : Binary} (hc : Canonical b) {q : ℤ}
    (hq : b.roundAway? = some q) : Representable q := by
  cases b with
  | nan => cases hq
  | infinite negative => cases hq
  | finite negative m e =>
    obtain ⟨p, hp, hnear, -⟩ := roundAway?_finite negative m e
    obtain rfl : signed negative p = q := Option.some.inj (hp.symm.trans hq)
    obtain he | he := le_total 0 e
    · obtain ⟨j, rfl⟩ := Int.eq_ofNat_of_zero_le he
      have hwhole : (p : ℤ) = (m * 2 ^ j : ℕ) := by
        refine eq_of_near ?_
        rw [zpow_natCast] at hnear
        exact_mod_cast hnear
      refine representable_signed hc.1.le j ?_
      rw [natAbs_signed, Int.natCast_inj.1 hwhole, Nat.mul_comm]
    · have hscale : (m : ℚ) * 2 ^ e ≤ m :=
        mul_le_of_le_one_right m.cast_nonneg ((two_zpow_le_iff.2 he).trans_eq (zpow_zero 2))
      have hpm : (p : ℚ) < m + 1 := by linarith [(abs_le.1 hnear).2]
      have hle : p ≤ m := Nat.lt_succ_iff.1 (by exact_mod_cast hpm)
      refine representable_intCast ?_
      rw [Int.abs_eq_natAbs, natAbs_signed]
      exact_mod_cast hle.trans hc.1.le

theorem Worth.roundAway (h : Worth x r) : ∃ q : ℤ, (ofDouble x).roundAway? = some q ∧
    |(q : ℚ) - r| ≤ 1 / 2 ∧ |r| < |(q : ℚ)| + 1 / 2 := by
  obtain ⟨negative, m, e, hx, rfl⟩ := h
  obtain ⟨q, hq, hnear, haway⟩ := roundAway?_finite negative m e
  have hcast : ((signed negative q : ℤ) : ℚ) = sign negative * q := by
    have := ratio_eq negative q 0
    rwa [ratio, zpow_zero, mul_one, mul_one] at this
  have hnonneg : (0 : ℚ) ≤ m * 2 ^ e := mul_nonneg (Nat.cast_nonneg m) (two_zpow_pos e).le
  refine ⟨signed negative q, by rw [hx, hq], ?_, ?_⟩
  · rw [hcast, ratio_eq, ← mul_sub, abs_sign_mul]
    exact hnear
  · rw [hcast, ratio_eq, abs_sign_mul, abs_sign_mul, Nat.abs_cast, abs_of_nonneg hnonneg]
    exact haway

end Binary

namespace Arithmetic

open Binary

variable {a k : ℤ} {x : Float} {s b : ℚ}

theorem isFinite_ofInt (h : |(a : ℚ)| < 2 ^ 1023) : (ofInt .double a).isFinite = true := by
  obtain ⟨-, -, hge⟩ | ⟨negative, m, e, hb, -⟩ := (ofInt_approximates a).1
  · exact absurd h (not_lt.2 hge)
  · rw [hb]
    rfl

theorem scaled?_of_representable {p : ℤ} (ha : Worth (ofInt .double a).toDouble s)
    (hx : Worth x b) (hp : s * b = p) (hrep : Representable p) (hsize : |(p : ℚ)| < 2 ^ 1023) :
    scaled? a x = some p := by
  have happrox := mul_approximates ha hx
  rw [hp] at happrox
  obtain ⟨r, hr, hround⟩ := happrox.worth hsize
  obtain ⟨q, hq, hnear, -⟩ := hr.roundAway
  rw [hround.eq_of_representable hrep] at hnear
  rw [← eq_of_near hnear]
  exact hq

theorem two_zpow_le_abs (h : k ≠ 0) : (2 : ℚ) ^ (-1022 : ℤ) ≤ |(k : ℚ)| := by
  have hone : (1 : ℚ) ≤ |(k : ℚ)| := by exact_mod_cast Int.one_le_abs h
  have : (2 : ℚ) ^ (-1022 : ℤ) ≤ 2 ^ (0 : ℤ) := two_zpow_le_iff.2 (by decide)
  rw [zpow_zero] at this
  exact this.trans hone

theorem factors_within {t : ℚ} (ha : a ≠ 0) (hk : k ≠ 0) (hs : Rounds a s) (ht : Rounds k t) :
    Within (1 / 2 ^ 53 + 1 / 2 ^ 53 + 1 / 2 ^ 53 * (1 / 2 ^ 53)) (a * k : ℚ) (s * t) :=
  (hs.within (two_zpow_le_abs ha)).mul (ht.within (two_zpow_le_abs hk)) (by norm_num)

theorem product_within {t r : ℚ} (ha : a ≠ 0) (hk : k ≠ 0) (hs : Rounds a s) (ht : Rounds k t)
    (hr : Rounds (s * t) r) : Within (7 / 2 ^ 54) (a * k : ℚ) r := by
  have hst := factors_within ha hk hs ht
  have hone : (1 : ℚ) ≤ |(a * k : ℚ)| := by exact_mod_cast Int.one_le_abs (mul_ne_zero ha hk)
  have hlarge : (2 : ℚ) ^ (-1022 : ℤ) ≤ |s * t| := by
    have hhalf := (hst.mono (by norm_num) : Within (1 / 2) _ (s * t)).size.1
    have htiny : (2 : ℚ) ^ (-1022 : ℤ) ≤ 2 ^ (-1 : ℤ) := two_zpow_le_iff.2 (by decide)
    rw [zpow_neg_one] at htiny
    linarith
  exact (hst.trans (hr.within hlarge) (by norm_num)).mono (by norm_num)

theorem scaled?_exact (ha : (ofInt .double a).isFinite = true)
    (hk : (ofInt .double k).isFinite = true) (hrep : Representable (a * k : ℤ))
    (hsize : |((a * k : ℤ) : ℚ)| < 2 ^ 1023) :
    scaled? a (ofInt .double k).toDouble = some (a * k) := by
  obtain ⟨s, hs, hrs⟩ := worth_ofInt ha
  obtain ⟨t, ht, hrt⟩ := worth_ofInt hk
  refine scaled?_of_representable hs ht ?_ hrep hsize
  by_cases hne : a * k = 0
  · rw [hne, Int.cast_zero]
    obtain rfl | rfl := mul_eq_zero.1 hne
    · rw [Int.cast_zero] at hrs
      rw [hrs.eq_of_representable representable_zero, zero_mul]
    · rw [Int.cast_zero] at hrt
      rw [hrt.eq_of_representable representable_zero, mul_zero]
  · have hrep' : Representable (k * a : ℤ) := by rwa [mul_comm]
    rw [hrs.eq_of_representable (representable_of_mul hne hrep),
      hrt.eq_of_representable (representable_of_mul (by rwa [mul_comm]) hrep'), Int.cast_mul]

theorem scaled?_near (ha : (ofInt .double a).isFinite = true)
    (hk : (ofInt .double k).isFinite = true) (hne : a * k ≠ 0) :
    (scaled? a (ofInt .double k).toDouble = none ∧ (2 : ℚ) ^ 1022 ≤ |(a * k : ℚ)|) ∨
      ∃ q : ℤ, scaled? a (ofInt .double k).toDouble = some q ∧
        |(q - a * k : ℚ)| ≤ 1 / 2 + |(a * k : ℚ)| * (7 / 2 ^ 54) := by
  obtain ⟨ha0, hk0⟩ := mul_ne_zero_iff.1 hne
  obtain ⟨s, hs, hrs⟩ := worth_ofInt ha
  obtain ⟨t, ht, hrt⟩ := worth_ofInt hk
  have hst : Within (1 / 2) (a * k : ℚ) (s * t) :=
    (factors_within ha0 hk0 hrs hrt).mono (by norm_num)
  obtain ⟨negative, hinf, hlarge⟩ | ⟨negative, m, e, hfin, hr⟩ := mul_approximates hs ht
  · left
    refine ⟨?_, ?_⟩
    · unfold scaled?
      rw [hinf]
      rfl
    · have halve (c : ℚ) (hc : 2 * c ≤ |s * t|) : c ≤ |(a * k : ℚ)| := by
        linarith only [hc, hst.size.2, abs_nonneg (a * k : ℚ)]
      exact halve _ ((pow_succ' 2 1022).symm.trans_le hlarge)
  · right
    obtain ⟨q, hq, hnear, -⟩ := Worth.roundAway ⟨negative, m, e, hfin, rfl⟩
    refine ⟨q, hq, ?_⟩
    have hw := product_within ha0 hk0 hrs hrt hr
    have hsum := abs_sub_le (q : ℚ) (Binary.ratio negative m e) (a * k)
    unfold Within at hw
    linarith

end Arithmetic

end PullQuery
