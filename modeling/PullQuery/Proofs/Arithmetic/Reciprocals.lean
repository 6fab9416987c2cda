import PullQuery.Proofs.Arithmetic.Products

/-!
Months times the reciprocals of integers. The errors of the reciprocal and of the product are too
small to keep the result from being a nearest whole number; whether a quotient that ends in a half is
brought up to the next one depends on the divisor alone.
-/

namespace PullQuery

namespace Arithmetic

open Binary

variable {k : ℤ} {x : Float} {b : ℚ}

theorem isZero_of_worth (hx : Worth x b) (hb : b ≠ 0) : (ofDouble x).isZero = false := by
  obtain ⟨negative, m, e, hx, rfl⟩ := hx
  rw [hx]
  cases m with
  | succ m => rfl
  | zero =>
    rw [ratio_eq, Nat.cast_zero, zero_mul, mul_zero] at hb
    exact absurd rfl hb

theorem worth_one : Worth 1.0 1 :=
  ⟨false, 4503599627370496, -52, by decide, by norm_num [Binary.ratio, signed]⟩

theorem inverse_of_worth (hx : Worth x b) (hb : b ≠ 0) : inverse x = .ok (1.0 / x) := by
  unfold inverse
  rw [isZero_of_worth hx hb]
  rfl

theorem abs_toInt_le (m : Int32) : |(m.toInt : ℚ)| ≤ 2 ^ 31 := by
  have hm : |m.toInt| ≤ 2 ^ 31 := by
    have h := Word.fits_toInt m
    unfold Word.Fits at h
    rw [abs_le]
    omega
  exact_mod_cast hm

theorem isFinite_toInt (m : Int32) : (ofInt .double m.toInt).isFinite = true :=
  isFinite_ofInt ((abs_toInt_le m).trans_lt (pow_lt_pow_right₀ (by norm_num) (by norm_num)))

theorem worth_months (m : Int32) : Worth (ofInt .double m.toInt).toDouble m.toInt := by
  obtain ⟨s, hs, hround⟩ := worth_ofInt (isFinite_toInt m)
  have hrep : Representable m.toInt := by
    refine representable_intCast ?_
    have : |m.toInt| ≤ 2 ^ 31 := by exact_mod_cast abs_toInt_le m
    omega
  rwa [hround.eq_of_representable hrep] at hs

/-- The double nearest to the reciprocal falls short of it by a part in `2 ^ 54` at most. -/
def KeepsHalves (k : ℤ) : Prop :=
  ∃ t, Worth (1.0 / (ofInt .double k).toDouble) t ∧ 1 - 1 / 2 ^ 54 ≤ t * k

structure DividesTo (m k q : ℤ) : Prop where
  nearest : 2 * |m - q * k| ≤ |k|
  away : KeepsHalves k → 2 * |m| < 2 * |q * k| + |k|
  lost : ¬KeepsHalves k → 2 * |m| = |k| → q = 0

section Halves

def keepsHalves? (k : ℤ) : Bool :=
  match ofDouble (1.0 / (ofInt .double k).toDouble) with
  | .finite negative m e =>
    (2 ^ 54 - 1) * 2 ^ (-e).toNat ≤ 2 ^ 54 * (signed negative m * 2 ^ e.toNat * k)
  | _ => false

theorem keepsHalves?_iff (k : ℤ) : keepsHalves? k = true ↔ KeepsHalves k := by
  unfold keepsHalves? KeepsHalves Worth
  cases hb : ofDouble (1.0 / (ofInt .double k).toDouble) with
  | nan => exact iff_of_false Bool.false_ne_true (by rintro ⟨t, ⟨_, _, _, h, -⟩, -⟩; cases h)
  | infinite negative =>
    exact iff_of_false Bool.false_ne_true (by rintro ⟨t, ⟨_, _, _, h, -⟩, -⟩; cases h)
  | finite negative m e =>
    have hpos : (0 : ℚ) < 2 ^ (-e).toNat := pow_pos (by decide) _
    have hratio : 1 - 1 / 2 ^ 54 ≤ Binary.ratio negative m e * k ↔
        (2 ^ 54 - 1) * 2 ^ (-e).toNat ≤ 2 ^ 54 * (signed negative m * 2 ^ e.toNat * k) := by
      rw [Binary.ratio, two_zpow_eq_div, mul_div_assoc', div_mul_eq_mul_div, le_div_iff₀ hpos,
        ← @Int.cast_le ℚ]
      push_cast
      constructor <;> intro h <;> linarith
    refine decide_eq_true_iff.trans (hratio.symm.trans ⟨fun h => ⟨_, ⟨_, _, _, rfl, rfl⟩, h⟩, ?_⟩)
    rintro ⟨t, ⟨_, _, _, h, rfl⟩, ht⟩
    cases h
    exact ht

instance (k : ℤ) : Decidable (KeepsHalves k) := decidable_of_iff _ (keepsHalves?_iff k)

end Halves

theorem reciprocal_bounds (hk : k ≠ 0) (hsmall : |k| < 2 ^ 40) :
    (2 : ℚ) ^ (-40 : ℤ) ≤ |(1 : ℚ) / k| ∧ |(1 : ℚ) / k| ≤ 1 := by
  have hone : (1 : ℚ) ≤ |(k : ℚ)| := by exact_mod_cast Int.one_le_abs hk
  have htop : |(k : ℚ)| ≤ 2 ^ 40 := by exact_mod_cast hsmall.le
  have hpow : (2 : ℚ) ^ (-40 : ℤ) = 1 / 2 ^ 40 := by
    rw [zpow_neg, one_div]
    norm_cast
  have hpos : (0 : ℚ) < |(k : ℚ)| := by linarith
  rw [abs_div, abs_one, hpow]
  exact ⟨one_div_le_one_div_of_le hpos htop, (div_le_one hpos).2 hone⟩

theorem inverse_of_small (hk : k ≠ 0) (hsmall : |k| < 2 ^ 40) :
    ∃ t, inverse (ofInt .double k).toDouble = .ok (1.0 / (ofInt .double k).toDouble) ∧
      Worth (1.0 / (ofInt .double k).toDouble) t ∧ Rounds (1 / k : ℚ) t := by
  have hkq : (k : ℚ) ≠ 0 := by exact_mod_cast hk
  have htop : |(k : ℚ)| < 2 ^ 40 := by exact_mod_cast hsmall
  have hfinite : |(k : ℚ)| < 2 ^ 1023 :=
    htop.trans (pow_lt_pow_right₀ (by norm_num) (by norm_num))
  obtain ⟨f, hf, hround⟩ := worth_ofInt (isFinite_ofInt hfinite)
  rw [hround.eq_of_representable (representable_intCast (hsmall.le.trans (by decide)))] at hf
  have hbound : |(1 : ℚ) / k| < 2 ^ 1023 :=
    (reciprocal_bounds hk hsmall).2.trans_lt (one_lt_pow₀ (by norm_num) (by norm_num))
  obtain ⟨t, ht, hrt⟩ := (div_approximates worth_one hf hkq).worth hbound
  exact ⟨t, inverse_of_worth hf hkq, ht, hrt⟩

variable {m q : ℤ} {t r : ℚ}

theorem quotient_within (hk : k ≠ 0) (hsmall : |k| < 2 ^ 40) (ht : Rounds (1 / k : ℚ) t)
    (hr : Rounds (m * t) r) : Within (3 / 2 ^ 53) (m / k : ℚ) r := by
  by_cases hm : m = 0
  · rw [hm, Int.cast_zero, zero_mul] at hr
    rw [hm, Int.cast_zero, zero_div]
    exact Within.of_eq (by norm_num) (hr.eq_of_representable representable_zero)
  have hlow := (reciprocal_bounds hk hsmall).1
  have htw := ht.within ((two_zpow_le_iff.2 (by decide)).trans hlow)
  have hhalf : |(1 : ℚ) / k| / 2 ≤ |t| := (htw.mono (by norm_num) : Within (1 / 2) _ t).size.1
  have hone : (1 : ℚ) ≤ |(m : ℚ)| := by exact_mod_cast Int.one_le_abs hm
  have hlarge : (2 : ℚ) ^ (-1022 : ℤ) ≤ |m * t| :=
    calc (2 : ℚ) ^ (-1022 : ℤ) ≤ 2 ^ (-40 + -1 : ℤ) := two_zpow_le_iff.2 (by decide)
      _ = 2 ^ (-40 : ℤ) / 2 := by rw [two_zpow_add, zpow_neg_one, div_eq_mul_inv]
      _ ≤ |(1 : ℚ) / k| / 2 := div_le_div_of_nonneg_right hlow zero_le_two
      _ ≤ |t| := hhalf
      _ ≤ |(m : ℚ)| * |t| := le_mul_of_one_le_left (abs_nonneg t) hone
      _ = |m * t| := (abs_mul ..).symm
  have hw := (htw.mul_left m).trans (hr.within hlarge) (by norm_num)
  rw [mul_one_div (m : ℚ)] at hw
  exact hw.mono (by norm_num)

theorem nearest_quotient (hm : |m| ≤ 2 ^ 31) (hk : k ≠ 0)
    (hr : Within (3 / 2 ^ 53) (m / k : ℚ) r) (hnear : |(q : ℚ) - r| ≤ 1 / 2) :
    2 * |m - q * k| ≤ |k| := by
  have hkq : (0 : ℚ) < |(k : ℚ)| := abs_pos.2 (by exact_mod_cast hk)
  have hmq : |(m : ℚ)| ≤ 2 ^ 31 := by exact_mod_cast hm
  have hk0 : (k : ℚ) ≠ 0 := by exact_mod_cast hk
  have hdiff : |(m : ℚ) / k - q| ≤ 1 / 2 + |(m : ℚ)| / |(k : ℚ)| * (3 / 2 ^ 53) := by
    have h1 : |r - m / k| ≤ |(m : ℚ) / k| * (3 / 2 ^ 53) := hr
    rw [abs_div] at h1
    have h2 := abs_sub_le ((m : ℚ) / k) r q
    rw [abs_sub_comm _ r, abs_sub_comm r q] at h2
    linarith
  have hscaled : |(m : ℚ) - q * k| ≤ |(k : ℚ)| / 2 + |(m : ℚ)| * (3 / 2 ^ 53) := by
    have hmul : |(m : ℚ) - q * k| = |(m : ℚ) / k - q| * |(k : ℚ)| := by
      rw [← abs_mul, sub_mul, div_mul_cancel₀ _ hk0]
    rw [hmul]
    calc |(m : ℚ) / k - q| * |(k : ℚ)|
        ≤ (1 / 2 + |(m : ℚ)| / |(k : ℚ)| * (3 / 2 ^ 53)) * |(k : ℚ)| :=
          mul_le_mul_of_nonneg_right hdiff hkq.le
      _ = |(k : ℚ)| / 2 + |(m : ℚ)| / |(k : ℚ)| * |(k : ℚ)| * (3 / 2 ^ 53) := by ring
      _ = |(k : ℚ)| / 2 + |(m : ℚ)| * (3 / 2 ^ 53) := by rw [div_mul_cancel₀ _ hkq.ne']
  have hlt : 2 * |(m : ℚ) - q * k| < |(k : ℚ)| + 1 := by
    have : |(m : ℚ)| * (3 / 2 ^ 53) ≤ 2 ^ 31 * (3 / 2 ^ 53) :=
      mul_le_mul_of_nonneg_right hmq (by norm_num)
    have hsmall : (2 : ℚ) ^ 31 * (3 / 2 ^ 53) < 1 / 2 := by norm_num
    linarith
  have : 2 * |m - q * k| < |k| + 1 := by exact_mod_cast hlt
  omega

theorem half_kept (hm : |m| ≤ 2 ^ 31) (hk : k ≠ 0) (ht : 1 - 1 / 2 ^ 54 ≤ t * k)
    (hr : Rounds (m * t) r) (haway : |r| < |(q : ℚ)| + 1 / 2) :
    2 * |m| < 2 * |q * k| + |k| := by
  by_contra hge
  rw [not_lt, abs_mul, ← mul_assoc, ← add_one_mul] at hge
  have hdigits : 2 * |q| + 1 ≤ 2 ^ 53 := by
    have := le_mul_of_one_le_right (by positivity : 0 ≤ 2 * |q| + 1) (Int.one_le_abs hk)
    omega
  have hrep : Representable (|(q : ℚ)| + 1 / 2) := by
    refine ⟨2 * |q| + 1, -1, by rwa [abs_of_nonneg (by positivity)], by decide, ?_⟩
    rw [zpow_neg_one]
    push_cast
    ring
  have hgeq : (2 * |(q : ℚ)| + 1) * |(k : ℚ)| ≤ 2 * |(m : ℚ)| := by exact_mod_cast hge
  have hproduct : (|(q : ℚ)| + 1 / 2) * (1 - 1 / 2 ^ 54) ≤ |m * t| :=
    calc (|(q : ℚ)| + 1 / 2) * (1 - 1 / 2 ^ 54)
        ≤ (|(q : ℚ)| + 1 / 2) * |t * k| :=
          mul_le_mul_of_nonneg_left (ht.trans (le_abs_self _)) (by positivity)
      _ = (2 * |(q : ℚ)| + 1) * |(k : ℚ)| / 2 * |t| := by
          rw [abs_mul]
          ring
      _ ≤ |(m : ℚ)| * |t| := mul_le_mul_of_nonneg_right (by linarith) (abs_nonneg t)
      _ = |m * t| := (abs_mul ..).symm
  exact absurd haway (not_lt.2 (hr.abs.le_of_near hrep (by positivity) hproduct))

theorem half_lost (hk : k ≠ 0) (ht : Within (1 / 2 ^ 53) (1 / k : ℚ) t)
    (hlt : t * k < 1 - 1 / 2 ^ 54) (hm : 2 * |m| = |k|) (hr : Rounds (m * t) r)
    (hnear : |(q : ℚ) - r| ≤ 1 / 2) : q = 0 := by
  have hkq : (k : ℚ) ≠ 0 := by exact_mod_cast hk
  have hmq : 2 * |(m : ℚ)| = |(k : ℚ)| := by exact_mod_cast hm
  have hpos : 0 ≤ t * k := by
    have := ht.mul_left k
    rw [mul_one_div_cancel hkq, Within, abs_one, one_mul, mul_comm] at this
    linarith [(abs_le.1 this).1]
  have hproduct : |m * t| = t * k / 2 := by
    rw [← abs_of_nonneg hpos, abs_mul, abs_mul, ← hmq]
    ring
  have hsmall : |r| < 2 ^ (-1 : ℤ) := by
    refine hr.abs_lt (by decide) ?_
    rw [hproduct, zpow_neg_one]
    linarith
  rw [zpow_neg_one, ← one_div] at hsmall
  exact eq_zero_of_near hnear hsmall

theorem dividesTo_zero (hm : |m| ≤ 2 ^ 31) (hk : 2 ^ 40 ≤ |k|) : DividesTo m k 0 where
  nearest := by
    rw [zero_mul, sub_zero]
    omega
  away _ := by
    rw [zero_mul, abs_zero]
    omega
  lost _ _ := rfl

theorem scaled?_inverse_of_small (m : Int32) (hk : k ≠ 0) (hsmall : |k| < 2 ^ 40) :
    ∃ y q, inverse (ofInt .double k).toDouble = .ok y ∧ scaled? m.toInt y = some q ∧
      DividesTo m.toInt k q := by
  obtain ⟨t, hy, ht, hrt⟩ := inverse_of_small hk hsmall
  have hm : |m.toInt| ≤ 2 ^ 31 := by exact_mod_cast abs_toInt_le m
  have hbounds := reciprocal_bounds hk hsmall
  have htw := hrt.within ((two_zpow_le_iff.2 (by decide)).trans hbounds.1)
  have hsize : |t| ≤ 2 := by
    have := (htw.mono (by norm_num) : Within (1 / 2) _ t).size.2
    linarith [hbounds.2]
  have hproduct : |m.toInt * t| < 2 ^ 1023 := by
    rw [abs_mul]
    calc |(m.toInt : ℚ)| * |t| ≤ 2 ^ 31 * 2 :=
          mul_le_mul (abs_toInt_le m) hsize (abs_nonneg t) (by norm_num)
      _ = 2 ^ 32 := by norm_num
      _ < 2 ^ 1023 := pow_lt_pow_right₀ (by norm_num) (by norm_num)
  obtain ⟨r, hr, hrr⟩ := (mul_approximates (worth_months m) ht).worth hproduct
  obtain ⟨q, hq, hnear, haway⟩ := hr.roundAway
  refine ⟨_, q, hy, hq, nearest_quotient hm hk (quotient_within hk hsmall hrt hrr) hnear, ?_, ?_⟩
  · rintro ⟨t', ht', hle⟩
    rw [ht'.unique ht] at hle
    exact half_kept hm hk hle hrr haway
  · intro hlost hhalf
    exact half_lost hk htw (not_le.1 fun hle => hlost ⟨t, ht, hle⟩) hhalf hrr hnear

theorem abs_lt_of_le_two_zpow {p : ℚ} {e : ℤ} (hp : |p| ≤ 2 ^ e) (he : e < 1023) :
    |p| < 2 ^ 1023 := by
  refine hp.trans_lt ?_
  exact_mod_cast (two_zpow_lt_iff.2 he : (2 : ℚ) ^ e < 2 ^ (1023 : ℤ))

theorem inverse_of_large (hlarge : 2 ^ 40 ≤ |k|) (hf : (ofInt .double k).isFinite = true) :
    ∃ t, inverse (ofInt .double k).toDouble = .ok (1.0 / (ofInt .double k).toDouble) ∧
      Worth (1.0 / (ofInt .double k).toDouble) t ∧ |t| ≤ 2 ^ (-38 : ℤ) := by
  have hk : k ≠ 0 := by
    rintro rfl
    rw [abs_zero] at hlarge
    exact absurd hlarge (by decide)
  obtain ⟨g, hg, hround⟩ := worth_ofInt hf
  have hsize : (2 : ℚ) ^ (39 : ℤ) ≤ |g| := by
    have hwithin : Within (1 / 2) (k : ℚ) g :=
      (hround.within (two_zpow_le_abs hk)).mono (by norm_num)
    have hkq : (2 : ℚ) ^ (40 : ℤ) ≤ |(k : ℚ)| := by exact_mod_cast hlarge
    have hstep : (2 : ℚ) ^ (40 : ℤ) = 2 * 2 ^ (39 : ℤ) := by norm_num
    linarith [hwithin.size.1]
  have hg0 : g ≠ 0 := abs_pos.1 ((two_zpow_pos 39).trans_le hsize)
  have hinv : |1 / g| ≤ (2 : ℚ) ^ (-39 : ℤ) := by
    rw [abs_div, abs_one, zpow_neg, ← one_div]
    exact one_div_le_one_div_of_le (two_zpow_pos 39) hsize
  obtain ⟨t, ht, hrt⟩ :=
    (div_approximates worth_one hg hg0).worth (abs_lt_of_le_two_zpow hinv (by decide))
  have htsize := hrt.abs_le (by decide) hinv
  rw [show (-39 + 1 : ℤ) = -38 by decide] at htsize
  exact ⟨t, inverse_of_worth hg hg0, ht, htsize⟩

theorem scaled?_inverse_of_large (m : Int32) (hlarge : 2 ^ 40 ≤ |k|)
    (hf : (ofInt .double k).isFinite = true) :
    ∃ y q, inverse (ofInt .double k).toDouble = .ok y ∧ scaled? m.toInt y = some q ∧
      DividesTo m.toInt k q := by
  obtain ⟨t, hy, ht, hsize⟩ := inverse_of_large hlarge hf
  have hproduct : |m.toInt * t| ≤ (2 : ℚ) ^ (-7 : ℤ) := by
    have hm : |(m.toInt : ℚ)| ≤ 2 ^ (31 : ℤ) := by exact_mod_cast abs_toInt_le m
    rw [abs_mul, show (-7 : ℤ) = 31 + -38 by decide, two_zpow_add 31]
    exact mul_le_mul hm hsize (abs_nonneg t) (two_zpow_pos 31).le
  obtain ⟨r, hr, hrr⟩ := (mul_approximates (worth_months m) ht).worth
    (abs_lt_of_le_two_zpow hproduct (by decide))
  obtain ⟨q, hq, hnear, -⟩ := hr.roundAway
  have hsmall : |r| < 1 / 2 := (hrr.abs_le (by decide) hproduct).trans_lt (by norm_num)
  obtain rfl : q = 0 := eq_zero_of_near hnear hsmall
  exact ⟨_, 0, hy, hq, dividesTo_zero (by exact_mod_cast abs_toInt_le m) hlarge⟩

theorem representable_one_div {j : ℕ} (hk : |k| = 2 ^ j) (hj : j ≤ 1074) :
    Representable (1 / k) := by
  have hpow : (2 : ℚ) ^ (-j : ℤ) = 1 / 2 ^ j := by rw [zpow_neg, zpow_natCast, one_div]
  obtain rfl | rfl := (abs_eq (by positivity)).1 hk
  · refine ⟨1, -j, by decide, by omega, ?_⟩
    rw [hpow, Int.cast_one, one_mul, Int.cast_pow, Int.cast_ofNat]
  · refine ⟨-1, -j, by decide, by omega, ?_⟩
    rw [hpow, Int.cast_neg, Int.cast_neg, Int.cast_one, neg_one_mul, div_neg, Int.cast_pow,
      Int.cast_ofNat]

theorem keepsHalves_of_two_pow {j : ℕ} (hj : j < 1023) (hk : |k| = 2 ^ j) : KeepsHalves k := by
  have habs : |(k : ℚ)| = 2 ^ j := by exact_mod_cast hk
  have hpos : 0 < |(k : ℚ)| := by
    rw [habs]
    exact pow_pos (by norm_num) j
  have hsize : |(k : ℚ)| < 2 ^ 1023 := by
    rw [habs]
    exact pow_lt_pow_right₀ (by norm_num) hj
  have hnat : k.natAbs = 2 ^ j * 1 := by
    rw [Int.abs_eq_natAbs] at hk
    exact_mod_cast hk.trans (mul_one _).symm
  obtain ⟨g, hg, hround⟩ := worth_ofInt (isFinite_ofInt hsize)
  rw [hround.eq_of_representable (representable_signed (by decide) j hnat)] at hg
  have hbound : |(1 : ℚ) / k| < 2 ^ 1023 := by
    rw [abs_div, abs_one, habs]
    refine ((div_le_one (pow_pos (by norm_num) j)).2 (one_le_pow₀ (by norm_num))).trans_lt ?_
    exact one_lt_pow₀ (by norm_num) (by norm_num)
  obtain ⟨t, ht, hrt⟩ := (div_approximates worth_one hg (abs_pos.1 hpos)).worth hbound
  refine ⟨t, ht, ?_⟩
  rw [hrt.eq_of_representable (representable_one_div hk (by omega)),
    one_div_mul_cancel (abs_pos.1 hpos)]
  norm_num

/-- The least even number whose reciprocal loses halves is 98. -/
theorem keepsHalves_of_even (hk : k ≠ 0) (heven : Even k) (hlt : |k| < 98) : KeepsHalves k := by
  have small : ∀ i ∈ List.range 48,
      KeepsHalves (2 * ((i : ℤ) + 1)) ∧ KeepsHalves (-(2 * ((i : ℤ) + 1))) := by decide +kernel
  obtain ⟨l, rfl⟩ := heven
  rw [abs_lt] at hlt
  have hi := small (l.natAbs - 1) (List.mem_range.2 (by omega))
  obtain hpos | hneg := lt_or_gt_of_ne hk
  · have hl : -(2 * (((l.natAbs - 1 : ℕ) : ℤ) + 1)) = l + l := by omega
    exact hl ▸ hi.2
  · have hl : 2 * (((l.natAbs - 1 : ℕ) : ℤ) + 1) = l + l := by omega
    exact hl ▸ hi.1

example : ¬KeepsHalves 98 := by decide +kernel

end Arithmetic

end PullQuery
