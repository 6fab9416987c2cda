import PullQuery.Number.Shortest
import PullQuery.Proofs.Number.Exact
import PullQuery.Proofs.Number.Rounding

namespace PullQuery.Shortest

open Binary

section Powers

theorem ten_zpow_pos (k : ℤ) : (0 : ℚ) < 10 ^ k := zpow_pos (by decide) k

theorem ten_zpow_add (j k : ℤ) : (10 : ℚ) ^ (j + k) = 10 ^ j * 10 ^ k := zpow_add₀ (by decide) j k

theorem ten_zpow_le_iff {j k : ℤ} : (10 : ℚ) ^ j ≤ 10 ^ k ↔ j ≤ k :=
  zpow_le_zpow_iff_right₀ (by decide)

theorem ten_zpow_lt_iff {j k : ℤ} : (10 : ℚ) ^ j < 10 ^ k ↔ j < k :=
  zpow_lt_zpow_iff_right₀ (by decide)

theorem ten_zpow_eq_div (k : ℤ) : (10 : ℚ) ^ k = 10 ^ k.toNat / 10 ^ (-k).toNat := by
  rw [← zpow_natCast, ← zpow_natCast, ← zpow_sub₀ (by decide)]
  congr 1
  omega

theorem cast_ten (n : ℕ) : ((Nat.pow 10 n : ℕ) : ℚ) = 10 ^ n := by
  rw [Nat.pow_eq, Nat.cast_pow, Nat.cast_ofNat]

variable {x y : ℚ} {p q r s : ℕ} {a b : ℤ}

theorem zpow_le_zpow_of_nonneg (hx : 1 ≤ x) (hy : 1 ≤ y) (hp : p ≠ 0) (h : x ^ p ≤ y ^ q)
    (ha : 0 ≤ a) (hab : q * a ≤ p * b) : x ^ a ≤ y ^ b := by
  have hx0 : 0 < x := one_pos.trans_le hx
  have hy0 : 0 < y := one_pos.trans_le hy
  refine (pow_le_pow_iff_left₀ (zpow_pos hx0 a).le (zpow_pos hy0 b).le hp).1 ?_
  calc (x ^ a) ^ p = (x ^ p) ^ a := by rw [← zpow_natCast, ← zpow_natCast, zpow_comm]
    _ ≤ (y ^ q) ^ a := zpow_le_zpow_left₀ ha (pow_pos hx0 p).le h
    _ = y ^ (q * a) := by rw [zpow_mul, zpow_natCast]
    _ ≤ y ^ (p * b) := zpow_le_zpow_right₀ hy hab
    _ = (y ^ b) ^ p := by rw [mul_comm, zpow_mul, zpow_natCast]

theorem zpow_le_zpow_of_bounds (hx : 1 ≤ x) (hy : 1 ≤ y) (hp : p ≠ 0) (hr : r ≠ 0)
    (h : x ^ p ≤ y ^ q) (h' : y ^ r ≤ x ^ s) (hab : q * a ≤ p * b) (hab' : r * a ≤ s * b) :
    x ^ a ≤ y ^ b := by
  obtain ha | ha := le_total 0 a
  · exact zpow_le_zpow_of_nonneg hx hy hp h ha hab
  obtain hb | hb := le_total 0 b
  · exact (zpow_le_one_of_nonpos₀ hx ha).trans (one_le_zpow₀ hy hb)
  · have hinv : y ^ (-b) ≤ x ^ (-a) := by
      refine zpow_le_zpow_of_nonneg hy hx hr h' (neg_nonneg.2 hb) ?_
      rw [mul_neg, mul_neg]
      exact neg_le_neg hab'
    rw [zpow_neg, zpow_neg] at hinv
    exact (inv_le_inv₀ (zpow_pos (one_pos.trans_le hy) b) (zpow_pos (one_pos.trans_le hx) a)).1 hinv

theorem ten_zpow_le_two_zpow (h : 196 * a ≤ 59 * b) (h' : 93 * a ≤ 28 * b) :
    (10 : ℚ) ^ a ≤ 2 ^ b :=
  @zpow_le_zpow_of_bounds 10 2 59 196 93 28 a b (by norm_num) (by norm_num) (by decide) (by decide)
    (by norm_num) (by norm_num) h h'

theorem two_zpow_le_ten_zpow (h : 28 * a ≤ 93 * b) (h' : 59 * a ≤ 196 * b) :
    (2 : ℚ) ^ a ≤ 10 ^ b :=
  @zpow_le_zpow_of_bounds 2 10 93 28 59 196 a b (by norm_num) (by norm_num) (by decide) (by decide)
    (by norm_num) (by norm_num) h h'

end Powers

section Leading

variable {m : ℕ} {e : ℤ}

theorem reaches_iff (k : ℤ) :
    Nat.pow 10 k.toNat * Nat.pow 2 (-e).toNat ≤ m * Nat.pow 2 e.toNat * Nat.pow 10 (-k).toNat ↔
      (10 : ℚ) ^ k ≤ m * 2 ^ e := by
  have htwo : (0 : ℚ) < 2 ^ (-e).toNat := pow_pos (by decide) _
  have hten : (0 : ℚ) < 10 ^ (-k).toNat := pow_pos (by decide) _
  rw [ten_zpow_eq_div, two_zpow_eq_div, ← mul_div_assoc, div_le_div_iff₀ hten htwo,
    ← @Nat.cast_le ℚ, Nat.cast_mul, Nat.cast_mul, Nat.cast_mul, cast_ten, cast_ten, cast_two,
    cast_two]

theorem two_zpow_log2_le (hm : 0 < m) : (2 : ℚ) ^ (m.log2 + e) ≤ m * 2 ^ e := by
  rw [two_zpow_add, zpow_natCast]
  refine mul_le_mul_of_nonneg_right ?_ (two_zpow_pos e).le
  exact_mod_cast Nat.log2_self_le hm.ne'

theorem lt_two_zpow_log2 : (m : ℚ) * 2 ^ e < 2 ^ (m.log2 + e + 1) := by
  rw [show (m.log2 : ℤ) + e + 1 = (m.log2 + 1 : ℕ) + e by push_cast; ring, two_zpow_add, zpow_natCast]
  refine mul_lt_mul_of_pos_right ?_ (two_zpow_pos e)
  exact_mod_cast Nat.lt_log2_self

theorem leadingPlace_spec (hm : 0 < m) (hl : -1100 ≤ m.log2 + e) (hu : m.log2 + e ≤ 1100) :
    (10 : ℚ) ^ leadingPlace m e ≤ m * 2 ^ e ∧ (m : ℚ) * 2 ^ e < 10 ^ (leadingPlace m e + 1) := by
  obtain ⟨g, hg⟩ : ∃ g : ℤ, g = ((m.log2 + e) * 30103).fdiv 100000 := ⟨_, rfl⟩
  rw [Int.fdiv_eq_ediv_of_nonneg _ (by decide)] at hg
  have hlow : (10 : ℚ) ^ (g - 1) ≤ m * 2 ^ e :=
    (ten_zpow_le_two_zpow (by omega) (by omega)).trans (two_zpow_log2_le hm)
  have hhigh : (m : ℚ) * 2 ^ e < 10 ^ (g + 2) :=
    lt_two_zpow_log2.trans_le (two_zpow_le_ten_zpow (by omega) (by omega))
  unfold leadingPlace
  rw [Int.fdiv_eq_ediv_of_nonneg _ (by decide), ← hg]
  simp only [decide_eq_true_eq, reaches_iff]
  split
  case isTrue h => exact ⟨h, by rwa [add_assoc]⟩
  case isFalse h =>
    split
    case isTrue h' => exact ⟨h', not_le.1 h⟩
    case isFalse h' => exact ⟨hlow, by rw [sub_add_cancel]; exact not_le.1 h'⟩

end Leading

section Grid

variable {i : Interval} {tie : Tie} {e k : ℤ} {n : ℕ}

def quarter (e : ℤ) : ℚ := 2 ^ (e - 2)

def Interval.Has (i : Interval) (e : ℤ) (q : ℚ) : Prop :=
  if i.closed then i.low * quarter e ≤ q ∧ q ≤ i.high * quarter e
  else i.low * quarter e < q ∧ q < i.high * quarter e

def below (i : Interval) (e k : ℤ) : ℕ := i.value * (units k e).2 / (units k e).1

theorem units_eq (k e : ℤ) :
    ∃ c : ℚ, 0 < c ∧ ((units k e).1 : ℚ) = 10 ^ k * c ∧ ((units k e).2 : ℚ) = quarter e * c := by
  have htwo : (0 : ℚ) < 2 ^ (2 - e).toNat := pow_pos (by decide) _
  have hten : (0 : ℚ) < 10 ^ (-k).toNat := pow_pos (by decide) _
  refine ⟨10 ^ (-k).toNat * 2 ^ (2 - e).toNat, mul_pos hten htwo, ?_, ?_⟩
  · rw [units, Nat.cast_mul, cast_ten, cast_two, ten_zpow_eq_div]
    field_simp
  · rw [units, Nat.cast_mul, cast_ten, cast_two, quarter, two_zpow_eq_div, neg_sub]
    field_simp

theorem units_le_iff {a b : ℕ} :
    a * (units k e).2 ≤ b * (units k e).1 ↔ (a : ℚ) * quarter e ≤ b * 10 ^ k := by
  obtain ⟨c, hc, hs, hu⟩ := units_eq k e
  rw [← @Nat.cast_le ℚ, Nat.cast_mul, Nat.cast_mul, hs, hu, ← mul_assoc, ← mul_assoc,
    mul_le_mul_iff_left₀ hc]

theorem le_units_iff {a b : ℕ} :
    b * (units k e).1 ≤ a * (units k e).2 ↔ (b : ℚ) * 10 ^ k ≤ a * quarter e := by
  obtain ⟨c, hc, hs, hu⟩ := units_eq k e
  rw [← @Nat.cast_le ℚ, Nat.cast_mul, Nat.cast_mul, hs, hu, ← mul_assoc, ← mul_assoc,
    mul_le_mul_iff_left₀ hc]

theorem contains_iff : i.contains (n * (units k e).1) (units k e).2 = true ↔
    i.Has e (n * 10 ^ k) := by
  unfold Interval.contains Interval.Has
  split
  · rw [Bool.and_eq_true, decide_eq_true_eq, decide_eq_true_eq, units_le_iff, le_units_iff]
  · rw [Bool.and_eq_true, decide_eq_true_eq, decide_eq_true_eq, ← not_le, ← not_le, units_le_iff,
      le_units_iff, not_le, not_le]

theorem below_le : (below i e k : ℚ) * 10 ^ k ≤ i.value * quarter e :=
  le_units_iff.1 (Nat.div_mul_le_self ..)

theorem lt_above : i.value * quarter e < ((below i e k + 1 : ℕ) : ℚ) * 10 ^ k := by
  have hs : 0 < (units k e).1 := Nat.mul_pos (Nat.pow_pos (by decide)) (Nat.pow_pos (by decide))
  rw [← not_le, ← le_units_iff, not_le, mul_comm _ (units k e).1]
  exact Nat.lt_mul_div_succ _ hs

def pick (tie : Tie) (n : ℕ) (mayBelow mayAbove : Bool) (order : Ordering) : Option ℕ :=
  match mayBelow, mayAbove with
  | false, false => none
  | true, false => some n
  | false, true => some (n + 1)
  | true, true =>
    match order, tie with
    | .lt, _ => some n
    | .gt, _ => some (n + 1)
    | .eq, .away => some (n + 1)
    | .eq, .even => some (if n % 2 = 0 then n else n + 1)

theorem pick_eq_some {mayBelow mayAbove : Bool} {order : Ordering} {b : ℕ}
    (h : pick tie b mayBelow mayAbove order = some n) :
    n = b ∧ mayBelow = true ∨ n = b + 1 ∧ mayAbove = true := by
  cases mayBelow <;> cases mayAbove
  · cases h
  · cases h
    exact .inr ⟨rfl, rfl⟩
  · cases h
    exact .inl ⟨rfl, rfl⟩
  · have hn : n = b ∨ n = b + 1 := by
      cases order <;> cases tie
      case eq.even =>
        by_cases hb : b % 2 = 0
        · exact .inl (Option.some.inj (h.symm.trans (congrArg some (if_pos hb))))
        · exact .inr (Option.some.inj (h.symm.trans (congrArg some (if_neg hb))))
      all_goals
        cases h
        first | exact .inl rfl | exact .inr rfl
    exact hn.imp (⟨·, rfl⟩) (⟨·, rfl⟩)

theorem exists_pick {mayBelow mayAbove : Bool} (h : mayBelow = true ∨ mayAbove = true)
    (tie : Tie) (b : ℕ) (order : Ordering) : ∃ n, pick tie b mayBelow mayAbove order = some n := by
  cases mayBelow <;> cases mayAbove
  · simp at h
  · exact ⟨_, rfl⟩
  · exact ⟨_, rfl⟩
  · cases order <;> cases tie <;> exact ⟨_, rfl⟩

theorem onGrid?_eq : onGrid? i tie e k = pick tie (below i e k)
    (i.contains (below i e k * (units k e).1) (units k e).2)
    (i.contains ((below i e k + 1) * (units k e).1) (units k e).2)
    (compare (2 * (i.value * (units k e).2)) ((below i e k + (below i e k + 1)) * (units k e).1)) :=
  rfl

theorem onGrid?_eq_some (h : onGrid? i tie e k = some n) :
    (n = below i e k ∨ n = below i e k + 1) ∧ i.Has e (n * 10 ^ k) := by
  rw [onGrid?_eq] at h
  obtain ⟨rfl, hn⟩ | ⟨rfl, hn⟩ := pick_eq_some h
  · exact ⟨.inl rfl, contains_iff.1 hn⟩
  · exact ⟨.inr rfl, contains_iff.1 hn⟩

theorem exists_onGrid? (h : i.Has e (below i e k * 10 ^ k) ∨
    i.Has e ((below i e k + 1 : ℕ) * 10 ^ k)) (tie : Tie) : ∃ n, onGrid? i tie e k = some n := by
  rw [onGrid?_eq]
  exact exists_pick (h.imp contains_iff.2 contains_iff.2) tie _ _

theorem finer_eq {fuel j : ℕ} (hj : j < fuel) (h : ∃ n, onGrid? i tie e (k - j) = some n) :
    ∃ l ≤ k, ∃ n, onGrid? i tie e l = some n ∧ finer i tie e fuel k = ⟨n, -l⟩ := by
  induction fuel generalizing j k with
  | zero => omega
  | succ fuel ih =>
    rw [finer]
    rcases hk : onGrid? i tie e k with _ | n
    · cases j with
      | zero =>
        obtain ⟨n, hn⟩ := h
        rw [Nat.cast_zero, sub_zero, hk] at hn
        cases hn
      | succ j =>
        have hkj : k - (j + 1 : ℕ) = k - 1 - j := by omega
        rw [hkj] at h
        obtain ⟨l, hl, hn⟩ := ih (by omega) h
        exact ⟨l, by omega, hn⟩
    · exact ⟨k, le_rfl, n, hk, rfl⟩

end Grid

section Around

variable {m : ℕ} {e : ℤ} {q : ℚ}

theorem four_mul_quarter (e : ℤ) : 4 * quarter e = 2 ^ e := by
  rw [quarter, sub_eq_add_neg, two_zpow_add]
  norm_num
  ring

theorem around_value (m : ℕ) (e : ℤ) :
    ((Interval.around .double m e).value : ℚ) * quarter e = m * 2 ^ e := by
  rw [← four_mul_quarter]
  simp only [Interval.around]
  push_cast
  ring

def Narrow (m : ℕ) (e : ℤ) : Prop := m = 2 ^ 52 ∧ -1074 < e

theorem around_low (hm : 0 < m) (e : ℤ) : Narrow m e ∧
      ((Interval.around .double m e).low : ℚ) * quarter e = (m - 1 / 4) * 2 ^ e ∨
    ¬Narrow m e ∧
      ((Interval.around .double m e).low : ℚ) * quarter e = (m - 1 / 2) * 2 ^ e := by
  rw [← four_mul_quarter]
  by_cases h : Narrow m e
  · have hlow : (Interval.around .double m e).low = 4 * m - 1 := if_pos h
    refine .inl ⟨h, ?_⟩
    rw [hlow, Nat.cast_sub (by omega)]
    push_cast
    ring
  · have hlow : (Interval.around .double m e).low = 4 * m - 2 := if_neg h
    refine .inr ⟨h, ?_⟩
    rw [hlow, Nat.cast_sub (by omega)]
    push_cast
    ring

theorem around_high (m : ℕ) (e : ℤ) :
    ((Interval.around .double m e).high : ℚ) * quarter e = (m + 1 / 2) * 2 ^ e := by
  rw [← four_mul_quarter]
  simp only [Interval.around]
  push_cast
  ring

theorem Interval.Has.bounds {i : Interval} (h : i.Has e q) :
    i.low * quarter e ≤ q ∧ q ≤ i.high * quarter e := by
  unfold Interval.Has at h
  split at h
  · exact h
  · exact ⟨h.1.le, h.2.le⟩

theorem Interval.has_of_lt {i : Interval} (h : i.low * quarter e < q) (h' : q < i.high * quarter e) :
    i.Has e q := by
  unfold Interval.Has
  split
  · exact ⟨h.le, h'.le⟩
  · exact ⟨h, h'⟩

theorem has_of_fine {k : ℤ} (hm : 0 < m) (hlt : m < 2 ^ 53) (hk : (10 : ℚ) ^ k * 10 ^ 16 ≤ m * 2 ^ e) :
    (Interval.around .double m e).Has e (below (.around .double m e) e k * 10 ^ k) ∨
      (Interval.around .double m e).Has e
        ((below (.around .double m e) e k + 1 : ℕ) * 10 ^ k) := by
  have hpos := two_zpow_pos e
  have hmq : (m : ℚ) < 2 ^ 53 := by exact_mod_cast hlt
  have hm0 : (0 : ℚ) < m := by exact_mod_cast hm
  have hb := @below_le (.around .double m e) e k
  have ha := @lt_above (.around .double m e) e k
  have hhigh := around_high m e
  rw [around_value] at hb ha
  rw [Nat.cast_add, Nat.cast_one] at ha ⊢
  by_contra h
  obtain ⟨hnb, hna⟩ := not_or.1 h
  have hlow : (below (.around .double m e) e k : ℚ) * 10 ^ k ≤
      (Interval.around .double m e).low * quarter e := by
    by_contra hl
    exact hnb (Interval.has_of_lt (not_le.1 hl) (by rw [hhigh]; linarith))
  have habove : (Interval.around .double m e).high * quarter e ≤
      ((below (.around .double m e) e k : ℚ) + 1) * 10 ^ k := by
    by_contra hl
    refine hna (Interval.has_of_lt ?_ (not_le.1 hl))
    obtain ⟨-, h⟩ | ⟨-, h⟩ := around_low hm e
    · rw [h]; linarith
    · rw [h]; linarith
  rw [hhigh] at habove
  obtain ⟨⟨rfl, -⟩, h⟩ | ⟨-, h⟩ := around_low hm e
  · rw [h] at hlow
    push_cast at hk hlow habove
    linarith
  · rw [h] at hlow
    have hwide : (2 : ℚ) ^ e ≤ 10 ^ k := by linarith
    have : (2 : ℚ) ^ e * 10 ^ 16 < 2 ^ 53 * 2 ^ e := by
      calc (2 : ℚ) ^ e * 10 ^ 16 ≤ (10 : ℚ) ^ k * 10 ^ 16 :=
            mul_le_mul_of_nonneg_right hwide (by norm_num)
        _ ≤ m * 2 ^ e := hk
        _ < 2 ^ 53 * 2 ^ e := mul_lt_mul_of_pos_right hmq hpos
    linarith

theorem around_low_ge (hm : 0 < m) (e : ℤ) :
    ((m : ℚ) - 1 / 2) * 2 ^ e ≤ (Interval.around .double m e).low * quarter e := by
  obtain ⟨-, h⟩ | ⟨-, h⟩ := around_low hm e
  · rw [h]
    exact mul_le_mul_of_nonneg_right (by linarith) (two_zpow_pos e).le
  · exact h.ge

theorem Interval.Has.nearest (hm : 0 < m) (h : (Interval.around .double m e).Has e q) :
    NearestEven (q / 2 ^ e) m := by
  have hpos := two_zpow_pos e
  have hge := around_low_ge hm e
  have hhigh := around_high m e
  unfold Interval.Has at h
  by_cases hc : (Interval.around .double m e).closed = true
  · rw [if_pos hc] at h
    have hl : (m : ℚ) - 1 / 2 ≤ q / 2 ^ e := (le_div_iff₀ hpos).2 (hge.trans h.1)
    have hu : q / 2 ^ e ≤ (m : ℚ) + 1 / 2 := (div_le_iff₀ hpos).2 (h.2.trans_eq hhigh)
    refine nearestEven_of_even (Nat.even_iff.2 (beq_iff_eq.1 hc)) (abs_le.2 ⟨?_, ?_⟩)
    · linarith
    · linarith
  · rw [if_neg hc] at h
    have hl : (m : ℚ) - 1 / 2 < q / 2 ^ e := (lt_div_iff₀ hpos).2 (hge.trans_lt h.1)
    have hu : q / 2 ^ e < (m : ℚ) + 1 / 2 := (div_lt_iff₀ hpos).2 (h.2.trans_eq hhigh)
    refine nearestEven_of_lt (abs_lt.2 ⟨?_, ?_⟩)
    · linarith
    · linarith

theorem Interval.Has.rounds (hm : 0 < m) (hlt : m < 2 ^ 53) (he : -1074 ≤ e)
    (hlead : e = -1074 ∨ 2 ^ 52 ≤ m) (h : (Interval.around .double m e).Has e q) :
    Rounds q (m * 2 ^ e) := by
  have hpos := two_zpow_pos e
  obtain ⟨hl, hu⟩ := h.bounds
  rw [around_high, ← div_le_iff₀ hpos] at hu
  have hq : q = q / 2 ^ e * 2 ^ e := (div_mul_cancel₀ q hpos.ne').symm
  have hmle : (m : ℚ) + 1 ≤ 2 ^ 53 := by exact_mod_cast hlt
  by_cases hb : Narrow m e ∧ q / 2 ^ e < 2 ^ 52
  · -- Below a power of two the unit is half as great.
    obtain ⟨⟨rfl, hne⟩, hb⟩ := hb
    have hlow := (around_low hm e).resolve_right fun h => h.1 ⟨rfl, hne⟩
    rw [hlow.2, ← le_div_iff₀ hpos] at hl
    push_cast at hl
    have htwo : (2 : ℚ) ^ e = 2 * 2 ^ (e - 1) := by
      rw [sub_eq_add_neg, two_zpow_add]
      norm_num
      ring
    have hnear : NearestEven (2 * (q / 2 ^ e)) (2 ^ 53 : ℕ) := by
      refine nearestEven_of_even (by decide) (abs_le.2 ⟨?_, ?_⟩)
      · push_cast
        linarith
      · push_cast
        linarith
    refine ⟨(2 ^ 53 : ℕ), e - 1, ?_, ?_⟩
    · have hq' : q = 2 * (q / 2 ^ e) * 2 ^ (e - 1) := by
        rw [mul_right_comm, ← htwo, mul_comm]
        exact hq
      rw [hq']
      exact rounded_of_quotient hnear (by linarith) (by linarith) (by omega) (.inr (by linarith))
    · rw [htwo]
      push_cast
      ring
  · have hge : (m : ℚ) - 1 / 2 ≤ q / 2 ^ e := (le_div_iff₀ hpos).2 ((around_low_ge hm e).trans hl)
    have h0 : 0 ≤ q / 2 ^ e := by
      have : (1 : ℚ) ≤ m := by exact_mod_cast hm
      linarith
    have hlead' : e = -1074 ∨ (2 : ℚ) ^ 52 ≤ q / 2 ^ e := by
      refine or_iff_not_imp_left.2 fun hne => ?_
      obtain hm52 | hm52 := (hlead.resolve_left hne).eq_or_lt
      · exact not_lt.1 fun hlt => hb ⟨⟨hm52.symm, lt_of_le_of_ne he (Ne.symm hne)⟩, hlt⟩
      · have : (2 : ℚ) ^ 52 + 1 ≤ m := by exact_mod_cast hm52
        linarith
    refine ⟨m, e, ?_, by rw [Int.cast_natCast]⟩
    rw [hq]
    exact rounded_of_quotient (h.nearest hm) h0 (by linarith) he hlead'

end Around

section Digits

variable {m : ℕ} {e : ℤ}

theorem log2_add_bounds (hm : 0 < m) (hlt : m < 2 ^ 53) (he : -1074 ≤ e) (hu : e ≤ 971) :
    -1100 ≤ m.log2 + e ∧ (m.log2 : ℤ) + e ≤ 1100 := by
  have : m.log2 < 53 := (Nat.log2_lt hm.ne').2 hlt
  omega

theorem digits_spec (tie : Tie) (hm : 0 < m) (hlt : m < 2 ^ 53) (he : -1074 ≤ e) (hu : e ≤ 971) :
    (Interval.around .double m e).Has e (digits .double tie m e).value ∧
      (10 : ℚ) ^ leadingPlace m e ≤ (digits .double tie m e).value := by
  obtain ⟨hl, hu⟩ := log2_add_bounds hm hlt he hu
  obtain ⟨hplace, -⟩ := leadingPlace_spec hm hl hu
  have hfine : (10 : ℚ) ^ (leadingPlace m e - (16 : ℕ)) * 10 ^ 16 ≤ m * 2 ^ e := by
    rw [← zpow_natCast, ← ten_zpow_add, Nat.cast_ofNat, sub_add_cancel]
    exact hplace
  obtain ⟨k, hk, n, hn, hd⟩ := finer_eq (by decide : 16 < mostDigits)
    (exists_onGrid? (has_of_fine hm hlt hfine) tie)
  have hvalue : (digits .double tie m e).value = n * 10 ^ k := by
    rw [digits, Decimal.value_normalized, hd, Decimal.value, neg_neg, Int.cast_natCast]
  obtain ⟨hnb, hhas⟩ := onGrid?_eq_some hn
  rw [hvalue]
  refine ⟨hhas, ?_⟩
  -- The power of ten is a point of the grid that the double reaches.
  obtain ⟨j, hj⟩ := Int.le.dest hk
  have hten : (10 : ℚ) ^ leadingPlace m e = (10 ^ j : ℕ) * 10 ^ k := by
    rw [← hj, add_comm, ten_zpow_add, zpow_natCast]
    push_cast
    rfl
  have hlt := @lt_above (.around .double m e) e k
  rw [around_value] at hlt
  have hpow : ((10 ^ j : ℕ) : ℚ) < (below (.around .double m e) e k + 1 : ℕ) := by
    refine lt_of_mul_lt_mul_right ?_ (ten_zpow_pos k).le
    rw [← hten]
    exact hplace.trans_lt hlt
  have hle : 10 ^ j ≤ n := by
    have : 10 ^ j < below (.around .double m e) e k + 1 := by exact_mod_cast hpow
    omega
  rw [hten]
  exact mul_le_mul_of_nonneg_right (by exact_mod_cast hle) (ten_zpow_pos k).le

section Thresholds

variable (tie : Tie) (hm : 0 < m) (hlt : m < 2 ^ 53) (he : -1074 ≤ e) (hu : e ≤ 971)
  (hlead : e = -1074 ∨ 2 ^ 52 ≤ m)

include hm hlt he hu

theorem digits_reach {c : ℤ} (h : (10 : ℚ) ^ c ≤ m * 2 ^ e) :
    (10 : ℚ) ^ c ≤ (digits .double tie m e).value := by
  obtain ⟨hl, hu'⟩ := log2_add_bounds hm hlt he hu
  have hc := ten_zpow_lt_iff.1 (h.trans_lt (leadingPlace_spec hm hl hu').2)
  exact (ten_zpow_le_iff.2 (Int.lt_add_one_iff.1 hc)).trans (digits_spec tie hm hlt he hu).2

include hlead

theorem digits_rounds : Rounds (digits .double tie m e).value (m * 2 ^ e) :=
  (digits_spec tie hm hlt he hu).1.rounds hm hlt he hlead

theorem digits_reach_great_iff :
    (10 : ℚ) ^ (16 : ℤ) ≤ (digits .double tie m e).value ↔ (10 : ℚ) ^ (16 : ℤ) ≤ m * 2 ^ e := by
  refine ⟨fun h => ?_, digits_reach tie hm hlt he hu⟩
  have hrep : Representable ((10 : ℚ) ^ (16 : ℤ)) := ⟨5 ^ 16, 16, by norm_num, by decide, by norm_num⟩
  refine (digits_rounds tie hm hlt he hu hlead).le_of_near hrep (ten_zpow_pos 16).le (le_trans ?_ h)
  norm_num

/-- The power of ten lies between two doubles, nearer to the greater. -/
theorem digits_reach_small_iff :
    (10 : ℚ) ^ (-5 : ℤ) ≤ (digits .double tie m e).value ↔ (10 : ℚ) ^ (-5 : ℤ) ≤ m * 2 ^ e := by
  refine ⟨fun h => ?_, digits_reach tie hm hlt he hu⟩
  have hle : (10 : ℚ) ^ (-5 : ℤ) ≤ (m + 1 / 2) * 2 ^ e :=
    h.trans ((digits_spec tie hm hlt he hu).1.bounds.2.trans_eq (around_high m e))
  have hmq : (m : ℚ) + 1 ≤ 2 ^ 53 := by exact_mod_cast hlt
  have hten : (2 : ℚ) ^ (-17 : ℤ) < 10 ^ (-5 : ℤ) := by norm_num
  by_contra hx
  have hx := not_le.1 hx
  by_cases hsmall : e ≤ -70
  · have hunit : (2 : ℚ) ^ e ≤ 2 ^ (-70 : ℤ) := two_zpow_le_iff.2 hsmall
    have : ((m : ℚ) + 1 / 2) * 2 ^ e ≤ 2 ^ 53 * 2 ^ (-70 : ℤ) :=
      mul_le_mul (by linarith) hunit (two_zpow_pos e).le (by norm_num)
    norm_num at this hten hle
    linarith
  · have hm52 : (2 : ℚ) ^ 52 ≤ m := by exact_mod_cast hlead.resolve_left (by omega)
    have hbound : (2 : ℚ) ^ (52 + e) < 2 ^ (-16 : ℤ) := by
      rw [two_zpow_add]
      calc (2 : ℚ) ^ (52 : ℤ) * 2 ^ e ≤ m * 2 ^ e :=
            mul_le_mul_of_nonneg_right (by exact_mod_cast hm52) (two_zpow_pos e).le
        _ < 10 ^ (-5 : ℤ) := hx
        _ < 2 ^ (-16 : ℤ) := by norm_num
    have he69 : e = -69 := by
      have := two_zpow_lt_iff.1 hbound
      omega
    subst he69
    -- The power of ten is a little more than 5902958103587056.5 units.
    have hcount : m < 5902958103587057 := by
      have : (m : ℚ) < 5902958103587057 := by
        norm_num at hx
        linarith
      exact_mod_cast this
    have : (m : ℚ) ≤ 5902958103587056 := by exact_mod_cast Nat.lt_succ_iff.1 hcount
    norm_num at hle
    linarith

end Thresholds

end Digits

end PullQuery.Shortest
