import PullQuery.Proofs.Arithmetic.Reciprocals
import PullQuery.Proofs.Arithmetic.Table

namespace PullQuery

namespace Arithmetic

open Binary

variable {n : Item} {k : ℤ} {x : Float}

theorem double?_of_integer? (hn : n.integer? = some k) :
    n.double? = some (ofInt .double k).toDouble := by
  cases n <;> cases hn <;> rfl

section Scalars

theorem scalar_of_finite (hn : n.integer? = some k) (hf : (ofInt .double k).isFinite = true) :
    scalar n = .ok (ofInt .double k).toDouble := by
  have hx := ofDouble_toDouble hf (ofInt_approximates k).2
  unfold scalar
  rw [double?_of_integer? hn]
  dsimp only
  rw [hx]
  cases hb : ofInt .double k with
  | finite negative m e => rfl
  | nan =>
    rw [hb] at hf
    cases hf
  | infinite negative =>
    rw [hb] at hf
    cases hf

theorem ofDouble_infinite (negative : Bool) :
    ofDouble (Binary.infinite negative).toDouble = .infinite negative := by
  cases negative <;> decide

theorem scalar_of_infinite (hn : n.integer? = some k) (hf : (ofInt .double k).isFinite = false) :
    scalar n = .error (.of .pointOverflow) := by
  obtain ⟨negative, hb, -⟩ | ⟨negative, m, e, hb, -⟩ := (ofInt_approximates k).1
  · unfold scalar
    rw [double?_of_integer? hn]
    dsimp only
    rw [hb, ofDouble_infinite]
  · rw [hb] at hf
    cases hf

end Scalars

section Spans

theorem deltaTimes_of_some {d : Delta} {q : ℤ} (hq : scaled? d.nanos x = some q) :
    deltaTimes d x = overflowing (if q.natAbs < 2 ^ 63 then Delta.ofNanos? q else none) := by
  unfold deltaTimes
  rw [hq]
  rfl

theorem deltaTimes_of_lt {d : Delta} {q : ℤ} (hq : scaled? d.nanos x = some q) (h : |q| < 2 ^ 63) :
    ∃ e, deltaTimes d x = .ok e ∧ e.nanos = q := by
  rw [abs_lt] at h
  have hlimit : -Delta.limit ≤ q ∧ q ≤ Delta.limit := by
    unfold Delta.limit
    omega
  refine ⟨⟨q, hlimit⟩, ?_, rfl⟩
  rw [deltaTimes_of_some hq, if_pos (by omega),
    Delta.ofNanos?_eq_some_iff.2 (rfl : (Delta.mk q hlimit).nanos = q)]
  rfl

theorem deltaTimes_of_ge {d : Delta} {q : ℤ} (hq : scaled? d.nanos x = some q)
    (h : 2 ^ 63 ≤ |q|) : deltaTimes d x = .error (.of .pointOverflow) := by
  have hlarge : ¬q.natAbs < 2 ^ 63 := by
    rw [Int.abs_eq_natAbs] at h
    omega
  rw [deltaTimes_of_some hq, if_neg hlarge]
  rfl

theorem deltaTimes_of_none {d : Delta} (hq : scaled? d.nanos x = none) :
    deltaTimes d x = .error (.of .pointOverflow) := by
  unfold deltaTimes
  rw [hq]
  rfl

theorem scaled?_of_deltaTimes {d e : Delta} (h : deltaTimes d x = .ok e) :
    scaled? d.nanos x = some e.nanos := by
  cases hq : scaled? d.nanos x with
  | none =>
    rw [deltaTimes_of_none hq] at h
    cases h
  | some q =>
    rw [deltaTimes_of_some hq] at h
    by_cases hlt : q.natAbs < 2 ^ 63
    · rw [if_pos hlt] at h
      cases hd : Delta.ofNanos? q with
      | none =>
        rw [hd] at h
        cases h
      | some e' =>
        rw [hd] at h
        obtain rfl := Except.ok.inj h
        rw [Delta.ofNanos?_eq_some_iff.1 hd]
    · rw [if_neg hlt] at h
      cases h

theorem abs_nanos_lt (d : Delta) : |(d.nanos : ℚ)| < 2 ^ 1023 := by
  have hd : |d.nanos| < 2 ^ 84 := by
    have hb := d.bounded
    unfold Delta.limit at hb
    rw [abs_lt]
    omega
  have hlt : |(d.nanos : ℚ)| < 2 ^ 84 := by exact_mod_cast hd
  exact hlt.trans_le (pow_le_pow_right₀ (by norm_num) (by norm_num))

end Spans

end Arithmetic

open Arithmetic Binary

section Scaling

variable {n : Item} {k : ℤ}

def MultipliesTo (a b : Item) (result : Except Error (Option Item)) : Prop :=
  MultiplicativeOp.apply .multiply a b = result ∧ MultiplicativeOp.apply .multiply b a = result

structure ScalesSpan (n : Item) (k : ℤ) (d : Delta) : Prop where
  exact : Representable (k * d.nanos : ℤ) → |k * d.nanos| < 2 ^ 63 → ∃ e : Delta,
    MultipliesTo (.dayTimeDuration d) n (.ok (some (.dayTimeDuration e))) ∧
      e.nanos = k * d.nanos
  near : |k * d.nanos| ≤ 2 ^ 63 - 4096 → ∃ e : Delta,
    MultipliesTo (.dayTimeDuration d) n (.ok (some (.dayTimeDuration e))) ∧
      2 ^ 51 * |e.nanos - k * d.nanos| ≤ |k * d.nanos|
  refused : 2 ^ 63 + 4096 ≤ |k * d.nanos| →
    MultipliesTo (.dayTimeDuration d) n (.error (.of .pointOverflow))
  representable : ∀ e : Delta, MultiplicativeOp.apply .multiply (.dayTimeDuration d) n =
    .ok (some (.dayTimeDuration e)) → Representable e.nanos

def ScalesMonths (n : Item) (k : ℤ) (m : Int32) : Prop :=
  Word.Fits (k * m.toInt) → ∃ w : Int32,
    MultipliesTo (.yearMonthDuration m) n (.ok (some (.yearMonthDuration w))) ∧
      w.toInt = k * m.toInt

structure DividesMonths (n : Item) (k : ℤ) (m : Int32) : Prop where
  nearest : ¬(m = Int32.minValue ∧ k = -1) → ∃ w : Int32,
    MultiplicativeOp.apply .divide (.yearMonthDuration m) n =
      .ok (some (.yearMonthDuration w)) ∧ DividesTo m.toInt k w.toInt
  refused : m = Int32.minValue → k = -1 →
    MultiplicativeOp.apply .divide (.yearMonthDuration m) n = .error (.of .pointOverflow)

theorem multipliesTo_scale {a : Item} (ha : a.type.isOffset = true) (hn : n.integer? = some k) :
    MultipliesTo a n (scale a n) := by
  cases a <;> cases ha <;> cases n <;> cases hn <;> exact ⟨rfl, rfl⟩

theorem divide_eq_unscale {a : Item} (ha : a.type.isOffset = true) (hn : n.integer? = some k) :
    MultiplicativeOp.apply .divide a n = unscale a n := by
  cases a <;> cases ha <;> cases n <;> cases hn <;> rfl

theorem scale_span {x : Float} (hx : scalar n = .ok x) (d : Delta) :
    scale (.dayTimeDuration d) n = (deltaTimes d x).map fun e => some (.dayTimeDuration e) := by
  unfold scale
  dsimp only
  rw [hx]
  change (deltaTimes d x).bind _ = _
  cases deltaTimes d x <;> rfl

theorem scale_months {x : Float} (hx : scalar n = .ok x) (m : Int32) :
    scale (.yearMonthDuration m) n =
      (monthsTimes m x).map fun w => some (.yearMonthDuration w) := by
  unfold scale
  dsimp only
  rw [hx]
  change (monthsTimes m x).bind _ = _
  cases monthsTimes m x <;> rfl

theorem unscale_months {x y : Float} (hx : scalar n = .ok x) (hy : inverse x = .ok y)
    (m : Int32) : unscale (.yearMonthDuration m) n =
      (monthsTimes m y).map fun w => some (.yearMonthDuration w) := by
  have hxy : (scalar n).bind inverse = .ok y := by
    rw [hx]
    exact hy
  unfold unscale
  dsimp only
  rw [hxy]
  change (monthsTimes m y).bind _ = _
  cases monthsTimes m y <;> rfl

theorem part_of_near {p q : ℤ} (h : |(q - p : ℚ)| ≤ 1 / 2 + |(p : ℚ)| * (7 / 2 ^ 54))
    (hp : 2 ^ 53 ≤ |p|) : 2 ^ 51 * |q - p| ≤ |p| := by
  have hpq : (2 : ℚ) ^ 53 ≤ |(p : ℚ)| := by exact_mod_cast hp
  have : (2 : ℚ) ^ 51 * |(q - p : ℚ)| ≤ |(p : ℚ)| := by
    norm_num at h hpq ⊢
    linarith
  exact_mod_cast this

variable {d : Delta} {q : ℤ}

theorem span_accepted (hn : n.integer? = some k) (hf : (ofInt .double k).isFinite = true)
    (hq : scaled? d.nanos (ofInt .double k).toDouble = some q) (hlt : |q| < 2 ^ 63) :
    ∃ e : Delta, MultipliesTo (.dayTimeDuration d) n (.ok (some (.dayTimeDuration e))) ∧
      e.nanos = q := by
  obtain ⟨e, he, hnanos⟩ := deltaTimes_of_lt hq hlt
  have hscale : scale (.dayTimeDuration d) n = .ok (some (.dayTimeDuration e)) := by
    rw [scale_span (scalar_of_finite hn hf), he]
    rfl
  exact ⟨e, hscale ▸ multipliesTo_scale rfl hn, hnanos⟩

theorem span_refused (hn : n.integer? = some k) (hf : (ofInt .double k).isFinite = true)
    (hq : ∀ q, scaled? d.nanos (ofInt .double k).toDouble = some q → 2 ^ 63 ≤ |q|) :
    MultipliesTo (.dayTimeDuration d) n (.error (.of .pointOverflow)) := by
  have hdelta : deltaTimes d (ofInt .double k).toDouble = .error (.of .pointOverflow) := by
    cases hs : scaled? d.nanos (ofInt .double k).toDouble with
    | none => exact deltaTimes_of_none hs
    | some q => exact deltaTimes_of_ge hs (hq q hs)
  have hscale : scale (.dayTimeDuration d) n = .error (.of .pointOverflow) := by
    rw [scale_span (scalar_of_finite hn hf), hdelta]
    rfl
  exact hscale ▸ multipliesTo_scale rfl hn

theorem span_exact (hn : n.integer? = some k) (hf : (ofInt .double k).isFinite = true)
    (hrep : Representable (k * d.nanos : ℤ)) (hlt : |k * d.nanos| < 2 ^ 63) :
    ∃ e : Delta, MultipliesTo (.dayTimeDuration d) n (.ok (some (.dayTimeDuration e))) ∧
      e.nanos = k * d.nanos := by
  have hd := isFinite_ofInt (abs_nanos_lt d)
  rw [mul_comm k] at hrep hlt ⊢
  have hsize : |((d.nanos * k : ℤ) : ℚ)| < 2 ^ 1023 := by
    have : |((d.nanos * k : ℤ) : ℚ)| < 2 ^ 63 := by exact_mod_cast hlt
    exact this.trans (pow_lt_pow_right₀ (by norm_num) (by norm_num))
  exact span_accepted hn hf (scaled?_exact hd hf hrep hsize) hlt

theorem span_near (hf : (ofInt .double k).isFinite = true) (hlarge : 2 ^ 53 ≤ |k * d.nanos|) :
    (scaled? d.nanos (ofInt .double k).toDouble = none ∧
        (2 : ℚ) ^ 1022 ≤ |((k * d.nanos : ℤ) : ℚ)|) ∨
      ∃ q, scaled? d.nanos (ofInt .double k).toDouble = some q ∧
        2 ^ 51 * |q - k * d.nanos| ≤ |k * d.nanos| := by
  have hne : d.nanos * k ≠ 0 := by
    rw [mul_comm]
    intro hzero
    rw [hzero, abs_zero] at hlarge
    exact absurd hlarge (by decide)
  rw [mul_comm k] at hlarge ⊢
  obtain ⟨hnone, hsize⟩ | ⟨q, hq, hnear⟩ := scaled?_near (isFinite_ofInt (abs_nanos_lt d)) hf hne
  · left
    rw [Int.cast_mul]
    exact ⟨hnone, hsize⟩
  · right
    rw [← Int.cast_mul] at hnear
    exact ⟨q, hq, part_of_near hnear hlarge⟩

theorem span_representable {d e : Delta} (hn : n.integer? = some k)
    (hf : (ofInt .double k).isFinite = true)
    (h : MultiplicativeOp.apply .multiply (.dayTimeDuration d) n =
      .ok (some (.dayTimeDuration e))) : Representable e.nanos := by
  rw [(multipliesTo_scale rfl hn).1, scale_span (scalar_of_finite hn hf)] at h
  have hd : deltaTimes d (ofInt .double k).toDouble = .ok e := by
    cases hd : deltaTimes d (ofInt .double k).toDouble with
    | error e =>
      rw [hd] at h
      cases h
    | ok e' =>
      rw [hd] at h
      cases h
      rfl
  exact representable_of_roundAway? (canonical_ofDouble _) (scaled?_of_deltaTimes hd)

theorem scalesSpan (hn : n.integer? = some k) (hf : (ofInt .double k).isFinite = true)
    (d : Delta) : ScalesSpan n k d where
  exact := span_exact hn hf
  near hle := by
    by_cases hsmall : |k * d.nanos| < 2 ^ 53
    · obtain ⟨e, he, hnanos⟩ := span_exact hn hf (representable_intCast hsmall.le) (by omega)
      refine ⟨e, he, ?_⟩
      rw [hnanos, sub_self, abs_zero, mul_zero]
      exact abs_nonneg _
    obtain ⟨-, hsize⟩ | ⟨q, hq, hnear⟩ := span_near hf (not_lt.1 hsmall)
    · have htop : |((k * d.nanos : ℤ) : ℚ)| < 2 ^ 63 := by
        exact_mod_cast (by omega : |k * d.nanos| < 2 ^ 63)
      exact absurd (hsize.trans_lt htop)
        (not_lt.2 (pow_le_pow_right₀ (by norm_num) (by norm_num)))
    · have hq63 : |q| < 2 ^ 63 := by
        have := abs_sub_abs_le_abs_sub q (k * d.nanos)
        omega
      obtain ⟨e, he, hnanos⟩ := span_accepted hn hf hq hq63
      exact ⟨e, he, hnanos.symm ▸ hnear⟩
  refused hge := by
    refine span_refused hn hf fun q hq => ?_
    obtain ⟨hnone, -⟩ | ⟨q', hq', hnear⟩ := span_near hf (d := d) (by omega)
    · rw [hnone] at hq
      cases hq
    · obtain rfl : q' = q := Option.some.inj (hq'.symm.trans hq)
      have := abs_sub_abs_le_abs_sub (k * d.nanos) q'
      rw [abs_sub_comm] at this
      omega
  representable _ := span_representable hn hf

variable {m : Int32}

theorem monthsTimes_of_fits {x : Float} {w : Int32}
    (hq : scaled? m.toInt x = some w.toInt) : monthsTimes m x = .ok w := by
  unfold monthsTimes
  rw [hq, Option.bind_some, Word.ofInt?_toInt]
  rfl

theorem scalesMonths (hn : n.integer? = some k) (hf : (ofInt .double k).isFinite = true)
    (m : Int32) : ScalesMonths n k m := by
  intro hfit
  have hword := Word.toInt_ofInt hfit
  have hbits : |k * m.toInt| ≤ 2 ^ 53 := by
    unfold Word.Fits at hfit
    rw [abs_le]
    omega
  have hbitsq : |((m.toInt * k : ℤ) : ℚ)| ≤ 2 ^ 53 := by
    rw [mul_comm]
    exact_mod_cast hbits
  have hrep : Representable (m.toInt * k : ℤ) := by
    rw [mul_comm]
    exact representable_intCast hbits
  have hq := scaled?_exact (isFinite_toInt m) hf hrep
    (hbitsq.trans_lt (pow_lt_pow_right₀ (by norm_num) (by norm_num)))
  rw [mul_comm, ← hword] at hq
  have hscale : scale (.yearMonthDuration m) n =
      .ok (some (.yearMonthDuration (Int32.ofInt (k * m.toInt)))) := by
    rw [scale_months (scalar_of_finite hn hf), monthsTimes_of_fits hq]
    rfl
  exact ⟨_, hscale ▸ multipliesTo_scale rfl hn, hword⟩

theorem fits_of_dividesTo (hk : k ≠ 0) (hq : DividesTo m.toInt k q)
    (hne : ¬(m = Int32.minValue ∧ k = -1)) : Word.Fits q := by
  have hm := Word.fits_toInt m
  have hnear := hq.nearest
  unfold Word.Fits at hm ⊢
  by_cases hone : |k| = 1
  · obtain rfl | rfl := (abs_eq (by decide)).1 hone
    · rw [mul_one, abs_one] at hnear
      have : m.toInt - q = 0 := Int.abs_lt_one_iff.1 (by omega)
      omega
    · rw [abs_neg, abs_one] at hnear
      have : m.toInt - q * -1 = 0 := Int.abs_lt_one_iff.1 (by omega)
      have hleast : m.toInt ≠ -2147483648 := fun h =>
        hne ⟨Int32.toInt_inj.1 (h.trans (by decide)), rfl⟩
      omega
  · have htwo : 2 ≤ |k| := by
      have := Int.one_le_abs hk
      omega
    have hlt : |q| < 2 ^ 31 := by
      by_contra hge
      have hmul : 2 ^ 31 * |k| ≤ |q * k| := by
        rw [abs_mul]
        exact mul_le_mul_of_nonneg_right (not_lt.1 hge) (abs_nonneg k)
      have hsum := abs_sub_abs_le_abs_sub (q * k) m.toInt
      rw [abs_sub_comm] at hsum
      have hmabs : |m.toInt| ≤ 2 ^ 31 := by
        rw [abs_le]
        omega
      omega
    rw [abs_lt] at hlt
    omega

theorem quotient_of_least (hq : DividesTo Int32.minValue.toInt (-1) q) : q = 2147483648 := by
  have hnear := hq.nearest
  have hmin : Int32.minValue.toInt = -2147483648 := by decide
  rw [hmin, abs_neg, abs_one] at hnear
  have : (-2147483648 : ℤ) - q * -1 = 0 := Int.abs_lt_one_iff.1 (by omega)
  omega

theorem dividesMonths (hn : n.integer? = some k) (hf : (ofInt .double k).isFinite = true)
    (hk : k ≠ 0) (m : Int32) : DividesMonths n k m := by
  obtain ⟨y, q, hy, hq, hdiv⟩ : ∃ y q, inverse (ofInt .double k).toDouble = .ok y ∧
      scaled? m.toInt y = some q ∧ DividesTo m.toInt k q := by
    by_cases hsmall : |k| < 2 ^ 40
    · exact scaled?_inverse_of_small m hk hsmall
    · exact scaled?_inverse_of_large m (not_lt.1 hsmall) hf
  have happly : MultiplicativeOp.apply .divide (.yearMonthDuration m) n =
      (monthsTimes m y).map fun w => some (.yearMonthDuration w) := by
    rw [divide_eq_unscale rfl hn, unscale_months (scalar_of_finite hn hf) hy]
  constructor
  case nearest =>
    intro hne
    have hword := Word.toInt_ofInt (fits_of_dividesTo hk hdiv hne)
    rw [← hword] at hq hdiv
    refine ⟨_, ?_, hdiv⟩
    rw [happly, monthsTimes_of_fits hq]
    rfl
  case refused =>
    rintro rfl rfl
    rw [quotient_of_least hdiv] at hq
    have hmonths : monthsTimes Int32.minValue y = .error (.of .pointOverflow) := by
      unfold monthsTimes
      rw [hq]
      rfl
    rw [happly, hmonths]
    rfl

theorem refused_of_infinite (hn : n.integer? = some k) (hf : (ofInt .double k).isFinite = false)
    {a : Item} (ha : a.type.isOffset = true) :
    MultipliesTo a n (.error (.of .pointOverflow)) ∧
      MultiplicativeOp.apply .divide a n = .error (.of .pointOverflow) := by
  have hscalar := scalar_of_infinite hn hf
  have hscale : scale a n = .error (.of .pointOverflow) := by
    unfold scale
    rw [hscalar]
    cases a <;> cases ha <;> rfl
  have hunscale : unscale a n = .error (.of .pointOverflow) := by
    unfold unscale
    rw [hscalar]
    cases a <;> cases ha <;> rfl
  rw [divide_eq_unscale ha hn, hunscale]
  exact ⟨hscale ▸ multipliesTo_scale ha hn, rfl⟩

/-- Integers scale durations as doubles: months are multiplied exactly and divided to a nearest whole
number, spans are multiplied exactly as far as 53 digits go, and an integer that is beyond all
doubles is refused. -/
theorem integers_scale_durations (hn : n.integer? = some k) :
    ((ofInt .double k).isFinite = true →
      (∀ d, ScalesSpan n k d) ∧ (∀ m, ScalesMonths n k m) ∧
        (k ≠ 0 → ∀ m, DividesMonths n k m)) ∧
    ((ofInt .double k).isFinite = false → ∀ a : Item, a.type.isOffset = true →
      MultipliesTo a n (.error (.of .pointOverflow)) ∧
        MultiplicativeOp.apply .divide a n = .error (.of .pointOverflow)) ∧
    (k ≠ 0 → (Even k ∧ |k| < 98 ∨ ∃ j < 1023, |k| = 2 ^ j) → KeepsHalves k) := by
  refine ⟨fun hf => ⟨scalesSpan hn hf, scalesMonths hn hf, dividesMonths hn hf⟩,
    fun hf _ => refused_of_infinite hn hf, ?_⟩
  rintro hk (⟨heven, hlt⟩ | ⟨j, hj, hpow⟩)
  · exact keepsHalves_of_even hk heven hlt
  · exact keepsHalves_of_two_pow hj hpow

theorem sevenfold_durations : (Item.int 7).integer? = some 7 ∧
    (∃ e : Delta, MultipliesTo (.dayTimeDuration ⟨-1_500_000_001, by decide⟩) (.int 7)
      (.ok (some (.dayTimeDuration e))) ∧ e.nanos = 7 * -1_500_000_001) ∧
    ∃ w : Int32, MultiplicativeOp.apply .divide (.yearMonthDuration 10) (.int 7) =
      .ok (some (.yearMonthDuration w)) ∧ DividesTo 10 7 w.toInt :=
  have scaled := (integers_scale_durations (n := .int 7) (k := 7) rfl).1 (by decide)
  ⟨rfl, (scaled.1 ⟨-1_500_000_001, by decide⟩).exact (representable_intCast (by decide)) (by decide),
    (scaled.2.2 (by decide) 10).nearest (by decide)⟩

theorem scaling_by_integers_rounds :
    MultiplicativeOp.apply .multiply (.dayTimeDuration ⟨9007199254740993, by decide⟩) (.int 1) =
        .ok (some (.dayTimeDuration ⟨9007199254740992, by decide⟩)) ∧
      MultiplicativeOp.apply .multiply (.dayTimeDuration ⟨9223372037000000000, by decide⟩)
        (.int 1) = .error (.of .pointOverflow) ∧
      MultiplicativeOp.apply .divide (.yearMonthDuration 49) (.int 98) =
        .ok (some (.yearMonthDuration 0)) :=
  ⟨rfl, rfl, rfl⟩

end Scaling

end PullQuery
