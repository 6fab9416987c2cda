import Mathlib.Tactic.LinearCombination
import PullQuery.Builtin
import PullQuery.Proofs.Arithmetic.Exact

namespace PullQuery

namespace Duration

section Signed

variable {s : ℤ}

theorem tdiv_signed (hs : s = 1 ∨ s = -1) (n k : ℕ) : (s * n).tdiv k = s * (n / k : ℕ) := by
  obtain rfl | rfl := hs
  · rw [one_mul, one_mul, Int.ofNat_tdiv]
  · rw [neg_one_mul, neg_one_mul, Int.neg_tdiv, Int.ofNat_tdiv]

theorem tmod_signed (hs : s = 1 ∨ s = -1) (n k : ℕ) : (s * n).tmod k = s * (n % k : ℕ) := by
  obtain rfl | rfl := hs
  · rw [one_mul, one_mul, Int.ofNat_tmod]
  · rw [neg_one_mul, neg_one_mul, Int.neg_tmod, Int.ofNat_tmod]

theorem exists_signed (n : ℤ) : ∃ (s : ℤ) (k : ℕ), (s = 1 ∨ s = -1) ∧ n = s * k := by
  obtain ⟨k, rfl | rfl⟩ := n.eq_nat_or_neg
  · exact ⟨1, k, .inl rfl, (one_mul _).symm⟩
  · exact ⟨-1, k, .inr rfl, (neg_one_mul _).symm⟩

theorem abs_signed_lt (hs : s = 1 ∨ s = -1) {n k : ℕ} (h : n < k) :
    |((s * n : ℤ) : ℚ)| < k := by
  have hn : |s * (n : ℤ)| = n := by
    rw [abs_mul, Nat.abs_cast]
    obtain rfl | rfl := hs
    · rw [abs_one, one_mul]
    · rw [abs_neg, abs_one, one_mul]
  rw [← Int.cast_abs, hn, Int.cast_natCast]
  exact_mod_cast h

theorem signed_signs (hs : s = 1 ∨ s = -1) :
    (∀ k : ℕ, 0 ≤ ((s * k : ℤ) : ℚ)) ∨ ∀ k : ℕ, ((s * k : ℤ) : ℚ) ≤ 0 := by
  obtain rfl | rfl := hs
  · left
    intro k
    exact_mod_cast by omega
  · right
    intro k
    exact_mod_cast by omega

end Signed

def worth (d : Duration) : Component → ℚ
  | .years => d.months.toInt.tdiv 12
  | .months => d.months.toInt.tmod 12
  | .days => d.delta.seconds.tdiv 86400
  | .hours => (d.delta.seconds.tdiv 3600).tmod 24
  | .minutes => (d.delta.seconds.tdiv 60).tmod 60
  | .seconds => d.delta.nanos.tmod (60 * Delta.perSecond) / 1000000000

theorem exactWorth?_component (d : Duration) (c : Component) :
    (d.component c).exactWorth? = some (d.worth c) := by
  cases c with
  | seconds =>
    unfold component worth
    dsimp only
    rw [Item.exactWorth?_decimal, Decimal.value_normalized, Decimal.value]
    norm_num [Delta.perSecond, div_eq_mul_inv]
  | _ => exact Item.exactWorth?_ofInt _

structure Splits (d : Duration) (v : Component → ℚ) : Prop where
  whole : ∀ c, c ≠ .seconds → ∃ n : ℤ, v c = n
  months_total : 12 * v .years + v .months = d.months.toInt
  delta_total : ((v .days * 24 + v .hours) * 60 + v .minutes) * 60 + v .seconds =
    d.delta.nanos / 1000000000
  months_lt : |v .months| < 12
  hours_lt : |v .hours| < 24
  minutes_lt : |v .minutes| < 60
  seconds_lt : |v .seconds| < 60
  months_signs : (0 ≤ v .years ∧ 0 ≤ v .months) ∨ (v .years ≤ 0 ∧ v .months ≤ 0)
  delta_signs : (∀ c ∈ [Component.days, .hours, .minutes, .seconds], 0 ≤ v c) ∨
    ∀ c ∈ [Component.days, .hours, .minutes, .seconds], v c ≤ 0

theorem worth_months (d : Duration) : ∃ (s : ℤ) (m : ℕ), (s = 1 ∨ s = -1) ∧
    d.months.toInt = s * m ∧ d.worth .years = (s * (m / 12 : ℕ) : ℤ) ∧
    d.worth .months = (s * (m % 12 : ℕ) : ℤ) := by
  obtain ⟨s, m, hs, hm⟩ := exists_signed d.months.toInt
  have years : d.months.toInt.tdiv 12 = s * (m / 12 : ℕ) := by
    rw [hm]
    exact tdiv_signed hs m 12
  have months : d.months.toInt.tmod 12 = s * (m % 12 : ℕ) := by
    rw [hm]
    exact tmod_signed hs m 12
  exact ⟨s, m, hs, hm, congrArg Int.cast years, congrArg Int.cast months⟩

theorem worth_delta (d : Duration) : ∃ (s : ℤ) (n : ℕ), (s = 1 ∨ s = -1) ∧
    d.delta.nanos = s * n ∧
    d.worth .days = (s * (n / 1000000000 / 86400 : ℕ) : ℤ) ∧
    d.worth .hours = (s * (n / 1000000000 / 3600 % 24 : ℕ) : ℤ) ∧
    d.worth .minutes = (s * (n / 1000000000 / 60 % 60 : ℕ) : ℤ) ∧
    d.worth .seconds = (s * (n % 60000000000 : ℕ) : ℤ) / 1000000000 := by
  obtain ⟨s, n, hs, hn⟩ := exists_signed d.delta.nanos
  have whole : d.delta.seconds = s * (n / 1000000000 : ℕ) := by
    rw [Delta.seconds, hn]
    exact tdiv_signed hs n 1000000000
  have days : d.delta.seconds.tdiv 86400 = s * (n / 1000000000 / 86400 : ℕ) := by
    rw [whole]
    exact tdiv_signed hs _ 86400
  have hours : (d.delta.seconds.tdiv 3600).tmod 24 = s * (n / 1000000000 / 3600 % 24 : ℕ) := by
    rw [whole]
    exact (congrArg (Int.tmod · 24) (tdiv_signed hs _ 3600)).trans (tmod_signed hs _ 24)
  have minutes : (d.delta.seconds.tdiv 60).tmod 60 = s * (n / 1000000000 / 60 % 60 : ℕ) := by
    rw [whole]
    exact (congrArg (Int.tmod · 60) (tdiv_signed hs _ 60)).trans (tmod_signed hs _ 60)
  have seconds : d.delta.nanos.tmod (60 * Delta.perSecond) = s * (n % 60000000000 : ℕ) := by
    rw [hn]
    exact tmod_signed hs n 60000000000
  exact ⟨s, n, hs, hn, congrArg Int.cast days, congrArg Int.cast hours, congrArg Int.cast minutes,
    congrArg (fun k : ℤ => (k : ℚ) / 1000000000) seconds⟩

theorem splits_worth (d : Duration) : d.Splits d.worth := by
  obtain ⟨s, m, hs, hm, years, months⟩ := d.worth_months
  obtain ⟨t, n, ht, hn, days, hours, minutes, seconds⟩ := d.worth_delta
  constructor
  case whole =>
    intro c hc
    cases c with
    | seconds => exact absurd rfl hc
    | _ => exact ⟨_, rfl⟩
  case months_total =>
    have whole : 12 * (m / 12) + m % 12 = m := by omega
    have := congrArg (fun k : ℕ => (s : ℚ) * k) whole
    rw [years, months, hm]
    simp only [Nat.cast_add, Nat.cast_mul, Nat.cast_ofNat, Int.cast_mul, Int.cast_natCast]
      at this ⊢
    linear_combination this
  case delta_total =>
    have whole : (((n / 1000000000 / 86400 * 24 + n / 1000000000 / 3600 % 24) * 60 +
        n / 1000000000 / 60 % 60) * 60) * 1000000000 + n % 60000000000 = n := by omega
    have := congrArg (fun k : ℕ => (t : ℚ) * k) whole
    rw [days, hours, minutes, seconds, hn]
    simp only [Nat.cast_add, Nat.cast_mul, Nat.cast_ofNat, Int.cast_mul, Int.cast_natCast]
      at this ⊢
    linear_combination this / 1000000000
  case months_lt =>
    rw [months]
    exact abs_signed_lt hs (Nat.mod_lt _ (by decide))
  case hours_lt =>
    rw [hours]
    exact abs_signed_lt ht (Nat.mod_lt _ (by decide))
  case minutes_lt =>
    rw [minutes]
    exact abs_signed_lt ht (Nat.mod_lt _ (by decide))
  case seconds_lt =>
    have hlt := abs_signed_lt ht (Nat.mod_lt n (show 0 < 60000000000 by decide))
    rw [seconds, abs_div, div_lt_iff₀ (by norm_num)]
    exact hlt.trans_eq (by norm_num)
  case months_signs =>
    rw [years, months]
    exact (signed_signs hs).imp (fun h => ⟨h _, h _⟩) fun h => ⟨h _, h _⟩
  case delta_signs =>
    simp only [List.forall_mem_cons]
    rw [days, hours, minutes, seconds]
    exact (signed_signs ht).imp
      (fun h => ⟨h _, h _, h _, div_nonneg (h _) (by norm_num), fun _ hc => absurd hc List.not_mem_nil⟩)
      fun h => ⟨h _, h _, h _, div_nonpos_of_nonpos_of_nonneg (h _) (by norm_num),
        fun _ hc => absurd hc List.not_mem_nil⟩

def Component.Extracts (c : Component) (a : Item) (x : ℚ) : Prop :=
  ∃ f b, Registry.builtin.resolve c.functionName 1 = .ok (.eager f) ∧
    (∀ site, f.apply site [[a]] = .ok [b]) ∧ b.exactWorth? = some x

theorem resolve_component (c : Component) : Registry.builtin.resolve c.functionName 1 =
    .ok (.eager (Builtin.componentFunction c)) := by
  cases c <;> rfl

theorem componentFunction_apply {a : Item} {d : Duration} (h : a.duration? = some d)
    (c : Component) (site : CallSite) :
    (Builtin.componentFunction c).apply site [[a]] = .ok [d.component c] := by
  cases a <;> cases h <;> rfl

end Duration

open Duration

/-- The six functions that take a duration apart succeed on every duration, of whatever kind, and what
they make of it is worth the whole duration. -/
theorem duration_components_lose_nothing {a : Item} {d : Duration} (h : a.duration? = some d) :
    ∃ v : Component → ℚ, (∀ c : Component, c.Extracts a (v c)) ∧ d.Splits v :=
  ⟨d.worth, fun c => ⟨_, _, resolve_component c, componentFunction_apply h c,
    exactWorth?_component d c⟩, splits_worth d⟩

theorem components_of_negative_duration :
    (Item.duration ⟨-14, ⟨-93_784_500_000_001, by decide⟩⟩).duration? =
        some ⟨-14, ⟨-93_784_500_000_001, by decide⟩⟩ ∧
      ∃ v : Component → ℚ,
        (∀ c : Component, c.Extracts (Item.duration ⟨-14, ⟨-93_784_500_000_001, by decide⟩⟩) (v c)) ∧
        Splits ⟨-14, ⟨-93_784_500_000_001, by decide⟩⟩ v :=
  ⟨rfl, duration_components_lose_nothing rfl⟩

end PullQuery
