import PullQuery.Proofs.Json.Value
import PullQuery.Proofs.Number.Shortest

namespace PullQuery

namespace Numeral

theorem write_length_bounds {n : ℕ} (hn : 0 < n) :
    (10 : ℚ) ^ ((write n).length - 1 : ℤ) ≤ n ∧ (n : ℚ) < 10 ^ ((write n).length : ℤ) := by
  have hpos : 0 < (write n).length := List.length_pos_iff.2 (write_ne_nil n)
  have hlen (k : ℕ) (hk : 0 < k) : (write n).length ≤ k ↔ n < 10 ^ k :=
    Nat.length_toDigits_le_iff (by decide) hk
  constructor
  · obtain ⟨k, hk⟩ : ∃ k, (write n).length = k + 1 := ⟨(write n).length - 1, by omega⟩
    rw [hk, Nat.cast_succ, add_sub_cancel_right, zpow_natCast]
    have hle : 10 ^ k ≤ n := by
      cases k with
      | zero => exact hn
      | succ k => exact not_lt.1 (mt (hlen _ k.succ_pos).2 (by omega))
    exact_mod_cast hle
  · rw [zpow_natCast]
    exact_mod_cast (hlen _ hpos).1 le_rfl

end Numeral

namespace Decimal

def leading (d : Decimal) : ℤ := (Numeral.write d.unscaled.natAbs).length - 1 - d.scale

variable {d : Decimal}

theorem unscaled_pos (h : 0 < d.value) : 0 < d.unscaled := by
  have := pos_of_mul_pos_left h (Shortest.ten_zpow_pos _).le
  exact_mod_cast this

theorem le_leading_iff (h : 0 < d.value) (c : ℤ) : c ≤ d.leading ↔ (10 : ℚ) ^ c ≤ d.value := by
  have hpos := unscaled_pos h
  have hcast : (d.unscaled : ℚ) = (d.unscaled.natAbs : ℕ) := by
    rw [← Int.cast_natCast, Int.natAbs_of_nonneg hpos.le]
  obtain ⟨hlow, hhigh⟩ := Numeral.write_length_bounds (Int.natAbs_pos.2 hpos.ne')
  have hten := Shortest.ten_zpow_pos (-d.scale)
  rw [← hcast] at hlow hhigh
  have hlow' : (10 : ℚ) ^ d.leading ≤ d.value := by
    rw [leading, sub_eq_add_neg _ d.scale, Shortest.ten_zpow_add, value]
    exact mul_le_mul_of_nonneg_right hlow hten.le
  have hhigh' : d.value < (10 : ℚ) ^ (d.leading + 1) := by
    have hone : d.leading + 1 = (Numeral.write d.unscaled.natAbs).length + -d.scale := by
      rw [leading]
      ring
    rw [hone, Shortest.ten_zpow_add, value]
    exact mul_lt_mul_of_pos_right hhigh hten
  constructor
  · intro hc
    exact (Shortest.ten_zpow_le_iff.2 hc).trans hlow'
  · intro hc
    exact Int.lt_add_one_iff.1 (Shortest.ten_zpow_lt_iff.1 (hc.trans_lt hhigh'))

theorem value_append_zero (negative : Bool) (ds : List Char) :
    value ⟨Binary.signed negative (Numeral.read (ds ++ ['0'])), 1⟩ =
      value ⟨Binary.signed negative (Numeral.read ds), 0⟩ := by
  have hread : Numeral.read (ds ++ ['0']) = Numeral.read ds * 10 := by
    rw [Numeral.read_append]
    rfl
  rw [hread, Binary.signed_mul, value, value, Int.cast_mul, mul_assoc]
  norm_num

end Decimal

namespace Json.Literal

def Plain (q : ℚ) : Prop := q = 0 ∨ (10 : ℚ) ^ (-5 : ℤ) ≤ |q| ∧ |q| < 10 ^ (16 : ℤ)

variable {m : ℕ} {e : ℤ} {negative : Bool}

def shortest (m : ℕ) (e : ℤ) : Decimal := Shortest.digits .double .even m e

theorem ofFinite_of_not_plain (hm : m ≠ 0)
    (h : ¬(-5 ≤ (shortest m e).leading ∧ (shortest m e).leading ≤ 15)) :
    (ofFinite negative m e).exponent.isSome = true := by
  unfold ofFinite
  rw [if_neg hm]
  exact (congrArg (fun l : Literal => l.exponent.isSome) (if_neg h)).trans rfl

def positional (negative : Bool) (whole part : List Char) : Literal :=
  ⟨negative, whole, some (if part = [] then ['0'] else part), none⟩

theorem positional_value (negative : Bool) (whole part : List Char) :
    (positional negative whole part).toDecimal.value =
      Decimal.value ⟨Binary.signed negative (Numeral.read (whole ++ part)), part.length⟩ := by
  rw [toDecimal, positional, Option.getD_some]
  by_cases h : part = []
  · rw [if_pos h, h, List.append_nil]
    exact Decimal.value_append_zero negative whole
  · rw [if_neg h]

theorem ofFinite_of_plain (hm : m ≠ 0)
    (h : -5 ≤ (shortest m e).leading ∧ (shortest m e).leading ≤ 15) :
    ofFinite negative m e = positional negative
      (Decimal.places (Numeral.write (shortest m e).unscaled.natAbs) (shortest m e).scale).1
      (Decimal.places (Numeral.write (shortest m e).unscaled.natAbs) (shortest m e).scale).2 := by
  unfold ofFinite
  rw [if_neg hm]
  refine (if_pos h).trans ?_
  unfold shortest
  generalize Decimal.places _ _ = ps
  obtain ⟨whole, _ | ⟨c, part⟩⟩ := ps
  · rfl
  · rfl

theorem plain_ratio_iff (hm : 0 < m) : Plain (Binary.ratio negative m e) ↔
    (10 : ℚ) ^ (-5 : ℤ) ≤ m * 2 ^ e ∧ ¬(10 : ℚ) ^ (16 : ℤ) ≤ m * 2 ^ e := by
  have hpos : 0 < (m : ℚ) * 2 ^ e := mul_pos (by exact_mod_cast hm) (Binary.two_zpow_pos e)
  have habs : |Binary.ratio negative m e| = m * 2 ^ e := by
    rw [Binary.ratio_eq, Binary.abs_sign_mul, abs_of_pos hpos]
  have hne : Binary.ratio negative m e ≠ 0 := by
    rw [← abs_pos, habs]
    exact hpos
  rw [Plain, habs, or_iff_right hne, not_le]

section Finite

variable (hm : 0 < m) (hlt : m < 2 ^ 53) (he : -1074 ≤ e) (hu : e ≤ 971)
  (hlead : e = -1074 ∨ 2 ^ 52 ≤ m)

include hm hlt he hu

theorem shortest_pos : 0 < (shortest m e).value :=
  (Shortest.ten_zpow_pos _).trans_le (Shortest.digits_spec .even hm hlt he hu).2

include hlead

theorem leading_iff : -5 ≤ (shortest m e).leading ∧ (shortest m e).leading ≤ 15 ↔
    Plain (Binary.ratio negative m e) := by
  have hpos := shortest_pos hm hlt he hu
  have hgreat : (shortest m e).leading ≤ 15 ↔ ¬16 ≤ (shortest m e).leading := by omega
  rw [plain_ratio_iff hm, hgreat, Decimal.le_leading_iff hpos, Decimal.le_leading_iff hpos,
    ← Shortest.digits_reach_small_iff .even hm hlt he hu hlead,
    ← Shortest.digits_reach_great_iff .even hm hlt he hu hlead, shortest]

theorem ofFinite_rounds (h : Plain (Binary.ratio negative m e)) :
    Binary.Rounds (ofFinite negative m e).toDecimal.value (Binary.ratio negative m e) := by
  have hpos := Decimal.unscaled_pos (shortest_pos hm hlt he hu)
  have hvalue : Decimal.value ⟨Binary.signed negative (shortest m e).unscaled.natAbs,
      (shortest m e).scale⟩ = Binary.sign negative * (shortest m e).value := by
    rw [Decimal.value, Binary.cast_signed, ← Int.cast_natCast, Int.natAbs_of_nonneg hpos.le, mul_assoc,
      Decimal.value]
  rw [ofFinite_of_plain hm.ne' ((leading_iff hm hlt he hu hlead).2 h), positional_value,
    Decimal.value_places, Numeral.read_write, hvalue, Binary.ratio_eq]
  exact (Shortest.digits_rounds .even hm hlt he hu hlead).sign_mul negative

end Finite

theorem ofFinite_spec (hc : Binary.Canonical (.finite negative m e)) :
    ((ofFinite negative m e).exponent.isSome = false ↔ Plain (Binary.ratio negative m e)) ∧
      (Plain (Binary.ratio negative m e) →
        Binary.Rounds (ofFinite negative m e).toDecimal.value (Binary.ratio negative m e)) := by
  obtain ⟨hlt, he, hu, hlead⟩ := hc
  obtain rfl | hm := Nat.eq_zero_or_pos m
  · have hzero : Binary.ratio negative 0 e = 0 := by
      rw [Binary.ratio_eq, Nat.cast_zero, zero_mul, mul_zero]
    have hvalue : (ofFinite negative 0 e).toDecimal.value = 0 := by
      cases negative <;> exact (Decimal.value_eq_zero_iff _).2 rfl
    rw [hzero, hvalue]
    exact ⟨iff_of_true rfl (.inl rfl), fun _ => Binary.rounds_zero⟩
  · refine ⟨?_, ofFinite_rounds hm hlt he hu hlead⟩
    rw [← leading_iff hm hlt he hu hlead]
    by_cases h : -5 ≤ (shortest m e).leading ∧ (shortest m e).leading ≤ 15
    · refine iff_of_true ?_ h
      rw [ofFinite_of_plain hm.ne' h]
      rfl
    · refine iff_of_false ?_ h
      rw [ofFinite_of_not_plain hm.ne' h]
      decide

end Json.Literal

end PullQuery
