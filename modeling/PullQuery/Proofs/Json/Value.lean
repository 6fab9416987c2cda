import PullQuery.Proofs.Json.Literal
import PullQuery.Proofs.Number.Decimal
import PullQuery.Proofs.Number.Exact

namespace PullQuery

namespace Decimal

theorem value_places (negative : Bool) (ds : List Char) (s : Int) :
    value ⟨Binary.signed negative (Numeral.read ((places ds s).1 ++ (places ds s).2)),
        (places ds s).2.length⟩ =
      value ⟨Binary.signed negative (Numeral.read ds), s⟩ := by
  obtain ⟨hread, hlen⟩ := read_places ds s
  have hs : (((-s).toNat : ℕ) : ℤ) + -max s 0 = -s := by omega
  have hten : ((Nat.pow 10 (-s).toNat : ℕ) : ℚ) * (10 : ℚ) ^ (-max s 0) = (10 : ℚ) ^ (-s) := by
    rw [Nat.pow_eq, Nat.cast_pow, Nat.cast_ofNat, ← zpow_natCast,
      ← zpow_add₀ (by decide), hs]
  rw [hread, hlen, value, value, Binary.signed_mul, Int.cast_mul, Int.cast_natCast, mul_assoc, hten]

theorem places_of_zero_leads {n : Nat} {s : Int} (hn : n = 0 → 0 ≤ s)
    (h : (places (Numeral.write n) s).1.head? = some '0') :
    (places (Numeral.write n) s).1 = ['0'] := by
  obtain ⟨d, ds, hw, -⟩ := Numeral.write_cons n
  unfold places at h ⊢
  split at h
  case isTrue hs =>
    rw [if_pos hs]
    have hz : Numeral.write n = ['0'] := by
      refine Numeral.write_of_zero_leads ?_
      rw [hw] at h ⊢
      exact h
    have hn0 : n = 0 := by
      rw [← Numeral.read_write n, hz]
      rfl
    have hs0 : (-s).toNat = 0 := by
      have := hn hn0
      omega
    rw [hz, hs0]
    rfl
  case isFalse hs =>
    rw [if_neg hs]
    dsimp only at h ⊢
    by_cases hlt : s.toNat < (Numeral.write n).length
    · rw [if_pos hlt, List.splitAt_eq] at h
      have hz : Numeral.write n = ['0'] := by
        refine Numeral.write_of_zero_leads ?_
        rwa [List.head?_take, if_neg (by omega)] at h
      rw [hz, List.length_singleton] at hlt
      omega
    · rw [if_neg hlt]

end Decimal

namespace Json.Literal

def exponentValue (l : Literal) : ℤ :=
  l.exponent.elim 0 fun p => Binary.signed p.1 (Numeral.read p.2)

def value (l : Literal) : ℚ := l.toDecimal.value * (10 : ℚ) ^ l.exponentValue

theorem value_of_plain {l : Literal} (h : l.exponent = none) : l.value = l.toDecimal.value := by
  rw [value, exponentValue, h]
  exact mul_one _

theorem toDecimal_of_whole {l : Literal} (h : l.fraction = none) :
    l.toDecimal = .ofInt (Binary.signed l.negative (Numeral.read l.whole)) := by
  rw [toDecimal, h, Option.getD_none, List.append_nil]
  rfl

theorem ofInt_text (n : ℤ) : (ofInt n).text = Numeral.signed n := by
  have htext : (ofInt n).text = (if n < 0 then ['-'] else []) ++ Numeral.write n.natAbs := by
    rw [text_eq, ofInt]
    simp only [decide_eq_true_eq, fractionText, exponentText, Option.elim_none, List.append_nil]
  rw [htext]
  cases n with
  | ofNat n =>
    rw [if_neg (show ¬Int.ofNat n < 0 from Int.not_lt.2 (Int.natCast_nonneg n))]
    rfl
  | negSucc n =>
    rw [if_pos (Int.negSucc_lt_zero n)]
    rfl

theorem ofInt_value (n : ℤ) : (ofInt n).value = n := by
  rw [value_of_plain rfl, toDecimal_of_whole rfl, Decimal.value_ofInt, ofInt, Numeral.read_write,
    Binary.signed_natAbs]

def ofDecimal (d : Decimal) : Literal :=
  let ps := Decimal.places (Numeral.write d.normalized.unscaled.natAbs) d.normalized.scale
  ⟨d.normalized.unscaled < 0, ps.1, if ps.2 = [] then none else some ps.2, none⟩

variable (d : Decimal)

theorem ofDecimal_text : (ofDecimal d).text = d.plain := by
  have hpart (part : List Char) : fractionText (if part = [] then none else some part) =
      if part = [] then [] else '.' :: part := by
    by_cases h : part = []
    · rw [if_pos h, if_pos h]
      rfl
    · rw [if_neg h, if_neg h]
      rfl
  rw [text_eq, Decimal.plain, Decimal.positional_eq, Decimal.pointed_eq, ofDecimal]
  dsimp only
  rw [hpart, exponentText, Option.elim_none, List.append_nil, Decimal.withSign]
  by_cases h : d.normalized.unscaled < 0
  · rw [if_pos h, if_pos (decide_eq_true h)]
    rfl
  · rw [if_neg h, if_neg (by rwa [decide_eq_true_eq])]
    rfl

theorem ofDecimal_value : (ofDecimal d).value = d.value := by
  have hpart : (ofDecimal d).fraction.getD [] =
      (Decimal.places (Numeral.write d.normalized.unscaled.natAbs) d.normalized.scale).2 := by
    unfold ofDecimal
    dsimp only
    split
    case isTrue h => exact h.symm
    case isFalse => rfl
  rw [value_of_plain rfl, toDecimal, hpart]
  refine (Decimal.value_places _ _ _).trans ?_
  have hn : Binary.signed (ofDecimal d).negative d.normalized.unscaled.natAbs =
      d.normalized.unscaled := Binary.signed_natAbs _
  rw [Numeral.read_write, hn]
  exact d.value_normalized

theorem normalized_scale_of_zero (h : d.normalized.unscaled.natAbs = 0) : d.normalized.scale = 0 := by
  have hz : d.isZero = true := by
    rw [← Decimal.value_eq_zero_iff, ← Decimal.value_normalized, Decimal.value_eq_zero_iff,
      Decimal.isZero, beq_iff_eq]
    exact Int.natAbs_eq_zero.1 h
  rw [Decimal.normalized, if_pos hz]

theorem ofDecimal_spelled : (ofDecimal d).Spelled := by
  have hdigits := Decimal.isDigit_of_mem_places
    (fun c => Numeral.isDigit_of_mem_write (n := d.normalized.unscaled.natAbs) (c := c))
    d.normalized.scale
  refine ⟨⟨Decimal.places_ne_nil (Numeral.write_ne_nil _) _, hdigits.1⟩, fun h => ?_, fun ds h => ?_,
    fun _ h => nomatch h⟩
  · refine Decimal.places_of_zero_leads (fun hn => ?_) h
    rw [normalized_scale_of_zero d hn]
  · obtain ⟨hne, hds⟩ := Option.ite_none_left_eq_some.1 h
    cases hds
    exact ⟨hne, hdigits.2⟩

end Json.Literal

end PullQuery
