import PullQuery.Proofs.Number.Rounding

namespace PullQuery

namespace Binary

open Float.Model Float.Model.UnpackedFloat

section Parts

variable (b : BitVec Float.Model.Format.binary64.numBits)

theorem toNat_unpackMantissa : (unpackMantissa b).toNat = b.toNat % 2 ^ 52 := by
  unfold unpackMantissa
  rw [BitVec.toNat_cast, BitVec.extractLsb_toNat]
  exact congrArg (· % 2 ^ 52) (Nat.shiftRight_zero ..)

theorem toNat_unpackExponent : (unpackExponent b).toNat = b.toNat / 2 ^ 52 % 2 ^ 11 := by
  unfold unpackExponent
  rw [BitVec.toNat_cast, BitVec.extractLsb_toNat]
  exact congrArg (· % 2 ^ 11) (Nat.shiftRight_eq_div_pow ..)

theorem toNat_unpackSign : (unpackSign b).toNat = b.toNat / 2 ^ 63 % 2 := by
  unfold unpackSign
  rw [BitVec.toNat_cast, BitVec.extractLsb_toNat]
  exact congrArg (· % 2 ^ 1) (Nat.shiftRight_eq_div_pow ..)

def isNegative : Sign → Bool
  | .negative => true
  | .positive => false

def ofUnpacked : UnpackedFloat → Binary
  | .notANumber => .nan
  | .infinity s => .infinite (isNegative s)
  | .zero s => .finite (isNegative s) 0 (-1074)
  | .finite s m e _ => .finite (isNegative s) m e

theorem isNegative_ofBitVec (s : BitVec 1) : isNegative (Sign.ofBitVec s) = (s.toNat == 1) := by
  obtain rfl | rfl : s = 0#1 ∨ s = 1#1 := by
    rw [← BitVec.toNat_inj, ← BitVec.toNat_inj]
    have := s.isLt
    change s.toNat = 0 ∨ s.toNat = 1
    omega
  · rfl
  · rfl

theorem toNat_append_one (m : BitVec 52) : (1#1 ++ m).toNat = 2 ^ 52 + m.toNat := by
  rw [BitVec.toNat_append, ← Nat.shiftLeft_add_eq_or_of_lt m.isLt]
  rfl

theorem decode_eq_ofUnpacked :
    Format.double.decode b.toNat = ofUnpacked (UnpackedFloat.unpack .binary64 b) := by
  have hs : isNegative (Sign.ofBitVec (unpackSign b)) = (b.toNat / 2 ^ 63 % 2 == 1) := by
    rw [isNegative_ofBitVec, toNat_unpackSign]
  have special : unpackExponent b = -1#_ ↔ b.toNat / 2 ^ 52 % 2 ^ 11 = 2047 := by
    rw [← BitVec.toNat_inj, toNat_unpackExponent]
    exact Iff.rfl
  have least : unpackExponent b = 0#_ ↔ b.toNat / 2 ^ 52 % 2 ^ 11 = 0 := by
    rw [← BitVec.toNat_inj, toNat_unpackExponent]
    exact Iff.rfl
  have empty : unpackMantissa b = 0#_ ↔ b.toNat % 2 ^ 52 = 0 := by
    rw [← BitVec.toNat_inj, toNat_unpackMantissa]
    exact Iff.rfl
  unfold Float.Model.UnpackedFloat.unpack Format.decode
  dsimp only
  by_cases hx : b.toNat / 2 ^ 52 % 2 ^ 11 = 2047
  · rw [if_pos (special.2 hx)]
    refine (if_pos hx).trans ?_
    by_cases hz : b.toNat % 2 ^ 52 = 0
    · rw [if_pos (empty.2 hz)]
      refine (if_pos hz).trans ?_
      exact congrArg Binary.infinite hs.symm
    · rw [if_neg (mt empty.1 hz)]
      exact if_neg hz
  · rw [if_neg (mt special.1 hx)]
    refine (if_neg hx).trans ?_
    by_cases hl : b.toNat / 2 ^ 52 % 2 ^ 11 = 0
    · rw [if_pos (least.2 hl)]
      refine (if_pos hl).trans ?_
      by_cases hz : b.toNat % 2 ^ 52 = 0
      · rw [dif_pos (empty.2 hz)]
        change Binary.finite (b.toNat / 2 ^ 63 % 2 == 1) (b.toNat % 2 ^ 52) (-1074) =
          .finite (isNegative (Sign.ofBitVec (unpackSign b))) 0 (-1074)
        rw [hz, hs]
      · rw [dif_neg (mt empty.1 hz)]
        change Binary.finite (b.toNat / 2 ^ 63 % 2 == 1) (b.toNat % 2 ^ 52) (-1074) =
          .finite (isNegative (Sign.ofBitVec (unpackSign b))) (unpackMantissa b).toNat
            (((unpackExponent b).toNat : ℤ) - 1075 + 1)
        rw [toNat_unpackMantissa, toNat_unpackExponent, hs, hl]
        rfl
    · rw [if_neg (mt least.1 hl)]
      refine (if_neg hl).trans ?_
      change Binary.finite (b.toNat / 2 ^ 63 % 2 == 1) (2 ^ 52 + b.toNat % 2 ^ 52)
          (-1074 + (b.toNat / 2 ^ 52 % 2 ^ 11 - 1 : ℕ)) =
        .finite (isNegative (Sign.ofBitVec (unpackSign b))) (1#1 ++ unpackMantissa b).toNat
          (((unpackExponent b).toNat : ℤ) - 1075)
      have hexp : (-1074 + (b.toNat / 2 ^ 52 % 2 ^ 11 - 1 : ℕ) : ℤ) =
          (b.toNat / 2 ^ 52 % 2 ^ 11 : ℕ) - 1075 := by omega
      rw [toNat_append_one, toNat_unpackMantissa, toNat_unpackExponent, hs, hexp]

end Parts

section Packing

theorem decode_double (bits : ℕ) : Format.double.decode bits =
    if bits / 2 ^ 52 % 2 ^ 11 = 2047 then
      if bits % 2 ^ 52 = 0 then .infinite (bits / 2 ^ 63 % 2 == 1) else .nan
    else if bits / 2 ^ 52 % 2 ^ 11 = 0 then
      .finite (bits / 2 ^ 63 % 2 == 1) (bits % 2 ^ 52) (-1074)
    else .finite (bits / 2 ^ 63 % 2 == 1) (2 ^ 52 + bits % 2 ^ 52)
      (-1074 + (bits / 2 ^ 52 % 2 ^ 11 - 1 : ℕ)) :=
  rfl

theorem decode_fields (negative : Bool) {field fraction : ℕ} (hf : field < 2047)
    (hr : fraction < 2 ^ 52) :
    Format.double.decode (negative.toNat * 2 ^ 63 + field * 2 ^ 52 + fraction) =
      if field = 0 then .finite negative fraction (-1074)
      else .finite negative (2 ^ 52 + fraction) (-1074 + (field - 1 : ℕ)) := by
  have hs : ((negative.toNat * 2 ^ 63 + field * 2 ^ 52 + fraction) / 2 ^ 63 % 2 == 1) =
      negative := by
    cases negative
    · rw [beq_eq_false_iff_ne, Bool.toNat_false]
      omega
    · rw [beq_iff_eq, Bool.toNat_true]
      omega
  have he : (negative.toNat * 2 ^ 63 + field * 2 ^ 52 + fraction) / 2 ^ 52 % 2 ^ 11 = field := by
    omega
  have hm : (negative.toNat * 2 ^ 63 + field * 2 ^ 52 + fraction) % 2 ^ 52 = fraction := by
    omega
  rw [decode_double, hs, he, hm, if_neg hf.ne]

def exponentField (m : ℕ) (e : ℤ) : ℕ := if m < 2 ^ 52 then 0 else (e + 1074).toNat + 1

variable {m : ℕ} {e : ℤ}

theorem encode_finite (negative : Bool) : Format.double.encode (.finite negative m e) =
    negative.toNat * 2 ^ 63 + exponentField m e * 2 ^ 52 + m % 2 ^ 52 := by
  unfold exponentField
  rw [← sub_neg_eq_add e 1074]
  rfl

theorem decode_encode {negative : Bool} (h : Canonical (.finite negative m e)) :
    Format.double.decode (Format.double.encode (.finite negative m e)) = .finite negative m e := by
  obtain ⟨hm, hl, hu, hlead⟩ := h
  have hfield : exponentField m e < 2047 := by
    unfold exponentField
    split <;> omega
  rw [encode_finite, decode_fields negative hfield (Nat.mod_lt _ (by decide))]
  unfold exponentField
  by_cases hs : m < 2 ^ 52
  · rw [if_pos hs, if_pos rfl, Nat.mod_eq_of_lt hs]
    obtain rfl : e = -1074 := hlead.resolve_right (by omega)
    rfl
  · rw [if_neg hs, if_neg (Nat.succ_ne_zero _)]
    have hdigits : 2 ^ 52 + m % 2 ^ 52 = m := by omega
    have hexp : -1074 + (((e + 1074).toNat + 1 - 1 : ℕ) : ℤ) = e := by omega
    rw [hdigits, hexp]

theorem toNat_packComponents (s : Sign) (field : BitVec 11) (fraction : BitVec 52) :
    (packComponents .binary64 s field fraction).toNat =
      (isNegative s).toNat * 2 ^ 63 + field.toNat * 2 ^ 52 + fraction.toNat := by
  have hs : s.toBitVec.toNat = (isNegative s).toNat := by cases s <;> rfl
  unfold packComponents
  rw [BitVec.toNat_append, ← Nat.shiftLeft_add_eq_or_of_lt fraction.isLt, BitVec.toNat_append,
    ← Nat.shiftLeft_add_eq_or_of_lt field.isLt, hs, Nat.shiftLeft_eq, Nat.shiftLeft_eq]
  change ((isNegative s).toNat * 2 ^ 11 + field.toNat) * 2 ^ 52 + fraction.toNat = _
  omega

theorem pack_finite (s : Sign) (hm : 0 < m) :
    UnpackedFloat.pack .binary64 (.finite s m e hm) =
      if 2048 ≤ (e + 1023 + 52).toNat + 1 then packedInfinity .binary64 s
      else if m.log2 + 1 = 53 then
        packComponents .binary64 s (BitVec.ofNat 11 (e + 1023 + 52).toNat) (BitVec.ofNat 52 m)
      else packComponents .binary64 s 0#11 (BitVec.ofNat 52 m) :=
  rfl

theorem unpack_pack_finite {s : Sign} {hm : 0 < m} (hlt : m < 2 ^ 53) (hl : -1074 ≤ e)
    (hlead : e = -1074 ∨ 2 ^ 52 ≤ m) :
    ofUnpacked (UnpackedFloat.unpack .binary64
        (UnpackedFloat.pack .binary64 (.finite s m e hm))) =
      if 971 < e then .infinite (isNegative s) else .finite (isNegative s) m e := by
  rw [← decode_eq_ofUnpacked, pack_finite]
  by_cases hu : 971 < e
  · rw [if_pos hu, if_pos (by omega)]
    cases s <;> rfl
  rw [if_neg hu, if_neg (by omega),
    ← decode_encode ⟨hlt, hl, not_lt.1 hu, hlead⟩]
  congr 1
  have hfull : m.log2 + 1 = 53 ↔ ¬m < 2 ^ 52 := by
    have hlow : 52 ≤ m.log2 ↔ 2 ^ 52 ≤ m := Nat.le_log2 hm.ne'
    have hhigh : m.log2 < 53 ↔ m < 2 ^ 53 := Nat.log2_lt hm.ne'
    omega
  rw [encode_finite]
  unfold exponentField
  by_cases hs : m < 2 ^ 52
  · rw [if_pos hs, if_neg (mt hfull.1 (not_not_intro hs)), toNat_packComponents, BitVec.toNat_ofNat,
      BitVec.toNat_ofNat, Nat.zero_mod]
  · have hfield : (e + 1023 + 52).toNat % 2 ^ 11 = (e + 1074).toNat + 1 := by omega
    rw [if_neg hs, if_pos (hfull.2 hs), toNat_packComponents, BitVec.toNat_ofNat,
      BitVec.toNat_ofNat, hfield]

end Packing

section Parts

theorem ofDouble_eq (x : Float) : ofDouble x = ofUnpacked x.toModel.unpack :=
  decode_eq_ofUnpacked _

theorem canonical_ofDouble (x : Float) : Canonical (ofDouble x) := by
  unfold ofDouble
  rw [decode_double]
  have hfraction : x.toBits.toNat % 2 ^ 52 < 2 ^ 52 := Nat.mod_lt _ (by decide)
  have hfield : x.toBits.toNat / 2 ^ 52 % 2 ^ 11 < 2 ^ 11 := Nat.mod_lt _ (by decide)
  by_cases hs : x.toBits.toNat / 2 ^ 52 % 2 ^ 11 = 2047
  · rw [if_pos hs]
    by_cases hz : x.toBits.toNat % 2 ^ 52 = 0
    · rw [if_pos hz]
      trivial
    · rw [if_neg hz]
      trivial
  · rw [if_neg hs]
    by_cases hl : x.toBits.toNat / 2 ^ 52 % 2 ^ 11 = 0
    · rw [if_pos hl]
      exact ⟨by omega, le_rfl, by decide, .inl rfl⟩
    · rw [if_neg hl]
      refine ⟨?_, ?_, ?_, .inr ?_⟩ <;> omega

theorem ofUnpacked_pack {u : UnpackedFloat} (hf : (ofUnpacked u).isFinite = true)
    (hc : Canonical (ofUnpacked u)) :
    ofUnpacked (UnpackedFloat.unpack .binary64 (UnpackedFloat.pack .binary64 u)) =
      ofUnpacked u := by
  cases u with
  | notANumber => cases hf
  | infinity s => cases hf
  | zero s => cases s <;> rfl
  | finite s m e hm =>
    obtain ⟨hlt, hl, hu, hlead⟩ := hc
    rw [unpack_pack_finite hlt hl hlead, if_neg (not_lt.2 hu)]
    rfl

theorem encode_lt {b : Binary} (hf : b.isFinite = true) (hc : Canonical b) :
    Format.double.encode b < 2 ^ 64 := by
  cases b with
  | finite negative m e =>
    obtain ⟨-, hl, hu, -⟩ := hc
    have hs : negative.toNat ≤ 1 := negative.toNat_le
    rw [encode_finite]
    unfold exponentField
    split <;> omega
  | _ => cases hf

theorem ofDouble_toDouble {b : Binary} (hf : b.isFinite = true) (hc : Canonical b) :
    ofDouble b.toDouble = b := by
  have hbits : ofUnpacked (UnpackedFloat.unpack .binary64
      (UInt64.ofNat (Format.double.encode b)).toBitVec) = b := by
    rw [← decode_eq_ofUnpacked]
    change Format.double.decode (Format.double.encode b % 2 ^ 64) = b
    rw [Nat.mod_eq_of_lt (encode_lt hf hc)]
    cases b with
    | finite negative m e => exact decode_encode hc
    | _ => cases hf
  rw [ofDouble_eq]
  refine (ofUnpacked_pack ?_ ?_).trans hbits
  · rw [hbits]
    exact hf
  · rw [hbits]
    exact hc

end Parts

section Residue

def half (roundBit : Bool) : ℚ := if roundBit then 1 / 2 else 0

def Represents (m : ExtendedMantissa) (x : ℚ) : Prop :=
  ∃ f : ℚ, 0 ≤ f ∧ f < 1 / 2 ∧ x = m.mantissa + half m.roundBit + f ∧ (m.stickyBit = false ↔ f = 0)

variable {em : ExtendedMantissa} {x : ℚ}

theorem half_bounds (b : Bool) : 0 ≤ half b ∧ half b ≤ 1 / 2 := by
  cases b
  · exact ⟨le_rfl, by norm_num [half]⟩
  · exact ⟨by norm_num [half], le_rfl⟩

theorem represents_exact (m : ℕ) :
    Represents (ExtendedMantissa.ofMantissaAndAccuracy m .exact) m :=
  ⟨0, le_rfl, by norm_num, by norm_num [ExtendedMantissa.ofMantissaAndAccuracy, half],
    iff_of_true rfl rfl⟩

theorem represents_fraction (a : ℕ) {b : ℕ} (hb : 0 < b) :
    Represents (ExtendedMantissa.ofMantissaAndAccuracy (a / b) (accuracyOfFraction (a % b) b))
      (a / b) := by
  have hbq : (0 : ℚ) < b := by exact_mod_cast hb
  have hdiv : (a : ℚ) / b = (a / b : ℕ) + (a % b : ℕ) / b := by
    rw [eq_comm, ← mul_div_cancel_right₀ ((a / b : ℕ) : ℚ) hbq.ne', ← add_div]
    congr 1
    exact_mod_cast Nat.div_add_mod' a b
  have hmod : ((a % b : ℕ) : ℚ) / b < 1 := by
    rw [div_lt_one hbq]
    exact_mod_cast Nat.mod_lt a hb
  have hnonneg : (0 : ℚ) ≤ (a % b : ℕ) / b := div_nonneg (Nat.cast_nonneg _) hbq.le
  unfold accuracyOfFraction
  by_cases hz : a % b = 0
  · rw [if_pos hz, hdiv, hz, Nat.cast_zero, zero_div, add_zero]
    exact represents_exact _
  rw [if_neg hz, hdiv]
  have hpos : (0 : ℚ) < (a % b : ℕ) / b := div_pos (by exact_mod_cast Nat.pos_of_ne_zero hz) hbq
  have htwice : 2 * ((a % b : ℕ) / b : ℚ) = (2 * (a % b) : ℕ) / b := by
    rw [Nat.cast_mul, Nat.cast_ofNat, mul_div_assoc]
  cases hc : compare (2 * (a % b)) b with
  | lt =>
    have hlt : (2 * (a % b) : ℕ) / (b : ℚ) < 1 := by
      rw [div_lt_one hbq]
      exact_mod_cast Nat.compare_eq_lt.1 hc
    refine ⟨(a % b : ℕ) / b, hnonneg, by linarith, ?_, iff_of_false Bool.false_ne_true.symm hpos.ne'⟩
    exact congrArg (· + ((a % b : ℕ) / b : ℚ)) (add_zero ((a / b : ℕ) : ℚ)).symm
  | eq =>
    have heq : (2 * (a % b) : ℕ) / (b : ℚ) = 1 := by
      rw [Nat.compare_eq_eq.1 hc, div_self hbq.ne']
    refine ⟨0, le_rfl, by norm_num, ?_, iff_of_true rfl rfl⟩
    rw [add_zero]
    exact congrArg (((a / b : ℕ) : ℚ) + ·) (by linarith : ((a % b : ℕ) / b : ℚ) = 1 / 2)
  | gt =>
    have hgt : 1 < (2 * (a % b) : ℕ) / (b : ℚ) := by
      rw [one_lt_div hbq]
      exact_mod_cast Nat.compare_eq_gt.1 hc
    refine ⟨(a % b : ℕ) / b - 1 / 2, by linarith, by linarith, ?_,
      iff_of_false Bool.false_ne_true.symm (by linarith)⟩
    change _ = ((a / b : ℕ) : ℚ) + 1 / 2 + _
    ring

theorem Represents.shiftRightOne (h : Represents em x) : Represents em.shiftRightOne (x / 2) := by
  obtain ⟨f, hf, hhalf, rfl, hs⟩ := h
  obtain ⟨hr, hr'⟩ := half_bounds em.roundBit
  refine ⟨half em.roundBit / 2 + f / 2, by linarith, by linarith, ?_, ?_⟩
  · have hm : (em.mantissa : ℚ) / 2 = (em.mantissa / 2 : ℕ) + half (em.mantissa % 2 != 0) := by
      have hdiv : (em.mantissa : ℚ) = (em.mantissa / 2 : ℕ) * 2 + (em.mantissa % 2 : ℕ) := by
        exact_mod_cast (Nat.div_add_mod' em.mantissa 2).symm
      have hhalf : half (em.mantissa % 2 != 0) = (em.mantissa % 2 : ℕ) / 2 := by
        obtain h | h := Nat.mod_two_eq_zero_or_one em.mantissa
        · rw [h]
          norm_num [half]
        · rw [h]
          norm_num [half]
      rw [hhalf]
      linarith
    change _ = ((em.mantissa / 2 : ℕ) : ℚ) + half (em.mantissa % 2 != 0) + _
    rw [← hm]
    ring
  · change (em.roundBit || em.stickyBit) = false ↔ _
    rw [Bool.or_eq_false_iff, hs]
    constructor
    · rintro ⟨hr, hf⟩
      rw [hr, hf]
      norm_num [half]
    · intro h
      have hz : half em.roundBit = 0 := by linarith
      refine ⟨?_, by linarith⟩
      cases hb : em.roundBit with
      | false => rfl
      | true =>
        rw [hb] at hz
        norm_num [half] at hz

theorem Represents.shiftRight (h : Represents em x) (n : ℕ) : Represents (em >>> n) (x / 2 ^ n) := by
  change Represents (n.repeat ExtendedMantissa.shiftRightOne em) _
  induction n with
  | zero =>
    rw [pow_zero, div_one]
    exact h
  | succ n ih =>
    rw [pow_succ, ← div_div]
    exact ih.shiftRightOne

theorem Represents.round (h : Represents em x) : NearestEven x em.roundedMantissa := by
  obtain ⟨f, hf, hhalf, rfl, hs⟩ := h
  obtain ⟨m, round, sticky⟩ := em
  have hup : ((m + 1 : ℕ) : ℚ) = m + 1 := Nat.cast_succ m
  cases round with
  | false =>
    have hr : half false = 0 := rfl
    have hm : (ExtendedMantissa.mk m false sticky).roundedMantissa = m := by cases sticky <;> rfl
    rw [hm, hr]
    refine nearestEven_of_lt (abs_lt.2 ?_)
    constructor <;> linarith
  | true =>
    have hr : half true = 1 / 2 := rfl
    cases sticky with
    | true =>
      have hpos : 0 < f := lt_of_le_of_ne hf fun h => Bool.false_ne_true (hs.2 h.symm).symm
      have hm : (ExtendedMantissa.mk m true true).roundedMantissa = m + 1 := rfl
      rw [hm, hr]
      refine nearestEven_of_lt (abs_lt.2 ?_)
      rw [hup]
      constructor <;> linarith
    | false =>
      -- A half goes to the even neighbour, and both are as near.
      have hz : f = 0 := hs.1 rfl
      have hm : (ExtendedMantissa.mk m true false).roundedMantissa = m + m % 2 := rfl
      rw [hm, hr, hz]
      refine nearestEven_of_even (Nat.even_iff.2 (by omega)) (abs_le.2 ?_)
      obtain h | h := Nat.mod_two_eq_zero_or_one m
      · rw [h, Nat.add_zero]
        constructor <;> linarith
      · rw [h, hup]
        constructor <;> linarith

end Residue

section Rounding

variable {x : ℚ} {m : ℕ} {e : ℤ} {accuracy : Accuracy}

theorem Represents.floor {em : ExtendedMantissa} (h : Represents em x) :
    em.mantissa ≤ x ∧ x < em.mantissa + 1 := by
  obtain ⟨f, hf, hhalf, rfl, -⟩ := h
  obtain ⟨hr, hr'⟩ := half_bounds em.roundBit
  constructor <;> linarith

theorem mantissa_ofMantissaAndAccuracy (m : ℕ) (accuracy : Accuracy) :
    (ExtendedMantissa.ofMantissaAndAccuracy m accuracy).mantissa = m := by
  cases accuracy with
  | exact => rfl
  | inexact o => cases o <;> rfl

def targetExponent (m : ℕ) (e : ℤ) : ℤ := max (m.log2 + 1 + e - 53) (-1074)

def firstRound (m : ℕ) (e : ℤ) (accuracy : Accuracy) : ℕ :=
  (ExtendedMantissa.ofMantissaAndAccuracy m accuracy >>>
    (targetExponent m e - e).toNat).roundedMantissa

theorem firstRound_rounded (h : Represents (.ofMantissaAndAccuracy m accuracy) x)
    (he : e ≤ targetExponent m e) :
    Rounded (x * 2 ^ e) (firstRound m e accuracy) (targetExponent m e) := by
  obtain ⟨j, hj⟩ := Int.le.dest he
  have hpow : (0 : ℚ) < 2 ^ j := pow_pos (by decide) j
  have hshift : (targetExponent m e - e).toNat = j := by omega
  have hscale : x * 2 ^ e = x / 2 ^ j * 2 ^ targetExponent m e := by
    rw [← hj, two_zpow_add, zpow_natCast, mul_comm ((2 : ℚ) ^ e), ← mul_assoc,
      div_mul_cancel₀ x hpow.ne']
  have hround : NearestEven (x / 2 ^ j) (firstRound m e accuracy) := by
    unfold firstRound
    rw [hshift]
    exact (h.shiftRight j).round
  obtain ⟨hlow, hhigh⟩ := h.floor
  rw [mantissa_ofMantissaAndAccuracy] at hlow hhigh
  have h0 : 0 ≤ x / 2 ^ j := div_nonneg (m.cast_nonneg.trans hlow) hpow.le
  rw [hscale]
  refine rounded_of_quotient hround h0 ?_ (le_max_right ..) ?_
  · have hlog : m.log2 + 1 ≤ 53 + j := by
      have : (m.log2 + 1 + e - 53 : ℤ) ≤ targetExponent m e := le_max_left ..
      omega
    have hm : m + 1 ≤ 2 ^ (53 + j) :=
      Nat.lt_log2_self.trans_le (Nat.pow_le_pow_right (by decide) hlog)
    rw [div_lt_iff₀ hpow, ← pow_add]
    exact hhigh.trans_le (by exact_mod_cast hm)
  · obtain ht | ht := max_choice (m.log2 + 1 + e - 53 : ℤ) (-1074)
    · right
      have hlog : m.log2 = 52 + j := by
        change targetExponent m e = _ at ht
        omega
      have hm : 2 ^ (52 + j) ≤ m := by
        rw [← hlog]
        refine Nat.log2_self_le ?_
        rintro rfl
        change 0 = 52 + j at hlog
        omega
      rw [le_div_iff₀ hpow, ← pow_add]
      exact le_trans (by exact_mod_cast hm) hlow
    · exact .inl ht

theorem secondShift {r : ℕ} {t : ℤ} (hr : r ≤ 2 ^ 53) (ht : -1074 ≤ t) :
    ((shiftToTargetExponent .binary64 r t .exact).1.mantissa,
      (shiftToTargetExponent .binary64 r t .exact).2) =
        carry r t := by
  change ((ExtendedMantissa.ofMantissaAndAccuracy r .exact >>>
      (targetExponent r t - t).toNat).mantissa, t + (targetExponent r t - t).toNat) = _
  unfold carry
  by_cases h : r = 2 ^ 53
  · have hlog : (2 ^ 53 : ℕ).log2 = 53 := Nat.log2_two_pow
    have hshift : (targetExponent r t - t).toNat = 1 := by
      rw [h, targetExponent, hlog]
      omega
    rw [if_pos h, hshift, h]
    rfl
  · have hlog : r.log2 < 53 := by
      obtain rfl | hpos := Nat.eq_zero_or_pos r
      · decide
      · exact (Nat.log2_lt hpos.ne').2 (lt_of_le_of_ne hr h)
    have hshift : (targetExponent r t - t).toNat = 0 := by
      rw [targetExponent]
      omega
    rw [if_neg h, hshift]
    exact congrArg (Prod.mk r) (Int.add_zero t)

theorem roundWithAccuracy_eq (s : Sign) {t : ℤ} {p : ℕ × ℤ}
    (ht : e + (targetExponent m e - e).toNat = t)
    (hp : ((shiftToTargetExponent .binary64 (firstRound m e accuracy) t .exact).1.mantissa,
      (shiftToTargetExponent .binary64 (firstRound m e accuracy) t .exact).2) = p) :
    roundWithAccuracy .binary64 s m e accuracy =
      if h : p.1 = 0 then .zero s else .finite s p.1 p.2 (Nat.pos_of_ne_zero h) := by
  subst ht hp
  rfl

/-- What the model computes is the double that the rounded count stands for. -/
theorem roundWithAccuracy_settle (s : Sign) (h : Represents (.ofMantissaAndAccuracy m accuracy) x)
    (he : e ≤ targetExponent m e) :
    ofUnpacked (UnpackedFloat.unpack .binary64
        (UnpackedFloat.pack .binary64 (roundWithAccuracy .binary64 s m e accuracy))) =
      settle (isNegative s) (firstRound m e accuracy) (targetExponent m e) := by
  have hr := firstRound_rounded h he
  obtain ⟨-, hlt, hle, -, hlead⟩ := hr.carry
  rw [roundWithAccuracy_eq s (by omega) (secondShift hr.le hr.least)]
  unfold settle
  by_cases hz : (carry (firstRound m e accuracy) (targetExponent m e)).1 = 0
  · rw [dif_pos hz, hz]
    rw [hz] at hlead
    rw [hlead.resolve_right (by decide), if_neg (by decide)]
    cases s <;> rfl
  · rw [dif_neg hz, unpack_pack_finite hlt (hr.least.trans hle) hlead]

end Rounding

section Arithmetic

def Worth (x : Float) (q : ℚ) : Prop :=
  ∃ negative m e, ofDouble x = .finite negative m e ∧ ratio negative m e = q

theorem sign_mul (s t : Sign) :
    sign (isNegative (s * t)) = sign (isNegative s) * sign (isNegative t) := by
  cases s with
  | positive => cases t <;> exact (one_mul _).symm
  | negative =>
    cases t with
    | positive => exact (mul_one _).symm
    | negative => exact ((neg_mul_neg (1 : ℚ) 1).trans (mul_one 1)).symm

theorem sign_div (s t : Sign) :
    sign (isNegative (s / t)) = sign (isNegative s) / sign (isNegative t) := by
  have hinv : (sign (isNegative t))⁻¹ = sign (isNegative t) := by
    cases t
    · exact inv_neg_one
    · exact inv_one
  have hmul : s / t = s * t := by cases s <;> cases t <;> rfl
  rw [div_eq_mul_inv, hinv, hmul, sign_mul]

theorem approximates_zero (s : Sign) : Approximates (ofUnpacked (UnpackedFloat.unpack .binary64
    (UnpackedFloat.pack .binary64 (.zero s)))) 0 := by
  refine .inr ⟨isNegative s, 0, -1074, by cases s <;> rfl, ?_⟩
  rw [ratio_eq, Nat.cast_zero, zero_mul, mul_zero]
  exact rounds_zero

theorem Worth.cases {x : Float} {q : ℚ} (h : Worth x q) :
    (∃ s, x.toModel.unpack = .zero s ∧ q = 0) ∨
      ∃ s m e hm, x.toModel.unpack = .finite s m e hm ∧ q = sign (isNegative s) * (m * 2 ^ e) ∧
        -1074 ≤ e ∧ (e = -1074 ∨ 2 ^ 52 ≤ m) := by
  obtain ⟨negative, m, e, hx, rfl⟩ := h
  have hc := canonical_ofDouble x
  rw [ofDouble_eq] at hx hc
  cases hu : x.toModel.unpack with
  | notANumber =>
    rw [hu] at hx
    cases hx
  | infinity s =>
    rw [hu] at hx
    cases hx
  | zero s =>
    rw [hu] at hx
    cases hx
    refine .inl ⟨s, rfl, ?_⟩
    rw [ratio_eq, Nat.cast_zero, zero_mul, mul_zero]
  | finite s m e hm =>
    rw [hu] at hx hc
    cases hx
    exact .inr ⟨s, m, e, hm, rfl, ratio_eq .., hc.2.1, hc.2.2.2⟩

variable {x y : Float} {a b : ℚ}

theorem Worth.unique (ha : Worth x a) (hb : Worth x b) : a = b := by
  obtain ⟨s, m, d, hx, rfl⟩ := ha
  obtain ⟨t, n, e, hy, rfl⟩ := hb
  cases hx.symm.trans hy
  rfl

theorem le_targetExponent_mul {m n : ℕ} {d e : ℤ} (hm : 0 < m) (hn : 0 < n)
    (hd : d = -1074 ∨ 2 ^ 52 ≤ m) (he : e = -1074 ∨ 2 ^ 52 ≤ n) :
    d + e ≤ targetExponent (m * n) (d + e) := by
  have hmn : 0 < m * n := Nat.mul_pos hm hn
  unfold targetExponent
  by_cases h : 2 ^ 52 ≤ m * n
  · have hlog : 52 ≤ (m * n).log2 := (Nat.le_log2 hmn.ne').2 h
    omega
  · have hd' := hd.resolve_right fun h' => h (h'.trans (Nat.le_mul_of_pos_right m hn))
    have he' := he.resolve_right fun h' => h (h'.trans (Nat.le_mul_of_pos_left n hm))
    omega

theorem mul_approximates (hx : Worth x a) (hy : Worth y b) :
    Approximates (ofDouble (x * y)) (a * b) := by
  rw [ofDouble_eq]
  change Approximates (ofUnpacked (UnpackedFloat.unpack .binary64 (UnpackedFloat.pack .binary64
    (UnpackedFloat.mul .binary64 x.toModel.unpack y.toModel.unpack)))) (a * b)
  obtain ⟨s, hu, rfl⟩ | ⟨s, m, d, hm, hu, rfl, -, hd⟩ := hx.cases
  · rw [hu, zero_mul]
    obtain ⟨t, hv, -⟩ | ⟨t, n, e, hn, hv, -⟩ := hy.cases
    · rw [hv]
      exact approximates_zero _
    · rw [hv]
      exact approximates_zero _
  · obtain ⟨t, hv, rfl⟩ | ⟨t, n, e, hn, hv, rfl, -, he⟩ := hy.cases
    · rw [hu, hv, mul_zero]
      exact approximates_zero _
    · have hle := le_targetExponent_mul hm hn hd he
      have hrep := represents_exact (m * n)
      rw [hu, hv]
      change Approximates (ofUnpacked (UnpackedFloat.unpack .binary64 (UnpackedFloat.pack .binary64
        (roundWithAccuracy .binary64 (s * t) (m * n) (d + e) .exact)))) _
      rw [roundWithAccuracy_settle (s * t) hrep hle]
      have hvalue : sign (isNegative s) * (m * 2 ^ d) * (sign (isNegative t) * (n * 2 ^ e)) =
          sign (isNegative (s * t)) * ((m * n : ℕ) * 2 ^ (d + e)) := by
        rw [sign_mul, two_zpow_add, Nat.cast_mul]
        ring
      rw [hvalue]
      exact ((firstRound_rounded hrep hle).settle _).1

theorem le_targetExponent_div {m n k : ℕ} {d e t : ℤ} (hn : 0 < n) (hm : 0 < m)
    (hk : (k : ℤ) = d - e - t)
    (ht : t ≤ max (m.log2 + 1 + d - (n.log2 + 1 + e) - 53) (-1074)) :
    t ≤ targetExponent (m * 2 ^ k / n) t := by
  unfold targetExponent
  by_cases hl : t ≤ -1074
  · omega
  have hshift : 53 + n.log2 ≤ m.log2 + k := by omega
  have hlarge : 2 ^ 52 * n ≤ m * 2 ^ k := by
    calc 2 ^ 52 * n ≤ 2 ^ 52 * 2 ^ (n.log2 + 1) :=
          Nat.mul_le_mul_left _ Nat.lt_log2_self.le
      _ = 2 ^ (53 + n.log2) := by
          rw [← pow_add]
          congr 1
          omega
      _ ≤ 2 ^ (m.log2 + k) := Nat.pow_le_pow_right (by decide) hshift
      _ = 2 ^ m.log2 * 2 ^ k := pow_add ..
      _ ≤ m * 2 ^ k := Nat.mul_le_mul_right _ (Nat.log2_self_le hm.ne')
  have hquotient : 2 ^ 52 ≤ m * 2 ^ k / n := (Nat.le_div_iff_mul_le hn).2 hlarge
  have hlog : 52 ≤ (m * 2 ^ k / n).log2 :=
    (Nat.le_log2 (Nat.pos_of_ne_zero (by omega)).ne').2 hquotient
  omega

theorem div_finite (s t : Sign) {m n k : ℕ} {d e u : ℤ} (hm : 0 < m) (hn : 0 < n)
    (hu : min (d - e) (max (m.log2 + 1 + d - (n.log2 + 1 + e) - 53) (-1074)) = u)
    (hk : (d - e - u).toNat = k) :
    UnpackedFloat.div .binary64 (.finite s m d hm) (.finite t n e hn) =
      roundWithAccuracy .binary64 (s / t) (m * 2 ^ k / n) u
        (accuracyOfFraction (m * 2 ^ k % n) n) := by
  subst hu hk
  rw [← Nat.shiftLeft_eq]
  rfl

theorem div_approximates (hx : Worth x a) (hy : Worth y b) (hb : b ≠ 0) :
    Approximates (ofDouble (x / y)) (a / b) := by
  rw [ofDouble_eq]
  change Approximates (ofUnpacked (UnpackedFloat.unpack .binary64 (UnpackedFloat.pack .binary64
    (UnpackedFloat.div .binary64 x.toModel.unpack y.toModel.unpack)))) (a / b)
  obtain ⟨t, -, rfl⟩ | ⟨t, n, e, hn, hv, rfl, -, he⟩ := hy.cases
  · exact absurd rfl hb
  obtain ⟨s, hu, rfl⟩ | ⟨s, m, d, hm, hu, rfl, -, hd⟩ := hx.cases
  · rw [hu, hv, zero_div]
    exact approximates_zero _
  obtain ⟨u, hu'⟩ : ∃ u, min (d - e) (max (m.log2 + 1 + d - (n.log2 + 1 + e) - 53) (-1074)) = u :=
    ⟨_, rfl⟩
  obtain ⟨k, hk⟩ : ∃ k : ℕ, (k : ℤ) = d - e - u := ⟨(d - e - u).toNat, by omega⟩
  have hle := le_targetExponent_div hn hm hk (hu'.symm.trans_le (min_le_right ..))
  have hrep := represents_fraction (m * 2 ^ k) hn
  have hshift : (d - e - u).toNat = k := by omega
  rw [hu, hv, div_finite s t hm hn hu' hshift, roundWithAccuracy_settle (s / t) hrep hle]
  have hvalue : sign (isNegative s) * (m * 2 ^ d) / (sign (isNegative t) * (n * 2 ^ e)) =
      sign (isNegative (s / t)) * ((m * 2 ^ k : ℕ) / n * 2 ^ u) := by
    have hpow : (2 : ℚ) ^ d / 2 ^ e = 2 ^ k * 2 ^ u := by
      rw [← zpow_sub₀ (by decide), ← zpow_natCast, ← two_zpow_add]
      congr 1
      omega
    rw [sign_div, mul_div_mul_comm, mul_div_mul_comm, hpow, Nat.cast_mul, Nat.cast_pow,
      Nat.cast_ofNat]
    ring
  rw [hvalue]
  exact ((firstRound_rounded hrep hle).settle _).1

theorem worth_ofInt {n : ℤ} (h : (ofInt .double n).isFinite = true) :
    ∃ r, Worth (ofInt .double n).toDouble r ∧ Rounds n r := by
  obtain ⟨happrox, hcanon⟩ := ofInt_approximates n
  obtain ⟨negative, hb, -⟩ | ⟨negative, m, e, hb, hr⟩ := happrox
  · rw [hb] at h
    cases h
  · exact ⟨_, ⟨negative, m, e, (ofDouble_toDouble h hcanon).trans hb, rfl⟩, hr⟩

theorem Approximates.worth {q : ℚ} (h : Approximates (ofDouble x) q) (hq : |q| < 2 ^ 1023) :
    ∃ r, Worth x r ∧ Rounds q r := by
  obtain ⟨-, -, hge⟩ | ⟨negative, m, e, hb, hr⟩ := h
  · exact absurd hq (not_lt.2 hge)
  · exact ⟨_, ⟨negative, m, e, hb, rfl⟩, hr⟩

end Arithmetic

end Binary

end PullQuery
