import PullQuery.Number.Decimal
import PullQuery.Proofs.Text.Numeral

namespace PullQuery.Decimal

theorem sameValue_iff {a b : Decimal} : a.sameValue b = true ↔
    a.unscaledAt (max a.scale b.scale) = b.unscaledAt (max a.scale b.scale) := by
  rw [sameValue, beq_iff_eq, compare_eq_compare_unscaledAt, Std.LawfulEqCmp.compare_eq_iff_eq]

theorem sameValue_refl (a : Decimal) : a.sameValue a = true := sameValue_iff.2 rfl

theorem sameValue_unscaledAt (a : Decimal) {s : Int} (h : a.scale ≤ s) :
    a.sameValue ⟨a.unscaledAt s, s⟩ = true := by
  rw [sameValue_iff, Int.max_eq_right h]
  simp [unscaledAt]

def pointed (whole part : List Char) : List Char :=
  if part = [] then whole else whole ++ '.' :: part

theorem withSign_append (n : Int) (as bs : List Char) :
    withSign n as ++ bs = withSign n (as ++ bs) := by
  unfold withSign
  split <;> rfl

theorem pointed_eq (whole part : List Char) :
    pointed whole part = whole ++ if part = [] then [] else '.' :: part := by
  unfold pointed
  split
  · rw [List.append_nil]
  · rfl

theorem mem_withSign {n : Int} {cs : List Char} {c : Char} (h : c ∈ withSign n cs) :
    c = '-' ∨ c ∈ cs := by
  unfold withSign at h
  split at h
  · exact List.mem_cons.1 h
  · exact .inr h

theorem integer?_withSign {n : Int} {ds : List Char} (hne : ds ≠ [])
    (h : ∀ c ∈ ds, c.isDigit = true) (hn : Numeral.read ds = n.natAbs) :
    Numeral.integer? (withSign n ds) = some n := by
  have := @Numeral.integer?_eq (decide (n < 0)) ds hne h
  simp only [decide_eq_true_eq] at this
  rw [withSign, this, hn]
  congr 1
  split <;> omega

section Mantissa

variable {n : Int} {whole part : List Char} (hw : ∀ c ∈ whole, c.isDigit = true)
  (hp : ∀ c ∈ part, c.isDigit = true)

include hw hp

theorem mantissa?_pointed (hne : whole ≠ []) (hn : Numeral.read (whole ++ part) = n.natAbs) :
    mantissa? (withSign n (pointed whole part)) = some ⟨n, part.length⟩ := by
  have hsplit : withSign n (pointed whole part) =
      withSign n whole ++ if part = [] then [] else '.' :: part := by
    rw [pointed_eq, withSign_append]
  have hpos : ∀ c ∈ withSign n whole, (c != '.') = true := by
    intro c hc
    obtain rfl | hc := mem_withSign hc
    · rfl
    · rw [bne_iff_ne]
      rintro rfl
      exact absurd (hw _ hc) (by decide)
  have htake : (withSign n (pointed whole part)).takeWhile (· != '.') = withSign n whole := by
    rw [hsplit, List.takeWhile_append_of_pos hpos]
    split <;> simp
  have hdrop : ((withSign n (pointed whole part)).dropWhile (· != '.')).drop 1 = part := by
    rw [hsplit, List.dropWhile_append_of_pos hpos]
    split
    case isTrue h => exact h.symm
    case isFalse => rfl
  have hplain : part.filter (· != '_') = part := by
    rw [List.filter_eq_self]
    intro c hc
    rw [bne_iff_ne]
    rintro rfl
    exact absurd (hp _ hc) (by decide)
  have hdigits : ∀ c ∈ whole ++ part, c.isDigit = true := fun c hc =>
    (List.mem_append.1 hc).elim (hw c) (hp c)
  have hint : Numeral.integer? (withSign n whole ++ part) = some n := by
    rw [withSign_append]
    exact integer?_withSign (List.append_ne_nil_of_left_ne_nil hne _) hdigits hn
  unfold mantissa?
  dsimp only
  rw [htake, hdrop, hint, hplain]
  rfl

theorem parse?_pointed (hne : whole ≠ []) (hn : Numeral.read (whole ++ part) = n.natAbs)
    {tail : List Char} {e : Int}
    (ht : (tail = [] ∧ e = 0) ∨
      ∃ c ds, tail = c :: ds ∧ (c = 'e' ∨ c = 'E') ∧ Numeral.signed? ds = some e)
    (hs : ScaleBounded (part.length - e)) :
    parse? (withSign n (pointed whole part) ++ tail) = some ⟨n, part.length - e⟩ := by
  have hpos : ∀ c ∈ withSign n (pointed whole part), (!(c == 'e' || c == 'E')) = true := by
    have hdigit {c : Char} (h : c.isDigit = true) : (!(c == 'e' || c == 'E')) = true := by
      rw [Bool.not_eq_true', Bool.or_eq_false_iff, beq_eq_false_iff_ne, beq_eq_false_iff_ne]
      constructor <;> (rintro rfl; exact absurd h (by decide))
    intro c hc
    obtain rfl | hc := mem_withSign hc
    · decide
    · rw [pointed_eq, List.mem_append] at hc
      obtain hc | hc := hc
      · exact hdigit (hw c hc)
      · split at hc
        · cases hc
        · obtain rfl | hc := List.mem_cons.1 hc
          · decide
          · exact hdigit (hp c hc)
  unfold parse?
  dsimp only
  rw [List.takeWhile_append_of_pos hpos, List.dropWhile_append_of_pos hpos]
  obtain ⟨rfl, he⟩ | ⟨c, ds, rfl, hc, hds⟩ := ht
  · rw [← he]
    simp only [List.takeWhile_nil, List.dropWhile_nil, List.append_nil,
      mantissa?_pointed hw hp hne hn, Option.bind_eq_bind, Option.bind_some]
    exact if_pos hs
  · have hmark : (!(c == 'e' || c == 'E')) = false := by
      obtain rfl | rfl := hc <;> decide
    simp only [List.takeWhile_cons, List.dropWhile_cons, hmark, Bool.false_eq_true, if_false,
      List.append_nil, mantissa?_pointed hw hp hne hn, hds, Option.bind_eq_bind, Option.bind_some]
    exact if_pos hs

end Mantissa

theorem isDigit_of_mem_places {ds : List Char} (h : ∀ c ∈ ds, c.isDigit = true) (s : Int) :
    (∀ c ∈ (places ds s).1, c.isDigit = true) ∧ ∀ c ∈ (places ds s).2, c.isDigit = true := by
  have zeros (n : Nat) : ∀ c ∈ List.replicate n '0', c.isDigit = true := fun c hc => by
    rw [List.eq_of_mem_replicate hc]
    rfl
  unfold places
  split
  · exact ⟨fun c hc => (List.mem_append.1 hc).elim (h c) (zeros _ c), nofun⟩
  · dsimp only
    split
    · rw [List.splitAt_eq]
      exact ⟨fun c hc => h c (List.mem_of_mem_take hc), fun c hc => h c (List.mem_of_mem_drop hc)⟩
    · exact ⟨zeros 1, fun c hc => (List.mem_append.1 hc).elim (zeros _ c) (h c)⟩

theorem places_ne_nil {ds : List Char} (h : ds ≠ []) (s : Int) : (places ds s).1 ≠ [] := by
  have hlen : ds.length ≠ 0 := mt List.length_eq_zero_iff.1 h
  unfold places
  split
  · exact List.append_ne_nil_of_left_ne_nil h _
  · dsimp only
    split
    · rw [List.splitAt_eq, Ne, List.take_eq_nil_iff]
      rintro (h0 | h0)
      · omega
      · exact h h0
    · exact List.cons_ne_nil _ _

theorem read_places (ds : List Char) (s : Int) :
    Numeral.read ((places ds s).1 ++ (places ds s).2) = Numeral.read ds * Nat.pow 10 (-s).toNat ∧
      ((places ds s).2.length : Int) = max s 0 := by
  unfold places
  split
  case isTrue hs =>
    rw [List.append_nil, Numeral.read_append, Numeral.read_replicate_zero, List.length_replicate]
    exact ⟨rfl, (Int.max_eq_right hs).symm⟩
  case isFalse hs =>
    have hneg : (-s).toNat = 0 := by omega
    rw [hneg, show Nat.pow 10 0 = 1 from rfl, Nat.mul_one]
    dsimp only
    split
    case isTrue hlt =>
      rw [List.splitAt_eq, List.take_append_drop, List.length_drop]
      refine ⟨rfl, ?_⟩
      rw [Int.max_eq_left (by omega)]
      have := Int.toNat_of_nonneg (show 0 ≤ s by omega)
      omega
    case isFalse =>
      refine ⟨?_, ?_⟩
      · have hz : Numeral.read ['0'] = 0 := rfl
        rw [Numeral.read_append, Numeral.read_leftpad, hz, Nat.zero_mul, Nat.zero_add]
      · rw [List.length_leftpad]
        omega

theorem positional_eq (n : Nat) (s : Int) :
    positional n s = pointed (places (Numeral.write n) s).1 (places (Numeral.write n) s).2 := by
  unfold positional pointed
  split
  case h_1 h => rw [h, if_pos rfl]
  case h_2 hne h => rw [h, if_neg hne]

theorem mantissa_eq (ds : List Char) :
    (match ds with
      | d :: e :: rest => d :: '.' :: e :: rest
      | ds => ds) = pointed (ds.take 1) (ds.drop 1) := by
  split
  case h_1 => rfl
  case h_2 h =>
    cases ds with
    | nil => rfl
    | cons d ds =>
      cases ds with
      | nil => rfl
      | cons e rest => exact absurd rfl (h d e rest)

def writtenScale (a : Decimal) : Int := if a.unscaled.natAbs = 0 then 0 else a.scale

def reread (a : Decimal) : Decimal :=
  if -mostTrailingZeros ≤ a.writtenScale ∧ a.writtenScale ≤ 0 then
    ⟨a.unscaled * Nat.pow 10 (-a.writtenScale).toNat, 0⟩
  else ⟨a.unscaled, a.writtenScale⟩

theorem scaleBounded_writtenScale {a : Decimal} (h : ScaleBounded a.scale) :
    ScaleBounded a.writtenScale := by
  unfold writtenScale
  split
  · decide
  · exact h

theorem sameValue_reread (a : Decimal) : a.sameValue a.reread = true := by
  unfold reread writtenScale
  by_cases h0 : a.unscaled.natAbs = 0
  · have h : a.unscaled = 0 := Int.natAbs_eq_zero.1 h0
    rw [if_pos h0, if_pos (by decide), sameValue_iff]
    simp [unscaledAt, h]
  · rw [if_neg h0]
    split
    case isTrue h =>
      have := sameValue_unscaledAt a h.2
      rwa [unscaledAt, Int.zero_sub] at this
    case isFalse => exact sameValue_refl a

theorem parse?_exponential {a : Decimal} {s : Int} (hs : ScaleBounded s) :
    parse? (withSign a.unscaled (pointed ((Numeral.write a.unscaled.natAbs).take 1)
      ((Numeral.write a.unscaled.natAbs).drop 1) ++ 'E' ::
        Numeral.signed ((Numeral.write a.unscaled.natAbs).length - 1 - s))) =
      some ⟨a.unscaled, s⟩ := by
  let ds := Numeral.write a.unscaled.natAbs
  have hne : ds ≠ [] := Numeral.write_ne_nil _
  have hlen : ds.length ≠ 0 := mt List.length_eq_zero_iff.1 hne
  have hd : ∀ c ∈ ds, c.isDigit = true := fun _ => Numeral.isDigit_of_mem_write
  have hscale : ((ds.drop 1).length : Int) - (ds.length - 1 - s) = s := by
    rw [List.length_drop]
    omega
  have := parse?_pointed (n := a.unscaled) (fun c hc => hd c (List.mem_of_mem_take hc))
    (fun c hc => hd c (List.mem_of_mem_drop hc))
    (fun h => (List.take_eq_nil_iff.1 h).elim Nat.one_ne_zero hne)
    (by rw [List.take_append_drop]; exact Numeral.read_write _)
    (.inr ⟨'E', _, rfl, .inr rfl, Numeral.signed?_signed (ds.length - 1 - s)⟩)
    (by rwa [hscale])
  rwa [hscale, withSign_append] at this

theorem parse?_whole {a : Decimal} {s : Int} (hneg : s < 0) (hs : ScaleBounded s) :
    parse? (withSign a.unscaled (Numeral.write a.unscaled.natAbs ++
      'e' :: '+' :: Numeral.signed (-s))) = some ⟨a.unscaled, s⟩ := by
  have hexp : Numeral.signed? ('+' :: Numeral.signed (-s)) = some (-s) := by
    obtain ⟨k, hk⟩ := Int.eq_ofNat_of_zero_le (show 0 ≤ -s by omega)
    rw [hk]
    change (Numeral.digits? (Numeral.write k)).map (fun n : Nat => (n : Int)) = _
    rw [Numeral.digits?_write]
    rfl
  have hscale : (([] : List Char).length : Int) - -s = s := by
    rw [List.length_nil]
    omega
  have hnil : ∀ c ∈ ([] : List Char), c.isDigit = true := nofun
  have := parse?_pointed (n := a.unscaled)
    (fun _ => Numeral.isDigit_of_mem_write (n := a.unscaled.natAbs)) hnil
    (Numeral.write_ne_nil _) (by rw [List.append_nil, Numeral.read_write])
    (.inr ⟨'e', _, rfl, .inl rfl, hexp⟩) (by rwa [hscale])
  rwa [hscale, withSign_append] at this

theorem withSign_mul_ten (n : Int) (k : Nat) (body : List Char) :
    withSign (n * Nat.pow 10 k) body = withSign n body := by
  have hpos : (0 : Int) < Nat.pow 10 k := Int.ofNat_lt.2 (Nat.pow_pos (by decide))
  have hiff : n * Nat.pow 10 k < 0 ↔ n < 0 := by
    constructor
    · intro h
      refine Int.not_le.1 fun hn => ?_
      exact absurd (Int.mul_nonneg hn (Int.le_of_lt hpos)) (by omega)
    · exact fun h => Int.mul_neg_of_neg_of_pos h hpos
  unfold withSign
  simp only [hiff]

theorem parse?_positional {a : Decimal} {s : Int} (hs : ScaleBounded (max s 0)) :
    parse? (withSign a.unscaled (positional a.unscaled.natAbs s)) =
      some ⟨a.unscaled * Nat.pow 10 (-s).toNat, max s 0⟩ := by
  let ds := Numeral.write a.unscaled.natAbs
  have hne : ds ≠ [] := Numeral.write_ne_nil _
  have hd : ∀ c ∈ ds, c.isDigit = true := fun _ => Numeral.isDigit_of_mem_write
  obtain ⟨hw, hp⟩ := isDigit_of_mem_places hd s
  obtain ⟨hread, hlen⟩ := read_places ds s
  have hn : Numeral.read ((places ds s).1 ++ (places ds s).2) =
      (a.unscaled * Nat.pow 10 (-s).toNat).natAbs := by
    rw [hread, Int.natAbs_mul, Int.natAbs_natCast]
    exact congrArg (· * _) (Numeral.read_write _)
  have := parse?_pointed hw hp (places_ne_nil hne s) hn (.inl ⟨rfl, rfl⟩)
    (by rwa [Int.sub_zero, hlen])
  rwa [Int.sub_zero, hlen, List.append_nil, withSign_mul_ten, ← positional_eq] at this

theorem parse?_lexical {a : Decimal} (h : ScaleBounded a.scale) :
    parse? a.lexical = some a.reread := by
  have hs := scaleBounded_writtenScale h
  have heq : a.lexical = withSign a.unscaled (
      if 0 < a.writtenScale ∧
          mostLeadingZeros < a.writtenScale - (Numeral.write a.unscaled.natAbs).length then
        pointed ((Numeral.write a.unscaled.natAbs).take 1)
          ((Numeral.write a.unscaled.natAbs).drop 1) ++
            'E' :: Numeral.signed ((Numeral.write a.unscaled.natAbs).length - 1 - a.writtenScale)
      else if a.writtenScale < -mostTrailingZeros then
        Numeral.write a.unscaled.natAbs ++ 'e' :: '+' :: Numeral.signed (-a.writtenScale)
      else positional a.unscaled.natAbs a.writtenScale) := by
    rw [← mantissa_eq]
    rfl
  rw [heq]
  unfold reread
  by_cases hE : 0 < a.writtenScale ∧
      mostLeadingZeros < a.writtenScale - (Numeral.write a.unscaled.natAbs).length
  · rw [if_pos hE, if_neg (by omega)]
    exact parse?_exponential hs
  · rw [if_neg hE]
    by_cases he : a.writtenScale < -mostTrailingZeros
    · rw [if_pos he, if_neg (by omega)]
      exact parse?_whole (by unfold mostTrailingZeros at he; omega) hs
    · have hmax : ScaleBounded (max a.writtenScale 0) := by
        rcases Int.le_total a.writtenScale 0 with hle | hle
        · rw [Int.max_eq_right hle]
          decide
        · rwa [Int.max_eq_left hle]
      rw [if_neg he, parse?_positional hmax]
      split
      case isTrue h' => rw [Int.max_eq_right h'.2]
      case isFalse h' =>
        have hpos : 0 < a.writtenScale := by omega
        rw [Int.max_eq_left (Int.le_of_lt hpos), Int.toNat_of_nonpos (by omega)]
        simp

end PullQuery.Decimal
