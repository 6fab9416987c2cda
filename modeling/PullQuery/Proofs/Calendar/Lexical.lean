import Mathlib.Data.List.Basic
import PullQuery.Calendar.Lexical
import PullQuery.Proofs.Text.Numeral

namespace PullQuery

theorem not_isBlank {c : Char} (h : 0x20 < c.toNat ∧ c.toNat < 0x80) : Text.isBlank c = false := by
  unfold Text.isBlank
  simp
  omega

theorem not_isBlank_of_isDigit {c : Char} (h : c.isDigit = true) : Text.isBlank c = false := by
  rw [Char.isDigit_iff_toNat] at h
  have : '0'.toNat = 48 ∧ '9'.toNat = 57 := by decide
  exact not_isBlank (by omega)

namespace Numeral

theorem padded_two {n : Nat} (h : n < 100) : ∃ a b, padded 2 n = [a, b] ∧ a.isDigit = true ∧
    b.isDigit = true ∧ digits? [a, b] = some n ∧ signed? [a, b] = some (n : Int) := by
  obtain ⟨a, b, hab⟩ := List.length_eq_two.1 (length_padded (by decide) h)
  have hd : ∀ c ∈ [a, b], c.isDigit = true := fun c hc => isDigit_of_mem_padded (hab ▸ hc)
  have hn : digits? [a, b] = some n := hab ▸ digits?_padded 2 n
  have ha := hd a List.mem_cons_self
  refine ⟨a, b, hab, ha, hd b (by simp), hn, ?_⟩
  rw [signed?_of_isDigit ha, hn]
  rfl

end Numeral

namespace Calendar.Lexical

theorem nanos_eq {ds : List Char} (h : ∀ c ∈ ds, c.isDigit = true) :
    nanos ds = Numeral.read ds * Nat.pow 10 9 / Nat.pow 10 ds.length := by
  change Numeral.read (ds.take 9) * Nat.pow 10 (9 - (ds.take 9).length) = _
  have add (m n : Nat) : Nat.pow 10 (m + n) = Nat.pow 10 m * Nat.pow 10 n := Nat.pow_add 10 m n
  have pos (n : Nat) : 0 < Nat.pow 10 n := Nat.pow_pos (by decide)
  by_cases hl : ds.length ≤ 9
  · rw [List.take_of_length_le hl]
    refine (Nat.div_eq_of_eq_mul_left (pos _) ?_).symm
    rw [Nat.mul_assoc, ← add, Nat.sub_add_cancel hl]
  · have ht : (ds.take 9).length = 9 := List.length_take_of_le (by omega)
    have hlen : ds.length = 9 + (ds.drop 9).length := by
      rw [List.length_drop]
      omega
    have hd : Numeral.read (ds.drop 9) < Nat.pow 10 (ds.drop 9).length :=
      Numeral.read_lt fun c hc => h c (List.mem_of_mem_drop hc)
    have hr : Numeral.read ds =
        Numeral.read (ds.take 9) * Nat.pow 10 (ds.drop 9).length + Numeral.read (ds.drop 9) := by
      rw [← Numeral.read_append, List.take_append_drop]
    rw [ht, hlen, hr, add, Nat.mul_comm (Nat.pow 10 9),
      Nat.mul_div_mul_right _ _ (pos 9), Nat.mul_comm _ (Nat.pow 10 (ds.drop 9).length),
      Nat.mul_add_div (pos _), Nat.div_eq_of_lt hd]
    exact Nat.mul_one _

theorem padded_nanos {width n : Nat} (hw : 0 < width) (h : n < Nat.pow 10 width) :
    nanos (Numeral.padded width n) = n * Nat.pow 10 9 / Nat.pow 10 width := by
  rw [nanos_eq fun _ => Numeral.isDigit_of_mem_padded, Numeral.read_padded,
    Numeral.length_padded hw h]

theorem fraction?_fraction {n : Nat} (h : n < 1_000_000_000) : fraction? (fraction n) = some n := by
  have h3 : Nat.pow 10 3 = 1000 := rfl
  have h6 : Nat.pow 10 6 = 1_000_000 := rfl
  have h9 : Nat.pow 10 9 = 1_000_000_000 := rfl
  have point {width p : Nat} (m : Nat) (hp : Nat.pow 10 width = p) (hw : 0 < width) (hm : m < p)
      (hn : m * 1_000_000_000 / p = n) : fraction? ('.' :: Numeral.padded width m) = some n := by
    subst hp
    change (Numeral.digits? _).map (fun _ => nanos _) = _
    rw [Numeral.digits?_padded, Option.map_some, padded_nanos hw hm, h9, hn]
  unfold fraction
  split
  case isTrue h0 => rw [h0]; rfl
  case isFalse =>
    split
    case isTrue => exact point _ h3 (by decide) (by omega) (by omega)
    case isFalse =>
      split
      case isTrue => exact point _ h6 (by decide) (by omega) (by omega)
      case isFalse => exact point n h9 (by decide) h (by omega)

end Calendar.Lexical

namespace Zone

def IsWritten (z : Zone) : Prop := z.seconds % 60 = 0 ∧ -50400 ≤ z.seconds ∧ z.seconds ≤ 50400

instance (z : Zone) : Decidable z.IsWritten := inferInstanceAs (Decidable (_ ∧ _))

theorem ofSeconds?_self (z : Zone) : ofSeconds? z.seconds = some z := dif_pos z.bounded

theorem ofFields?_self {z : Zone} (h : z.IsWritten) :
    ofFields? (decide (z.seconds < 0)) (z.seconds.natAbs / 3600 : Nat)
      (z.seconds.natAbs % 3600 / 60 : Nat) = some z := by
  obtain ⟨hm, hl, hu⟩ := h
  have hn : (if decide (z.seconds < 0) = true then
      -(3600 * ((z.seconds.natAbs / 3600 : Nat) : Int) + 60 * (z.seconds.natAbs % 3600 / 60 : Nat))
      else 3600 * ((z.seconds.natAbs / 3600 : Nat) : Int) +
        60 * (z.seconds.natAbs % 3600 / 60 : Nat)) =
      z.seconds := by
    by_cases hs : z.seconds < 0
    · rw [if_pos (decide_eq_true hs)]
      omega
    · rw [if_neg (by simpa using hs)]
      omega
  rw [ofFields?, if_neg]
  · exact (congrArg ofSeconds? hn).trans z.ofSeconds?_self
  · unfold mostHours
    omega

theorem split?_fields (cs : List Char) {sign a b c d : Char} (hs : sign = '+' ∨ sign = '-')
    (hd : d.isDigit = true) {hours minutes : Int} (hh : field? a b = some hours)
    (hm : field? c d = some minutes) :
    split? (cs ++ [sign, a, b, ':', c, d]) =
      (ofFields? (sign == '-') hours minutes).map fun z => (cs, some z) := by
  have hr : (cs ++ [sign, a, b, ':', c, d]).reverse =
      d :: c :: ':' :: b :: a :: sign :: cs.reverse := by
    simp
  have hsign : (sign == '+' || sign == '-') = true := by
    obtain rfl | rfl := hs <;> rfl
  unfold split?
  rw [hr]
  split
  case h_1 he => exact absurd hd (by rw [(List.cons.inj he).1]; decide)
  case h_2 he =>
    simp only [List.cons.injEq] at he
    obtain ⟨rfl, rfl, -, rfl, rfl, rfl, rfl⟩ := he
    rw [if_pos hsign, hh, hm, List.reverse_reverse]
    change (ofFields? (sign == '-') hours minutes).bind (fun z => some (cs, some z)) = _
    cases ofFields? (sign == '-') hours minutes <;> rfl
  case h_3 hne => exact absurd rfl (hne _ _ _ _ _ _)

theorem split?_lexical (cs : List Char) {z : Zone} (h : z.IsWritten) :
    split? (cs ++ z.lexical) = some (cs, some z) := by
  unfold lexical
  split
  case isTrue h0 =>
    have hz : z = utc := by
      obtain ⟨n, hb⟩ := z
      obtain rfl : n = 0 := h0
      rfl
    rw [split?, List.reverse_append, hz]
    simp
  case isFalse h0 =>
    have bound := z.bounded
    have hours : z.seconds.natAbs / 3600 < 100 := by omega
    have minutes : z.seconds.natAbs % 3600 / 60 < 100 := by omega
    obtain ⟨a, b, hh, -, -, -, hfh⟩ := Numeral.padded_two hours
    obtain ⟨c, d, hm, -, hd, -, hfm⟩ := Numeral.padded_two minutes
    have hz := ofFields?_self h
    dsimp only
    rw [hh, hm]
    by_cases hs : z.seconds < 0
    · rw [decide_eq_true hs] at hz
      rw [if_pos hs]
      exact (split?_fields cs (.inr rfl) hd hfh hfm).trans (congrArg _ hz)
    · rw [decide_eq_false hs] at hz
      rw [if_neg hs]
      exact (split?_fields cs (.inl rfl) hd hfh hfm).trans (congrArg _ hz)

theorem split?_eq_self {cs : List Char} (hz : cs.getLast? ≠ some 'Z')
    (hs : ∀ body sign a b c d, cs = body ++ [sign, a, b, ':', c, d] → sign ≠ '+' ∧ sign ≠ '-') :
    split? cs = some (cs, none) := by
  unfold split?
  split
  case h_1 body he =>
    refine absurd ?_ hz
    rw [← List.head?_reverse, he]
    rfl
  case h_2 d c b a sign body _ he =>
    have hcs : cs = body.reverse ++ [sign, a, b, ':', c, d] := by
      rw [← List.reverse_reverse cs, he]
      simp
    obtain ⟨hp, hm⟩ := hs _ _ _ _ _ _ hcs
    rw [if_neg (by simp [hp, hm])]
  case h_3 => rfl

theorem split?_of_last_three (cs : List Char) {x y z : Char} (hx : x ≠ ':') (hz : z ≠ 'Z') :
    split? (cs ++ [x, y, z]) = some (cs ++ [x, y, z], none) := by
  refine split?_eq_self (by simpa using hz) fun body sign a b c d h => ?_
  have h : cs ++ [x, y, z] = (body ++ [sign, a, b]) ++ [':', c, d] := by rw [h]; simp
  exact absurd (List.cons.inj (List.append_inj' h rfl).2).1 hx

theorem split?_of_colons (cs : List Char) {a b c d : Char} (hd : d ≠ 'Z') :
    split? (cs ++ [':', a, b, ':', c, d]) = some (cs ++ [':', a, b, ':', c, d], none) := by
  refine split?_eq_self (by simpa using hd) fun body sign a' b' c' d' h => ?_
  have hs := (List.cons.inj (List.append_inj' h rfl).2).1
  rw [← hs]
  decide

end Zone

namespace Calendar.Lexical

theorem isBlank_lexical? {zone : Option Zone} {c : Char} (h : c ∈ Zone.lexical? zone) :
    Text.isBlank c = false := by
  cases zone with
  | none => cases h
  | some z =>
    change c ∈ z.lexical at h
    unfold Zone.lexical at h
    split at h
    · rw [List.mem_singleton.1 h]
      decide
    · obtain h | h := List.mem_cons.1 h
      · rw [h]
        split <;> decide
      · obtain h | h := List.mem_append.1 h
        · exact not_isBlank_of_isDigit (Numeral.isDigit_of_mem_padded h)
        · obtain h | h := List.mem_cons.1 h
          · rw [h]
            decide
          · exact not_isBlank_of_isDigit (Numeral.isDigit_of_mem_padded h)

theorem zoned?_zoned {α : Type} {read? : List Char → Option α} {cs : List Char} {value : α}
    (hv : read? cs = some value) (hb : ∀ c ∈ cs, Text.isBlank c = false)
    (hs : Zone.split? cs = some (cs, none)) {zone : Option Zone}
    (hz : ∀ z, zone = some z → z.IsWritten) :
    zoned? read? (zoned cs zone) = some (value, zone) := by
  have hsplit : Zone.split? (cs ++ Zone.lexical? zone) = some (cs, zone) := by
    cases zone with
    | none => rwa [Zone.lexical?, List.append_nil]
    | some z => exact Zone.split?_lexical cs (hz z rfl)
  have htrim : Text.trim (cs ++ Zone.lexical? zone) = cs ++ Zone.lexical? zone :=
    Text.trim_eq_self fun c hc => (List.mem_append.1 hc).elim (hb c) isBlank_lexical?
  unfold zoned? zoned
  rw [String.toList_ofList, htrim, hsplit]
  change (read? cs).bind (fun value => some (value, zone)) = _
  rw [hv]
  rfl

theorem length_le_padded (width n : Nat) : width ≤ (Numeral.padded width n).length := by
  unfold Numeral.padded
  rw [List.length_leftpad]
  omega

end Calendar.Lexical

open Calendar.Lexical

namespace Date

theorem ofLexical?_fields {negative : Bool} {ds : List Char} (hd : ∀ c ∈ ds, c.isDigit = true)
    (hl : ds.length = 4 ∨ (negative = true ∧ 4 ≤ ds.length)) {a b c d : Char} {month day : Nat}
    (hm : Numeral.digits? [a, b] = some month) (hday : Numeral.digits? [c, d] = some day) :
    ofLexical? ((if negative then '-' :: ds else ds) ++ ['-', a, b, '-', c, d]) =
      ofCivil? (if negative then -(Numeral.read ds : Int) else Numeral.read ds) month day := by
  have htake : (ds ++ ['-', a, b, '-', c, d]).takeWhile Char.isDigit = ds := by
    rw [List.takeWhile_append_of_pos hd]
    simp
  have hdrop : (ds ++ ['-', a, b, '-', c, d]).dropWhile Char.isDigit = ['-', a, b, '-', c, d] := by
    rw [List.dropWhile_append_of_pos hd]
    simp
  have hbody : ∀ cs : List Char, (cs.head? == some '-') = negative →
      (if negative then cs.tail else cs) = ds ++ ['-', a, b, '-', c, d] →
      ofLexical? cs = ofCivil? (if negative then -(Numeral.read ds : Int) else Numeral.read ds)
        month day := by
    intro cs hn hb
    unfold ofLexical?
    dsimp only
    rw [hn, hb, htake, hdrop]
    refine (if_pos hl).trans ?_
    rw [hm, hday]
    rfl
  cases negative with
  | true => exact hbody _ rfl rfl
  | false =>
    have hlen : ds.length = 4 := hl.resolve_right fun h => Bool.false_ne_true h.1
    refine hbody _ ?_ rfl
    cases ds with
    | nil => cases hlen
    | cons e ds =>
      have he := hd e List.mem_cons_self
      rw [if_neg Bool.false_ne_true, List.cons_append, List.head?_cons]
      refine beq_eq_false_iff_ne.2 fun h => ?_
      rw [Option.some.inj h] at he
      cases he

theorem day_le (d : Date) : d.day ≤ 31 := by
  have length (y : Int) (m : Nat) : Calendar.monthLength y m ≤ 31 := by
    unfold Calendar.monthLength
    split
    · split <;> decide
    all_goals decide
  exact Nat.le_trans d.day_exists.2 (length _ _)

theorem lexical_eq {d : Date} (h : d.year ≤ 9999) :
    d.lexical = (if decide (d.year < 0) = true then '-' :: Numeral.padded 4 d.year.natAbs
      else Numeral.padded 4 d.year.natAbs) ++
        '-' :: (Numeral.padded 2 d.month ++ '-' :: Numeral.padded 2 d.day) := by
  unfold lexical Calendar.Lexical.year
  by_cases hn : d.year < 0
  · simp [hn]
  · have hp : ¬9999 < d.year := by omega
    simp [hn, hp]

theorem ofLexical?_lexical {d : Date} (h : d.year ≤ 9999) : ofLexical? d.lexical = some d := by
  have month := d.month_exists
  have day := d.day_le
  obtain ⟨a, b, hm, -, -, hab, -⟩ := Numeral.padded_two (show d.month < 100 by omega)
  obtain ⟨c, e, hd, -, -, hce, -⟩ := Numeral.padded_two (show d.day < 100 by omega)
  have hl : (Numeral.padded 4 d.year.natAbs).length = 4 ∨
      (decide (d.year < 0) = true ∧ 4 ≤ (Numeral.padded 4 d.year.natAbs).length) := by
    by_cases hn : d.year < 0
    · exact .inr ⟨decide_eq_true hn, length_le_padded 4 _⟩
    · have hlt : d.year.natAbs < 10000 := by omega
      exact .inl (Numeral.length_padded (by decide) hlt)
  have hy : (if decide (d.year < 0) = true then
        -(Numeral.read (Numeral.padded 4 d.year.natAbs) : Int)
      else Numeral.read (Numeral.padded 4 d.year.natAbs)) = d.year := by
    rw [Numeral.read_padded]
    split
    case isTrue hn =>
      have := of_decide_eq_true hn
      omega
    case isFalse hn =>
      have : ¬d.year < 0 := by simpa using hn
      omega
  rw [lexical_eq h, hm, hd]
  refine (ofLexical?_fields (fun _ => Numeral.isDigit_of_mem_padded) hl hab hce).trans ?_
  rw [hy, d.ofCivil?_self]

end Date

namespace Clock

theorem ofParts?_self (t : Clock) : ofParts? t.second t.nanos = some t :=
  dif_pos ⟨t.second_lt, t.nanos_lt⟩

theorem nanos_lt_twice (t : Clock) : t.nanos < 2_000_000_000 := by
  have hn := t.nanos_lt
  unfold span at hn
  split at hn <;> omega

theorem ofFields?_self (t : Clock) :
    ofFields? (t.second / 3600) (t.second / 60 % 60) (t.second % 60 + t.nanos / 1_000_000_000)
      (t.nanos % 1_000_000_000) = some t := by
  have hs := t.second_lt
  have hn := t.nanos_lt
  rw [← t.ofParts?_self]
  unfold ofFields?
  unfold span at hn
  rw [if_neg (by split at hn <;> omega)]
  split
  · congr 1 <;> split at hn <;> omega
  · congr 1 <;> split at hn <;> omega

theorem ofLexical?_lexical (t : Clock) : ofLexical? t.lexical = some t := by
  have hs := t.second_lt
  have hn := t.nanos_lt_twice
  obtain ⟨a, b, hab, -, -, hh, -⟩ := Numeral.padded_two (show t.second / 3600 < 100 by omega)
  obtain ⟨c, d, hcd, -, -, hm, -⟩ := Numeral.padded_two (show t.second / 60 % 60 < 100 by omega)
  obtain ⟨e, f, hef, -, -, hsec, -⟩ := Numeral.padded_two
    (show t.second % 60 + t.nanos / 1_000_000_000 < 100 by omega)
  unfold lexical
  dsimp only
  rw [hab, hcd, hef]
  simp [ofLexical?, hh, hm, hsec, fraction?_fraction (Nat.mod_lt t.nanos (by decide)),
    ofFields?_self]

end Clock

namespace Calendar.Lexical

theorem isDigit_of_mem_fraction {n : Nat} {c : Char} (hc : c ∈ fraction n) :
    c.isDigit = true ∨ c = '.' := by
  have point {width m : Nat} (hc : c ∈ '.' :: Numeral.padded width m) :
      c.isDigit = true ∨ c = '.' :=
    (List.mem_cons.1 hc).symm.imp_left Numeral.isDigit_of_mem_padded
  unfold fraction at hc
  split at hc
  · cases hc
  · split at hc
    · exact point hc
    · split at hc <;> exact point hc

theorem fraction_cases (n : Nat) : fraction n = [] ∨
    ∃ cs x y z, fraction n = cs ++ [x, y, z] ∧ x.isDigit = true ∧ z.isDigit = true := by
  have three (width m : Nat) (hw : 3 ≤ width) : ∃ cs x y z,
      '.' :: Numeral.padded width m = cs ++ [x, y, z] ∧ x.isDigit = true ∧ z.isDigit = true := by
    have hl := Nat.le_trans hw (length_le_padded width m)
    have hlen :
        ((Numeral.padded width m).drop ((Numeral.padded width m).length - 3)).length = 3 := by
      rw [List.length_drop]
      omega
    obtain ⟨x, y, z, hxyz⟩ := List.length_eq_three.1 hlen
    have hd : ∀ c ∈ [x, y, z], c.isDigit = true := fun c hc =>
      Numeral.isDigit_of_mem_padded (List.mem_of_mem_drop (hxyz ▸ hc))
    refine ⟨'.' :: (Numeral.padded width m).take ((Numeral.padded width m).length - 3), x, y, z, ?_,
      hd x (by simp), hd z (by simp)⟩
    rw [← hxyz, List.cons_append, List.take_append_drop]
  unfold fraction
  split
  · exact .inl rfl
  · split
    · exact .inr (three 3 _ (by decide))
    · split
      · exact .inr (three 6 _ (by decide))
      · exact .inr (three 9 _ (by decide))

end Calendar.Lexical

structure Calendar.Lexical.Bare (cs : List Char) : Prop where
  blanks : ∀ c ∈ cs, Text.isBlank c = false
  zone : Zone.split? cs = some (cs, none)

namespace Date

theorem isDigit_of_mem_lexical {d : Date} (h : d.year ≤ 9999) {c : Char} (hc : c ∈ d.lexical) :
    c.isDigit = true ∨ c = '-' := by
  have padded {width n : Nat} (hc : c ∈ Numeral.padded width n) : c.isDigit = true :=
    Numeral.isDigit_of_mem_padded hc
  rw [lexical_eq h] at hc
  obtain hc | hc := List.mem_append.1 hc
  · split at hc
    · exact (List.mem_cons.1 hc).symm.imp_left padded
    · exact .inl (padded hc)
  · obtain hc | hc := List.mem_cons.1 hc
    · exact .inr hc
    · obtain hc | hc := List.mem_append.1 hc
      · exact .inl (padded hc)
      · exact (List.mem_cons.1 hc).symm.imp_left padded

theorem lexical_bare {d : Date} (h : d.year ≤ 9999) : Bare d.lexical where
  blanks c hc := by
    obtain hd | rfl := isDigit_of_mem_lexical h hc
    · exact not_isBlank_of_isDigit hd
    · decide
  zone := by
    obtain ⟨a, b, hab, -, hb, -, -⟩ := Numeral.padded_two (show d.day < 100 by
      have := d.day_le
      omega)
    have hz : b ≠ 'Z' := fun hb' => absurd hb (by rw [hb']; decide)
    unfold lexical
    rw [hab]
    have := Zone.split?_of_last_three
      (Calendar.Lexical.year d.year ++ '-' :: Numeral.padded 2 d.month) (x := '-') (y := a)
      (by decide) hz
    simpa using this

theorem parse?_text {d : Date} (h : d.year ≤ 9999) {zone : Option Zone}
    (hz : ∀ z, zone = some z → z.IsWritten) : parse? (d.text zone) = some (d, zone) :=
  zoned?_zoned (ofLexical?_lexical h) (lexical_bare h).blanks (lexical_bare h).zone hz

end Date

namespace Clock

theorem not_isBlank_of_mem_lexical {t : Clock} {c : Char} (hc : c ∈ t.lexical) :
    Text.isBlank c = false := by
  have field {n : Nat} (hc : c ∈ Numeral.padded 2 n) : Text.isBlank c = false :=
    not_isBlank_of_isDigit (Numeral.isDigit_of_mem_padded hc)
  have colon (hc : c = ':') : Text.isBlank c = false := hc ▸ by decide
  unfold lexical at hc
  simp only [List.append_assoc, List.cons_append, List.mem_append, List.mem_cons] at hc
  obtain hc | hc | hc | hc | hc | hc := hc
  · exact field hc
  · exact colon hc
  · exact field hc
  · exact colon hc
  · exact field hc
  · obtain hd | rfl := isDigit_of_mem_fraction hc
    · exact not_isBlank_of_isDigit hd
    · decide

theorem split?_append_lexical (cs : List Char) (t : Clock) :
    Zone.split? (cs ++ t.lexical) = some (cs ++ t.lexical, none) := by
  have hs := t.second_lt
  have hn := t.nanos_lt_twice
  obtain ⟨c, d, hcd, -, -, -, -⟩ := Numeral.padded_two (show t.second / 60 % 60 < 100 by omega)
  obtain ⟨e, f, hef, -, hf, -, -⟩ := Numeral.padded_two
    (show t.second % 60 + t.nanos / 1_000_000_000 < 100 by omega)
  have hz {c : Char} (hc : c.isDigit = true) : c ≠ 'Z' := fun h => absurd hc (by rw [h]; decide)
  have hx {c : Char} (hc : c.isDigit = true) : c ≠ ':' := fun h => absurd hc (by rw [h]; decide)
  unfold lexical
  dsimp only
  rw [hcd, hef]
  obtain h | ⟨q, x, y, z, h, hdx, hdz⟩ := fraction_cases (t.nanos % 1_000_000_000)
  · rw [h]
    have := Zone.split?_of_colons (cs ++ Numeral.padded 2 (t.second / 3600))
      (a := c) (b := d) (c := e) (hz hf)
    simpa using this
  · rw [h]
    have := Zone.split?_of_last_three
      (cs ++ Numeral.padded 2 (t.second / 3600) ++ [':', c, d, ':', e, f] ++ q) (y := y) (hx hdx)
      (hz hdz)
    simpa using this

theorem lexical_bare (t : Clock) : Bare t.lexical where
  blanks _ := not_isBlank_of_mem_lexical
  zone := split?_append_lexical [] t

theorem parse?_text (t : Clock) {zone : Option Zone}
    (hz : ∀ z, zone = some z → z.IsWritten) : parse? (t.text zone) = some (t, zone) :=
  zoned?_zoned t.ofLexical?_lexical t.lexical_bare.blanks t.lexical_bare.zone hz

end Clock

namespace DateTime

theorem ofLexical?_lexical {p : DateTime} (h : p.date.year ≤ 9999) :
    ofLexical? p.lexical = some p := by
  have ht : ∀ c ∈ p.date.lexical, (c != 'T') = true := by
    intro c hc
    obtain hd | rfl := Date.isDigit_of_mem_lexical h hc
    · exact bne_iff_ne.2 fun hT => absurd hd (by rw [hT]; decide)
    · decide
  have htake : (p.date.lexical ++ 'T' :: p.time.lexical).takeWhile (· != 'T') = p.date.lexical := by
    rw [List.takeWhile_append_of_pos ht]
    simp
  have hdrop : (p.date.lexical ++ 'T' :: p.time.lexical).dropWhile (· != 'T') =
      'T' :: p.time.lexical := by
    rw [List.dropWhile_append_of_pos ht]
    simp
  unfold ofLexical? lexical
  rw [htake, hdrop, Date.ofLexical?_lexical h]
  change (Clock.ofLexical? p.time.lexical).map (DateTime.mk p.date) = _
  rw [p.time.ofLexical?_lexical]
  rfl

theorem lexical_bare {p : DateTime} (h : p.date.year ≤ 9999) : Bare p.lexical where
  blanks c hc := by
    obtain hc | hc := List.mem_append.1 hc
    · exact (Date.lexical_bare h).blanks c hc
    · obtain rfl | hc := List.mem_cons.1 hc
      · decide
      · exact Clock.not_isBlank_of_mem_lexical hc
  zone := by
    have := Clock.split?_append_lexical (p.date.lexical ++ ['T']) p.time
    simpa [lexical] using this

theorem parse?_text {p : DateTime} (h : p.date.year ≤ 9999) {zone : Option Zone}
    (hz : ∀ z, zone = some z → z.IsWritten) : parse? (p.text zone) = some (p, zone) :=
  zoned?_zoned (ofLexical?_lexical h) (lexical_bare h).blanks (lexical_bare h).zone hz

end DateTime

end PullQuery
