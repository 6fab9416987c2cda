import PullQuery.Proofs.Duration.Lexical

namespace PullQuery.Duration

namespace Digits

def ofNat (n : Nat) : Digits :=
  ⟨Numeral.write n, Numeral.write_ne_nil n, fun _ => Numeral.isDigit_of_mem_write⟩

@[simp] theorem ofNat_value (n : Nat) : (ofNat n).value = n := Numeral.read_write n

end Digits

def printed (n : Nat) : Option Digits := if n = 0 then none else some (.ofNat n)

@[simp] theorem count_printed (n : Nat) : count (printed n) = n := by
  unfold printed
  split
  case isTrue h => exact h.symm
  case isFalse => exact Digits.ofNat_value n

theorem printed_chars (n : Nat) (c : Char) :
    Slot.chars ⟨c, (printed n).map .plain⟩ = if n = 0 then [] else Numeral.write n ++ [c] := by
  unfold printed
  split
  · rfl
  · simp [Slot.chars, Amount.chars, Amount.plain, Digits.ofNat]

namespace Lexical

theorem padded_eq_fractionDigits (n : Nat) :
    ∃ k, Numeral.padded 9 n = fractionDigits n ++ List.replicate k '0' := by
  have hz : (Numeral.padded 9 n).reverse.takeWhile (· == '0') =
      List.replicate ((Numeral.padded 9 n).reverse.takeWhile (· == '0')).length '0' :=
    List.eq_replicate_of_mem fun c hc => by simpa using List.mem_takeWhile_imp hc
  refine ⟨((Numeral.padded 9 n).reverse.takeWhile (· == '0')).length, ?_⟩
  calc Numeral.padded 9 n
      = ((Numeral.padded 9 n).reverse.takeWhile (· == '0') ++
          (Numeral.padded 9 n).reverse.dropWhile (· == '0')).reverse := by
        rw [List.takeWhile_append_dropWhile, List.reverse_reverse]
    _ = fractionDigits n ++ ((Numeral.padded 9 n).reverse.takeWhile (· == '0')).reverse := by
        rw [List.reverse_append]
        rfl
    _ = _ := by rw [hz, List.reverse_replicate, List.length_replicate]

theorem isDigit_of_mem_fractionDigits {n : Nat} {c : Char} (h : c ∈ fractionDigits n) :
    c.isDigit = true := by
  obtain ⟨k, hk⟩ := padded_eq_fractionDigits n
  exact Numeral.isDigit_of_mem_padded (hk ▸ List.mem_append_left _ h)

theorem read_fractionDigits {n : Nat} (h : n < 1_000_000_000) :
    Numeral.read (fractionDigits n) * Nat.pow 10 9 / Nat.pow 10 (fractionDigits n).length = n := by
  obtain ⟨k, hk⟩ := padded_eq_fractionDigits n
  have hlen : (fractionDigits n).length + k = 9 := by
    have := congrArg List.length hk
    rw [Numeral.length_padded (by decide) h, List.length_append, List.length_replicate] at this
    exact this.symm
  have hread : Numeral.read (fractionDigits n) * Nat.pow 10 k = n := by
    have := congrArg Numeral.read hk
    rw [Numeral.read_padded, Numeral.read_append, Numeral.read_replicate_zero,
      List.length_replicate] at this
    exact this.symm
  refine Nat.div_eq_of_eq_mul_left (Nat.pow_pos (by decide)) ?_
  calc Numeral.read (fractionDigits n) * Nat.pow 10 9
      = Numeral.read (fractionDigits n) * (Nat.pow 10 k * Nat.pow 10 (fractionDigits n).length) := by
        rw [← hlen, Nat.add_comm]
        exact congrArg _ (Nat.pow_add 10 k _)
    _ = n * Nat.pow 10 (fractionDigits n).length := by rw [← Nat.mul_assoc, hread]

theorem fractionDigits_ne_nil {n : Nat} (hn : n ≠ 0) (h : n < 1_000_000_000) :
    fractionDigits n ≠ [] := by
  intro hnil
  have := read_fractionDigits h
  rw [hnil] at this
  exact hn this.symm

end Lexical

def printedFraction (n : Nat) : Option Digits :=
  if h : n ≠ 0 ∧ n < 1_000_000_000 then
    some ⟨Lexical.fractionDigits n, Lexical.fractionDigits_ne_nil h.1 h.2,
      fun _ => Lexical.isDigit_of_mem_fractionDigits⟩
  else none

def printedSeconds (n nanos : Nat) : Option Amount :=
  if n = 0 ∧ nanos = 0 then none else some ⟨.ofNat n, printedFraction nanos⟩

theorem printedSeconds_totals (n : Nat) {nanos : Nat} (h : nanos < 1_000_000_000) :
    wholeCount (printedSeconds n nanos) = n ∧
      (printedSeconds n nanos).elim 0 Amount.nanos = nanos := by
  unfold printedSeconds
  split
  case isTrue hz => exact ⟨hz.1.symm, hz.2.symm⟩
  case isFalse =>
    refine ⟨Digits.ofNat_value n, ?_⟩
    unfold printedFraction
    by_cases hn : nanos = 0
    · simp [Amount.nanos, hn]
    · simpa [Amount.nanos, Digits.value, hn, h] using Lexical.read_fractionDigits h

theorem printedSeconds_chars (n : Nat) {nanos : Nat} (h : nanos < 1_000_000_000) :
    Slot.chars ⟨'S', printedSeconds n nanos⟩ = Lexical.seconds n nanos := by
  unfold printedSeconds Lexical.seconds
  split
  · rfl
  · unfold printedFraction
    by_cases hn : nanos = 0
    · simp [Slot.chars, Amount.chars, Digits.ofNat, hn]
    · simp [Slot.chars, Amount.chars, Digits.ofNat, hn, h]

namespace Spelling

def ofTotals (negative : Bool) (months nanos : Nat) : Spelling where
  negative := negative
  years := printed (months / 12)
  months := printed (months % 12)
  days := printed (nanos / 1_000_000_000 / 86400)
  hours := printed (nanos / 1_000_000_000 % 86400 / 3600)
  minutes := printed (nanos / 1_000_000_000 % 86400 / 60 % 60)
  seconds := printedSeconds (nanos / 1_000_000_000 % 86400 % 60) (nanos % 1_000_000_000)

theorem totalMonths_ofTotals (negative : Bool) (months nanos : Nat) :
    (ofTotals negative months nanos).totalMonths = months := by
  unfold totalMonths ofTotals
  simp only [count_printed]
  omega

theorem totalNanos_ofTotals (negative : Bool) (months nanos : Nat) :
    (ofTotals negative months nanos).totalNanos = nanos := by
  obtain ⟨hs, hn⟩ := printedSeconds_totals (nanos / 1_000_000_000 % 86400 % 60)
    (Nat.mod_lt nanos (show 0 < 1_000_000_000 by decide))
  unfold totalNanos totalSeconds ofTotals
  simp only [count_printed, hs, hn]
  omega

theorem printed_isSome (n : Nat) : (printed n).isSome = true ↔ n ≠ 0 := by
  unfold printed
  split <;> simp_all

theorem hasTime_ofTotals (negative : Bool) (months nanos : Nat) :
    (ofTotals negative months nanos).hasTime = true ↔
      ¬(nanos / 1_000_000_000 % 86400 = 0 ∧ nanos % 1_000_000_000 = 0) := by
  have hs : (printedSeconds (nanos / 1_000_000_000 % 86400 % 60)
        (nanos % 1_000_000_000)).isSome = true ↔
      ¬(nanos / 1_000_000_000 % 86400 % 60 = 0 ∧ nanos % 1_000_000_000 = 0) := by
    unfold printedSeconds
    split <;> simp_all
  simp only [hasTime, ofTotals, Bool.or_eq_true, printed_isSome, hs]
  omega

theorem spelled_time_ofTotals (negative : Bool) (months nanos : Nat) :
    (if (ofTotals negative months nanos).hasTime then
      'T' :: Lexical.spelled (ofTotals negative months nanos).time else []) =
    Lexical.time (nanos / 1_000_000_000 % 86400) (nanos % 1_000_000_000) := by
  unfold Lexical.time
  by_cases h : nanos / 1_000_000_000 % 86400 = 0 ∧ nanos % 1_000_000_000 = 0
  · rw [if_pos h, if_neg fun ht => (hasTime_ofTotals ..).1 ht h]
  · rw [if_neg h, if_pos ((hasTime_ofTotals ..).2 h)]
    have hn : nanos % 1_000_000_000 < 1_000_000_000 := Nat.mod_lt _ (by decide)
    simp [Lexical.spelled, time, timeSlots, ofTotals, printed_chars, printedSeconds_chars _ hn]

theorem body_ofTotals (negative : Bool) (months nanos : Nat) :
    (ofTotals negative months nanos).body = Lexical.yearMonth months ++ Lexical.dayTime nanos := by
  unfold body
  rw [spelled_time_ofTotals]
  simp [Lexical.spelled, date, dateSlots, ofTotals, printed_chars, Lexical.yearMonth,
    Lexical.dayTime]

theorem sign_mul_natAbs (w : Spelling) {n : Int} (h : if w.negative then n ≤ 0 else 0 ≤ n) :
    w.sign * n.natAbs = n := by
  unfold sign
  split at h
  case isTrue hn =>
    rw [if_pos hn]
    omega
  case isFalse hn =>
    rw [if_neg hn]
    omega

theorem hasMonths_ofTotals (negative : Bool) (months nanos : Nat) :
    (ofTotals negative months nanos).hasMonths = true ↔ months ≠ 0 := by
  simp only [hasMonths, ofTotals, Bool.or_eq_true, printed_isSome]
  omega

theorem hasSpan_ofTotals (negative : Bool) (months nanos : Nat) :
    (ofTotals negative months nanos).hasSpan = true ↔ nanos ≠ 0 := by
  have hd : (ofTotals negative months nanos).days.isSome = true ↔
      nanos / 1_000_000_000 / 86400 ≠ 0 := printed_isSome _
  rw [hasSpan, Bool.or_eq_true, hd, hasTime_ofTotals]
  omega

theorem ofTotals_admitted {kind : Kind} (negative : Bool) {months nanos : Nat}
    (hne : months ≠ 0 ∨ nanos ≠ 0) (hy : kind = .yearMonth → nanos = 0)
    (hd : kind = .dayTime → months = 0) (hm : months ≤ 2_147_483_647)
    (hn : (nanos : Int) ≤ Delta.limit) : (ofTotals negative months nanos).Admitted kind where
  component := by rwa [hasMonths_ofTotals, hasSpan_ofTotals]
  months_only h := by
    rw [Bool.eq_false_iff, Ne, hasSpan_ofTotals, not_not]
    exact hy h
  span_only h := by
    rw [Bool.eq_false_iff, Ne, hasMonths_ofTotals, not_not]
    exact hd h
  months_le := by rwa [totalMonths_ofTotals]
  nanos_le := by rwa [totalNanos_ofTotals]

theorem not_isBlank_of_mem_chars {w : Spelling} {c : Char} (hc : c ∈ w.chars) :
    Text.isBlank c = false := by
  have spelled (slots : List Slot) (hs : ∀ d ∈ slots.map Slot.designator, Text.isBlank d = false)
      (hc : c ∈ Lexical.spelled slots) : Text.isBlank c = false := by
    obtain h | rfl | h := Lexical.isDigit_of_mem_spelled hc
    · exact not_isBlank_of_isDigit h
    · decide
    · exact hs c h
  have body (hc : c ∈ 'P' :: w.body) : Text.isBlank c = false := by
    obtain rfl | hc := List.mem_cons.1 hc
    · decide
    · obtain hc | hc := List.mem_append.1 hc
      · have hd : ∀ d ∈ ['Y', 'M', 'D'], Text.isBlank d = false := by
          rw [List.forall_mem_cons, List.forall_mem_cons, List.forall_mem_singleton]
          decide
        exact spelled w.date hd hc
      · split at hc
        · obtain rfl | hc := List.mem_cons.1 hc
          · decide
          · have hd : ∀ d ∈ ['H', 'M', 'S'], Text.isBlank d = false := by
              rw [List.forall_mem_cons, List.forall_mem_cons, List.forall_mem_singleton]
              decide
            exact spelled w.time hd hc
        · cases hc
  unfold chars Lexical.withSign at hc
  split at hc
  · obtain rfl | hc := List.mem_cons.1 hc
    · decide
    · exact body hc
  · exact body hc

end Spelling

theorem parse?_chars {kind : Kind} {w : Spelling} (hw : w.Admitted kind) {d : Duration}
    (hm : d.months.toInt = w.sign * w.totalMonths) (hn : d.delta.nanos = w.sign * w.totalNanos) :
    parse? kind (String.ofList w.chars) = some d := by
  unfold parse?
  rw [String.toList_ofList, Text.trim_eq_self fun _ => Spelling.not_isBlank_of_mem_chars]
  exact ofLexical?_eq_some_iff.2 ⟨w, rfl, hw, hm, hn⟩

def SameSign (d : Duration) : Prop :=
  (0 ≤ d.months.toInt ∧ 0 ≤ d.delta.nanos) ∨ (d.months.toInt ≤ 0 ∧ d.delta.nanos ≤ 0)

instance (d : Duration) : Decidable d.SameSign := inferInstanceAs (Decidable (_ ∨ _))

theorem SameSign.signs {d : Duration} (h : d.SameSign) :
    (if d.isNegative then d.months.toInt ≤ 0 else 0 ≤ d.months.toInt) ∧
      if d.isNegative then d.delta.nanos ≤ 0 else 0 ≤ d.delta.nanos := by
  have hn : d.isNegative = true ↔ d.months.toInt < 0 ∨ d.delta.nanos < 0 := by simp [isNegative]
  unfold SameSign at h
  by_cases hd : d.isNegative = true
  · rw [if_pos hd, if_pos hd]
    have := hn.1 hd
    omega
  · rw [if_neg hd, if_neg hd]
    have := mt hn.2 hd
    omega

theorem parse?_printed {kind : Kind} {d : Duration} (hne : d.months.toInt ≠ 0 ∨ d.delta.nanos ≠ 0)
    (hy : kind = .yearMonth → d.delta.nanos = 0) (hd : kind = .dayTime → d.months.toInt = 0)
    (hm : d.months ≠ Int32.minValue) (hs : d.SameSign) :
    parse? kind (String.ofList (Lexical.withSign d.isNegative ('P' ::
      (Lexical.yearMonth d.months.toInt.natAbs ++ Lexical.dayTime d.delta.nanos.natAbs)))) =
      some d := by
  obtain ⟨hl, hu⟩ := Word.fits_toInt d.months
  have hmin : d.months.toInt ≠ -2147483648 := fun h => hm (Int32.toInt_inj.1 (h.trans (by decide)))
  obtain ⟨hbl, hbu⟩ := d.delta.bounded
  unfold Delta.limit at hbl hbu
  let w := Spelling.ofTotals d.isNegative d.months.toInt.natAbs d.delta.nanos.natAbs
  have hw : w.Admitted kind :=
    Spelling.ofTotals_admitted d.isNegative (by omega) (fun h => by rw [hy h]; rfl)
      (fun h => by rw [hd h]; rfl) (by omega) (by unfold Delta.limit; omega)
  have hchars : w.chars = Lexical.withSign d.isNegative ('P' ::
      (Lexical.yearMonth d.months.toInt.natAbs ++ Lexical.dayTime d.delta.nanos.natAbs)) := by
    rw [← Spelling.body_ofTotals d.isNegative]
    rfl
  rw [← hchars]
  refine parse?_chars hw ?_ ?_
  · rw [Spelling.totalMonths_ofTotals, w.sign_mul_natAbs hs.signs.1]
  · rw [Spelling.totalNanos_ofTotals, w.sign_mul_natAbs hs.signs.2]

theorem Lexical.yearMonth_eq_nil_iff {n : Nat} : Lexical.yearMonth n = [] ↔ n = 0 := by
  unfold Lexical.yearMonth
  rw [List.append_eq_nil_iff]
  constructor
  · rintro ⟨hy, hm⟩
    split at hy
    · split at hm
      · omega
      · simp at hm
    · simp at hy
  · rintro rfl
    exact ⟨rfl, rfl⟩

theorem Lexical.dayTime_eq_nil_iff {n : Nat} : Lexical.dayTime n = [] ↔ n = 0 := by
  unfold Lexical.dayTime Lexical.time
  rw [List.append_eq_nil_iff]
  constructor
  · rintro ⟨hd, ht⟩
    split at hd
    · split at ht
      · omega
      · simp at ht
    · simp at hd
  · rintro rfl
    exact ⟨rfl, rfl⟩

theorem monthsLexical_eq {m : Int32} (h : m.toInt ≠ 0) : monthsLexical m =
    Lexical.withSign (ofMonths m).isNegative ('P' ::
      (Lexical.yearMonth m.toInt.natAbs ++ Lexical.dayTime Delta.zero.nanos.natAbs)) := by
  have hn : (ofMonths m).isNegative = decide (m.toInt < 0) := Bool.or_false _
  have hd : Lexical.dayTime Delta.zero.nanos.natAbs = [] := rfl
  rw [hn, hd, List.append_nil]
  unfold monthsLexical
  split
  case h_1 h' => exact absurd (Lexical.yearMonth_eq_nil_iff.1 h') (by omega)
  case h_2 => rfl

theorem deltaLexical_eq {d : Delta} (h : d.nanos ≠ 0) : deltaLexical d =
    Lexical.withSign (ofDelta d).isNegative ('P' ::
      (Lexical.yearMonth (0 : Int32).toInt.natAbs ++ Lexical.dayTime d.nanos.natAbs)) := by
  have hn : (ofDelta d).isNegative = decide (d.nanos < 0) := Bool.false_or _
  have hm : Lexical.yearMonth (0 : Int32).toInt.natAbs = [] := rfl
  rw [hn, hm, List.nil_append]
  unfold deltaLexical
  split
  case h_1 h' => exact absurd (Lexical.dayTime_eq_nil_iff.1 h') (by omega)
  case h_2 => rfl

theorem parse?_zero : parse? .yearMonth (String.ofList (monthsLexical 0)) = some (.ofMonths 0) ∧
    parse? .dayTime (String.ofList (deltaLexical .zero)) = some (.ofDelta .zero) ∧
    parse? .full (String.ofList (fullLexical ⟨0, .zero⟩)) = some ⟨0, .zero⟩ := by
  unfold parse?
  rw [String.toList_ofList, String.toList_ofList, String.toList_ofList]
  decide +kernel

theorem parse?_monthsLexical {m : Int32} (hm : m ≠ Int32.minValue) :
    parse? .yearMonth (String.ofList (monthsLexical m)) = some (.ofMonths m) := by
  by_cases h0 : m.toInt = 0
  · obtain rfl : m = 0 := Int32.toInt_inj.1 h0
    exact parse?_zero.1
  · rw [monthsLexical_eq h0]
    have hs : (ofMonths m).SameSign := by
      have : (ofMonths m).delta.nanos = 0 := rfl
      have : (ofMonths m).months = m := rfl
      unfold SameSign
      omega
    exact parse?_printed (.inl h0) (fun _ => rfl) nofun hm hs

theorem parse?_deltaLexical (d : Delta) :
    parse? .dayTime (String.ofList (deltaLexical d)) = some (.ofDelta d) := by
  by_cases h0 : d.nanos = 0
  · obtain rfl : d = .zero := Delta.ofNanos?_eq_some_iff.2 h0 |>.symm.trans rfl |> Option.some.inj
    exact parse?_zero.2.1
  · rw [deltaLexical_eq h0]
    have hs : (ofDelta d).SameSign := by
      have : (ofDelta d).months.toInt = 0 := rfl
      have : (ofDelta d).delta = d := rfl
      unfold SameSign
      omega
    have hm : (0 : Int32) ≠ Int32.minValue := by decide
    exact parse?_printed (.inr h0) nofun (fun _ => rfl) hm hs

theorem fullLexical_eq {d : Duration} (h : d.months.toInt ≠ 0 ∨ d.delta.nanos ≠ 0) :
    d.fullLexical = Lexical.withSign d.isNegative ('P' ::
      (Lexical.yearMonth d.months.toInt.natAbs ++ Lexical.dayTime d.delta.nanos.natAbs)) := by
  have hbody :
      Lexical.yearMonth d.months.toInt.natAbs ++ Lexical.dayTime d.delta.nanos.natAbs ≠ [] := by
    rw [Ne, List.append_eq_nil_iff, Lexical.yearMonth_eq_nil_iff, Lexical.dayTime_eq_nil_iff]
    omega
  unfold fullLexical
  dsimp only
  rw [if_neg hbody]

theorem parse?_fullLexical {d : Duration} (hm : d.months ≠ Int32.minValue) (hs : d.SameSign) :
    parse? .full (String.ofList d.fullLexical) = some d := by
  by_cases h0 : d.months.toInt = 0 ∧ d.delta.nanos = 0
  · obtain rfl : d = ⟨0, .zero⟩ := Lexical.eq_of_toInt_eq h0.1 h0.2
    exact parse?_zero.2.2
  · have hne : d.months.toInt ≠ 0 ∨ d.delta.nanos ≠ 0 := by omega
    rw [fullLexical_eq hne]
    exact parse?_printed hne nofun nofun hm hs

end PullQuery.Duration
