import PullQuery.Number.Word
import PullQuery.Proofs.Calendar.Days

namespace PullQuery

namespace Calendar

def Leap (year : Int) : Prop := 4 ∣ year ∧ (100 ∣ year → 400 ∣ year)

inductive MonthHas (year : Int) : Nat → Nat → Prop
  | long {month : Nat} (h : month ∈ [1, 3, 5, 7, 8, 10, 12]) : MonthHas year month 31
  | short {month : Nat} (h : month ∈ [4, 6, 9, 11]) : MonthHas year month 30
  | leapFebruary (h : Leap year) : MonthHas year 2 29
  | commonFebruary (h : ¬Leap year) : MonthHas year 2 28

theorem leap_iff (year : Int) : Leap year ↔ isLeap year = true := by
  rw [isLeap_iff]
  unfold Leap
  omega

theorem MonthHas.eq {year : Int} {month n : Nat} (h : MonthHas year month n) :
    n = monthLength year month := by
  cases h with
  | long h =>
    simp only [List.mem_cons, List.not_mem_nil, or_false] at h
    obtain rfl | rfl | rfl | rfl | rfl | rfl | rfl := h <;> rfl
  | short h =>
    simp only [List.mem_cons, List.not_mem_nil, or_false] at h
    obtain rfl | rfl | rfl | rfl := h <;> rfl
  | leapFebruary h => exact (if_pos ((leap_iff year).1 h)).symm
  | commonFebruary h => exact (if_neg (mt (leap_iff year).2 h)).symm

theorem monthHas (year : Int) {month : Nat} (h : 1 ≤ month ∧ month ≤ 12) :
    MonthHas year month (monthLength year month) := by
  have hmonth : month ∈ [1, 3, 5, 7, 8, 10, 12] ∨ month ∈ [4, 6, 9, 11] ∨ month = 2 := by
    simp only [List.mem_cons, List.not_mem_nil, or_false]
    omega
  obtain ⟨n, hn⟩ : ∃ n, MonthHas year month n := by
    obtain hl | hs | rfl := hmonth
    · exact ⟨31, .long hl⟩
    · exact ⟨30, .short hs⟩
    · by_cases hleap : Leap year
      · exact ⟨29, .leapFebruary hleap⟩
      · exact ⟨28, .commonFebruary hleap⟩
  exact hn.eq ▸ hn

theorem MonthHas.shortest {year : Int} {month n : Nat} (h : MonthHas year month n) : 28 ≤ n := by
  cases h <;> omega

end Calendar

open Calendar

namespace Date

def monthIndex (d : Date) : Int := 12 * d.year + d.month

theorem ofCivil?_isSome_iff {year : Int} {month n : Nat} (hm : 1 ≤ month ∧ month ≤ 12)
    (hn : MonthHas year month n) (day : Nat) : (ofCivil? year month day).isSome = true ↔
      (leastYear ≤ year ∧ year ≤ greatestYear) ∧ 1 ≤ day ∧ day ≤ n := by
  unfold ofCivil?
  rw [hn.eq]
  by_cases h : (leastYear ≤ year ∧ year ≤ greatestYear) ∧ 1 ≤ day ∧ day ≤ monthLength year month
  · simp [h, hm]
  · simp [h, hm]

theorem exists_month (i : Int) :
    ∃ (year : Int) (month : Nat), (1 ≤ month ∧ month ≤ 12) ∧ 12 * year + month = i := by
  refine ⟨(i - 1) / 12, ((i - 1) % 12).toNat + 1, ?_, ?_⟩ <;> omega

theorem addMonths?_eq {d : Date} {m year : Int} {month n : Nat} (hm : 1 ≤ month ∧ month ≤ 12)
    (hi : 12 * year + month = d.monthIndex + m) (hn : MonthHas year month n) :
    d.addMonths? m = ofCivil? year month (min d.day n) := by
  have hd := d.month_exists
  unfold monthIndex at hi
  have hy : (12 * d.year + (d.month - 1 : Nat) + m) / 12 = year := by omega
  have hmonth : ((12 * d.year + (d.month - 1 : Nat) + m) % 12).toNat + 1 = month := by omega
  unfold addMonths?
  dsimp only
  rw [hy, hmonth, ← hn.eq]

theorem addMonths?_eq_none_iff {d : Date} {m year : Int} {month : Nat}
    (hm : 1 ≤ month ∧ month ≤ 12) (hi : 12 * year + month = d.monthIndex + m) :
    d.addMonths? m = none ↔ ¬(leastYear ≤ year ∧ year ≤ greatestYear) := by
  have hn := monthHas year hm
  have hday : 1 ≤ min d.day (monthLength year month) ∧
      min d.day (monthLength year month) ≤ monthLength year month := by
    have := d.day_exists
    have := hn.shortest
    omega
  rw [addMonths?_eq hm hi hn, ← Option.not_isSome_iff_eq_none, ofCivil?_isSome_iff hm hn,
    and_iff_left hday]

theorem addMonths?_eq_some_iff {d e : Date} {m : Int} :
    d.addMonths? m = some e ↔ e.monthIndex = d.monthIndex + m ∧
      ∃ n, MonthHas e.year e.month n ∧ e.day = min d.day n := by
  constructor
  · intro h
    obtain ⟨year, month, hm, hi⟩ := exists_month (d.monthIndex + m)
    have hn := monthHas year hm
    rw [addMonths?_eq hm hi hn] at h
    obtain ⟨rfl, rfl, hday⟩ := ofCivil?_eq_some_iff.1 h
    exact ⟨hi, _, hn, hday⟩
  · rintro ⟨hi, n, hn, hday⟩
    rw [addMonths?_eq e.month_exists hi hn]
    exact ofCivil?_eq_some_iff.2 ⟨rfl, rfl, hday⟩

theorem eq_of_monthIndex {d e : Date} (h : d.monthIndex = e.monthIndex) :
    d.year = e.year ∧ d.month = e.month := by
  have := d.month_exists
  have := e.month_exists
  unfold monthIndex at h
  omega

theorem toDays_le_iff (d e : Date) : d.toDays ≤ e.toDays ↔
    d.monthIndex < e.monthIndex ∨ d.monthIndex = e.monthIndex ∧ d.day ≤ e.day := by
  have hd := d.month_exists
  have he := e.month_exists
  obtain h | rfl | h := before_cases d e
  · have hlt := toDays_lt h
    unfold Before at h
    unfold monthIndex
    omega
  · omega
  · have hlt := toDays_lt h
    unfold Before at h
    unfold monthIndex
    omega

theorem addMonths?_mono {d e d' e' : Date} {m : Int} (h : d.toDays ≤ e.toDays)
    (hd : d.addMonths? m = some d') (he : e.addMonths? m = some e') : d'.toDays ≤ e'.toDays := by
  obtain ⟨hdi, n, hn, hday⟩ := addMonths?_eq_some_iff.1 hd
  obtain ⟨hei, k, hk, heday⟩ := addMonths?_eq_some_iff.1 he
  rw [toDays_le_iff] at h ⊢
  obtain hlt | ⟨heq, hle⟩ := h
  · left
    omega
  · right
    have hindex : d'.monthIndex = e'.monthIndex := by omega
    obtain ⟨hyear, hmonth⟩ := eq_of_monthIndex hindex
    have hnk : n = k := by rw [hn.eq, hk.eq, hyear, hmonth]
    refine ⟨hindex, ?_⟩
    omega

theorem day_of_addMonths? {d e : Date} {m : Int} (h : d.day ≤ 28) (he : d.addMonths? m = some e) :
    e.day = d.day := by
  obtain ⟨-, n, hn, hday⟩ := addMonths?_eq_some_iff.1 he
  have := hn.shortest
  omega

theorem addMonths?_add {d e : Date} {m : Int} (h : d.day ≤ 28) (he : d.addMonths? m = some e)
    (k : Int) : e.addMonths? k = d.addMonths? (m + k) := by
  obtain ⟨year, month, hm, hi⟩ := exists_month (e.monthIndex + k)
  have hd : 12 * year + month = d.monthIndex + (m + k) := by
    have := (addMonths?_eq_some_iff.1 he).1
    omega
  have hn := monthHas year hm
  rw [addMonths?_eq hm hi hn, addMonths?_eq hm hd hn, day_of_addMonths? h he]

theorem addMonths?_neg {d e : Date} {m : Int} (h : d.day ≤ 28) (he : d.addMonths? m = some e) :
    e.addMonths? (-m) = some d := by
  rw [addMonths?_add h he, Int.add_right_neg, addMonths?_zero]

theorem fits_monthIndex (d : Date) : Word.Fits (12 * d.year) ∧ Word.Fits (d.monthIndex - 1) := by
  have hy := d.year_supported
  have hm := d.month_exists
  unfold leastYear greatestYear at hy
  unfold Word.Fits monthIndex
  omega

theorem fits_of_addMonths? {d : Date} {m : Int} (h : (d.addMonths? m).isSome = true) :
    Word.Fits (d.monthIndex - 1 + m) := by
  obtain ⟨e, he⟩ := Option.isSome_iff_exists.1 h
  have hi := (addMonths?_eq_some_iff.1 he).1
  have hf := e.fits_monthIndex.2
  rwa [hi, Int.sub_eq_add_neg, Int.add_right_comm] at hf

end Date

/-- A date moves by months exactly: to the month of that count, if its year is supported, and to the
same day of it or the last one. Moving keeps the order of dates, and on days that every month has
it is an action of the integers. -/
theorem months_move_dates (d : Date) (m : Int) :
    (∃ (year : Int) (month n : Nat), (1 ≤ month ∧ month ≤ 12) ∧
      12 * year + month = d.monthIndex + m ∧ MonthHas year month n ∧
      (d.addMonths? m = none ↔ ¬(leastYear ≤ year ∧ year ≤ greatestYear)) ∧
      (∀ e, d.addMonths? m = some e → e.year = year ∧ e.month = month ∧ e.day = min d.day n) ∧
      ∀ day, (Date.ofCivil? year month day).isSome = true ↔
        (leastYear ≤ year ∧ year ≤ greatestYear) ∧ 1 ≤ day ∧ day ≤ n) ∧
    (Word.Fits (12 * d.year) ∧ Word.Fits (d.monthIndex - 1) ∧
      ((d.addMonths? m).isSome = true → Word.Fits (d.monthIndex - 1 + m))) ∧
    (∀ e d' e' : Date, d.toDays ≤ e.toDays → d.addMonths? m = some d' → e.addMonths? m = some e' →
      d'.toDays ≤ e'.toDays) ∧
    (d.day ≤ 28 → ∀ e, d.addMonths? m = some e →
      (∀ k, e.addMonths? k = d.addMonths? (m + k)) ∧ e.addMonths? (-m) = some d) := by
  obtain ⟨year, month, hm, hi⟩ := Date.exists_month (d.monthIndex + m)
  have hn := monthHas year hm
  refine ⟨⟨year, month, _, hm, hi, hn, Date.addMonths?_eq_none_iff hm hi, ?_,
    Date.ofCivil?_isSome_iff hm hn⟩, ?_, ?_, ?_⟩
  · intro e he
    rw [Date.addMonths?_eq hm hi hn] at he
    exact Date.ofCivil?_eq_some_iff.1 he
  · exact ⟨d.fits_monthIndex.1, d.fits_monthIndex.2, Date.fits_of_addMonths?⟩
  · intro e d' e' h hd he
    exact Date.addMonths?_mono h hd he
  · intro hday e he
    exact ⟨Date.addMonths?_add hday he, Date.addMonths?_neg hday he⟩

end PullQuery
