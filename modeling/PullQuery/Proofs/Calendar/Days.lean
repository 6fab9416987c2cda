import PullQuery.Calendar.Date

namespace PullQuery

namespace Calendar

def yearLength (year : Int) : Nat := if isLeap year then 366 else 365

theorem isLeap_iff (year : Int) :
    isLeap year = true ↔ year % 4 = 0 ∧ (year % 100 ≠ 0 ∨ year % 400 = 0) := by
  simp [isLeap]

theorem yearStart_succ (year : Int) : yearStart (year + 1) = yearStart year + yearLength year := by
  have h := isLeap_iff year
  unfold yearStart yearLength
  split
  case isTrue hl =>
    have := h.1 hl
    omega
  case isFalse hl =>
    have : ¬(year % 4 = 0 ∧ (year % 100 ≠ 0 ∨ year % 400 = 0)) := fun hc => hl (h.2 hc)
    omega

theorem yearStart_le {y z : Int} (h : y ≤ z) : yearStart y ≤ yearStart z := by
  unfold yearStart
  omega

theorem yearStart_near (year : Int) :
    146097 * year - 400 < 400 * yearStart year ∧ 400 * yearStart year < 146097 * year + 800 := by
  unfold yearStart
  omega

theorem year_unique {y z n : Int} (hy : yearStart y ≤ n ∧ n < yearStart (y + 1))
    (hz : yearStart z ≤ n ∧ n < yearStart (z + 1)) : y = z := by
  by_cases hlt : y < z
  · have := yearStart_le (show y + 1 ≤ z by omega)
    omega
  · by_cases hgt : z < y
    · have := yearStart_le (show z + 1 ≤ y by omega)
      omega
    · omega

theorem monthStart_succ (year : Int) {month : Nat} (h : 1 ≤ month) :
    monthStart year (month + 1) = monthStart year month + monthLength year month := by
  cases month with
  | zero => omega
  | succ m => rfl

theorem monthStart_thirteen (year : Int) : monthStart year 13 = yearLength year := by
  simp only [monthStart, monthLength, yearLength]
  split <;> rfl

theorem monthStart_next_le (year : Int) {m n : Nat} (hm : 1 ≤ m) (h : m < n) :
    monthStart year m + monthLength year m ≤ monthStart year n := by
  induction n with
  | zero => omega
  | succ n ih =>
    by_cases hn : m = n
    · rw [hn]
      exact Nat.le_of_eq (monthStart_succ year (by omega)).symm
    · have := ih (by omega)
      rw [monthStart_succ year (by omega)]
      omega

theorem monthEnd_le (year : Int) {month : Nat} (h : 1 ≤ month ∧ month ≤ 12) :
    monthStart year month + monthLength year month ≤ yearLength year := by
  rw [← monthStart_thirteen]
  exact monthStart_next_le year h.1 (by omega)

end Calendar

open Calendar

namespace Date

theorem ofCivil?_eq_some_iff {year : Int} {month day : Nat} {d : Date} :
    ofCivil? year month day = some d ↔ d.year = year ∧ d.month = month ∧ d.day = day := by
  constructor
  · intro h
    unfold ofCivil? at h
    split at h
    case isTrue => cases h; exact ⟨rfl, rfl, rfl⟩
    case isFalse => cases h
  · rintro ⟨rfl, rfl, rfl⟩
    exact ofCivil?_self d

theorem addMonths?_zero (d : Date) : d.addMonths? 0 = some d := by
  have hm := d.month_exists
  have hd := d.day_exists
  have hy : (12 * d.year + (d.month - 1 : Nat) + 0) / 12 = d.year := by omega
  have hmonth : ((12 * d.year + (d.month - 1 : Nat) + 0) % 12).toNat + 1 = d.month := by omega
  unfold addMonths?
  dsimp only
  rw [hy, hmonth, Nat.min_eq_left hd.2]
  exact ofCivil?_self d

def Before (d e : Date) : Prop :=
  d.year < e.year ∨ d.year = e.year ∧ (d.month < e.month ∨ d.month = e.month ∧ d.day < e.day)

theorem before_cases (d e : Date) : d.Before e ∨ d = e ∨ e.Before d := by
  unfold Before
  by_cases h : e.year = d.year ∧ e.month = d.month ∧ e.day = d.day
  · have he := ofCivil?_eq_some_iff.2 h
    rw [ofCivil?_self] at he
    exact .inr (.inl (Option.some.inj he))
  · omega

theorem toDays_bounds (d : Date) :
    yearStart d.year ≤ d.toDays ∧ d.toDays < yearStart (d.year + 1) := by
  have hm := monthEnd_le d.year d.month_exists
  have hd := d.day_exists
  rw [yearStart_succ]
  unfold toDays
  omega

theorem toDays_lt {d e : Date} (h : d.Before e) : d.toDays < e.toDays := by
  obtain hy | ⟨hy, hm | ⟨hm, hd⟩⟩ := h
  · have hd := d.toDays_bounds
    have he := e.toDays_bounds
    have := yearStart_le (show d.year + 1 ≤ e.year by omega)
    omega
  · have := monthStart_next_le d.year d.month_exists.1 hm
    have hd := d.day_exists
    have he := e.day_exists
    unfold toDays
    rw [← hy]
    omega
  · have := d.day_exists
    unfold toDays
    rw [← hy, ← hm]
    omega

theorem toDays_injective {d e : Date} (h : d.toDays = e.toDays) : d = e := by
  obtain hb | he | hb := before_cases d e
  · have := toDays_lt hb
    omega
  · exact he
  · have := toDays_lt hb
    omega

theorem yearOfDay_bounds (n : Int) :
    yearStart (yearOfDay n) ≤ n ∧ n < yearStart (yearOfDay n + 1) := by
  have hg := yearStart_near (n * 400 / 146097)
  have hg1 := yearStart_near (n * 400 / 146097 + 1)
  have hp := yearStart_near (n * 400 / 146097 - 1)
  have hn := yearStart_near (n * 400 / 146097 + 1 + 1)
  unfold yearOfDay
  dsimp only
  split
  case isTrue h =>
    rw [Int.sub_add_cancel]
    omega
  case isFalse h =>
    split
    case isTrue h1 => omega
    case isFalse h1 => omega

theorem monthOfDay_spec (year : Int) {fuel month n : Nat} (hf : month + fuel = 12) (h1 : 1 ≤ month)
    (hn : monthStart year month + n < yearLength year) :
    ∃ m day, monthOfDay year fuel month n = (m, day) ∧ (1 ≤ m ∧ m ≤ 12) ∧
      (1 ≤ day ∧ day ≤ monthLength year m) ∧
      monthStart year m + (day - 1) = monthStart year month + n := by
  -- The fuel is the months left, so that December is reached when it runs out.
  induction fuel generalizing month n with
  | zero =>
    obtain rfl : month = 12 := by omega
    have hs := monthStart_succ year (show 1 ≤ 12 by omega)
    rw [monthStart_thirteen] at hs
    exact ⟨12, n + 1, rfl, by omega, by omega, by omega⟩
  | succ fuel ih =>
    unfold monthOfDay
    dsimp only
    split
    case isTrue hlt => exact ⟨month, n + 1, rfl, by omega, by omega, by omega⟩
    case isFalse hge =>
      have hs := monthStart_succ year h1
      have hrest :
          monthStart year (month + 1) + (n - monthLength year month) < yearLength year := by
        omega
      obtain ⟨m, day, he, hm, hd, hsum⟩ := ih (by omega) (by omega) hrest
      exact ⟨m, day, he, hm, hd, by omega⟩

theorem exists_civil (n : Int) : ∃ month day, ofDays? n = ofCivil? (yearOfDay n) month day ∧
    (1 ≤ month ∧ month ≤ 12) ∧ (1 ≤ day ∧ day ≤ monthLength (yearOfDay n) month) ∧
      yearStart (yearOfDay n) + monthStart (yearOfDay n) month + (day - 1 : Nat) = n := by
  have hy := yearOfDay_bounds n
  rw [yearStart_succ] at hy
  have hs : monthStart (yearOfDay n) 1 = 0 := rfl
  have hn : monthStart (yearOfDay n) 1 + (n - yearStart (yearOfDay n)).toNat <
      yearLength (yearOfDay n) := by
    omega
  obtain ⟨m, day, he, hm, hd, hsum⟩ :=
    monthOfDay_spec (yearOfDay n) (show 1 + 11 = 12 by rfl) (Nat.le_refl 1) hn
  refine ⟨m, day, ?_, hm, hd, by omega⟩
  unfold ofDays?
  dsimp only
  rw [he]

theorem ofDays?_eq_some_iff {n : Int} {d : Date} : ofDays? n = some d ↔ d.toDays = n := by
  obtain ⟨month, day, he, hm, hd, hsum⟩ := exists_civil n
  rw [he]
  constructor
  · intro h
    obtain ⟨hy, rfl, rfl⟩ := ofCivil?_eq_some_iff.1 h
    unfold toDays
    rw [hy, hsum]
  · intro h
    have hy : yearOfDay n = d.year := year_unique (yearOfDay_bounds n) (h ▸ d.toDays_bounds)
    rw [hy] at hd hsum ⊢
    let e : Date := ⟨d.year, month, day, d.year_supported, hm, hd⟩
    have hed : e = d := toDays_injective (hsum.trans h.symm)
    exact ofCivil?_eq_some_iff.2 (hed ▸ ⟨rfl, rfl, rfl⟩)

theorem exists_ofDays? {n : Int} (hl : yearStart leastYear ≤ n)
    (hg : n < yearStart (greatestYear + 1)) : ∃ d, ofDays? n = some d := by
  obtain ⟨month, day, he, hm, hd, -⟩ := exists_civil n
  have hb := yearOfDay_bounds n
  have hy : leastYear ≤ yearOfDay n ∧ yearOfDay n ≤ greatestYear := by
    refine ⟨Int.not_lt.1 fun h => ?_, Int.not_lt.1 fun h => ?_⟩
    · have := yearStart_le (show yearOfDay n + 1 ≤ leastYear by omega)
      omega
    · have := yearStart_le (show greatestYear + 1 ≤ yearOfDay n by omega)
      omega
  exact ⟨⟨yearOfDay n, month, day, hy, hm, hd⟩, he.trans (ofCivil?_eq_some_iff.2 ⟨rfl, rfl, rfl⟩)⟩

theorem toDays_range (d : Date) : -100_000_000 < d.toDays ∧ d.toDays < 100_000_000 := by
  have hy := d.year_supported
  have hb := d.toDays_bounds
  have hn := yearStart_near d.year
  have hn1 := yearStart_near (d.year + 1)
  unfold leastYear greatestYear at hy
  omega

end Date

end PullQuery
