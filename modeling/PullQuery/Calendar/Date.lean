namespace PullQuery

namespace Calendar

def isLeap (year : Int) : Bool := year % 4 == 0 && (year % 100 != 0 || year % 400 == 0)

def monthLength (year : Int) : Nat → Nat
  | 2 => if isLeap year then 29 else 28
  | 4 | 6 | 9 | 11 => 30
  | _ => 31

def leastYear : Int := -262143

def greatestYear : Int := 262142

def yearStart (year : Int) : Int :=
  365 * year + (year + 3) / 4 - (year + 99) / 100 + (year + 399) / 400

def monthStart (year : Int) : Nat → Nat
  | 0 | 1 => 0
  | m + 1 => monthStart year m + monthLength year m

end Calendar

open Calendar

structure Date where
  year : Int
  month : Nat
  day : Nat
  year_supported : leastYear ≤ year ∧ year ≤ greatestYear
  month_exists : 1 ≤ month ∧ month ≤ 12
  day_exists : 1 ≤ day ∧ day ≤ monthLength year month
deriving DecidableEq

namespace Date

def ofCivil? (year : Int) (month day : Nat) : Option Date :=
  if h : (leastYear ≤ year ∧ year ≤ greatestYear) ∧ (1 ≤ month ∧ month ≤ 12)
      ∧ 1 ≤ day ∧ day ≤ monthLength year month then
    some ⟨year, month, day, h.1, h.2.1, h.2.2⟩
  else none

def toDays (d : Date) : Int := yearStart d.year + monthStart d.year d.month + (d.day - 1 : Nat)

def yearOfDay (n : Int) : Int :=
  let guess := n * 400 / 146097
  if n < yearStart guess then guess - 1
  else if yearStart (guess + 1) ≤ n then guess + 1
  else guess

def monthOfDay (year : Int) : Nat → Nat → Nat → Nat × Nat
  | 0, month, n => (month, n + 1)
  | fuel + 1, month, n =>
    let length := monthLength year month
    if n < length then (month, n + 1) else monthOfDay year fuel (month + 1) (n - length)

/-- The day that lies so many days after the start of year 0, if the calendar supports it. -/
def ofDays? (n : Int) : Option Date :=
  let year := yearOfDay n
  let (month, day) := monthOfDay year 11 1 (n - yearStart year).toNat
  ofCivil? year month day

/-- The same day of another month, or the last day of that month when it is shorter. -/
def addMonths? (d : Date) (months : Int) : Option Date :=
  let index := 12 * d.year + (d.month - 1 : Nat) + months
  let year := index / 12
  let month := (index % 12).toNat + 1
  ofCivil? year month (min d.day (monthLength year month))

theorem ofCivil?_self (d : Date) : ofCivil? d.year d.month d.day = some d := by
  simp only [ofCivil?, d.year_supported, d.month_exists, d.day_exists, and_self, dite_true]

example : (ofCivil? 2024 1 31).bind (·.addMonths? 1) = ofCivil? 2024 2 29 := by decide
example : (ofCivil? 2000 2 29).bind (fun d => ofDays? d.toDays) = ofCivil? 2000 2 29 := by decide

end Date

end PullQuery
