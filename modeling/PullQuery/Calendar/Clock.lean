import PullQuery.Calendar.Delta

namespace PullQuery

namespace Clock

def span (second : Nat) : Nat := if second % 60 = 59 then 2_000_000_000 else 1_000_000_000

end Clock

structure Clock where
  second : Nat
  nanos : Nat
  second_lt : second < 86400
  nanos_lt : nanos < Clock.span second
deriving DecidableEq

namespace Clock

def midnight : Clock := ⟨0, 0, by decide, by decide⟩

def ofParts? (second nanos : Nat) : Option Clock :=
  if h : second < 86400 ∧ nanos < span second then some ⟨second, nanos, h.1, h.2⟩ else none

theorem lt_span {second nanos : Nat} (h : nanos < 1_000_000_000) : nanos < span second := by
  unfold span
  split <;> omega

def inLeapSecond (t : Clock) : Bool := 1_000_000_000 ≤ t.nanos

theorem span_of_inLeapSecond {t : Clock} (h : t.inLeapSecond = true) :
    span t.second = 2_000_000_000 := by
  have hn := t.nanos_lt
  have hl : 1_000_000_000 ≤ t.nanos := of_decide_eq_true h
  unfold span at hn ⊢
  split at hn
  case isTrue hs => rw [if_pos hs]
  case isFalse => omega

def ofTotal (second nanos : Int) : Clock × Int :=
  let s := second + nanos / 1_000_000_000
  (⟨(s % 86400).toNat, (nanos % 1_000_000_000).toNat, by omega, lt_span (by omega)⟩, s / 86400)

def add (t : Clock) (d : Delta) : Clock × Int :=
  if leap : t.inLeapSecond then
    if ends : 0 < d.seconds ∨ (0 < d.subsecond ∧ 2_000_000_000 ≤ t.nanos + d.subsecond) then
      ofTotal (t.second + d.seconds) (t.nanos - 1_000_000_000 + d.subsecond)
    else if d.seconds < 0 then
      ofTotal (t.second + 1 + d.seconds) (t.nanos - 1_000_000_000 + d.subsecond)
    else
      (⟨t.second, (t.nanos + d.subsecond).toNat, t.second_lt, by
        have := t.nanos_lt
        rw [span_of_inLeapSecond leap] at *
        omega⟩, 0)
  else ofTotal (t.second + d.seconds) (t.nanos + d.subsecond)

/-- The nanoseconds from the second time to the first, counting a leap second between them. -/
def since (t u : Clock) : Int :=
  let leap : Int :=
    if u.second < t.second ∧ u.inLeapSecond then 1
    else if t.second < u.second ∧ t.inLeapSecond then -1
    else 0
  ((t.second : Int) - u.second + leap) * 1_000_000_000 + ((t.nanos : Int) - u.nanos)

end Clock

end PullQuery
