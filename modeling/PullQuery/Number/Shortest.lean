import PullQuery.Number.Binary

/-!
Shortest decimals: for a positive number `m * 2 ^ e` of a format, the decimal with the fewest digits
among those that the format reads back as that number, and the nearest of these. The form in which
items show a floating-point number is built on it.
-/

namespace PullQuery.Shortest

inductive Tie
  | away
  | even
deriving DecidableEq

/-- The reals that a format reads as `value / 4 * 2 ^ e`, in the same unit: from `low` to `high`,
with both ends when `closed`. -/
structure Interval where
  low : Nat
  value : Nat
  high : Nat
  closed : Bool

def Interval.around (f : Binary.Format) (m : Nat) (e : Int) : Interval where
  low := if m = f.fieldUnit ∧ f.leastExponent < e then 4 * m - 1 else 4 * m - 2
  value := 4 * m
  high := 4 * m + 2
  closed := m % 2 == 0

def Interval.contains (i : Interval) (point unit : Nat) : Bool :=
  if i.closed then i.low * unit ≤ point && point ≤ i.high * unit
  else i.low * unit < point && point < i.high * unit

def units (k e : Int) : Nat × Nat :=
  (Nat.pow 10 k.toNat * Nat.pow 2 (2 - e).toNat, Nat.pow 10 (-k).toNat * Nat.pow 2 (e - 2).toNat)

def onGrid? (i : Interval) (tie : Tie) (e k : Int) : Option Nat :=
  let (step, unit) := units k e
  let below := i.value * unit / step
  let above := below + 1
  match i.contains (below * step) unit, i.contains (above * step) unit with
  | false, false => none
  | true, false => some below
  | false, true => some above
  | true, true =>
    match compare (2 * (i.value * unit)) ((below + above) * step), tie with
    | .lt, _ => some below
    | .gt, _ => some above
    | .eq, .away => some above
    | .eq, .even => some (if below % 2 = 0 then below else above)

def leadingPlace (m : Nat) (e : Int) : Int :=
  let guess := ((m.log2 + e) * 30103).fdiv 100000
  let reaches (k : Int) : Bool :=
    Nat.pow 10 k.toNat * Nat.pow 2 (-e).toNat ≤ m * Nat.pow 2 e.toNat * Nat.pow 10 (-k).toNat
  if reaches (guess + 1) then guess + 1
  else if reaches guess then guess
  else guess - 1

def finer (i : Interval) (tie : Tie) (e : Int) : Nat → Int → Decimal
  | 0, k => ⟨i.value, -k⟩
  | fuel + 1, k =>
    match onGrid? i tie e k with
    | some n => ⟨n, -k⟩
    | none => finer i tie e fuel (k - 1)

def mostDigits : Nat := 17

def digits (f : Binary.Format) (tie : Tie) (m : Nat) (e : Int) : Decimal :=
  (finer (.around f m e) tie e mostDigits (leadingPlace m e)).normalized

def display (f : Binary.Format) : Binary → List Char
  | .nan => "NaN".toList
  | .infinite s => if s then "-INF".toList else "INF".toList
  | .finite s m e =>
    let body := if m = 0 then ['0'] else (digits f .away m e).plain
    if s then '-' :: body else body

example : display .double (.nan) = "NaN".toList := rfl
example : (digits .double .away 1 (-1074)) = ⟨5, 324⟩ := by decide +kernel
example : (digits .single .away 0x800000 8) = ⟨21474836, -2⟩ := by decide +kernel

end PullQuery.Shortest
