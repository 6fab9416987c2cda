import PullQuery.Text

namespace PullQuery

structure Decimal where
  unscaled : Int
  scale : Int
deriving Repr, DecidableEq

namespace Decimal

def ofInt (n : Int) : Decimal := ⟨n, 0⟩

def isZero (a : Decimal) : Bool := a.unscaled == 0

def mostPlacesOfOne : Int := 38

def isOne (a : Decimal) : Bool :=
  0 ≤ a.scale && a.scale ≤ mostPlacesOfOne && a.unscaled == Nat.pow 10 a.scale.toNat

def unscaledAt (a : Decimal) (scale : Int) : Int := a.unscaled * Nat.pow 10 (scale - a.scale).toNat

def raisedPast (n : Int) (places : Int) (other : Int) : Int :=
  n * Nat.pow 10 (min places.toNat (other.natAbs.log2 + 1))

def compare (a b : Decimal) : Ordering :=
  Ord.compare (raisedPast a.unscaled (b.scale - a.scale) b.unscaled)
    (raisedPast b.unscaled (a.scale - b.scale) a.unscaled)

theorem natAbs_lt_ten (n : Int) : (n.natAbs : Int) < Nat.pow 10 (n.natAbs.log2 + 1) :=
  Int.ofNat_lt.mpr (Nat.lt_of_lt_of_le Nat.lt_log2_self
    (Nat.pow_le_pow_left (by decide) _))

theorem compare_mul_ten {m : Int} {j k : Nat} (n : Int) (hm : (m.natAbs : Int) < Nat.pow 10 j)
    (hjk : j ≤ k) : Ord.compare (n * Nat.pow 10 j) m = Ord.compare (n * Nat.pow 10 k) m := by
  have hle : (Nat.pow 10 j : Int) ≤ Nat.pow 10 k :=
    Int.ofNat_le.mpr (Nat.pow_le_pow_right (by decide) hjk)
  have hj : (0 : Int) ≤ Nat.pow 10 j := Int.natCast_nonneg _
  show compareOfLessAndEq _ _ = compareOfLessAndEq _ _
  rcases Int.lt_trichotomy n 0 with h | h | h
  · have h₁ : n * Nat.pow 10 j ≤ -1 * Nat.pow 10 j := Int.mul_le_mul_of_nonneg_right (by omega) hj
    have h₂ : n * Nat.pow 10 k ≤ -1 * Nat.pow 10 k :=
      Int.mul_le_mul_of_nonneg_right (by omega) (by omega)
    rw [compareOfLessAndEq, compareOfLessAndEq, if_pos (by omega), if_pos (by omega)]
  · rw [h, Int.zero_mul, Int.zero_mul]
  · have h₁ : 1 * (Nat.pow 10 j : Int) ≤ n * Nat.pow 10 j :=
      Int.mul_le_mul_of_nonneg_right (by omega) hj
    have h₂ : 1 * (Nat.pow 10 k : Int) ≤ n * Nat.pow 10 k :=
      Int.mul_le_mul_of_nonneg_right (by omega) (by omega)
    rw [compareOfLessAndEq, compareOfLessAndEq, if_neg (by omega), if_neg (by omega),
      if_neg (by omega), if_neg (by omega)]

theorem compare_raisedPast (n places m : Int) :
    Ord.compare (raisedPast n places m) m = Ord.compare (n * Nat.pow 10 places.toNat) m := by
  rcases Nat.le_total places.toNat (m.natAbs.log2 + 1) with h | h
  · rw [raisedPast, Nat.min_eq_left h]
  · rw [raisedPast, Nat.min_eq_right h]
    exact compare_mul_ten n (natAbs_lt_ten m) h

theorem raisedPast_of_nonpos (n m : Int) {places : Int} (h : places ≤ 0) :
    raisedPast n places m = n := by
  rw [raisedPast, Int.toNat_of_nonpos h, Nat.zero_min]
  exact Int.mul_one n

theorem compare_eq_compare_unscaledAt (a b : Decimal) :
    a.compare b = Ord.compare (a.unscaledAt (max a.scale b.scale))
      (b.unscaledAt (max a.scale b.scale)) := by
  rcases Int.le_total a.scale b.scale with h | h
  · rw [compare, raisedPast_of_nonpos b.unscaled a.unscaled (by omega), compare_raisedPast,
      Int.max_eq_right h, unscaledAt, unscaledAt, Int.sub_self]
    exact congrArg (Ord.compare _ ·) (Int.mul_one _).symm
  · have e := congrArg Ordering.swap
      (compare_raisedPast b.unscaled (a.scale - b.scale) a.unscaled)
    rw [← Std.OrientedOrd.eq_swap, ← Std.OrientedOrd.eq_swap] at e
    rw [compare, raisedPast_of_nonpos a.unscaled b.unscaled (by omega), e, Int.max_eq_left h,
      unscaledAt, unscaledAt, Int.sub_self]
    exact congrArg (Ord.compare · _) (Int.mul_one _).symm

def sameValue (a b : Decimal) : Bool := a.compare b == .eq

def neg (a : Decimal) : Decimal := ⟨-a.unscaled, a.scale⟩

def add (a b : Decimal) : Decimal :=
  let s := max a.scale b.scale
  ⟨a.unscaledAt s + b.unscaledAt s, s⟩

/-- A zero on either side leaves the other operand's scale alone. -/
def sub (a b : Decimal) : Decimal :=
  if b.isZero then a
  else if a.isZero then b.neg
  else
    let s := max a.scale b.scale
    ⟨a.unscaledAt s - b.unscaledAt s, s⟩

/-- A factor that is one leaves the other factor's scale alone. -/
def mul (a b : Decimal) : Decimal :=
  if a.isOne then b
  else if b.isOne then a
  else ⟨a.unscaled * b.unscaled, a.scale + b.scale⟩

def tdiv (a b : Decimal) : Int :=
  let s := max a.scale b.scale
  (a.unscaledAt s).tdiv (b.unscaledAt s)

/-- What the truncated quotient leaves of `a`; the multiple taken away has the scale of `b`. -/
def tmod (a b : Decimal) : Decimal :=
  let multiple : Decimal := ⟨b.unscaled * a.tdiv b, b.scale⟩
  (multiple.sub a).neg

def quotientDigits : Nat := 100

def raise (divisor : Nat) : Nat → Nat → Nat × Int
  | 0, n => (n, 0)
  | fuel + 1, n =>
    if n < divisor then
      let (m, k) := raise divisor fuel (n * 10)
      (m, k + 1)
    else (n, 0)

def extend (divisor : Nat) : Nat → Nat → Nat → Nat × Int × Nat
  | 0, quotient, remainder => (quotient, 0, remainder)
  | digits + 1, quotient, remainder =>
    if remainder = 0 then (quotient, 0, 0)
    else
      let (q, k, r) := extend divisor digits (quotient * 10 + remainder / divisor)
        (remainder % divisor * 10)
      (q, k + 1, r)

/-- The quotient of two positive integers as a decimal: exact when it ends within `quotientDigits`
digits, else with the last of them rounded half up. -/
def quotient (dividend divisor : Nat) : Decimal :=
  let (n, lifted) := raise divisor (Numeral.write divisor).length dividend
  let whole := n / divisor
  let (q, digits, r) := extend divisor (quotientDigits - (Numeral.write whole).length) whole
    (n % divisor * 10)
  ⟨if 5 ≤ r / divisor then q + 1 else q, lifted + digits⟩

def div (a b : Decimal) : Decimal :=
  if a.isZero || b.isOne then a
  else if a.unscaled = b.unscaled then ⟨1, a.scale - b.scale⟩
  else
    let q := quotient a.unscaled.natAbs b.unscaled.natAbs
    ⟨a.unscaled.sign * b.unscaled.sign * q.unscaled, a.scale - b.scale + q.scale⟩

def stripZeros : Nat → Int → Int → Decimal
  | 0, n, s => ⟨n, s⟩
  | fuel + 1, n, s => if n % 10 = 0 then stripZeros fuel (n / 10) (s - 1) else ⟨n, s⟩

def normalized (a : Decimal) : Decimal :=
  if a.isZero then ⟨0, 0⟩ else stripZeros a.unscaled.natAbs.log2 a.unscaled a.scale

def places (ds : List Char) (scale : Int) : List Char × List Char :=
  if scale ≤ 0 then (ds ++ List.replicate (-scale).toNat '0', [])
  else
    let s := scale.toNat
    if s < ds.length then ds.splitAt (ds.length - s) else (['0'], ds.leftpad s '0')

def positional (n : Nat) (scale : Int) : List Char :=
  match places (Numeral.write n) scale with
  | (whole, []) => whole
  | (whole, part) => whole ++ '.' :: part

def withSign (n : Int) (body : List Char) : List Char :=
  if n < 0 then '-' :: body else body

def plain (a : Decimal) : List Char :=
  let d := a.normalized
  withSign d.unscaled (positional d.unscaled.natAbs d.scale)

def mostLeadingZeros : Int := 5

def mostTrailingZeros : Int := 15

def lexical (a : Decimal) : List Char :=
  let n := a.unscaled.natAbs
  let ds := Numeral.write n
  let s := if n = 0 then 0 else a.scale
  withSign a.unscaled <|
    if 0 < s ∧ mostLeadingZeros < s - ds.length then
      let mantissa := match ds with
        | d :: e :: rest => d :: '.' :: e :: rest
        | ds => ds
      mantissa ++ 'E' :: Numeral.signed (ds.length - 1 - s)
    else if s < -mostTrailingZeros then ds ++ 'e' :: '+' :: Numeral.signed (-s)
    else positional n s

def ScaleBounded (s : Int) : Prop := -Nat.pow 2 63 ≤ s ∧ s < Nat.pow 2 63

instance (s : Int) : Decidable (ScaleBounded s) := inferInstanceAs (Decidable (_ ∧ _))

def mantissa? (cs : List Char) : Option Decimal :=
  let whole := cs.takeWhile (· != '.')
  let places := (cs.dropWhile (· != '.')).drop 1
  (Numeral.integer? (whole ++ places)).map fun n =>
    ⟨n, (places.filter (· != '_')).length⟩

def parse? (cs : List Char) : Option Decimal := do
  let isMark (c : Char) : Bool := c == 'e' || c == 'E'
  let m ← mantissa? (cs.takeWhile (!isMark ·))
  let exponent ← match cs.dropWhile (!isMark ·) with
    | [] => some 0
    | _ :: ds => Numeral.signed? ds
  let s := m.scale - exponent
  if ScaleBounded s then some ⟨m.unscaled, s⟩ else none

example : (parse? "1.50".toList).map plain = some "1.5".toList := by decide
example : (parse? "-.5".toList).map lexical = some "-0.5".toList := by decide
example : lexical ⟨1, 30⟩ = "1E-30".toList := by decide
example : lexical ⟨1, -30⟩ = "1e+30".toList := by decide

end Decimal

end PullQuery
