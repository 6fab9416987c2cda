import PullQuery.Number.Shortest
import PullQuery.Fields

/-!
JSON values with their numbers as they are spelled, and what a spelled number is worth.
-/

namespace PullQuery

namespace Json

structure Literal where
  negative : Bool
  whole : List Char
  fraction : Option (List Char)
  exponent : Option (Bool × List Char)
deriving DecidableEq, Repr

inductive Number
  | integer (n : Int)
  | double (x : Float)

namespace Literal

def ofInt (n : Int) : Literal := ⟨n < 0, Numeral.write n.natAbs, none, none⟩

def leastPlainExponent : Int := -5

def greatestPlainExponent : Int := 15

def ofFinite (negative : Bool) (m : Nat) (e : Int) : Literal :=
  if m = 0 then ⟨negative, ['0'], some ['0'], none⟩
  else
    let d := Shortest.digits .double .even m e
    let ds := Numeral.write d.unscaled.natAbs
    let exponent : Int := ds.length - 1 - d.scale
    if leastPlainExponent ≤ exponent ∧ exponent ≤ greatestPlainExponent then
      match Decimal.places ds d.scale with
      | (whole, []) => ⟨negative, whole, some ['0'], none⟩
      | (whole, part) => ⟨negative, whole, some part, none⟩
    else
      let part := ds.tail
      ⟨negative, ds.take 1, if part = [] then none else some part,
        some (exponent < 0, Numeral.write exponent.natAbs)⟩

def toDecimal (l : Literal) : Decimal :=
  let part := l.fraction.getD []
  ⟨Binary.signed l.negative (Numeral.read (l.whole ++ part)), part.length⟩

def significandBound : Nat := Nat.pow 2 64

def takeDigit? (significand : Nat) (c : Char) : Option Nat :=
  let n := 10 * significand + (c.toNat - '0'.toNat)
  if n < significandBound then some n else none

def gather (significand : Nat) : List Char → Nat × Nat
  | [] => (significand, 0)
  | c :: cs =>
    match takeDigit? significand c with
    | some n => gather n cs
    | none => (significand, cs.length + 1)

def greatestPower : Nat := 308

def power (n : Nat) : Float := Binary.toDouble (Binary.Format.double.nearest false (Nat.pow 10 n) 1)

def scaleDown (x : Float) (rest : Nat) : Nat → Float
  | 0 => x / power rest
  | steps + 1 => if x == 0 then x else scaleDown (x / power greatestPower) rest steps

def scaled? (significand : Nat) (exponent : Int) : Option Float :=
  let x := Binary.toDouble (Binary.ofInt .double significand)
  if 0 ≤ exponent then
    if greatestPower < exponent then if x == 0 then some x else none
    else
      let y := x * power exponent.toNat
      if y.isInf then none else some y
  else
    let n := (-exponent).toNat
    if n ≤ greatestPower then some (scaleDown x n 0)
    else
      let steps := (n - greatestPower + greatestPower - 1) / greatestPower
      some (scaleDown x (n - steps * greatestPower) steps)

/-- The double that the digits are read as, one digit gathered after the other. Scaling rounds, so that
it can overflow for a literal that is a little below the greatest double. -/
def double? (l : Literal) : Option Float :=
  let (whole, dropped) := gather 0 l.whole
  let fraction := l.fraction.getD []
  let (significand, ignored) := gather whole fraction
  let places : Int := fraction.length - ignored
  let exponent : Int := match l.exponent with
    | none => 0
    | some (negative, ds) =>
      let n : Int := Numeral.read ds
      if negative then -n else n
  (scaled? significand (dropped - places + exponent)).map fun x => if l.negative then -x else x

def integer? (l : Literal) : Option Int :=
  let n := Numeral.read l.whole
  if l.fraction.isSome || l.exponent.isSome then none
  else if l.negative then if 0 < n ∧ n ≤ Nat.pow 2 63 then some (-n) else none
  else if n < Nat.pow 2 64 then some n else none

/-- What is kept of the literal; nothing, if it is no integer and scaling its digits overflows. -/
def number? (l : Literal) : Option Number :=
  match l.integer? with
  | some n => some (.integer n)
  | none => l.double?.map .double

end Literal

end Json

inductive Json
  | null
  | boolean (b : Bool)
  | number (l : Json.Literal)
  | string (s : String)
  | array (elements : List Json)
  | object (fields : List (String × Json))

namespace Json

def field? (name : String) : Json → Option Json
  | .object fields => Fields.find? name fields
  | _ => none

def string? : Json → Option String
  | .string s => some s
  | _ => none

end Json

end PullQuery
