import PullQuery.Number.Decimal

namespace PullQuery

/-- A finite number is worth `significand * 2 ^ exponent`, negated when `negative`. -/
inductive Binary
  | nan
  | infinite (negative : Bool)
  | finite (negative : Bool) (significand : Nat) (exponent : Int)
deriving Repr, DecidableEq

namespace Binary

structure Format where
  precision : Nat
  exponentBits : Nat
  leastExponent : Int

namespace Format

def double : Format := ⟨53, 11, -1074⟩

def single : Format := ⟨24, 8, -149⟩

def specialField (f : Format) : Nat := Nat.pow 2 f.exponentBits - 1

def fieldUnit (f : Format) : Nat := Nat.pow 2 (f.precision - 1)

def signUnit (f : Format) : Nat := f.fieldUnit * Nat.pow 2 f.exponentBits

def greatestExponent (f : Format) : Int := f.leastExponent + (f.specialField - 2 : Nat)

def scaled (n d : Nat) (e : Int) : Nat × Nat := (n * Nat.pow 2 (-e).toNat, d * Nat.pow 2 e.toNat)

def leadingExponent (n d : Nat) : Int :=
  let e : Int := (n.log2 : Int) - d.log2
  let (a, b) := scaled n d e
  if a < b then e - 1 else e

/-- The quotient of two naturals rounded to the nearest one, a half to the even one. -/
def roundQuotient (n d : Nat) : Nat :=
  let q := n / d
  let twice := 2 * (n % d)
  if d < twice || (twice == d && q % 2 == 1) then q + 1 else q

def nearest (f : Format) (negative : Bool) (n d : Nat) : Binary :=
  if n = 0 then .finite negative 0 f.leastExponent
  else
    let e := max f.leastExponent (leadingExponent n d - (f.precision - 1 : Nat))
    let (a, b) := scaled n d e
    let m := roundQuotient a b
    let (m, e) := if m = Nat.pow 2 f.precision then (f.fieldUnit, e + 1) else (m, e)
    if f.greatestExponent < e then .infinite negative else .finite negative m e

def encode (f : Format) : Binary → Nat
  | .nan => f.specialField * f.fieldUnit + f.fieldUnit / 2
  | .infinite s => s.toNat * f.signUnit + f.specialField * f.fieldUnit
  | .finite s m e =>
    let field := if m < f.fieldUnit then 0 else (e - f.leastExponent).toNat + 1
    s.toNat * f.signUnit + field * f.fieldUnit + m % f.fieldUnit

def decode (f : Format) (bits : Nat) : Binary :=
  let negative := bits / f.signUnit % 2 == 1
  let field := bits / f.fieldUnit % Nat.pow 2 f.exponentBits
  let fraction := bits % f.fieldUnit
  if field = f.specialField then if fraction = 0 then .infinite negative else .nan
  else if field = 0 then .finite negative fraction f.leastExponent
  else .finite negative (f.fieldUnit + fraction) (f.leastExponent + (field - 1 : Nat))

end Format

def ofDouble (x : Float) : Binary := Format.double.decode x.toBits.toNat

def toDouble (b : Binary) : Float := Float.ofBits (UInt64.ofNat (Format.double.encode b))

def ofSingle (x : Float32) : Binary := Format.single.decode x.toBits.toNat

def toSingle (b : Binary) : Float32 := Float32.ofBits (UInt32.ofNat (Format.single.encode b))

def isNaN : Binary → Bool
  | .nan => true
  | _ => false

def isFinite : Binary → Bool
  | .finite .. => true
  | _ => false

def isZero : Binary → Bool
  | .finite _ 0 _ => true
  | _ => false

def round (f : Format) : Binary → Binary
  | .finite s m e => f.nearest s (m * Nat.pow 2 e.toNat) (Nat.pow 2 (-e).toNat)
  | b => b

def ofInt (f : Format) (n : Int) : Binary := f.nearest (n < 0) n.natAbs 1

def signed (negative : Bool) (n : Nat) : Int := if negative then -n else n

def significandAt (negative : Bool) (m : Nat) (e target : Int) : Int :=
  signed negative (m * Nat.pow 2 (e - target).toNat)

def compare? : Binary → Binary → Option Ordering
  | .nan, _ => none
  | _, .nan => none
  | .infinite s, .infinite t => some (Ord.compare t s)
  | .infinite s, .finite .. => some (if s then .lt else .gt)
  | .finite .., .infinite t => some (if t then .gt else .lt)
  | .finite s m e, .finite t n d =>
    let low := min e d
    some (Ord.compare (significandAt s m e low) (significandAt t n d low))

def finiteDecimal (negative : Bool) (m : Nat) (e : Int) : Decimal :=
  let n := signed negative m
  if 0 ≤ e then ⟨n * Nat.pow 2 e.toNat, 0⟩ else ⟨n * Nat.pow 5 (-e).toNat, -e⟩

def remainder (f : Format) : Binary → Binary → Binary
  | .finite s m e, .finite _ n d =>
    if n = 0 then .nan
    else
      let low := min e d
      let r := (m * Nat.pow 2 (e - low).toNat) % (n * Nat.pow 2 (d - low).toNat)
      f.nearest s (r * Nat.pow 2 low.toNat) (Nat.pow 2 (-low).toNat)
  | .finite s m e, .infinite _ => .finite s m e
  | _, _ => .nan

def truncate? : Binary → Option Int
  | .finite s m e => some (signed s (m * Nat.pow 2 e.toNat / Nat.pow 2 (-e).toNat))
  | _ => none

def roundAway? : Binary → Option Int
  | .finite s m e =>
    let d := Nat.pow 2 (-e).toNat
    some (signed s ((2 * m * Nat.pow 2 e.toNat + d) / (2 * d)))
  | _ => none

def widen (x : Float32) : Float := toDouble ((ofSingle x).round .double)

def narrow (x : Float) : Float32 := toSingle ((ofDouble x).round .single)

example : Format.double.encode (Format.double.nearest false 1 10) = 0x3FB999999999999A := by decide
example : Format.single.encode (Format.double.nearest true 0 1) = 0x80000000 := by decide

end Binary

end PullQuery
