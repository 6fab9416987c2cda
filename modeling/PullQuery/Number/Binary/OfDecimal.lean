import PullQuery.Number.Binary

namespace PullQuery.Binary

def mul (f : Format) : Binary → Binary → Binary
  | .finite s m e, .finite t n d =>
    f.nearest (s != t) (m * n * Nat.pow 2 (e + d).toNat) (Nat.pow 2 (-(e + d)).toNat)
  | .finite s m _, .infinite t => if m = 0 then .nan else .infinite (s != t)
  | .infinite s, .finite t n _ => if n = 0 then .nan else .infinite (s != t)
  | .infinite s, .infinite t => .infinite (s != t)
  | _, _ => .nan

def powerFrom (f : Format) : Nat → Binary → Binary → Nat → Binary
  | 0, product, _, _ => product
  | fuel + 1, product, square, exponent =>
    powerFrom f fuel (if exponent % 2 = 1 then mul f product square else product)
      (mul f square square) (exponent / 2)

def powerOfTen (f : Format) (exponent : Nat) : Binary :=
  powerFrom f (exponent.log2 + 1) (ofInt f 1) (ofInt f 10) exponent

def logTwo : Nat := 30102999566398120

/-- About the number of digits: the logarithm to base ten, rounded down, of twice the least power of
two above the integer. -/
def digitEstimate (n : Nat) : Nat := (n.log2 + 2) * logTwo / Nat.pow 10 17

def enoughDigits : Nat := 25

def block : Nat := 19

def shorten (n : Nat) (scale : Int) : Nat × Int :=
  let dropped := (digitEstimate n - enoughDigits) / block * block
  (n / Nat.pow 10 dropped, scale - dropped)

def mostPlaces : Nat := 400

def mostScale : Int := 2147483647

def ofDecimal (a : Decimal) : Binary :=
  let negative := a.unscaled < 0
  if a.isZero then .finite false 0 Format.double.leastExponent
  else if a.scale = 0 then ofInt .double a.unscaled
  else
    let (n, scale) := shorten a.unscaled.natAbs a.scale
    if scale < -mostScale ∨ mostScale < scale then .infinite negative
    else if 0 < scale then Format.double.nearest negative n (Nat.pow 10 (min scale.toNat mostPlaces))
    else mul .double (Format.double.nearest negative n 1) (powerOfTen .double (-scale).toNat)

example : Format.double.encode (ofDecimal ⟨15, 1⟩) = 0x3FF8000000000000 := by decide

end PullQuery.Binary
