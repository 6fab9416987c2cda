import PullQuery.Text

namespace PullQuery

structure Zone where
  seconds : Int
  bounded : -86400 < seconds ∧ seconds < 86400
deriving DecidableEq

namespace Zone

def utc : Zone := ⟨0, by decide⟩

def ofSeconds? (n : Int) : Option Zone :=
  if h : -86400 < n ∧ n < 86400 then some ⟨n, h⟩ else none

def ofMinutes? (n : Int) : Option Zone := ofSeconds? (60 * n)

/-- `Z`, or a sign, hours and minutes; seconds are not written. -/
def lexical (z : Zone) : List Char :=
  if z.seconds = 0 then ['Z']
  else
    let n := z.seconds.natAbs
    (if z.seconds < 0 then '-' else '+') ::
      (Numeral.padded 2 (n / 3600) ++ ':' :: Numeral.padded 2 (n % 3600 / 60))

def lexical? : Option Zone → List Char
  | none => []
  | some z => z.lexical

def mostHours : Int := 14

def field? (a b : Char) : Option Int := Numeral.signed? [a, b]

def ofFields? (negative : Bool) (hours minutes : Int) : Option Zone :=
  if mostHours < hours ∨ 59 < minutes ∨ (hours = mostHours ∧ minutes ≠ 0) then none
  else
    let n := 3600 * hours + 60 * minutes
    ofSeconds? (if negative then -n else n)

/-- Takes a zone off the end of a text; a text that ends in no zone is left as it is. -/
def split? (cs : List Char) : Option (List Char × Option Zone) :=
  match cs.reverse with
  | 'Z' :: body => some (body.reverse, some utc)
  | d :: c :: ':' :: b :: a :: sign :: body =>
    if sign == '+' || sign == '-' then do
      let hours ← field? a b
      let minutes ← field? c d
      let zone ← ofFields? (sign == '-') hours minutes
      some (body.reverse, some zone)
    else some (cs, none)
  | _ => some (cs, none)

example : (split? "10:00:00-05:30".toList).bind (·.2) = ofSeconds? (-19800) := by decide

end Zone

end PullQuery
