import PullQuery.Calendar.DateTime
import PullQuery.Text

namespace PullQuery

namespace Calendar.Lexical

/-- Four digits in the years 0 to 9999; any other year has a sign before at least four digits. -/
def year (n : Int) : List Char :=
  let ds := Numeral.padded 4 n.natAbs
  if n < 0 then '-' :: ds else if 9999 < n then '+' :: ds else ds

/-- The fewest of 0, 3, 6 and 9 digits that are exact. -/
def fraction (nanos : Nat) : List Char :=
  if nanos = 0 then []
  else if nanos % 1_000_000 = 0 then '.' :: Numeral.padded 3 (nanos / 1_000_000)
  else if nanos % 1_000 = 0 then '.' :: Numeral.padded 6 (nanos / 1_000)
  else '.' :: Numeral.padded 9 nanos

def nanos (ds : List Char) : Nat :=
  let kept := ds.take 9
  Numeral.read kept * Nat.pow 10 (9 - kept.length)

def fraction? : List Char → Option Nat
  | [] => some 0
  | '.' :: ds => (Numeral.digits? ds).map fun _ => nanos ds
  | _ => none

def zoned? (value? : List Char → Option α) (text : String) : Option (α × Option Zone) := do
  let (body, zone) ← Zone.split? (Text.trim text.toList)
  let value ← value? body
  some (value, zone)

def zoned (value : List Char) (zone : Option Zone) : String :=
  String.ofList (value ++ Zone.lexical? zone)

end Calendar.Lexical

open Calendar.Lexical

namespace Date

def lexical (d : Date) : List Char :=
  Calendar.Lexical.year d.year
    ++ '-' :: Numeral.padded 2 d.month ++ '-' :: Numeral.padded 2 d.day

def ofLexical? (cs : List Char) : Option Date := do
  let negative := cs.head? == some '-'
  let body := if negative then cs.tail else cs
  let ds := body.takeWhile Char.isDigit
  match body.dropWhile Char.isDigit with
  | ['-', a, b, '-', c, d] =>
    if ds.length = 4 ∨ (negative ∧ 4 ≤ ds.length) then
      let month ← Numeral.digits? [a, b]
      let day ← Numeral.digits? [c, d]
      let n : Int := Numeral.read ds
      ofCivil? (if negative then -n else n) month day
    else none
  | _ => none

def parse? (text : String) : Option (Date × Option Zone) := zoned? ofLexical? text

def text (d : Date) (zone : Option Zone) : String := zoned d.lexical zone

end Date

namespace Clock

def lexical (t : Clock) : List Char :=
  let leap := t.nanos / 1_000_000_000
  Numeral.padded 2 (t.second / 3600)
    ++ ':' :: Numeral.padded 2 (t.second / 60 % 60)
    ++ ':' :: Numeral.padded 2 (t.second % 60 + leap)
    ++ fraction (t.nanos % 1_000_000_000)

def ofFields? (hour minute second nanos : Nat) : Option Clock :=
  if 23 < hour ∨ 59 < minute ∨ 60 < second then none
  else if second = 60 then ofParts? (hour * 3600 + minute * 60 + 59) (1_000_000_000 + nanos)
  else ofParts? (hour * 3600 + minute * 60 + second) nanos

def ofLexical? : List Char → Option Clock
  | a :: b :: ':' :: c :: d :: ':' :: e :: f :: rest => do
    let hour ← Numeral.digits? [a, b]
    let minute ← Numeral.digits? [c, d]
    let second ← Numeral.digits? [e, f]
    let n ← fraction? rest
    ofFields? hour minute second n
  | _ => none

def parse? (text : String) : Option (Clock × Option Zone) := zoned? ofLexical? text

def text (t : Clock) (zone : Option Zone) : String := zoned t.lexical zone

end Clock

namespace DateTime

def lexical (p : DateTime) : List Char := p.date.lexical ++ 'T' :: p.time.lexical

def ofLexical? (cs : List Char) : Option DateTime := do
  let date ← Date.ofLexical? (cs.takeWhile (· != 'T'))
  match cs.dropWhile (· != 'T') with
  | _ :: rest => (Clock.ofLexical? rest).map (⟨date, ·⟩)
  | [] => none

def parse? (text : String) : Option (DateTime × Option Zone) := zoned? ofLexical? text

def text (p : DateTime) (zone : Option Zone) : String := zoned p.lexical zone

end DateTime

example : (Date.ofLexical? "-0044-03-15".toList).map Date.lexical = some "-0044-03-15".toList := by
  decide +kernel

example : (Clock.ofLexical? "23:59:60.5".toList).map Clock.lexical =
    some "23:59:60.500".toList := by
  decide +kernel

end PullQuery
