import PullQuery.Duration
import PullQuery.Calendar.Lexical

namespace PullQuery.Long

def greatest : Nat := 9_223_372_036_854_775_807

def ofNat? (n : Nat) : Option Nat := if n ≤ greatest then some n else none

def add? (m n : Nat) : Option Nat := ofNat? (m + n)

def mul? (m n : Nat) : Option Nat := ofNat? (m * n)

theorem ofNat?_of_le {n : Nat} (h : n ≤ greatest) : ofNat? n = some n := if_pos h

theorem ofNat?_eq_some_iff {m n : Nat} : ofNat? m = some n ↔ n ≤ greatest ∧ m = n := by
  unfold ofNat?
  split <;> grind

end PullQuery.Long

namespace PullQuery.Duration

namespace Lexical

structure Components where
  values : List (Char × Nat)
  nanos : Nat

namespace Components

def nothing : Components := ⟨[], 0⟩

def has (c : Components) (designator : Char) : Bool := (c.values.lookup designator).isSome

def value (c : Components) (designator : Char) : Nat := (c.values.lookup designator).getD 0

end Components

structure Scanner where
  components : Components
  designators : List Char
  digits : List Char
  fraction : Option (List Char)

namespace Scanner

def start (designators : List Char) : Scanner := ⟨.nothing, designators, [], none⟩

def nanos? (s : Scanner) (left : List Char) : Option Nat :=
  match s.fraction with
  | none => some s.components.nanos
  | some ds => if left ≠ [] ∨ ds = [] then none else some (Calendar.Lexical.nanos ds)

def designate? (s : Scanner) (c : Char) : Option Scanner :=
  match s.designators.dropWhile (· != c) with
  | [] => none
  | _ :: left =>
    if s.digits = [] then none
    else do
      let nanos ← s.nanos? left
      let n ← Long.ofNat? (Numeral.read s.digits)
      some ⟨⟨s.components.values ++ [(c, n)], nanos⟩, left, [], none⟩

def next? (takesFraction : Bool) (s : Scanner) (c : Char) : Option Scanner :=
  if c.isDigit then
    match s.fraction with
    | some ds => some { s with fraction := some (ds ++ [c]) }
    | none => some { s with digits := s.digits ++ [c] }
  else if c = '.' ∧ takesFraction ∧ s.fraction = none ∧ s.digits ≠ [] then
    some { s with fraction := some [] }
  else s.designate? c

def finish? (s : Scanner) : Option Components :=
  if s.digits = [] ∧ s.fraction = none then some s.components else none

end Scanner

def components? (designators : List Char) (takesFraction : Bool) (cs : List Char) :
    Option Components :=
  (cs.foldlM (Scanner.next? takesFraction) (.start designators)).bind Scanner.finish?

def halves (cs : List Char) : List Char × Option (List Char) :=
  match cs.dropWhile (· != 'T') with
  | [] => (cs, none)
  | _ :: time => (cs.takeWhile (· != 'T'), some time)

def timeComponents? : Option (List Char) → Option Components
  | none => some .nothing
  | some [] => none
  | some cs => components? ['H', 'M', 'S'] true cs

def body? (cs : List Char) : Option (Components × Components) := do
  let date ← components? ['Y', 'M', 'D'] false (halves cs).1
  let time ← timeComponents? (halves cs).2
  if date.values = [] ∧ time.values = [] then none else some (date, time)

def admits (kind : Kind) (date time : Components) : Bool :=
  match kind with
  | .full => true
  | .yearMonth => !(date.has 'D' || time.values != [])
  | .dayTime => !(date.has 'Y' || date.has 'M')

def months? (date : Components) : Option Int32 := do
  let years ← Long.mul? (date.value 'Y') 12
  let months ← Long.add? years (date.value 'M')
  Word.ofInt? months

def delta? (date time : Components) : Option Delta := do
  let days ← Long.mul? (date.value 'D') 86400
  let hours ← Long.mul? (time.value 'H') 3600
  let total ← Long.add? days hours
  let minutes ← Long.mul? (time.value 'M') 60
  let total ← Long.add? total minutes
  let total ← Long.add? total (time.value 'S')
  Delta.ofParts? total time.nanos

def yearMonth (months : Nat) : List Char :=
  (if months / 12 = 0 then [] else Numeral.write (months / 12) ++ ['Y'])
    ++ (if months % 12 = 0 then [] else Numeral.write (months % 12) ++ ['M'])

def fractionDigits (nanos : Nat) : List Char :=
  ((Numeral.padded 9 nanos).reverse.dropWhile (· == '0')).reverse

def seconds (n nanos : Nat) : List Char :=
  if n = 0 ∧ nanos = 0 then []
  else if nanos = 0 then Numeral.write n ++ ['S']
  else Numeral.write n ++ '.' :: fractionDigits nanos ++ ['S']

def time (n nanos : Nat) : List Char :=
  if n = 0 ∧ nanos = 0 then []
  else
    'T' :: (if n / 3600 = 0 then [] else Numeral.write (n / 3600) ++ ['H'])
      ++ (if n / 60 % 60 = 0 then [] else Numeral.write (n / 60 % 60) ++ ['M'])
      ++ seconds (n % 60) nanos

def dayTime (nanos : Nat) : List Char :=
  let n := nanos / 1_000_000_000
  (if n / 86400 = 0 then [] else Numeral.write (n / 86400) ++ ['D'])
    ++ time (n % 86400) (nanos % 1_000_000_000)

def withSign (negative : Bool) (cs : List Char) : List Char := if negative then '-' :: cs else cs

end Lexical

open Lexical

def ofLexical? (kind : Kind) (cs : List Char) : Option Duration :=
  let negative := cs.head? == some '-'
  match if negative then cs.tail else cs with
  | 'P' :: body => do
    let (date, time) ← body? body
    if admits kind date time then
      let months ← months? date
      let delta ← delta? date time
      some (if negative then ⟨-months, delta.neg⟩ else ⟨months, delta⟩)
    else none
  | _ => none

def parse? (kind : Kind) (text : String) : Option Duration :=
  ofLexical? kind (Text.trim text.toList)

def monthsLexical (m : Int32) : List Char :=
  match yearMonth m.toInt.natAbs with
  | [] => "P0M".toList
  | body => withSign (m.toInt < 0) ('P' :: body)

def deltaLexical (d : Delta) : List Char :=
  match dayTime d.nanos.natAbs with
  | [] => "PT0S".toList
  | body => withSign (d.nanos < 0) ('P' :: body)

/-- The magnitudes of both parts behind one sign. -/
def fullLexical (d : Duration) : List Char :=
  let body := yearMonth d.months.toInt.natAbs ++ dayTime d.delta.nanos.natAbs
  withSign d.isNegative ('P' :: if body = [] then "T0S".toList else body)

def lexical : Kind → Duration → List Char
  | .full, d => d.fullLexical
  | .yearMonth, d => monthsLexical d.months
  | .dayTime, d => deltaLexical d.delta

def text (kind : Kind) (d : Duration) : String := String.ofList (d.lexical kind)

example : (ofLexical? .full "-P14MT36H".toList).map (lexical .full)
    = some "-P1Y2M1DT12H".toList := rfl

example : (ofLexical? .dayTime "PT1.5S".toList).map (lexical .dayTime)
    = some "PT1.5S".toList := rfl

end PullQuery.Duration
