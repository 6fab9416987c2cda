import PullQuery.Json.Basic
import PullQuery.Json.Quoted

namespace PullQuery.Json

def isSpace (c : Char) : Bool := c == ' ' || c == '\t' || c == '\n' || c == '\r'

def skipSpace (cs : List Char) : List Char := cs.dropWhile isSpace

def someDigits? (cs : List Char) : Option (List Char × List Char) :=
  match cs.takeWhile Char.isDigit with
  | [] => none
  | ds => some (ds, cs.dropWhile Char.isDigit)

def whole? : List Char → Option (List Char × List Char)
  | '0' :: rest => some (['0'], rest)
  | cs => someDigits? cs

def fraction? : List Char → Option (Option (List Char) × List Char)
  | '.' :: rest => do
    let (ds, rest) ← someDigits? rest
    some (some ds, rest)
  | cs => some (none, cs)

def exponent? : List Char → Option (Option (Bool × List Char) × List Char)
  | c :: rest =>
    if c = 'e' ∨ c = 'E' then do
      let (negative, rest) := match rest with
        | '+' :: rest => (false, rest)
        | '-' :: rest => (true, rest)
        | rest => (false, rest)
      let (ds, rest) ← someDigits? rest
      some (some (negative, ds), rest)
    else some (none, c :: rest)
  | [] => some (none, [])

def literal? (cs : List Char) : Option (Literal × List Char) := do
  let (negative, rest) := match cs with
    | '-' :: rest => (true, rest)
    | cs => (false, cs)
  let (whole, rest) ← whole? rest
  let (fraction, rest) ← fraction? rest
  let (exponent, rest) ← exponent? rest
  some (⟨negative, whole, fraction, exponent⟩, rest)

variable {α : Type}

def separated? (element? : List Char → Option (α × List Char)) (close : Char) :
    Nat → List Char → Option (List α × List Char)
  | 0, _ => none
  | n + 1, cs => do
    let (a, rest) ← element? cs
    match skipSpace rest with
    | ',' :: rest =>
      let (as, rest) ← separated? element? close n rest
      some (a :: as, rest)
    | c :: rest => if c = close then some ([a], rest) else none
    | [] => none

def enclosed? (element? : List Char → Option (α × List Char)) (close : Char) (cs : List Char) :
    Option (List α × List Char) :=
  match skipSpace cs with
  | [] => none
  | c :: rest =>
    if c = close then some ([], rest)
    else separated? element? close (rest.length + 1) (c :: rest)

def member? (value? : List Char → Option (α × List Char)) (cs : List Char) :
    Option ((String × α) × List Char) :=
  match skipSpace cs with
  | '"' :: rest => do
    let (name, rest) ← Quoted.decode rest
    match skipSpace rest with
    | ':' :: rest =>
      let (a, rest) ← value? rest
      some ((String.ofList name, a), rest)
    | _ => none
  | _ => none

/-- One value from the front of a text, with at most `depth` arrays and objects in each other. -/
def value? (depth : Nat) (cs : List Char) : Option (Json × List Char) :=
  match skipSpace cs with
  | 'n' :: 'u' :: 'l' :: 'l' :: rest => some (.null, rest)
  | 't' :: 'r' :: 'u' :: 'e' :: rest => some (.boolean true, rest)
  | 'f' :: 'a' :: 'l' :: 's' :: 'e' :: rest => some (.boolean false, rest)
  | '"' :: rest => do
    let (s, rest) ← Quoted.decode rest
    some (.string (String.ofList s), rest)
  | '[' :: rest =>
    match depth with
    | 0 => none
    | depth + 1 => do
      let (elements, rest) ← enclosed? (value? depth) ']' rest
      some (.array elements, rest)
  | '{' :: rest =>
    match depth with
    | 0 => none
    | depth + 1 => do
      let (fields, rest) ← enclosed? (member? (value? depth)) '}' rest
      some (.object fields, rest)
  | cs => do
    let (l, rest) ← literal? cs
    some (.number l, rest)

def mostDepth : Nat := 127

def tree? (cs : List Char) : Option Json := do
  let (v, rest) ← value? mostDepth cs
  if skipSpace rest = [] then some v else none

mutual

def settled? : Json → Option Json
  | .number l => if l.number?.isSome then some (.number l) else none
  | .array elements => (settledList? elements).map .array
  | .object fields => (settledFields? fields).map fun fs => .object (Fields.ofList fs)
  | v => some v

def settledList? : List Json → Option (List Json)
  | [] => some []
  | v :: vs => do
    let v ← settled? v
    let vs ← settledList? vs
    some (v :: vs)

def settledFields? : List (String × Json) → Option (List (String × Json))
  | [] => some []
  | (k, v) :: fs => do
    let v ← settled? v
    let fs ← settledFields? fs
    some ((k, v) :: fs)

end

def readChars? (cs : List Char) : Option Json := (tree? cs).bind settled?

def read? (text : String) : Option Json := readChars? text.toList

end PullQuery.Json
